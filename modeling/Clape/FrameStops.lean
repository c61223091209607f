import Clape.FrameSimulation

namespace Clape
set_option autoImplicit true

section Entries
variable {t : Table} {s : Ipt} {pt : PageTable}

/-- The invariant of the page table. -/
def Table.Good (t : Table) : Prop := t.Own ∧ t.Hashed

theorem Table.Own.io_of_user (h : t.Own) (hu : (t.entries i).user = true)
    (hp : (t.role (t.entries i).pid).hold = none) : (t.entries i).ctrl.io = false := by
  cases hio : (t.entries i).ctrl.io with
  | false => rfl
  | true =>
    obtain ⟨q, o, hq⟩ := (h.fits i).io hio
    exact (h.not_held_of_user hu hp q o hq).elim

theorem Table.Own.swap_of_not_forks (h : t.Own) (hp : (t.role (t.entries i).pid).forks = false) :
    (t.entries i).ctrl.swap = false := by
  cases hs : (t.entries i).ctrl.swap with
  | false => rfl
  | true =>
    rw [((h.fits i).swap hs).2] at hp
    cases hp

theorem freePages_total {t : Table} {s : Ipt} (h : t.Good) (hn : t.n = s.pt.nEntry)
    (hE : t.entries = s.pt.entries) (hht : t.ht = s.ht) (hr : t.role t.cur = .leaving) :
    ∃ u, s.freePages t.cur = .ok u := by
  have hs : Sound (fun _ => False) (fun u : Ipt =>
      Table.Good { t with entries := u.pt.entries, ht := u.ht }) (s.freePages t.cur) := by
    apply Sound.foldlM (P := fun u : Ipt =>
      Table.Good { t with entries := u.pt.entries, ht := u.ht })
    · rw [← hE, ← hht]
      exact h
    · intro i hi u hu
      have hin : i < t.n := by rw [hn]; exact List.mem_range.1 hi
      unfold Ipt.freePage
      simp only
      split
      · rename_i hc
        simp only [Bool.and_eq_true, beq_iff_eq] at hc
        have hrole : t.role (u.pt.entries i).pid = .leaving := by rw [hc.1, hr]
        have hio : (u.pt.entries i).ctrl.io = false :=
          hu.1.io_of_user hc.2 (by simp only [hrole]; rfl)
        have hsw : (u.pt.entries i).ctrl.swap = false :=
          hu.1.swap_of_not_forks (by simp only [hrole]; rfl)
        have hk : (u.pt.entries i).page ≠ kmallocPage := (PtEntry.user_iff.1 hc.2).2
        have hkey : Key t.n u.pt.entries i (u.pt.entries i).page t.cur := ⟨hin, hc.2, rfl, hc.1⟩
        obtain ⟨ht, hrem⟩ := hu.2.indexed.removes hkey (hu.1.not_pending_of_io hio)
        have hrem' : u.ht.removeFromHash (u.pt.entries i).page t.cur = .ok ht := hrem
        simp only [hio, hsw, bne_iff_ne.2 hk, Bool.not_false, kassert_true, hrem', bind,
          Except.bind, pure, Except.pure]
        have hm := @TableMove.release False { t with entries := u.pt.entries, ht := u.ht } i ht hr
          hin hc.1 hc.2 hrem
        exact ⟨hu.1.step hu.2 hm, hu.2.step hu.1 hm⟩
      · exact hu
  cases hx : s.freePages t.cur with
  | ok u => exact ⟨u, rfl⟩
  | error e => exact (hs.error hx).elim

theorem Coherent.updateTlbBit_ok (h : Coherent pt.nEntry E m act)
    (hu : ∀ {i j v p}, Key pt.nEntry E i v p → Key pt.nEntry E j v p → i = j)
    (hk : k < numTlb) (hx : m.slots k = some x)
    (hE : ∀ i, SameKey (E i) (pt.entries i) ∧
      ((E i).ctrl.tlb = true → (pt.entries i).ctrl.tlb = true)) :
    ∃ pt', pt.updateTlbBit x.vpage m.previousPid = .ok pt' := by
  unfold PageTable.updateTlbBit
  split
  · exact ⟨pt, rfl⟩
  · rename_i i hi
    have hmem := List.mem_range.1 (List.mem_of_find?_eq_some hi)
    have htest := List.find?_some hi
    simp only [Bool.and_eq_true, beq_iff_eq] at htest
    obtain ⟨⟨hpid, hpg⟩, hval⟩ := htest
    have haddr := h.addr hk hx
    have hkey : Key pt.nEntry pt.entries i x.vpage m.previousPid :=
      ⟨hmem, PtEntry.user_iff.2 ⟨hval, hpg ▸ haddr⟩, hpg, hpid⟩
    rw [key_congr fun j => (hE j).1] at hkey
    have htlb : (pt.entries i).ctrl.tlb = true := by
      rcases h.entry hk hx with hb | hn
      · rw [hu hkey hb.1]
        exact (hE _).2 hb.2
      · exact (hn i hkey).elim
    have hk' : (pt.entries i).page ≠ kmallocPage := by rwa [hpg]
    exact ⟨_, by simp only [bne_iff_ne.2 hk', htlb, kassert_true]; rfl⟩

theorem tlbInsert_total (hu : ∀ {i j v p}, Key pt.nEntry E i v p → Key pt.nEntry E j v p → i = j)
    (h : Coherent pt.nEntry E m act)
    (hE : ∀ i, SameKey (E i) (pt.entries i) ∧
      ((E i).ctrl.tlb = true → (pt.entries i).ctrl.tlb = true))
    (as : AddrSpace) (v i : Nat) : ∃ r, tlbInsert pt m as m.previousPid v i = .ok r := by
  unfold tlbInsert
  simp only
  split
  · exact ⟨_, rfl⟩
  · cases hs : m.slots m.nextVictim with
    | none => exact ⟨_, rfl⟩
    | some y =>
      obtain ⟨pt', hpt'⟩ := h.updateTlbBit_ok hu h.victim hs hE
      simp only [hpt']
      exact ⟨_, rfl⟩

theorem asActivate_total {t : Table} (ho : t.Own) (hh : t.Hashed) (h : t.Cached)
    (hn : t.n = pt.nEntry) (hE : t.entries = pt.entries) (as : Option AddrSpace) (q : Nat) :
    ∃ r, asActivate pt t.mmu as q = .ok r := by
  cases as with
  | none => exact ⟨_, rfl⟩
  | some as =>
    simp only [asActivate, tlbInvalidateAll]
    split
    · exact ⟨_, rfl⟩
    · have hs : Sound (fun _ => False) (fun x : PageTable × Mmu =>
          (Table.Own { t with entries := x.1.entries, mmu := x.2 } ∧
          Table.Hashed { t with entries := x.1.entries, mmu := x.2 } ∧
          Table.Cached { t with entries := x.1.entries, mmu := x.2 }) ∧ x.1.nEntry = pt.nEntry)
          ((List.range numTlb).foldlM invalidateSlot (pt, t.mmu)) := by
        apply Sound.foldlM (P := fun x : PageTable × Mmu =>
          (Table.Own { t with entries := x.1.entries, mmu := x.2 } ∧
          Table.Hashed { t with entries := x.1.entries, mmu := x.2 } ∧
          Table.Cached { t with entries := x.1.entries, mmu := x.2 }) ∧ x.1.nEntry = pt.nEntry)
        · rw [← hE]
          exact ⟨⟨ho, hh, h⟩, rfl⟩
        · intro k hk x hx
          obtain ⟨⟨ho, hh, h⟩, hxn⟩ := hx
          have hk := List.mem_range.1 hk
          cases hs : x.2.slots k with
          | none =>
            simp only [invalidateSlot, hs]
            have hsame : x.2.write k none = x.2 := by
              unfold Mmu.write
              rw [← hs, Function.update_eq_self]
            refine ⟨?_, hxn⟩
            simp only [hsame]
            exact ⟨ho, hh, h⟩
          | some e =>
            simp only [invalidateSlot, hs]
            have hc := h.coherent
            simp only [hn, ← hxn] at hc
            have hun := @hh.peopled.unique
            simp only [hn, ← hxn] at hun
            obtain ⟨pt', hpt'⟩ := hc.updateTlbBit_ok (fun h₁ h₂ => hun h₁ h₂) hk hs
              (fun i => ⟨.refl _, id⟩)
            rw [hpt']
            obtain ⟨hcl, hn', -⟩ := TlbCleared.of_updateTlbBit hpt'
            rw [hxn, ← hn] at hcl
            have hm := @TableMove.invalidate True { t with entries := x.1.entries, mmu := x.2 }
              _ _ _ hk hs hcl
            exact ⟨⟨ho.step hh hm, hh.step ho hm, h.step ho hh hm⟩, hn'.trans hxn⟩
      cases hx : (List.range numTlb).foldlM invalidateSlot (pt, t.mmu) with
      | ok r => exact ⟨_, rfl⟩
      | error e => exact (hs.error hx).elim

end Entries

/-- The stops that the TLB bits can cause. -/
inductive TlbStop (s : Sys) : Fault → Prop where
  | activate (as : Option AddrSpace) (q : Nat) : asActivate s.ipt.pt s.mmu as q = .error e →
      TlbStop s e
  | get : s.Misses v → s.ipt.ht.getIndexFromHash v s.cur = .ok (some i) →
      (s.ipt.pt.entries i).ctrl.tlb = true → TlbStop s (.kassert .ptGetPaddr .tlb)
  | insert (pt : PageTable) : s.as s.cur = some A → pt.nEntry = s.ipt.pt.nEntry →
      (∀ i, SameKey (s.ipt.pt.entries i) (pt.entries i) ∧
        ((s.ipt.pt.entries i).ctrl.tlb = true → (pt.entries i).ctrl.tlb = true)) →
      tlbInsert pt s.mmu as s.cur v i = .error e → TlbStop s e

/-- The stops that are left when the page table is in order: an address space without two
regions, a fault outside the segments, and those of the swap file. -/
inductive Cause (s : Sys) : Action → Fault → Prop where
  | notOk : s.pc s.cur = .run → s.as s.cur = some as → as.isOk = false → t ≠ .readonly →
      Cause s (.fault t a) (.kassert .vmFault .addrspace)
  | segv : s.pc s.cur = .loadPage v i → s.as s.cur = some as → as.loadPlan v = .segv →
      s.ipt.freePages s.cur = .error e → Cause s .advance e
  | store : s.pc s.cur = .storeSwap k i v p → s.swap.storeBegin (s.as s.cur) v p = .error e →
      Cause s .advance e
  | storing : s.pc s.cur = .storing k i c → s.swap.storeEnd s.cur c = .error e →
      Cause s .advance e
  | loadBegin : s.pc s.cur = .loadPage v i → s.as s.cur = some as →
      s.swap.loadBegin as v s.cur = .error e → Cause s .advance e
  | testStore : s.pc s.cur = .cell k c → s.swap.testStore s.cur c k.fn = .error e →
      Cause s .advance e
  | copyTake : s.pc s.cur = .copySwap child sg (some c) → s.swap.copyBegin sg child = .error e →
      Cause s .advance e

theorem backed_set {E : Nat → PtEntry} (he : SameKey (E i) e) (ht : e.ctrl.tlb = true) (j : Nat) :
    SameKey (E j) (Function.update E i e j) ∧
      ((E j).ctrl.tlb = true → (Function.update E i e j).ctrl.tlb = true) := by
  refine ⟨sameKey_set he j, fun hj => ?_⟩
  by_cases hji : j = i
  · subst hji
    rw [Function.update_self, ht]
  · rw [Function.update_of_ne hji, hj]

theorem not_error {x : Except ε α} (h : ∃ r, x = .ok r) (he : x = .error e) : False := by
  obtain ⟨r, hr⟩ := h
  rw [hr] at he
  cases he

/-- No operation on the page table stops but for a TLB bit. -/
theorem Stop.cause (h : Stop s a e) (ho : s.table.Own) (hh : s.table.Hashed) :
    Cause s a e ∨ TlbStop s e := by
  have hrole : s.table.role s.cur = (s.pc s.cur).role := rfl
  cases h with
  | dispatch he _ => exact .inr (.activate _ _ he)
  | notOk hpc has hok ht => exact .inl (.notOk hpc has hok ht)
  | ptGetPaddr hpc has hv hmiss ha hget =>
    rename_i v a t
    apply Or.inr
    obtain ⟨o, ho'⟩ := hh.indexed.looks v s.cur
    have ho' : s.ipt.ht.getIndexFromHash v s.cur = .ok o := ho'
    unfold Ipt.ptGetPaddr at hget
    rw [ho'] at hget
    cases o with
    | none => cases hget
    | some i =>
      obtain ⟨⟨hi, hu, hpg, hpid⟩, -⟩ := hh.indexed.lookup_some ho'
      have hio : (s.ipt.pt.entries i).ctrl.io = false := by
        apply ho.io_of_user hu
        rw [hpid, hrole, hpc]
        rfl
      have hk : (s.ipt.pt.entries i).page ≠ kmallocPage := (PtEntry.user_iff.1 hu).2
      have hpid' : (s.ipt.pt.entries i).pid = s.cur := hpid
      have hpg' : (s.ipt.pt.entries i).page = v := hpg
      cases htlb : (s.ipt.pt.entries i).ctrl.tlb with
      | false =>
        simp only [hpid', hpg', hio, htlb, beq_self_eq_true, Bool.not_false, kassert_true, bind,
          Except.bind, bne_iff_ne.2 (hpg' ▸ hk)] at hget
        cases hget
      | true =>
        simp only [hpid', hpg', hio, htlb, beq_self_eq_true, Bool.not_false, kassert_true, bind,
          Except.bind, bne_iff_ne.2 (hpg' ▸ hk)] at hget
        cases hget
        exact .get hmiss ho' htlb
  | hit hpc has hv hmiss ha hget hins =>
    rename_i i t
    obtain ⟨-, -, -, -, -, -, rfl⟩ := ptGetPaddr_some hget
    exact .inr (.insert (s.ipt.pt.set i _) has rfl
      (backed_set (e := (s.ipt.pt.entries i).setTlb true) ⟨rfl, fun _ => ⟨rfl, rfl⟩⟩ rfl) hins)
  | space hpc has hv ha hget hsp hclaim =>
    rename_i v a ipt₀ i t
    obtain ⟨hi, hsp⟩ := PageTable.findspace_some hsp
    have hval : (s.ipt.pt.entries i).ctrl.validity = false := by
      simp only [PtEntry.isSpace, Bool.and_eq_true, Bool.not_eq_true'] at hsp
      exact hsp.1.1.1
    have hl := ptGetPaddr_none hget
    obtain ⟨ht, hadd⟩ := hh.indexed.adds (v := v) (p := s.cur) hi
      (fun w q hk => (Table.no_key_of_invalid (t := s.table) hval w q hk).elim)
      (fun j hk => hh.indexed.lookup_none hl hk)
    have hadd : s.ipt.ht.addInHash v s.cur i = .ok ht := hadd
    unfold Ipt.claimSpace at hclaim
    rw [hadd] at hclaim
    cases hclaim
  | exit hpc _ hfree =>
    have hr : s.table.role s.table.cur = .user := hrole.trans (by rw [hpc]; rfl)
    have hm := TableMove.leave (F := False) hr
    obtain ⟨u, hu⟩ := freePages_total ⟨ho.step hh hm, hh.step ho hm⟩ (s := s.ipt) rfl rfl rfl
      (Function.update_self ..)
    exact (not_error ⟨u, hu⟩ hfree).elim
  | segv hpc has hplan hfree => exact .inl (.segv hpc has hplan hfree)
  | allocFree hpc hrun hmark =>
    rename_i f i
    have hfree := (freeRun_last hrun).2
    simp only [PtEntry.isFree, Bool.and_eq_true, Bool.not_eq_true', bne_iff_ne] at hfree
    obtain ⟨⟨⟨⟨h1, h2⟩, h3⟩, h4⟩, h5⟩ := hfree
    simp only [PageTable.markFree, h1, h2, h3, h4, bne_iff_ne.2 h5, Bool.not_false, kassert_true,
      bind, Except.bind] at hmark
    cases hmark
  | allocTake hpc hsearch hclaim =>
    rename_i fp E f i
    have hsame := s.ipt.pt.chanceSearch_sameButRef 1 fp
    have hlt := @PageTable.chanceSearch_lt 1 fp f i s.ipt.pt
    rw [hsearch] at hsame hlt
    have hi := hlt rfl
    obtain ⟨htlb, hio, hk, hsw, href⟩ := (PageTable.chanceSearch_last hsearch).bits
    have hm : TableMove False s.table { s.table with entries := E } := .refs hsame
    have ho' := ho.step hh hm
    have hh' := hh.step ho hm
    unfold Ipt.claimKernel at hclaim
    cases hv : (E i).ctrl.validity with
    | false =>
      simp only [htlb, hio, hsw, hv, bne_iff_ne.2 hk, Bool.not_false, Bool.true_or, kassert_true,
        bind, Except.bind] at hclaim
      cases hclaim
    | true =>
      obtain ⟨ht, hrem⟩ := hh'.indexed.removes
        (key_of_user hi (PtEntry.user_iff.2 ⟨hv, hk⟩)) (ho'.not_pending_of_io hio)
      have hrem : s.ipt.ht.removeFromHash (E i).page (E i).pid = .ok ht := hrem
      simp only [htlb, hio, hsw, hv, href hv, bne_iff_ne.2 hk, Bool.not_false, Bool.or_true,
        kassert_true, bind, Except.bind, if_true, hrem] at hclaim
      cases hclaim
  | kfree hone hfree =>
    rename_i i
    obtain ⟨-, hk, -⟩ := (ho.fits i).granted hone
    have hk : (s.ipt.pt.entries i).page = kmallocPage := hk
    have hl : List.range' i (Int.toNat 1) = [i] := rfl
    simp only [PageTable.freeContiguousPages, hone, hl, List.foldlM_cons, List.foldlM_nil,
      PageTable.freeFrame, hk, beq_self_eq_true, kassert_true, bind, Except.bind, pure,
      Except.pure] at hfree
    cases hfree
  | fork hpc hprep =>
    obtain ⟨i, hi, hpid, hu, hio⟩ := (markCopy_spec ..).error hprep
    have := ho.io_of_user (i := i) hu (by
      rw [show (s.table.entries i).pid = s.cur from hpid, hrole, hpc]
      rfl)
    rw [show (s.ipt.pt.entries i).ctrl.io = false from this] at hio
    cases hio
  | exec _ _ he => exact .inr (.activate _ _ he)
  | claimVictim hpc hseek hclaim =>
    rename_i v start E i
    obtain ⟨hsame, hvic⟩ := victimSweep_spec s.ipt.pt.entries (s.ipt.pt.victimOrder start)
    rw [show victimSweep s.ipt.pt.entries (s.ipt.pt.victimOrder start) = _ from hseek] at hsame hvic
    have hi := PageTable.victimOrder_lt (hvic i rfl).1
    obtain ⟨hio, hsw, htlb, hk⟩ := PtEntry.idle_of_eligible (hvic i rfl).2.1
    simp only at hio hsw htlb hk
    have hm : TableMove False s.table { s.table with entries := E } := .refs hsame
    have ho' := ho.step hh hm
    have hh' := hh.step ho hm
    unfold Ipt.claimVictim at hclaim
    cases hv : (E i).ctrl.validity with
    | false =>
      simp only [htlb, hio, hsw, hv, bne_iff_ne.2 hk, Bool.not_false, kassert_true, bind,
        Except.bind] at hclaim
      cases hclaim
    | true =>
      obtain ⟨ht, hrem⟩ := hh'.indexed.removes
        (key_of_user hi (PtEntry.user_iff.2 ⟨hv, hk⟩)) (ho'.not_pending_of_io hio)
      have hrem : s.ipt.ht.removeFromHash (E i).page (E i).pid = .ok ht := hrem
      simp only [htlb, hio, hsw, hv, bne_iff_ne.2 hk, Bool.not_false, kassert_true, bind,
        Except.bind, if_true, hrem] at hclaim
      cases hclaim
  | takeVictim hpc hseek hclaim hhash =>
    rename_i v start E i ipt
    obtain ⟨hsame, hvic⟩ := victimSweep_spec s.ipt.pt.entries (s.ipt.pt.victimOrder start)
    rw [show victimSweep s.ipt.pt.entries (s.ipt.pt.victimOrder start) = _ from hseek] at hsame hvic
    have hi := PageTable.victimOrder_lt (hvic i rfl).1
    obtain ⟨he, hpt, ⟨-, ho', -⟩ | ⟨hv, -, hht⟩⟩ := claimVictim_ok hclaim
    · cases ho'
    have hm : TableMove False s.table { s.table with entries := E } := .refs hsame
    have hh' := hh.step ho hm
    have hr : s.table.role s.cur = .seeking v := by rw [hrole, hpc]; rfl
    obtain ⟨ht, hadd⟩ := hh'.indexed.adds (v := v) (p := s.cur) hi
      (fun w q hk => (Table.no_key_of_invalid (t := { s.table with entries := E }) hv w q hk).elim)
      (fun j hk => (hh'.peopled.fresh hr hk).elim)
    have hadd : s.ipt.ht.addInHash v s.cur i = .ok ht := hadd
    unfold Ipt.hashVictim at hhash
    rw [hht] at hhash
    simp only [hadd] at hhash
    cases hhash
  | store hpc he => exact .inl (.store hpc he)
  | storing hpc he => exact .inl (.storing hpc he)
  | storedVictim hpc hhash =>
    rename_i v i
    have hr : s.table.role s.cur = .claimed v i := by rw [hrole, hpc]; rfl
    obtain ⟨hi, ⟨hval, -⟩, hv, hpg, hpid⟩ := (ho.fits i).held (q := s.cur) (o := some v) (by
      rw [hr]
      rfl)
    have hk : Key s.table.n s.table.entries i v s.cur :=
      ⟨hi, PtEntry.user_iff.2 ⟨hval, hpg ▸ hv.ne_kmallocPage⟩, hpg, hpid⟩
    have hpend : Pending s.table.role i := ⟨s.cur, v, hr⟩
    obtain ⟨ht, hadd⟩ := hh.indexed.adds (v := v) (p := s.cur) hi (fun _ _ _ => hpend)
      (fun j hj => hh.peopled.unique hj hk ▸ hpend)
    have hadd : s.ipt.ht.addInHash v s.cur i = .ok ht := hadd
    unfold Ipt.hashVictim at hhash
    rw [hadd] at hhash
    cases hhash
  | loadKmalloc hpc hk =>
    rename_i v i
    obtain ⟨-, -, hv, hpg, -⟩ := (ho.fits i).held (q := s.cur) (o := some v) (by
      rw [hrole, hpc]
      rfl)
    exact (hv.ne_kmallocPage (hpg.symm.trans hk)).elim
  | loadNull hpc has =>
    have := hh.peopled.space (q := s.cur) (by rw [hrole, hpc]; rfl)
    simp [Sys.table, has] at this
  | loadBegin hpc has he => exact .inl (.loadBegin hpc has he)
  | testStore hpc he => exact .inl (.testStore hpc he)
  | elfNull hpc has =>
    have := hh.peopled.space (q := s.cur) (by rw [hrole, hpc]; rfl)
    simp [Sys.table, has] at this
  | loadedNull hpc has =>
    have := hh.peopled.space (q := s.cur) (by rw [hrole, hpc]; rfl)
    simp [Sys.table, has] at this
  | loaded hpc has hins =>
    rename_i v i as
    exact .inr (.insert (s.ipt.pt.pageLoaded i) has rfl
      (backed_set (e := ((s.ipt.pt.entries i).setIo false).setTlb true)
        ⟨rfl, fun _ => ⟨rfl, rfl⟩⟩ rfl) hins)
  | copyTake hpc he => exact .inl (.copyTake hpc he)
  | ptStore hpc hi hpid hu he =>
    rename_i child i
    have hr : s.table.role s.cur = .forking child i := by rw [hrole, hpc]; rfl
    have hio : (s.ipt.pt.entries i).ctrl.io = false := ho.io_of_user (i := i) hu (by
      rw [show (s.table.entries i).pid = s.cur from hpid, hr]
      rfl)
    have hsw : (s.ipt.pt.entries i).ctrl.swap = true := (ho.fits i).frozen (by
      rw [show (s.table.entries i).pid = s.cur from hpid, hr]
      rfl) hi hu
    simp only [copyStoreAsserts, hio, hsw, bne_iff_ne.2 (PtEntry.user_iff.1 hu).2, Bool.not_false,
      kassert_true, bind, Except.bind] at he
    cases he
  | ptSpace hpc hi hpid hu hsp hcopy =>
    rename_i child i pos
    have hr : s.table.role s.table.cur = .forking child i := hrole.trans (by rw [hpc]; rfl)
    obtain ⟨hpos, hsp⟩ := PageTable.findspace_some hsp
    simp only [PtEntry.isSpace, Bool.and_eq_true, Bool.not_eq_true', bne_iff_ne] at hsp
    obtain ⟨⟨⟨hv, hio⟩, hsw⟩, -⟩ := hsp
    have htlb : (s.ipt.pt.entries pos).ctrl.tlb = false := ((ho.fits pos).clean hv).2.2
    have hnew := hh.not_copied ho hr (key_of_user hi hu |> fun h => hpid ▸ h)
    obtain ⟨ht, hadd⟩ := hh.indexed.adds (v := (s.ipt.pt.entries i).page) (p := child) hpos
      (fun w q hk => (Table.no_key_of_invalid (t := s.table) hv w q hk).elim)
      (fun j hk => (hnew j hk).elim)
    have hadd : s.ipt.ht.addInHash (s.ipt.pt.entries i).page child pos = .ok ht := hadd
    simp only [Ipt.copyEntry, PtEntry.copyOf, hadd, hio, hsw, htlb,
      bne_iff_ne.2 (PtEntry.user_iff.1 hu).2, Bool.not_false, kassert_true, bind,
      Except.bind] at hcopy
    cases hcopy
  | ptEnd hpc hend =>
    rename_i child i
    obtain ⟨i, hi, hpid, hu, hsw⟩ := (markCopy_spec ..).error hend
    have := (ho.fits i).frozen (by
      rw [show (s.table.entries i).pid = s.cur from hpid, hrole, hpc]
      rfl) hi hu
    rw [show (s.ipt.pt.entries i).ctrl.swap = true from this] at hsw
    cases hsw

theorem TlbStop.absurd (h : TlbStop s e) (ho : s.table.Own) (hh : s.table.Hashed)
    (hc : s.table.Cached) : False := by
  cases h with
  | activate as q he => exact not_error (asActivate_total ho hh hc rfl rfl as q) he
  | get hmiss hl htlb =>
    obtain ⟨k, hk, x, hx, hf, hkey⟩ := hc.coherent.slot htlb
    have hkey' := (hh.indexed.lookup_some hl).1
    exact hmiss k hk x hx (hkey.2.2.1.symm.trans hkey'.2.2.1)
  | insert pt has hn hE he =>
    have hcur : s.mmu.previousPid = s.cur := hc.current (by simp [Sys.table, has])
    rw [← hcur] at he
    have hco : Coherent pt.nEntry s.ipt.pt.entries s.mmu False := by
      rw [hn]
      exact hc.coherent.mono False.elim
    have hun : ∀ {i j v p}, Key pt.nEntry s.ipt.pt.entries i v p →
        Key pt.nEntry s.ipt.pt.entries j v p → i = j := by
      rw [hn]
      exact hh.peopled.unique
    exact not_error (tlbInsert_total hun hco hE _ _ _) he

theorem updateTlbBit_error {pt : PageTable} (h : pt.updateTlbBit v p = .error e) :
    e = .kassert .updateTlbBit .kmalloc ∨ e = .kassert .updateTlbBit .tlb := by
  unfold PageTable.updateTlbBit at h
  split at h
  · cases h
  · simp only [bind_error, kassert_error] at h
    rcases h with h | ⟨_, -, h | ⟨_, -, h⟩⟩
    · exact .inl h.2
    · exact .inr h.2
    · cases h

/-- These stops are assertions on TLB bits. -/
theorem TlbStop.fault (h : TlbStop s e) : e = .kassert .ptGetPaddr .tlb ∨
    e = .kassert .updateTlbBit .kmalloc ∨ e = .kassert .updateTlbBit .tlb := by
  cases h with
  | get _ _ _ => exact .inl rfl
  | activate as q he =>
    apply Or.inr
    cases as with
    | none => cases he
    | some as =>
      simp only [asActivate, tlbInvalidateAll] at he
      split at he
      · cases he
      · have hs : Sound (fun e => e = .kassert .updateTlbBit .kmalloc ∨
            e = .kassert .updateTlbBit .tlb) (fun _ => True)
            ((List.range numTlb).foldlM invalidateSlot (s.ipt.pt, s.mmu)) := by
          apply Sound.foldlM trivial
          intro k _ x _
          cases hs : x.2.slots k with
          | none =>
            simp only [invalidateSlot, hs]
            trivial
          | some y =>
            simp only [invalidateSlot, hs]
            apply Sound.of_bind
            · intro e he
              exact updateTlbBit_error he
            · intro _ _
              trivial
        rcases bind_error.1 he with he | ⟨_, -, he⟩
        · exact hs.error he
        · cases he
  | insert pt has hn hE he =>
    apply Or.inr
    unfold tlbInsert at he
    simp only at he
    split at he
    · cases he
    · cases hs : s.mmu.slots s.mmu.nextVictim with
      | none =>
        rw [hs] at he
        cases he
      | some y =>
        rw [hs] at he
        rcases bind_error.1 he with he | ⟨_, -, he⟩
        · exact updateTlbBit_error he
        · cases he

/-- The stops of the swap file: of the assertions, those on the store flag alone. -/
def Fault.swapped : Fault → Prop
  | .kassert _ c => c = .store
  | _ => True

theorem SwapFile.storeBegin_error {w : SwapFile} (h : w.storeBegin as v p = .error e) :
    e.swapped := by
  unfold SwapFile.storeBegin at h
  split at h
  · cases h
    trivial
  · rcases bind_error.1 h with h | ⟨_, -, h⟩
    · rw [(kassert_error.1 h).2]
      rfl
    · split at h
      · cases h
        trivial
      · split at h
        · cases h
          trivial
        · cases h

theorem SwapFile.lockAcquire_error {w : SwapFile} (h : w.lockAcquire q c f = .error e) :
    e.swapped := by
  unfold SwapFile.lockAcquire at h
  split at h
  · cases h
  · cases h
    trivial

theorem SwapFile.storeEnd_error {w : SwapFile} (h : w.storeEnd q c = .error e) : e.swapped := by
  rcases bind_error.1 h with h | ⟨_, -, h⟩
  · exact SwapFile.lockAcquire_error h
  · cases h

theorem SwapFile.testStore_error {w : SwapFile} (h : w.testStore q c f = .error e) :
    e.swapped := by
  rcases bind_error.1 h with h | ⟨_, -, h⟩
  · exact SwapFile.lockAcquire_error h
  · cases h

theorem SwapFile.loadBegin_error {w : SwapFile} (h : w.loadBegin as v p = .error e) :
    e.swapped := by
  unfold SwapFile.loadBegin at h
  split at h
  · cases h
    trivial
  · split at h
    · cases h
    · cases h
    · cases h
      trivial

theorem SwapFile.copyBegin_error {w : SwapFile} (h : w.copyBegin sg new = .error e) :
    e.swapped := by
  unfold SwapFile.copyBegin at h
  split at h
  · cases h
    trivial
  · rcases bind_error.1 h with h | ⟨_, -, h⟩
    · rw [(kassert_error.1 h).2]
      rfl
    · cases h

theorem freePages_error {t : Ipt} (h : t.freePages p = .error e) :
    (∃ c, e = .kassert .freePages c) ∨ e = .panic .removeFromHash ∨ e = .endless .removeFromHash := by
  have hs : Sound (fun e => (∃ c, e = .kassert .freePages c) ∨ e = .panic .removeFromHash ∨
      e = .endless .removeFromHash) (fun _ => True) (t.freePages p) := by
    apply Sound.foldlM trivial
    intro i _ u _
    apply Sound.intro (fun _ _ => trivial)
    intro e he
    unfold Ipt.freePage at he
    simp only at he
    split at he
    · simp only [bind_error, kassert_error] at he
      rcases he with ⟨-, rfl⟩ | ⟨_, -, ⟨-, rfl⟩ | ⟨_, -, ⟨-, rfl⟩ | ⟨_, -, he | ⟨_, -, he⟩⟩⟩⟩
      · exact .inl ⟨_, rfl⟩
      · exact .inl ⟨_, rfl⟩
      · exact .inl ⟨_, rfl⟩
      · unfold HashTable.removeFromHash at he
        split at he
        · cases he
        · cases he
          exact .inr (.inl rfl)
        · cases he
          exact .inr (.inr rfl)
      · cases he
    · cases he
  exact hs.error h

theorem Cause.fault (h : Cause s a e) : e = .kassert .vmFault .addrspace ∨ e.swapped ∨
    ∃ v i A, s.pc s.cur = .loadPage v i ∧ s.as s.cur = some A ∧ A.loadPlan v = .segv ∧
      s.ipt.freePages s.cur = .error e := by
  cases h with
  | notOk => exact .inl rfl
  | segv hpc has hplan he => exact .inr (.inr ⟨_, _, _, hpc, has, hplan, he⟩)
  | store _ he => exact .inr (.inl (SwapFile.storeBegin_error he))
  | storing _ he => exact .inr (.inl (SwapFile.storeEnd_error he))
  | loadBegin _ _ he => exact .inr (.inl (SwapFile.loadBegin_error he))
  | testStore _ he => exact .inr (.inl (SwapFile.testStore_error he))
  | copyTake _ he => exact .inr (.inl (SwapFile.copyBegin_error he))

end Clape
