import Mathlib.Logic.Relation
import Clape.TlbCoherence

namespace Clape
set_option autoImplicit true

open Relation (ReflTransGen)

section Calls
variable {pt pt' : PageTable}

theorem TlbCleared.of_updateTlbBit (h : pt.updateTlbBit v p = .ok pt') :
    TlbCleared pt.nEntry pt.entries v p pt'.entries ∧ pt'.nEntry = pt.nEntry ∧
      pt'.contiguous = pt.contiguous := by
  rcases updateTlbBit_ok h with ⟨rfl, hn⟩ | ⟨i, hi, h1, h2, h3, h4, h5, rfl⟩
  · exact ⟨.inl ⟨rfl, hn⟩, rfl, rfl⟩
  · exact ⟨.inr ⟨i, hi, h1, h2, h3, h4, h5, rfl⟩, rfl, rfl⟩

theorem Mmu.freeSlot_some {m : Mmu} (h : m.freeSlot = some k) : k < numTlb ∧ m.slots k = none := by
  have hk := List.find?_some (p := fun k => (m.slots k).isNone) h
  exact ⟨List.mem_range.1 (List.mem_of_find?_eq_some h), by simpa using hk⟩

theorem Mmu.freeSlot_none {m : Mmu} (h : m.freeSlot = none) (hk : k < numTlb) :
    m.slots k ≠ none := by
  have := List.find?_eq_none.1 h k (List.mem_range.2 hk)
  simpa using this

theorem Inserted.of_tlbInsert (h : tlbInsert pt m as p v i = .ok (pt', m', r)) :
    Inserted pt.nEntry pt.entries m p ⟨v, i, !as.inText v⟩ pt'.entries m' ∧
      pt'.nEntry = pt.nEntry ∧ pt'.contiguous = pt.contiguous := by
  unfold tlbInsert at h
  simp only at h
  split at h
  · rename_i k hk
    cases h
    obtain ⟨hk, hs⟩ := Mmu.freeSlot_some hk
    exact ⟨.free hk hs, rfl, rfl⟩
  · rename_i hfree
    cases hs : m.slots m.nextVictim with
    | none =>
      rw [hs] at h
      cases h
      refine ⟨.beyond ?_, rfl, rfl⟩
      by_contra hlt
      exact Mmu.freeSlot_none hfree (Nat.lt_of_not_le hlt) hs
    | some y =>
      rw [hs] at h
      obtain ⟨pt₁, h₁, h⟩ := bind_ok.1 h
      cases h
      obtain ⟨hc, hn, hcont⟩ := TlbCleared.of_updateTlbBit h₁
      exact ⟨.replace hs hc, hn, hcont⟩

end Calls

namespace Sys

theorem table_setPc (s : Sys) (p : Nat) (c : Pc) :
    (s.setPc p c).table = { s.table with role := Function.update s.table.role p c.role } := by
  have hrole : (fun q => ((s.setPc p c).pc q).role) =
      Function.update (fun q => (s.pc q).role) p c.role := by
    rw [pc_setPc]
    funext q
    by_cases hq : q = p
    · subst hq
      simp
    · simp [hq]
  have has : (fun q => ((s.setPc p c).as q).isSome) = fun q => (s.as q).isSome := by
    rw [as_setPc]
  unfold table
  rw [hrole, has]
  rfl

theorem table_goto (s : Sys) (c : Pc) : (s.goto c).table = s.table.play c.role :=
  s.table_setPc s.cur c

theorem table_goto_same (s : Sys) (hc : c.role = (s.pc s.cur).role) :
    (s.goto c).table = s.table := by
  rw [table_goto]
  unfold Table.play
  have : Function.update s.table.role s.table.cur c.role = s.table.role := by
    rw [hc]
    exact Function.update_eq_self ..
  rw [this]

theorem table_update (s : Sys) (p : Nat) (x : Proc) :
    { s with procs := Function.update s.procs p x }.table = { s.table with
      role := Function.update s.table.role p x.pc.role
      hasAs := Function.update s.table.hasAs p x.as.isSome } := by
  have hrole : (fun q => (Function.update s.procs p x q).pc.role) =
      Function.update (fun q => (s.procs q).pc.role) p x.pc.role := by
    funext q
    by_cases hq : q = p
    · subst hq
      simp
    · simp [hq]
  have has : (fun q => (Function.update s.procs p x q).as.isSome) =
      Function.update (fun q => (s.procs q).as.isSome) p x.as.isSome := by
    funext q
    by_cases hq : q = p
    · subst hq
      simp
    · simp [hq]
  simp only [table, pc, as, hrole, has]

theorem quiet {s u : Sys} (hpc : s.pc s.cur = c) (hu : u.table = s.table)
    (hc : c'.role = c.role) : ReflTransGen (TableMove F) s.table (u.goto c').table := by
  rw [table_goto, hu, ← table_goto, table_goto_same]
  rw [hc, hpc]

theorem table_mapPc (s : Sys) {f : Pc → Pc} (hf : ∀ c, (f c).role = c.role) :
    (s.mapPc f).table = s.table := by
  have hrole : (fun q => ((s.mapPc f).pc q).role) = fun q => (s.pc q).role := by
    rw [pc_mapPc]
    funext q
    exact hf _
  unfold table
  rw [hrole]
  rfl

end Sys

theorem tlbInvalidateAll_moves {t : Table} {pt : PageTable} (hn : t.n = pt.nEntry)
    (hE : t.entries = pt.entries) (hp : t.mmu.previousPid ≠ p)
    (h : tlbInvalidateAll pt t.mmu p = .ok (pt', m')) :
    ∃ m, ReflTransGen (TableMove F) t { t with entries := pt'.entries, mmu := m } ∧
      (∀ k < numTlb, m.slots k = none) ∧ m' = { m with previousPid := p } ∧
      pt'.nEntry = pt.nEntry ∧ pt'.contiguous = pt.contiguous := by
  unfold tlbInvalidateAll at h
  rw [if_neg hp] at h
  obtain ⟨⟨pt₁, m⟩, hloop, h⟩ := bind_ok.1 h
  cases h
  have hs : Sound (fun _ => True) (fun x : PageTable × Mmu =>
      ReflTransGen (TableMove F) t { t with entries := x.1.entries, mmu := x.2 } ∧
      (∀ k ∈ List.range numTlb, x.2.slots k = none) ∧
      x.1.nEntry = pt.nEntry ∧ x.1.contiguous = pt.contiguous)
      ((List.range numTlb).foldlM invalidateSlot (pt, t.mmu)) := by
    apply Sound.foldlM_prefix (P := fun done (x : PageTable × Mmu) =>
      ReflTransGen (TableMove F) t { t with entries := x.1.entries, mmu := x.2 } ∧
      (∀ k ∈ done, x.2.slots k = none) ∧
      x.1.nEntry = pt.nEntry ∧ x.1.contiguous = pt.contiguous)
    · refine ⟨?_, nofun, rfl, rfl⟩
      simp only [← hE]
      exact .refl
    · intro done k rest x hl hx
      obtain ⟨hmoves, hdone, hxn, hxc⟩ := hx
      have hk : k < numTlb := List.mem_range.1 (by rw [hl]; simp)
      have hdone' : ∀ j ∈ done ++ [k], (x.2.write k none).slots j = none := by
        intro j hj
        by_cases hjk : j = k
        · subst hjk
          simp [Mmu.write]
        · have : j ∈ done := by simpa [hjk] using hj
          simpa [Mmu.write, hjk] using hdone j this
      apply Sound.intro _ (fun _ _ => trivial)
      intro y hy
      cases hs : x.2.slots k with
      | none =>
        simp only [invalidateSlot, hs] at hy
        cases hy
        have hsame : x.2.write k none = x.2 := by
          unfold Mmu.write
          rw [← hs, Function.update_eq_self]
        refine ⟨?_, hdone', hxn, hxc⟩
        rw [hsame]
        exact hmoves
      | some e =>
        simp only [invalidateSlot, hs] at hy
        obtain ⟨pt₂, h₂, hy⟩ := bind_ok.1 hy
        cases hy
        obtain ⟨hc, hn₂, hc₂⟩ := TlbCleared.of_updateTlbBit h₂
        refine ⟨hmoves.tail ?_, hdone', hn₂.trans hxn, hc₂.trans hxc⟩
        rw [hxn, ← hn] at hc
        have hm := @TableMove.invalidate F { t with entries := x.1.entries, mmu := x.2 } _ _ _ hk hs hc
        exact hm
  obtain ⟨hmoves, hnone, hn', hc'⟩ := hs.ok hloop
  exact ⟨m, hmoves, fun k hk => hnone k (List.mem_range.2 hk), rfl, hn', hc'⟩

theorem freePages_moves {t : Table} {s u : Ipt} (hn : t.n = s.pt.nEntry)
    (hE : t.entries = s.pt.entries) (hht : t.ht = s.ht) (hr : t.role t.cur = .leaving)
    (h : s.freePages t.cur = .ok u) :
    ReflTransGen (TableMove F) t { t with entries := u.pt.entries, ht := u.ht } := by
  have hs : Sound (fun _ => True) (fun u : Ipt =>
      ReflTransGen (TableMove F) t { t with entries := u.pt.entries, ht := u.ht })
      (s.freePages t.cur) := by
    apply Sound.foldlM (P := fun u : Ipt =>
      ReflTransGen (TableMove F) t { t with entries := u.pt.entries, ht := u.ht })
    · rw [← hE, ← hht]
    · intro i hi u hu
      have hin : i < t.n := by rw [hn]; exact List.mem_range.1 hi
      apply Sound.intro _ (fun _ _ => trivial)
      intro u' hu'
      unfold Ipt.freePage at hu'
      simp only at hu'
      split at hu'
      · rename_i hc
        simp only [Bool.and_eq_true, beq_iff_eq] at hc
        simp only [bind_ok] at hu'
        obtain ⟨_, _, _, _, _, _, ht, hrem, hu'⟩ := hu'
        cases hu'
        have hm := @TableMove.release F { t with entries := u.pt.entries, ht := u.ht } _ _ hr
          hin hc.1 hc.2 hrem
        exact hu.tail hm
      · cases hu'
        exact hu
  exact hs.ok h

theorem Pc.role_of_ready {c : Pc} (h : c.ready = true) : c.role ≠ .embryo := by
  cases c with
  | none => cases h
  | embryo => cases h
  | cellWait k _ _ => cases k <;> exact nofun
  | storing k _ _ => cases k <;> exact nofun
  | storeSwap k _ _ _ => cases h
  | stored k _ => cases h
  | cell k _ => cases h
  | _ => exact nofun

theorem Pc.role_storing (k : StoreFor) (i c v p : Nat) :
    (Pc.storing k i c).role = (Pc.storeSwap k i v p).role := by
  cases k <;> rfl

theorem Pc.role_stored (k : StoreFor) (i c : Nat) :
    (Pc.stored k i).role = (Pc.storing k i c).role := by
  cases k <;> rfl

theorem Pc.role_cellWait (k : WaitFor) (c : Nat) (w : Bool) :
    (Pc.cellWait k c w).role = (Pc.cell k c).role := by
  cases k <;> rfl

theorem Sys.userAddr_pageOf (ha : a < userStack) : UserAddr (Sys.pageOf a) := by
  unfold Sys.pageOf pageSize
  exact ⟨by unfold pageSize; omega, by omega⟩

theorem asActivate_moves {t : Table} {pt : PageTable} (hn : t.n = pt.nEntry)
    (hE : t.entries = pt.entries) (hq : t.role q ≠ .embryo) (has : as = none → t.hasAs q = false)
    (h : asActivate pt t.mmu as q = .ok (pt', m')) :
    ReflTransGen (TableMove F) t { t with entries := pt'.entries, mmu := m', cur := q } ∧
      pt'.nEntry = pt.nEntry ∧ pt'.contiguous = pt.contiguous ∧
      (as.isSome = true → m'.previousPid = q ∧
        (t.mmu.previousPid ≠ q → ∀ k < numTlb, m'.slots k = none)) := by
  cases as with
  | none =>
    cases h
    refine ⟨?_, rfl, rfl, nofun⟩
    rw [← hE]
    apply ReflTransGen.single
    apply TableMove.dispatch
    intro ha
    rw [has rfl] at ha
    cases ha
  | some as =>
    have h' : tlbInvalidateAll pt t.mmu q = .ok (pt', m') := h
    by_cases hp : t.mmu.previousPid = q
    · rw [tlbInvalidateAll, if_pos hp] at h'
      cases h'
      refine ⟨?_, rfl, rfl, fun _ => ⟨hp, fun hne => (hne hp).elim⟩⟩
      rw [← hE]
      exact .single (.dispatch fun _ => hp)
    · obtain ⟨m, hmoves, hempty, rfl, hn', hc'⟩ := tlbInvalidateAll_moves hn hE hp h'
      refine ⟨hmoves.tail ?_, hn', hc', fun _ => ⟨rfl, fun _ => hempty⟩⟩
      exact @TableMove.turn F { t with entries := pt'.entries, mmu := m } q hq hempty

theorem TableMove.claim_hash {t : Table} (hr : t.role t.cur = .seeking v) (hi : i < t.n)
    (he : (t.entries i).Idle) (hv : (t.entries i).ctrl.validity = false)
    (hadd : t.ht.addInHash v t.cur i = .ok ht) :
    ReflTransGen (TableMove F) t ({ t with
      entries := Function.update t.entries i ((t.entries i).claim v t.cur)
      ht := ht }.play (.loading v i)) := by
  have h₁ := TableMove.claim (F := F) hr hi he hv
  have h₂ := @TableMove.hash F ({ t with
    entries := Function.update t.entries i ((t.entries i).claim v t.cur) }.play (.claimed v i))
    v i ht (Function.update_self ..) hadd
  have hmoves := (ReflTransGen.single h₁).tail h₂
  simpa [Table.play] using hmoves

/-- Every step is a sequence of moves of the page table. -/
theorem Move.table (h : Move s a s') (ho : s.table.Own)
    (hf : F → (∃ vn phs, a = .exec vn phs) → s.mmu.previousPid ≠ s.cur) :
    ReflTransGen (TableMove F) s.table s'.table := by
  have hrole : s.table.role s.table.cur = (s.pc s.cur).role := rfl
  cases h with
  | @dispatch q pt mmu st _ hready hact =>
    have hq : s.as q = none → s.table.hasAs q = false := fun hq => by simp [Sys.table, hq]
    obtain ⟨hmoves, hn, hc, -⟩ := asActivate_moves (t := s.table) rfl rfl
      (Pc.role_of_ready hready) hq hact
    have htab : { s.setPt pt with mmu := mmu, cur := q, stats := st }.table =
        { s.table with entries := pt.entries, mmu := mmu, cur := q } := by
      simp only [Sys.table, Sys.setPt, hn, hc]
      rfl
    rw [htab]
    exact hmoves
  | write => exact .refl
  | @hit as v a t ipt i pt mmu r st hpc has hv ha _ hmiss _ hget hins =>
    obtain ⟨hl, hpid, hpg, hk, hio, htlb, rfl⟩ := ptGetPaddr_some hget
    obtain ⟨hins, hn, hc⟩ := Inserted.of_tlbInsert hins
    have htab : { s with
        ipt := { s.ipt with pt := pt }
        mmu := mmu
        stats := st }.table = { s.table with entries := pt.entries, mmu := mmu } := by
      simp only [Sys.table, hn, hc]
      rfl
    rw [htab]
    have hr : s.table.role s.table.cur = .user := by rw [hrole, hpc]; rfl
    have hs : s.table.hasAs s.table.cur = true := by simp [Sys.table, has]
    exact .single (.hit hr hs (hv ▸ Sys.userAddr_pageOf ha) hmiss hl hio hins)
  | @space as v a t ipt₀ i ipt st hpc has hv ha _ _ hget hspace hclaim =>
    obtain ⟨hadd, hpt⟩ := claimSpace_ok hclaim
    obtain ⟨hi, hsp⟩ := PageTable.findspace_some hspace
    simp only [PtEntry.isSpace, Bool.and_eq_true, Bool.not_eq_true', bne_iff_ne] at hsp
    have hclean := (ho.fits i).clean hsp.1.1.1
    rw [Sys.table_goto]
    have htab : { s with ipt := ipt, stats := st }.table =
        { s.table with
          entries := Function.update s.ipt.pt.entries i ((s.ipt.pt.entries i).claim v s.cur)
          ht := ipt.ht } := by
      simp only [Sys.table, hpt]
      rfl
    rw [htab]
    have hr : s.table.role s.table.cur = .user := by rw [hrole, hpc]; rfl
    have hs : s.table.hasAs s.table.cur = true := by simp [Sys.table, has]
    have h₁ : TableMove F s.table (s.table.play (.seeking v)) :=
      .seek hr hs (hv ▸ Sys.userAddr_pageOf ha) (ptGetPaddr_none hget)
    have h₂ := TableMove.claim_hash (F := F) (t := s.table.play (.seeking v))
      (Function.update_self ..) hi ⟨hsp.1.1.2, hsp.1.2, hclean.2.2, hsp.2⟩ hsp.1.1.1 hadd
    have hmoves := ReflTransGen.head h₁ h₂
    simp only [Table.play, Function.update_idem] at hmoves
    exact hmoves
  | @seek as v a t ipt₀ st hpc has hv ha _ _ hget _ =>
    rw [Sys.table_goto]
    have hr : s.table.role s.table.cur = .user := by rw [hrole, hpc]; rfl
    have hs : s.table.hasAs s.table.cur = true := by simp [Sys.table, has]
    exact .single (.seek hr hs (hv ▸ Sys.userAddr_pageOf ha) (ptGetPaddr_none hget))
  | @exit a ipt st hpc _ hfree =>
    rw [Sys.table_goto]
    obtain ⟨-, hpt⟩ := freePages_ok hfree
    have hr : s.table.role s.table.cur = .user := by rw [hrole, hpc]; rfl
    have hmoves := freePages_moves (F := F) (t := s.table.play .leaving) rfl rfl rfl
      (Function.update_self ..) hfree
    have htab : { s with ipt := ipt, stats := st }.table =
        { s.table with entries := ipt.pt.entries, ht := ipt.ht } := by
      simp only [Sys.table, hpt]
      rfl
    rw [htab]
    have hlast := @TableMove.left F
      { s.table.play .leaving with entries := ipt.pt.entries, ht := ipt.ht }
      (Function.update_self ..) (by
        intro i hi hu hp
        simp only [hpt] at hu hp
        split at hu
        · cases hu
        · rename_i hne
          rw [if_neg hne] at hp
          exact hne ⟨hi, hp, hu⟩)
    have h := (ReflTransGen.head (.leave hr) hmoves).tail hlast
    simp only [Table.play, Function.update_idem] at h
    exact h
  | @segv v i as w ipt hpc has _ _ hfree =>
    -- the frame claimed for the fault has its I/O bit set
    obtain ⟨hok, -⟩ := freePages_ok hfree
    obtain ⟨hi, ⟨hval, hio, -⟩, hv, hpg, hpid⟩ :=
      (ho.fits i).held (q := s.cur) (o := some v) (by rw [show s.table.role s.cur = _ from hrole, hpc]; rfl)
    have := (hok i hi hpid (PtEntry.user_iff.2 ⟨hval, hpg ▸ hv.ne_kmallocPage⟩)).1
    rw [show (s.ipt.pt.entries i).ctrl.io = true from hio] at this
    cases this
  | @allocFree f i pt hpc hrun hmark =>
    obtain ⟨he, hv, rfl⟩ := markFree_idle hmark
    have hr : s.table.role s.table.cur = .user := by rw [hrole, hpc]; rfl
    exact .single (.take hr (List.mem_range.1 (freeRun_last hrun).1) he hv)
  | @allocWait a fp E hpc hsearch =>
    have hsame := s.ipt.pt.chanceSearch_sameButRef 1 fp
    rw [hsearch] at hsame
    rw [Sys.table_goto_same]
    · exact .single (.refs hsame)
    · rcases hpc with ⟨hpc, -⟩ | ⟨hpc, -⟩
      · exact (congrArg Pc.role hpc).symm
      · exact (congrArg Pc.role hpc).symm
  | @allocTake a fp E f i ipt hpc hsearch hclaim =>
    have hsame := s.ipt.pt.chanceSearch_sameButRef 1 fp
    have hlt := @PageTable.chanceSearch_lt 1 fp f i s.ipt.pt
    rw [hsearch] at hsame hlt
    obtain ⟨he, ⟨_, ho', _⟩ | ⟨hv, -, hpt, hht⟩⟩ := claimKernel_ok hclaim
    · cases ho'
    have hr : s.table.role s.table.cur = .user := by
      rw [hrole]
      rcases hpc with ⟨hpc, -⟩ | ⟨hpc, -⟩
      · rw [hpc]
        rfl
      · rw [hpc]
        rfl
    have h₁ : TableMove F s.table { s.table with entries := E } := .refs hsame
    have h₂ := @TableMove.take F { s.table with entries := E } i hr (hlt rfl) he hv
    have htab : ({ s with ipt := ipt }.finishAlloc i).table = { s.table with
        entries := Function.update E i ((E i).kmalloc s.cur false)
        contiguous := Function.update s.ipt.pt.contiguous i 1 } := by
      unfold Sys.finishAlloc
      rw [Sys.table_goto_same]
      · simp only [Sys.table, Sys.setPt, hpt, hht]
        rfl
      · rcases hpc with ⟨hpc, -⟩ | ⟨hpc, -⟩
        · exact (congrArg Pc.role hpc).symm
        · exact (congrArg Pc.role hpc).symm
    rw [htab]
    exact (ReflTransGen.single h₁).tail h₂
  | @allocEvict a fp E f i ipt v p hpc hsearch hclaim =>
    have hsame := s.ipt.pt.chanceSearch_sameButRef 1 fp
    have hlt := @PageTable.chanceSearch_lt 1 fp f i s.ipt.pt
    rw [hsearch] at hsame hlt
    obtain ⟨he, ⟨hu, -, hpt, hht⟩ | ⟨_, ho', _⟩⟩ := claimKernel_ok hclaim
    swap
    · cases ho'
    have hr : s.table.role s.table.cur = .user := by
      rw [hrole]
      rcases hpc with ⟨hpc, -⟩ | ⟨hpc, -⟩
      · rw [hpc]
        rfl
      · rw [hpc]
        rfl
    have h₁ : TableMove F s.table { s.table with entries := E } := .refs hsame
    have h₂ := @TableMove.steal F { s.table with entries := E } i ipt.ht hr (hlt rfl) he hu hht
    rw [Sys.table_goto]
    have htab : { s with ipt := ipt }.table = { s.table with
        entries := Function.update E i ((E i).kmalloc s.cur true), ht := ipt.ht } := by
      simp only [Sys.table, hpt]
      rfl
    rw [htab]
    exact (ReflTransGen.single h₁).tail h₂
  | @kfree i pt _ hone hfree =>
    obtain ⟨-, rfl⟩ := freeContiguousPages_one hone hfree
    rw [Sys.table_mapPc _ Pc.role_wakePt]
    exact .single (.free hone)
  | @fork as child pt hpc has hsem hchild hpid hprep =>
    obtain ⟨-, rfl⟩ := (markCopy_spec ..).ok hprep
    rw [Sys.table_goto]
    have hr : s.table.role s.table.cur = .user := by rw [hrole, hpc]; rfl
    have hs : s.table.hasAs s.table.cur = true := by simp [Sys.table, has]
    have hc : s.table.role child = .absent := by simp [Sys.table, hchild, Pc.role]
    have hm := TableMove.fork (F := F) hr hs hsem hc hpid
    have hupd := s.table_update child ⟨s.as s.cur, .embryo⟩
    have htab : ({ s with
        semFork := false
        procs := Function.update s.procs child ⟨s.as s.cur, .embryo⟩ }.setPt
          { s.ipt.pt with entries := marked s.ipt.pt.nEntry s.ipt.pt.entries s.cur true }).table =
        { s.table with
          entries := marked s.ipt.pt.nEntry s.ipt.pt.entries s.cur true
          role := Function.update s.table.role child .embryo
          hasAs := Function.update s.table.hasAs child true
          sem := false } := by
      calc _ = { ({ s with
              procs := Function.update s.procs child ⟨s.as s.cur, .embryo⟩ } : Sys).table with
            entries := marked s.ipt.pt.nEntry s.ipt.pt.entries s.cur true
            sem := false } := rfl
        _ = _ := by
          rw [hupd, has]
          rfl
    exact .single ((congrArg (fun t => TableMove F s.table (t.play (.forking child 0))) htab).mpr hm)
  | @spawn q hpc hq hpid =>
    have hr : s.table.role s.table.cur = .user := by rw [hrole, hpc]; rfl
    rw [Sys.table_update]
    exact .single (.spawn hr (congrArg Pc.role hq) hpid)
  | @exec vn phs as pt mmu st hpc has hload hact =>
    have hr : s.table.role s.table.cur = .user := by rw [hrole, hpc]; rfl
    have hs : s.table.hasAs s.table.cur = false := by simp [Sys.table, has]
    obtain ⟨hmoves, hn, hc, hpid⟩ := asActivate_moves (t := s.table) rfl rfl
      (by rw [show s.table.role s.cur = _ from hr]; simp) (fun hn => by cases hn) hact
    have hm := @TableMove.exec F { s.table with entries := pt.entries, mmu := mmu } hr hs
      (hpid rfl).1 (fun hfresh => (hpid rfl).2 (hf hfresh ⟨vn, phs, rfl⟩))
    have hupd := { s.setPt pt with mmu := mmu, stats := st }.table_update s.cur
      { s.procs s.cur with as := some as }
    have htab : { s.setPt pt with mmu := mmu, stats := st }.table =
        { s.table with entries := pt.entries, mmu := mmu } := by
      simp only [Sys.table, Sys.setPt, hn, hc]
      rfl
    have hsame : Function.update s.table.role s.cur (s.procs s.cur).pc.role = s.table.role :=
      Function.update_eq_self ..
    rw [htab] at hupd
    simp only [hsame] at hupd
    exact (congrArg (ReflTransGen (TableMove F) s.table) hupd).mpr (hmoves.tail hm)
  | @reap q hpc hq =>
    have hr : s.table.role s.table.cur = .user := by rw [hrole, hpc]; rfl
    rw [Sys.table_update]
    exact .single (.reap hr (congrArg Pc.role hq))
  | @noVictim v start E hpc hseek =>
    have hsame := (victimSweep_spec s.ipt.pt.entries (s.ipt.pt.victimOrder start)).1
    rw [show victimSweep s.ipt.pt.entries (s.ipt.pt.victimOrder start) = _ from hseek] at hsame
    rw [Sys.table_goto_same]
    · exact .single (.refs hsame)
    · exact (congrArg Pc.role hpc).symm
  | @takeVictim v start E i ipt₁ ipt hpc hseek hclaim hhash =>
    obtain ⟨hsame, hvic⟩ := victimSweep_spec s.ipt.pt.entries (s.ipt.pt.victimOrder start)
    rw [show victimSweep s.ipt.pt.entries (s.ipt.pt.victimOrder start) = _ from hseek] at hsame hvic
    have hi := PageTable.victimOrder_lt (hvic i rfl).1
    obtain ⟨he, hpt₁, ⟨_, ho', _⟩ | ⟨hv, -, hht₁⟩⟩ := claimVictim_ok hclaim
    · cases ho'
    obtain ⟨hadd, hpt⟩ := hashVictim_ok hhash
    have hr : s.table.role s.table.cur = .seeking v := by rw [hrole, hpc]; rfl
    rw [hht₁] at hadd
    have h₁ : TableMove F s.table { s.table with entries := E } := .refs hsame
    have h₂ := TableMove.claim_hash (F := F) (t := { s.table with entries := E }) hr hi he hv
      hadd
    rw [Sys.table_goto]
    have htab : { s with ipt := ipt }.table = { s.table with
        entries := Function.update E i ((E i).claim v s.cur), ht := ipt.ht } := by
      simp only [Sys.table, hpt, hpt₁]
      rfl
    rw [htab]
    exact ReflTransGen.head h₁ h₂
  | @evictVictim v start E i ipt ov op hpc hseek hclaim =>
    obtain ⟨hsame, hvic⟩ := victimSweep_spec s.ipt.pt.entries (s.ipt.pt.victimOrder start)
    rw [show victimSweep s.ipt.pt.entries (s.ipt.pt.victimOrder start) = _ from hseek] at hsame hvic
    have hi := PageTable.victimOrder_lt (hvic i rfl).1
    obtain ⟨he, hpt, ⟨hu, -, hrem⟩ | ⟨_, ho', _⟩⟩ := claimVictim_ok hclaim
    swap
    · cases ho'
    have hr : s.table.role s.table.cur = .seeking v := by rw [hrole, hpc]; rfl
    have h₁ : TableMove F s.table { s.table with entries := E } := .refs hsame
    have h₂ := @TableMove.evict F { s.table with entries := E } v i ipt.ht hr hi he hu hrem
    rw [Sys.table_goto]
    have htab : { s with ipt := ipt }.table = { s.table with
        entries := Function.update E i ((E i).claim v s.cur), ht := ipt.ht } := by
      simp only [Sys.table, hpt]
      rfl
    rw [htab]
    exact (ReflTransGen.single h₁).tail h₂
  | victimWake hpc => exact Sys.quiet hpc rfl rfl
  | @store k i v p w c hpc _ =>
    exact Sys.quiet hpc rfl (Pc.role_storing k i c v p)
  | @storing k i c w st hpc _ =>
    apply Sys.quiet hpc
    · exact Sys.table_mapPc _ (Pc.role_wakeCell c)
    · exact Pc.role_stored k i c
  | @storedVictim v i ipt hpc hhash =>
    obtain ⟨hadd, hpt⟩ := hashVictim_ok hhash
    rw [Sys.table_goto]
    have htab : { s with ipt := ipt }.table = { s.table with ht := ipt.ht } := by
      simp only [Sys.table, hpt]
      rfl
    rw [htab]
    exact .single (.hash (congrArg Pc.role hpc) hadd)
  | @storedAlloc i hpc =>
    unfold Sys.finishAlloc
    rw [Sys.table_goto]
    exact .single (.grant (congrArg Pc.role hpc))
  | @storedFork child i hpc =>
    rw [Sys.table_goto]
    exact .single (.skip (congrArg Pc.role hpc))
  | loadFound hpc _ _ => exact Sys.quiet hpc rfl rfl
  | loadZero hpc _ _ _ => exact Sys.quiet hpc rfl rfl
  | loadElf hpc _ _ _ => exact Sys.quiet hpc rfl rfl
  | @cellSleep k c w hpc _ =>
    exact Sys.quiet hpc rfl (Pc.role_cellWait k c false)
  | cellLoad hpc _ => exact Sys.quiet hpc rfl rfl
  | cellExit hpc _ => exact Sys.quiet hpc rfl rfl
  | cellCopy hpc _ => exact Sys.quiet hpc rfl rfl
  | @cellWake k c hpc =>
    exact Sys.quiet hpc rfl (Pc.role_cellWait k c true).symm
  | reading hpc => exact Sys.quiet hpc rfl rfl
  | elfReading hpc _ _ => exact Sys.quiet hpc rfl rfl
  | @loaded v i as pt mmu r st hpc has hins =>
    obtain ⟨hins, hn, hc⟩ := Inserted.of_tlbInsert hins
    rw [Sys.table_goto]
    have htab : { s.setPt pt with mmu := mmu, stats := st }.table =
        { s.table with entries := pt.entries, mmu := mmu } := by
      simp only [Sys.table, Sys.setPt, hn, hc]
      rfl
    rw [htab]
    have hs : s.table.hasAs s.table.cur = true := by simp [Sys.table, has]
    exact .single (.load (congrArg Pc.role hpc) hs hins)
  | allocWake hpc => exact Sys.quiet hpc rfl rfl
  | removeCell hpc => exact Sys.quiet hpc rfl rfl
  | removeNext hpc _ => exact Sys.quiet hpc rfl rfl
  | removeDone hpc _ =>
    rw [Sys.table_goto]
    exact .single (.die (congrArg Pc.role hpc))
  | copyTake hpc _ => exact Sys.quiet hpc rfl rfl
  | copyNext hpc _ => exact Sys.quiet hpc rfl rfl
  | copyDone hpc _ => exact Sys.quiet hpc rfl rfl
  | copyReading hpc => exact Sys.quiet hpc rfl rfl
  | copyWriting hpc => exact Sys.quiet hpc rfl rfl
  | ptSkip hpc _ _ =>
    rw [Sys.table_goto]
    exact .single (.skip (congrArg Pc.role hpc))
  | ptStore hpc _ _ _ _ _ => exact Sys.quiet hpc rfl rfl
  | @ptSpace child i pos ipt hpc hi hpid hu hspace hcopy =>
    obtain ⟨hadd, hpt⟩ := copyEntry_ok hcopy
    obtain ⟨hpos, hsp⟩ := PageTable.findspace_some hspace
    rw [Sys.table_goto]
    have htab : { s with
        ipt := ipt
        mem := writeAt s.mem (pos * pageSize) pageSize (s.frame i) }.table = { s.table with
          entries := Function.update s.ipt.pt.entries pos
            ((s.ipt.pt.entries pos).copyOf (s.ipt.pt.entries i) child)
          ht := ipt.ht } := by
      simp only [Sys.table, hpt]
      rfl
    rw [htab]
    exact .single (.copy (congrArg Pc.role hpc) hi hpid hu hpos hsp hadd)
  | @ptEnd child i pt hpc hi hend =>
    obtain ⟨-, rfl⟩ := (markCopy_spec ..).ok hend
    rw [Sys.table_goto, Sys.table_setPc, Sys.table_mapPc _ Pc.role_wakePt]
    exact .single (.unfork (congrArg Pc.role hpc))

end Clape
