import Clape.FrameRuns

namespace Clape
set_option autoImplicit true

theorem PtEntry.eligible_eq_false {e : PtEntry} : e.eligible = false ↔
    e.ctrl.tlb = true ∨ e.ctrl.io = true ∨ e.ctrl.swap = true ∨ e.page = kmallocPage := by
  simp only [PtEntry.eligible, Bool.and_eq_false_iff, Bool.not_eq_false', bne_eq_false_iff_eq]
  tauto

theorem SameButRef.eligible (h : SameButRef e e') : e'.eligible = e.eligible := by
  obtain ⟨b, rfl⟩ := h
  rfl

theorem PtEntry.not_idle {e : PtEntry} (h : e.eligible = false) : ¬ e.Idle := by
  rintro ⟨hio, hsw, htlb, hk⟩
  simp [PtEntry.eligible, hio, hsw, htlb, hk] at h

/-- No frame can be taken. -/
def PageTable.Starved (pt : PageTable) : Prop := ∀ i < pt.nEntry, (pt.entries i).eligible = false

namespace PageTable.Starved
variable {pt pt' : PageTable}

theorem congr (h : pt.Starved) (hn : pt'.nEntry = pt.nEntry)
    (he : ∀ i, (pt'.entries i).eligible = true → (pt.entries i).eligible = true) : pt'.Starved := by
  intro i hi
  rw [hn] at hi
  cases hel : (pt'.entries i).eligible with
  | false => rfl
  | true =>
    have := he i hel
    rw [h i hi] at this
    cases this

theorem set (h : pt.Starved) (i : Nat) (he : e.eligible = false) : (pt.set i e).Starved := by
  intro j hj
  change (Function.update pt.entries i e j).eligible = false
  by_cases hji : j = i
  · rw [hji, Function.update_self, he]
  · rw [Function.update_of_ne hji]
    exact h j hj

theorem not_space (h : pt.Starved) {i : Nat} (hi : i < pt.nEntry)
    (hv : (pt.entries i).ctrl.validity = false → (pt.entries i).ctrl.io = false ∧
      (pt.entries i).ctrl.swap = false ∧ (pt.entries i).ctrl.tlb = false) :
    pt.findspace ≠ some i := by
  intro hf
  have htest := List.find?_some (p := fun i => (pt.entries i).isSpace) hf
  simp only [PtEntry.isSpace, Bool.and_eq_true, Bool.not_eq_true', bne_iff_ne] at htest
  obtain ⟨⟨⟨hval, hio⟩, hsw⟩, hk⟩ := htest
  exact PtEntry.not_idle (h i hi) ⟨hio, hsw, (hv hval).2.2, hk⟩

theorem not_idle (h : pt.Starved) {i : Nat} (hi : i < pt.nEntry)
    (hs : SameButRef (pt.entries i) e) : ¬ e.Idle :=
  PtEntry.not_idle (hs.eligible.trans (h i hi))

end PageTable.Starved

/-- A sweep without a victim meets no frame that can be taken and was not referenced. -/
theorem victimSweep_referenced {E : Nat → PtEntry} (h : victimSweep E l = (E', none)) :
    ∀ i ∈ l, (E i).eligible = true → (E i).ctrl.reference = true := by
  induction l generalizing E with
  | nil => exact nofun
  | cons k r ih =>
    intro i hi hel
    rw [victimSweep] at h
    split at h
    · split at h
      · rename_i href
        by_cases hik : i = k
        · rw [hik]
          exact href
        · have hE := Function.update_of_ne hik ((E k).setReference false) E
          have := ih h i ((List.mem_cons.1 hi).resolve_left hik)
          rw [hE] at this
          exact this hel
      · cases h
    · rename_i hek
      have hik : i ≠ k := by
        rintro rfl
        exact hek hel
      exact ih h i ((List.mem_cons.1 hi).resolve_left hik) hel

/-- It takes the reference bits of the frames it meets. -/
theorem victimSweep_cleared {E : Nat → PtEntry} (h : victimSweep E l = (E', none)) :
    ∀ i, i ∈ l ∨ (E i).ctrl.reference = false → (E i).eligible = true →
      (E' i).ctrl.reference = false := by
  induction l generalizing E with
  | nil =>
    cases h
    intro i hi _
    exact hi.resolve_left nofun
  | cons k r ih =>
    intro i hi hel
    rw [victimSweep] at h
    split at h
    · split at h
      · by_cases hik : i = k
        · subst hik
          apply ih h i (.inr _)
          · rw [Function.update_self]
            exact hel
          · rw [Function.update_self]
            rfl
        · have hE := Function.update_of_ne hik ((E k).setReference false) E
          have hi' : i ∈ r ∨ (E i).ctrl.reference = false := by
            cases hi with
            | inl hi => exact .inl ((List.mem_cons.1 hi).resolve_left hik)
            | inr hi => exact .inr hi
          rw [← hE] at hi' hel
          exact ih h i hi' hel
      · cases h
    · rename_i hek
      have hik : i ≠ k := by
        rintro rfl
        exact hek hel
      have hi' : i ∈ r ∨ (E i).ctrl.reference = false := by
        cases hi with
        | inl hi => exact .inl ((List.mem_cons.1 hi).resolve_left hik)
        | inr hi => exact .inr hi
      exact ih h i hi' hel

theorem victimSweep_append {E : Nat → PtEntry} (h : victimSweep E (l ++ l') = (E', none)) :
    ∃ E₁, victimSweep E l = (E₁, none) ∧ victimSweep E₁ l' = (E', none) := by
  induction l generalizing E with
  | nil => exact ⟨E, rfl, h⟩
  | cons i l ih =>
    rw [List.cons_append, victimSweep] at h
    rw [victimSweep]
    split
    · rename_i hel
      rw [if_pos hel] at h
      split
      · rename_i href
        rw [if_pos href] at h
        exact ih h
      · rename_i href
        rw [if_neg href] at h
        cases h
    · rename_i hel
      rw [if_neg hel] at h
      exact ih h

/-- `find_victim` waits only if no frame can be taken. -/
theorem PageTable.seekVictim_none {pt : PageTable} (h : pt.seekVictim start = (E, none)) :
    pt.Starved := by
  intro i hi
  have hsplit : pt.victimOrder start =
      (List.range pt.nEntry).map (fun k => (start + k) % pt.nEntry) ++
        (List.range (2 * pt.nEntry)).map fun k => (start + (pt.nEntry + k)) % pt.nEntry := by
    unfold PageTable.victimOrder
    rw [show 3 * pt.nEntry = pt.nEntry + 2 * pt.nEntry by omega, List.range_add, List.map_append,
      List.map_map]
    rfl
  have hk : (start + (i + pt.nEntry - start % pt.nEntry) % pt.nEntry) % pt.nEntry = i := by
    have hlt := Nat.mod_lt start (Nat.zero_lt_of_lt hi)
    rw [Nat.add_mod, Nat.mod_mod, ← Nat.add_mod]
    have hsum : start + (i + pt.nEntry - start % pt.nEntry) =
        i + pt.nEntry * (start / pt.nEntry + 1) := by
      have := Nat.div_add_mod start pt.nEntry
      rw [Nat.mul_add]
      omega
    rw [hsum, Nat.add_mul_mod_self_left, Nat.mod_eq_of_lt hi]
  have hmod : (i + pt.nEntry - start % pt.nEntry) % pt.nEntry < pt.nEntry :=
    Nat.mod_lt _ (Nat.zero_lt_of_lt hi)
  unfold PageTable.seekVictim at h
  rw [hsplit] at h
  obtain ⟨E₁, h₁, h₂⟩ := victimSweep_append h
  have hsame := (victimSweep_spec pt.entries
    ((List.range pt.nEntry).map fun k => (start + k) % pt.nEntry)).1 i
  rw [h₁] at hsame
  -- the first round takes the reference bit, the second one would take the frame
  cases hel : (pt.entries i).eligible with
  | false => rfl
  | true =>
    have hclear := victimSweep_cleared h₁ i (.inl (List.mem_map.2 ⟨_, List.mem_range.2 hmod, hk⟩)) hel
    have href := victimSweep_referenced h₂ i (List.mem_map.2
      ⟨(i + pt.nEntry - start % pt.nEntry) % pt.nEntry, List.mem_range.2 (by omega), by
        rw [Nat.add_left_comm, Nat.add_mod_left, hk]⟩) (hsame.eligible.trans hel)
    rw [hclear] at href
    cases href

theorem PageTable.chanceSearch_starved {pt : PageTable} (h : pt.chanceSearch 1 fp = (E, none)) :
    pt.Starved := by
  intro i hi
  cases hel : (pt.entries i).eligible with
  | false => rfl
  | true =>
    apply (PageTable.chanceSearch_none (Nat.le_refl 1) h _).elim
    refine ⟨i, hi, ?_⟩
    intro j hj hj'
    rw [show j = i by omega]
    exact hel

/-- The thread sleeps on `pt_cv`. -/
def Pc.starves : Pc → Bool
  | .victimWait _ _ false | .allocWait false => true
  | _ => false

theorem Pc.starves_wakePt (c : Pc) : c.wakePt.starves = false := by
  cases c <;> rfl

theorem Pc.starves_wakeCell (d : Nat) (c : Pc) : (c.wakeCell d).starves = c.starves := by
  cases c <;> rfl

/-- A page is in the TLB and nothing else keeps it in its frame. -/
def Sys.Flushable (s : Sys) : Prop :=
  ∃ i < s.ipt.pt.nEntry, (s.ipt.pt.entries i).ctrl.tlb = true ∧
    ((s.ipt.pt.entries i).setTlb false).eligible = true

/-- The running process has a page in memory. -/
def Sys.Resident (s : Sys) : Prop :=
  ∃ i < s.ipt.pt.nEntry, (s.ipt.pt.entries i).pid = s.cur ∧ (s.ipt.pt.entries i).user = true

/-- The steps that let go of a frame without a broadcast on `pt_cv`: the TLB is flushed, a
slot of the TLB is replaced, or a process with pages in memory exits. -/
def Sys.LetsGo (s : Sys) : Action → Prop
  | .dispatch q => (s.as q).isSome = true ∧ s.mmu.previousPid ≠ q ∧ s.Flushable
  | .exec _ _ => s.mmu.previousPid ≠ s.cur ∧ s.Flushable
  | .fault t a => t = .readonly ∧ s.Resident ∨ t ≠ .readonly ∧ s.mmu.freeSlot = none ∧
      ∃ i, s.ipt.ht.getIndexFromHash (Sys.pageOf a) s.cur = .ok (some i)
  | .exit => s.Resident
  | .advance => s.mmu.freeSlot = none ∧ ∃ v i, s.pc s.cur = .loaded v i
  | _ => False

/-- While a thread sleeps on `pt_cv`, no step lets go of a frame without a broadcast. -/
def Sys.Wakeful (s : Sys) (a : Action) : Prop := (∃ q, (s.pc q).starves = true) → ¬ s.LetsGo a

namespace PageTable.Starved
variable {pt pt' : PageTable}

theorem updateTlbBit (h : ∀ i < pt.nEntry, ((pt.entries i).setTlb false).eligible = false)
    (hu : pt.updateTlbBit v p = .ok pt') :
    pt'.nEntry = pt.nEntry ∧ ∀ i < pt'.nEntry, ((pt'.entries i).setTlb false).eligible = false := by
  rcases updateTlbBit_ok hu with ⟨rfl, -⟩ | ⟨i, hi, -, -, -, -, -, rfl⟩
  · exact ⟨rfl, h⟩
  · refine ⟨rfl, ?_⟩
    intro j hj
    change ((Function.update pt.entries i _ j).setTlb false).eligible = false
    by_cases hji : j = i
    · rw [hji, Function.update_self]
      exact h i hi
    · rw [Function.update_of_ne hji]
      exact h j hj

theorem of_untlb (h : ∀ i < pt.nEntry, ((pt.entries i).setTlb false).eligible = false) :
    pt.Starved := by
  intro i hi
  have := h i hi
  rw [PtEntry.eligible_eq_false] at this ⊢
  rcases this with h | h | h | h
  · cases h
  · exact .inr (.inl h)
  · exact .inr (.inr (.inl h))
  · exact .inr (.inr (.inr h))

theorem tlbInvalidateAll (h : pt.Starved) (hp : m.previousPid ≠ p →
      ∀ i < pt.nEntry, ((pt.entries i).setTlb false).eligible = false)
    (hu : Clape.tlbInvalidateAll pt m p = .ok (pt', m')) : pt'.Starved := by
  unfold Clape.tlbInvalidateAll at hu
  split at hu
  · cases hu
    exact h
  · rename_i hne
    obtain ⟨⟨pt₁, m₁⟩, hfold, hu⟩ := bind_ok.1 hu
    cases hu
    have hs : Sound (fun _ => True) (fun x : PageTable × Mmu =>
        ∀ i < x.1.nEntry, ((x.1.entries i).setTlb false).eligible = false)
        ((List.range numTlb).foldlM invalidateSlot (pt, m)) := by
      apply Sound.foldlM (hp hne)
      intro k _ x hx
      unfold invalidateSlot
      simp only
      split
      · apply Sound.of_bind
        · exact fun _ _ => trivial
        · intro pt₂ hpt₂
          exact (updateTlbBit hx hpt₂).2
      · exact hx
    exact of_untlb (hs.ok hfold)

theorem prepareCopyPt (h : pt.Starved) (hu : pt.prepareCopyPt p = .ok pt') : pt'.Starved := by
  obtain ⟨-, rfl⟩ := (markCopy_spec ..).ok hu
  refine h.congr rfl ?_
  intro i hi
  simp only at hi
  split at hi
  · simp [PtEntry.eligible, PtEntry.setSwap] at hi
  · exact hi

theorem tlbInsert (h : pt.Starved) (hf : m.freeSlot ≠ none)
    (hu : Clape.tlbInsert pt m A p v i = .ok (pt', m', r)) : pt'.Starved := by
  unfold Clape.tlbInsert at hu
  simp only at hu
  split at hu
  · cases hu
    exact h
  · rename_i hn
    exact (hf hn).elim

end PageTable.Starved

theorem asActivate_starved {pt : PageTable} (h : pt.Starved)
    (hp : o.isSome = true → m.previousPid ≠ p →
      ∀ i < pt.nEntry, ((pt.entries i).setTlb false).eligible = false)
    (hu : asActivate pt m o p = .ok (pt', m')) : pt'.Starved := by
  cases o with
  | none =>
    cases hu
    exact h
  | some A => exact h.tlbInvalidateAll (hp rfl) hu

theorem Sys.not_flushable {s : Sys} (hs : s.ipt.pt.Starved) (h : ¬ s.Flushable) :
    ∀ i < s.ipt.pt.nEntry, ((s.ipt.pt.entries i).setTlb false).eligible = false := by
  intro i hi
  cases ht : (s.ipt.pt.entries i).ctrl.tlb with
  | false =>
    have hno := hs i hi
    rw [PtEntry.eligible_eq_false, ht] at hno
    rw [PtEntry.eligible_eq_false]
    exact hno
  | true =>
    cases he : ((s.ipt.pt.entries i).setTlb false).eligible with
    | false => rfl
    | true => exact (h ⟨i, hi, ht, he⟩).elim

theorem freePages_starved {s t : Ipt} (h : s.pt.Starved) (hf : s.freePages p = .ok t)
    (hr : ¬ ∃ i < s.pt.nEntry, (s.pt.entries i).pid = p ∧ (s.pt.entries i).user = true) :
    t.pt.Starved := by
  obtain ⟨-, hpt⟩ := freePages_ok hf
  rw [hpt]
  refine h.congr rfl ?_
  intro i hi
  simp only at hi
  rw [if_neg fun hi => hr ⟨i, hi.1, hi.2⟩] at hi
  exact hi

/-- A thread goes to sleep on `pt_cv` when no frame can be taken. -/
theorem Move.starves {s u : Sys} (hm : Move s a u) (hq : (u.pc q).starves = true) :
    (s.pc q).starves = true ∨ u.ipt.pt.Starved := by
  by_cases hqc : q = s.cur
  · subst hqc
    have hgo : ∀ {w : Sys} {c : Pc}, w.cur = s.cur → ((w.goto c).pc s.cur).starves = true →
        c.starves = true := by
      intro w c hw hc
      rw [Sys.pc_goto, hw, Function.update_self] at hc
      exact hc
    cases hm with
    | dispatch => exact .inl hq
    | write => exact .inl hq
    | hit => exact .inl hq
    | allocFree => exact .inl hq
    | kfree =>
      change (s.pc s.cur).wakePt.starves = true at hq
      rw [Pc.starves_wakePt] at hq
      cases hq
    | allocWait _ hsearch =>
      have hsame := s.ipt.pt.chanceSearch_sameButRef 1 ‹_›
      rw [hsearch] at hsame
      exact .inr (.congr (PageTable.chanceSearch_starved hsearch) rfl fun i hi =>
        (hsame i).eligible.symm.trans hi)
    | @noVictim v start E _ hseek =>
      have hsame := (victimSweep_spec s.ipt.pt.entries (s.ipt.pt.victimOrder start)).1
      rw [show victimSweep s.ipt.pt.entries (s.ipt.pt.victimOrder start) = _ from hseek] at hsame
      exact .inr (.congr (PageTable.seekVictim_none hseek) rfl fun i hi =>
        (hsame i).eligible.symm.trans hi)
    | @spawn r hpc hn =>
      rw [Sys.pc_update rfl] at hq
      by_cases hr : s.cur = r
      · rw [hr, Function.update_self] at hq
        cases hq
      · rw [Function.update_of_ne hr] at hq
        exact .inl hq
    | exec hpc =>
      rw [Sys.pc_update rfl, Function.update_self] at hq
      exact .inl hq
    | @reap r hpc hn =>
      rw [Sys.pc_update rfl] at hq
      by_cases hr : s.cur = r
      · rw [hr, Function.update_self] at hq
        cases hq
      · rw [Function.update_of_ne hr] at hq
        exact .inl hq
    | fork =>
      rw [Sys.pc_goto] at hq
      cases (congrArg Pc.starves (Function.update_self ..)).symm.trans hq
    | storing =>
      rw [Sys.pc_goto] at hq
      cases (congrArg Pc.starves (Function.update_self ..)).symm.trans hq
    | ptEnd =>
      rw [Sys.pc_goto] at hq
      cases (congrArg Pc.starves (Function.update_self ..)).symm.trans hq
    | _ => cases hgo rfl hq
  · rcases hm.pc_other hqc with h | h | ⟨c, h⟩ | ⟨-, h | h | h⟩
    · exact .inl (h ▸ hq)
    · rw [h, Pc.starves_wakePt] at hq
      cases hq
    · rw [h, Pc.starves_wakeCell] at hq
      exact .inl hq
    · rw [h] at hq
      cases hq
    · rw [h] at hq
      cases hq
    · rw [h] at hq
      cases hq

/-- While a thread sleeps, no frame can be taken. -/
theorem Move.starved {s u : Sys} (hm : Move s a u) (ho : s.table.Own) (ha : ¬ s.LetsGo a)
    (hs : s.ipt.pt.Starved) (hu : (u.pc q).starves = true) : u.ipt.pt.Starved := by
  have hclean : ∀ i, (s.ipt.pt.entries i).ctrl.validity = false →
      (s.ipt.pt.entries i).ctrl.io = false ∧ (s.ipt.pt.entries i).ctrl.swap = false ∧
        (s.ipt.pt.entries i).ctrl.tlb = false := fun i => (ho.fits i).clean
  have hspace : ∀ i, s.ipt.pt.findspace ≠ some i := by
    intro i hi
    exact hs.not_space (List.mem_range.1 (List.mem_of_find?_eq_some hi)) (hclean i) hi
  cases hm with
  | dispatch _ _ hact =>
    refine asActivate_starved hs ?_ hact
    intro hsome hne
    exact Sys.not_flushable hs fun hf => ha ⟨hsome, hne, hf⟩
  | exec _ _ _ hact =>
    refine asActivate_starved hs ?_ hact
    intro _ hne
    exact Sys.not_flushable hs fun hf => ha ⟨hne, hf⟩
  | @hit as v x t ipt i pt mmu r st hpc has hv _ ht _ _ hget hins =>
    obtain ⟨hh, -, -, -, -, -, rfl⟩ := ptGetPaddr_some hget
    refine PageTable.Starved.tlbInsert (hs.set i ?_) ?_ hins
    · rfl
    · intro hf
      exact ha (.inr ⟨ht, hf, i, hv ▸ hh⟩)
  | space _ _ _ _ _ _ _ hf => exact (hspace _ hf).elim
  | exit hpc hact hf =>
    refine freePages_starved hs hf ?_
    rcases hact with rfl | ⟨x, rfl⟩
    · exact ha
    · exact fun hr => ha (.inl ⟨rfl, hr⟩)
  | @segv v i as w ipt hpc has _ _ hf =>
    -- the frame of the fault is still under I/O
    have hrole : s.table.role s.cur = .loading v i := by
      rw [show s.table.role s.cur = (s.pc s.cur).role from rfl, hpc]
      rfl
    obtain ⟨hi, ⟨hv, hio, -⟩, hkey⟩ := (ho.fits i).held (q := s.cur) (o := some v)
      (by rw [hrole]; rfl)
    have hkm := hkey.1.ne_kmallocPage
    rw [← hkey.2.1] at hkm
    obtain ⟨hno, -⟩ := (freePages_ok hf).1 i hi hkey.2.2 (PtEntry.user_iff.2 ⟨hv, hkm⟩)
    rw [show (s.ipt.pt.entries i).ctrl.io = true from hio] at hno
    cases hno
  | allocFree _ hrun hmark =>
    obtain ⟨hidle, -⟩ := markFree_idle hmark
    exact (hs.not_idle (List.mem_range.1 (freeRun_last hrun).1) (.refl _) hidle).elim
  | @allocWait _ fp _ _ hsearch =>
    have hsame := s.ipt.pt.chanceSearch_sameButRef 1 fp
    rw [hsearch] at hsame
    exact hs.congr rfl fun i hi => (hsame i).eligible.symm.trans hi
  | @allocTake _ fp E f i _ _ hsearch hclaim =>
    have hsame := s.ipt.pt.chanceSearch_sameButRef 1 fp
    have hlt := @PageTable.chanceSearch_lt 1 fp f i s.ipt.pt
    rw [hsearch] at hsame hlt
    exact (hs.not_idle (hlt rfl) (hsame i) (claimKernel_ok hclaim).1).elim
  | @allocEvict _ fp E f i _ _ _ _ hsearch hclaim =>
    have hsame := s.ipt.pt.chanceSearch_sameButRef 1 fp
    have hlt := @PageTable.chanceSearch_lt 1 fp f i s.ipt.pt
    rw [hsearch] at hsame hlt
    exact (hs.not_idle (hlt rfl) (hsame i) (claimKernel_ok hclaim).1).elim
  | kfree =>
    change (s.pc q).wakePt.starves = true at hu
    rw [Pc.starves_wakePt] at hu
    cases hu
  | fork _ _ _ _ _ hprep => exact hs.prepareCopyPt hprep
  | @noVictim v start E _ hseek =>
    have hsame := (victimSweep_spec s.ipt.pt.entries (s.ipt.pt.victimOrder start)).1
    rw [show victimSweep s.ipt.pt.entries (s.ipt.pt.victimOrder start) = _ from hseek] at hsame
    exact hs.congr rfl fun i hi => (hsame i).eligible.symm.trans hi
  | @takeVictim v start E i _ _ _ hseek hclaim =>
    obtain ⟨hsame, hvic⟩ := victimSweep_spec s.ipt.pt.entries (s.ipt.pt.victimOrder start)
    rw [show victimSweep s.ipt.pt.entries (s.ipt.pt.victimOrder start) = _ from hseek] at hsame hvic
    exact (hs.not_idle (PageTable.victimOrder_lt (hvic i rfl).1) (hsame i)
      (claimVictim_ok hclaim).1).elim
  | @evictVictim v start E i _ _ _ _ hseek hclaim =>
    obtain ⟨hsame, hvic⟩ := victimSweep_spec s.ipt.pt.entries (s.ipt.pt.victimOrder start)
    rw [show victimSweep s.ipt.pt.entries (s.ipt.pt.victimOrder start) = _ from hseek] at hsame hvic
    exact (hs.not_idle (PageTable.victimOrder_lt (hvic i rfl).1) (hsame i)
      (claimVictim_ok hclaim).1).elim
  | @storedVictim v i ipt _ hhash =>
    change ipt.pt.Starved
    rw [(hashVictim_ok hhash).2]
    exact hs
  | @storedAlloc i hpc =>
    -- the frame is one of the kernel already
    have hrole : s.table.role s.cur = .evicting i := by
      rw [show s.table.role s.cur = (s.pc s.cur).role from rfl, hpc]
      rfl
    obtain ⟨hi, -, hkey⟩ := (ho.fits i).held (q := s.cur) (o := none) (by rw [hrole]; rfl)
    refine (hs.set i ?_).congr rfl fun j hj => hj
    rw [PtEntry.eligible_eq_false]
    exact .inr (.inr (.inr hkey))
  | @loaded v i A _ _ _ _ hpc _ hins =>
    refine PageTable.Starved.tlbInsert (hs.set i ?_) ?_ hins
    · rfl
    · intro hf
      exact ha ⟨hf, v, i, hpc⟩
  | ptSpace _ _ _ _ hf => exact (hspace _ hf).elim
  | @ptEnd child i pt hpc _ _ =>
    -- the broadcast of `end_copy_pt` wakes all sleepers
    have hrun : ∀ f : Nat → Pc, (∀ r, (f r).starves = false) → ∀ p r,
        (Function.update f p .run r).starves = false := by
      intro f hf p r
      rw [Function.update_apply]
      split
      · rfl
      · exact hf r
    have hwake := hrun _ (hrun _ (fun r => Pc.starves_wakePt (s.pc r)) child) s.cur q
    rw [Sys.pc_goto, Sys.pc_setPc, Sys.pc_mapPc] at hu
    cases hwake.symm.trans hu
  | _ => exact hs

/-- While a thread sleeps on `pt_cv`, no frame can be taken. -/
def Sys.Hungry (s : Sys) : Prop := (∃ q, (s.pc q).starves = true) → s.ipt.pt.Starved

theorem Sys.Hungry.step {s u : Sys} (h : s.Hungry) (ho : s.table.Own) (ha : s.Wakeful a)
    (hm : Move s a u) : u.Hungry := by
  rintro ⟨q, hq⟩
  cases hm.starves hq with
  | inl hsq => exact hm.starved ho (ha ⟨q, hsq⟩) (h ⟨q, hsq⟩) hq
  | inr hu => exact hu

theorem Sys.boot_hungry (m : Hardware) : (Sys.boot m).Hungry := by
  rintro ⟨q, hq⟩
  change (if q = 1 then Pc.run else .none).starves = true at hq
  split at hq
  · cases hq
  · cases hq

/-- In every run in which frames are let go with a broadcast while a thread sleeps on `pt_cv`,
a thread sleeps only while every frame is in the TLB, under I/O, being copied, or one of the
kernel. -/
theorem no_sleep_with_frame {m : Hardware} (h : Run (StepWhen Sys.Wakeful) (Sys.boot m) tr s)
    (hq : (s.pc q).starves = true) : ∀ i < s.ipt.pt.nEntry,
      (s.ipt.pt.entries i).ctrl.tlb = true ∨ (s.ipt.pt.entries i).ctrl.io = true ∨
        (s.ipt.pt.entries i).ctrl.swap = true ∨ (s.ipt.pt.entries i).page = kmallocPage := by
  have hinv : s.table.Good ∧ s.Hungry := by
    apply h.invariant ⟨⟨Sys.boot_own m, Sys.boot_hashed m⟩, Sys.boot_hungry m⟩
    intro t a u ht hs
    exact ⟨Sys.step_good ht.1 hs.2, ht.2.step ht.1.1 hs.1 hs.2.move⟩
  intro i hi
  exact PtEntry.eligible_eq_false.1 (hinv.2 ⟨q, hq⟩ i hi)

namespace Sys

instance (s : Sys) : Decidable s.Flushable :=
  inferInstanceAs (Decidable (∃ i < s.ipt.pt.nEntry, _ ∧ _))

instance (s : Sys) : Decidable s.Resident :=
  inferInstanceAs (Decidable (∃ i < s.ipt.pt.nEntry, _ ∧ _))

instance (s : Sys) (v p : Nat) :
    Decidable (∃ i, s.ipt.ht.getIndexFromHash v p = .ok (some i)) :=
  match s.ipt.ht.getIndexFromHash v p with
  | .ok (some i) => .isTrue ⟨i, rfl⟩
  | .ok none => .isFalse nofun
  | .error _ => .isFalse nofun

instance (c : Pc) : Decidable (∃ v i, c = .loaded v i) :=
  match c with
  | .loaded v i => .isTrue ⟨v, i, rfl⟩
  | .none | .embryo | .run | .zombie | .findVictim _ _ | .victimWait _ _ _ | .storeSwap _ _ _ _
  | .storing _ _ _ | .stored _ _ | .loadPage _ _ | .cell _ _ | .cellWait _ _ _ | .reading _ _ _
  | .elfReading _ _ | .alloc | .allocWait _ | .removeSwap _ _ | .copySwap _ _ _
  | .copyReading _ _ _ _ | .copyWriting _ _ _ _ | .copyPt _ _ => .isFalse nofun

instance (s : Sys) (a : Action) : Decidable (s.LetsGo a) :=
  match a with
  | .dispatch _ | .exec _ _ => inferInstanceAs (Decidable (_ ∧ _))
  | .fault _ _ => inferInstanceAs (Decidable (_ ∨ _))
  | .exit => inferInstanceAs (Decidable s.Resident)
  | .advance => inferInstanceAs (Decidable (_ ∧ _))
  | .write _ _ _ | .alloc | .kfree _ | .fork _ | .spawn _ | .reap _ =>
    inferInstanceAs (Decidable False)

end Sys

/-- The kernel sleeps for the only frame, which holds a page in the TLB. -/
theorem no_sleep_with_frame_pinned : ∃ tr s,
    Run (StepWhen Sys.Wakeful) (Sys.boot (.blank 1 4)) tr s ∧ (s.pc 1).starves = true ∧
      s.ipt.pt.nEntry = 1 ∧ ((s.ipt.pt.entries 0).ctrl.tlb = true ∨
        (s.ipt.pt.entries 0).ctrl.io = true ∨ (s.ipt.pt.entries 0).ctrl.swap = true ∨
        (s.ipt.pt.entries 0).page = kmallocPage) := by
  obtain ⟨s, hr, hs⟩ := Sys.run_of_follow (C := fun s a => ¬ s.LetsGo a) (s := .boot (.blank 1 4))
    [.spawn 2, .dispatch 2, .exec 0 (programHeaders 0x400000 4096 0x10000000 4096),
      .fault .read 0x400000, .advance, .advance, .advance, .dispatch 1, .alloc]
    (p := fun s => decide ((s.pc 1).starves = true ∧ s.ipt.pt.nEntry = 1)) (by decide +kernel)
  obtain ⟨hq, hn⟩ := of_decide_eq_true hs
  have hw : Run (StepWhen Sys.Wakeful) (Sys.boot (.blank 1 4)) _ s :=
    hr.mono fun _ _ _ hs => hs.mono fun _ _ hl _ => hl
  exact ⟨_, s, hw, hq, hn, no_sleep_with_frame hw hq 0 (by rw [hn]; decide)⟩

/-- The program exits while the kernel sleeps for its frame, and no broadcast follows. -/
theorem sleep_past_exit : ∃ tr s,
    Run (StepWhen fun _ _ => True) (Sys.boot (.blank 1 4)) tr s ∧ (s.pc 1).starves = true ∧
      s.pc s.cur = .zombie ∧ 0 < s.ipt.pt.nEntry ∧ (s.ipt.pt.entries 0).eligible = true := by
  obtain ⟨s, hr, hs⟩ := Sys.run_of_follow (C := fun _ _ => True) (s := .boot (.blank 1 4))
    [.spawn 2, .dispatch 2, .exec 0 (programHeaders 0x400000 4096 0x10000000 4096),
      .fault .read 0x400000, .advance, .advance, .advance, .dispatch 1, .alloc, .dispatch 2,
      .exit, .advance, .advance, .advance]
    (p := fun s => decide ((s.pc 1).starves = true ∧ s.pc s.cur = .zombie ∧
      0 < s.ipt.pt.nEntry ∧ (s.ipt.pt.entries 0).eligible = true)) (by decide +kernel)
  exact ⟨_, s, hr, of_decide_eq_true hs⟩

end Clape
