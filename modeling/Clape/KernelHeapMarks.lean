import Mathlib.Data.Fintype.Card
import Clape.KernelHeapSteps

namespace Clape
set_option autoImplicit true

namespace KheapRoot

theorem marked_mark (root : KheapRoot) (i j : Nat) :
    (root.mark j).marked i = (decide (i = j) || root.marked i) := by
  unfold marked mark
  dsimp only
  by_cases hw : i / 32 = j / 32
  · rw [hw, Function.update_self, BitVec.getLsbD_or, BitVec.getLsbD_shiftLeft, BitVec.getLsbD_one]
    have hi : i % 32 < 32 := Nat.mod_lt _ (by decide)
    have hbit : (decide (i % 32 < 32) && !decide (i % 32 < j % 32) &&
        (decide (0 < 32) && decide (i % 32 - j % 32 = 0))) = decide (i = j) := by
      rw [Bool.eq_iff_iff]
      simp only [Bool.and_eq_true, Bool.not_eq_true', decide_eq_true_eq, decide_eq_false_iff_not]
      omega
    rw [hbit, Bool.or_comm]
  · rw [Function.update_of_ne hw]
    have hij : i ≠ j := fun he => hw (by rw [he])
    rw [decide_eq_false hij, Bool.false_or]

theorem marked_unmark (root : KheapRoot) (i j : Nat) :
    (root.unmark j).marked i = (!decide (i = j) && root.marked i) := by
  unfold marked unmark
  dsimp only
  by_cases hw : i / 32 = j / 32
  · have hi : i % 32 < 32 := Nat.mod_lt _ (by decide)
    rw [hw, Function.update_self, BitVec.getLsbD_and, BitVec.getLsbD_not, BitVec.getLsbD_shiftLeft,
      BitVec.getLsbD_one]
    have hbit : (decide (i % 32 < 32) && !(decide (i % 32 < 32) && !decide (i % 32 < j % 32) &&
        (decide (0 < 32) && decide (i % 32 - j % 32 = 0)))) = !decide (i = j) := by
      rw [Bool.eq_iff_iff]
      simp only [Bool.and_eq_true, Bool.not_eq_true', decide_eq_true_eq, decide_eq_false_iff_not,
        Bool.and_eq_false_iff, Bool.not_eq_false']
      omega
    rw [hbit, Bool.and_comm]
  · rw [Function.update_of_ne hw]
    have hij : i ≠ j := fun he => hw (by rw [he])
    rw [decide_eq_false hij, Bool.not_false, Bool.true_and]

theorem mem_marks {root : KheapRoot} : j ∈ root.marks ↔ j < 256 ∧ root.marked j = true := by
  unfold marks
  rw [Finset.mem_filter, Finset.mem_range]

theorem marks_mark (root : KheapRoot) (hj : j < 256) : (root.mark j).marks = insert j root.marks := by
  ext i
  rw [Finset.mem_insert, mem_marks, mem_marks, marked_mark, Bool.or_eq_true, decide_eq_true_eq]
  constructor
  · rintro ⟨hi, he | hm⟩
    · exact .inl he
    · exact .inr ⟨hi, hm⟩
  · rintro (he | ⟨hi, hm⟩)
    · exact ⟨he ▸ hj, .inl he⟩
    · exact ⟨hi, .inr hm⟩

theorem marks_unmark (root : KheapRoot) (j : Nat) : (root.unmark j).marks = root.marks.erase j := by
  ext i
  rw [Finset.mem_erase, mem_marks, mem_marks, marked_unmark, Bool.and_eq_true, Bool.not_eq_true',
    decide_eq_false_iff_not]
  tauto

theorem clear_bit {w : BitVec 32} (hw : (w != 0xffffffff#32) = true) :
    ∃ j, ((List.range 32).find? fun j => !w.getLsbD j) = some j := by
  cases hf : (List.range 32).find? fun j => !w.getLsbD j with
  | some j => exact ⟨j, rfl⟩
  | none =>
    rw [List.find?_eq_none] at hf
    have hall : w = 0xffffffff#32 := by
      apply BitVec.eq_of_getLsbD_eq
      intro i hi
      have hbit := hf i (List.mem_range.2 hi)
      rw [Bool.not_eq_true', Bool.not_eq_false] at hbit
      have hones : ∀ i < 32, (0xffffffff#32).getLsbD i = true := by decide
      rw [hbit, hones i hi]
    rw [bne_iff_ne] at hw
    exact absurd hall hw

/-- The loops over one root find a clear bit when there is one. -/
theorem search_ok (root : KheapRoot) (hfull : root.marks.card < 256) :
    ∃ j, root.search = .ok (some j) ∧ j < 256 ∧ root.marked j = false := by
  unfold search
  cases hi : (List.range 8).find? fun i => root.inuse i != 0xffffffff#32 with
  | none =>
    rw [List.find?_eq_none] at hi
    have hall : Finset.range 256 ⊆ root.marks := by
      intro j hj
      rw [Finset.mem_range] at hj
      rw [mem_marks]
      refine ⟨hj, ?_⟩
      have hw := hi (j / 32) (List.mem_range.2 (by omega))
      rw [bne_iff_ne, not_not] at hw
      have hones : ∀ i < 32, (0xffffffff#32).getLsbD i = true := by decide
      unfold marked
      rw [hw]
      exact hones _ (Nat.mod_lt _ (by decide))
    have hcard := Finset.card_le_card hall
    rw [Finset.card_range] at hcard
    omega
  | some i =>
    have hw := List.find?_some hi
    have hlt := List.mem_range.1 (List.mem_of_find?_eq_some hi)
    obtain ⟨j, hj⟩ := clear_bit hw
    have hjlt := List.mem_range.1 (List.mem_of_find?_eq_some hj)
    have hbit := List.find?_some hj
    refine ⟨i * 32 + j, ?_, by omega, ?_⟩
    · dsimp only
      rw [hj]
    · have hdiv : (i * 32 + j) / 32 = i := by omega
      have hmod : (i * 32 + j) % 32 = j := by omega
      unfold marked
      rw [hdiv, hmod]
      rwa [Bool.not_eq_true'] at hbit

end KheapRoot

namespace KernelHeap
variable {n : Nat} {s : KernelHeap n} {v : HeapView}

/-- The loop of `allocpageref` ends without a pageref, or at one that is not marked in the first
root that is not full. -/
theorem seekRef_ok (hcount : ∀ r ∈ l, (s.roots r).numinuse = (s.roots r).marks.card)
    (hsorted : l.Pairwise (· < ·)) :
    s.seekRef l = .ok none ∨ ∃ r j, s.seekRef l = .ok (some (r, j)) ∧ r ∈ l ∧ j < 256 ∧
      (s.roots r).marked j = false ∧ ∀ r' ∈ l, r' < r → 256 ≤ (s.roots r').numinuse := by
  induction l with
  | nil => exact .inl rfl
  | cons r l ih =>
    rw [List.pairwise_cons] at hsorted
    unfold seekRef
    by_cases hfull : npagerefsPerPage ≤ (s.roots r).numinuse
    · rw [if_pos hfull]
      obtain hnone | ⟨q, j, hq, hmem, hlt, hfree, hbefore⟩ :=
        ih (fun q hq => hcount q (List.mem_cons_of_mem r hq)) hsorted.2
      · exact .inl hnone
      · refine .inr ⟨q, j, hq, List.mem_cons_of_mem r hmem, hlt, hfree, ?_⟩
        intro r' hr' hlt
        cases List.mem_cons.1 hr' with
        | inl he =>
          rw [he]
          exact hfull
        | inr hr' => exact hbefore r' hr' hlt
    · rw [if_neg hfull]
      unfold npagerefsPerPage at hfull
      have hcard := hcount r List.mem_cons_self
      obtain ⟨j, hj, hlt, hfree⟩ := (s.roots r).search_ok (by omega)
      refine .inr ⟨r, j, ?_, List.mem_cons_self, hlt, hfree, ?_⟩
      · rw [hj]
        rfl
      · intro r' hr' hrr
        cases List.mem_cons.1 hr' with
        | inl he => omega
        | inr hr' =>
          have := hsorted.1 r' hr'
          omega

/-- A root without a page is not full: its marks are of threads. -/
theorem Inv.root_not_full (h : s.Inv v) (hn : n < 256) (hr : r < numPagerefpages)
    (hnone : (s.roots r).page = none) : (s.roots r).numinuse < 256 := by
  have hthread : ∀ j ∈ (s.roots r).marks, ∃ t : Fin n, (s.pc t).slot = some (r, j) := by
    intro j hj
    obtain ⟨o, ho⟩ := (h.marks.owned.marks (r, j)).1 ⟨hr, hj⟩
    cases o with
    | thread t => exact ⟨t, ho⟩
    | page pr =>
      by_cases hpr : pr ∈ v.all
      · rw [slots_page hpr] at ho
        obtain ⟨page, hpage, -⟩ := h.located pr hpr
        rw [Option.some.inj ho, hnone] at hpage
        cases hpage
      · have hno : s.slots v (.page pr) = none := if_neg hpr
        rw [hno] at ho
        cases ho
  have hsub : (s.roots r).marks ⊆ Finset.univ.image fun t : Fin n => ((s.pc t).slot.getD (0, 0)).2 := by
    intro j hj
    obtain ⟨t, ht⟩ := hthread j hj
    rw [Finset.mem_image]
    exact ⟨t, Finset.mem_univ t, by rw [ht]; rfl⟩
  have hle := (Finset.card_le_card hsub).trans Finset.card_image_le
  rw [Finset.card_univ, Fintype.card_fin] at hle
  rw [h.marks.count r hr]
  omega

theorem ok_roots {pc : HeapPc} {roots roots' : Nat → KheapRoot} (h : pc.Ok roots)
    (hpage : ∀ r, (roots r).page ≠ none → (roots' r).page ≠ none) : pc.Ok roots' := by
  cases pc with
  | dropRefs sz k a r j va => exact ⟨h.1, h.2.1, hpage r h.2.2⟩
  | retake sz k a r j => exact ⟨h.1, h.2.1, hpage r h.2.2⟩
  | _ => exact h

theorem mark_page (roots : Nat → KheapRoot) (r j q : Nat) :
    (Function.update roots r ((roots r).mark j) q).page = (roots q).page := by
  by_cases hq : q = r
  · rw [hq, Function.update_self]
    rfl
  · rw [Function.update_of_ne hq]

/-- A thread with a page marks a pageref for it. -/
theorem Inv.mark (h : s.Inv v) (hn : n < 256) (hpc : s.pc t = .hasPage sz k a)
    (hr : r < numPagerefpages) (hj : j < 256) (hfree : (s.roots r).marked j = false)
    (hbefore : ∀ r' < r, 256 ≤ (s.roots r').numinuse) :
    (KernelHeap.goto { s with roots := Function.update s.roots r ((s.roots r).mark j) } t
      (.wantRefs sz k a r j)).Inv v := by
  have hthreads := h.threads t
  rw [hpc] at hthreads
  have hnot : j ∉ (s.roots r).marks := by
    rw [KheapRoot.mem_marks, hfree]
    simp
  constructor
  · exact h.pages
  · have hplace : (KernelHeap.goto { s with roots := Function.update s.roots r ((s.roots r).mark j) } t
        (.wantRefs sz k a r j)).place v = s.place v := by
      funext o
      rw [place_goto]
      cases o with
      | refs q =>
        show (if q < numPagerefpages then (Function.update s.roots r ((s.roots r).mark j) q).page else none) = _
        rw [mark_page]
        rfl
      | thread u =>
        by_cases hu : u = t
        · subst hu
          simp [place, hpc, HeapPc.page]
        · simp [place, hu]
      | spare u =>
        by_cases hu : u = t
        · subst hu
          simp [place, hpc, HeapPc.spare]
        · simp [place, hu]
      | given u =>
        by_cases hu : u = t
        · subst hu
          simp [place, hpc, HeapPc.given]
        · simp [place, hu]
      | _ => rfl
    rw [hplace]
    exact h.runs
  · constructor
    · have hnone : s.slots v (.thread t) = none := by
        show (s.pc t).slot = none
        rw [hpc]
        rfl
      apply h.marks.owned.alloc (r := .thread t) (b := (r, j)) hnone
      · intro hm
        exact hnot hm.2
      · intro o
        rw [slots_goto]
        rfl
      · rintro ⟨q, i⟩
        show q < _ ∧ i ∈ (Function.update s.roots r ((s.roots r).mark j) q).marks ↔ _
        by_cases hq : q = r
        · subst hq
          rw [Function.update_self, KheapRoot.marks_mark _ hj, Finset.mem_insert]
          simp only [Prod.mk.injEq, true_and]
          tauto
        · rw [Function.update_of_ne hq]
          simp only [Prod.mk.injEq, hq, false_and, false_or]
    · intro q hq
      show (Function.update s.roots r ((s.roots r).mark j) q).numinuse = (Function.update s.roots r _ q).marks.card
      by_cases hqr : q = r
      · subst hqr
        rw [Function.update_self, KheapRoot.marks_mark _ hj, Finset.card_insert_of_notMem hnot,
          ← h.marks.count q hq]
        rfl
      · rw [Function.update_of_ne hqr]
        exact h.marks.count q hq
    · intro q q' hlt hq' hpage
      have hq : (s.roots q).page = none := (mark_page s.roots r j q).symm.trans hpage
      show (Function.update s.roots r ((s.roots r).mark j) q').numinuse = 0
      by_cases hqr : q' = r
      · -- the roots before it are full, and so have pages
        subst hqr
        have hlow := h.root_not_full hn (Nat.lt_trans hlt hq') hq
        have hhigh := hbefore q hlt
        omega
      · rw [Function.update_of_ne hqr]
        exact h.marks.order q q' hlt hq' hq
  · intro pr hpr
    show ∃ page, (Function.update s.roots r ((s.roots r).mark j) (v.slot pr).1).page = some page ∧ _
    rw [mark_page]
    exact h.located pr hpr
  · exact h.blocks
  · have hother : ∀ u, u ≠ t → (s.pc u).Ok (Function.update s.roots r ((s.roots r).mark j)) := by
      intro u _
      apply ok_roots (h.threads u)
      intro q hq
      rwa [mark_page]
    exact threads_goto _ t hother ⟨hthreads.1, hthreads.2⟩

theorem Inv.takePage (h : s.Inv v) (hbusy : s.Busy v) (hn : n < 256) (hpc : s.pc t = .hasPage sz k a) :
    ∃ s' v', s.takePage t sz k a = .ok s' ∧ s'.Inv v' ∧ s'.Busy v' ∧ Allocates s s' t sz ∧ s'.runs = s.runs := by
  have hok := h.threads t
  rw [hpc] at hok
  have hseek := seekRef_ok (s := s) (l := List.range numPagerefpages)
    (fun r hr => h.marks.count r (List.mem_range.1 hr)) List.pairwise_lt_range
  unfold KernelHeap.takePage
  obtain hnone | ⟨r, j, hrj, hr, hj, hfree, hbefore⟩ := hseek
  · refine ⟨s.goto t (.noRef a), v, ?_, ?_, hbusy, .inr ⟨rfl, _, rfl, .inr ⟨a, rfl⟩⟩, rfl⟩
    · rw [hnone]
      rfl
    · exact h.goto hpc rfl rfl rfl rfl trivial
  · rw [List.mem_range] at hr
    have hmark := h.mark hn hpc hr hj hfree
      fun r' hlt => hbefore r' (List.mem_range.2 (Nat.lt_trans hlt hr)) hlt
    rw [hrj]
    cases hpg : (s.roots r).page with
    | none =>
      refine ⟨_, v, ?_, hmark, hbusy, .inr ⟨rfl, _, rfl, .inl rfl⟩, rfl⟩
      simp only [bind, Except.bind, hpg]
      rfl
    | some pg =>
      have hpc' : (KernelHeap.goto { s with roots := Function.update s.roots r ((s.roots r).mark j) } t
          (.wantRefs sz k a r j)).pc t = .wantRefs sz k a r j := Function.update_self ..
      obtain ⟨s', v', hs', hinv, hbusy', hhands⟩ := hmark.addPage hbusy hpc' rfl rfl rfl rfl
        ((mark_page s.roots r j r).trans hpg) hok.1 hok.2
      have hhands : Hands s s' t sz := hhands.of_goto rfl rfl rfl
      refine ⟨s', v', ?_, hinv, hbusy', hhands.allocates, hhands.runs⟩
      rw [addPage_goto] at hs'
      simp only [bind, Except.bind, hpg]
      exact hs'

/-- A thread gives its second page to the root of its pageref. -/
theorem Inv.rootPage (h : s.Inv v) (hpc : s.pc t = .hasRefs sz k a r j va)
    (hnone : (s.roots r).page = none) :
    (KernelHeap.goto { s with roots := Function.update s.roots r { s.roots r with page := some va } } t
      (.retake sz k a r j)).Inv v := by
  have hok := h.threads t
  rw [hpc] at hok
  have hslot : s.slots v (.thread t) = some (r, j) := congrArg HeapPc.slot hpc
  have hspare : s.place v (.spare t) = some va := congrArg HeapPc.spare hpc
  have hrun := h.runs.single (.spare t) va trivial hspare
  obtain ⟨hr, -, -⟩ := h.slot_bounds hslot
  have hother : ∀ q, q ≠ r →
      Function.update s.roots r { s.roots r with page := some va } q = s.roots q :=
    fun q hq => Function.update_of_ne hq ..
  have hplaces : ∀ o, (KernelHeap.goto { s with
      roots := Function.update s.roots r { s.roots r with page := some va } } t
      (.retake sz k a r j)).place v o =
      if o = .spare t then none else if o = .refs r then some va else s.place v o := by
    intro o
    rw [place_goto]
    cases o with
    | refs q =>
      by_cases hq : q = r
      · subst hq
        simp [place, hr]
      · simp [place, hq]
    | thread u =>
      by_cases hu : u = t
      · subst hu
        simp [place, hpc, HeapPc.page]
      · simp [place, hu]
    | spare u => by_cases hu : u = t <;> simp [hu, HeapPc.spare, place]
    | given u =>
      by_cases hu : u = t
      · subst hu
        simp [place, hpc, HeapPc.given]
      · simp [place, hu]
    | page pr => simp [place]
    | big p => simp [place]
  have hmarks : ∀ q, (Function.update s.roots r { s.roots r with page := some va } q).marks =
        (s.roots q).marks ∧
      (Function.update s.roots r { s.roots r with page := some va } q).numinuse = (s.roots q).numinuse := by
    intro q
    by_cases hq : q = r
    · subst hq
      rw [Function.update_self]
      exact ⟨rfl, rfl⟩
    · rw [hother q hq]
      exact ⟨rfl, rfl⟩
  have hpages : ∀ q, (s.roots q).page ≠ none →
      (Function.update s.roots r { s.roots r with page := some va } q).page = (s.roots q).page := by
    intro q hq
    rw [hother q]
    intro he
    rw [he] at hq
    exact hq hnone
  constructor
  · exact h.pages
  · have hno : s.place v (.refs r) = none := (if_pos hr).trans hnone
    exact h.runs.move hspare hno (fun _ => hrun) hplaces
  · constructor
    · apply h.marks.owned.congr
      · intro o
        rw [slots_goto]
        split
        · subst o
          exact hslot.symm
        · rfl
      · rintro ⟨q, i⟩
        show _ ∧ i ∈ (Function.update s.roots r { s.roots r with page := some va } q).marks ↔ _
        rw [(hmarks q).1]
    · intro q hq
      show (Function.update s.roots r { s.roots r with page := some va } q).numinuse =
        (Function.update s.roots r { s.roots r with page := some va } q).marks.card
      rw [(hmarks q).1, (hmarks q).2]
      exact h.marks.count q hq
    · intro q q' hlt hq' hpage
      show (Function.update s.roots r { s.roots r with page := some va } q').numinuse = 0
      rw [(hmarks q').2]
      apply h.marks.order q q' hlt hq'
      by_contra hne
      exact hne ((hpages q hne).symm.trans hpage)
  · intro pr hpr
    obtain ⟨page, hpage, hloc⟩ := h.located pr hpr
    refine ⟨page, ?_, hloc⟩
    exact (hpages _ (by rw [hpage]; exact Option.some_ne_none page)).trans hpage
  · exact h.blocks
  · have hthreads : ∀ u, u ≠ t →
        (s.pc u).Ok (Function.update s.roots r { s.roots r with page := some va }) := by
      intro u _
      apply ok_roots (h.threads u)
      intro q hq
      rwa [hpages q hq]
    refine threads_goto _ t hthreads ⟨hok.1, hok.2, ?_⟩
    show (Function.update s.roots r { s.roots r with page := some va } r).page ≠ none
    rw [Function.update_self]
    exact Option.some_ne_none va

theorem Inv.takeRefs (h : s.Inv v) (hbusy : s.Busy v) (hpc : s.pc t = .hasRefs sz k a r j va) :
    ∃ s' v', s.takeRefs t sz k a r j va = .ok s' ∧ s'.Inv v' ∧ s'.Busy v' ∧ Allocates s s' t sz ∧
      s'.runs = s.runs := by
  have hok := h.threads t
  rw [hpc] at hok
  have hspare : s.place v (.spare t) = some va := congrArg HeapPc.spare hpc
  obtain ⟨halign, -, -⟩ := h.runs.bounds _ _ (h.runs.single (.spare t) va trivial hspare)
  have hassert : (va % pageSize == 0) = true := by
    rw [halign]
    rfl
  unfold KernelHeap.takeRefs
  simp only [kassert, hassert, if_true, bind, Except.bind]
  cases hpg : (s.roots r).page with
  | some pg =>
    refine ⟨s.goto t (.dropRefs sz k a r j va), v, rfl, ?_, hbusy, .inr ⟨rfl, _, rfl, .inl rfl⟩, rfl⟩
    refine h.goto hpc rfl rfl rfl rfl ⟨hok.1, hok.2, ?_⟩
    rw [hpg]
    exact Option.some_ne_none pg
  | none =>
    have hpc' : (KernelHeap.goto { s with
        roots := Function.update s.roots r { s.roots r with page := some va } } t
        (.retake sz k a r j)).pc t = .retake sz k a r j := Function.update_self ..
    have hpage : (Function.update s.roots r { s.roots r with page := some va } r).page = some va := by
      rw [Function.update_self]
    obtain ⟨s', v', hs', hinv, hbusy', hhands⟩ := (h.rootPage hpc hpg).addPage hbusy hpc' rfl rfl rfl rfl hpage
      hok.1 hok.2
    have hhands : Hands s s' t sz := hhands.of_goto rfl rfl rfl
    rw [addPage_goto] at hs'
    exact ⟨s', v', hs', hinv, hbusy', hhands.allocates, hhands.runs⟩

theorem Inv.retakeRefs (h : s.Inv v) (hbusy : s.Busy v) (hpc : s.pc t = .retake sz k a r j) :
    ∃ s' v', s.retakeRefs t sz k a r j = .ok s' ∧ s'.Inv v' ∧ s'.Busy v' ∧ Allocates s s' t sz ∧
      s'.runs = s.runs := by
  have hok := h.threads t
  rw [hpc] at hok
  unfold KernelHeap.retakeRefs
  cases hpg : (s.roots r).page with
  | none => exact absurd hpg hok.2.2
  | some pg =>
    obtain ⟨s', v', hs', hinv, hbusy', hhands⟩ := h.addPage hbusy hpc rfl rfl rfl rfl hpg hok.1 hok.2.1
    exact ⟨s', v', hs', hinv, hbusy', hhands.allocates, hhands.runs⟩

theorem refIndex_self (hj : j < 256) (hpg : pg + pageSize < 4294967296) : refIndex (refAddr pg j) pg = j := by
  unfold pageSize at hpg
  unfold refIndex refAddr u32Sub toInt32
  have hsub : (pg + 16 * j + 4294967296 - pg % 4294967296) % 4294967296 = 16 * j := by omega
  rw [hsub, if_pos (by omega)]
  omega

theorem refIndex_far (hp : p < 4294967296) (hpg : pg + pageSize < 4294967296)
    (hout : p < pg ∨ pg + pageSize ≤ p) : 256 ≤ refIndex p pg := by
  unfold pageSize at hout hpg
  unfold refIndex toInt32
  have hlt : 4096 ≤ u32Sub p pg ∧ u32Sub p pg < 4294967296 := by
    unfold u32Sub
    omega
  split
  · omega
  · omega

theorem freepageref_skip (hskip : ∀ r ∈ A, ∃ pg, (s.roots r).page = some pg ∧ 256 ≤ refIndex p pg) :
    s.freepageref p (A ++ B) = s.freepageref p B := by
  induction A with
  | nil => rfl
  | cons r A ih =>
    obtain ⟨pg, hpg, hfar⟩ := hskip r List.mem_cons_self
    have hnot : ¬ refIndex p pg < npagerefsPerPage := by
      unfold npagerefsPerPage
      omega
    rw [List.cons_append, freepageref, hpg]
    dsimp only
    rw [if_neg hnot]
    exact ih fun q hq => hskip q (List.mem_cons_of_mem r hq)

/-- `freepageref` clears the mark of a pageref of the heap. -/
theorem Inv.freepageref (h : s.Inv v) (hpr : pr ∈ v.all) :
    s.freepageref pr (List.range numPagerefpages) =
      .ok (Function.update s.roots (v.slot pr).1 ((s.roots (v.slot pr).1).unmark (v.slot pr).2)) := by
  obtain ⟨hr, hj, hmarked⟩ := h.slot_bounds (r := (v.slot pr).1) (j := (v.slot pr).2) (slots_page hpr)
  obtain ⟨pg, hpg, hloc⟩ := h.located pr hpr
  generalize (v.slot pr).1 = r at *
  generalize (v.slot pr).2 = j at *
  obtain ⟨hplace, hrun⟩ := h.rootRun hr hpg
  obtain ⟨-, -, htop⟩ := h.runs.bounds _ _ hrun
  rw [Nat.one_mul] at htop
  have hpos : 0 < (s.roots r).numinuse := by
    rw [h.marks.count r hr, Finset.card_pos]
    exact ⟨j, KheapRoot.mem_marks.2 ⟨hj, hmarked⟩⟩
  have hindex : refIndex pr pg = j := by
    rw [hloc]
    exact refIndex_self hj htop
  have hsplit : List.range numPagerefpages = List.range r ++ r :: List.range' (r + 1) (numPagerefpages - r - 1) := by
    have hlen : numPagerefpages = r + (numPagerefpages - r - 1 + 1) := by omega
    conv => lhs; rw [hlen]
    rw [List.range_eq_range', List.range'_append_1.symm, Nat.zero_add, List.range'_succ, List.range_eq_range']
  rw [hsplit, freepageref_skip]
  · have h1 : decide (refIndex pr pg < npagerefsPerPage) = true := by
      rw [hindex]
      exact decide_eq_true hj
    have h2 : decide (0 < (s.roots r).numinuse) = true := decide_eq_true hpos
    rw [KernelHeap.freepageref, hpg]
    dsimp only
    rw [if_pos (of_decide_eq_true h1), hindex, hmarked, h2]
    rfl
  · intro q hq
    rw [List.mem_range] at hq
    cases hq' : (s.roots q).page with
    | none =>
      have hzero := h.marks.order q r hq hr hq'
      omega
    | some pg' =>
      obtain ⟨hplace', hrun'⟩ := h.rootRun (Nat.lt_trans hq hr) hq'
      obtain ⟨-, -, htop'⟩ := h.runs.bounds _ _ hrun'
      have hne : pg ≠ pg' := by
        apply h.runs.owned.ne hplace hplace'
        intro he
        cases he
        omega
      have hap := h.runs.apart _ _ _ _ hrun hrun' hne
      refine ⟨pg', rfl, ?_⟩
      rw [hloc]
      rw [Nat.one_mul] at htop' hap
      unfold refAddr
      unfold npagerefsPerPage at hj
      have hpage : 16 * j < pageSize := by
        unfold pageSize
        omega
      apply refIndex_far
      · omega
      · exact htop'
      · omega

end KernelHeap
end Clape
