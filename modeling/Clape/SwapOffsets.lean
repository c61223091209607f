import Clape.Menu
import Clape.InFlightStores

namespace Clape
set_option autoImplicit true

namespace SwapFile

/-- Every cell is on the free list. -/
def AllFree (w : SwapFile) : Prop :=
  ∃ F, Chain w.lists.next (w.lists.head .free) F ∧ ∀ c < w.size, c ∈ F

/-- Each cell has a page of the swap file of its own. -/
structure Slots (w : SwapFile) : Prop where
  slot : c < w.size → ∃ k, k < w.size ∧ w.offset c = k * pageSize
  apart : c < w.size → d < w.size → w.offset c = w.offset d → c = d

theorem Slots.congr {w w' : SwapFile} (h : w.Slots) (ho : w'.offset = w.offset)
    (hs : w'.size = w.size) : w'.Slots := by
  constructor
  · intro c hc
    rw [ho, hs]
    exact h.slot (hs ▸ hc)
  · intro c d hc hd
    rw [ho]
    exact h.apart (hs ▸ hc) (hs ▸ hd)

/-- The walk along a list that is long enough numbers its cells in order. -/
theorem renumber_ok {w : SwapFile} {F : List Nat} (h : Chain w.lists.next e F) (hn : F.Nodup)
    (i : Nat) : ∃ o, w.renumber F.length i e = .ok { w with offset := o } ∧
      (∀ k (hk : k < F.length), o F[k] = (i + k) * pageSize) ∧
      ∀ c, c ∉ F → o c = w.offset c := by
  induction F generalizing w e i with
  | nil => exact ⟨w.offset, rfl, fun k hk => absurd hk (Nat.not_lt_zero k), fun c _ => rfl⟩
  | cons c F ih =>
    obtain ⟨rfl, hF⟩ := h
    rw [List.nodup_cons] at hn
    have hF' : Chain { w with offset := Function.update w.offset c (i * pageSize) }.lists.next
        (w.lists.next c) F := hF
    obtain ⟨o, ho, hin, hout⟩ := ih hF' hn.2 (i + 1)
    refine ⟨o, ho, ?_, ?_⟩
    · intro k hk
      cases k with
      | zero =>
        rw [List.getElem_cons_zero, hout c hn.1]
        exact Function.update_self ..
      | succ k =>
        rw [List.getElem_cons_succ, hin k (Nat.lt_of_succ_lt_succ hk), Nat.add_right_comm]
        rfl
    · intro d hd
      rw [List.mem_cons, not_or] at hd
      rw [hout d hd.2]
      exact Function.update_of_ne hd.1 ..

theorem renumber_null {w : SwapFile} {F : List Nat} (h : Chain w.lists.next e F)
    (hn : F.length < n) (i : Nat) : w.renumber n i e = .error (.nullCell .reorderSwapfile) := by
  induction F generalizing w e i n with
  | nil =>
    cases h
    obtain ⟨k, rfl⟩ := Nat.exists_eq_succ_of_ne_zero (Nat.ne_of_gt hn)
    rfl
  | cons c F ih =>
    obtain ⟨rfl, hF⟩ := h
    obtain ⟨k, rfl⟩ := Nat.exists_eq_succ_of_ne_zero (Nat.ne_of_gt (Nat.zero_lt_of_lt hn))
    exact ih (w := { w with offset := Function.update w.offset c (i * pageSize) }) hF
      (Nat.lt_of_succ_lt_succ hn) (i + 1)

end SwapFile

namespace Sys.Settled
variable {s u : Sys}

/-- All cells are free exactly when the free list is as long as the swap file. -/
theorem allFree_iff (h : s.Settled L False) : s.swap.AllFree ↔ (L .free).length = s.swap.size := by
  have hnd : (L .free).Nodup := h.kept.rep.nodup .free
  have hsub : L .free ⊆ List.range s.swap.size := by
    intro c hc
    exact List.mem_range.2 (h.kept.bound hc)
  have hle : (L .free).length ≤ s.swap.size := by
    simpa using (hnd.subperm hsub).length_le
  constructor
  · intro hall
    obtain ⟨F, hF, hmem⟩ := hall
    rw [← h.free_chain.unique hF] at hmem
    have hsub' : List.range s.swap.size ⊆ L .free := by
      intro c hc
      exact hmem c (List.mem_range.1 hc)
    have := (List.nodup_range.subperm hsub').length_le
    rw [List.length_range] at this
    omega
  · intro hlen
    refine ⟨L .free, h.free_chain, ?_⟩
    intro c hc
    have hperm : (L .free).Perm (List.range s.swap.size) := by
      apply (hnd.subperm hsub).perm_of_length_le
      rw [List.length_range, hlen]
    exact hperm.mem_iff.2 (List.mem_range.2 hc)

/-- `reorder_swapfile` runs into the end of the free list unless every cell is free. -/
theorem reorder_null (h : s.Settled L False) (hall : ¬ s.swap.AllFree) :
    s.swap.reorderSwapfile = .error (.nullCell .reorderSwapfile) := by
  apply SwapFile.renumber_null h.free_chain
  have hle : (L .free).length ≤ s.swap.size := h.kept.rep.length_le fun c hc => h.kept.bound hc
  have hne := mt h.allFree_iff.2 hall
  omega

theorem reorder_ok (h : s.Settled L False) (hall : s.swap.AllFree) :
    ∃ o, s.swap.reorderSwapfile = .ok { s.swap with offset := o } ∧
      SwapFile.Slots { s.swap with offset := o } := by
  have hlen := h.allFree_iff.1 hall
  obtain ⟨o, ho, hin, -⟩ := SwapFile.renumber_ok h.free_chain (h.kept.rep.nodup .free) 0
  rw [hlen] at ho
  -- each cell is at its place in the free list
  have hat : ∀ c < s.swap.size, ∃ k, ∃ hk : k < (L .free).length, (L .free)[k] = c ∧
      o c = k * pageSize := by
    intro c hc
    obtain ⟨F, hF, hmem⟩ := hall
    rw [← h.free_chain.unique hF] at hmem
    obtain ⟨k, hk, hkc⟩ := List.mem_iff_getElem.1 (hmem c hc)
    refine ⟨k, hk, hkc, ?_⟩
    rw [← hkc, hin k hk, Nat.zero_add]
  refine ⟨o, ho, ⟨?_, ?_⟩⟩
  · intro c hc
    obtain ⟨k, hk, -, hoff⟩ := hat c hc
    exact ⟨k, hlen ▸ hk, hoff⟩
  · intro c d hc hd hcd
    obtain ⟨k, hk, rfl, hoff⟩ := hat c hc
    obtain ⟨l, hl, rfl, hoff'⟩ := hat d hd
    have hkl : k * pageSize = l * pageSize := hoff.symm.trans (hcd.trans hoff')
    have : k = l := Nat.eq_of_mul_eq_mul_right (by decide) hkl
    subst this
    rfl

end Sys.Settled

/-- Stored pages go to one list, and programs are collected when every cell is free. -/
def Sys.Tidy (s : Sys) : MenuAction → Prop
  | .vm a => s.Linked a
  | .collect _ => s.swap.AllFree

theorem Sys.Settled.replace {s : Sys} (h : s.Settled L False) (o : Nat → Nat) (st : Stats) :
    Sys.Settled { s with swap := { s.swap with offset := o }, stats := st } L False :=
  ⟨h.good, h.filing, h.kin, h.kept⟩

/-- One step keeps the places of the cells apart, and moves no cell that holds a page. -/
theorem Sys.Settled.menuStep {s u : Sys} (h : s.Settled L False) (hw : s.swap.Slots)
    (hs : MenuStepWhen Sys.Tidy s a u) :
    (∃ M, u.Settled M False) ∧ u.swap.Slots ∧ u.swap.size = s.swap.size ∧
      ∀ c < s.swap.size, c ∉ L .free → u.swap.offset c = s.swap.offset c := by
  obtain ⟨ha, hen, hu⟩ := hs
  cases a with
  | vm a =>
    have hm : Move s a u := SysStep.move ⟨hen, hu⟩
    obtain ⟨M, hM, -⟩ := h.step hm ha False.elim
    refine ⟨⟨M, hM⟩, hw.congr hm.offset.1 hm.offset.2, hm.offset.2, ?_⟩
    intro c _ _
    rw [hm.offset.1]
  | collect q =>
    obtain ⟨s₁, w, hm, hsw, hr, rfl⟩ := Sys.collect_ok hen hu
    obtain ⟨M, hM, -⟩ := h.step hm trivial False.elim
    obtain ⟨o, ho, hslots⟩ := h.reorder_ok ha
    rw [hr] at ho
    cases ho
    refine ⟨⟨M, ?_⟩, hslots, rfl, ?_⟩
    · have := hM.replace o .zero
      rw [hsw] at this
      exact this
    · intro c hc hfree
      obtain ⟨F, hF, hmem⟩ := ha
      rw [← h.free_chain.unique hF] at hmem
      exact (hfree (hmem c hc)).elim

theorem Sys.run_slots (h : Run (MenuStepWhen Sys.Tidy) (Sys.boot m) tr s) :
    (∃ L, s.Settled L False) ∧ s.swap.Slots := by
  apply h.invariant (P := fun s => (∃ L, s.Settled L False) ∧ s.swap.Slots)
  · obtain ⟨L, hL⟩ := Sys.boot_inOrder m
    refine ⟨⟨L, hL.toSettled.loosen⟩, ⟨?_, ?_⟩⟩
    · intro c hc
      exact ⟨c, hc, hL.offset c⟩
    · intro c d _ _ hcd
      rw [hL.offset c, hL.offset d] at hcd
      exact Nat.eq_of_mul_eq_mul_right (by decide) hcd
  · intro s a u hs hstep
    obtain ⟨⟨L, hL⟩, hw⟩ := hs
    obtain ⟨hM, hw', -⟩ := hL.menuStep hw hstep
    exact ⟨hM, hw'⟩

/-- In every run in which programs are collected when every cell is free: the offsets are
different pages of the swap file, a cell keeps its offset for as long as it is not free, and
`reorder_swapfile` leaves the free list exactly when some cell is not on it. -/
theorem swap_slots_apart (h : Run (MenuStepWhen Sys.Tidy) (Sys.boot m) tr s) :
    (∀ c < s.swap.size, ∃ k < s.swap.size, s.swap.offset c = k * pageSize) ∧
    (∀ c < s.swap.size, ∀ d < s.swap.size, s.swap.offset c = s.swap.offset d → c = d) ∧
    (∀ c < s.swap.size, ∀ tr' t, Run (MenuStepWhen fun s a => s.Tidy a ∧
        ∃ F, Chain s.swap.lists.next (s.swap.lists.head .free) F ∧ c ∉ F) s tr' t →
      t.swap.offset c = s.swap.offset c) ∧
    (s.swap.reorderSwapfile = .error (.nullCell .reorderSwapfile) ↔ ¬ s.swap.AllFree) ∧
    ∀ q, s.MenuEnabled (.collect q) → s.Tidy (.collect q) → ∃ u, s.menu (.collect q) = .ok u := by
  obtain ⟨⟨L, hL⟩, hw⟩ := Sys.run_slots h
  refine ⟨fun c hc => hw.slot hc, fun c hc d hd => hw.apart hc hd, ?_, ?_, ?_⟩
  · intro c hc tr' t ht
    have hinv := ht.invariant (P := fun t => (∃ L, t.Settled L False) ∧ t.swap.Slots ∧
      c < t.swap.size ∧ t.swap.offset c = s.swap.offset c) ⟨⟨L, hL⟩, hw, hc, rfl⟩ ?_
    · exact hinv.2.2.2
    · intro t a u ht hs
      obtain ⟨⟨L, hL⟩, hw, hc, hoff⟩ := ht
      obtain ⟨⟨ha, F, hF, hfree⟩, hen, hu⟩ := hs
      obtain ⟨hM, hw', hsize, hkeep⟩ := hL.menuStep hw ⟨ha, hen, hu⟩
      refine ⟨hM, hw', ?_, ?_⟩
      · rw [hsize]
        exact hc
      · rw [hkeep c hc (hL.free_chain.unique hF ▸ hfree), hoff]
  · constructor
    · intro hr hall
      obtain ⟨o, ho, -⟩ := hL.reorder_ok hall
      rw [hr] at ho
      cases ho
    · exact hL.reorder_null
  · intro q hen hall
    obtain ⟨o, ho, -⟩ := hL.reorder_ok hall
    have hmicro : s.menu (.collect q) = .ok { s with
        procs := Function.update s.procs q ⟨none, .none⟩
        swap := { s.swap with offset := o }
        stats := .zero } := by
      simp only [Sys.menu, Sys.collect, Sys.micro, bind, Except.bind, ho]
      rfl
    exact ⟨_, hmicro⟩

/-- A program that loads one page and exits is collected. -/
theorem swap_slots_apart_exit : ∃ tr s, Run (MenuStepWhen Sys.Tidy) (Sys.boot (.blank 1 4)) tr s ∧
    s.MenuEnabled (.collect 2) ∧ s.Tidy (.collect 2) ∧ ∃ u, s.menu (.collect 2) = .ok u := by
  obtain ⟨s, hr, hs⟩ := Sys.run_of_follow (C := Sys.Filed) (s := .boot (.blank 1 4))
    [.spawn 2, .dispatch 2, .exec 0 (programHeaders 0x400000 4096 0x10000000 4096),
      .fault .read 0x400000, .advance, .advance, .advance, .exit, .advance, .advance, .advance,
      .dispatch 1]
    (p := fun s => decide (s.MenuEnabled (.collect 2) ∧ s.swap.size = 4 ∧
      Chain s.swap.lists.next (s.swap.lists.head .free) [0, 1, 2, 3])) (by decide +kernel)
  obtain ⟨hen, hsize, hchain⟩ := of_decide_eq_true hs
  have hall : s.swap.AllFree := by
    refine ⟨_, hchain, ?_⟩
    intro c hc
    rw [hsize] at hc
    simp only [List.mem_cons, List.not_mem_nil, or_false]
    omega
  have hrun := hr.vm (D := Sys.Tidy) fun _ _ h => h.linked
  obtain ⟨-, -, -, -, hok⟩ := swap_slots_apart hrun
  exact ⟨_, s, hrun, hen, hall, hok 2 hen hall⟩

/-- The program has forked a child that still has a page in the swap file when the program
is collected, and `reorder_swapfile` leaves the free list. -/
theorem swap_slots_orphan : ∃ tr s,
    Run (MenuStepWhen fun _ _ => True) (Sys.boot (.blank 1 4)) tr s ∧ s.MenuEnabled (.collect 2) ∧
      s.menu (.collect 2) = .error (.nullCell .reorderSwapfile) := by
  obtain ⟨s, hr, hs⟩ := Sys.run_of_follow (C := fun _ _ => True) (s := .boot (.blank 1 4))
    [.spawn 2, .dispatch 2, .exec 0 (programHeaders 0x400000 4096 0x10000000 4096),
      .fault .read 0x400000, .advance, .advance, .advance, .fork 3, .advance, .advance, .advance,
      .advance, .advance, .advance, .advance, .advance, .exit, .advance, .advance, .advance,
      .dispatch 1]
    (p := fun s => decide (s.MenuEnabled (.collect 2)) && s.stopsMenu (.collect 2)
      (.nullCell .reorderSwapfile)) (by decide +kernel)
  have hs := Bool.and_eq_true_iff.1 hs
  exact ⟨_, s, hr.vm fun _ _ _ => trivial, of_decide_eq_true hs.1, Sys.menu_of_stops hs.2⟩

end Clape
