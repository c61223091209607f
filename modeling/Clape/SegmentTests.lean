import Clape.Segments
import Clape.Tlb

namespace Clape
set_option autoImplicit true

/-- The branch that `load_page` takes for a page that is not in the swap file. -/
def AddrSpace.pageSeg (as : AddrSpace) (v : Nat) : Option Segment :=
  if as.inText v then some .text
  else if as.inData v then some .data
  else if u32 (as.vbase2 + as.npages2 * pageSize) < v ∧ v < userStack then some .stack
  else none

theorem AddrSpace.loadPlan_pageSeg (as : AddrSpace) (v : Nat) :
    as.loadPlan v = match as.pageSeg v with
      | some .text => as.ph1.loadPlan as.vbase1 as.initialOffset1 true v
      | some .data => as.ph2.loadPlan as.vbase2 as.initialOffset2 false v
      | some .stack => .zero
      | none => .segv := by
  unfold loadPlan pageSeg
  split
  · rfl
  · split
    · rfl
    · split
      · rfl
      · rfl

def AddrSpace.segmentIsReadonly (as : AddrSpace) (v : Nat) : Nat :=
  if as.vbase1 ≤ v ∧ v ≤ u32 (as.npages1 * pageSize + as.vbase1) then 1 else 0

theorem AddrSpace.segmentIsReadonly_iff (as : AddrSpace) (v : Nat) :
    as.segmentIsReadonly v = 1 ↔ as.inText v = true := by
  unfold segmentIsReadonly inText
  rw [Nat.add_comm, Bool.and_eq_true, decide_eq_true_iff, decide_eq_true_iff]
  split
  · rename_i h
    exact ⟨fun _ => h, fun _ => rfl⟩
  · rename_i h
    exact ⟨fun h' => absurd h' (by decide), fun h' => absurd h' h⟩

/-- The entry that `tlb_insert` writes can be written through unless `segment_is_readonly`. -/
theorem tlbInsert_dirty (h : tlbInsert pt m as p v i = .ok (pt', m', r)) :
    ∃ k, m'.slots k = some ⟨v, i, as.segmentIsReadonly v ≠ 1⟩ := by
  have hd : (!as.inText v) = decide (as.segmentIsReadonly v ≠ 1) := by
    cases ht : as.inText v with
    | true => simp [as.segmentIsReadonly_iff, ht]
    | false => simp [as.segmentIsReadonly_iff, ht]
  unfold tlbInsert at h
  rw [hd] at h
  split at h
  · rename_i k hk
    cases h
    exact ⟨k, Function.update_self ..⟩
  · refine ⟨m.nextVictim, ?_⟩
    dsimp only at h
    split at h
    · obtain ⟨pt₁, -, h⟩ := bind_ok.1 h
      cases h
      exact Function.update_self ..
    · cases h
      exact Function.update_self ..

namespace AddrSpace
variable {as : AddrSpace}

theorem inText_iff : as.inText v = true ↔
    as.vbase1 ≤ v ∧ v ≤ u32 (as.vbase1 + as.npages1 * pageSize) := by
  unfold inText
  rw [Bool.and_eq_true, decide_eq_true_iff, decide_eq_true_iff]

theorem inData_iff : as.inData v = true ↔
    as.vbase2 ≤ v ∧ v ≤ u32 (as.vbase2 + as.npages2 * pageSize) := by
  unfold inData
  rw [Bool.and_eq_true, decide_eq_true_iff, decide_eq_true_iff]

theorem inStack_iff (hv : v < userStack) :
    as.inStack v = true ↔ u32 (as.vbase2 + as.npages2 * pageSize) < v := by
  unfold inStack
  rw [Bool.and_eq_true, decide_eq_true_iff, decide_eq_true_iff]
  exact ⟨And.right, fun h => ⟨Nat.le_of_lt hv, h⟩⟩

/-- Below the top of user space the test of `load_page` for the stack is that of `load_swap`. -/
theorem pageSeg_eq (hv : v < userStack) :
    as.pageSeg v = if as.inText v then some .text else if as.inData v then some .data
      else if as.inStack v then some .stack else none := by
  unfold pageSeg
  simp only [inStack_iff hv, hv, and_true]

/-- The branch that `load_page` takes, `none` for that of the segmentation fault. It calls
`load_swap` first, which panics when no test accepts the address. -/
def loadPageSeg (as : AddrSpace) (v : Nat) : Except Fault (Option Segment) :=
  match as.loadSeg v with
  | none => .error (.panic .loadSwap)
  | some _ => .ok (as.pageSeg v)

/-- The four functions classify an address alike: `store_swap` links a cell for it into one list,
and that is the list that `load_swap` searches; `load_page` takes the branch of the same name, or
that of the segmentation fault when there is no list; and `segment_is_readonly` accepts what
`load_page` takes for text. -/
structure Classified (as : AddrSpace) (v : Nat) : Prop where
  unique : ∃ sg, as.storeSegs v = [sg] ∧ as.loadSeg v = some sg
  built : ∀ sg, as.loadPageSeg v = .ok (some sg) ↔ as.loadSeg v = some sg
  segv : as.loadPageSeg v = .ok none ↔ as.loadSeg v = none
  readonly : as.segmentIsReadonly v = 1 ↔ as.loadPageSeg v = .ok (some .text)

theorem pageSeg_text : as.pageSeg v = some .text ↔ as.inText v = true := by
  unfold pageSeg
  split
  · rename_i ht
    exact ⟨fun _ => ht, fun _ => rfl⟩
  · rename_i ht
    refine ⟨?_, fun h => absurd h ht⟩
    intro h
    split at h
    · cases h
    · split at h <;> cases h

theorem storeSegs_eq_nil (hv : v < userStack) : as.storeSegs v = [] ↔ as.pageSeg v = none := by
  rw [pageSeg_eq hv]
  unfold storeSegs
  cases as.inText v <;> cases as.inData v <;> cases as.inStack v <;> simp

/-- Whatever `load_swap` searches a list for, `load_page` builds from some segment: its branch of
the segmentation fault is never reached. -/
theorem loadPageSeg_ne_segv (hv : v < userStack) : as.loadPageSeg v ≠ .ok none := by
  unfold loadPageSeg loadSeg
  split
  · exact nofun
  · rename_i sg hs
    intro h
    rw [Except.ok.injEq, ← storeSegs_eq_nil hv] at h
    rw [h] at hs
    cases hs

/-- The classifiers agree on an address exactly when one of the three tests accepts it, and no
second one. -/
theorem classified_iff (hv : v < userStack) :
    as.Classified v ↔ ∃ sg, as.storeSegs v = [sg] := by
  constructor
  · intro h
    obtain ⟨sg, hsg, -⟩ := h.unique
    exact ⟨sg, hsg⟩
  · intro h
    obtain ⟨sg, hsg⟩ := h
    have hpage : as.pageSeg v = some sg := by
      rw [pageSeg_eq hv]
      unfold storeSegs at hsg
      cases ht : as.inText v <;> cases hd : as.inData v <;> cases hs : as.inStack v <;>
        simp_all
    have hload : as.loadSeg v = some sg := by
      unfold loadSeg
      rw [hsg]
      rfl
    have hbuilt : as.loadPageSeg v = .ok (some sg) := by
      unfold loadPageSeg
      rw [hload, hpage]
    refine ⟨⟨sg, hsg, hload⟩, ?_, ?_, ?_⟩
    · intro sg'
      rw [hbuilt, hload, Except.ok.injEq]
    · rw [hload]
      exact iff_of_false (loadPageSeg_ne_segv hv) nofun
    · rw [hbuilt, segmentIsReadonly_iff, Except.ok.injEq, ← hpage, pageSeg_text]

theorem not_classified (h : (as.storeSegs v).length ≠ 1) : ¬ as.Classified v := by
  intro hC
  obtain ⟨sg, hsg, -⟩ := hC.unique
  exact h (congrArg List.length hsg)

/-- The classifiers agree on a page of the text range exactly when it lies below the data segment
and not above its end, and on any other page exactly when it lies in the data range or above it. -/
theorem classifiers_agree (hv : UserAddr v) :
    as.Classified v ↔
      if as.inText v then v < as.vbase2 ∧ v ≤ u32 (as.vbase2 + as.npages2 * pageSize)
      else as.vbase2 ≤ v ∨ u32 (as.vbase2 + as.npages2 * pageSize) < v := by
  have hdata : as.inData v = true ↔ _ := inData_iff
  have hstack : as.inStack v = true ↔ _ := inStack_iff hv.2
  rw [classified_iff hv.2]
  unfold storeSegs
  cases as.inText v <;> cases hd : as.inData v <;> cases hs : as.inStack v <;>
    simp only [hd, hs, Bool.false_eq_true, false_iff, true_iff] at hdata hstack <;>
    simp <;> omega

end AddrSpace

/-- The pages of text, data and stack of a program whose data lies far above its text. -/
theorem classifiers_agree_text :
    ∃ as, loadElf 0 (programHeaders 0x400000 4096 0x10000000 4096) = some as ∧
      (as.loadPageSeg 0x400000 = .ok (some .text) ∧ as.Classified 0x400000) ∧
      (as.loadPageSeg 0x10000000 = .ok (some .data) ∧ as.Classified 0x10000000) ∧
      as.loadPageSeg 0x7ffff000 = .ok (some .stack) ∧ as.Classified 0x7ffff000 := by
  have agree : ∀ as : AddrSpace, ∀ v sg, UserAddr v → as.loadSeg v = some sg →
      (if as.inText v then v < as.vbase2 ∧ v ≤ u32 (as.vbase2 + as.npages2 * pageSize)
        else as.vbase2 ≤ v ∨ u32 (as.vbase2 + as.npages2 * pageSize) < v) →
      as.loadPageSeg v = .ok (some sg) ∧ as.Classified v := by
    intro as v sg hv hseg h
    have hC := (AddrSpace.classifiers_agree hv).2 h
    exact ⟨(hC.built sg).2 hseg, hC⟩
  exact ⟨_, rfl, agree _ _ _ ⟨rfl, by decide⟩ (by decide) (by decide),
    agree _ _ _ ⟨rfl, by decide⟩ (by decide) (by decide),
    agree _ _ _ ⟨rfl, by decide⟩ (by decide) (by decide)⟩

/-- With the data segment right after the text segment, the first page of data is taken for text
by `load_page` and for data by `load_swap`. In the gap between two segments `load_page` does not
get as far as the segmentation fault. -/
theorem adjacent_segments_misclassified :
    (∃ as, loadElf 0 (programHeaders 0x400000 4096 0x401000 4096) = some as ∧ UserAddr 0x401000 ∧
      as.storeSegs 0x401000 = [.text, .data] ∧ as.loadSeg 0x401000 = some .data ∧
      as.loadPageSeg 0x401000 = .ok (some .text) ∧ as.segmentIsReadonly 0x401000 = 1 ∧
      ¬ as.Classified 0x401000) ∧
    ∃ as, loadElf 0 (programHeaders 0x400000 4096 0x10000000 4096) = some as ∧ UserAddr 0x1000 ∧
      as.storeSegs 0x1000 = [] ∧ as.loadSeg 0x1000 = none ∧
      as.loadPageSeg 0x1000 = .error (.panic .loadSwap) ∧ ¬ as.Classified 0x1000 := by
  constructor
  · refine ⟨_, rfl, ⟨by decide, by decide⟩, by decide, by decide, by decide, by decide, ?_⟩
    exact AddrSpace.not_classified (by decide)
  · refine ⟨_, rfl, ⟨by decide, by decide⟩, by decide, by decide, rfl, ?_⟩
    exact AddrSpace.not_classified (by decide)

/-- The page at `v` has an address of the region that starts at `vaddr`. -/
def Meets (v vaddr memsize : Nat) : Prop :=
  ∃ a, v ≤ a ∧ a < v + pageSize ∧ vaddr ≤ a ∧ a < vaddr + memsize

theorem meets_iff (hm : 0 < memsize) :
    Meets v vaddr memsize ↔ v < vaddr + memsize ∧ vaddr < v + pageSize := by
  constructor
  · intro h
    obtain ⟨a, h1, h2, h3, h4⟩ := h
    omega
  · intro h
    refine ⟨max v vaddr, Nat.le_max_left .., ?_, Nat.le_max_right .., ?_⟩
    · exact Nat.max_lt.2 ⟨by unfold pageSize; omega, h.2⟩
    · exact Nat.max_lt.2 ⟨h.1, by omega⟩

/-- The pages past a region that the range tests accept with it: one for the inclusive bound, and
often one more for the unaligned start that is counted twice. -/
def PastEnd (vaddr memsize v : Nat) : Prop :=
  vaddr + memsize ≤ v ∧ v < vaddr + memsize + vaddr % pageSize + pageSize

/-- The number of pages that `as_define_region` gives a region. -/
def regionPages (vaddr memsize : Nat) : Nat :=
  let size := u32 (u32 (memsize + vaddr % pageSize) + vaddr % pageSize + pageSize - 1)
  (size - size % pageSize) / pageSize

theorem regionTest_iff (hv : v % pageSize = 0) (hm : 0 < memsize) (ht : vaddr + memsize ≤ userStack) :
    (vaddr - vaddr % pageSize ≤ v ∧
      v ≤ u32 (vaddr - vaddr % pageSize + regionPages vaddr memsize * pageSize)) ↔
      Meets v vaddr memsize ∨ PastEnd vaddr memsize v := by
  rw [meets_iff hm]
  unfold PastEnd regionPages u32
  unfold pageSize userStack at *
  dsimp only
  omega

theorem asDefineRegion_first (h : asDefineRegion as vaddr memsize = some as') (h1 : as.vbase1 = 0) :
    as'.vbase1 = vaddr - vaddr % pageSize ∧ as'.npages1 = regionPages vaddr memsize := by
  unfold asDefineRegion at h
  rw [if_pos h1] at h
  cases h
  exact ⟨rfl, rfl⟩

theorem asDefineRegion_second (h : asDefineRegion as vaddr memsize = some as') (h1 : as.vbase1 ≠ 0) :
    as'.vbase2 = vaddr - vaddr % pageSize ∧ as'.npages2 = regionPages vaddr memsize := by
  unfold asDefineRegion at h
  rw [if_neg h1] at h
  split at h
  · cases h
    exact ⟨rfl, rfl⟩
  · cases h

theorem AddrSpace.pageSeg_data {as : AddrSpace} :
    as.pageSeg v = some .data ↔ as.inText v = false ∧ as.inData v = true := by
  unfold pageSeg
  cases as.inText v with
  | true => exact ⟨nofun, nofun⟩
  | false =>
    cases as.inData v with
    | true => exact ⟨fun _ => ⟨rfl, rfl⟩, fun _ => rfl⟩
    | false =>
      refine ⟨?_, nofun⟩
      intro h
      simp only [Bool.false_eq_true, if_false] at h
      split at h <;> cases h

/-- A region is taken for the pages that it meets, except for the pages past its end; the pages of
a second region must also not be taken for text. -/
theorem region_extent (hv : v % pageSize = 0) (hm : 0 < memsize)
    (ht : vaddr + memsize ≤ userStack) (h : asDefineRegion as vaddr memsize = some as') :
    (as.vbase1 = 0 → ((as'.pageSeg v = some .text ↔ Meets v vaddr memsize) ∧
      (as'.segmentIsReadonly v = 1 ↔ Meets v vaddr memsize) ↔ ¬ PastEnd vaddr memsize v)) ∧
    (as.vbase1 ≠ 0 → ((as'.pageSeg v = some .data ↔ Meets v vaddr memsize) ↔
      if as'.inText v then ¬ Meets v vaddr memsize else ¬ PastEnd vaddr memsize v)) := by
  have htest := regionTest_iff hv hm ht
  have hapart : PastEnd vaddr memsize v → ¬ Meets v vaddr memsize := by
    intro hp
    rw [meets_iff hm]
    unfold PastEnd at hp
    omega
  have hiff : (Meets v vaddr memsize ∨ PastEnd vaddr memsize v ↔ Meets v vaddr memsize) ↔
      ¬ PastEnd vaddr memsize v := by
    constructor
    · intro hi hp
      exact hapart hp (hi.1 (.inr hp))
    · intro hp
      exact or_iff_left hp
  constructor
  · intro h1
    obtain ⟨hb, hn⟩ := asDefineRegion_first h h1
    rw [AddrSpace.segmentIsReadonly_iff, AddrSpace.pageSeg_text, AddrSpace.inText_iff, hb, hn,
      htest, and_self, hiff]
  · intro h1
    obtain ⟨hb, hn⟩ := asDefineRegion_second h h1
    rw [AddrSpace.pageSeg_data]
    cases as'.inText v with
    | true =>
      rw [if_pos rfl]
      exact ⟨fun hi hmeet => Bool.noConfusion (hi.2 hmeet).1, fun hno => iff_of_false nofun hno⟩
    | false =>
      rw [if_neg Bool.false_ne_true, AddrSpace.inData_iff, hb, hn, htest, ← hiff]
      exact iff_congr (and_iff_right rfl) Iff.rfl

/-- The last page of a region of one page and a half, at an unaligned address. -/
theorem region_extent_last : ∃ as, asDefineRegion (asCreate 0) 0x400100 6000 = some as ∧
    Meets 0x401000 0x400100 6000 ∧ as.pageSeg 0x401000 = some .text := by
  have hmeet : Meets 0x401000 0x400100 6000 := (meets_iff (by decide)).2 (by decide)
  have hdef : asDefineRegion (asCreate 0) 0x400100 6000 = some _ := rfl
  have h := (region_extent (v := 0x401000) (by decide) (by decide) (by decide) hdef).1 rfl
  refine ⟨_, rfl, hmeet, ?_⟩
  exact (h.2 (by unfold PastEnd pageSize; decide)).1.2 hmeet

/-- A text segment of one page is taken to have two. -/
theorem region_extent_past : ∃ as, asDefineRegion (asCreate 0) 0x400000 4096 = some as ∧
    ¬ Meets 0x401000 0x400000 4096 ∧ as.pageSeg 0x401000 = some .text ∧
    as.segmentIsReadonly 0x401000 = 1 := by
  refine ⟨_, rfl, ?_, by decide, by decide⟩
  rw [meets_iff (by decide)]
  decide

end Clape
