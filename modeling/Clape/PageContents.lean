import Clape.LoadElf
import Clape.System

namespace Clape
set_option autoImplicit true

/-- `load_page` for a page that is not in the swap file: the memory that it leaves, with the frame
at `paddr`. The branch of the segmentation fault does not return. -/
def LoadPlan.build (f : File) (m : Nat → UInt8) (paddr : Nat) : LoadPlan → Option (Nat → UInt8)
  | .zero => some (bzero m paddr)
  | .read bz offset dst len =>
    some (f.readInto (if bz then bzero m paddr else m) (paddr + dst) offset len)
  | .segv => none

/-- `load_page`, with the contents of the cell that `load_swap` finds for the page. -/
def AddrSpace.loadPage (as : AddrSpace) (f : File) (cell : Option (Nat → UInt8)) (v paddr : Nat)
    (m : Nat → UInt8) : Option (Nat → UInt8) :=
  match cell with
  | some bytes => some (writeAt m paddr pageSize bytes)
  | none => (as.loadPlan v).build f m paddr

/-- The two steps of a thread that builds a page, before and after the read of the executable,
make the memory of `build`. -/
theorem loadElfPage_build {s t : Sys} (h : s.loadElfPage as v i = .ok t) (hseg : as.loadPlan v ≠ .segv) :
    (as.loadPlan v).build f s.mem (i * pageSize) = some (match as.loadPlan v with
      | .read _ offset dst len => f.readInto t.mem (i * pageSize + dst) offset len
      | _ => t.mem) := by
  unfold Sys.loadElfPage at h
  cases hp : as.loadPlan v with
  | zero =>
    rw [hp] at h
    cases h
    rfl
  | read bz offset dst len =>
    rw [hp] at h
    cases h
    rfl
  | segv => exact absurd hp hseg

theorem writeAt_in (h : a ≤ x ∧ x < a + k) : writeAt m a k f x = f (x - a) := if_pos h

theorem writeAt_out (h : ¬ (a ≤ x ∧ x < a + k)) : writeAt m a k f x = m x := if_neg h

theorem bzero_in (h : a ≤ x ∧ x < a + pageSize) : bzero m a x = 0 := if_pos h

theorem bzero_out (h : ¬ (a ≤ x ∧ x < a + pageSize)) : bzero m a x = m x := if_neg h

/-- `load_page` reads a whole page of the file, and does not zero the frame before. -/
def ElfPhdr.FullPage (ph : ElfPhdr) (base initialOffset v : Nat) : Prop :=
  ¬ (initialOffset ≠ 0 ∧ u32Sub v base = 0) ∧
    0 ≤ toInt32 (ph.pFilesz + initialOffset) - toInt32 (u32Sub v base) ∧
    pageSize ≤ u32Sub (u32 (ph.pFilesz + initialOffset)) (u32Sub v base)

/-- The page is read whole from a file that ends before it. -/
def ElfPhdr.ReadsPast (ph : ElfPhdr) (base initialOffset : Nat) (f : File) (v : Nat) : Prop :=
  ph.FullPage base initialOffset v ∧ f.size < u32 (ph.pOffset + u32Sub v base) + pageSize

theorem ElfPhdr.loadPlan_full {ph : ElfPhdr} (h : ph.FullPage base off v) (text : Bool) :
    ph.loadPlan base off text v = .read false (u32 (ph.pOffset + u32Sub v base)) 0 pageSize := by
  obtain ⟨h1, h2, h3⟩ := h
  unfold loadPlan
  dsimp only
  rw [if_neg h1, if_neg (Int.not_lt.2 h2), if_neg (Nat.not_lt.2 h3)]

theorem ElfPhdr.loadPlan_not_full {ph : ElfPhdr} (h : ¬ ph.FullPage base off v) (text : Bool) :
    ph.loadPlan base off text v = .zero ∨
      ∃ offset dst len, ph.loadPlan base off text v = .read true offset dst len := by
  unfold loadPlan
  dsimp only
  split
  · exact .inr ⟨_, _, _, rfl⟩
  · rename_i h1
    split
    · exact .inl rfl
    · rename_i h2
      split
      · exact .inr ⟨_, _, _, rfl⟩
      · rename_i h3
        exact absurd ⟨h1, Int.not_lt.1 h2, Nat.not_lt.1 h3⟩ h

/-- The page is taken for text or data, and read whole from a file that ends before it. -/
def AddrSpace.ReadsPast (as : AddrSpace) (f : File) (v : Nat) : Prop :=
  as.pageSeg v = some .text ∧ as.ph1.ReadsPast as.vbase1 as.initialOffset1 f v ∨
    as.pageSeg v = some .data ∧ as.ph2.ReadsPast as.vbase2 as.initialOffset2 f v

/-- The plans that leave nothing of the frame as it was. -/
def LoadPlan.Covers (f : File) : LoadPlan → Prop
  | .zero => True
  | .read bz offset dst len => bz = true ∨ dst = 0 ∧ pageSize ≤ min len (f.size - offset)
  | .segv => True

theorem AddrSpace.covers_iff {as : AddrSpace} {f : File} :
    (as.loadPlan v).Covers f ↔ ¬ as.ReadsPast f v := by
  have hph : ∀ (ph : ElfPhdr) (base off : Nat) (text : Bool),
      (ph.loadPlan base off text v).Covers f ↔ ¬ ph.ReadsPast base off f v := by
    intro ph base off text
    by_cases hfull : ph.FullPage base off v
    · rw [ElfPhdr.loadPlan_full hfull]
      unfold LoadPlan.Covers ElfPhdr.ReadsPast
      simp only [Bool.false_eq_true, false_or, true_and, hfull, Nat.not_lt, le_inf_iff, le_refl]
      unfold pageSize
      omega
    · have hno : ¬ ph.ReadsPast base off f v := fun h => hfull h.1
      obtain hp | ⟨offset, dst, len, hp⟩ := ElfPhdr.loadPlan_not_full hfull text
      · rw [hp]
        exact iff_of_true trivial hno
      · rw [hp]
        exact iff_of_true (.inl rfl) hno
  rw [loadPlan_pageSeg]
  unfold ReadsPast
  cases as.pageSeg v with
  | none => exact iff_of_true trivial nofun
  | some sg =>
    cases sg with
    | text =>
      simp only [hph, true_and, reduceCtorEq, Option.some.injEq, false_and, or_false]
    | data =>
      simp only [hph, true_and, reduceCtorEq, Option.some.injEq, false_and, false_or]
    | stack =>
      simp only [reduceCtorEq, Option.some.injEq, false_and, or_self, not_false_eq_true, iff_true]
      trivial

/-- What `load_page` puts in the frame does not depend on what was there. -/
def AddrSpace.NoStale (as : AddrSpace) (f : File) (cell : Option (Nat → UInt8)) (v : Nat) : Prop :=
  ∀ paddr m m' r r', (∀ x, ¬ (paddr ≤ x ∧ x < paddr + pageSize) → m x = m' x) →
    as.loadPage f cell v paddr m = some r → as.loadPage f cell v paddr m' = some r' →
      SameBytes pageSize (readAt r paddr) (readAt r' paddr)

theorem LoadPlan.Covers.same {plan : LoadPlan} (h : plan.Covers f) (hr : plan.build f m paddr = some r)
    (hr' : plan.build f m' paddr = some r') : SameBytes pageSize (readAt r paddr) (readAt r' paddr) := by
  intro o ho
  have hin : paddr ≤ paddr + o ∧ paddr + o < paddr + pageSize := ⟨Nat.le_add_right .., by omega⟩
  cases plan with
  | segv => cases hr
  | zero =>
    cases hr
    cases hr'
    simp only [readAt, bzero_in hin]
  | read bz offset dst len =>
    cases hr
    cases hr'
    simp only [readAt, File.readInto]
    by_cases hw : paddr + dst ≤ paddr + o ∧ paddr + o < paddr + dst + min len (f.size - offset)
    · rw [writeAt_in hw, writeAt_in hw]
    · rw [writeAt_out hw, writeAt_out hw]
      cases h with
      | inl h => simp only [h, if_true, bzero_in hin]
      | inr h =>
        obtain ⟨rfl, hlen⟩ := h
        exact absurd ⟨by omega, by omega⟩ hw

/-- A frame of ones among zeros. -/
def onesAt (paddr : Nat) : Nat → UInt8 := fun x => if paddr ≤ x ∧ x < paddr + pageSize then 1 else 0

/-- The last byte of the frame is not read. -/
theorem AddrSpace.ReadsPast.not_noStale {as : AddrSpace} (h : as.ReadsPast f v) :
    ¬ as.NoStale f none v := by
  intro hns
  have hplan : ∃ offset, as.loadPlan v = .read false offset 0 pageSize ∧
      f.size < offset + pageSize := by
    rw [AddrSpace.loadPlan_pageSeg]
    cases h with
    | inl hp =>
      rw [hp.1]
      exact ⟨_, ElfPhdr.loadPlan_full hp.2.1 true, hp.2.2⟩
    | inr hp =>
      rw [hp.1]
      exact ⟨_, ElfPhdr.loadPlan_full hp.2.1 false, hp.2.2⟩
  obtain ⟨offset, hp, hsize⟩ := hplan
  have hsame := hns 0 (fun _ => 0) (onesAt 0) _ _ (fun x hx => (if_neg hx).symm)
    (by rw [AddrSpace.loadPage, hp]; rfl) (by rw [AddrSpace.loadPage, hp]; rfl)
    (pageSize - 1) (by decide)
  have hout : ¬ (0 + 0 ≤ 0 + (pageSize - 1) ∧
      0 + (pageSize - 1) < 0 + 0 + min pageSize (f.size - offset)) := by
    unfold pageSize at *
    omega
  simp only [readAt, File.readInto, writeAt_out hout] at hsame
  exact absurd hsame (by decide)

/-- The old contents of a frame never show, unless the page is not in the swap file and is read
whole from a file that ends before it. -/
theorem no_stale_contents (as : AddrSpace) (f : File) (cell : Option (Nat → UInt8)) (v : Nat) :
    as.NoStale f cell v ↔ cell.isSome = true ∨ ¬ as.ReadsPast f v := by
  constructor
  · intro h
    cases cell with
    | some bytes => exact .inl rfl
    | none => exact .inr fun hpast => hpast.not_noStale h
  · intro h paddr m m' r r' hm hr hr'
    cases cell with
    | some bytes =>
      cases hr
      cases hr'
      exact SameBytes.trans (readAt_writeAt m paddr pageSize bytes)
        (SameBytes.symm (readAt_writeAt m' paddr pageSize bytes))
    | none =>
      have hcov : (as.loadPlan v).Covers f := by
        rw [AddrSpace.covers_iff]
        cases h with
        | inl h => cases h
        | inr h => exact h
      exact hcov.same hr hr'

/-- Two pages of text of an executable that ends in the middle of the second one. -/
theorem stale_contents_show :
    let phs : List ElfPhdr := [⟨ptMipsReginfo, 0, 0, 0, 0⟩, ⟨ptLoad, 0, 0x400000, 8192, 8192⟩,
      ⟨ptLoad, 8192, 0x10000000, 4096, 4096⟩]
    ∃ as, loadElf 0 phs = some as ∧ as.pageSeg 0x401000 = some .text ∧
      ¬ as.NoStale ⟨6000, fun _ => 7⟩ none 0x401000 := by
  refine ⟨_, rfl, by decide, ?_⟩
  apply AddrSpace.ReadsPast.not_noStale
  left
  refine ⟨by decide, ⟨?_, ?_, ?_⟩, ?_⟩
  · decide
  · decide
  · decide
  · decide

end Clape
