import Mathlib.Algebra.GroupWithZero.Nat
import Mathlib.Data.Nat.Basic

namespace Clape
set_option autoImplicit true

/-- Write `k` bytes at address `a`. -/
def writeAt (m : Nat → β) (a k : Nat) (f : Nat → β) : Nat → β :=
  fun x => if a ≤ x ∧ x < a + k then f (x - a) else m x

/-- The bytes from address `a` on. -/
def readAt (m : Nat → β) (a : Nat) : Nat → β := fun o => m (a + o)

/-- Two blocks of `k` bytes are equal. -/
def SameBytes (k : Nat) (f g : Nat → β) : Prop := ∀ o < k, f o = g o

theorem SameBytes.refl (k : Nat) (f : Nat → β) : SameBytes k f f := fun _ _ => rfl

theorem SameBytes.symm (h : SameBytes k f g) : SameBytes k g f := fun o ho => (h o ho).symm

theorem SameBytes.trans (h : SameBytes k f g) (h' : SameBytes k g l) : SameBytes k f l :=
  fun o ho => (h o ho).trans (h' o ho)

theorem readAt_writeAt (m : Nat → β) (a k : Nat) (f : Nat → β) :
    SameBytes k (readAt (writeAt m a k f) a) f := by
  intro o ho
  have hin : a ≤ a + o ∧ a + o < a + k := by omega
  simp only [readAt, writeAt, if_pos hin]
  congr 1
  omega

theorem writeAt_congr (h : SameBytes k f g) : writeAt m a k f = writeAt m a k g := by
  funext x
  unfold writeAt
  split
  · exact h _ (by omega)
  · rfl

theorem writeAt_writeAt (m : Nat → β) (a j k : Nat) (f g : Nat → β) :
    writeAt (writeAt m a j f) (a + j) k g = writeAt m a (j + k) fun o => if o < j then f o else g (o - j) := by
  funext x
  unfold writeAt
  by_cases h1 : a + j ≤ x ∧ x < a + j + k
  · rw [if_pos h1, if_pos (by omega)]
    dsimp only
    rw [if_neg (by omega), Nat.sub_sub]
  · rw [if_neg h1]
    by_cases h2 : a ≤ x ∧ x < a + j
    · rw [if_pos h2, if_pos (by omega)]
      dsimp only
      rw [if_pos (by omega)]
    · rw [if_neg h2, if_neg (by omega)]

theorem readAt_writeAt_apart (m : Nat → β) (f : Nat → β) (h : b + j ≤ a ∨ a + k ≤ b) :
    SameBytes j (readAt (writeAt m a k f) b) (readAt m b) := by
  intro o ho
  have hout : ¬ (a ≤ b + o ∧ b + o < a + k) := by omega
  simp only [readAt, writeAt, if_neg hout]

theorem blocks_apart (h : b ≠ a) (n : Nat) : a * n + n ≤ b * n ∨ b * n + n ≤ a * n := by
  rw [← Nat.succ_mul, ← Nat.succ_mul]
  rcases Nat.lt_or_gt_of_ne h with hlt | hlt
  · exact .inr (Nat.mul_le_mul_right n hlt)
  · exact .inl (Nat.mul_le_mul_right n hlt)

/-- The 16-bit number at an address, in big-endian order. -/
def halfAt (m : Nat → UInt8) (a : Nat) : UInt16 :=
  .ofNat ((m a).toNat * 256 + (m (a + 1)).toNat)

/-- The 32-bit number at an address, in big-endian order. -/
def wordAt (m : Nat → UInt8) (a : Nat) : UInt32 :=
  .ofNat ((((m a).toNat * 256 + (m (a + 1)).toNat) * 256 + (m (a + 2)).toNat) * 256 +
    (m (a + 3)).toNat)

def halfBytes (w : UInt16) (o : Nat) : UInt8 := .ofNat (w.toNat / 256 ^ (1 - o))

def wordBytes (w : UInt32) (o : Nat) : UInt8 := .ofNat (w.toNat / 256 ^ (3 - o))

theorem halfAt_of {m : Nat → UInt8} (h : SameBytes 2 (readAt m a) (halfBytes w)) :
    halfAt m a = w := by
  have h0 : m a = _ := h 0 (by decide)
  have h1 : m (a + 1) = _ := h 1 (by decide)
  have hw := w.toNat_lt
  apply UInt16.toNat_inj.1
  rw [halfAt, h0, h1, halfBytes, halfBytes, UInt16.toNat_ofNat', UInt8.toNat_ofNat',
    UInt8.toNat_ofNat']
  simp only [Nat.reduceSub, Nat.reducePow, Nat.div_one]
  omega

theorem wordAt_of {m : Nat → UInt8} (h : SameBytes 4 (readAt m a) (wordBytes w)) :
    wordAt m a = w := by
  have h0 : m a = _ := h 0 (by decide)
  have h1 : m (a + 1) = _ := h 1 (by decide)
  have h2 : m (a + 2) = _ := h 2 (by decide)
  have h3 : m (a + 3) = _ := h 3 (by decide)
  have hw := w.toNat_lt
  apply UInt32.toNat_inj.1
  rw [wordAt, h0, h1, h2, h3]
  simp only [wordBytes, UInt32.toNat_ofNat', UInt8.toNat_ofNat']
  simp only [Nat.reduceSub, Nat.reducePow, Nat.div_one]
  omega

theorem halfAt_zero : halfAt (fun _ => 0) a = 0 := by
  simp [halfAt]

theorem wordAt_zero : wordAt (fun _ => 0) a = 0 := by
  simp [wordAt]

end Clape
