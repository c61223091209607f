import Mathlib.Data.Finset.Card

namespace Clape
set_option autoImplicit true

/-- Exactly `n` elements pass a test. -/
def Tally (b : ι → Bool) (n : Nat) : Prop := ∃ F : Finset ι, F.card = n ∧ ∀ q, q ∈ F ↔ b q = true

namespace Tally
variable {b b' : ι → Bool}

theorem zero (h : ∀ q, b q = false) : Tally b 0 := by
  refine ⟨∅, rfl, ?_⟩
  intro q
  simp [h q]

/-- When the test changes at one element only, so does the number. -/
theorem step [DecidableEq ι] (h : Tally b n) (hb : ∀ q, q ≠ p → b' q = b q) :
    ∃ n', Tally b' n' ∧ n' + (b p).toNat = n + (b' p).toNat := by
  obtain ⟨F, rfl, hF⟩ := h
  have hp : p ∉ F.erase p := Finset.notMem_erase p F
  have hcard : (F.erase p).card + (b p).toNat = F.card := by
    cases hbp : b p with
    | true => exact Finset.card_erase_add_one ((hF p).2 hbp)
    | false =>
      rw [Finset.erase_eq_of_notMem (by rw [hF, hbp]; exact Bool.false_ne_true)]
      rfl
  have herase : ∀ q, q ∈ F.erase p ↔ q ≠ p ∧ b' q = true := by
    intro q
    rw [Finset.mem_erase, hF]
    exact and_congr_right fun hq => by rw [hb q hq]
  cases hbp : b' p with
  | false =>
    refine ⟨(F.erase p).card, ⟨_, rfl, ?_⟩, hcard⟩
    intro q
    rw [herase]
    constructor
    · exact And.right
    · intro hq
      refine ⟨?_, hq⟩
      rintro rfl
      rw [hbp] at hq
      cases hq
  | true =>
    refine ⟨(F.erase p).card + 1, ⟨_, Finset.card_insert_of_notMem hp, ?_⟩, ?_⟩
    · intro q
      rw [Finset.mem_insert, herase]
      by_cases hq : q = p
      · simp [hq, hbp]
      · simp [hq]
    · rw [Nat.add_right_comm, hcard]
      rfl

end Tally

end Clape
