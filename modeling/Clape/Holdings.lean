import Mathlib.Logic.Function.Basic
import Mathlib.Data.Option.Basic

namespace Clape
set_option autoImplicit true

/-- The values of a store whose keys move from place to place: a key is at one place at most,
and its value is what that place contains. -/
structure Shows (H : ι → κ → Prop) (b : ι → β) (m : κ → Option β) : Prop where
  once : H x k → H y k → x = y
  value : m k = some c ↔ ∃ x, H x k ∧ b x = c

namespace Shows
variable {H H' : ι → κ → Prop} {b b' : ι → β} {m : κ → Option β}

theorem of_holds (h : Shows H b m) (hx : H x k) : m k = some (b x) := h.value.2 ⟨x, hx, rfl⟩

theorem none_iff (h : Shows H b m) : m k = none ↔ ∀ x, ¬ H x k := by
  constructor
  · intro hk x hx
    rw [h.of_holds hx] at hk
    cases hk
  · intro hno
    cases hk : m k with
    | none => rfl
    | some c =>
      obtain ⟨x, hx, -⟩ := h.value.1 hk
      exact (hno x hx).elim

theorem congr (h : Shows H b m) (hH : ∀ x k, H' x k ↔ H x k) (hb : ∀ x k, H x k → b' x = b x) :
    Shows H' b' m where
  once hx hy := h.once ((hH _ _).1 hx) ((hH _ _).1 hy)
  value {k c} := by
    rw [h.value]
    apply exists_congr
    intro x
    rw [hH]
    apply and_congr_right
    intro hx
    rw [hb x k hx]

theorem set [DecidableEq κ] (h : Shows H b m)
    (hH : ∀ x j, H' x j ↔ j = k ∧ x = y ∨ j ≠ k ∧ H x j)
    (hb : ∀ x j, j ≠ k → H x j → b' x = b x) :
    Shows H' b' (Function.update m k (some (b' y))) where
  once {x j z} hx hz := by
    rcases (hH x j).1 hx with ⟨rfl, rfl⟩ | ⟨hj, hx⟩
    · rcases (hH z j).1 hz with ⟨-, rfl⟩ | ⟨hj, -⟩
      · rfl
      · exact (hj rfl).elim
    · rcases (hH z j).1 hz with ⟨hjk, -⟩ | ⟨-, hz⟩
      · exact (hj hjk).elim
      · exact h.once hx hz
  value {j c} := by
    by_cases hj : j = k
    · subst hj
      simp [hH]
    · rw [Function.update_of_ne hj, h.value]
      apply exists_congr
      intro x
      rw [hH]
      simp only [hj, false_and, ne_eq, not_false_eq_true, true_and, false_or]
      apply and_congr_right
      intro hx
      rw [hb x j hj hx]

theorem put [DecidableEq κ] (h : Shows H b m) (hx : H x k) (hH : ∀ z j, H' z j ↔ H z j)
    (hb : ∀ z j, j ≠ k → H z j → b' z = b z) :
    Shows H' b' (Function.update m k (some (b' x))) := by
  apply h.set _ hb
  intro z j
  rw [hH]
  constructor
  · intro hz
    by_cases hj : j = k
    · subst hj
      exact .inl ⟨rfl, h.once hz hx⟩
    · exact .inr ⟨hj, hz⟩
  · rintro (⟨rfl, rfl⟩ | ⟨-, hz⟩)
    · exact hx
    · exact hz

theorem move [DecidableEq κ] (h : Shows H b m) (hx : H x k)
    (hH : ∀ z j, H' z j ↔ j = k ∧ z = y ∨ j ≠ k ∧ H z j)
    (hb : ∀ z j, j ≠ k → H z j → b' z = b z) (hy : b' y = b x) : Shows H' b' m := by
  have hset := h.set hH hb
  rw [hy, ← h.of_holds hx, Function.update_eq_self] at hset
  exact hset

theorem gain [DecidableEq κ] (h : Shows H b m) (hno : ∀ z, ¬ H z k)
    (hother : ∀ z j, z ≠ y → (H' z j ↔ H z j)) (hto : ∀ j, H' y j ↔ H y j ∨ j = k)
    (hb : ∀ z j, H z j → b' z = b z) : Shows H' b' (Function.update m k (some (b' y))) := by
  have hne : ∀ z j, H z j → j ≠ k := by
    rintro z j hz rfl
    exact hno z hz
  apply h.set
  · intro z j
    by_cases hz : z = y
    · subst hz
      rw [hto]
      constructor
      · rintro (hj | rfl)
        · exact .inr ⟨hne z j hj, hj⟩
        · exact .inl ⟨rfl, rfl⟩
      · rintro (⟨rfl, -⟩ | ⟨-, hj⟩)
        · exact .inr rfl
        · exact .inl hj
    · rw [hother z j hz]
      constructor
      · intro hj
        exact .inr ⟨hne z j hj, hj⟩
      · rintro (⟨-, he⟩ | ⟨-, hj⟩)
        · exact (hz he).elim
        · exact hj
  · intro z j _ hz
    exact hb z j hz

theorem carry [DecidableEq κ] (h : Shows H b m) (hx : H x k) (hxy : y ≠ x)
    (hother : ∀ z j, z ≠ x → z ≠ y → (H' z j ↔ H z j)) (hfrom : ∀ j, H' x j ↔ H x j ∧ j ≠ k)
    (hto : ∀ j, H' y j ↔ H y j ∨ j = k) (hb : ∀ z j, j ≠ k → H z j → b' z = b z)
    (hy : b' y = b x) : Shows H' b' m := by
  apply h.move hx _ hb hy
  intro z j
  by_cases hzx : z = x
  · subst hzx
    rw [hfrom]
    constructor
    · intro hj
      exact .inr ⟨hj.2, hj.1⟩
    · rintro (⟨-, he⟩ | ⟨hj, hz⟩)
      · exact (hxy he.symm).elim
      · exact ⟨hz, hj⟩
  · have hne : H z j → j ≠ k := by
      rintro hz rfl
      exact hzx (h.once hz hx)
    by_cases hzy : z = y
    · subst hzy
      rw [hto]
      constructor
      · rintro (hz | rfl)
        · exact .inr ⟨hne hz, hz⟩
        · exact .inl ⟨rfl, rfl⟩
      · rintro (⟨rfl, -⟩ | ⟨-, hz⟩)
        · exact .inr rfl
        · exact .inl hz
    · rw [hother z j hzx hzy]
      constructor
      · intro hz
        exact .inr ⟨hne hz, hz⟩
      · rintro (⟨-, he⟩ | ⟨-, hz⟩)
        · exact (hzy he).elim
        · exact hz

theorem drop {G : κ → Prop} [DecidablePred G] (h : Shows H b m)
    (hH : ∀ x k, H' x k ↔ H x k ∧ ¬ G k) (hb : ∀ x k, ¬ G k → H x k → b' x = b x) :
    Shows H' b' fun k => if G k then none else m k where
  once hx hy := h.once ((hH _ _).1 hx).1 ((hH _ _).1 hy).1
  value {k c} := by
    by_cases hk : G k
    · simp [hH, hk]
    · rw [if_neg hk, h.value]
      apply exists_congr
      intro x
      rw [hH]
      simp only [hk, not_false_eq_true, and_true]
      apply and_congr_right
      intro hx
      rw [hb x k hk hx]

end Shows

end Clape
