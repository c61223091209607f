import Mathlib.Data.List.Basic

namespace Clape
set_option autoImplicit true

/-- A computation that may stop is sound when its result, or the reason why it stopped, is
an allowed one. -/
def Sound (E : ε → Prop) (Q : α → Prop) : Except ε α → Prop
  | .ok a => Q a
  | .error e => E e

theorem Sound.ok {x : Except ε α} (h : Sound E Q x) (hx : x = .ok a) : Q a := by
  subst hx
  exact h

theorem Sound.error {x : Except ε α} (h : Sound E Q x) (hx : x = .error e) : E e := by
  subst hx
  exact h

theorem Sound.intro {x : Except ε α} (ho : ∀ a, x = .ok a → Q a) (he : ∀ e, x = .error e → E e) :
    Sound E Q x := by
  cases x with
  | ok a => exact ho a rfl
  | error e => exact he e rfl

theorem Sound.mono {x : Except ε α} (h : Sound E Q x) (hQ : ∀ a, Q a → Q' a) :
    Sound E Q' x := by
  cases x with
  | ok a => exact hQ a h
  | error e => exact h

theorem Sound.bind {x : Except ε α} {f : α → Except ε β} (hx : Sound E P x)
    (hf : ∀ a, P a → Sound E Q (f a)) : Sound E Q (x >>= f) := by
  cases x with
  | ok a => exact hf a hx
  | error e => exact hx

/-- The rule for a sequence whose parts are still to be looked at. -/
theorem Sound.of_bind {x : Except ε α} {f : α → Except ε β} {E : ε → Prop} {Q : β → Prop}
    (he : ∀ e, x = .error e → E e) (ho : ∀ a, x = .ok a → Sound E Q (f a)) :
    Sound E Q (x >>= f) := by
  cases x with
  | ok a => exact ho a rfl
  | error e => exact he e rfl

theorem Sound.pure {E : ε → Prop} {Q : α → Prop} {a : α} (h : Q a) : Sound E Q (Pure.pure a : Except ε α) := h

/-- The loop rule, with an invariant that knows which elements are done. -/
theorem Sound.foldlM_prefix {f : σ → ι → Except ε σ} {P : List ι → σ → Prop} {l : List ι}
    (h0 : P [] s)
    (hf : ∀ done i rest s, l = done ++ i :: rest → P done s → Sound E (P (done ++ [i])) (f s i)) :
    Sound E (P l) (l.foldlM f s) := by
  suffices hs : ∀ rest done s, l = done ++ rest → P done s →
      Sound E (P l) (rest.foldlM f s) from hs l [] s rfl h0
  intro rest
  induction rest with
  | nil =>
    intro done s hl hp
    rw [List.append_nil] at hl
    subst hl
    exact hp
  | cons i rest ih =>
    intro done s hl hp
    rw [List.foldlM_cons]
    refine (hf done i rest s hl hp).bind fun t ht => ?_
    exact ih (done ++ [i]) t (by simp [hl]) ht

/-- The loop rule for an invariant of the state alone. -/
theorem Sound.foldlM {f : σ → ι → Except ε σ} {P : σ → Prop} {l : List ι} (h0 : P s)
    (hf : ∀ i ∈ l, ∀ s, P s → Sound E P (f s i)) : Sound E P (l.foldlM f s) := by
  refine Sound.foldlM_prefix (P := fun _ => P) h0 fun done i rest s hl hp => ?_
  exact hf i (by simp [hl]) s hp

end Clape
