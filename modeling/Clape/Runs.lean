import Mathlib.Data.List.Basic

namespace Clape
set_option autoImplicit true

/-- Finite runs of a labelled transition system, with the labels in the order of the steps. -/
inductive Run (step : σ → α → σ → Prop) : σ → List α → σ → Prop where
  | nil (s : σ) : Run step s [] s
  | snoc : Run step s tr t → step t a u → Run step s (tr ++ [a]) u

/-- What the first state has and every step keeps holds in the last state. -/
theorem Run.invariant {step : σ → α → σ → Prop} {P : σ → Prop} (h : Run step s tr t)
    (h0 : P s) (hs : ∀ t a u, P t → step t a u → P u) : P t := by
  induction h with
  | nil => exact h0
  | snoc hr ha ih => exact hs _ _ _ ih ha

/-- The same rule for a property of the state together with the labels seen so far. -/
theorem Run.invariant_trace {step : σ → α → σ → Prop} {P : List α → σ → Prop}
    (h : Run step s tr t) (h0 : P [] s)
    (hs : ∀ tr t a u, P tr t → step t a u → P (tr ++ [a]) u) : P tr t := by
  induction h with
  | nil => exact h0
  | snoc hr ha ih => exact hs _ _ _ _ ih ha

theorem Run.mono {step step' : σ → α → σ → Prop} (h : Run step s tr t)
    (hs : ∀ t a u, step t a u → step' t a u) : Run step' s tr t := by
  induction h with
  | nil => exact .nil _
  | snoc hr ha ih => exact .snoc ih (hs _ _ _ ha)

theorem Run.append {step : σ → α → σ → Prop} (h : Run step s tr t) (h' : Run step t tr' u) :
    Run step s (tr ++ tr') u := by
  induction h' with
  | nil => simpa using h
  | snoc hr ha ih =>
    rw [← List.append_assoc]
    exact .snoc ih ha

theorem Run.single {step : σ → α → σ → Prop} (h : step s a t) : Run step s [a] t :=
  .snoc (.nil s) h

theorem Run.of_foldlM {step : σ → α → σ → Prop} {next : σ → α → Option σ}
    (hs : ∀ s a t, next s a = some t → step s a t) (h : l.foldlM next s = some t) :
    Run step s l t := by
  induction l generalizing s with
  | nil =>
    cases h
    exact .nil _
  | cons a l ih =>
    rw [List.foldlM_cons, Option.bind_eq_bind, Option.bind_eq_some_iff] at h
    obtain ⟨u, hu, h⟩ := h
    exact (Run.single (hs s a u hu)).append (ih h)

theorem Run.of_any {step : σ → α → σ → Prop} {next : σ → α → Option σ} {p : σ → Bool}
    (hs : ∀ s a t, next s a = some t → step s a t) (h : (l.foldlM next s).any p = true) :
    ∃ t, Run step s l t ∧ p t = true := by
  rw [Option.any_eq_true] at h
  obtain ⟨t, ht, hp⟩ := h
  exact ⟨t, .of_foldlM hs ht, hp⟩

theorem Run.of_single {step : σ → α → σ → Prop} (h : Run step s [a] t) : step s a t := by
  generalize htr : [a] = tr at h
  cases h with
  | nil => cases htr
  | @snoc tr u b _ hr hs =>
    obtain ⟨rfl, hb⟩ : [] = tr ∧ [a] = [b] := List.append_inj' (show [] ++ [a] = tr ++ [b] from htr) rfl
    cases hb
    generalize hnil : [] = tr at hr
    cases hr with
    | nil => exact hs
    | snoc => simp at hnil

end Clape
