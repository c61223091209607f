import Clape.Runs
import Mathlib.Data.Option.Basic
import Mathlib.Logic.Function.Basic

namespace Clape
set_option autoImplicit true

/-- What can happen to processes with a memory each: a page gets its first contents, a process changes a
page, a child gets the memory of its parent, and the memory of a process goes. -/
inductive MemoryEvent (π ν β : Type) where
  | idle
  | touch (p : π) (v : ν) (b : β)
  | change (p : π) (v : ν) (f : β → β)
  | fork (p c : π)
  | exit (p : π)

namespace MemoryEvent
variable {π ν β : Type} {m m' : π → ν → Option β}

/-- The memories after an event. -/
def Step [DecidableEq π] [DecidableEq ν] (m : π → ν → Option β) (e : MemoryEvent π ν β)
    (m' : π → ν → Option β) : Prop :=
  match e with
  | .idle => m' = m
  | .touch p v b => m p v = none ∧ m' = Function.update m p (Function.update (m p) v (some b))
  | .change p v f => ∃ b, m p v = some b ∧
      m' = Function.update m p (Function.update (m p) v (some (f b)))
  | .fork p c => (∀ v, m c v = none) ∧ m' = Function.update m c (m p)
  | .exit p => m' = Function.update m p fun _ => none

variable [DecidableEq π] [DecidableEq ν]

/-- A process has a page until it changes the page or exits. -/
theorem Step.keep {e : MemoryEvent π ν β} (h : Step m e m') (hm : m p v = some b)
    (hc : ∀ f, e ≠ .change p v f) (hx : e ≠ .exit p) : m' p v = some b := by
  cases e with
  | idle => rw [show m' = m from h, hm]
  | touch q w c =>
    obtain ⟨hnone, rfl⟩ := h
    by_cases hq : p = q
    · subst hq
      have hw : v ≠ w := by
        rintro rfl
        rw [hnone] at hm
        cases hm
      rw [Function.update_self, Function.update_of_ne hw, hm]
    · rw [Function.update_of_ne hq, hm]
  | change q w f =>
    obtain ⟨c, -, rfl⟩ := h
    by_cases hq : p = q
    · subst hq
      have hw : v ≠ w := by
        rintro rfl
        exact hc f rfl
      rw [Function.update_self, Function.update_of_ne hw, hm]
    · rw [Function.update_of_ne hq, hm]
  | fork q c =>
    obtain ⟨hnone, rfl⟩ := h
    have hp : p ≠ c := by
      rintro rfl
      rw [hnone v] at hm
      cases hm
    rw [Function.update_of_ne hp, hm]
  | exit q =>
    have hq : p ≠ q := by
      rintro rfl
      exact hx rfl
    rw [show m' = _ from h, Function.update_of_ne hq, hm]

end MemoryEvent

end Clape
