import Mathlib.Logic.Function.Basic

namespace Clape
set_option autoImplicit true

/-- Some of the roles have a block each, which is marked, and no block has two roles. -/
structure Owned (place : ρ → Option β) (marked : β → Prop) : Prop where
  inj : ∀ {r r' b}, place r = some b → place r' = some b → r = r'
  marked_of : ∀ {r b}, place r = some b → marked b

namespace Owned
variable {place place' : ρ → Option β} {marked marked' : β → Prop}

theorem ne (h : Owned place marked) (hr : place r = some b) (hr' : place r' = some c)
    (hne : r ≠ r') : b ≠ c := by
  intro hbc
  subst hbc
  exact hne (h.inj hr hr')

theorem congr (h : Owned place marked) (hp : ∀ r, place' r = place r)
    (hm : ∀ b, marked b → marked' b) : Owned place' marked' where
  inj {r r' b} hr hr' := by
    rw [hp] at hr hr'
    exact h.inj hr hr'
  marked_of {r b} hr := by
    rw [hp] at hr
    exact hm b (h.marked_of hr)

theorem alloc [DecidableEq ρ] (h : Owned place marked) (hb : ¬ marked b)
    (hp : ∀ r', place' r' = if r' = r then some b else place r')
    (hm : ∀ c, c = b ∨ marked c → marked' c) : Owned place' marked' where
  inj {q q' c} hq hq' := by
    rw [hp] at hq hq'
    by_cases h1 : q = r
    · by_cases h2 : q' = r
      · rw [h1, h2]
      · rw [if_pos h1] at hq
        rw [if_neg h2] at hq'
        cases hq
        exact absurd (h.marked_of hq') hb
    · rw [if_neg h1] at hq
      by_cases h2 : q' = r
      · rw [if_pos h2] at hq'
        cases hq'
        exact absurd (h.marked_of hq) hb
      · rw [if_neg h2] at hq'
        exact h.inj hq hq'
  marked_of {q c} hq := by
    rw [hp] at hq
    apply hm
    split at hq
    · cases hq
      exact .inl rfl
    · exact .inr (h.marked_of hq)

theorem drop (h : Owned place marked) {D : ρ → Prop} (hp : ∀ {r b}, place' r = some b → place r = some b ∧ ¬ D r)
    (hm : ∀ b, marked b → (∀ r, D r → place r ≠ some b) → marked' b) : Owned place' marked' where
  inj hr hr' := h.inj (hp hr).1 (hp hr').1
  marked_of {r b} hr := by
    obtain ⟨hold, hkept⟩ := hp hr
    apply hm b (h.marked_of hold)
    intro q hq hqb
    rw [h.inj hqb hold] at hq
    exact hkept hq

end Owned

/-- Some of the roles have a block each, no block has two roles, and the marked blocks are
those that have one. -/
structure Exact (place : ρ → Option β) (marked : β → Prop) : Prop where
  inj : ∀ {r r' b}, place r = some b → place r' = some b → r = r'
  marks : ∀ b, marked b ↔ ∃ r, place r = some b

namespace Exact
variable {place place' : ρ → Option β} {marked marked' : β → Prop}

theorem marked_of (h : Exact place marked) (hr : place r = some b) : marked b :=
  (h.marks b).2 ⟨r, hr⟩

theorem owned (h : Exact place marked) : Owned place marked := ⟨h.inj, h.marked_of⟩

theorem ne (h : Exact place marked) (hr : place r = some b) (hr' : place r' = some c)
    (hne : r ≠ r') : b ≠ c := h.owned.ne hr hr' hne

theorem congr (h : Exact place marked) (hp : ∀ r, place' r = place r)
    (hm : ∀ b, marked' b ↔ marked b) : Exact place' marked' where
  inj {r r' b} hr hr' := by
    rw [hp] at hr hr'
    exact h.inj hr hr'
  marks b := by
    rw [hm, h.marks]
    exact exists_congr fun r => by rw [hp]

theorem alloc [DecidableEq ρ] (h : Exact place marked) (hr : place r = none) (hb : ¬ marked b)
    (hp : ∀ r', place' r' = if r' = r then some b else place r')
    (hm : ∀ c, marked' c ↔ c = b ∨ marked c) : Exact place' marked' where
  inj := (h.owned.alloc hb hp fun c => (hm c).2).inj
  marks c := by
    rw [hm, h.marks]
    constructor
    · intro hc
      cases hc with
      | inl hc => exact ⟨r, by rw [hp, if_pos rfl, hc]⟩
      | inr hc =>
        obtain ⟨q, hq⟩ := hc
        refine ⟨q, ?_⟩
        rw [hp, if_neg, hq]
        intro hqr
        rw [hqr, hr] at hq
        cases hq
    · intro hc
      obtain ⟨q, hq⟩ := hc
      rw [hp] at hq
      split at hq
      · cases hq
        exact .inl rfl
      · exact .inr ⟨q, hq⟩

theorem free [DecidableEq ρ] (h : Exact place marked) (hr : place r = some b)
    (hp : ∀ r', place' r' = if r' = r then none else place r')
    (hm : ∀ c, marked' c ↔ c ≠ b ∧ marked c) : Exact place' marked' where
  inj {q q' c} hq hq' := by
    rw [hp] at hq hq'
    split at hq
    · cases hq
    · split at hq'
      · cases hq'
      · exact h.inj hq hq'
  marks c := by
    rw [hm, h.marks]
    constructor
    · intro hc
      obtain ⟨hcb, q, hq⟩ := hc
      refine ⟨q, ?_⟩
      rw [hp, if_neg, hq]
      intro hqr
      rw [hqr, hr] at hq
      cases hq
      exact hcb rfl
    · intro hc
      obtain ⟨q, hq⟩ := hc
      rw [hp] at hq
      split at hq
      · cases hq
      · rename_i hqr
        exact ⟨h.ne hq hr hqr, q, hq⟩

theorem move [DecidableEq ρ] (h : Exact place marked) (hr : place r = some b) (hq : place q = none)
    (hp : ∀ x, place' x = if x = r then none else if x = q then some b else place x) :
    Exact place' marked := by
  have hqr : q ≠ r := by
    intro he
    rw [he, hr] at hq
    cases hq
  have hfree : Exact (fun x => if x = r then none else place x) fun c => c ≠ b ∧ marked c :=
    h.free hr (fun _ => rfl) fun _ => Iff.rfl
  apply hfree.alloc (r := q) (b := b)
  · rw [if_neg hqr]
    exact hq
  · intro hb
    exact hb.1 rfl
  · intro x
    rw [hp]
    by_cases hx : x = r
    · rw [if_pos hx, hx, if_neg (fun he => hqr he.symm), if_pos rfl]
    · rw [if_neg hx, if_neg hx]
  · intro c
    by_cases hc : c = b
    · exact iff_of_true (hc ▸ h.marked_of hr) (.inl hc)
    · exact ⟨fun hm => .inr ⟨hc, hm⟩, fun hm => (hm.resolve_left hc).2⟩

end Exact

end Clape
