import Clape.Migration

namespace Clape
set_option autoImplicit true

open ThreadLists

/-- Things that are each on one list: `P` is what holds of the things on a list, and `K` tells the
things that are on one. -/
structure Residence (L : κ → List τ) (P : κ → τ → Prop) (K : τ → Prop) : Prop extends Separate L where
  fits : t ∈ L p → P p t
  known : K t ↔ ∃ p, t ∈ L p

namespace Residence
variable {κ τ : Type} {L L' : κ → List τ} {P P' : κ → τ → Prop} {K K' : τ → Prop} {p q : κ} {t : τ}
  {A B X Y : List τ}

theorem congr (h : Residence L P K) (hL : L' = L) (hP : ∀ p t, t ∈ L p → P p t → P' p t)
    (hK : ∀ t, K' t ↔ K t) : Residence L' P' K' where
  toSeparate := hL ▸ h.toSeparate
  fits ht := by
    subst hL
    exact hP _ _ ht (h.fits ht)
  known {t} := by
    subst hL
    exact (hK t).trans h.known

theorem place_unique (h : Residence L P K) (hp : t ∈ L p) (hq : t ∈ L q) : p = q := h.apart p q t hp hq

variable [DecidableEq κ]

theorem move (h : Residence L P K) (he : L p = A ++ t :: B)
    (he' : Function.update L p (A ++ B) q = X ++ Y)
    (hP : ∀ r x, x ∈ L r → x ≠ t → P r x → P' r x) (ht : P' q t) (hK : ∀ x, K' x ↔ K x) :
    Residence (Function.update (Function.update L p (A ++ B)) q (X ++ t :: Y)) P' K' := by
  obtain ⟨-, hsep, hmem⟩ := Cpus.separate_move h.toSeparate he he'
  refine ⟨hsep, ?_, ?_⟩
  · intro r x hx
    rcases (hmem r x).1 hx with ⟨rfl, rfl⟩ | ⟨hx, hne⟩
    · exact ht
    · exact hP r x hx hne (h.fits hx)
  · intro x
    rw [hK, h.known]
    constructor
    · rintro ⟨r, hr⟩
      by_cases hx : x = t
      · exact ⟨q, (hmem q x).2 (.inl ⟨rfl, hx⟩)⟩
      · exact ⟨r, (hmem r x).2 (.inr ⟨hr, hx⟩)⟩
    · rintro ⟨r, hr⟩
      rcases (hmem r x).1 hr with ⟨-, rfl⟩ | ⟨hr, -⟩
      · exact ⟨p, he ▸ List.mem_append_right _ List.mem_cons_self⟩
      · exact ⟨r, hr⟩

theorem enter (h : Residence L P K) (he : L q = X ++ Y) (hno : ¬ K t)
    (hP : ∀ r x, x ∈ L r → x ≠ t → P r x → P' r x) (ht : P' q t) (hK : ∀ x, K' x ↔ x = t ∨ K x) :
    Residence (Function.update L q (X ++ t :: Y)) P' K' := by
  have hoff : ∀ r, t ∉ L r := fun r hr => hno (h.known.2 ⟨r, hr⟩)
  refine ⟨h.toSeparate.put he hoff, ?_, ?_⟩
  · intro r x hx
    rcases (mem_put he).1 hx with ⟨rfl, rfl⟩ | hx
    · exact ht
    · exact hP r x hx (fun he => hoff r (he ▸ hx)) (h.fits hx)
  · intro x
    rw [hK, h.known]
    constructor
    · rintro (rfl | ⟨r, hr⟩)
      · exact ⟨q, (mem_put he).2 (.inl ⟨rfl, rfl⟩)⟩
      · exact ⟨r, (mem_put he).2 (.inr hr)⟩
    · rintro ⟨r, hr⟩
      rcases (mem_put he).1 hr with ⟨-, hx⟩ | hr
      · exact .inl hx
      · exact .inr ⟨r, hr⟩

theorem leave (h : Residence L P K) (he : L p = A ++ t :: B)
    (hP : ∀ r x, x ∈ L r → x ≠ t → P r x → P' r x) (hK : ∀ x, K' x ↔ K x ∧ x ≠ t) :
    Residence (Function.update L p (A ++ B)) P' K' := by
  refine ⟨h.toSeparate.take he, ?_, ?_⟩
  · intro r x hx
    obtain ⟨hx, hne⟩ := (h.toSeparate.mem_take he).1 hx
    exact hP r x hx hne (h.fits hx)
  · intro x
    rw [hK, h.known]
    constructor
    · rintro ⟨⟨r, hr⟩, hne⟩
      exact ⟨r, (h.toSeparate.mem_take he).2 ⟨hr, hne⟩⟩
    · rintro ⟨r, hr⟩
      obtain ⟨hr, hne⟩ := (h.toSeparate.mem_take he).1 hr
      exact ⟨⟨r, hr⟩, hne⟩

end Residence

end Clape
