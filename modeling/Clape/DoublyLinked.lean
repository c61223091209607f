import Mathlib.Data.List.Chain
import Mathlib.Data.List.Nodup
import Mathlib.Logic.Function.Basic

namespace Clape
set_option autoImplicit true

/-- The links of nodes, in both directions. -/
structure Links (ν : Type) where
  next : ν → Option ν
  prev : ν → Option ν

namespace Links

/-- One node follows another, in both directions. -/
def Joined (s : Links ν) (a b : ν) : Prop := s.next a = some b ∧ s.prev b = some a

/-- The nodes follow each other. -/
def Linked (s : Links ν) (N : List ν) : Prop := N.IsChain s.Joined

theorem Joined.next_unique {s : Links ν} (h : s.Joined a b) (h' : s.Joined a c) : b = c :=
  Option.some.inj (h.1.symm.trans h'.1)

theorem Joined.prev_unique {s : Links ν} (h : s.Joined a c) (h' : s.Joined b c) : a = b :=
  Option.some.inj (h.2.symm.trans h'.2)

theorem Linked.forward {s : Links ν} (h : s.Linked N) : N.IsChain fun a b => s.next a = some b :=
  h.imp fun _ _ hab => hab.1

theorem Linked.backward {s : Links ν} (h : s.Linked N) : N.reverse.IsChain fun a b => s.prev a = some b := by
  rw [List.isChain_reverse]
  exact h.imp fun _ _ hab => hab.2

theorem Linked.split {s : Links ν} (h : s.Linked (A ++ p :: n :: B)) :
    s.Linked (A ++ [p]) ∧ s.Joined p n ∧ s.Linked (n :: B) :=
  List.isChain_append_cons_cons.1 h

theorem Linked.join {s : Links ν} (hA : s.Linked (A ++ [p])) (hpn : s.Joined p n) (hB : s.Linked (n :: B)) :
    s.Linked (A ++ p :: n :: B) :=
  List.isChain_append_cons_cons.2 ⟨hA, hpn, hB⟩

theorem Linked.congr {s t : Links ν} (h : s.Linked N)
    (he : ∀ a ∈ N, ∀ b ∈ N, s.Joined a b → t.Joined a b) : t.Linked N :=
  List.IsChain.imp_of_mem_imp (fun a b ha hb => he a ha b hb) h

theorem mem_left (M : List ν) (h : x ∈ A ++ [p]) : x ∈ A ++ p :: M := by
  rw [List.append_cons]
  exact List.mem_append_left _ h

theorem mem_right (A : List ν) (p : ν) (h : x ∈ M) : x ∈ A ++ p :: M :=
  List.mem_append_right _ (List.mem_cons_of_mem _ h)

variable [DecidableEq ν]

/-- A node is put between two others. -/
def splice (s : Links ν) (p c n : ν) : Links ν where
  next := Function.update (Function.update s.next c (some n)) p (some c)
  prev := Function.update (Function.update s.prev c (some p)) n (some c)

/-- A node is taken from between two others. -/
def unsplice (s : Links ν) (p c n : ν) : Links ν where
  next := Function.update (Function.update s.next p (some n)) c none
  prev := Function.update (Function.update s.prev n (some p)) c none

theorem splice_next_of_ne {s : Links ν} (hp : x ≠ p) (hc : x ≠ c) : (s.splice p c n).next x = s.next x :=
  (Function.update_of_ne hp ..).trans (Function.update_of_ne hc ..)

theorem splice_prev_of_ne {s : Links ν} (hn : x ≠ n) (hc : x ≠ c) : (s.splice p c n).prev x = s.prev x :=
  (Function.update_of_ne hn ..).trans (Function.update_of_ne hc ..)

theorem unsplice_next_of_ne {s : Links ν} (hp : x ≠ p) (hc : x ≠ c) : (s.unsplice p c n).next x = s.next x :=
  (Function.update_of_ne hc ..).trans (Function.update_of_ne hp ..)

theorem unsplice_prev_of_ne {s : Links ν} (hn : x ≠ n) (hc : x ≠ c) : (s.unsplice p c n).prev x = s.prev x :=
  (Function.update_of_ne hc ..).trans (Function.update_of_ne hn ..)

theorem unsplice_next_self (s : Links ν) : (s.unsplice p c n).next c = none := Function.update_self ..

theorem unsplice_prev_self (s : Links ν) : (s.unsplice p c n).prev c = none := Function.update_self ..

theorem Joined.splice {s : Links ν} (h : s.Joined a b) (hpn : s.Joined p n) (hac : a ≠ c) (hbc : b ≠ c)
    (hb : b ≠ n) : (s.splice p c n).Joined a b := by
  have ha : a ≠ p := by
    intro he
    subst he
    exact hb (h.next_unique hpn)
  exact ⟨(splice_next_of_ne ha hac).trans h.1, (splice_prev_of_ne hb hbc).trans h.2⟩

theorem joined_splice_left (s : Links ν) (hn : c ≠ n) : (s.splice p c n).Joined p c := by
  refine ⟨Function.update_self .., ?_⟩
  exact (Function.update_of_ne hn ..).trans (Function.update_self ..)

theorem joined_splice_right (s : Links ν) (hp : c ≠ p) : (s.splice p c n).Joined c n := by
  refine ⟨?_, Function.update_self ..⟩
  exact (Function.update_of_ne hp ..).trans (Function.update_self ..)

theorem Joined.unsplice {s : Links ν} (h : s.Joined a b) (hpc : s.Joined p c) (hcn : s.Joined c n) (hac : a ≠ c)
    (hbc : b ≠ c) : (s.unsplice p c n).Joined a b := by
  have ha : a ≠ p := by
    intro he
    subst he
    exact hbc (h.next_unique hpc)
  have hb : b ≠ n := by
    intro he
    subst he
    exact hac (h.prev_unique hcn)
  exact ⟨(unsplice_next_of_ne ha hac).trans h.1, (unsplice_prev_of_ne hb hbc).trans h.2⟩

theorem joined_unsplice (s : Links ν) (hp : p ≠ c) (hn : n ≠ c) : (s.unsplice p c n).Joined p n := by
  constructor
  · exact (Function.update_of_ne hp ..).trans (Function.update_self ..)
  · exact (Function.update_of_ne hn ..).trans (Function.update_self ..)

theorem Linked.splice {s : Links ν} (h : s.Linked (A ++ p :: n :: B)) (hd : (A ++ p :: n :: B).Nodup)
    (hc : c ∉ A ++ p :: n :: B) : (s.splice p c n).Linked (A ++ p :: c :: n :: B) := by
  obtain ⟨hA, hpn, hB⟩ := h.split
  have hmem : ∀ x ∈ A ++ p :: n :: B, x ≠ c := fun x hx he => hc (he ▸ hx)
  have hnA : n ∉ A ++ [p] := by
    intro hn
    rw [List.append_cons] at hd
    exact List.disjoint_of_nodup_append hd hn List.mem_cons_self
  have hp : p ≠ c := hmem p (by simp)
  have hn : n ≠ c := hmem n (by simp)
  apply Linked.join (n := c)
  · apply hA.congr
    intro a ha b hb hab
    exact hab.splice hpn (hmem a (mem_left _ ha)) (hmem b (mem_left _ hb)) fun he => hnA (he ▸ hb)
  · exact joined_splice_left s hn.symm
  · have hB' : (s.splice p c n).Linked (n :: B) := by
      apply hB.congr
      intro a ha b hb hab
      apply hab.splice hpn (hmem a (mem_right _ _ ha)) (hmem b (mem_right _ _ hb))
      intro he
      subst he
      -- `n` follows `p` only, and `p` is not here
      have hap := hab.prev_unique hpn
      subst hap
      exact (List.nodup_cons.1 hd.of_append_right).1 ha
    exact List.isChain_cons_cons.2 ⟨joined_splice_right s hp.symm, hB'⟩

theorem Linked.unsplice {s : Links ν} (h : s.Linked (A ++ p :: c :: n :: B)) (hd : (A ++ p :: c :: n :: B).Nodup) :
    (s.unsplice p c n).Linked (A ++ p :: n :: B) := by
  obtain ⟨hA, hpc, hB⟩ := h.split
  obtain ⟨hcn, hB⟩ := List.isChain_cons_cons.1 hB
  have hmem : ∀ x ∈ A ++ p :: n :: B, x ≠ c := by
    intro x hx he
    subst he
    have hperm : (A ++ p :: x :: n :: B).Perm (x :: (A ++ p :: n :: B)) := by
      have hmid : (A ++ [p] ++ x :: n :: B).Perm (x :: (A ++ [p] ++ n :: B)) := List.perm_middle
      simpa using hmid
    exact (List.nodup_cons.1 (hperm.nodup_iff.1 hd)).1 hx
  apply Linked.join
  · apply hA.congr
    intro a ha b hb hab
    exact hab.unsplice hpc hcn (hmem a (mem_left _ ha)) (hmem b (mem_left _ hb))
  · exact joined_unsplice s (hmem p (by simp)) (hmem n (by simp))
  · apply Linked.congr hB
    intro a ha b hb hab
    exact hab.unsplice hpc hcn (hmem a (mem_right _ _ ha)) (hmem b (mem_right _ _ hb))

end Links
end Clape
