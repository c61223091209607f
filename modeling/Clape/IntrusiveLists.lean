import Mathlib.Logic.Function.Basic
import Mathlib.Data.List.Nodup
import Mathlib.Data.List.Perm.Subperm
import Mathlib.Data.List.Basic

namespace Clape
set_option autoImplicit true

/-- A heap of intrusive singly linked lists: one link per node and one head per list. -/
structure Lists (κ ν : Type) where
  head : κ → Option ν
  next : ν → Option ν

/-- The outcome of walking a list; `endless` is a walk longer than the heap. -/
inductive Search (ν : Type) where
  | found (prev : Option ν) (c : ν)
  | missing
  | endless
  deriving DecidableEq, Repr

namespace Lists
variable [DecidableEq κ] [DecidableEq ν]

/-- Insertion at the head. -/
def push (l : Lists κ ν) (k : κ) (c : ν) : Lists κ ν where
  head := Function.update l.head k (some c)
  next := Function.update l.next c (l.head k)

/-- Advance a head past its first node. -/
def behead (l : Lists κ ν) (k : κ) (c : ν) : Lists κ ν where
  head := Function.update l.head k (l.next c)
  next := l.next

def clear (l : Lists κ ν) (k : κ) : Lists κ ν where
  head := Function.update l.head k none
  next := l.next

/-- Walk from a node, keeping the node before, until the test holds. -/
def search (l : Lists κ ν) (p : ν → Bool) : Nat → Option ν → Option ν → Search ν
  | _, _, none => .missing
  | 0, _, some _ => .endless
  | f + 1, prev, some c => if p c then .found prev c else search l p f (some c) (l.next c)

/-- Skip a node, from the node before it or from the head. -/
def unlink (l : Lists κ ν) (k : κ) (prev : Option ν) (c : ν) : Lists κ ν :=
  match prev with
  | none => l.behead k c
  | some q => { l with next := Function.update l.next q (l.next c) }

variable (l : Lists κ ν)

theorem push_head_self (k : κ) (c : ν) : (l.push k c).head k = some c := Function.update_self ..

theorem push_head_of_ne (c : ν) (h : k' ≠ k) : (l.push k c).head k' = l.head k' :=
  Function.update_of_ne h ..

theorem push_next_self (k : κ) (c : ν) : (l.push k c).next c = l.head k := Function.update_self ..

theorem push_next_of_ne (k : κ) (h : d ≠ c) : (l.push k c).next d = l.next d :=
  Function.update_of_ne h ..

omit [DecidableEq ν] in
theorem behead_head_self (k : κ) (c : ν) : (l.behead k c).head k = l.next c :=
  Function.update_self ..

omit [DecidableEq ν] in
theorem behead_head_of_ne (c : ν) (h : k' ≠ k) : (l.behead k c).head k' = l.head k' :=
  Function.update_of_ne h ..

omit [DecidableEq ν] in
theorem clear_head_of_ne (h : k' ≠ k) : (l.clear k).head k' = l.head k' :=
  Function.update_of_ne h ..

end Lists

/-- Following the links from a head visits exactly the given nodes and then ends. -/
def Chain (next : ν → Option ν) : Option ν → List ν → Prop
  | h, [] => h = none
  | h, c :: L => h = some c ∧ Chain next (next c) L

instance Chain.decide [DecidableEq ν] (next : ν → Option ν) (h : Option ν) : (L : List ν) →
    Decidable (Chain next h L)
  | [] => inferInstanceAs (Decidable (h = none))
  | c :: L =>
    have : Decidable (Chain next (next c) L) := Chain.decide next (next c) L
    inferInstanceAs (Decidable (h = some c ∧ Chain next (next c) L))

theorem Chain.head_none {next : ν → Option ν} (h : Chain next none L) : L = [] := by
  cases L with
  | nil => rfl
  | cons c L => cases h.1

theorem Chain.head_some {next : ν → Option ν} (h : Chain next (some c) L) :
    ∃ T, L = c :: T ∧ Chain next (next c) T := by
  cases L with
  | nil => cases h
  | cons d T =>
    cases h.1
    exact ⟨T, rfl, h.2⟩

theorem Chain.of_head {next : ν → Option ν} (h : Chain next a L) (he : b = a) : Chain next b L := by
  rw [he]
  exact h

theorem Chain.congr {next next' : ν → Option ν} (h : Chain next a L)
    (he : ∀ c ∈ L, next' c = next c) : Chain next' a L := by
  induction L generalizing a with
  | nil => exact h
  | cons c L ih =>
    refine ⟨h.1, ?_⟩
    rw [he c List.mem_cons_self]
    exact ih h.2 (fun d hd => he d (List.mem_cons_of_mem _ hd))

theorem Chain.unique {next : ν → Option ν} (h : Chain next a L) (h' : Chain next a M) :
    L = M := by
  induction L generalizing a M with
  | nil =>
    cases h
    exact h'.head_none.symm
  | cons c L ih =>
    cases h.1
    obtain ⟨T, rfl, hT⟩ := h'.head_some
    rw [ih h.2 hT]

theorem Chain.after {next : ν → Option ν} (h : Chain next a (A ++ c :: B)) :
    Chain next (next c) B := by
  induction A generalizing a with
  | nil => exact h.2
  | cons d A ih => exact ih h.2

theorem Chain.skip [DecidableEq ν] {next : ν → Option ν} (h : Chain next a (A ++ q :: c :: B))
    (hn : (A ++ q :: c :: B).Nodup) :
    Chain (Function.update next q (next c)) a (A ++ q :: B) := by
  induction A generalizing a with
  | nil =>
    obtain ⟨hq, hc, hB⟩ := h
    refine ⟨hq, ?_⟩
    rw [Function.update_self]
    refine Chain.congr hB fun d hd => ?_
    rw [Function.update_of_ne]
    rintro rfl
    simp only [List.nil_append, List.nodup_cons, List.mem_cons, not_or] at hn
    exact hn.1.2 hd
  | cons d A ih =>
    obtain ⟨hd, hA⟩ := h
    rw [List.cons_append, List.nodup_cons] at hn
    refine ⟨hd, ?_⟩
    rw [Function.update_of_ne]
    · exact ih hA hn.2
    · rintro rfl
      exact hn.1 (List.mem_append_right _ List.mem_cons_self)

theorem search_spec {l : Lists κ ν} {p : ν → Bool} (h : Chain l.next a L) (hf : L.length ≤ f)
    (prev : Option ν) :
    (∃ A c B, L = A ++ c :: B ∧ (∀ d ∈ A, p d = false) ∧ p c = true ∧
      l.search p f prev a = .found (A.getLast?.or prev) c) ∨
    ((∀ d ∈ L, p d = false) ∧ l.search p f prev a = .missing) := by
  induction L generalizing a f prev with
  | nil =>
    cases h
    exact .inr ⟨by simp, by cases f <;> rfl⟩
  | cons c L ih =>
    cases h.1
    obtain ⟨f, rfl⟩ : ∃ g, f = g + 1 := ⟨f - 1, by simp only [List.length_cons] at hf; omega⟩
    cases hp : p c with
    | true =>
      refine .inl ⟨[], c, L, rfl, by simp, hp, ?_⟩
      simp [Lists.search, hp]
    | false =>
      have hs : l.search p (f + 1) prev (some c) = l.search p f (some c) (l.next c) := by
        simp [Lists.search, hp]
      rw [hs]
      rcases ih h.2 (by simpa using hf) (some c) with ⟨A, d, B, rfl, hA, hd, he⟩ | ⟨hA, he⟩
      · refine .inl ⟨c :: A, d, B, rfl, ?_, hd, ?_⟩
        · intro x hx
          rcases List.mem_cons.1 hx with rfl | hx
          · exact hp
          · exact hA x hx
        · rw [he]
          cases A <;> simp [List.getLast?_cons]
      · refine .inr ⟨?_, he⟩
        intro x hx
        rcases List.mem_cons.1 hx with rfl | hx
        · exact hp
        · exact hA x hx

/-- The heap holds the given lists, each node on at most one of them and once. -/
structure Lists.Rep (l : Lists κ ν) (L : κ → List ν) : Prop where
  chain : ∀ k, Chain l.next (l.head k) (L k)
  nodup : ∀ k, (L k).Nodup
  disjoint : ∀ k k' c, c ∈ L k → c ∈ L k' → k = k'

namespace Lists.Rep
variable {l : Lists κ ν} {L : κ → List ν}

theorem head_eq_none (h : l.Rep L) : l.head k = none ↔ L k = [] := by
  constructor
  · intro he
    have hc := h.chain k
    rw [he] at hc
    exact hc.head_none
  · intro he
    have hc := h.chain k
    rw [he] at hc
    exact hc

theorem head_eq_some (h : l.Rep L) (hc : l.head k = some c) :
    ∃ T, L k = c :: T ∧ Chain l.next (l.next c) T := by
  have hk := h.chain k
  rw [hc] at hk
  exact hk.head_some

theorem mem_head (h : l.Rep L) (hc : l.head k = some c) : c ∈ L k := by
  obtain ⟨T, he, _⟩ := h.head_eq_some hc
  rw [he]
  exact List.mem_cons_self

theorem length_le {l : Lists κ Nat} {L : κ → List Nat} (h : l.Rep L) (hn : ∀ c ∈ L k, c < n) :
    (L k).length ≤ n := by
  have hsub : L k ⊆ List.range n := by
    intro c hc
    exact List.mem_range.2 (hn c hc)
  have hle := ((h.nodup k).subperm hsub).length_le
  rwa [List.length_range] at hle

variable [DecidableEq κ]

theorem shrink {M : List ν} (h : l.Rep L) (hc : Chain l.next a M)
    (hs : M.Sublist (L k)) :
    ({ head := Function.update l.head k a, next := l.next } : Lists κ ν).Rep
      (Function.update L k M) where
  chain k' := by
    by_cases hk : k' = k
    · subst hk
      simpa using hc
    · simpa [hk] using h.chain k'
  nodup k' := by
    by_cases hk : k' = k
    · subst hk
      simpa using (h.nodup k').sublist hs
    · simpa [hk] using h.nodup k'
  disjoint k₁ k₂ c h₁ h₂ := by
    have hm : ∀ k', c ∈ Function.update L k M k' → c ∈ L k' := by
      intro k' hm
      by_cases hk : k' = k
      · subst hk
        rw [Function.update_self] at hm
        exact hs.subset hm
      · rwa [Function.update_of_ne hk] at hm
    exact h.disjoint k₁ k₂ c (hm _ h₁) (hm _ h₂)

theorem clear (h : l.Rep L) : (l.clear k).Rep (Function.update L k []) :=
  h.shrink (M := []) rfl (List.nil_sublist _)

theorem behead (h : l.Rep L) (hc : l.head k = some c) :
    ∃ T, L k = c :: T ∧ (l.behead k c).Rep (Function.update L k T) ∧
      ∀ k', c ∉ Function.update L k T k' := by
  obtain ⟨T, he, hT⟩ := h.head_eq_some hc
  refine ⟨T, he, h.shrink hT (by rw [he]; exact List.sublist_cons_self c T), ?_⟩
  have hn := h.nodup k
  rw [he, List.nodup_cons] at hn
  intro k' hm
  by_cases hk : k' = k
  · subst hk
    rw [Function.update_self] at hm
    exact hn.1 hm
  · rw [Function.update_of_ne hk] at hm
    exact hk (h.disjoint k' k c hm (h.mem_head hc))

theorem behead_mem (h : l.Rep L) (hc : l.head k = some c) :
    ∃ L', (l.behead k c).Rep L' ∧ ∀ k' d, d ∈ L' k' ↔ d ≠ c ∧ d ∈ L k' := by
  obtain ⟨T, he, hrep, hout⟩ := h.behead hc
  refine ⟨_, hrep, fun k' d => ⟨fun hd => ⟨?_, ?_⟩, fun ⟨hne, hd⟩ => ?_⟩⟩
  · rintro rfl
    exact hout k' hd
  · by_cases hk : k' = k
    · subst hk
      rw [Function.update_self] at hd
      rw [he]
      exact List.mem_cons_of_mem _ hd
    · rwa [Function.update_of_ne hk] at hd
  · by_cases hk : k' = k
    · subst hk
      rw [he] at hd
      rw [Function.update_self]
      exact (List.mem_cons.1 hd).resolve_left hne
    · rwa [Function.update_of_ne hk]

variable [DecidableEq ν]

theorem push (h : l.Rep L) (hc : ∀ k', c ∉ L k') :
    (l.push k c).Rep (Function.update L k (c :: L k)) where
  chain k' := by
    have hfr : ∀ k', Chain (Function.update l.next c (l.head k)) (l.head k') (L k') := by
      intro k'
      refine (h.chain k').congr fun d hd => ?_
      rw [Function.update_of_ne]
      rintro rfl
      exact hc k' hd
    by_cases hk : k' = k
    · subst hk
      simp only [Lists.push, Function.update_self]
      refine ⟨rfl, ?_⟩
      rw [Function.update_self]
      exact hfr k'
    · simp only [Lists.push, Function.update_of_ne hk]
      exact hfr k'
  nodup k' := by
    by_cases hk : k' = k
    · subst hk
      simpa using ⟨hc k', h.nodup k'⟩
    · simpa [hk] using h.nodup k'
  disjoint k₁ k₂ d h₁ h₂ := by
    have hm : ∀ k', d ∈ Function.update L k (c :: L k) k' → (d = c ∧ k' = k) ∨ d ∈ L k' := by
      intro k' hm
      by_cases hk : k' = k
      · subst hk
        rw [Function.update_self] at hm
        rcases List.mem_cons.1 hm with rfl | hm
        · exact .inl ⟨rfl, rfl⟩
        · exact .inr hm
      · rw [Function.update_of_ne hk] at hm
        exact .inr hm
    rcases hm k₁ h₁ with ⟨rfl, rfl⟩ | m₁
    · rcases hm k₂ h₂ with ⟨_, rfl⟩ | m₂
      · rfl
      · exact (hc k₂ m₂).elim
    · rcases hm k₂ h₂ with ⟨rfl, rfl⟩ | m₂
      · exact (hc k₁ m₁).elim
      · exact h.disjoint k₁ k₂ d m₁ m₂

/-- Unlinking the node a search found removes it from its list and from nothing else. -/
theorem unlink (h : l.Rep L) (he : L k = A ++ c :: B) :
    (l.unlink k A.getLast? c).Rep (Function.update L k (A ++ B)) ∧
      ∀ k', c ∉ Function.update L k (A ++ B) k' := by
  have hmem : c ∈ L k := by rw [he]; simp
  have hnd : (A ++ c :: B).Nodup := by rw [← he]; exact h.nodup k
  have hout : ∀ k', c ∉ Function.update L k (A ++ B) k' := by
    intro k' hm
    by_cases hk : k' = k
    · subst hk
      rw [Function.update_self] at hm
      rw [List.nodup_middle, List.nodup_cons] at hnd
      exact hnd.1 hm
    · rw [Function.update_of_ne hk] at hm
      exact hk (h.disjoint k' k c hm hmem)
  refine ⟨?_, hout⟩
  have hsub : (A ++ B).Sublist (L k) := by
    rw [he]
    exact List.Sublist.append_left (List.sublist_cons_self c B) A
  rcases List.eq_nil_or_concat A with rfl | ⟨A', q, rfl⟩
  · have hc := h.chain k
    rw [he] at hc
    exact h.shrink hc.2 hsub
  · have hlist : A' ++ [q] ++ c :: B = A' ++ q :: c :: B := by simp
    have hch := h.chain k
    rw [he, List.concat_eq_append, hlist] at hch
    rw [List.concat_eq_append, hlist] at hnd
    have hskip := hch.skip hnd
    have hq : q ∈ L k := by rw [he]; simp
    rw [List.concat_eq_append] at hsub ⊢
    have hlast : (A' ++ [q]).getLast? = some q := by simp
    rw [hlast]
    constructor
    · intro k'
      by_cases hk : k' = k
      · subst hk
        simpa [Lists.unlink] using hskip
      · simp only [Lists.unlink, Function.update_of_ne hk]
        refine (h.chain k').congr fun d hd => ?_
        rw [Function.update_of_ne]
        rintro rfl
        exact hk (h.disjoint k' k d hd hq)
    · intro k'
      by_cases hk : k' = k
      · subst hk
        rw [Function.update_self]
        exact (h.nodup k').sublist hsub
      · rw [Function.update_of_ne hk]
        exact h.nodup k'
    · intro k₁ k₂ d h₁ h₂
      have hm : ∀ k', d ∈ Function.update L k (A' ++ [q] ++ B) k' → d ∈ L k' := by
        intro k' hm
        by_cases hk : k' = k
        · subst hk
          rw [Function.update_self] at hm
          exact hsub.subset hm
        · rwa [Function.update_of_ne hk] at hm
      exact h.disjoint k₁ k₂ d (hm _ h₁) (hm _ h₂)

theorem unlink_mem (h : l.Rep L) (he : L k = A ++ c :: B) :
    ∃ L', (l.unlink k A.getLast? c).Rep L' ∧ ∀ k' d, d ∈ L' k' ↔ d ≠ c ∧ d ∈ L k' := by
  obtain ⟨hrep, hout⟩ := h.unlink he
  refine ⟨_, hrep, fun k' d => ⟨fun hd => ⟨?_, ?_⟩, fun ⟨hne, hd⟩ => ?_⟩⟩
  · rintro rfl
    exact hout k' hd
  · by_cases hk : k' = k
    · subst hk
      rw [Function.update_self, List.mem_append] at hd
      rw [he, List.mem_append, List.mem_cons]
      tauto
    · rwa [Function.update_of_ne hk] at hd
  · by_cases hk : k' = k
    · subst hk
      rw [he, List.mem_append, List.mem_cons] at hd
      rw [Function.update_self, List.mem_append]
      tauto
    · rwa [Function.update_of_ne hk]

theorem push_mem (h : l.Rep L) (hc : ∀ k', c ∉ L k') :
    ∃ L', (l.push k c).Rep L' ∧ ∀ k' d, d ∈ L' k' ↔ (d = c ∧ k' = k) ∨ d ∈ L k' := by
  refine ⟨_, h.push hc, fun k' d => ?_⟩
  by_cases hk : k' = k
  · subst hk
    rw [Function.update_self, List.mem_cons]
    simp
  · rw [Function.update_of_ne hk]
    simp [hk]

theorem push_removed (h : l.Rep L') (hL : ∀ k' d, d ∈ L' k' ↔ d ≠ c ∧ d ∈ L k') :
    ∃ M, (l.push k c).Rep M ∧ ∀ k' d, d ∈ M k' ↔ (d = c ∧ k' = k) ∨ (d ≠ c ∧ d ∈ L k') := by
  obtain ⟨M, hM, hmem⟩ := h.push_mem (k := k) (c := c) (fun k' hm => ((hL k' c).1 hm).1 rfl)
  refine ⟨M, hM, fun k' d => ?_⟩
  rw [hmem, hL]

end Lists.Rep

end Clape
