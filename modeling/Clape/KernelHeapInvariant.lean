import Mathlib.Data.Finset.Card
import Clape.KernelHeap
import Clape.Placement

namespace Clape
set_option autoImplicit true

/-- The lists that the pointers of the heap describe: the pagerefs on `allbase` and on the lists of
`sizebases`, the free blocks of the page of each pageref, and the place of each pageref. -/
structure HeapView where
  all : List Nat
  sized : Nat → List Nat
  free : Nat → List Nat
  slot : Nat → Nat × Nat

/-- The address of a block of a page. -/
def IsBlock (page k b : Nat) : Prop := ∃ i < blocksPerPage k, b = page + i * blockSize k

theorem blockSize_facts (hk : k < 8) : 16 ≤ blockSize k ∧ blockSize k ≤ 2048 ∧
    blocksPerPage k * blockSize k = pageSize ∧ 2 ≤ blocksPerPage k := by
  have h : ∀ k < 8, 16 ≤ blockSize k ∧ blockSize k ≤ 2048 ∧
      blocksPerPage k * blockSize k = pageSize ∧ 2 ≤ blocksPerPage k := by decide
  exact h k hk

theorem IsBlock.bounds (hk : k < 8) (h : IsBlock page k b) :
    page ≤ b ∧ b + blockSize k ≤ page + pageSize := by
  obtain ⟨i, hi, rfl⟩ := h
  have hle : (i + 1) * blockSize k ≤ blocksPerPage k * blockSize k := Nat.mul_le_mul_right _ hi
  rw [(blockSize_facts hk).2.2.1, Nat.succ_mul] at hle
  omega

theorem IsBlock.apart (h : IsBlock page k b) (h' : IsBlock page k c) (hne : b ≠ c) :
    b + blockSize k ≤ c ∨ c + blockSize k ≤ b := by
  obtain ⟨i, -, rfl⟩ := h
  obtain ⟨j, -, rfl⟩ := h'
  have hij : i ≠ j := by
    intro he
    rw [he] at hne
    exact hne rfl
  cases Nat.lt_or_gt_of_ne hij with
  | inl hlt =>
    have hle : (i + 1) * blockSize k ≤ j * blockSize k := Nat.mul_le_mul_right _ hlt
    rw [Nat.succ_mul] at hle
    omega
  | inr hlt =>
    have hle : (j + 1) * blockSize k ≤ i * blockSize k := Nat.mul_le_mul_right _ hlt
    rw [Nat.succ_mul] at hle
    omega

/-- The blocks of a page, in order. -/
def pageBlocks (page k : Nat) : List Nat := (List.range (blocksPerPage k)).map fun i => page + i * blockSize k

theorem mem_pageBlocks : b ∈ pageBlocks page k ↔ IsBlock page k b := by
  unfold pageBlocks IsBlock
  rw [List.mem_map]
  simp only [List.mem_range]
  exact exists_congr fun i => and_congr_right fun _ => eq_comm

theorem pageBlocks_length (page k : Nat) : (pageBlocks page k).length = blocksPerPage k := by
  unfold pageBlocks
  rw [List.length_map, List.length_range]

theorem pageBlocks_nodup (hk : k < 8) : (pageBlocks page k).Nodup := by
  have hpos := (blockSize_facts hk).1
  apply List.nodup_range.map
  intro i j he
  have hmul : i * blockSize k = j * blockSize k := Nat.add_left_cancel he
  exact Nat.eq_of_mul_eq_mul_right (by omega) hmul

theorem blocks_length {F : List Nat} (hn : F.Nodup) (hb : ∀ b ∈ F, IsBlock page k b) :
    F.length ≤ blocksPerPage k ∧
      (F.length = blocksPerPage k → ∀ b, IsBlock page k b → b ∈ F) := by
  have hsub : F.Subperm (pageBlocks page k) :=
    hn.subperm fun b hm => mem_pageBlocks.2 (hb b hm)
  constructor
  · rw [← pageBlocks_length page k]
    exact hsub.length_le
  · intro hlen b hblock
    have hperm := hsub.perm_of_length_le (by rw [hlen, pageBlocks_length])
    exact hperm.mem_iff.2 (mem_pageBlocks.2 hblock)

/-- The first free block of a page. -/
def PageRef.first (ref : PageRef) : Option Nat :=
  if ref.freelistOffset = invalidOffset then none else some (ref.pageaddr + ref.freelistOffset)

/-- A page of the heap: its free list is in its free blocks, and the other blocks are in use. -/
structure PageOk (ref : PageRef) (mem : Nat → Nat) (live : Nat → Option HeapBlock) (F : List Nat) :
    Prop where
  type : ref.blocktype < 8
  chain : Chain (link mem) ref.first F
  nodup : F.Nodup
  count : ref.nfree = F.length
  block : ∀ b ∈ F, IsBlock ref.pageaddr ref.blocktype b
  free : ∀ b ∈ F, live b = none
  used : ∀ b, IsBlock ref.pageaddr ref.blocktype b → b ∉ F → ∃ sz, live b = some ⟨sz, blockSize ref.blocktype⟩

/-- The lists of the heap and its pages. -/
structure HeapPages (refs : Nat → PageRef) (all : Lists Unit Nat) (sized : Lists Nat Nat)
    (mem : Nat → Nat) (live : Nat → Option HeapBlock) (v : HeapView) : Prop where
  all : all.Rep fun _ => v.all
  sized : sized.Rep v.sized
  typed : ∀ k pr, pr ∈ v.sized k ↔ pr ∈ v.all ∧ (refs pr).blocktype = k
  page : ∀ pr ∈ v.all, PageOk (refs pr) mem live (v.free pr)

/-- Who has a run of pages: a page of the heap, a page of pagerefs, a block of whole pages, or a
thread, for its new page, for the page of pagerefs that it brings, or to give it back. -/
inductive HeapOwner (n : Nat) where
  | page (pr : Nat)
  | refs (r : Nat)
  | big (p : Nat)
  | thread (t : Fin n)
  | spare (t : Fin n)
  | given (t : Fin n)
  deriving DecidableEq

/-- The owners of single pages. -/
def HeapOwner.Single : HeapOwner n → Prop
  | .big _ => False
  | .given _ => False
  | _ => True

namespace HeapPc

def page : HeapPc → Option Nat
  | .hasPage _ _ a => some a
  | .noRef a => some a
  | .wantRefs _ _ a _ _ => some a
  | .hasRefs _ _ a _ _ _ => some a
  | .dropRefs _ _ a _ _ _ => some a
  | .retake _ _ a _ _ => some a
  | _ => none

def spare : HeapPc → Option Nat
  | .hasRefs _ _ _ _ _ va => some va
  | .dropRefs _ _ _ _ _ va => some va
  | _ => none

def given : HeapPc → Option Nat
  | .freePage a => some a
  | _ => none

/-- The size that a thread in `kmalloc` asks for. -/
def asked : HeapPc → Option Nat
  | .wantBig sz _ => some sz
  | .wantPage sz _ => some sz
  | .hasPage sz _ _ => some sz
  | .wantRefs sz _ _ _ _ => some sz
  | .hasRefs sz _ _ _ _ _ => some sz
  | .dropRefs sz _ _ _ _ _ => some sz
  | .retake sz _ _ _ _ => some sz
  | _ => none

/-- The run that a thread gives back when it goes on. -/
def returns : HeapPc → Option Nat
  | .noRef a => some a
  | .dropRefs _ _ _ _ _ va => some va
  | .freePage a => some a
  | _ => none

/-- The pageref that a thread has marked. -/
def slot : HeapPc → Option (Nat × Nat)
  | .wantRefs _ _ _ r j => some (r, j)
  | .hasRefs _ _ _ r j _ => some (r, j)
  | .dropRefs _ _ _ r j _ => some (r, j)
  | .retake _ _ _ r j => some (r, j)
  | _ => none

/-- The local variables of a thread. -/
def Ok (roots : Nat → KheapRoot) : HeapPc → Prop
  | .wantBig sz m => sz ≤ m * pageSize ∧ 0 < m
  | .wantPage sz k => k < 8 ∧ sz ≤ blockSize k
  | .hasPage sz k _ => k < 8 ∧ sz ≤ blockSize k
  | .wantRefs sz k _ _ _ => k < 8 ∧ sz ≤ blockSize k
  | .hasRefs sz k _ _ _ _ => k < 8 ∧ sz ≤ blockSize k
  | .dropRefs sz k _ r _ _ => k < 8 ∧ sz ≤ blockSize k ∧ (roots r).page ≠ none
  | .retake sz k _ r _ => k < 8 ∧ sz ≤ blockSize k ∧ (roots r).page ≠ none
  | _ => True

end HeapPc

/-- The run of a block of whole pages. -/
def bigRun (live : Nat → Option HeapBlock) (p : Nat) : Option Nat :=
  match live p with
  | some b => if pageSize ≤ b.size then some p else none
  | none => none

/-- The owners of a marked pageref: the heap, for a page on its lists, or a thread. -/
inductive RefOwner (n : Nat) where
  | page (pr : Nat)
  | thread (t : Fin n)
  deriving DecidableEq

namespace KernelHeap

/-- The run that an owner has. -/
def place (s : KernelHeap n) (v : HeapView) : HeapOwner n → Option Nat
  | .page pr => if pr ∈ v.all then some (s.refs pr).pageaddr else none
  | .refs r => if r < numPagerefpages then (s.roots r).page else none
  | .big p => bigRun s.live p
  | .thread t => (s.pc t).page
  | .spare t => (s.pc t).spare
  | .given t => (s.pc t).given

/-- The place of the pageref that an owner has. -/
def slots (s : KernelHeap n) (v : HeapView) : RefOwner n → Option (Nat × Nat)
  | .page pr => if pr ∈ v.all then some (v.slot pr) else none
  | .thread t => (s.pc t).slot

end KernelHeap

/-- The runs of pages are apart from each other, and each has one owner. -/
structure HeapRuns (runs : Nat → Option Nat) (place : HeapOwner n → Option Nat) : Prop where
  bounds : ∀ a m, runs a = some m → a % pageSize = 0 ∧ 0 < a ∧ a + m * pageSize < 4294967296
  pos : ∀ a m, runs a = some m → 0 < m
  apart : ∀ a b m k, runs a = some m → runs b = some k → a ≠ b →
    a + m * pageSize ≤ b ∨ b + k * pageSize ≤ a
  owned : Exact place fun a => (runs a).isSome = true
  single : ∀ o a, o.Single → place o = some a → runs a = some 1

namespace HeapRuns
variable {place place' : HeapOwner n → Option Nat} {runs : Nat → Option Nat}

theorem move (h : HeapRuns runs place) (ho : place o = some a) (hq : place q = none)
    (hs : q.Single → runs a = some 1)
    (hp : ∀ x, place' x = if x = o then none else if x = q then some a else place x) :
    HeapRuns runs place' where
  bounds := h.bounds
  pos := h.pos
  apart := h.apart
  owned := h.owned.move ho hq hp
  single x b hx hb := by
    rw [hp] at hb
    split at hb
    · cases hb
    · split at hb
      · subst x
        cases hb
        exact hs hx
      · exact h.single x b hx hb

theorem alloc (h : HeapRuns runs place) (ho : place o = none) (hm : 0 < m)
    (hbounds : a % pageSize = 0 ∧ 0 < a ∧ a + m * pageSize < 4294967296)
    (hfresh : ∀ b k, runs b = some k → a + m * pageSize ≤ b ∨ b + k * pageSize ≤ a)
    (hs : o.Single → m = 1) (hp : ∀ x, place' x = if x = o then some a else place x) :
    HeapRuns (Function.update runs a (some m)) place' := by
  have hfree : runs a = none := by
    cases hra : runs a with
    | none => rfl
    | some k =>
      have hap := hfresh a k hra
      have hk := h.pos a k hra
      unfold pageSize at hap
      omega
  constructor
  · intro b k hb
    by_cases hba : b = a
    · subst hba
      rw [Function.update_self] at hb
      cases hb
      exact hbounds
    · rw [Function.update_of_ne hba] at hb
      exact h.bounds b k hb
  · intro b k hb
    by_cases hba : b = a
    · subst hba
      rw [Function.update_self] at hb
      cases hb
      exact hm
    · rw [Function.update_of_ne hba] at hb
      exact h.pos b k hb
  · intro b c i k hb hc hne
    by_cases hba : b = a
    · subst hba
      rw [Function.update_self] at hb
      rw [Function.update_of_ne hne.symm] at hc
      cases hb
      exact hfresh c k hc
    · rw [Function.update_of_ne hba] at hb
      by_cases hca : c = a
      · subst hca
        rw [Function.update_self] at hc
        cases hc
        exact (hfresh b i hb).symm
      · rw [Function.update_of_ne hca] at hc
        exact h.apart b c i k hb hc hne
  · apply h.owned.alloc ho _ hp
    · intro b
      by_cases hba : b = a
      · subst hba
        simp
      · simp [hba]
    · rw [hfree]
      nofun
  · intro x b hx hb
    rw [hp] at hb
    split at hb
    · subst x
      cases hb
      rw [Function.update_self, hs hx]
    · have hrun := h.single x b hx hb
      have hba : b ≠ a := by
        intro he
        rw [he, hfree] at hrun
        cases hrun
      rw [Function.update_of_ne hba]
      exact hrun

theorem free (h : HeapRuns runs place) (ho : place o = some a)
    (hp : ∀ x, place' x = if x = o then none else place x) :
    HeapRuns (Function.update runs a none) place' := by
  have hold : ∀ b k, Function.update runs a none b = some k → b ≠ a ∧ runs b = some k := by
    intro b k hb
    by_cases hba : b = a
    · rw [hba, Function.update_self] at hb
      cases hb
    · rw [Function.update_of_ne hba] at hb
      exact ⟨hba, hb⟩
  constructor
  · exact fun b k hb => h.bounds b k (hold b k hb).2
  · exact fun b k hb => h.pos b k (hold b k hb).2
  · exact fun b c i k hb hc => h.apart b c i k (hold b i hb).2 (hold c k hc).2
  · apply h.owned.free ho hp
    intro b
    by_cases hba : b = a
    · subst hba
      simp
    · simp [hba]
  · intro x b hx hb
    rw [hp] at hb
    split at hb
    · cases hb
    · rename_i hxo
      rw [Function.update_of_ne (h.owned.ne hb ho hxo)]
      exact h.single x b hx hb

end HeapRuns

/-- The pagerefs that a root has marked. -/
def KheapRoot.marks (root : KheapRoot) : Finset Nat := (Finset.range 256).filter fun j => root.marked j = true

/-- Exactly the pagerefs with an owner are marked, and a root is only used when those before it
have been full. -/
structure HeapMarks (roots : Nat → KheapRoot) (slots : RefOwner n → Option (Nat × Nat)) : Prop where
  owned : Exact slots fun x => x.1 < numPagerefpages ∧ x.2 ∈ (roots x.1).marks
  count : ∀ r < numPagerefpages, (roots r).numinuse = (roots r).marks.card
  order : ∀ r r', r < r' → r' < numPagerefpages → (roots r).page = none → (roots r').numinuse = 0

/-- What holds whenever nobody has the lock. -/
structure KernelHeap.Inv (s : KernelHeap n) (v : HeapView) : Prop where
  pages : HeapPages s.refs s.all s.sized s.mem s.live v
  runs : HeapRuns s.runs (s.place v)
  marks : HeapMarks s.roots (s.slots v)
  located : ∀ pr ∈ v.all, ∃ page, (s.roots (v.slot pr).1).page = some page ∧
    pr = KernelHeap.refAddr page (v.slot pr).2
  blocks : ∀ p b, s.live p = some b → b.sz ≤ b.size ∧
    ((∃ pr ∈ v.all, IsBlock (s.refs pr).pageaddr (s.refs pr).blocktype p ∧
      b.size = blockSize (s.refs pr).blocktype) ∨
    ∃ m, s.runs p = some m ∧ 0 < m ∧ b.size = m * pageSize)
  threads : ∀ t, (s.pc t).Ok s.roots

/-- Every page of the heap has a block in use. -/
def KernelHeap.Busy (s : KernelHeap n) (v : HeapView) : Prop :=
  ∀ pr ∈ v.all, (v.free pr).length < blocksPerPage (s.refs pr).blocktype

end Clape
