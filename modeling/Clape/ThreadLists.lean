import Mathlib.Data.List.InsertIdx
import Mathlib.Data.Option.Basic
import Clape.DoublyLinked

namespace Clape
set_option autoImplicit true

/-- The `threadlistnode`s: the two ends of every list, and the node in every thread. -/
inductive Node (κ τ : Type) where
  | head (l : κ) | tail (l : κ) | thread (t : τ)
  deriving DecidableEq

/-- `tln_self` -/
def Node.self : Node κ τ → Option τ
  | .head _ | .tail _ => none
  | .thread t => some t

/-- The thread lists, with `tln_next`, `tln_prev` and `tl_count`. -/
structure ThreadLists (κ τ : Type) extends Links (Node κ τ) where
  count : κ → Nat

namespace ThreadLists

section Code
variable [DecidableEq κ] [DecidableEq τ]

def setNext (s : ThreadLists κ τ) (n : Node κ τ) (v : Option (Node κ τ)) : ThreadLists κ τ :=
  { s with next := Function.update s.next n v }

def setPrev (s : ThreadLists κ τ) (n : Node κ τ) (v : Option (Node κ τ)) : ThreadLists κ τ :=
  { s with prev := Function.update s.prev n v }

def setCount (s : ThreadLists κ τ) (l : κ) (c : Nat) : ThreadLists κ τ :=
  { s with count := Function.update s.count l c }

/-- `threadlistnode_init` for every thread and `threadlist_init` for every list. -/
def init : ThreadLists κ τ where
  next
    | .head l => some (.tail l)
    | .tail _ | .thread _ => none
  prev
    | .tail l => some (.head l)
    | .head _ | .thread _ => none
  count _ := 0

def isempty (s : ThreadLists κ τ) (l : κ) : Bool := s.count l == 0

/-- There is no result where a `DEBUGASSERT` fails or a `NULL` pointer is followed. -/
def insertafternode (s : ThreadLists κ τ) (onlist : Node κ τ) (t : τ) : Option (ThreadLists κ τ) := do
  let addee : Node κ τ := .thread t
  guard (s.prev addee = none)
  guard (s.next addee = none)
  let s := s.setPrev addee (some onlist)
  let s := s.setNext addee (s.next onlist)
  let p ← s.prev addee
  let s := s.setNext p (some addee)
  let n ← s.next addee
  return s.setPrev n (some addee)

def insertbeforenode (s : ThreadLists κ τ) (t : τ) (onlist : Node κ τ) : Option (ThreadLists κ τ) := do
  let addee : Node κ τ := .thread t
  guard (s.prev addee = none)
  guard (s.next addee = none)
  let s := s.setPrev addee (s.prev onlist)
  let s := s.setNext addee (some onlist)
  let p ← s.prev addee
  let s := s.setNext p (some addee)
  let n ← s.next addee
  return s.setPrev n (some addee)

def removenode (s : ThreadLists κ τ) (tln : Node κ τ) : Option (ThreadLists κ τ) := do
  guard (s.prev tln ≠ none)
  guard (s.next tln ≠ none)
  let p ← s.prev tln
  let s := s.setNext p (s.next tln)
  let n ← s.next tln
  let s := s.setPrev n (s.prev tln)
  let s := s.setPrev tln none
  return s.setNext tln none

def addhead (s : ThreadLists κ τ) (l : κ) (t : τ) : Option (ThreadLists κ τ) := do
  let s ← s.insertafternode (.head l) t
  return s.setCount l (s.count l + 1)

def addtail (s : ThreadLists κ τ) (l : κ) (t : τ) : Option (ThreadLists κ τ) := do
  let s ← s.insertbeforenode t (.tail l)
  return s.setCount l (s.count l + 1)

def decrement (s : ThreadLists κ τ) (l : κ) : Option (ThreadLists κ τ) := do
  guard (0 < s.count l)
  return s.setCount l (s.count l - 1)

def remhead (s : ThreadLists κ τ) (l : κ) : Option (Option τ × ThreadLists κ τ) := do
  let tln ← s.next (.head l)
  if s.next tln = none then return (none, s)
  else
    let s ← s.removenode tln
    let s ← s.decrement l
    return (tln.self, s)

def remtail (s : ThreadLists κ τ) (l : κ) : Option (Option τ × ThreadLists κ τ) := do
  let tln ← s.prev (.tail l)
  if s.prev tln = none then return (none, s)
  else
    let s ← s.removenode tln
    let s ← s.decrement l
    return (tln.self, s)

def insertafter (s : ThreadLists κ τ) (l : κ) (onlist addee : τ) : Option (ThreadLists κ τ) := do
  let s ← s.insertafternode (.thread onlist) addee
  return s.setCount l (s.count l + 1)

def insertbefore (s : ThreadLists κ τ) (l : κ) (addee onlist : τ) : Option (ThreadLists κ τ) := do
  let s ← s.insertbeforenode addee (.thread onlist)
  return s.setCount l (s.count l + 1)

def remove (s : ThreadLists κ τ) (l : κ) (t : τ) : Option (ThreadLists κ τ) := do
  let s ← s.removenode (.thread t)
  s.decrement l

/-- The calls of `threadlist.h` that change a list. -/
inductive Op (κ τ : Type) where
  | addhead (l : κ) (t : τ) | addtail (l : κ) (t : τ) | remhead (l : κ) | remtail (l : κ)
  | insertafter (l : κ) (onlist addee : τ) | insertbefore (l : κ) (addee onlist : τ) | remove (l : κ) (t : τ)

namespace Op

/-- The call, with the thread that it returns. -/
def run (s : ThreadLists κ τ) : Op κ τ → Option (Option τ × ThreadLists κ τ)
  | addhead l t => (s.addhead l t).map fun s => (none, s)
  | addtail l t => (s.addtail l t).map fun s => (none, s)
  | remhead l => s.remhead l
  | remtail l => s.remtail l
  | insertafter l onlist addee => (s.insertafter l onlist addee).map fun s => (none, s)
  | insertbefore l addee onlist => (s.insertbefore l addee onlist).map fun s => (none, s)
  | remove l t => (s.remove l t).map fun s => (none, s)

def list : Op κ τ → κ
  | addhead l _ | addtail l _ | remhead l | remtail l | insertafter l _ _ | insertbefore l _ _ | remove l _ => l

/-- What the call is for, on the sequence that the list stands for. -/
def change (M : List τ) : Op κ τ → Option τ × List τ
  | addhead _ t => (none, t :: M)
  | addtail _ t => (none, M ++ [t])
  | remhead _ => (M.head?, M.tail)
  | remtail _ => (M.getLast?, M.dropLast)
  | insertafter _ onlist addee => (none, M.insertIdx (M.idxOf onlist + 1) addee)
  | insertbefore _ addee onlist => (none, M.insertIdx (M.idxOf onlist) addee)
  | remove _ t => (none, M.erase t)

def act (L : κ → List τ) (o : Op κ τ) : Option τ × (κ → List τ) :=
  ((o.change (L o.list)).1, Function.update L o.list (o.change (L o.list)).2)

/-- Threads are added that are on no list, and named as a place or removed where they are. -/
def Allowed (L : κ → List τ) : Op κ τ → Prop
  | addhead _ t | addtail _ t => ∀ k, t ∉ L k
  | remhead _ | remtail _ => True
  | insertafter l onlist addee | insertbefore l addee onlist => onlist ∈ L l ∧ ∀ k, addee ∉ L k
  | remove l t => t ∈ L l

end Op
end Code

/-- The nodes of a list that stands for a sequence, from one end to the other. -/
def nodes (l : κ) (M : List τ) : List (Node κ τ) := .head l :: (M.map .thread ++ [.tail l])

/-- No thread is on two lists, or on one twice. -/
structure Separate (L : κ → List τ) : Prop where
  nodup : ∀ l, (L l).Nodup
  apart : ∀ k l t, t ∈ L k → t ∈ L l → k = l

/-- The lists stand for sequences of threads. -/
structure Rep (s : ThreadLists κ τ) (L : κ → List τ) : Prop extends Separate L where
  linked : ∀ l, s.Linked (nodes l (L l))
  first : ∀ l, s.prev (.head l) = none
  last : ∀ l, s.next (.tail l) = none
  off : ∀ t, (∀ l, t ∉ L l) → s.next (.thread t) = none ∧ s.prev (.thread t) = none
  count : ∀ l, s.count l = (L l).length

/-- The nodes and the counts of the other lists stay as they are. -/
structure Untouched (s s' : ThreadLists κ τ) (L : κ → List τ) (l : κ) : Prop where
  next : ∀ k ≠ l, ∀ x ∈ nodes k (L k), s'.next x = s.next x
  prev : ∀ k ≠ l, ∀ x ∈ nodes k (L k), s'.prev x = s.prev x
  count : ∀ k ≠ l, s'.count k = s.count k

theorem Untouched.refl (s : ThreadLists κ τ) (L : κ → List τ) (l : κ) : Untouched s s L l :=
  ⟨fun _ _ _ _ => rfl, fun _ _ _ _ => rfl, fun _ _ => rfl⟩

theorem mem_nodes : x ∈ nodes l M ↔ x = .head l ∨ x = .tail l ∨ ∃ t ∈ M, x = .thread t := by
  simp only [nodes, List.mem_cons, List.mem_append, List.mem_map, List.not_mem_nil, or_false]
  constructor
  · rintro (h | ⟨t, ht, rfl⟩ | h)
    · exact .inl h
    · exact .inr (.inr ⟨t, ht, rfl⟩)
    · exact .inr (.inl h)
  · rintro (h | h | ⟨t, ht, rfl⟩)
    · exact .inl h
    · exact .inr (.inr h)
    · exact .inr (.inl ⟨t, ht, rfl⟩)

theorem thread_mem_nodes : .thread t ∈ nodes l M ↔ t ∈ M := by
  rw [mem_nodes]
  constructor
  · rintro (h | h | ⟨u, hu, h⟩)
    · cases h
    · cases h
    · cases h
      exact hu
  · intro h
    exact .inr (.inr ⟨t, h, rfl⟩)

theorem nodes_nodup {M : List τ} (l : κ) (h : M.Nodup) : (nodes l M).Nodup := by
  have hthreads : (M.map (@Node.thread κ τ)).Nodup := h.map fun t u he => Node.thread.inj he
  have htail : (M.map Node.thread ++ [Node.tail l]).Nodup := by
    rw [List.nodup_append]
    refine ⟨hthreads, List.nodup_singleton _, ?_⟩
    intro a ha b hb
    obtain ⟨t, -, rfl⟩ := List.mem_map.1 ha
    rw [List.mem_singleton.1 hb]
    exact nofun
  apply List.nodup_cons.2 ⟨?_, htail⟩
  simp

theorem Rep.nodes_apart {s : ThreadLists κ τ} (h : Rep s L) (hk : x ∈ nodes k (L k)) (hl : x ∈ nodes l (L l)) :
    k = l := by
  rw [mem_nodes] at hk
  rcases hk with rfl | rfl | ⟨t, ht, rfl⟩
  · rcases mem_nodes.1 hl with he | he | ⟨u, -, he⟩
    · exact Node.head.inj he
    · cases he
    · cases he
  · rcases mem_nodes.1 hl with he | he | ⟨u, -, he⟩
    · cases he
    · exact Node.tail.inj he
    · cases he
  · exact h.apart k l t ht (thread_mem_nodes.1 hl)

theorem Rep.other {s : ThreadLists κ τ} (h : Rep s L) (hk : k ≠ l) (hx : x ∈ nodes k (L k))
    (hy : y ∈ nodes l (L l)) : x ≠ y := by
  intro he
  subst he
  exact hk (h.nodes_apart hx hy)

/-- The two chains of every list are its sequence, one in each direction. -/
structure Chains (s : ThreadLists κ τ) (L : κ → List τ) (l : κ) : Prop where
  forward : (nodes l (L l)).IsChain fun a b => s.next a = some b
  backward : (nodes l (L l)).reverse.IsChain fun a b => s.prev a = some b
  first : s.prev (.head l) = none
  last : s.next (.tail l) = none
  nodup : (L l).Nodup
  count : s.count l = (L l).length

theorem Rep.chains {s : ThreadLists κ τ} (h : Rep s L) (l : κ) : Chains s L l :=
  ⟨(h.linked l).forward, (h.linked l).backward, h.first l, h.last l, h.nodup l, h.count l⟩

theorem init_rep [DecidableEq κ] [DecidableEq τ] : Rep (init : ThreadLists κ τ) fun _ => [] where
  nodup _ := List.nodup_nil
  apart _ _ _ h := absurd h List.not_mem_nil
  linked _ := List.isChain_pair.2 ⟨rfl, rfl⟩
  first _ := rfl
  last _ := rfl
  off _ _ := ⟨rfl, rfl⟩
  count _ := rfl

/-- The nodes on both sides of a place in a list. -/
structure Between (l : κ) (A B : List τ) (p n : Node κ τ) : Prop where
  left : ∃ N, .head l :: A.map .thread = N ++ [p]
  right : ∃ N, B.map .thread ++ [.tail l] = n :: N

theorem Between.nodes (h : Between l A B p n) :
    ∃ M N, nodes l (A ++ B) = M ++ p :: n :: N ∧ ∀ t, ThreadLists.nodes l (A ++ t :: B) = M ++ p :: .thread t :: n :: N := by
  obtain ⟨M, hM⟩ := h.left
  obtain ⟨N, hN⟩ := h.right
  refine ⟨M, N, ?_, ?_⟩
  · rw [ThreadLists.nodes, List.map_append, List.append_assoc, hN, ← List.cons_append, hM, List.append_assoc]
    rfl
  · intro t
    rw [ThreadLists.nodes, List.map_append, List.append_assoc, List.map_cons, List.cons_append, hN,
      ← List.cons_append, hM, List.append_assoc]
    rfl

theorem Between.left_mem (h : Between l A B p n) : p ∈ ThreadLists.nodes l (A ++ B) := by
  obtain ⟨M, N, he, -⟩ := h.nodes
  rw [he]
  simp

theorem Between.right_mem (h : Between l A B p n) : n ∈ ThreadLists.nodes l (A ++ B) := by
  obtain ⟨M, N, he, -⟩ := h.nodes
  rw [he]
  simp

theorem Between.left_ne_tail (h : Between l A B p n) : p ≠ .tail k := by
  obtain ⟨M, hM⟩ := h.left
  have hp : p ∈ Node.head l :: A.map .thread := by
    rw [hM]
    simp
  intro he
  subst he
  simp at hp

theorem Between.right_ne_head (h : Between l A B p n) : n ≠ .head k := by
  obtain ⟨M, hM⟩ := h.right
  have hn : n ∈ B.map .thread ++ [.tail l] := by
    rw [hM]
    simp
  intro he
  subst he
  simp at hn

theorem between_exists (l : κ) (A B : List τ) : ∃ p n, Between l A B p n := by
  obtain ⟨M, p, hM⟩ := (List.eq_nil_or_concat (Node.head l :: A.map .thread)).resolve_left (List.cons_ne_nil _ _)
  rw [List.concat_eq_append] at hM
  cases hB : B.map .thread ++ [Node.tail l] with
  | nil => exact absurd hB (by simp)
  | cons n N => exact ⟨p, n, ⟨M, hM⟩, ⟨N, hB⟩⟩

section Steps
variable [DecidableEq κ] {s : ThreadLists κ τ} {L : κ → List τ}

theorem insertIdx_middle (A B : List τ) (t : τ) : (A ++ B).insertIdx A.length t = A ++ t :: B := by
  induction A with
  | nil => rfl
  | cons a A ih => exact congrArg (a :: ·) ih

theorem mem_put (he : L l = A ++ B) : x ∈ Function.update L l (A ++ t :: B) k ↔ k = l ∧ x = t ∨ x ∈ L k := by
  by_cases hk : k = l
  · subst hk
    rw [Function.update_self, List.mem_append, List.mem_cons, he, List.mem_append]
    tauto
  · rw [Function.update_of_ne hk]
    tauto

theorem Separate.mem_take (h : Separate L) (he : L l = A ++ t :: B) :
    x ∈ Function.update L l (A ++ B) k ↔ x ∈ L k ∧ x ≠ t := by
  have hperm : (L l).Perm (t :: (A ++ B)) := he ▸ List.perm_middle
  have ht : t ∉ A ++ B := (List.nodup_cons.1 (hperm.nodup_iff.1 (h.nodup l))).1
  by_cases hk : k = l
  · subst hk
    rw [Function.update_self, hperm.mem_iff, List.mem_cons]
    constructor
    · intro hx
      exact ⟨.inr hx, fun hxt => ht (hxt ▸ hx)⟩
    · intro hx
      exact hx.1.resolve_left hx.2
  · rw [Function.update_of_ne hk]
    refine ⟨fun hx => ⟨hx, ?_⟩, And.left⟩
    intro hxt
    subst hxt
    exact hk (h.apart k l x hx (hperm.mem_iff.2 List.mem_cons_self))

theorem Separate.put (h : Separate L) (he : L l = A ++ B) (ht : ∀ k, t ∉ L k) :
    Separate (Function.update L l (A ++ t :: B)) := by
  constructor
  · intro k
    by_cases hk : k = l
    · subst hk
      rw [Function.update_self, List.perm_middle.nodup_iff, ← he]
      exact List.nodup_cons.2 ⟨ht k, h.nodup k⟩
    · rw [Function.update_of_ne hk]
      exact h.nodup k
  · intro k k' x hk hk'
    rw [mem_put he] at hk hk'
    rcases hk with ⟨hk, rfl⟩ | hk
    · rcases hk' with ⟨hk', -⟩ | hk'
      · rw [hk, hk']
      · exact absurd hk' (ht k')
    · rcases hk' with ⟨-, rfl⟩ | hk'
      · exact absurd hk (ht k)
      · exact h.apart k k' x hk hk'

theorem Separate.take (h : Separate L) (he : L l = A ++ t :: B) : Separate (Function.update L l (A ++ B)) := by
  constructor
  · intro k
    by_cases hk : k = l
    · subst hk
      have hnodup := h.nodup k
      rw [he, List.perm_middle.nodup_iff] at hnodup
      rw [Function.update_self]
      exact (List.nodup_cons.1 hnodup).2
    · rw [Function.update_of_ne hk]
      exact h.nodup k
  · intro k k' x hk hk'
    exact h.apart k k' x ((h.mem_take he).1 hk).1 ((h.mem_take he).1 hk').1

theorem decrement_eq (h : 0 < s.count l) : s.decrement l = some (s.setCount l (s.count l - 1)) := by
  unfold decrement
  simp [h]

variable [DecidableEq τ]

/-- A thread is put between two nodes of a list. -/
def put (s : ThreadLists κ τ) (l : κ) (p : Node κ τ) (t : τ) (n : Node κ τ) : ThreadLists κ τ where
  toLinks := s.splice p (.thread t) n
  count := Function.update s.count l (s.count l + 1)

/-- A thread is taken from between two nodes of a list. -/
def take (s : ThreadLists κ τ) (l : κ) (p : Node κ τ) (t : τ) (n : Node κ τ) : ThreadLists κ τ where
  toLinks := s.unsplice p (.thread t) n
  count := Function.update s.count l (s.count l - 1)

theorem insertafternode_eq (h : s.Joined p n) (hoff : s.next (.thread t) = none ∧ s.prev (.thread t) = none)
    (hp : p ≠ .thread t) :
    s.insertafternode p t = some { s with toLinks := s.splice p (.thread t) n } := by
  unfold insertafternode setPrev setNext Links.splice
  simp [hoff.1, hoff.2, h.1, hp.symm]

theorem insertbeforenode_eq (h : s.Joined p n) (hoff : s.next (.thread t) = none ∧ s.prev (.thread t) = none)
    (hp : p ≠ .thread t) :
    s.insertbeforenode t n = some { s with toLinks := s.splice p (.thread t) n } := by
  unfold insertbeforenode setPrev setNext Links.splice
  simp [hoff.1, hoff.2, h.2, hp.symm]

theorem removenode_eq (hp : s.Joined p c) (hn : s.Joined c n) (hpc : p ≠ c) :
    s.removenode c = some { s with toLinks := s.unsplice p c n } := by
  unfold removenode setPrev setNext Links.unsplice
  simp [hp.2, hn.1, hpc.symm]

theorem Rep.put (h : Rep s L) (he : L l = A ++ B) (ht : ∀ k, t ∉ L k) (hpn : Between l A B p n) :
    Rep (s.put l p t n) (Function.update L l (A ++ t :: B)) ∧ Untouched s (s.put l p t n) L l ∧
      s.Joined p n ∧ p ≠ .thread t := by
  obtain ⟨M, N, hold, hnew⟩ := hpn.nodes
  have hl := h.linked l
  have hd := nodes_nodup l (h.nodup l)
  have hfresh : ∀ k, ∀ x ∈ nodes k (L k), x ≠ .thread t := by
    intro k x hx hxt
    subst hxt
    exact ht k (thread_mem_nodes.1 hx)
  have htl := fun hmem => hfresh l (.thread t) hmem rfl
  have hp := hpn.left_mem
  have hn := hpn.right_mem
  rw [← he] at hp hn
  rw [he, hold] at hl hd htl
  have hjoined := hl.split.2.1
  have huntouched : Untouched s (s.put l p t n) L l := by
    refine ⟨?_, ?_, ?_⟩
    · intro k hk x hx
      exact Links.splice_next_of_ne (h.other hk hx hp) (hfresh k x hx)
    · intro k hk x hx
      exact Links.splice_prev_of_ne (h.other hk hx hn) (hfresh k x hx)
    · intro k hk
      exact Function.update_of_ne hk ..
  refine ⟨⟨h.toSeparate.put he ht, ?_, ?_, ?_, ?_, ?_⟩, huntouched, hjoined, hfresh l p (he.symm ▸ hpn.left_mem)⟩
  · intro k
    by_cases hk : k = l
    · subst hk
      rw [Function.update_self, hnew]
      exact hl.splice hd htl
    · rw [Function.update_of_ne hk]
      apply (h.linked k).congr
      intro a ha b hb hab
      exact hab.splice hjoined (hfresh k a ha) (hfresh k b hb) (h.other hk hb hn)
  · intro k
    have hkt : Node.head k ≠ .thread t := nofun
    exact (Links.splice_prev_of_ne hpn.right_ne_head.symm hkt).trans (h.first k)
  · intro k
    have hkt : Node.tail k ≠ .thread t := nofun
    exact (Links.splice_next_of_ne hpn.left_ne_tail.symm hkt).trans (h.last k)
  · intro x hx
    simp only [mem_put he, not_or] at hx
    have hxt : @Node.thread κ τ x ≠ .thread t := fun hxt => (hx l).1 ⟨rfl, Node.thread.inj hxt⟩
    have hoff := h.off x fun k => (hx k).2
    have hxl : Node.thread x ∉ nodes l (L l) := fun hmem => (hx l).2 (thread_mem_nodes.1 hmem)
    constructor
    · exact (Links.splice_next_of_ne (ne_of_mem_of_not_mem hp hxl).symm hxt).trans hoff.1
    · exact (Links.splice_prev_of_ne (ne_of_mem_of_not_mem hn hxl).symm hxt).trans hoff.2
  · intro k
    by_cases hk : k = l
    · subst hk
      rw [Function.update_self, List.perm_middle.length_eq, List.length_cons, ← he, ← h.count k]
      exact Function.update_self ..
    · rw [Function.update_of_ne hk, ← h.count k]
      exact Function.update_of_ne hk ..

theorem Rep.take (h : Rep s L) (he : L l = A ++ t :: B) (hpn : Between l A B p n) :
    Rep (s.take l p t n) (Function.update L l (A ++ B)) ∧ Untouched s (s.take l p t n) L l ∧
      s.Joined p (.thread t) ∧ s.Joined (.thread t) n ∧ p ≠ .thread t := by
  obtain ⟨M, N, hnew, hold⟩ := hpn.nodes
  have hl := h.linked l
  have hd := nodes_nodup l (h.nodup l)
  have hp : p ∈ nodes l (L l) := by
    rw [he, hold]
    simp
  have hn : n ∈ nodes l (L l) := by
    rw [he, hold]
    simp
  have ht : Node.thread t ∈ nodes l (L l) := by
    rw [he, hold]
    simp
  rw [he, hold] at hl hd
  obtain ⟨-, hjp, hjn⟩ := hl.split
  have hjn := (List.isChain_cons_cons.1 hjn).1
  have hpt : p ≠ .thread t := by
    have hnotin := (List.nodup_cons.1 hd.of_append_right).1
    intro hpt
    exact hnotin (hpt ▸ List.mem_cons_self)
  have huntouched : Untouched s (s.take l p t n) L l := by
    refine ⟨?_, ?_, ?_⟩
    · intro k hk x hx
      exact Links.unsplice_next_of_ne (h.other hk hx hp) (h.other hk hx ht)
    · intro k hk x hx
      exact Links.unsplice_prev_of_ne (h.other hk hx hn) (h.other hk hx ht)
    · intro k hk
      exact Function.update_of_ne hk ..
  refine ⟨⟨h.toSeparate.take he, ?_, ?_, ?_, ?_, ?_⟩, huntouched, hjp, hjn, hpt⟩
  · intro k
    by_cases hk : k = l
    · subst hk
      rw [Function.update_self, hnew]
      exact hl.unsplice hd
    · rw [Function.update_of_ne hk]
      apply (h.linked k).congr
      intro a ha b hb hab
      exact hab.unsplice hjp hjn (h.other hk ha ht) (h.other hk hb ht)
  · intro k
    have hkt : Node.head k ≠ .thread t := nofun
    exact (Links.unsplice_prev_of_ne hpn.right_ne_head.symm hkt).trans (h.first k)
  · intro k
    have hkt : Node.tail k ≠ .thread t := nofun
    exact (Links.unsplice_next_of_ne hpn.left_ne_tail.symm hkt).trans (h.last k)
  · intro x hx
    by_cases hxt : x = t
    · subst hxt
      exact ⟨Links.unsplice_next_self _, Links.unsplice_prev_self _⟩
    · have hxL : ∀ k, x ∉ L k := fun k hk => hx k ((h.toSeparate.mem_take he).2 ⟨hk, hxt⟩)
      have hxl : Node.thread x ∉ nodes l (L l) := fun hmem => hxL l (thread_mem_nodes.1 hmem)
      have hxt' : @Node.thread κ τ x ≠ .thread t := fun hxt' => hxt (Node.thread.inj hxt')
      have hoff := h.off x hxL
      constructor
      · exact (Links.unsplice_next_of_ne (ne_of_mem_of_not_mem hp hxl).symm hxt').trans hoff.1
      · exact (Links.unsplice_prev_of_ne (ne_of_mem_of_not_mem hn hxl).symm hxt').trans hoff.2
  · intro k
    by_cases hk : k = l
    · subst hk
      have hcount := h.count k
      rw [he, List.perm_middle.length_eq, List.length_cons] at hcount
      rw [Function.update_self]
      show Function.update s.count k (s.count k - 1) k = _
      rw [Function.update_self, hcount, Nat.add_sub_cancel]
    · rw [Function.update_of_ne hk, ← h.count k]
      exact Function.update_of_ne hk ..

theorem Rep.addhead (h : Rep s L) (ht : ∀ k, t ∉ L k) :
    ∃ s', s.addhead l t = some s' ∧ Rep s' (Function.update L l (t :: L l)) ∧ Untouched s s' L l := by
  obtain ⟨p, n, hb⟩ := between_exists l [] (L l)
  obtain ⟨hrep, huntouched, hjoined, hp⟩ := h.put (A := []) rfl ht ⟨⟨[], rfl⟩, hb.right⟩
  refine ⟨_, ?_, hrep, huntouched⟩
  unfold ThreadLists.addhead
  rw [insertafternode_eq hjoined (h.off t ht) hp]
  rfl

theorem Rep.addtail (h : Rep s L) (ht : ∀ k, t ∉ L k) :
    ∃ s', s.addtail l t = some s' ∧ Rep s' (Function.update L l (L l ++ [t])) ∧ Untouched s s' L l := by
  obtain ⟨p, n, hb⟩ := between_exists l (L l) []
  obtain ⟨hrep, huntouched, hjoined, hp⟩ := h.put (B := []) (List.append_nil _).symm ht ⟨hb.left, ⟨[], rfl⟩⟩
  refine ⟨_, ?_, hrep, huntouched⟩
  unfold ThreadLists.addtail
  rw [insertbeforenode_eq hjoined (h.off t ht) hp]
  rfl

theorem Rep.insertafter (h : Rep s L) (he : L l = A ++ onlist :: B) (ht : ∀ k, t ∉ L k) :
    ∃ s', s.insertafter l onlist t = some s' ∧ Rep s' (Function.update L l (A ++ onlist :: t :: B)) ∧
      Untouched s s' L l := by
  rw [List.append_cons] at he
  rw [List.append_cons]
  obtain ⟨p, n, hb⟩ := between_exists l (A ++ [onlist]) B
  have hleft : ∃ N, Node.head l :: (A ++ [onlist]).map .thread = N ++ [.thread onlist] :=
    ⟨.head l :: A.map .thread, by rw [List.map_append]; rfl⟩
  obtain ⟨hrep, huntouched, hjoined, hp⟩ := h.put he ht ⟨hleft, hb.right⟩
  refine ⟨_, ?_, hrep, huntouched⟩
  unfold ThreadLists.insertafter
  rw [insertafternode_eq hjoined (h.off t ht) hp]
  rfl

theorem Rep.insertbefore (h : Rep s L) (he : L l = A ++ onlist :: B) (ht : ∀ k, t ∉ L k) :
    ∃ s', s.insertbefore l t onlist = some s' ∧ Rep s' (Function.update L l (A ++ t :: onlist :: B)) ∧
      Untouched s s' L l := by
  obtain ⟨p, n, hb⟩ := between_exists l A (onlist :: B)
  obtain ⟨hrep, huntouched, hjoined, hp⟩ := h.put he ht ⟨hb.left, ⟨_, rfl⟩⟩
  refine ⟨_, ?_, hrep, huntouched⟩
  unfold ThreadLists.insertbefore
  rw [insertbeforenode_eq hjoined (h.off t ht) hp]
  rfl

theorem Rep.removenode (h : Rep s L) (he : L l = A ++ t :: B) (hpn : Between l A B p n) :
    (s.removenode (.thread t) >>= fun s => s.decrement l) = some (s.take l p t n) := by
  obtain ⟨-, -, hjp, hjn, hp⟩ := h.take he hpn
  have hcount : 0 < s.count l := by
    rw [h.count l, he, List.perm_middle.length_eq]
    exact Nat.succ_pos _
  rw [removenode_eq hjp hjn hp]
  exact decrement_eq hcount

theorem Rep.remove (h : Rep s L) (he : L l = A ++ t :: B) :
    ∃ s', s.remove l t = some s' ∧ Rep s' (Function.update L l (A ++ B)) ∧ Untouched s s' L l := by
  obtain ⟨p, n, hpn⟩ := between_exists l A B
  obtain ⟨hrep, huntouched, -⟩ := h.take he hpn
  exact ⟨_, h.removenode he hpn, hrep, huntouched⟩

/-- An end of the list finds its neighbour there, and the neighbour is removed unless it is the other
end. -/
theorem Rep.remend (h : Rep s L) (he : L l = A ++ t :: B) (hpn : Between l A B p n) :
    (s.removenode (.thread t) >>= fun s => s.decrement l >>= fun s => pure (Node.self (.thread t : Node κ τ), s)) =
      some (some t, s.take l p t n) := by
  have hremove := h.removenode he hpn
  rw [← bind_assoc, hremove]
  rfl

theorem Rep.remhead (h : Rep s L) :
    ∃ s', s.remhead l = some ((L l).head?, s') ∧ Rep s' (Function.update L l (L l).tail) ∧ Untouched s s' L l := by
  have hl := h.linked l
  unfold ThreadLists.remhead
  cases hL : L l with
  | nil =>
    rw [hL] at hl
    refine ⟨s, ?_, ?_, .refl s L l⟩
    · rw [(List.isChain_pair.1 hl).1]
      show (if _ then _ else _) = _
      rw [if_pos (h.last l)]
      rfl
    · rw [List.tail_nil, ← hL, Function.update_eq_self]
      exact h
  | cons t B =>
    obtain ⟨p, n, hb⟩ := between_exists l [] B
    have hpn : Between l [] B (.head l) n := ⟨⟨[], rfl⟩, hb.right⟩
    obtain ⟨hrep, huntouched, hjp, hjn, -⟩ := h.take (A := []) hL hpn
    refine ⟨_, ?_, hrep, huntouched⟩
    rw [hjp.1]
    show (if _ then _ else _) = _
    rw [hjn.1, if_neg nofun]
    exact h.remend (A := []) hL hpn

theorem Rep.remtail (h : Rep s L) :
    ∃ s', s.remtail l = some ((L l).getLast?, s') ∧ Rep s' (Function.update L l (L l).dropLast) ∧
      Untouched s s' L l := by
  have hl := h.linked l
  unfold ThreadLists.remtail
  rcases List.eq_nil_or_concat (L l) with hL | ⟨A, t, hL⟩
  · rw [hL] at hl
    rw [hL]
    refine ⟨s, ?_, ?_, .refl s L l⟩
    · rw [(List.isChain_pair.1 hl).2]
      show (if _ then _ else _) = _
      rw [if_pos (h.first l)]
      rfl
    · rw [List.dropLast_nil, ← hL, Function.update_eq_self]
      exact h
  · rw [List.concat_eq_append] at hL
    obtain ⟨p, n, hb⟩ := between_exists l A []
    have hpn : Between l A [] p (.tail l) := ⟨hb.left, ⟨[], rfl⟩⟩
    obtain ⟨hrep, huntouched, hjp, hjn, -⟩ := h.take (B := []) hL hpn
    rw [hL, List.getLast?_concat, List.dropLast_concat]
    rw [List.append_nil] at hrep
    refine ⟨_, ?_, hrep, huntouched⟩
    rw [hjn.2]
    show (if _ then _ else _) = _
    rw [hjp.2, if_neg nofun]
    exact h.remend (B := []) hL hpn

theorem idxOf_middle {A : List τ} (h : a ∉ A) (B : List τ) : (A ++ a :: B).idxOf a = A.length := by
  rw [List.idxOf_append_of_notMem h, List.idxOf_cons_self, Nat.add_zero]

/-- Every call acts on the sequences as the operation that it is for. -/
theorem Rep.run {o : Op κ τ} (h : Rep s L) (ha : o.Allowed L) :
    ∃ s', o.run s = some ((o.act L).1, s') ∧ Rep s' (o.act L).2 ∧ Untouched s s' L o.list := by
  cases o with
  | addhead l t =>
    obtain ⟨s', hs', hrep, hu⟩ := h.addhead (l := l) ha
    refine ⟨s', ?_, hrep, hu⟩
    rw [Op.run, hs']
    rfl
  | addtail l t =>
    obtain ⟨s', hs', hrep, hu⟩ := h.addtail (l := l) ha
    refine ⟨s', ?_, hrep, hu⟩
    rw [Op.run, hs']
    rfl
  | remhead l => exact h.remhead
  | remtail l => exact h.remtail
  | insertafter l onlist addee =>
    obtain ⟨A, B, hL, hA⟩ := List.eq_append_cons_of_mem ha.1
    obtain ⟨s', hs', hrep, hu⟩ := h.insertafter hL ha.2
    have hchange : (L l).insertIdx ((L l).idxOf onlist + 1) addee = A ++ onlist :: addee :: B := by
      have hmiddle := insertIdx_middle (A ++ [onlist]) B addee
      rw [List.length_append, ← List.append_cons, ← List.append_cons] at hmiddle
      rw [hL, idxOf_middle hA]
      exact hmiddle
    rw [← hchange] at hrep
    refine ⟨s', ?_, hrep, hu⟩
    rw [Op.run, hs']
    rfl
  | insertbefore l addee onlist =>
    obtain ⟨A, B, hL, hA⟩ := List.eq_append_cons_of_mem ha.1
    obtain ⟨s', hs', hrep, hu⟩ := h.insertbefore hL ha.2
    have hchange : (L l).insertIdx ((L l).idxOf onlist) addee = A ++ addee :: onlist :: B := by
      rw [hL, idxOf_middle hA]
      exact insertIdx_middle A (onlist :: B) addee
    rw [← hchange] at hrep
    refine ⟨s', ?_, hrep, hu⟩
    rw [Op.run, hs']
    rfl
  | remove l t =>
    obtain ⟨A, B, hL, hA⟩ := List.eq_append_cons_of_mem ha
    obtain ⟨s', hs', hrep, hu⟩ := h.remove hL
    have hchange : (L l).erase t = A ++ B := by
      rw [hL, List.erase_append_right _ hA, List.erase_cons_head]
    rw [← hchange] at hrep
    refine ⟨s', ?_, hrep, hu⟩
    rw [Op.run, hs']
    rfl

/-- The states that allowed calls lead to, with the sequences that the operations make. -/
inductive Reached : ThreadLists κ τ → (κ → List τ) → Prop where
  | init : Reached init fun _ => []
  | step {s s' : ThreadLists κ τ} {L : κ → List τ} {o : Op κ τ} {r : Option τ} (h : Reached s L) (ha : o.Allowed L)
    (hr : o.run s = some (r, s')) : Reached s' (o.act L).2

theorem Reached.rep (h : Reached s L) : Rep s L := by
  induction h with
  | init => exact init_rep
  | step h ha hr ih =>
    obtain ⟨s', hs', hrep, -⟩ := ih.run ha
    rw [hs'] at hr
    cases hr
    exact hrep

/-- A call runs, returns and changes what its operation does, and nothing else. -/
structure Acts (s : ThreadLists κ τ) (L : κ → List τ) (o : Op κ τ) (s' : ThreadLists κ τ) : Prop where
  run : o.run s = some ((o.act L).1, s')
  chains : ∀ l, Chains s' (o.act L).2 l
  removed : ∀ t ∈ L o.list, t ∉ (o.act L).2 o.list → s'.next (.thread t) = none ∧ s'.prev (.thread t) = none
  untouched : Untouched s s' L o.list

/-- The thread lists refine sequences. -/
theorem threadlists_refine (h : Reached s L) :
    (∀ l, Chains s L l) ∧ ∀ o : Op κ τ, o.Allowed L → ∃ s', Acts s L o s' := by
  have hrep := h.rep
  refine ⟨hrep.chains, ?_⟩
  intro o ha
  obtain ⟨s', hs', hrep', hu⟩ := hrep.run ha
  refine ⟨s', hs', hrep'.chains, ?_, hu⟩
  intro t ht hnot
  apply hrep'.off t
  intro k hk
  have hsame : k = o.list := by
    by_contra hne
    have hk' : t ∈ Function.update L o.list (o.change (L o.list)).2 k := hk
    rw [Function.update_of_ne hne] at hk'
    exact hne (hrep.apart k o.list t hk' ht)
  exact hnot (hsame ▸ hk)

/-- The sequences after a thread is put on a list and another one behind it. -/
def twoThreads : Bool → List Nat :=
  (Op.act (Op.act (fun _ => []) (.addhead true 7)).2 (.insertafter true 7 9)).2

theorem threadlists_refine_two : ∃ s : ThreadLists Bool Nat, twoThreads true = [7, 9] ∧ Chains s twoThreads true ∧
    ∃ s', Acts s twoThreads (.remtail true) s' := by
  have hone : Reached _ _ :=
    .step (o := .addhead true 7) (.init : Reached (init : ThreadLists Bool Nat) fun _ => []) (fun _ => List.not_mem_nil) rfl
  have htwo : Reached _ twoThreads :=
    .step (o := .insertafter true 7 9) hone ⟨List.mem_singleton_self 7, by decide⟩ rfl
  exact ⟨_, rfl, (threadlists_refine htwo).1 true, (threadlists_refine htwo).2 (.remtail true) trivial⟩

end Steps
end ThreadLists
end Clape
