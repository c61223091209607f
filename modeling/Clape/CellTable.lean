import Clape.Moves
import Clape.SwapCells

namespace Clape
set_option autoImplicit true

/-- How far a thread is that needs a cell whose store may be under way: before its next
test of the flag, asleep on the condition variable, or past the loop. -/
inductive Phase where
  | test | asleep | ready
  deriving DecidableEq, Repr

/-- What the thread of a process does to the cells of the swap file. A loading process holds
a cell that is on no list; a freeing one walks one of its own lists; a copying one walks its
lists, with a cell of the child once it has taken one. -/
inductive Errand where
  | gone
  | idle
  | storing (c : Nat)
  | loading (v c : Nat) (ph : Phase)
  | freeing (sg : Segment) (e : Option Nat) (ph : Phase)
  | copying (child : Nat) (sg : Segment) (e : Option Nat)
  | copyingTo (child : Nat) (sg : Segment) (c f : Nat) (ph : Phase)
  deriving DecidableEq, Repr

def WaitFor.errand (c : Nat) (ph : Phase) : WaitFor → Errand
  | .load v _ => .loading v c ph
  | .exit sg => .freeing sg (some c) ph
  | .copy child sg f => .copyingTo child sg c f ph

def Pc.errand : Pc → Errand
  | .none | .zombie => .gone
  | .storing _ _ c => .storing c
  | .cell k c => k.errand c .test
  | .cellWait k c woken => k.errand c (if woken then .test else .asleep)
  | .reading v _ c => .loading v c .ready
  | .removeSwap sg e => .freeing sg e .test
  | .copySwap child sg e => .copying child sg e
  | .copyReading child sg c f | .copyWriting child sg c f => .copyingTo child sg c f .ready
  | _ => .idle

namespace Errand

/-- The list that an exiting process walks, and where it stands. -/
def walk : Errand → Option (Segment × Option Nat)
  | .freeing sg e _ => some (sg, e)
  | _ => none

/-- The process may still get cells. -/
def alive : Errand → Bool
  | .gone | .freeing _ _ _ => false
  | _ => true

/-- The cell the thread waits for. -/
def waits : Errand → Option (Nat × Phase)
  | .loading _ c ph | .freeing _ (some c) ph | .copyingTo _ _ c _ ph => some (c, ph)
  | _ => none

/-- What at most one thread can have: the store of a cell, a cell that is on no list, the
copy of a cell. -/
inductive Claim where
  | store (c : Nat)
  | hold (c : Nat)
  | copy
  deriving DecidableEq, Repr

def claim : Errand → Option Claim
  | .storing c => some (.store c)
  | .loading _ c _ => some (.hold c)
  | .copyingTo _ _ _ _ _ => some .copy
  | _ => none

/-- The cell that gets a copy, and the process it is for. -/
def target : Errand → Option (Nat × Nat)
  | .copyingTo child _ _ f _ => some (child, f)
  | _ => none

/-- The page a process loads and the cell it has taken for it. -/
def load : Errand → Option (Nat × Nat)
  | .loading v c _ => some (v, c)
  | _ => none

def setPhase (ph : Phase) : Errand → Errand
  | .loading v c _ => .loading v c ph
  | .freeing sg (some c) _ => .freeing sg (some c) ph
  | .copyingTo child sg c f _ => .copyingTo child sg c f ph
  | e => e

/-- The effect of a broadcast on the condition variable of a cell. -/
def wake (c : Nat) (e : Errand) : Errand :=
  if e.waits = some (c, .asleep) then e.setPhase .test else e

end Errand

/-- The swap file, and what the processes do to it. `home` tells in which lists the cells for
an address of a process may be. -/
structure Cells where
  lists : Lists SwapList Nat
  vaddr : Nat → Nat
  store : Nat → Bool
  lock : Nat → Option Nat
  size : Nat
  errand : Nat → Errand
  home : Nat → Nat → Segment → Prop
  cur : Nat

/-- The list in which a process looks for an address, if `K`, and else any list. -/
def Sys.home (s : Sys) (K : Prop) (q v : Nat) (sg : Segment) : Prop :=
  K → (s.as q).bind (fun A => A.loadSeg v) = some sg

def Sys.cells (s : Sys) (K : Prop := True) : Cells where
  lists := s.swap.lists
  vaddr := s.swap.vaddr
  store := s.swap.store
  lock := s.swap.lock
  size := s.swap.size
  errand q := (s.pc q).errand
  home := s.home K
  cur := s.cur

def Cells.go (t : Cells) (e : Errand) : Cells :=
  { t with errand := Function.update t.errand t.cur e }

/-- The cell is to get a copy and has no address of its own yet. -/
def Cells.Target (t : Cells) (f : Nat) : Prop := ∃ q child, (t.errand q).target = some (child, f)

/-- No copy for the process is under way. -/
def Cells.Uncopied (t : Cells) (r : Nat) : Prop := ∀ q f, (t.errand q).target ≠ some (r, f)

/-- The lists with those that are being walked starting where the walk stands. -/
def Lists.seen (l : Lists SwapList Nat) (W : Nat → Option (Segment × Option Nat)) :
    Lists SwapList Nat where
  head
    | .free => l.head .free
    | .seg sg q =>
      match W q with
      | some (sg', e) => if sg = sg' then e else l.head (.seg sg q)
      | none => l.head (.seg sg q)
  next := l.next

/-- The lists as the exiting processes leave them. -/
def Cells.view (t : Cells) : Lists SwapList Nat := t.lists.seen fun q => (t.errand q).walk

/-- What can happen to the cells. The label is the cell whose page changes, if there is one,
with the process and the address of the new page. -/
inductive CellMove (t : Cells) : Option (Nat × Option (Nat × Nat)) → Cells → Prop where
  | same : CellMove t none t
  | turn (q : Nat) : CellMove t none { t with cur := q }
  | file : t.errand t.cur = .idle → t.lists.head .free = some c → t.store c = false →
      (t.errand p).alive = true → t.home p v sg →
      CellMove t (some (c, some (p, v))) ({ t with
        lists := (t.lists.behead .free c).push (.seg sg p) c
        vaddr := Function.update t.vaddr c v
        store := Function.update t.store c true }.go (.storing c))
  | written : t.errand t.cur = .storing c →
      CellMove t none ({ t with
        store := Function.update t.store c false
        errand := fun q => (t.errand q).wake c }.go .idle)
  | find : t.errand t.cur = .idle → t.Uncopied t.cur →
      t.lists.search (fun c => t.vaddr c == v) t.size none (t.lists.head (.seg sg t.cur)) =
        .found prev c →
      CellMove t none ({ t with
        lists := t.lists.unlink (.seg sg t.cur) prev c }.go (.loading v c .test))
  | sleep : (t.errand t.cur).waits = some (c, .test) → t.store c = true →
      CellMove t none (t.go ((t.errand t.cur).setPhase .asleep))
  | ready : (t.errand t.cur).waits = some (c, .test) → t.store c = false →
      CellMove t none (t.go ((t.errand t.cur).setPhase .ready))
  | give : t.errand t.cur = .loading v c .ready →
      CellMove t (some (c, none)) ({ t with
        lists := t.lists.push .free c
        vaddr := Function.update t.vaddr c 0 }.go .idle)
  | leave : t.errand t.cur = .idle → t.Uncopied t.cur →
      CellMove t none (t.go (.freeing .text (t.lists.head (.seg .text t.cur)) .test))
  | release : t.errand t.cur = .freeing sg (some c) .test → t.store c = false →
      CellMove t (some (c, none)) ({ t with
        lists := t.lists.push .free c }.go (.freeing sg (t.lists.next c) .test))
  | clear : t.errand t.cur = .freeing sg none ph → sg.next = some sg' →
      CellMove t none ({ t with lists := t.lists.clear (.seg sg t.cur) }.go
        (.freeing sg' (t.lists.head (.seg sg' t.cur)) .test))
  | die : t.errand t.cur = .freeing sg none ph → sg.next = none →
      CellMove t none ({ t with lists := t.lists.clear (.seg sg t.cur) }.go .gone)
  | fork : t.errand t.cur = .idle → t.errand child = .gone →
      CellMove t none ({ t with
        errand := Function.update t.errand child .idle
        home := Function.update t.home child (t.home t.cur) }.go
          (.copying child .text (t.lists.head (.seg .text t.cur))))
  | copyTake : t.errand t.cur = .copying child sg (some c) → t.lists.head .free = some f →
      t.store f = false → (t.errand child).alive = true → (∀ q, (t.errand q).target = none) →
      CellMove t none ({ t with
        lists := (t.lists.behead .free f).push (.seg sg child) f }.go
          (.copyingTo child sg c f .test))
  | copyEnd : t.errand t.cur = .copyingTo child sg c f .ready → t.Uncopied t.cur →
      t.home child = t.home t.cur →
      CellMove t (some (f, some (child, t.vaddr c))) ({ t with
        vaddr := Function.update t.vaddr f (t.vaddr c) }.go (.copying child sg (t.lists.next c)))
  | copyNext : t.errand t.cur = .copying child sg none → sg.next = some sg' →
      CellMove t none (t.go (.copying child sg' (t.lists.head (.seg sg' t.cur))))
  | copyDone : t.errand t.cur = .copying child sg none → sg.next = none →
      CellMove t none (t.go .idle)
  | spawn : t.errand q = .gone →
      CellMove t none { t with
        errand := Function.update t.errand q .idle
        home := Function.update t.home q h }
  | exec : t.errand t.cur = .idle → t.Uncopied t.cur → (∀ v sg, ¬ t.home t.cur v sg) →
      CellMove t none { t with home := Function.update t.home t.cur h }
  | reap : t.errand q = .gone → CellMove t none { t with home := Function.update t.home q h }

end Clape
