import Clape.IntrusiveLists
import Clape.Machine

namespace Clape
set_option autoImplicit true

/-- The lists of swap cells: `swap->free` and one list per segment and process. -/
inductive SwapList where
  | free
  | seg (sg : Segment) (p : Nat)
  deriving DecidableEq, Repr

/-- `struct swapfile` and its cells; `lock c` is the holder of the `cell_lock` of cell `c`. -/
structure SwapFile where
  lists : Lists SwapList Nat
  vaddr : Nat → Nat
  store : Nat → Bool
  offset : Nat → Nat
  lock : Nat → Option Nat
  size : Nat

namespace SwapFile

/-- The loop of `swap_init`: the cells are inserted from the last to the first. -/
def initLists (size : Nat) : Lists SwapList Nat :=
  (List.range size).foldr (fun c l => l.push .free c) ⟨fun _ => none, fun _ => none⟩

/-- `swap_init`; the addresses of the new cells are what the memory held. -/
def init (size : Nat) (ram : Nat → Nat) : SwapFile :=
  ⟨initLists size, ram, fun _ => false, fun c => c * pageSize, fun _ => none, size⟩

def lockAcquire (w : SwapFile) (q c : Nat) (f : Fn) : Except Fault SwapFile :=
  if w.lock c = none then .ok { w with lock := Function.update w.lock c (some q) }
  else .error (.contended f)

def lockRelease (w : SwapFile) (c : Nat) : SwapFile :=
  { w with lock := Function.update w.lock c none }

/-- `store_swap` links its cell into the list of each segment whose test accepts the address. -/
def link (l : Lists SwapList Nat) (segs : List Segment) (p c : Nat) : Lists SwapList Nat :=
  segs.foldl (fun l sg => l.push (.seg sg p) c) l

/-- `store_swap` up to `VOP_WRITE`, with the cell it takes. -/
def storeBegin (w : SwapFile) (as : Option AddrSpace) (v p : Nat) :
    Except Fault (SwapFile × Nat) :=
  match w.lists.head .free with
  | none => .error (.swapFull .storeSwap)
  | some c => do
    kassert (!w.store c) .storeSwap .store
    match as with
    | none => .error (.nullAddrspace .storeSwap)
    | some as =>
      if as.storeSegs v = [] then .error (.panic .storeSwap)
      else
        return ({ w with
          lists := link (w.lists.behead .free c) (as.storeSegs v) p c
          vaddr := Function.update w.vaddr c v
          store := Function.update w.store c true }, c)

/-- `store_swap` after `VOP_WRITE`; the broadcast is made while `cell_lock` is held. -/
def storeEnd (w : SwapFile) (q c : Nat) : Except Fault SwapFile := do
  let w₁ ← { w with store := Function.update w.store c false }.lockAcquire q c .storeSwap
  return w₁.lockRelease c

/-- One test of the loop that waits for the store of a cell to end: whether the thread has
to sleep on `cell_cv`, which releases the lock as the end of the loop does. -/
def testStore (w : SwapFile) (q c : Nat) (f : Fn) : Except Fault (SwapFile × Bool) := do
  let w₁ ← w.lockAcquire q c f
  return (w₁.lockRelease c, w₁.store c)

/-- `load_swap` up to the removal of the cell from its list. -/
def loadBegin (w : SwapFile) (as : AddrSpace) (v p : Nat) : Except Fault (SwapFile × Option Nat) :=
  match as.loadSeg v with
  | none => .error (.panic .loadSwap)
  | some sg =>
    match w.lists.search (fun c => w.vaddr c == v) w.size none (w.lists.head (.seg sg p)) with
    | .found prev c => .ok ({ w with lists := w.lists.unlink (.seg sg p) prev c }, some c)
    | .missing => .ok (w, none)
    | .endless => .error (.endless .loadSwap)

/-- `load_swap` after `VOP_READ`. -/
def loadEnd (w : SwapFile) (c : Nat) : SwapFile :=
  { w with lists := w.lists.push .free c, vaddr := Function.update w.vaddr c 0 }

/-- The cell `copy_swap_pages` takes for the copy of a cell. -/
def copyBegin (w : SwapFile) (sg : Segment) (new : Nat) : Except Fault (SwapFile × Nat) :=
  match w.lists.head .free with
  | none => .error (.swapFull .copySwapPages)
  | some f => do
    kassert (!w.store f) .copySwapPages .store
    return ({ w with lists := (w.lists.behead .free f).push (.seg sg new) f }, f)

def copyEnd (w : SwapFile) (c f : Nat) : SwapFile :=
  { w with vaddr := Function.update w.vaddr f (w.vaddr c) }

/-- One iteration of `remove_process_from_swap`; the head of the list is left as it is. -/
def freeCell (w : SwapFile) (c : Nat) : SwapFile := { w with lists := w.lists.push .free c }

def clearList (w : SwapFile) (sg : Segment) (p : Nat) : SwapFile :=
  { w with lists := w.lists.clear (.seg sg p) }

/-- The wait for a store when no other thread runs. -/
def waitStored (w : SwapFile) (q c : Nat) (f : Fn) : Except Fault SwapFile := do
  match ← w.testStore q c f with
  | (w₁, false) => return w₁
  | (_, true) => .error (.contended f)

/-- `store_swap` as a whole, called by process `q` for the page `v` of process `p`. -/
def storeSwap (w : SwapFile) (q : Nat) (as : AddrSpace) (v p : Nat) : Except Fault SwapFile := do
  let (w₁, c) ← w.storeBegin (some as) v p
  w₁.storeEnd q c

/-- `load_swap` as a whole; the result says whether the page was found. -/
def loadSwap (w : SwapFile) (as : AddrSpace) (v p : Nat) : Except Fault (SwapFile × Bool) := do
  match ← w.loadBegin as v p with
  | (w₁, none) => return (w₁, false)
  | (w₁, some c) =>
    let w₂ ← w₁.waitStored p c .loadSwap
    return (w₂.loadEnd c, true)

/-- The loop of `remove_process_from_swap` over one list. -/
def freeCells (w : SwapFile) (p : Nat) : Nat → Option Nat → Except Fault SwapFile
  | _, none => .ok w
  | 0, some _ => .error (.endless .removeProcessFromSwap)
  | k + 1, some c => do
    let w₁ ← w.waitStored p c .removeProcessFromSwap
    freeCells (w₁.freeCell c) p k (w₁.lists.next c)

def removeList (w : SwapFile) (p : Nat) (sg : Segment) : Except Fault SwapFile := do
  let w₁ ← w.freeCells p w.size (w.lists.head (.seg sg p))
  return w₁.clearList sg p

def removeProcessFromSwap (w : SwapFile) (p : Nat) : Except Fault SwapFile :=
  [Segment.text, .data, .stack].foldlM (fun w sg => w.removeList p sg) w

/-- The loop of `copy_swap_pages` over one list. -/
def copyCells (w : SwapFile) (new old : Nat) (sg : Segment) : Nat → Option Nat → Except Fault SwapFile
  | _, none => .ok w
  | 0, some _ => .error (.endless .copySwapPages)
  | k + 1, some c => do
    let (w₁, f) ← w.copyBegin sg new
    let w₂ ← w₁.waitStored old c .copySwapPages
    copyCells (w₂.copyEnd c f) new old sg k (w₂.lists.next c)

def copySwapPages (w : SwapFile) (new old : Nat) : Except Fault SwapFile :=
  [Segment.text, .data, .stack].foldlM
    (fun w sg => w.copyCells new old sg w.size (w.lists.head (.seg sg old))) w

end SwapFile

end Clape
