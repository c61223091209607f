import Clape.IntrusiveLists
import Clape.Machine

namespace Clape
set_option autoImplicit true

/-- The functions of kmalloc.c whose assertions and panics are modelled; `freeKpages` stops at a
run that is not allocated. -/
inductive HeapFn where
  | blocktype | subpageKmalloc | allocpagerefpage | allocpageref | freepageref | subpageKfree
  | removeLists | kmalloc | kfree | freeKpages
  deriving DecidableEq, Repr

inductive HeapStop where
  | kassert (f : HeapFn)
  | panic (f : HeapFn)
  | endless (f : HeapFn)
  deriving DecidableEq, Repr

def sizes : List Nat := [16, 32, 64, 128, 256, 512, 1024, 2048]

/-- The size of the blocks of a block type. -/
def blockSize (k : Nat) : Nat := sizes.getD k 0

def largestSubpageSize : Nat := 2048

/-- The number of blocks in a page. -/
def blocksPerPage (k : Nat) : Nat := pageSize / blockSize k

def npagerefsPerPage : Nat := 256

def numPagerefpages : Nat := 16

def totalPagerefs : Nat := numPagerefpages * npagerefsPerPage

def invalidOffset : Nat := 0xffff

/-- `struct pageref`, without its two links. -/
structure PageRef where
  pab : Nat
  freelistOffset : Nat
  nfree : Nat

/-- `PR_PAGEADDR`. -/
def PageRef.pageaddr (ref : PageRef) : Nat := ref.pab - ref.pab % pageSize

/-- `PR_BLOCKTYPE`. -/
def PageRef.blocktype (ref : PageRef) : Nat := ref.pab % pageSize

def mkPab (pa blk : Nat) : Nat := pa - pa % pageSize + blk % pageSize

/-- `struct kheap_root`. -/
structure KheapRoot where
  page : Option Nat
  inuse : Nat → BitVec 32
  numinuse : Nat

def KheapRoot.marked (root : KheapRoot) (j : Nat) : Bool := (root.inuse (j / 32)).getLsbD (j % 32)

def KheapRoot.mark (root : KheapRoot) (j : Nat) : KheapRoot :=
  { root with
    inuse := Function.update root.inuse (j / 32) (root.inuse (j / 32) ||| 1#32 <<< (j % 32))
    numinuse := root.numinuse + 1 }

def KheapRoot.unmark (root : KheapRoot) (j : Nat) : KheapRoot :=
  { root with
    inuse := Function.update root.inuse (j / 32) (root.inuse (j / 32) &&& ~~~ (1#32 <<< (j % 32)))
    numinuse := root.numinuse - 1 }

/-- The loops of `allocpageref` over the words and bits of one root. -/
def KheapRoot.search (root : KheapRoot) : Except HeapStop (Option Nat) :=
  match (List.range 8).find? fun i => root.inuse i != 0xffffffff#32 with
  | none => .ok none
  | some i =>
    match (List.range 32).find? fun j => !(root.inuse i).getLsbD j with
    | none => .error (.kassert .allocpageref)
    | some j => .ok (some (i * 32 + j))

/-- Where a thread is while it does not hold `kmalloc_spinlock`, with its local variables: `sz`
is the size asked for, `k` the block type, `a` the new page, `r` and `j` the place of the pageref
that it has marked, `va` the page for more pagerefs. -/
inductive HeapPc where
  | idle
  | wantBig (sz npages : Nat)
  | wantPage (sz k : Nat)
  | hasPage (sz k a : Nat)
  | noRef (a : Nat)
  | wantRefs (sz k a r j : Nat)
  | hasRefs (sz k a r j va : Nat)
  | dropRefs (sz k a r j va : Nat)
  | retake (sz k a r j : Nat)
  | freePage (a : Nat)
  deriving DecidableEq, Repr

/-- A block that `kmalloc` returned: the size asked for and the size set aside. -/
structure HeapBlock where
  sz : Nat
  size : Nat
  deriving DecidableEq, Repr

/-- The kernel heap with `n` threads: the data of kmalloc.c, the words of the memory, the runs of
pages that `alloc_kpages` has given out, and the blocks in use. -/
structure KernelHeap (n : Nat) where
  roots : Nat → KheapRoot
  refs : Nat → PageRef
  all : Lists Unit Nat
  sized : Lists Nat Nat
  mem : Nat → Nat
  runs : Nat → Option Nat
  live : Nat → Option HeapBlock
  pc : Fin n → HeapPc

/-- A pointer in memory; zero is `NULL`. -/
def link (mem : Nat → Nat) (a : Nat) : Option Nat := if mem a = 0 then none else some (mem a)

namespace KernelHeap
variable (s : KernelHeap n)

def kassert (b : Bool) (f : HeapFn) : Except HeapStop Unit :=
  if b then .ok () else .error (.kassert f)

def goto (t : Fin n) (pc : HeapPc) : KernelHeap n := { s with pc := Function.update s.pc t pc }

def blocktype (sz : Nat) : Except HeapStop Nat :=
  match sizes.findIdx? fun b => sz ≤ b with
  | some k => .ok k
  | none => .error (.panic .blocktype)

/-- The new `freelist_offset` of a page whose first free block is taken. -/
def nextOffset (page next nfree : Nat) : Except HeapStop Nat :=
  if next ≠ 0 then do
    kassert (0 < nfree) .subpageKmalloc
    kassert (u32Sub next page < pageSize) .subpageKmalloc
    return u32Sub next page
  else do
    kassert (nfree == 0) .subpageKmalloc
    return invalidOffset

/-- `subpage_kmalloc` from `doalloc` on. -/
def doalloc (t : Fin n) (sz pr : Nat) : Except HeapStop (KernelHeap n) := do
  let ref := s.refs pr
  kassert (ref.freelistOffset < pageSize) .subpageKmalloc
  let b := ref.pageaddr + ref.freelistOffset
  let nfree := (ref.nfree + 65535) % 65536
  let offset ← nextOffset ref.pageaddr (s.mem b) nfree
  return { s with
    refs := Function.update s.refs pr { ref with freelistOffset := offset, nfree := nfree }
    live := Function.update s.live b (some ⟨sz, blockSize ref.blocktype⟩)
    pc := Function.update s.pc t .idle }

/-- The loop that links the blocks of a new page, with the last value of `fl`. -/
def linkBlocks (mem : Nat → Nat) (a k : Nat) : Except HeapStop ((Nat → Nat) × Nat) :=
  (List.range' 1 (blocksPerPage k - 1)).foldlM (fun m i => do
    kassert (a + i * blockSize k != a + (i - 1) * blockSize k) .subpageKmalloc
    return (Function.update m.1 (a + i * blockSize k) (a + (i - 1) * blockSize k), a + i * blockSize k))
    (Function.update mem a 0, a)

/-- `subpage_kmalloc` once it has a page and a pageref for it. -/
def addPage (t : Fin n) (sz k a pr : Nat) : Except HeapStop (KernelHeap n) := do
  let m ← linkBlocks s.mem a k
  kassert (m.2 - a == (blocksPerPage k - 1) * blockSize k) .subpageKmalloc
  doalloc { s with
    mem := m.1
    refs := Function.update s.refs pr ⟨mkPab a k, m.2 - a, blocksPerPage k⟩
    sized := s.sized.push k pr
    all := s.all.push () pr } t sz pr

/-- The loop of `allocpageref` over the roots. -/
def seekRef : List Nat → Except HeapStop (Option (Nat × Nat))
  | [] => .ok none
  | r :: l =>
    if npagerefsPerPage ≤ (s.roots r).numinuse then seekRef l
    else do
      match ← (s.roots r).search with
      | none => seekRef l
      | some j => return some (r, j)

/-- The pageref number `j` of a page of them. -/
def refAddr (page j : Nat) : Nat := page + 16 * j

/-- `subpage_kmalloc` with a new page, up to the call of `alloc_kpages` in `allocpagerefpage` or to
its end. -/
def takePage (t : Fin n) (sz k a : Nat) : Except HeapStop (KernelHeap n) := do
  match ← s.seekRef (List.range numPagerefpages) with
  | none => return s.goto t (.noRef a)
  | some (r, j) =>
    let s' := { s with roots := Function.update s.roots r ((s.roots r).mark j) }
    match (s.roots r).page with
    | some pg => s'.addPage t sz k a (refAddr pg j)
    | none => return s'.goto t (.wantRefs sz k a r j)

/-- `allocpagerefpage` with its new page, and the rest of `subpage_kmalloc`. -/
def takeRefs (t : Fin n) (sz k a r j va : Nat) : Except HeapStop (KernelHeap n) := do
  kassert (va % pageSize == 0) .allocpagerefpage
  match (s.roots r).page with
  | some _ => return s.goto t (.dropRefs sz k a r j va)
  | none =>
    addPage { s with roots := Function.update s.roots r { s.roots r with page := some va } }
      t sz k a (refAddr va j)

/-- The end of `allocpagerefpage` after another thread was faster. -/
def retakeRefs (t : Fin n) (sz k a r j : Nat) : Except HeapStop (KernelHeap n) :=
  match (s.roots r).page with
  | none => .error (.kassert .allocpagerefpage)
  | some pg => s.addPage t sz k a (refAddr pg j)

def freeKpages (a : Nat) : Except HeapStop (KernelHeap n) :=
  match s.runs a with
  | none => .error (.kassert .freeKpages)
  | some _ => .ok { s with runs := Function.update s.runs a none }

/-- `kmalloc`, up to `alloc_kpages` or to its end. -/
def kmalloc (t : Fin n) (sz : Nat) : Except HeapStop (KernelHeap n) :=
  if largestSubpageSize ≤ sz then .ok (s.goto t (.wantBig sz ((sz + pageSize - 1) / pageSize)))
  else do
    let k ← blocktype sz
    -- the first page of the list with an error or with a free block
    match s.sized.search (fun pr => (s.refs pr).blocktype != k || 0 < (s.refs pr).nfree)
        totalPagerefs none (s.sized.head k) with
    | .found _ pr =>
      kassert ((s.refs pr).blocktype == k) .subpageKmalloc
      s.doalloc t sz pr
    | .missing => return s.goto t (.wantPage sz k)
    | .endless => .error (.endless .subpageKmalloc)

/-- The index that `freepageref` computes for a pageref in a page of them: a difference of
pointers, read as unsigned. -/
def refIndex (p page : Nat) : Nat := (toInt32 (u32Sub p page) / 16 % 4294967296).toNat

def freepageref (p : Nat) : List Nat → Except HeapStop (Nat → KheapRoot)
  | [] => .error (.kassert .freepageref)
  | r :: l =>
    match (s.roots r).page with
    | none => do
      kassert ((s.roots r).numinuse == 0) .freepageref
      freepageref p l
    | some page =>
      if refIndex p page < npagerefsPerPage then do
        kassert ((s.roots r).marked (refIndex p page)) .freepageref
        kassert (0 < (s.roots r).numinuse) .freepageref
        return Function.update s.roots r ((s.roots r).unmark (refIndex p page))
      else freepageref p l

/-- A loop of `remove_lists`. -/
def removeFrom [DecidableEq κ] (l : Lists κ Nat) (k : κ) (pr : Nat) : Except HeapStop (Lists κ Nat) :=
  match l.search (· == pr) totalPagerefs none (l.head k) with
  | .found prev c => .ok (l.unlink k prev c)
  | .missing => .ok l
  | .endless => .error (.endless .removeLists)

/-- `subpage_kfree` puts a block on the free list of its page. -/
def pushFree (p pr : Nat) : Except HeapStop (KernelHeap n) := do
  let ref := s.refs pr
  let offset := u32Sub p ref.pageaddr
  if pageSize ≤ offset ∨ offset % blockSize ref.blocktype ≠ 0 then .error (.panic .subpageKfree)
  else do
    let mem : Nat → Nat := fun x =>
      if p ≤ x ∧ x < p + blockSize ref.blocktype then 0xdeadbeef else s.mem x
    let next := if ref.freelistOffset = invalidOffset then 0 else ref.pageaddr + ref.freelistOffset
    kassert (p != next) .subpageKfree
    let nfree := (ref.nfree + 1) % 65536
    kassert (nfree ≤ blocksPerPage ref.blocktype) .subpageKfree
    return { s with
      mem := Function.update mem p next
      refs := Function.update s.refs pr { ref with freelistOffset := offset, nfree := nfree } }

/-- The end of `subpage_kfree`: a page of which every block is free is given back. -/
def dropPage (t : Fin n) (pr : Nat) : Except HeapStop (KernelHeap n) := do
  let ref := s.refs pr
  if ref.nfree = blocksPerPage ref.blocktype then do
    let sized ← removeFrom s.sized ref.blocktype pr
    let all ← removeFrom s.all () pr
    let roots ← s.freepageref pr (List.range numPagerefpages)
    return { s with sized := sized, all := all, roots := roots }.goto t (.freePage ref.pageaddr)
  else return s

/-- `kfree`, up to `free_kpages` or to its end. -/
def kfree (t : Fin n) (p : Nat) : Except HeapStop (KernelHeap n) :=
  if p = 0 then .ok s
  else
    let s' := { s with live := Function.update s.live p none }
    match s.all.search (fun pr => decide (sizes.length ≤ (s.refs pr).blocktype) ||
        (decide ((s.refs pr).pageaddr ≤ p) && decide (p < (s.refs pr).pageaddr + pageSize)))
        totalPagerefs none (s.all.head ()) with
    | .found _ pr => do
      kassert ((s.refs pr).blocktype < sizes.length) .subpageKfree
      (← s'.pushFree p pr).dropPage t pr
    | .missing => do
      kassert (p % pageSize == 0) .kfree
      return s'.goto t (.freePage p)
    | .endless => .error (.endless .subpageKfree)

end KernelHeap

/-- The steps of the threads, each with the lock held or without any use of it: `page` is the
return of `alloc_kpages`, `resume` goes on after it and after `free_kpages`. The users of the
blocks write to the memory. -/
inductive HeapAct (n : Nat) where
  | kmalloc (t : Fin n) (sz : Nat)
  | kfree (t : Fin n) (p : Nat)
  | page (t : Fin n) (a : Nat)
  | resume (t : Fin n)
  | write (mem : Nat → Nat)

namespace KernelHeap
variable (s : KernelHeap n)

/-- The return of `alloc_kpages`. -/
def gotPage (t : Fin n) (a : Nat) : Except HeapStop (KernelHeap n) :=
  match s.pc t with
  | .wantBig sz npages => do
    kassert (a % pageSize == 0) .kmalloc
    return { s with
      runs := Function.update s.runs a (some npages)
      live := Function.update s.live a (some ⟨sz, npages * pageSize⟩) }.goto t .idle
  | .wantPage sz k => do
    kassert (a % pageSize == 0) .subpageKmalloc
    return { s with runs := Function.update s.runs a (some 1) }.goto t (.hasPage sz k a)
  | .wantRefs sz k b r j =>
    return { s with runs := Function.update s.runs a (some 1) }.goto t (.hasRefs sz k b r j a)
  | _ => .ok s

def resume (t : Fin n) : Except HeapStop (KernelHeap n) :=
  match s.pc t with
  | .hasPage sz k a => s.takePage t sz k a
  | .noRef a => do return (← s.freeKpages a).goto t .idle
  | .hasRefs sz k a r j va => s.takeRefs t sz k a r j va
  | .dropRefs sz k a r j va => do return (← s.freeKpages va).goto t (.retake sz k a r j)
  | .retake sz k a r j => s.retakeRefs t sz k a r j
  | .freePage a => do return (← s.freeKpages a).goto t .idle
  | _ => .ok s

def exec : HeapAct n → Except HeapStop (KernelHeap n)
  | .kmalloc t sz => s.kmalloc t sz
  | .kfree t p => s.kfree t p
  | .page t a => s.gotPage t a
  | .resume t => s.resume t
  | .write mem => .ok { s with mem := mem }

/-- A run of pages of the direct-mapped segment that is apart from all that are given out. -/
def FreshRun (a m : Nat) : Prop :=
  a % pageSize = 0 ∧ 0 < a ∧ a + m * pageSize < 4294967296 ∧
    ∀ b k, s.runs b = some k → a + m * pageSize ≤ b ∨ b + k * pageSize ≤ a

/-- The address lies in a block in use. -/
def InLive (x : Nat) : Prop := ∃ p b, s.live p = some b ∧ p ≤ x ∧ x < p + b.size

/-- The address lies in a run of pages that is given out. -/
def InRun (x : Nat) : Prop := ∃ a m, s.runs a = some m ∧ a ≤ x ∧ x < a + m * pageSize

end KernelHeap

/-- The number of pages that a thread waits for. -/
def HeapPc.wants : HeapPc → Option Nat
  | .wantBig _ m => some m
  | .wantPage _ _ => some 1
  | .wantRefs .. => some 1
  | _ => none

/-- What the callers and `alloc_kpages` provide: a size that does not overflow, a block in use that
is freed once, fresh pages; and the users write to their blocks and to memory that is not given
out. -/
def HeapAct.Pre (s : KernelHeap n) : HeapAct n → Prop
  | .kmalloc t sz => s.pc t = .idle ∧ sz + pageSize - 1 < 4294967296
  | .kfree t p => s.pc t = .idle ∧ (p = 0 ∨ (s.live p).isSome = true)
  | .page t a => ∃ m, (s.pc t).wants = some m ∧ s.FreshRun a m
  | .resume _ => True
  | .write mem => ∀ x, s.InRun x → ¬ s.InLive x → mem x = s.mem x

def HeapStep (s : KernelHeap n) (act : HeapAct n) (s' : KernelHeap n) : Prop :=
  act.Pre s ∧ s.exec act = .ok s'

/-- The heap at the start, over any memory. -/
def KernelHeap.boot (n : Nat) (refs : Nat → PageRef) (mem : Nat → Nat) : KernelHeap n where
  roots := fun _ => ⟨none, fun _ => 0, 0⟩
  refs := refs
  all := ⟨fun _ => none, fun _ => none⟩
  sized := ⟨fun _ => none, fun _ => none⟩
  mem := mem
  runs := fun _ => none
  live := fun _ => none
  pc := fun _ => .idle

end Clape
