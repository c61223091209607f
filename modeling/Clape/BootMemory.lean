import Clape.KernelHeapRuns

namespace Clape
set_option autoImplicit true

/-- The ways in which the boot stops: a stop of kmalloc.c, a second acquisition of `stealmem_lock`
by its holder, the assertion of `alloc_kpages` on the zero that `ram_stealmem` returns, and the
panics of `pt_init` on a `NULL`. -/
inductive BootStop where
  | heap (e : HeapStop)
  | deadlock
  | allocKpages
  | ptInit
  deriving DecidableEq, Repr

/-- The stops for want of memory. -/
def BootStop.short : BootStop → Bool
  | .allocKpages => true
  | .ptInit => true
  | _ => false

/-- The kernel before `pt_active` is set: its heap, the size of the RAM that the bus reports, the
variables of ram.c, whether `stealmem_lock` is held, and the pages that `ram_stealmem` has handed
out, each run with its length. -/
structure Boot (n : Nat) where
  heap : KernelHeap n
  ramsize : Nat
  firstpaddr : Nat
  lastpaddr : Nat
  held : Bool
  stolen : List (Nat × Nat)

def mainbusRamsize (ramsize : Nat) : Nat :=
  if 508 * 1024 * 1024 < ramsize then 508 * 1024 * 1024 else ramsize

/-- `PADDR_TO_KVADDR`; `userStack` is also `MIPS_KSEG0`. -/
def paddrToKvaddr (p : Nat) : Nat := p + userStack

/-- The test of `ram_stealmem`. -/
def Boot.lacks (s : Boot n) (npages : Nat) : Bool :=
  decide (s.lastpaddr < u32 (s.firstpaddr + u32 (npages * pageSize)))

namespace Boot
variable (s : Boot n)

/-- `ram_bootstrap`, with the first free address that start.S has left. -/
def ramBootstrap (heap : KernelHeap n) (ramsize firstfree : Nat) : Boot n where
  heap := heap
  ramsize := ramsize
  firstpaddr := u32Sub firstfree userStack
  lastpaddr := if 512 * 1024 * 1024 < mainbusRamsize ramsize then 512 * 1024 * 1024
    else mainbusRamsize ramsize
  held := false
  stolen := []

def ramStealmem (npages : Nat) : Boot n × Nat :=
  if s.lacks npages then (s, 0)
  else ({ s with
    firstpaddr := u32 (s.firstpaddr + u32 (npages * pageSize))
    stolen := s.stolen ++ [(s.firstpaddr, npages)] }, s.firstpaddr)

def lift (x : Except HeapStop α) : Except BootStop α := x.mapError .heap

/-- `spinlock_acquire(&stealmem_lock)`. -/
def acquire : Except BootStop (Boot n) :=
  if s.held then .error .deadlock else .ok { s with held := true }

def release : Boot n := { s with held := false }

/-- `alloc_kpages` while `pt_active` is not set. -/
def allocKpages (npages : Nat) : Except BootStop (Boot n × Nat) := do
  let s ← s.acquire
  let (s, paddr) := s.ramStealmem npages
  let s := s.release
  if userStack < paddrToKvaddr paddr ∧ paddrToKvaddr paddr ≤ 0x9FFFFFFF then
    return (s, paddrToKvaddr paddr)
  else .error .allocKpages

/-- `free_kpages` while `pt_active` is not set: it takes the lock and keeps the page. -/
def freeKpages : Except BootStop (Boot n) := do
  let s ← s.acquire
  return s.release

/-- The first block of the list of a block type that is free. -/
def firstFree (h : KernelHeap n) (k : Nat) : Option Nat :=
  match h.sized.search (fun pr => (h.refs pr).blocktype != k || 0 < (h.refs pr).nfree)
      totalPagerefs none (h.sized.head k) with
  | .found _ pr => some ((h.refs pr).pageaddr + (h.refs pr).freelistOffset)
  | _ => none

/-- The last block of a page, which is the first on the free list of a new page. -/
def lastBlock (a k : Nat) : Nat := a + (blocksPerPage k - 1) * blockSize k

/-- The rest of `subpage_kmalloc` after its call of `alloc_kpages`. -/
def newPage (t : Fin n) (k a : Nat) : Except BootStop (Boot n × Option Nat) := do
  let h ← lift (s.heap.gotPage t a)
  let h ← lift (h.resume t)
  match h.pc t with
  | .wantRefs .. => do
    let (s, va) ← allocKpages { s with heap := h } 1
    let h ← lift (s.heap.gotPage t va)
    let h ← lift (h.resume t)
    return ({ s with heap := h }, some (lastBlock a k))
  | .noRef _ => do
    let s ← freeKpages { s with heap := h }
    let h ← lift (s.heap.resume t)
    return ({ s with heap := h }, none)
  | _ => return ({ s with heap := h }, some (lastBlock a k))

/-- A whole call of `kmalloc`, with its result. -/
def kmalloc (t : Fin n) (sz : Nat) : Except BootStop (Boot n × Option Nat) := do
  let h ← lift (s.heap.kmalloc t sz)
  match h.pc t with
  | .wantBig _ npages => do
    let (s, a) ← allocKpages { s with heap := h } npages
    let h ← lift (s.heap.gotPage t a)
    return ({ s with heap := h }, some a)
  | .wantPage _ k => do
    let (s, a) ← allocKpages { s with heap := h } 1
    s.newPage t k a
  | _ => do
    let k ← lift (KernelHeap.blocktype sz)
    return ({ s with heap := h }, firstFree s.heap k)

/-- A whole call of `kfree`. -/
def kfree (t : Fin n) (p : Nat) : Except BootStop (Boot n) := do
  let h ← lift (s.heap.kfree t p)
  match h.pc t with
  | .freePage _ => do
    let s ← freeKpages { s with heap := h }
    let h ← lift (s.heap.resume t)
    return { s with heap := h }
  | _ => return { s with heap := h }

/-- The size of `struct wchan`. -/
def sizeofWchan : Nat := 32

/-- The allocations of `lock_create` and `cv_create`: the structure, the copy of the name with
`len` bytes, the wait channel. -/
def create (t : Fin n) (sz len : Nat) : Except BootStop (Boot n × Option Nat) := do
  let (s, p) ← s.kmalloc t sz
  match p with
  | none => return (s, none)
  | some p => do
    let (s, q) ← s.kmalloc t len
    match q with
    | none => return (← s.kfree t p, none)
    | some q => do
      let (s, w) ← s.kmalloc t sizeofWchan
      match w with
      | none => return (← (← s.kfree t q).kfree t p, none)
      | some _ => return (s, some p)

/-- `lock_create("pt_lock")`. -/
def lockCreate (t : Fin n) : Except BootStop (Boot n × Option Nat) := s.create t 20 8

/-- `cv_create("pt_cv")`. -/
def cvCreate (t : Fin n) : Except BootStop (Boot n × Option Nat) := s.create t 16 6

end Boot

/-- The pointers, the count and the address of `struct pt_info`. -/
structure PtInfo where
  entries : Nat
  contiguous : Nat
  nEntry : Int
  firstFreePaddr : Nat
  deriving DecidableEq, Repr

def sizeofPtEntry : Nat := 12

/-- The stores of the loop of `pt_init`: the control byte, which is the first of its word, and the
flag of the same index. -/
def clearEntry (entries contiguous : Nat) (mem : Nat → Nat) (i : Nat) : Nat → Nat :=
  let mem := Function.update mem (entries + sizeofPtEntry * i + 8)
    (mem (entries + sizeofPtEntry * i + 8) % 16777216)
  Function.update mem (contiguous + 4 * i) 0xffffffff

namespace Boot
variable (s : Boot n)

/-- The frames that are left, as `pt_init` counts them. -/
def frames : Nat := u32Sub (mainbusRamsize s.ramsize) (s.ramStealmem 0).2 / pageSize

/-- The end of `pt_init`: the loop over the entries and the last assignments. -/
def fillTable (numFrames entries contiguous : Nat) : Boot n × PtInfo :=
  let mem := (List.range numFrames).foldl (clearEntry entries contiguous) s.heap.mem
  let s := { s with heap := { s.heap with mem := mem } }
  (s.release, {
    entries := entries
    contiguous := contiguous
    nEntry := toInt32 (u32Sub s.frames 1)
    firstFreePaddr := (s.ramStealmem 0).2 })

/-- `pt_init` from the creation of its lock to the release of `stealmem_lock`. -/
def createLocks (t : Fin n) : Except BootStop (Boot n) := do
  let (s, lock) ← s.lockCreate t
  let (s, cv) ← s.cvCreate t
  if lock = none ∨ cv = none then .error .ptInit
  else return s.release

/-- `pt_init` from the allocation of `contiguous` on. -/
def createFlags (t : Fin n) (numFrames entries : Nat) : Except BootStop (Boot n × PtInfo) := do
  let (s, contiguous) ← s.kmalloc t (numFrames * 4)
  let s ← s.acquire
  match contiguous with
  | none => .error .ptInit
  | some contiguous => return s.fillTable numFrames entries contiguous

def ptInit (t : Fin n) : Except BootStop (Boot n × PtInfo) := do
  let s ← s.acquire
  let numFrames := s.frames
  let s := s.release
  let (s, entries) ← s.kmalloc t (numFrames * sizeofPtEntry)
  let s ← s.acquire
  match entries with
  | none => .error .ptInit
  | some entries => do
    let s ← s.createLocks t
    s.createFlags t numFrames entries

/-- The bits of the control byte. -/
def ctrlOf (c : Nat) : Ctrl where
  validity := c.testBit 0
  reference := c.testBit 1
  tlb := c.testBit 2
  io := c.testBit 3
  swap := c.testBit 4

/-- The page table that lies in the memory. -/
def pageTable (pt : PtInfo) : PageTable where
  entries := fun i => {
    page := s.heap.mem (pt.entries + sizeofPtEntry * i)
    pid := s.heap.mem (pt.entries + sizeofPtEntry * i + 4)
    ctrl := ctrlOf (s.heap.mem (pt.entries + sizeofPtEntry * i + 8) / 16777216) }
  nEntry := pt.nEntry.toNat
  firstFreePaddr := pt.firstFreePaddr
  contiguous := fun i => toInt32 (s.heap.mem (pt.contiguous + 4 * i))
  lastIndex := 0

end Boot

/-- The steps of the boot: those of the users of the heap, and the returns of `alloc_kpages`. -/
inductive BootAct (n : Nat) where
  | heap (act : HeapAct n)
  | page (t : Fin n)

/-- A step of the boot. Nobody asks for so many pages that the sum in `ram_stealmem` wraps. -/
inductive BootStep : Boot n → BootAct n → Boot n → Prop where
  | heap {s : Boot n} {act : HeapAct n} : (∀ t a, act ≠ .page t a) → HeapStep s.heap act h →
      BootStep s (.heap act) { s with heap := h }
  | page {s : Boot n} : (s.heap.pc t).wants = some m → s.firstpaddr + m * pageSize < 4294967296 →
      s.allocKpages m = .ok (s', a) → s'.heap.gotPage t a = .ok h →
      BootStep s (.page t) { s' with heap := h }

end Clape
