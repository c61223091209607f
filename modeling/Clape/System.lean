import Clape.Runs
import Clape.Outcomes
import Clape.Segments
import Clape.SwapFile
import Clape.Tlb

namespace Clape
set_option autoImplicit true

/-- On whose behalf `store_swap` runs: a page fault on `v`, `get_contiguous_pages`, or the
copy of the page table of a process for its child. -/
inductive StoreFor where
  | victim (v : Nat)
  | alloc
  | fork (child : Nat)
  deriving DecidableEq, Repr

/-- On whose behalf a thread waits for the store of a cell: a load into frame `i`, an exit,
or a copy to the cell `f`. -/
inductive WaitFor where
  | load (v i : Nat)
  | exit (sg : Segment)
  | copy (child : Nat) (sg : Segment) (f : Nat)
  deriving DecidableEq, Repr

/-- Where the thread of a process stands. `run` is user mode or kernel code outside the VM
system; `storing`, `reading`, `elfReading`, `copyReading` and `copyWriting` are calls of
`VOP_WRITE` and `VOP_READ`; a wait knows whether a broadcast has ended it. -/
inductive Pc where
  | none
  | embryo
  | run
  | zombie
  | findVictim (v start : Nat)
  | victimWait (v start : Nat) (woken : Bool)
  | storeSwap (k : StoreFor) (i v p : Nat)
  | storing (k : StoreFor) (i c : Nat)
  | stored (k : StoreFor) (i : Nat)
  | loadPage (v i : Nat)
  | cell (k : WaitFor) (c : Nat)
  | cellWait (k : WaitFor) (c : Nat) (woken : Bool)
  | reading (v i c : Nat)
  | elfReading (v i : Nat)
  | loaded (v i : Nat)
  | alloc
  | allocWait (woken : Bool)
  | removeSwap (sg : Segment) (e : Option Nat)
  | copySwap (child : Nat) (sg : Segment) (e : Option Nat)
  | copyReading (child : Nat) (sg : Segment) (c f : Nat)
  | copyWriting (child : Nat) (sg : Segment) (c f : Nat)
  | copyPt (child i : Nat)
  deriving DecidableEq, Repr

structure Proc where
  as : Option AddrSpace
  pc : Pc

/-- The counters of vmstats.c. -/
structure Stats where
  tlbFaults : Nat
  tlbFreeFaults : Nat
  tlbReplaceFaults : Nat
  tlbInvalidations : Nat
  tlbReloads : Nat
  pageZeroedFaults : Nat
  pageDiskFaults : Nat
  pageElfFaults : Nat
  pageSwapfileFaults : Nat
  swapfileWrites : Nat

/-- The machine: one CPU running the thread of process `cur`. The memory holds the frames
from `first_free_paddr` on, the disk is the swap file, and a pid without a process has the
program counter `none`. -/
structure Sys where
  ipt : Ipt
  swap : SwapFile
  mmu : Mmu
  mem : Nat → UInt8
  disk : Nat → UInt8
  kbuf : Nat → UInt8
  procs : Nat → Proc
  cur : Nat
  semFork : Bool
  files : Nat → File
  stats : Stats

inductive FaultType where
  | read | write | readonly
  deriving DecidableEq, Repr

/-- What happens next: a context switch, a store by user code through a slot of the TLB, a
system call or a fault of the running thread, or its next step inside the VM system. -/
inductive Action where
  | dispatch (q : Nat)
  | write (k off : Nat) (b : UInt8)
  | fault (t : FaultType) (a : Nat)
  | exit
  | alloc
  | kfree (i : Nat)
  | fork (child : Nat)
  | spawn (q : Nat)
  | exec (vn : Nat) (phs : List ElfPhdr)
  | reap (q : Nat)
  | advance

/-- The thread can be taken up by the scheduler. -/
def Pc.ready : Pc → Bool
  | .run | .victimWait _ _ true | .storing _ _ _ | .cellWait _ _ true | .reading _ _ _
  | .elfReading _ _ | .allocWait true | .copyReading _ _ _ _ | .copyWriting _ _ _ _ => true
  | _ => false

/-- The points where the running thread can lose the CPU. -/
def Pc.switchable : Pc → Bool
  | .none | .zombie | .victimWait _ _ _ | .cellWait _ _ _ | .allocWait _ => true
  | pc => pc.ready

/-- The thread is inside the VM system and does not sleep. -/
def Pc.advances : Pc → Bool
  | .none | .embryo | .run | .zombie | .victimWait _ _ false | .cellWait _ _ false
  | .allocWait false => false
  | _ => true

/-- The effect of `cv_broadcast` on `pt_cv`. -/
def Pc.wakePt : Pc → Pc
  | .victimWait v start _ => .victimWait v start true
  | .allocWait _ => .allocWait true
  | pc => pc

/-- The effect of `cv_broadcast` on the `cell_cv` of a cell. -/
def Pc.wakeCell (c : Nat) : Pc → Pc
  | .cellWait k d w => .cellWait k d (w || d == c)
  | pc => pc

def Segment.next : Segment → Option Segment
  | .text => some .data
  | .data => some .stack
  | .stack => none

/-- The function that waits for a cell. -/
def WaitFor.fn : WaitFor → Fn
  | .load _ _ => .loadSwap
  | .exit _ => .removeProcessFromSwap
  | .copy _ _ _ => .copySwapPages

namespace Sys

def pc (s : Sys) (q : Nat) : Pc := (s.procs q).pc

def as (s : Sys) (q : Nat) : Option AddrSpace := (s.procs q).as

def setPc (s : Sys) (q : Nat) (pc : Pc) : Sys :=
  { s with procs := Function.update s.procs q { s.procs q with pc := pc } }

def goto (s : Sys) (pc : Pc) : Sys := s.setPc s.cur pc

def mapPc (s : Sys) (f : Pc → Pc) : Sys :=
  { s with procs := fun q => { s.procs q with pc := f (s.procs q).pc } }

/-- The bytes of frame `i`. -/
def frame (s : Sys) (i : Nat) : Nat → UInt8 := readAt s.mem (i * pageSize)

/-- The bytes of a cell in the swap file. -/
def cellBytes (s : Sys) (c : Nat) : Nat → UInt8 := readAt s.disk (s.swap.offset c)

def setPt (s : Sys) (pt : PageTable) : Sys := { s with ipt := { s.ipt with pt := pt } }

def countInsert (st : Stats) (replaced : Bool) : Stats :=
  if replaced then { st with tlbReplaceFaults := st.tlbReplaceFaults + 1 }
  else { st with tlbFreeFaults := st.tlbFreeFaults + 1 }

/-- `as_activate` for the process `q`, on a switch to it or in `runprogram`. -/
def activate (s : Sys) (as : Option AddrSpace) (q : Nat) : Except Fault Sys := do
  let (pt, mmu) ← asActivate s.ipt.pt s.mmu as q
  return { s with
    ipt := { s.ipt with pt := pt }
    mmu := mmu
    stats := if as.isSome && s.mmu.previousPid != q then
      { s.stats with tlbInvalidations := s.stats.tlbInvalidations + 1 } else s.stats }

/-- `tlb_insert` at the end of `vm_fault`. -/
def insert (s : Sys) (as : AddrSpace) (v i : Nat) : Except Fault Sys := do
  let (pt, mmu, replaced) ← tlbInsert s.ipt.pt s.mmu as s.cur v i
  return { s with
    ipt := { s.ipt with pt := pt }
    mmu := mmu
    stats := countInsert s.stats replaced }

/-- `sys__exit`, up to the first list of swap cells. -/
def sysExit (s : Sys) : Except Fault Sys := do
  let ipt ← s.ipt.freePages s.cur
  return { s with ipt := ipt }.goto (.removeSwap .text (s.swap.lists.head (.seg .text s.cur)))

/-- `vm_fault`, up to the first point where it can sleep or the end. -/
def vmFault (s : Sys) (t : FaultType) (as : AddrSpace) (v : Nat) : Except Fault Sys := do
  let s := { s with stats := { s.stats with tlbFaults := s.stats.tlbFaults + 1 } }
  if t = .readonly then s.sysExit
  else
    kassert as.isOk .vmFault .addrspace
    match ← s.ipt.ptGetPaddr v s.cur with
    | (ipt, some i) =>
      let st := { s.stats with tlbReloads := s.stats.tlbReloads + 1 }
      Sys.insert { s with ipt := ipt, stats := st } as v i
    | (_, none) =>
      match s.ipt.pt.findspace with
      | some i =>
        let ipt ← s.ipt.claimSpace v s.cur i
        return { s with ipt := ipt }.goto (.loadPage v i)
      | none => return s.goto (.findVictim v s.ipt.pt.lastIndex)

/-- The end of `get_contiguous_pages` for the frame `i`. -/
def finishAlloc (s : Sys) (i : Nat) : Sys :=
  (s.setPt { s.ipt.pt with
    contiguous := Function.update s.ipt.pt.contiguous i 1
    lastIndex := (i + 1) % s.ipt.pt.nEntry }).goto .run

/-- The second search of `get_contiguous_pages` for one page. -/
def allocChance (s : Sys) (fp : Option Nat) : Except Fault Sys :=
  match s.ipt.pt.chanceSearch 1 fp with
  | (E, none) =>
    .ok ((s.setPt { s.ipt.pt with entries := E, lastIndex := 0 }).goto (.allocWait false))
  | (E, some (_, i)) => do
    match ← ({ s.ipt with pt := { s.ipt.pt with entries := E } } : Ipt).claimKernel s.cur i with
    | (ipt, none) => return { s with ipt := ipt }.finishAlloc i
    | (ipt, some (v, p)) => return { s with ipt := ipt }.goto (.storeSwap .alloc i v p)

/-- `get_contiguous_pages` for one page. -/
def allocPage (s : Sys) : Except Fault Sys :=
  match freeRun s.ipt.pt.entries 1 (List.range s.ipt.pt.nEntry) none with
  | .inr (_, i) => do
    let pt ← s.ipt.pt.markFree s.cur i i
    return s.setPt { pt with contiguous := Function.update pt.contiguous i 1 }
  | .inl fp => s.allocChance fp

/-- `load_page` when the page is not in the swap file. -/
def loadElfPage (s : Sys) (as : AddrSpace) (v i : Nat) : Except Fault Sys :=
  let st := s.stats
  match as.loadPlan v with
  | .zero =>
    .ok ({ s with
      mem := bzero s.mem (i * pageSize)
      stats := if as.inText v then { st with pageDiskFaults := st.pageDiskFaults + 1 }
        else if as.inData v then { st with
          pageDiskFaults := st.pageDiskFaults + 1, pageElfFaults := st.pageElfFaults + 1 }
        else { st with pageZeroedFaults := st.pageZeroedFaults + 1 } }.goto (.loaded v i))
  | .read bz _ _ _ =>
    .ok ({ s with
      mem := if bz then bzero s.mem (i * pageSize) else s.mem
      stats := { st with pageDiskFaults := st.pageDiskFaults + 1 } }.goto (.elfReading v i))
  | .segv => s.sysExit

/-- What the end of the wait for a cell leads to. -/
def cellReady (s : Sys) (c : Nat) : WaitFor → Sys
  | .load v i =>
    { s with stats := { s.stats with pageDiskFaults := s.stats.pageDiskFaults + 1 } }.goto
      (.reading v i c)
  | .exit sg =>
    { s with swap := s.swap.freeCell c }.goto (.removeSwap sg (s.swap.lists.next c))
  | .copy child sg f => s.goto (.copyReading child sg c f)

/-- One iteration of `copy_pt_entries`, or the end of `as_copy` and of the fork. -/
def copyPtStep (s : Sys) (child i : Nat) : Except Fault Sys := do
  if i < s.ipt.pt.nEntry then
    let e := s.ipt.pt.entries i
    if e.pid == s.cur && e.user then
      match s.ipt.pt.findspace with
      | none =>
        copyStoreAsserts e
        return s.goto (.storeSwap (.fork child) i e.page child)
      | some pos =>
        let ipt ← s.ipt.copyEntry child i pos
        return { s with
          ipt := ipt
          mem := writeAt s.mem (pos * pageSize) pageSize (s.frame i) }.goto (.copyPt child (i + 1))
    else return s.goto (.copyPt child (i + 1))
  else
    let pt ← s.ipt.pt.endCopyPt s.cur
    return ((({ s with semFork := true }.setPt pt).mapPc Pc.wakePt).setPc child .run).goto .run

/-- The next step of the running thread inside the VM system. -/
def advance (s : Sys) : Except Fault Sys :=
  match s.pc s.cur with
  | .findVictim v start =>
    match s.ipt.pt.seekVictim start with
    | (E, none) =>
      .ok ((s.setPt { s.ipt.pt with entries := E }).goto (.victimWait v start false))
    | (E, some i) => do
      match ← ({ s.ipt with pt := { s.ipt.pt with entries := E } } : Ipt).claimVictim v s.cur i with
      | (ipt, none) =>
        let ipt ← ipt.hashVictim v s.cur i
        return { s with ipt := ipt }.goto (.loadPage v i)
      | (ipt, some (ov, op)) => return { s with ipt := ipt }.goto (.storeSwap (.victim v) i ov op)
  | .victimWait v start _ => .ok (s.goto (.findVictim v start))
  | .storeSwap k i v p => do
    let (w, c) ← s.swap.storeBegin (s.as s.cur) v p
    return { s with swap := w }.goto (.storing k i c)
  | .storing k i c => do
    let w ← s.swap.storeEnd s.cur c
    return ({ s with
      swap := w
      disk := writeAt s.disk (s.swap.offset c) pageSize (s.frame i)
      stats := { s.stats with swapfileWrites := s.stats.swapfileWrites + 1 } }.mapPc
        (Pc.wakeCell c)).goto (.stored k i)
  | .stored (.victim v) i => do
    let ipt ← s.ipt.hashVictim v s.cur i
    return { s with ipt := ipt }.goto (.loadPage v i)
  | .stored .alloc i =>
    .ok ((s.setPt (s.ipt.pt.set i ((s.ipt.pt.entries i).setIo false))).finishAlloc i)
  | .stored (.fork child) i => .ok (s.goto (.copyPt child (i + 1)))
  | .loadPage v i => do
    kassert ((s.ipt.pt.entries i).page != kmallocPage) .getPage .kmalloc
    match s.as s.cur with
    | none => .error (.nullAddrspace .loadSwap)
    | some as =>
      match ← s.swap.loadBegin as v s.cur with
      | (w, some c) => return { s with swap := w }.goto (.cell (.load v i) c)
      | (_, none) => s.loadElfPage as v i
  | .cell k c => do
    match ← s.swap.testStore s.cur c k.fn with
    | (w, true) => return { s with swap := w }.goto (.cellWait k c false)
    | (w, false) => return { s with swap := w }.cellReady c k
  | .cellWait k c _ => .ok (s.goto (.cell k c))
  | .reading v i c =>
    .ok ({ s with
      mem := writeAt s.mem (i * pageSize) pageSize (s.cellBytes c)
      swap := s.swap.loadEnd c
      stats := { s.stats with pageSwapfileFaults := s.stats.pageSwapfileFaults + 1 } }.goto
        (.loaded v i))
  | .elfReading v i =>
    match s.as s.cur with
    | none => .error (.nullAddrspace .loadPage)
    | some as =>
      let mem := match as.loadPlan v with
        | .read _ offset dst len =>
          (s.files as.vnode).readInto s.mem (i * pageSize + dst) offset len
        | _ => s.mem
      .ok ({ s with
        mem := mem
        stats := { s.stats with pageElfFaults := s.stats.pageElfFaults + 1 } }.goto (.loaded v i))
  | .loaded v i =>
    match s.as s.cur with
    | none => .error (.nullAddrspace .vmFault)
    | some as => (s.setPt (s.ipt.pt.pageLoaded i)).goto .run |>.insert as v i
  | .alloc => s.allocChance none
  | .allocWait _ => .ok (s.goto .alloc)
  | .removeSwap sg none =>
    let s₁ := { s with swap := s.swap.clearList sg s.cur }
    match sg.next with
    | some sg' => .ok (s₁.goto (.removeSwap sg' (s₁.swap.lists.head (.seg sg' s.cur))))
    | none => .ok (s₁.goto .zombie)
  | .removeSwap sg (some c) => .ok (s.goto (.cell (.exit sg) c))
  | .copySwap child sg none =>
    match sg.next with
    | some sg' => .ok (s.goto (.copySwap child sg' (s.swap.lists.head (.seg sg' s.cur))))
    | none => .ok (s.goto (.copyPt child 0))
  | .copySwap child sg (some c) => do
    let (w, f) ← s.swap.copyBegin sg child
    return { s with swap := w }.goto (.cell (.copy child sg f) c)
  | .copyReading child sg c f =>
    .ok ({ s with kbuf := s.cellBytes c }.goto (.copyWriting child sg c f))
  | .copyWriting child sg c f =>
    .ok ({ s with
      disk := writeAt s.disk (s.swap.offset f) pageSize s.kbuf
      swap := s.swap.copyEnd c f }.goto (.copySwap child sg (s.swap.lists.next c)))
  | .copyPt child i => s.copyPtStep child i
  | .none | .embryo | .run | .zombie => .ok s

def pageOf (a : Nat) : Nat := a - a % pageSize

/-- No slot of the TLB translates the page. -/
def Misses (s : Sys) (v : Nat) : Prop := ∀ k < numTlb, ∀ e, s.mmu.slots k = some e → e.vpage ≠ v

/-- When an action can happen. -/
def Enabled (s : Sys) : Action → Prop
  | .dispatch q => (s.pc s.cur).switchable = true ∧ (s.pc q).ready = true
  | .write k off _ => s.pc s.cur = .run ∧ (s.as s.cur).isSome = true ∧ k < numTlb ∧
      off < pageSize ∧ ∃ e, s.mmu.slots k = some e ∧ e.dirty = true
  | .fault t a => s.pc s.cur = .run ∧ (s.as s.cur).isSome = true ∧ a < userStack ∧
      (t = .readonly ∨ s.Misses (pageOf a))
  | .exit => s.pc s.cur = .run
  | .alloc => s.pc s.cur = .run
  | .kfree i => (s.pc s.cur).switchable = true ∧ s.ipt.pt.contiguous i = 1
  | .fork child => s.pc s.cur = .run ∧ (s.as s.cur).isSome = true ∧ s.semFork = true ∧
      s.pc child = .none ∧ PidOk child
  | .spawn q => s.pc s.cur = .run ∧ s.pc q = .none ∧ PidOk q
  | .exec vn phs => s.pc s.cur = .run ∧ s.as s.cur = none ∧ (loadElf vn phs).isSome = true
  | .reap q => s.pc s.cur = .run ∧ s.pc q = .zombie
  | .advance => (s.pc s.cur).advances = true

/-- The effect of an action, as far as the running thread goes before it can be switched. -/
def micro (s : Sys) : Action → Except Fault Sys
  | .dispatch q => (fun s => { s with cur := q }) <$> s.activate (s.as q) q
  | .write k off b =>
    match s.mmu.slots k with
    | some e => .ok { s with mem := Function.update s.mem (e.frame * pageSize + off) b }
    | none => .ok s
  | .fault t a =>
    match s.as s.cur with
    | some as => s.vmFault t as (pageOf a)
    | none => .error (.nullAddrspace .vmFault)
  | .exit => s.sysExit
  | .alloc => s.allocPage
  | .kfree i => do
    let pt ← s.ipt.pt.freeContiguousPages i
    return (s.setPt pt).mapPc Pc.wakePt
  | .fork child => do
    let pt ← s.ipt.pt.prepareCopyPt s.cur
    let procs := Function.update s.procs child ⟨s.as s.cur, .embryo⟩
    return ({ s with semFork := false, procs := procs }.setPt pt).goto
      (.copySwap child .text (s.swap.lists.head (.seg .text s.cur)))
  | .spawn q => .ok { s with procs := Function.update s.procs q ⟨none, .run⟩ }
  | .exec vn phs => do
    let as := loadElf vn phs
    let s₁ ← s.activate as s.cur
    return { s₁ with procs := Function.update s₁.procs s.cur { s₁.procs s.cur with as := as } }
  | .reap q => .ok { s with procs := Function.update s.procs q ⟨none, .none⟩ }
  | .advance => s.advance

end Sys

def SysStep (s : Sys) (a : Action) (s' : Sys) : Prop := s.Enabled a ∧ s.micro a = .ok s'

end Clape
