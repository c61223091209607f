import Clape.Processes
import Clape.Traces

namespace Clape
set_option autoImplicit true

/-- The blocks of `kmalloc` that belong to a process or to its thread. -/
inductive Block where
  | proc | procName | cv | cvName | cvWchan | lock | lockName | lockWchan
  | addrspace | trapframe
  | thread | threadName | stack
  deriving DecidableEq, Repr

/-- What `proc_create` allocates, with `cv_create` and `lock_create`. -/
def procBlocks : List Block :=
  [.proc, .procName, .cv, .cvName, .cvWchan, .lock, .lockName, .lockWchan]

/-- What `thread_fork` allocates. -/
def threadBlocks : List Block := [.thread, .threadName, .stack]

def enomem : Nat := 3

/-- A registered `struct proc`: the number of its blocks, its address space with the number of
its block and its vnode, and its current directory. -/
structure ProcEntry where
  number : Nat
  addrspace : Option (Nat × Nat)
  cwd : Option Nat
  deriving DecidableEq, Repr

/-- The machine with the resources of its processes. A block is known by its kind and the number
of the allocation that made it. The interrupt level of a thread is that of `sys_fork`: the other
calls go back to the level that they found. -/
structure Machine where
  vm : Sys
  table : Nat → Option ProcEntry
  lastI : Nat
  live : Block → Nat → Bool
  brk : Nat
  refs : Nat → Nat
  thread : Nat → Nat
  zombies : List Nat
  curspl : Nat → Nat
  iplhighCount : Nat → Nat
  saved : Nat → Nat

/-- The kernel stops in the VM system, or at the assertions of `syscall` on the interrupt
level. -/
inductive MachineStop where
  | vm (f : Fault)
  | syscall
  deriving DecidableEq, Repr

/-- What happens next. `fork` is `sys_fork` up to the first point where `as_copy` can sleep, with
the outcomes of `proc_create_runprogram` and of `as_create`, and `forked` is its end, with those
of the `kmalloc` for the trapframe and of `thread_fork`. -/
inductive MachineAction where
  | vm (a : Action)
  | spawn (q : Nat)
  | exec (vn : Nat) (phs : List ElfPhdr)
  | fork (child : Nat) (proc addrspace : Bool)
  | forked (trapframe thread : Bool)
  | wait (q : Nat)
  | exorcise

/-- The actions that leave the processes and their blocks alone. -/
def Action.inVm : Action → Bool
  | .fork _ | .spawn _ | .exec _ _ | .reap _ => false
  | _ => true

/-- The end of `as_copy` when `sys_fork` fails after it. -/
def Sys.abortFork (s : Sys) (child : Nat) : Except Fault Sys := do
  let pt ← s.ipt.pt.endCopyPt s.cur
  let s₁ := ((s.setPt pt).mapPc Pc.wakePt).goto .run
  return { s₁ with procs := Function.update s₁.procs child ⟨none, .none⟩ }

namespace Machine

def cur (k : Machine) : Nat := k.vm.cur

/-- A call of the VM system. -/
def ofVm : Except Fault α → Except MachineStop α
  | .ok a => .ok a
  | .error e => .error (.vm e)

def kmalloc (k : Machine) (bs : List Block) : Machine :=
  { k with
    live := fun b n => (n == k.brk && bs.contains b) || k.live b n
    brk := k.brk + 1 }

def kfree (k : Machine) (bs : List Block) (n : Nat) : Machine :=
  { k with live := fun b m => k.live b m && !(m == n && bs.contains b) }

def incref (k : Machine) (v : Nat) : Machine :=
  { k with refs := Function.update k.refs v (k.refs v + 1) }

def decref (k : Machine) (v : Nat) : Machine :=
  { k with refs := Function.update k.refs v (k.refs v - 1) }

/-- `splx` for the thread of process `p`. -/
def splx (k : Machine) (p spl : Nat) : Machine :=
  if k.curspl p < spl then
    { k with
      curspl := Function.update k.curspl p spl
      iplhighCount := Function.update k.iplhighCount p (k.iplhighCount p + 1) }
  else if spl < k.curspl p then
    { k with
      curspl := Function.update k.curspl p spl
      iplhighCount := Function.update k.iplhighCount p (k.iplhighCount p - 1) }
  else k

/-- The directory that a new process inherits. -/
def cwd (k : Machine) : Option Nat := (k.table k.cur).bind ProcEntry.cwd

/-- `proc_create_runprogram` when its allocations succeed, for the free pid `child`. -/
def procCreate (k : Machine) (child : Nat) : Machine :=
  let k₁ := { k with
    table := Function.update k.table child (some ⟨k.brk, none, k.cwd⟩)
    lastI := child }.kmalloc procBlocks
  match k.cwd with
  | some v => k₁.incref v
  | none => k₁

def asDestroy (k : Machine) (n v : Nat) : Machine := (k.decref v).kfree [.addrspace] n

def procDestroy (k : Machine) (q : Nat) : Machine :=
  match k.table q with
  | none => k
  | some e =>
    let k₁ := match e.cwd with
      | some v => k.decref v
      | none => k
    let k₂ := match e.addrspace with
      | some (n, v) => k₁.asDestroy n v
      | none => k₁
    { k₂ with table := Function.update k₂.table q none }.kfree procBlocks e.number

/-- `as_create` for the process `q` and an executable with the vnode `v`. -/
def asCreate (k : Machine) (q v : Nat) : Machine :=
  let entry := (k.table q).map fun e => { e with addrspace := some (k.brk, v) }
  ({ k with table := Function.update k.table q entry }.kmalloc [.addrspace]).incref v

/-- `thread_fork` when its allocations succeed. -/
def threadFork (k : Machine) (q : Nat) : Machine :=
  { k with thread := Function.update k.thread q k.brk }.kmalloc threadBlocks

/-- The beginning of `sys_fork`: `P(sem_fork)` and `splhigh`. -/
def enterFork (k : Machine) : Machine :=
  { k with
    vm := { k.vm with semFork := false }
    saved := Function.update k.saved k.cur (k.curspl k.cur) }.splx k.cur 1

/-- `sys_fork` up to `as_copy`, with the error if it returns one. -/
def sysFork (k : Machine) (child : Nat) (proc addrspace : Bool) :
    Except MachineStop (Machine × Option Nat) := do
  let k₁ := k.enterFork
  if !proc then return (k₁, some enomem)
  let k₂ := k₁.procCreate child
  if !addrspace then return (k₂.procDestroy child, some enomem)
  let vm ← ofVm (k₂.vm.micro (.fork child))
  match k.vm.as k.cur with
  | some as => return ({ k₂ with vm := vm }.asCreate child as.vnode, none)
  | none => .error (.vm (.nullAddrspace .copyPtEntries))

/-- `sys_fork` from the end of `as_copy` on, with its result. -/
def sysForkEnd (k : Machine) (child : Nat) (trapframe thread : Bool) :
    Except MachineStop (Machine × Nat) := do
  if !trapframe then
    let vm ← ofVm (k.vm.abortFork child)
    return ({ k with vm := vm }.procDestroy child, enomem)
  let k₁ := k.kmalloc [.trapframe]
  if !thread then
    let vm ← ofVm (k.vm.abortFork child)
    return (({ k₁ with vm := vm }.procDestroy child).kfree [.trapframe] k.brk, enomem)
  let vm ← ofVm (k.vm.micro .advance)
  return (({ k₁ with vm := vm }.threadFork child).splx k.cur (k.saved k.cur), 0)

/-- The assertions of `syscall` before and after the call. -/
def syscallAssert (k : Machine) (p : Nat) : Except MachineStop Unit :=
  if k.curspl p = 0 ∧ k.iplhighCount p = 0 then .ok () else .error .syscall

/-- The running thread is at the end of `as_copy`. -/
def atForkEnd (k : Machine) : Option Nat :=
  match k.vm.pc k.cur with
  | .copyPt child i => if i < k.vm.ipt.pt.nEntry then none else some child
  | _ => none

/-- When an action can happen. -/
def Enabled (k : Machine) : MachineAction → Prop
  | .vm a => k.vm.Enabled a ∧ k.atForkEnd = none ∧ a.inVm = true
  | .spawn q => k.vm.Enabled (.spawn q) ∧
      ((pidOrder k.lastI).find? fun i => (k.table i).isNone) = some q
  | .exec vn phs => k.vm.Enabled (.exec vn phs)
  | .fork child _ _ => k.vm.Enabled (.fork child) ∧
      ((pidOrder k.lastI).find? fun i => (k.table i).isNone) = some child
  | .forked _ _ => k.atForkEnd.isSome = true
  | .wait q => k.vm.Enabled (.reap q)
  | .exorcise => (k.vm.pc k.cur).switchable = true

/-- The last step of `sys__exit`. -/
def ends (k : Machine) : Action → Bool
  | .advance => k.vm.pc k.cur == .removeSwap .stack none
  | _ => false

def exec (k : Machine) : MachineAction → Except MachineStop Machine
  | .vm a => do
    let vm ← ofVm (k.vm.micro a)
    return { k with
      vm := vm
      zombies := if k.ends a then k.thread k.cur :: k.zombies else k.zombies }
  | .spawn q => do
    let vm ← ofVm (k.vm.micro (.spawn q))
    return ({ k with vm := vm }.procCreate q).threadFork q
  | .exec vn phs => do
    let vm ← ofVm (k.vm.micro (.exec vn phs))
    return { k with vm := vm }.asCreate k.cur vn
  | .fork child proc addrspace => do
    k.syscallAssert k.cur
    let (k', err) ← k.sysFork child proc addrspace
    if err.isSome then k'.syscallAssert k.cur
    return k'
  | .forked trapframe thread =>
    match k.atForkEnd with
    | some child => do
      let (k', _) ← k.sysForkEnd child trapframe thread
      k'.syscallAssert k.cur
      return k'
    | none => .ok k
  | .wait q => do
    let vm ← ofVm (k.vm.micro (.reap q))
    return { k with vm := vm }.procDestroy q
  | .exorcise =>
    .ok { k.zombies.foldl (fun k n => k.kfree threadBlocks n) k with zombies := [] }

/-- The kernel process and the thread of the menu. -/
def boot (m : Hardware) : Machine where
  vm := .boot m
  table i := if i = 1 then some ⟨0, none, none⟩ else none
  lastI := 1
  live b n := n == 0 && (procBlocks.contains b || threadBlocks.contains b)
  brk := 1
  refs _ := 0
  thread _ := 0
  zombies := []
  curspl _ := 0
  iplhighCount _ := 0
  saved _ := 0

end Machine

def MachineStep (k : Machine) (a : MachineAction) (k' : Machine) : Prop :=
  k.Enabled a ∧ k.exec a = .ok k'

namespace Machine

instance (k : Machine) (a : MachineAction) : Decidable (k.Enabled a) :=
  match a with
  | .vm _ => inferInstanceAs (Decidable (_ ∧ _ ∧ _))
  | .spawn _ | .fork _ _ _ => inferInstanceAs (Decidable (_ ∧ _))
  | .exec vn phs => inferInstanceAs (Decidable (Sys.Enabled _ (.exec vn phs)))
  | .forked _ _ | .exorcise => inferInstanceAs (Decidable (_ = _))
  | .wait q => inferInstanceAs (Decidable (Sys.Enabled _ (.reap q)))

/-- The state after a list of actions, if they are of the given kind, can happen and do not stop
the kernel. -/
def follow (C : MachineAction → Bool) (k : Machine) : List MachineAction → Option Machine
  | [] => some k
  | a :: l =>
    if C a = true ∧ k.Enabled a then
      match k.exec a with
      | .ok k' => follow C k' l
      | .error _ => none
    else none

theorem follow_run {k : Machine} (h : k.follow C l = some k') :
    Run (fun k a k' => C a = true ∧ MachineStep k a k') k l k' := by
  induction l generalizing k with
  | nil =>
    cases h
    exact .nil _
  | cons a l ih =>
    unfold follow at h
    split at h
    · rename_i hen
      split at h
      · rename_i u hu
        have hr : Run (fun k a k' => C a = true ∧ MachineStep k a k') k [a] u :=
          .single ⟨hen.1, hen.2, hu⟩
        exact hr.append (ih h)
      · cases h
    · cases h

end Machine

end Clape
