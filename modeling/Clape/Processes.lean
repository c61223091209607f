import Clape.Segments
import Clape.SynchClients

namespace Clape
set_option autoImplicit true

/-- `struct proc`, with the fields that `sys__exit` and `sys_waitpid` use. The lock `p_lock_cv`
and the condition variable `p_cv` have the address of the structure as their name. -/
structure ProcStruct where
  pid : Nat
  numthreads : Nat
  status : Nat
  ended : Bool
  deriving DecidableEq, Repr

/-- A program that is started from the menu: whether `vfs_open` and `as_create` succeed, and the
program headers if the file has an executable's header. -/
structure Program where
  opens : Bool
  memory : Bool
  headers : Option (List ElfPhdr)
  deriving DecidableEq, Repr

/-- `runprogram` enters user mode; else it returns an error. -/
def Program.runs (g : Program) : Bool :=
  g.opens && g.memory && (g.headers.bind (loadElf 0)).isSome

/-- Where a thread stands. `forking` and `launching` are between `proc_create_runprogram` and
`thread_fork`, in `sys_fork` and in `common_prog`; in `launched` the menu is about to wait for
the program. The calls of `sys__exit` and of `proc_wait` on the lock and the condition variable
of `p` are `exitLock` to `exitRelease` and `waitLock` to `waitRelease`; `waitDestroy` is the call
of `proc_destroy`. A wait keeps the interrupt level to go back to. -/
inductive ThreadPc where
  | none
  | startup (g : Program)
  | run
  | forking (p : Nat)
  | launching (p : Nat)
  | launched (p : Nat)
  | exitLock (p : Nat)
  | exitSignal (p : Nat)
  | exitRelease (p : Nat)
  | zombie
  | waitLock (p spl : Nat)
  | waitCv (p spl : Nat)
  | waitRelease (p spl : Nat)
  | waitDestroy (p spl status : Nat)
  deriving DecidableEq, Repr

/-- The address of `kproc`. -/
def kproc : Nat := 0

/-- The processes and their threads. Addresses from `brk` on were never given out by `kmalloc`;
the address of a structure that was freed has `none`. -/
structure Procs where
  heap : Nat → Option ProcStruct
  brk : Nat
  table : Nat → Option Nat
  lastI : Nat
  tproc : Nat → Option Nat
  pc : Nat → ThreadPc
  curspl : Nat → Nat
  result : Nat → Option (Nat × Nat)
  synch : Synch Nat Nat Nat

inductive ProcFn where
  | procSearchPid | procWait | procDestroy | procEndWaitpid | cvDestroy | lockDestroy
  | procRemthread | procAddthread | procGetpid | sysExit | synch
  deriving DecidableEq, Repr

/-- The ways in which the kernel stops: an assertion, a use of `NULL` or of a freed `struct proc`,
the panic for a full process table, an assertion of synch.c. -/
inductive ProcStop where
  | kassert (f : ProcFn)
  | null (f : ProcFn)
  | freed (f : ProcFn)
  | tableFull
  | synch (f : SynchFn)
  deriving DecidableEq, Repr

/-- What a thread does next: `create` and `start` are the halves of `sys_fork` and of
`common_prog`, `resume` goes on after a call of synch.c has returned. -/
inductive ProcAction where
  | create (t : Nat)
  | start (t q : Nat) (g : Program)
  | runprogram (t : Nat)
  | exit (t p : Nat) (status : BitVec 32)
  | waitpid (t : Nat) (pid : BitVec 32)
  | synch (e : SynchEvent Nat Nat Nat)
  | resume (t : Nat)
  | destroy (t p : Nat)
  deriving DecidableEq, Repr

namespace ThreadPc

/-- The call of synch.c that a thread is in, or has just returned from. -/
def call : ThreadPc → Option (SynchCall Nat Nat)
  | .exitLock p | .waitLock p _ => some (.acquire p)
  | .exitSignal p => some (.signal p p)
  | .exitRelease p | .waitRelease p _ => some (.release p)
  | .waitCv p _ => some (.wait p p)
  | _ => .none

/-- A return from these calls is followed by `resume`. -/
def resumes (pc : ThreadPc) : Bool := pc.call.isSome

end ThreadPc

/-- The order in which `proc_init_waitpid` looks for a free index. -/
def pidOrder (lastI : Nat) : List Nat :=
  (List.range (maxProc - 1)).map fun k => (lastI + k) % maxProc + 1

namespace Procs

def goto (s : Procs) (t : Nat) (pc : ThreadPc) : Procs :=
  { s with pc := Function.update s.pc t pc }

def setProc (s : Procs) (p : Nat) (r : ProcStruct) : Procs :=
  { s with heap := Function.update s.heap p (some r) }

/-- A thread calls a function of synch.c. -/
def begin (s : Procs) (t : Nat) (pc : ThreadPc) (f : SynchCall Nat Nat) : Procs :=
  { s with pc := Function.update s.pc t pc, synch := s.synch.goto t (.enter f) }

def kassert (b : Bool) (f : ProcFn) : Except ProcStop Unit :=
  if b then .ok () else .error (.kassert f)

/-- A use of a `struct proc`. -/
def deref (s : Procs) (p : Nat) (f : ProcFn) : Except ProcStop ProcStruct :=
  match s.heap p with
  | some r => .ok r
  | none => .error (.freed f)

/-- `proc_create` with `proc_init_waitpid`. -/
def procCreate (s : Procs) : Except ProcStop Procs :=
  match (pidOrder s.lastI).find? fun i => (s.table i).isNone with
  | none => .error .tableFull
  | some i => .ok { s with
      heap := Function.update s.heap s.brk (some ⟨i, 0, 0, false⟩)
      brk := s.brk + 1
      table := Function.update s.table i (some s.brk)
      lastI := i }

/-- `thread_fork` into the process `p`. -/
def threadFork (s : Procs) (p q : Nat) (pc : ThreadPc) : Except ProcStop Procs := do
  let r ← s.deref p .procAddthread
  return { s.setProc p { r with numthreads := r.numthreads + 1 } with
    tproc := Function.update s.tproc q (some p)
    pc := Function.update s.pc q pc }

/-- `proc_remthread` for a thread of the process `p`. -/
def procRemthread (s : Procs) (t p : Nat) : Except ProcStop Procs := do
  let r ← s.deref p .procRemthread
  kassert (0 < r.numthreads) .procRemthread
  return { s.setProc p { r with numthreads := r.numthreads - 1 } with
    tproc := Function.update s.tproc t none }

/-- `sys__exit` up to `lock_acquire`. -/
def sysExit (s : Procs) (t p : Nat) (status : BitVec 32) : Except ProcStop Procs := do
  let r ← s.deref p .sysExit
  let s ← (s.setProc p { r with status := (status &&& 0xff#32).toNat }).procRemthread t p
  return s.begin t (.exitLock p) (.acquire p)

/-- `proc_search_pid`; a `NULL` in the table is dereferenced by its second assertion. -/
def procSearchPid (s : Procs) (pid : BitVec 32) : Except ProcStop Nat := do
  kassert (0 < pid.toInt && pid.toInt ≤ maxProc) .procSearchPid
  match s.table pid.toNat with
  | none => .error (.null .procSearchPid)
  | some p =>
    let r ← s.deref p .procSearchPid
    kassert (r.pid == pid.toNat) .procSearchPid
    return p

/-- `sys_waitpid` up to `lock_acquire` in `proc_wait`. -/
def sysWaitpid (s : Procs) (t : Nat) (pid : BitVec 32) : Except ProcStop Procs := do
  let spl := s.curspl t
  let p ← s.procSearchPid pid
  kassert (p != kproc) .procWait
  return { s with curspl := Function.update s.curspl t 1 }.begin t (.waitLock p spl) (.acquire p)

/-- The test of the loop of `proc_wait`. -/
def waitTest (s : Procs) (t p spl : Nat) : Except ProcStop Procs := do
  let r ← s.deref p .procWait
  if r.ended then return s.begin t (.waitRelease p spl) (.release p)
  else return s.begin t (.waitCv p spl) (.wait p p)

/-- The rest of `proc_destroy` after the address space and the directory are released, and the
return from `sys_waitpid`. -/
def procDestroy (s : Procs) (t p spl status : Nat) : Except ProcStop Procs := do
  let r ← s.deref p .procDestroy
  kassert (r.numthreads == 0) .procDestroy
  kassert (0 < r.pid && r.pid ≤ maxProc) .procEndWaitpid
  kassert ((s.synch.cvLock p).isNone && (s.synch.cvWchan p).isEmpty) .cvDestroy
  kassert (s.synch.lkWchan p).isEmpty .lockDestroy
  return { s with
    heap := Function.update s.heap p none
    table := Function.update s.table r.pid none
    pc := Function.update s.pc t .run
    curspl := Function.update s.curspl t spl
    result := Function.update s.result t (some (r.pid, status)) }

/-- What follows the return of a call of synch.c. -/
def resume (s : Procs) (t : Nat) : Except ProcStop Procs :=
  match s.pc t with
  | .exitLock p => do
    let r ← s.deref p .sysExit
    return (s.setProc p { r with ended := true }).begin t (.exitSignal p) (.signal p p)
  | .exitSignal p => do
    let _ ← s.deref p .sysExit
    return s.begin t (.exitRelease p) (.release p)
  | .exitRelease _ => .ok (s.goto t .zombie)
  | .waitLock p spl | .waitCv p spl => s.waitTest t p spl
  | .waitRelease p spl => do
    let r ← s.deref p .procWait
    kassert (p != kproc) .procDestroy
    return s.goto t (.waitDestroy p spl r.status)
  | _ => .ok s

/-- A section of synch.c; the lock and the condition variable go with the `struct proc`. -/
def synchSection (s : Procs) (e : SynchEvent Nat Nat Nat) : Except ProcStop Procs :=
  match (s.pc e.thread).call with
  | none => .ok s
  | some f => do
    let _ ← s.deref f.lock .synch
    match s.synch.exec e with
    | .ok u => return { s with synch := u }
    | .error g => .error (.synch g)

/-- When an action can happen. -/
def Enabled (s : Procs) : ProcAction → Prop
  | .create t => s.pc t = .run ∧ (s.tproc t).isSome = true
  | .start t q _ => ((∃ p, s.pc t = .forking p) ∨ ∃ p, s.pc t = .launching p) ∧ s.pc q = .none
  | .runprogram t => ∃ g, s.pc t = .startup g
  | .exit t p _ => s.pc t = .run ∧ s.tproc t = some p ∧ p ≠ kproc
  | .waitpid t pid =>
    (s.pc t = .run ∧ ∃ p, s.tproc t = some p ∧ p ≠ kproc) ∨
      ∃ p, s.pc t = .launched p ∧ ∀ r, s.heap p = some r → pid.toNat = r.pid
  | .synch e => e.isCall = false ∧ s.synch.Enabled e
  | .resume t => (s.pc t).resumes = true ∧ s.synch.pc t = .out
  | .destroy t p => ∃ spl status, s.pc t = .waitDestroy p spl status

def exec (s : Procs) : ProcAction → Except ProcStop Procs
  | .create t => do
    let s' ← s.procCreate
    return s'.goto t (if s.tproc t = some kproc then .launching s.brk else .forking s.brk)
  | .start t q g =>
    match s.pc t with
    | .forking p => do
      let s ← s.threadFork p q .run
      return s.goto t .run
    | .launching p => do
      let s ← s.threadFork p q (.startup g)
      return s.goto t (.launched p)
    | _ => .ok s
  | .runprogram t =>
    match s.pc t, s.tproc t with
    | .startup g, some p =>
      if g.runs then .ok (s.goto t .run)
      else do
        -- `cmd_progthread` returns, and `thread_startup` calls `thread_exit`
        let s ← s.procRemthread t p
        return s.goto t .zombie
    | _, _ => .ok s
  | .exit t p status => s.sysExit t p status
  | .waitpid t pid =>
    match s.pc t with
    | .launched p => do
      let _ ← s.deref p .procGetpid
      s.sysWaitpid t pid
    | _ => s.sysWaitpid t pid
  | .synch e => s.synchSection e
  | .resume t => s.resume t
  | .destroy t p =>
    match s.pc t with
    | .waitDestroy _ spl status => s.procDestroy t p spl status
    | _ => .ok s

/-- The kernel process, with pid 1, and the thread of the menu. -/
def boot : Procs where
  heap p := if p = kproc then some ⟨1, 1, 0, false⟩ else none
  brk := 1
  table i := if i = 1 then some kproc else none
  lastI := 1
  tproc t := if t = 0 then some kproc else none
  pc t := if t = 0 then .run else .none
  curspl _ := 0
  result _ := none
  synch := .start

end Procs

/-- The steps that meet a condition on the state before the step and the action. -/
def ProcStepWhen (C : Procs → ProcAction → Prop) (s : Procs) (a : ProcAction) (s' : Procs) : Prop :=
  C s a ∧ s.Enabled a ∧ s.exec a = .ok s'

end Clape
