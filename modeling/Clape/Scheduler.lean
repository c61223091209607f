import Clape.Runs
import Clape.ThreadLists
import Mathlib.Algebra.GroupWithZero.Nat

namespace Clape
set_option autoImplicit true

/-- `t_state` -/
inductive ThreadState where
  | run | ready | sleep | zombie
  deriving DecidableEq, Repr

/-- The lists of threads. `held c` has the threads that code on the CPU has taken off a list and not
yet put on another: those to wake up, and the victims of a migration. -/
inductive Listed (n : Nat) (ω : Type) where
  | runqueue (c : Fin n)
  | zombies (c : Fin n)
  | wchan (w : ω)
  | held (c : Fin n)
  deriving DecidableEq, Repr

/-- Where a CPU stands: in the code of a thread or a handler; in `cpu_idle`; in the loop around
`cpu_idle`, or in a handler there; before a call of `thread_make_runnable`; and in the loops of
`thread_consider_migration`. -/
inductive CpuPc where
  | thread
  | idle
  | retry
  | waking
  | counting (i my_count total_count : Nat)
  | sending (i one_share to_send : Nat)
  deriving DecidableEq, Repr

/-- The CPUs, the threads and the wait channels. A run queue changes under its lock alone, and what a
CPU does under the lock of one run queue is one step. -/
structure Sched (n : Nat) (τ ω : Type) where
  lists : Listed n ω → List τ
  curthread : Fin n → τ
  tcpu : τ → Fin n
  tstate : τ → Option ThreadState
  isidle : Fin n → Bool
  ipiPending : Fin n → Bool
  pc : Fin n → CpuPc

/-- What the model checks of thread.c: the CPU of the current thread in `thread_switch`, the lock in
`thread_make_runnable`, the threads of `exorcise` and `thread_destroy`, a victim that is `NULL`, and
the victims left at the end. The guard band of the stack, `t_proc` and the locks and interrupts of a
wait channel are not modelled. -/
inductive SchedFault where
  | curcpu | runqueueLock | zombie | destroy | null | victims
  deriving DecidableEq, Repr

/-- How a thread leaves its CPU. -/
inductive NewState (ω : Type) where
  | ready
  | sleep (w : ω)
  | zombie
  deriving DecidableEq, Repr

/-- What can happen on a CPU. `wakeone` and `wakeall` take threads off a wait channel, and `wake` is
`thread_make_runnable` for one of them. -/
inductive SchedEvent (n : Nat) (τ ω : Type) where
  | switch (c : Fin n) (st : NewState ω)
  | fork (c : Fin n) (t : τ)
  | wakeone (c : Fin n) (w : ω)
  | wakeall (c : Fin n) (w : ω)
  | wake (c : Fin n)
  | interrupt (c : Fin n)
  | interprocessor (c : Fin n)
  | next (c : Fin n)
  | migrate (c : Fin n)
  | count (c : Fin n)
  | send (c : Fin n)
  deriving DecidableEq, Repr

namespace Sched
variable {n : Nat} {τ ω : Type} [DecidableEq τ] [DecidableEq ω]

def goto (s : Sched n τ ω) (c : Fin n) (p : CpuPc) : Sched n τ ω :=
  { s with pc := Function.update s.pc c p }

/-- A handler or a function that the thread called returns. -/
def back (s : Sched n τ ω) (c : Fin n) : Sched n τ ω :=
  s.goto c (if s.isidle c then .retry else .thread)

def setList (s : Sched n τ ω) (l : Listed n ω) (ts : List τ) : Sched n τ ω :=
  { s with lists := Function.update s.lists l ts }

def setState (s : Sched n τ ω) (t : τ) (st : Option ThreadState) : Sched n τ ω :=
  { s with tstate := Function.update s.tstate t st }

def addtail (s : Sched n τ ω) (l : Listed n ω) (t : τ) : Sched n τ ω := s.setList l (s.lists l ++ [t])

def ipiSend (s : Sched n τ ω) (target : Fin n) : Sched n τ ω :=
  { s with ipiPending := Function.update s.ipiPending target true }

/-- `thread_make_runnable` on the CPU `c`. -/
def threadMakeRunnable (s : Sched n τ ω) (c : Fin n) (target : τ) : Sched n τ ω :=
  let targetcpu := s.tcpu target
  let s' := (s.setState target (some .ready)).addtail (.runqueue targetcpu) target
  if s.isidle targetcpu = true ∧ targetcpu ≠ c then s'.ipiSend targetcpu else s'

def threadDestroy (s : Sched n τ ω) (c : Fin n) (t : τ) : Except SchedFault (Sched n τ ω) :=
  if t = s.curthread c ∨ s.tstate t = some .run then .error .destroy else .ok (s.setState t none)

def exorciseLoop (c : Fin n) : List τ → Sched n τ ω → Except SchedFault (Sched n τ ω)
  | [], s => .ok s
  | z :: zs, s =>
    if z = s.curthread c ∨ s.tstate z ≠ some .zombie then .error .zombie
    else do
      let s' ← (s.setList (.zombies c) zs).threadDestroy c z
      exorciseLoop c zs s'

def exorcise (s : Sched n τ ω) (c : Fin n) : Except SchedFault (Sched n τ ω) :=
  exorciseLoop c (s.lists (.zombies c)) s

/-- The loop of `thread_switch` and what follows: the next thread runs, or the CPU is idle. -/
def getNext (s : Sched n τ ω) (c : Fin n) : Except SchedFault (Sched n τ ω) :=
  match s.lists (.runqueue c) with
  | [] => .ok ({ s with isidle := Function.update s.isidle c true }.goto c .idle)
  | next :: q =>
    (({ s with
      isidle := Function.update s.isidle c false
      curthread := Function.update s.curthread c next }.setList (.runqueue c) q).setState next
        (some .run)).goto c .thread |>.exorcise c

def threadSwitch (s : Sched n τ ω) (c : Fin n) (newstate : NewState ω) :
    Except SchedFault (Sched n τ ω) :=
  let cur := s.curthread c
  if s.tcpu cur ≠ c then .error .curcpu
  else if s.isidle c then .ok s
  else
    match newstate with
    | .ready =>
      if s.lists (.runqueue c) = [] then .ok s
      -- the lock of the run queue of this CPU is held
      else if s.tcpu cur ≠ c then .error .runqueueLock
      else (s.threadMakeRunnable c cur).getNext c
    | .sleep w => ((s.addtail (.wchan w) cur).setState cur (some .sleep)).getNext c
    | .zombie => ((s.addtail (.zombies c) cur).setState cur (some .zombie)).getNext c

def threadFork (s : Sched n τ ω) (c : Fin n) (newthread : τ) : Sched n τ ω :=
  ({ s with tcpu := Function.update s.tcpu newthread (s.tcpu (s.curthread c)) }.setState newthread
    (some .ready)).setList (.held c) [newthread] |>.goto c .waking

/-- `threadlist_remhead` on a wait channel. -/
def remhead (s : Sched n τ ω) (c : Fin n) (w : ω) : Sched n τ ω :=
  match s.lists (.wchan w) with
  | [] => s
  | t :: r => (s.setList (.wchan w) r).addtail (.held c) t

def wchanWakeone (s : Sched n τ ω) (c : Fin n) (w : ω) : Sched n τ ω := (s.goto c .waking).remhead c w

def wchanWakeall (s : Sched n τ ω) (c : Fin n) (w : ω) : Sched n τ ω :=
  (fun s => s.remhead c w)^[(s.lists (.wchan w)).length] (s.goto c .waking)

/-- The next thread that was taken off a wait channel is made runnable. -/
def wake (s : Sched n τ ω) (c : Fin n) : Sched n τ ω :=
  match s.lists (.held c) with
  | [] => s.back c
  | t :: r => (s.setList (.held c) r).threadMakeRunnable c t

def takeVictims (c : Fin n) : (to_send : Nat) → Sched n τ ω → Except SchedFault (Sched n τ ω)
  | 0, s => .ok s
  | k + 1, s =>
    match (s.lists (.runqueue c)).getLast? with
    | none => .error .null
    | some t => takeVictims c k ((s.setList (.runqueue c) (s.lists (.runqueue c)).dropLast).setList
        (.held c) (t :: s.lists (.held c)))

/-- The loop under the lock of the run queue of `d`, which returns what is left to send. -/
def sendTo (c d : Fin n) (one_share : Nat) : (to_send : Nat) → Sched n τ ω →
    Except SchedFault (Sched n τ ω × Nat)
  | 0, s => .ok (s, 0)
  | k + 1, s =>
    if (s.lists (.runqueue d)).length < one_share then
      match s.lists (.held c) with
      | [] => .error .null
      | t :: r =>
        if t = s.curthread c then sendTo c d one_share k ((s.setList (.held c) r).addtail (.held c) t)
        else
          let s' := { s.setList (.held c) r with tcpu := Function.update s.tcpu t d }.addtail (.runqueue d) t
          sendTo c d one_share k (if s.isidle d then s'.ipiSend d else s')
    else .ok (s, k + 1)

def putBack (c : Fin n) : List τ → Sched n τ ω → Sched n τ ω
  | [], s => s
  | t :: r, s => putBack c r ((s.setList (.held c) r).addtail (.runqueue c) t)

/-- One turn of the first loop of `thread_consider_migration`, or what follows it. -/
def countQueue (s : Sched n τ ω) (c : Fin n) (i my_count total_count : Nat) :
    Except SchedFault (Sched n τ ω) :=
  if h : i < n then
    let q := (s.lists (.runqueue ⟨i, h⟩)).length
    .ok (s.goto c (.counting (i + 1) (if ⟨i, h⟩ = c then q else my_count) ((total_count + q) % 2 ^ 32)))
  else
    let one_share := (total_count + n - 1) % 2 ^ 32 / n
    if my_count < one_share then .ok (s.back c)
    else do
      let s' ← takeVictims c (my_count - one_share) s
      return s'.goto c (.sending 0 one_share (my_count - one_share))

/-- One turn of the second loop, or what follows it. -/
def sendVictims (s : Sched n τ ω) (c : Fin n) (i one_share to_send : Nat) :
    Except SchedFault (Sched n τ ω) :=
  if h : i < n ∧ 0 < to_send then
    if ⟨i, h.1⟩ = c then .ok (s.goto c (.sending (i + 1) one_share to_send))
    else do
      let (s', left) ← sendTo c ⟨i, h.1⟩ one_share to_send s
      return s'.goto c (.sending (i + 1) one_share left)
  else
    let s' := putBack c (s.lists (.held c)) s
    if s'.lists (.held c) = [] then .ok (s'.back c) else .error .victims

/-- When an event can happen. A handler does not sleep, exit or fork, and runs with interrupts off. -/
def Enabled (s : Sched n τ ω) : SchedEvent n τ ω → Prop
  | .switch c .ready | .wakeone c _ | .wakeall c _ | .migrate c => s.pc c = .thread ∨ s.pc c = .retry
  | .switch c _ => s.pc c = .thread
  | .fork c t => s.pc c = .thread ∧ s.tstate t = none
  | .wake c => s.pc c = .waking
  | .interrupt c => s.pc c = .idle
  | .interprocessor c => s.ipiPending c = true ∧ (s.pc c = .thread ∨ s.pc c = .retry ∨ s.pc c = .idle)
  | .next c => s.pc c = .retry
  | .count c => ∃ i m k, s.pc c = .counting i m k
  | .send c => ∃ i o k, s.pc c = .sending i o k

def exec (s : Sched n τ ω) : SchedEvent n τ ω → Except SchedFault (Sched n τ ω)
  | .switch c st => s.threadSwitch c st
  | .fork c t => .ok (s.threadFork c t)
  | .wakeone c w => .ok (s.wchanWakeone c w)
  | .wakeall c w => .ok (s.wchanWakeall c w)
  | .wake c => .ok (s.wake c)
  | .interrupt c => .ok (s.goto c .retry)
  | .interprocessor c => .ok ({ s with ipiPending := Function.update s.ipiPending c false }.back c)
  | .next c => s.getNext c
  | .migrate c => .ok (s.goto c (.counting 0 0 0))
  | .count c =>
    match s.pc c with
    | .counting i m k => s.countQueue c i m k
    | _ => .ok s
  | .send c =>
    match s.pc c with
    | .sending i o k => s.sendVictims c i o k
    | _ => .ok s

def Step (s : Sched n τ ω) (e : SchedEvent n τ ω) (u : Sched n τ ω) : Prop :=
  s.Enabled e ∧ s.exec e = .ok u

/-- Every CPU runs its first thread, which no switch has marked yet. -/
def boot (first : Fin n → τ) (cpu : τ → Fin n) : Sched n τ ω where
  lists _ := []
  curthread := first
  tcpu := cpu
  tstate t := if ∃ c, first c = t then some .ready else none
  isidle _ := false
  ipiPending _ := false
  pc _ := .thread

end Sched

end Clape
