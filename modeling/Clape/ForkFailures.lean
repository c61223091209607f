import Clape.Fork

namespace Clape
set_option autoImplicit true

/-- A node is on a list. -/
def Lists.On (l : Lists κ ν) (k : κ) (c : ν) : Prop := ∃ L, Chain l.next (l.head k) L ∧ c ∈ L

/-- The page that a user frame holds. -/
def Sys.userPage (s : Sys) (i : Nat) : Option (Nat × Nat) :=
  if (s.ipt.pt.entries i).user then some ((s.ipt.pt.entries i).page, (s.ipt.pt.entries i).pid)
  else none

/-- The hash table has a node for the page `v` of `p` and the frame `i`. -/
def Sys.HashNode (s : Sys) (v p i : Nat) : Prop :=
  ∃ c, s.ipt.ht.lists.On (s.ipt.ht.bucketOf v p) c ∧ s.ipt.ht.vad c = v ∧ s.ipt.ht.pid c = p ∧
    s.ipt.ht.iptEntry c = some i

namespace Machine

/-- What a failed fork has to leave as it was: the semaphore, the interrupt level of the caller,
the process table, the user pages and their hash nodes, the swap lists and the vnodes. -/
structure Restored (k k' : Machine) : Prop where
  semFork : k'.vm.semFork = k.vm.semFork
  curspl : k'.curspl k.cur = k.curspl k.cur
  iplhighCount : k'.iplhighCount k.cur = k.iplhighCount k.cur
  table : k'.table = k.table
  pages : ∀ i, k'.vm.userPage i = k.vm.userPage i
  nodes : ∀ v p i, k'.vm.HashNode v p i ↔ k.vm.HashNode v p i
  cells : ∀ l c, k'.vm.swap.lists.On l c ↔ k.vm.swap.lists.On l c
  refs : k'.refs = k.refs

/-- The steps of the machine while process `p` is in `as_copy`. -/
def Copying (p : Nat) (k : Machine) (a : MachineAction) (k' : Machine) : Prop :=
  MachineStep k a k' ∧ ¬ (k.cur = p ∧ ∃ x y, a = .forked x y)

end Machine

/-- The outcomes of the allocations of `sys_fork`. -/
structure ForkOutcomes where
  proc : Bool
  addrspace : Bool
  trapframe : Bool
  thread : Bool
  deriving DecidableEq, Repr

/-- The running process calls `sys_fork` in the state `k`, and in the state `k'` the call returns
`err`. In `as_copy` other processes can run. -/
inductive ForkCall (k : Machine) (o : ForkOutcomes) : Machine → Nat → Prop where
  | early (hen : k.Enabled (.fork child o.proc o.addrspace))
      (hspl : k.syscallAssert k.cur = .ok ())
      (hcall : k.sysFork child o.proc o.addrspace = .ok (k', some err)) : ForkCall k o k' err
  | late (hen : k.Enabled (.fork child o.proc o.addrspace))
      (hspl : k.syscallAssert k.cur = .ok ())
      (hcall : k.sysFork child o.proc o.addrspace = .ok (k₁, none))
      (hcopy : Run (Machine.Copying k.cur) k₁ tr k₂) (hcur : k₂.cur = k.cur)
      (hend : k₂.atForkEnd = some child)
      (hret : k₂.sysForkEnd child o.trapframe o.thread = .ok (k', err)) : ForkCall k o k' err

namespace Machine

theorem syscallAssert_ok {k : Machine} : k.syscallAssert p = .ok u ↔
    k.curspl p = 0 ∧ k.iplhighCount p = 0 := by
  unfold syscallAssert
  split
  · rename_i h
    exact ⟨fun _ => h, fun _ => rfl⟩
  · rename_i h
    exact ⟨nofun, fun h' => absurd h' h⟩

section curspl
variable (k : Machine)

@[simp] theorem curspl_kmalloc (bs : List Block) : (k.kmalloc bs).curspl = k.curspl := rfl

@[simp] theorem curspl_kfree (bs : List Block) (n : Nat) : (k.kfree bs n).curspl = k.curspl := rfl

@[simp] theorem curspl_procCreate (q : Nat) : (k.procCreate q).curspl = k.curspl := by
  unfold procCreate
  cases k.cwd <;> rfl

@[simp] theorem curspl_procDestroy (q : Nat) : (k.procDestroy q).curspl = k.curspl := by
  unfold procDestroy
  cases k.table q with
  | none => rfl
  | some e =>
    cases he : e.cwd <;> cases ha : e.addrspace <;> simp only [he, ha] <;> rfl

@[simp] theorem curspl_asCreate (q v : Nat) : (k.asCreate q v).curspl = k.curspl := rfl

@[simp] theorem curspl_threadFork (q : Nat) : (k.threadFork q).curspl = k.curspl := rfl

@[simp] theorem curspl_kfrees (bs : List Block) (l : List Nat) :
    (l.foldl (fun k n => k.kfree bs n) k).curspl = k.curspl := by
  induction l generalizing k with
  | nil => rfl
  | cons n l ih => exact ih (k.kfree bs n)

theorem curspl_splx_self (p spl : Nat) : (k.splx p spl).curspl p = spl := by
  unfold splx
  split
  · exact Function.update_self ..
  · split
    · exact Function.update_self ..
    · omega

theorem curspl_splx_of_ne (spl : Nat) (h : q ≠ p) : (k.splx p spl).curspl q = k.curspl q := by
  unfold splx
  split
  · exact Function.update_of_ne h ..
  · split
    · exact Function.update_of_ne h ..
    · rfl

theorem curspl_enterFork_self : k.enterFork.curspl k.cur = 1 := curspl_splx_self ..

theorem curspl_enterFork_of_ne (h : p ≠ k.cur) : k.enterFork.curspl p = k.curspl p :=
  curspl_splx_of_ne _ _ h

end curspl

/-- The beginning of `sys_fork` leaves the interrupt level as `splhigh` sets it. -/
theorem sysFork_curspl {k : Machine} (h : k.sysFork child b c = .ok (k', r)) :
    k'.curspl = k.enterFork.curspl := by
  unfold sysFork at h
  simp only at h
  split at h
  · cases h
    rfl
  · split at h
    · cases h
      simp
    · obtain ⟨vm, -, h⟩ := bind_ok.1 h
      split at h
      · cases h
        simp
      · cases h

theorem sysFork_result {k : Machine} (h : k.sysFork child b c = .ok (k', r)) :
    (r = none ∧ b = true ∧ c = true) ∨ (r = some enomem ∧ (b = false ∨ c = false)) := by
  unfold sysFork at h
  simp only at h
  split at h
  · rename_i hb
    cases h
    exact .inr ⟨rfl, .inl (by simpa using hb)⟩
  · rename_i hb
    split at h
    · rename_i hc
      cases h
      exact .inr ⟨rfl, .inr (by simpa using hc)⟩
    · rename_i hc
      obtain ⟨vm, -, h⟩ := bind_ok.1 h
      split at h
      · cases h
        exact .inl ⟨rfl, by simpa using hb, by simpa using hc⟩
      · cases h

/-- The end of `sys_fork` goes back to the old interrupt level only if it succeeds. -/
theorem sysForkEnd_result {k : Machine} (h : k.sysForkEnd child b c = .ok (k', err)) :
    (err = 0 ∧ b = true ∧ c = true ∧ ∀ q, q ≠ k.cur → k'.curspl q = k.curspl q) ∨
    (err = enomem ∧ (b = false ∨ c = false) ∧ k'.curspl = k.curspl) := by
  unfold sysForkEnd at h
  split at h
  · rename_i hb
    obtain ⟨vm, -, h⟩ := bind_ok.1 h
    cases h
    exact .inr ⟨rfl, .inl (by simpa using hb), by simp⟩
  · rename_i hb
    simp only at h
    split at h
    · rename_i hc
      obtain ⟨vm, -, h⟩ := bind_ok.1 h
      cases h
      exact .inr ⟨rfl, .inr (by simpa using hc), by simp⟩
    · rename_i hc
      obtain ⟨vm, -, h⟩ := bind_ok.1 h
      cases h
      refine .inl ⟨rfl, by simpa using hb, by simpa using hc, ?_⟩
      intro q hq
      rw [curspl_splx_of_ne _ _ hq]
      simp

/-- A process keeps its interrupt level while it is in `as_copy`. -/
theorem Copying.curspl {k k' : Machine} (h : Copying p k a k') (hp : k.curspl p = 1) :
    k'.curspl p = 1 := by
  obtain ⟨⟨hen, hex⟩, hnot⟩ := h
  cases a with
  | vm a =>
    obtain ⟨vm, -, h⟩ := bind_ok.1 hex
    cases h
    exact hp
  | spawn q =>
    obtain ⟨vm, -, h⟩ := bind_ok.1 hex
    cases h
    simpa using hp
  | exec vn phs =>
    obtain ⟨vm, -, h⟩ := bind_ok.1 hex
    cases h
    simpa using hp
  | fork child b c =>
    -- a second fork of the process would fail the assertion of `syscall`
    obtain ⟨_, hspl, h⟩ := bind_ok.1 hex
    obtain ⟨⟨k₁, r⟩, hcall, h⟩ := bind_ok.1 h
    have hne : p ≠ k.cur := by
      rintro rfl
      have h0 := (syscallAssert_ok.1 hspl).1
      omega
    have hk' : k' = k₁ := by
      simp only at h
      split at h
      · obtain ⟨_, -, h⟩ := bind_ok.1 h
        cases h
        rfl
      · cases h
        rfl
    rw [hk', sysFork_curspl hcall, curspl_enterFork_of_ne _ hne]
    exact hp
  | forked b c =>
    have hne : p ≠ k.cur := fun he => hnot ⟨he.symm, b, c, rfl⟩
    simp only [exec] at hex
    split at hex
    · obtain ⟨⟨k₁, err⟩, hend, h⟩ := bind_ok.1 hex
      obtain ⟨_, -, h⟩ := bind_ok.1 h
      cases h
      rcases sysForkEnd_result hend with ⟨-, -, -, hq⟩ | ⟨-, -, hq⟩
      · rw [hq p hne]
        exact hp
      · rw [hq]
        exact hp
    · cases hex
      exact hp
  | wait q =>
    obtain ⟨vm, -, h⟩ := bind_ok.1 hex
    cases h
    simpa using hp
  | exorcise =>
    cases hex
    simpa using hp

end Machine

/-- A call of `sys_fork` that returns an error leaves the interrupts off. -/
theorem ForkCall.failed {k k' : Machine} (h : ForkCall k o k' err)
    (ho : ¬ (o.proc = true ∧ o.addrspace = true ∧ o.trapframe = true ∧ o.thread = true)) :
    err = enomem ∧ k.curspl k.cur = 0 ∧ k'.curspl k.cur = 1 := by
  cases h with
  | early hen hspl hcall =>
    refine ⟨?_, (Machine.syscallAssert_ok.1 hspl).1, ?_⟩
    · rcases Machine.sysFork_result hcall with ⟨hr, -⟩ | ⟨hr, -⟩
      · cases hr
      · exact Option.some.inj hr
    · rw [Machine.sysFork_curspl hcall]
      exact k.curspl_enterFork_self
  | late hen hspl hcall hcopy hcur hend hret =>
    have h1 := k.curspl_enterFork_self
    rw [← Machine.sysFork_curspl hcall] at h1
    have h2 := hcopy.invariant (P := fun u => u.curspl k.cur = 1) h1
      fun _ _ _ hu hs => Machine.Copying.curspl hs hu
    rcases Machine.sysFork_result hcall with ⟨-, hb, hc⟩ | ⟨hr, -⟩
    · rcases Machine.sysForkEnd_result hret with ⟨-, hb', hc', -⟩ | ⟨herr, -, hspl'⟩
      · exact absurd ⟨hb, hc, hb', hc'⟩ ho
      · rw [hspl']
        exact ⟨herr, (Machine.syscallAssert_ok.1 hspl).1, h2⟩
    · cases hr

theorem ForkCall.succeeded {k k' : Machine} (h : ForkCall k o k' err) (hp : o.proc = true)
    (ha : o.addrspace = true) (ht : o.trapframe = true) (hth : o.thread = true) : err = 0 := by
  cases h with
  | early hen hspl hcall =>
    rcases Machine.sysFork_result hcall with ⟨hr, -⟩ | ⟨-, hb | hc⟩
    · cases hr
    · rw [hp] at hb
      cases hb
    · rw [ha] at hc
      cases hc
  | late hen hspl hcall hcopy hcur hend hret =>
    rcases Machine.sysForkEnd_result hret with ⟨herr, -⟩ | ⟨-, hb | hc, -⟩
    · exact herr
    · rw [ht] at hb
      cases hb
    · rw [hth] at hc
      cases hc

/-- A fork that returns an error leaves everything as it was exactly if none of its allocations
fails, that is if it returns no error; else the assertion at the end of `syscall` stops the
kernel. -/
theorem failed_fork_restores (h : ForkCall k o k' err) :
    ((err ≠ 0 → Machine.Restored k k') ↔
      o.proc = true ∧ o.addrspace = true ∧ o.trapframe = true ∧ o.thread = true) ∧
    (err ≠ 0 → k'.syscallAssert k.cur = .error .syscall) := by
  refine ⟨⟨?_, ?_⟩, ?_⟩
  · intro hr
    by_contra ho
    obtain ⟨herr, h0, h1⟩ := h.failed ho
    have heq := (hr (by rw [herr]; decide)).curspl
    omega
  · rintro ⟨hp, ha, ht, hth⟩ herr
    exact absurd (h.succeeded hp ha ht hth) herr
  · intro herr
    have ho : ¬ (o.proc = true ∧ o.addrspace = true ∧ o.trapframe = true ∧ o.thread = true) :=
      fun ⟨hp, ha, ht, hth⟩ => herr (h.succeeded hp ha ht hth)
    obtain ⟨-, -, h1⟩ := h.failed ho
    unfold Machine.syscallAssert
    rw [if_neg]
    rintro ⟨h0, -⟩
    omega

/-- A program that has one page in memory. -/
def forkingProgram : List MachineAction :=
  [.spawn 2, .vm (.dispatch 2), .exec 0 (programHeaders 0x400000 4096 0x10000000 4096),
    .vm (.fault .read 0x400000), .vm .advance, .vm .advance, .vm .advance]

def MachineAction.isAdvance : MachineAction → Bool
  | .vm .advance => true
  | _ => false

/-- The state in which a call of `sys_fork` returns when the running process alone goes on in
`as_copy`, and its result. -/
def Machine.forkCall (k : Machine) (child : Nat) (o : ForkOutcomes) (n : Nat) :
    Option (Machine × Nat) :=
  match k.sysFork child o.proc o.addrspace with
  | .ok (k', some err) => some (k', err)
  | .ok (k₁, none) =>
    match k₁.follow MachineAction.isAdvance (List.replicate n (.vm .advance)) with
    | some k₂ =>
      if k₂.cur = k.cur ∧ k₂.atForkEnd = some child then
        match k₂.sysForkEnd child o.trapframe o.thread with
        | .ok r => some r
        | .error _ => none
      else none
    | none => none
  | .error _ => none

theorem ForkCall.of_forkCall {k : Machine} (hen : k.Enabled (.fork child o.proc o.addrspace))
    (hspl : k.syscallAssert k.cur = .ok ()) (h : k.forkCall child o n = some (k', err)) :
    ForkCall k o k' err := by
  unfold Machine.forkCall at h
  split at h
  · rename_i hcall
    cases h
    exact .early hen hspl hcall
  · rename_i k₁ hcall
    split at h
    · rename_i k₂ hk₂
      split at h
      · rename_i hend
        split at h
        · rename_i hret
          cases h
          refine .late hen hspl hcall ((Machine.follow_run hk₂).mono ?_) hend.1 hend.2 hret
          rintro t a u ⟨ha, hs⟩
          refine ⟨hs, ?_⟩
          rintro ⟨-, x, y, rfl⟩
          cases ha
        · cases h
      · cases h
    · cases h
  · cases h

/-- The fork fails in `thread_fork`, after the memory was copied. -/
theorem failed_fork_restores_thread : ∃ tr k k', Run MachineStep (Machine.boot (.blank 3 6)) tr k ∧
    ForkCall k ⟨true, true, true, false⟩ k' enomem ∧ ¬ Machine.Restored k k' ∧
    k'.syscallAssert k.cur = .error .syscall := by
  have hk : ((Machine.boot (.blank 3 6)).follow (fun _ => true) forkingProgram).any (fun k =>
      decide (k.Enabled (.fork 3 true true) ∧ k.curspl k.cur = 0 ∧ k.iplhighCount k.cur = 0) &&
        (k.forkCall 3 ⟨true, true, true, false⟩ 6).any fun r => r.2 == enomem) = true := by
    decide +kernel
  obtain ⟨k, hr, hk⟩ := (Option.any_eq_true ..).1 hk
  obtain ⟨hen, hk⟩ := Bool.and_eq_true_iff.1 hk
  obtain ⟨⟨k', err⟩, hcall, herr⟩ := (Option.any_eq_true ..).1 hk
  obtain ⟨hen, hspl⟩ := of_decide_eq_true hen
  cases beq_iff_eq.1 herr
  have hfork := ForkCall.of_forkCall (o := ⟨true, true, true, false⟩) hen
    (Machine.syscallAssert_ok.2 hspl) hcall
  obtain ⟨hiff, hstop⟩ := failed_fork_restores hfork
  refine ⟨_, k, k', (Machine.follow_run hr).mono (fun _ _ _ h => h.2), hfork, ?_, ?_⟩
  · intro hres
    cases (hiff.1 fun _ => hres).2.2.2
  · exact hstop (by decide)

/-- A fork that finds no memory for the `struct proc` keeps the semaphore, and leaves the
interrupts of the caller off. -/
theorem failed_fork_keeps_semaphore : ∃ tr k k',
    Run MachineStep (Machine.boot (.blank 3 6)) tr k ∧
    ForkCall k ⟨false, true, true, true⟩ k' enomem ∧ k.vm.semFork = true ∧
    k'.vm.semFork = false ∧ k.curspl k.cur = 0 ∧ k'.curspl k.cur = 1 ∧
    ¬ Machine.Restored k k' := by
  have hk : ((Machine.boot (.blank 3 6)).follow (fun _ => true) forkingProgram).any (fun k =>
      decide (k.Enabled (.fork 3 false true) ∧ k.curspl k.cur = 0 ∧ k.iplhighCount k.cur = 0) &&
        (k.vm.semFork && (k.forkCall 3 ⟨false, true, true, true⟩ 0).any fun r =>
          r.2 == enomem && !r.1.vm.semFork)) = true := by
    decide +kernel
  obtain ⟨k, hr, hk⟩ := (Option.any_eq_true ..).1 hk
  obtain ⟨hen, hk⟩ := Bool.and_eq_true_iff.1 hk
  obtain ⟨hsem, hk⟩ := Bool.and_eq_true_iff.1 hk
  obtain ⟨⟨k', err⟩, hcall, hk⟩ := (Option.any_eq_true ..).1 hk
  obtain ⟨herr, hsem'⟩ := Bool.and_eq_true_iff.1 hk
  obtain ⟨hen, hspl⟩ := of_decide_eq_true hen
  cases beq_iff_eq.1 herr
  have hfork := ForkCall.of_forkCall (o := ⟨false, true, true, true⟩) hen
    (Machine.syscallAssert_ok.2 hspl) hcall
  obtain ⟨-, h0, h1⟩ := hfork.failed nofun
  refine ⟨_, k, k', (Machine.follow_run hr).mono (fun _ _ _ h => h.2), hfork, hsem,
    by simpa using hsem', h0, h1, ?_⟩
  intro hres
  have heq := hres.semFork
  rw [hsem] at heq
  rw [heq] at hsem'
  cases hsem'

end Clape
