import Mathlib.Logic.Function.Basic
import Mathlib.Data.List.Nodup
import Clape.Runs

namespace Clape
set_option autoImplicit true

/-- The calls of synch.c. -/
inductive SynchCall (ι κ : Type) where
  | acquire (l : ι)
  | release (l : ι)
  | wait (c : κ) (l : ι)
  | signal (c : κ) (l : ι)
  | broadcast (c : κ) (l : ι)
  deriving DecidableEq, Repr

/-- Where a thread stands. `enter` is before the assertion on `lock_do_i_hold`; from `cvEnter`
to `cvQueue` a thread has `cv_lock`; a thread that is taken off a wait channel is at `retest`
or `cvWoken`. -/
inductive SynchPc (ι κ : Type) where
  | out
  | enter (f : SynchCall ι κ)
  | acquire (l : ι)
  | lockSleep (l : ι)
  | retest (l : ι)
  | release (l : ι)
  | wait (c : κ) (l : ι)
  | cvEnter (c : κ) (l : ι)
  | cvRelease (c : κ) (l : ι)
  | cvQueue (c : κ) (l : ι)
  | cvSleep (c : κ) (l : ι)
  | cvWoken (c : κ) (l : ι)
  | cvAgain (l : ι)
  | signal (c : κ) (l : ι)
  | broadcast (c : κ) (l : ι)
  deriving DecidableEq, Repr

/-- The locks and condition variables, and the threads that use them. The spinlock `cv_lock` is
kept over several steps by `cv_wait` alone, all other spinlocks within one step. -/
structure Synch (τ ι κ : Type) where
  lkOwner : ι → Option τ
  lkWchan : ι → List τ
  cvWchan : κ → List τ
  cvLock : κ → Option τ
  pc : τ → SynchPc ι κ

/-- The sections under a spinlock. In `lock_acquire` a thread takes the lock or goes to sleep;
in `cv_wait` it takes `cv_lock`, releases the lock, goes to sleep, and takes and gives `cv_lock`
when it is woken. -/
inductive SynchEvent (τ ι κ : Type) where
  | call (t : τ) (f : SynchCall ι κ)
  | check (t : τ)
  | acquire (t : τ) (l : ι)
  | block (t : τ) (l : ι)
  | release (t : τ) (l : ι)
  | spin (t : τ) (c : κ)
  | queue (t : τ) (c : κ)
  | resume (t : τ) (c : κ)
  | signal (t : τ) (c : κ)
  | broadcast (t : τ) (c : κ)
  deriving DecidableEq, Repr

/-- The functions with an assertion on `lock_do_i_hold`. -/
inductive SynchFn where
  | lockAcquire | lockRelease | cvWait | cvSignal | cvBroadcast
  deriving DecidableEq, Repr

/-- The effect of `thread_make_runnable` on a thread taken off a wait channel. -/
def SynchPc.wake : SynchPc ι κ → SynchPc ι κ
  | .lockSleep l => .retest l
  | .cvSleep c l => .cvWoken c l
  | p => p

/-- The lock that a call is about. -/
def SynchCall.lock : SynchCall ι κ → ι
  | .acquire l | .release l | .wait _ l | .signal _ l | .broadcast _ l => l

def SynchCall.fn : SynchCall ι κ → SynchFn
  | .acquire _ => .lockAcquire
  | .release _ => .lockRelease
  | .wait _ _ => .cvWait
  | .signal _ _ => .cvSignal
  | .broadcast _ _ => .cvBroadcast

/-- Where a call goes on after its assertion. -/
def SynchCall.body : SynchCall ι κ → SynchPc ι κ
  | .acquire l => .acquire l
  | .release l => .release l
  | .wait c l => .wait c l
  | .signal c l => .signal c l
  | .broadcast c l => .broadcast c l

namespace Synch
variable [DecidableEq τ] [DecidableEq ι] [DecidableEq κ]

def goto (s : Synch τ ι κ) (t : τ) (p : SynchPc ι κ) : Synch τ ι κ :=
  { s with pc := Function.update s.pc t p }

def lockDoIHold (s : Synch τ ι κ) (t : τ) (l : ι) : Bool := s.lkOwner l == some t

/-- `wchan_wakeone` for the wait channel of a lock. -/
def wakeLock (s : Synch τ ι κ) (l : ι) : Synch τ ι κ :=
  match s.lkWchan l with
  | [] => s
  | t :: r => { s with lkWchan := Function.update s.lkWchan l r }.goto t (s.pc t).wake

/-- `wchan_wakeone` for the wait channel of a condition variable. -/
def wakeCv (s : Synch τ ι κ) (c : κ) : Synch τ ι κ :=
  match s.cvWchan c with
  | [] => s
  | t :: r => { s with cvWchan := Function.update s.cvWchan c r }.goto t (s.pc t).wake

/-- `wchan_wakeall` for the wait channel of a condition variable. -/
def wakeAllCv (s : Synch τ ι κ) (c : κ) : Synch τ ι κ :=
  { s with
    cvWchan := Function.update s.cvWchan c []
    pc := fun t => if t ∈ s.cvWchan c then (s.pc t).wake else s.pc t }

/-- The section of `lock_release`. -/
def giveLock (s : Synch τ ι κ) (l : ι) : Synch τ ι κ :=
  { s with lkOwner := Function.update s.lkOwner l none }.wakeLock l

/-- When a section can be run. Releases and the operations on condition variables are called
by the owner of the lock. -/
def Enabled (s : Synch τ ι κ) : SynchEvent τ ι κ → Prop
  | .call t f => s.pc t = .out ∧ ((∃ l, f = .acquire l) ∨ s.lkOwner f.lock = some t)
  | .check t => (∃ f, s.pc t = .enter f) ∨ (∃ c l, s.pc t = .cvEnter c l) ∨ ∃ l, s.pc t = .cvAgain l
  | .acquire t l => (s.pc t = .acquire l ∨ s.pc t = .retest l) ∧ s.lkOwner l = none
  | .block t l => (s.pc t = .acquire l ∨ s.pc t = .retest l) ∧ s.lkOwner l ≠ none
  | .release t l => s.pc t = .release l ∨ ∃ c, s.pc t = .cvRelease c l
  | .spin t c => (∃ l, s.pc t = .wait c l) ∧ s.cvLock c = none
  | .queue t c => ∃ l, s.pc t = .cvQueue c l
  | .resume t c => (∃ l, s.pc t = .cvWoken c l) ∧ s.cvLock c = none
  | .signal t c => (∃ l, s.pc t = .signal c l) ∧ s.cvLock c = none
  | .broadcast t c => (∃ l, s.pc t = .broadcast c l) ∧ s.cvLock c = none

/-- The effect of a section; an error is the assertion that fails. -/
def exec (s : Synch τ ι κ) : SynchEvent τ ι κ → Except SynchFn (Synch τ ι κ)
  | .call t f => .ok (s.goto t (.enter f))
  | .check t =>
    match s.pc t with
    | .enter (.acquire l) =>
      if s.lockDoIHold t l then .error .lockAcquire else .ok (s.goto t (.acquire l))
    | .enter f => if s.lockDoIHold t f.lock then .ok (s.goto t f.body) else .error f.fn
    | .cvEnter c l =>
      if s.lockDoIHold t l then .ok (s.goto t (.cvRelease c l)) else .error .lockRelease
    | .cvAgain l => if s.lockDoIHold t l then .error .lockAcquire else .ok (s.goto t (.acquire l))
    | _ => .ok s
  | .acquire t l => .ok ({ s with lkOwner := Function.update s.lkOwner l (some t) }.goto t .out)
  | .block t l =>
    .ok ({ s with lkWchan := Function.update s.lkWchan l (s.lkWchan l ++ [t]) }.goto t (.lockSleep l))
  | .release t l =>
    match s.pc t with
    | .cvRelease c _ => .ok ((s.giveLock l).goto t (.cvQueue c l))
    | _ => .ok ((s.giveLock l).goto t .out)
  | .spin t c =>
    match s.pc t with
    | .wait _ l =>
      .ok ({ s with cvLock := Function.update s.cvLock c (some t) }.goto t (.cvEnter c l))
    | _ => .ok s
  | .queue t c =>
    match s.pc t with
    | .cvQueue _ l => .ok ({ s with
        cvWchan := Function.update s.cvWchan c (s.cvWchan c ++ [t])
        cvLock := Function.update s.cvLock c none }.goto t (.cvSleep c l))
    | _ => .ok s
  | .resume t _ =>
    match s.pc t with
    | .cvWoken _ l => .ok (s.goto t (.cvAgain l))
    | _ => .ok s
  | .signal t c => .ok ((s.wakeCv c).goto t .out)
  | .broadcast t c => .ok ((s.wakeAllCv c).goto t .out)

/-- No lock is taken and no thread is in a call. -/
def start : Synch τ ι κ := ⟨fun _ => none, fun _ => [], fun _ => [], fun _ => none, fun _ => .out⟩

end Synch

def SynchStep [DecidableEq τ] [DecidableEq ι] [DecidableEq κ] (s : Synch τ ι κ)
    (e : SynchEvent τ ι κ) (s' : Synch τ ι κ) : Prop := s.Enabled e ∧ s.exec e = .ok s'

/-- The lock that a thread must own where it stands. -/
def SynchPc.needs : SynchPc ι κ → Option ι
  | .enter (.release l) | .enter (.wait _ l) | .enter (.signal _ l) | .enter (.broadcast _ l)
  | .release l | .wait _ l | .cvEnter _ l | .cvRelease _ l | .signal _ l | .broadcast _ l => some l
  | _ => none

/-- The lock that a thread in `cv_wait` has given up. -/
def SynchPc.lacks : SynchPc ι κ → Option ι
  | .acquire l | .lockSleep l | .retest l | .cvQueue _ l | .cvSleep _ l | .cvWoken _ l
  | .cvAgain l => some l
  | _ => none

/-- The wait channel that a thread is on. -/
def SynchPc.lockQueue : SynchPc ι κ → Option ι
  | .lockSleep l => some l
  | _ => none

def SynchPc.cvQueued : SynchPc ι κ → Option κ
  | .cvSleep c _ => some c
  | _ => none

theorem SynchPc.eq_lockSleep {p : SynchPc ι κ} (h : p.lockQueue = some l) : p = .lockSleep l := by
  cases p with
  | lockSleep l' =>
    cases h
    rfl
  | _ => cases h

theorem SynchPc.eq_cvSleep {p : SynchPc ι κ} (h : p.cvQueued = some c) : ∃ l, p = .cvSleep c l := by
  cases p with
  | cvSleep c' l =>
    cases h
    exact ⟨l, rfl⟩
  | _ => cases h

/-- The condition variable whose spinlock a thread has. -/
def SynchPc.spins : SynchPc ι κ → Option κ
  | .cvEnter c _ | .cvRelease c _ | .cvQueue c _ => some c
  | _ => none

/-- The thread has taken the lock and not released it since, as its events tell. -/
def inside [DecidableEq τ] [DecidableEq ι] (t : τ) (l : ι) (tr : List (SynchEvent τ ι κ)) : Bool :=
  tr.foldl (fun b e =>
    match e with
    | .acquire t' l' => if t' = t ∧ l' = l then true else b
    | .release t' l' => if t' = t ∧ l' = l then false else b
    | _ => b) false

namespace Synch
variable [DecidableEq τ] [DecidableEq ι] [DecidableEq κ]

/-- The owners, the wait channels and the spinlocks agree with where the threads stand. -/
structure Ordered (s : Synch τ ι κ) : Prop where
  needs : (s.pc t).needs = some l → s.lkOwner l = some t
  lacks : (s.pc t).lacks = some l → s.lkOwner l ≠ some t
  locked : t ∈ s.lkWchan l ↔ (s.pc t).lockQueue = some l
  queued : t ∈ s.cvWchan c ↔ (s.pc t).cvQueued = some c
  nodupLock : (s.lkWchan l).Nodup
  nodupCv : (s.cvWchan c).Nodup
  spins : s.cvLock c = some t ↔ (s.pc t).spins = some c
  retest : s.lkOwner l = none → s.lkWchan l ≠ [] → ∃ t, s.pc t = .retest l

omit [DecidableEq ι] [DecidableEq κ] in
theorem pc_goto_self (s : Synch τ ι κ) (t : τ) (p : SynchPc ι κ) : (s.goto t p).pc t = p :=
  Function.update_self ..

omit [DecidableEq ι] [DecidableEq κ] in
theorem pc_goto_of_ne (s : Synch τ ι κ) (p : SynchPc ι κ) (h : q ≠ t) :
    (s.goto t p).pc q = s.pc q :=
  Function.update_of_ne h ..

omit [DecidableEq ι] [DecidableEq κ] in
/-- One thread goes to another place, and the rest changes for this thread alone. -/
theorem Ordered.change {s s' : Synch τ ι κ} (h : s.Ordered)
    (hpc : s'.pc = Function.update s.pc t p)
    (hown : ∀ l q, q ≠ t → (s'.lkOwner l = some q ↔ s.lkOwner l = some q))
    (hlk : ∀ l q, q ≠ t → (q ∈ s'.lkWchan l ↔ q ∈ s.lkWchan l))
    (hcv : ∀ c q, q ≠ t → (q ∈ s'.cvWchan c ↔ q ∈ s.cvWchan c))
    (hsp : ∀ c q, q ≠ t → (s'.cvLock c = some q ↔ s.cvLock c = some q))
    (needs : ∀ l, p.needs = some l → s'.lkOwner l = some t)
    (lacks : ∀ l, p.lacks = some l → s'.lkOwner l ≠ some t)
    (locked : ∀ l, t ∈ s'.lkWchan l ↔ p.lockQueue = some l)
    (queued : ∀ c, t ∈ s'.cvWchan c ↔ p.cvQueued = some c)
    (nodup : (∀ l, (s'.lkWchan l).Nodup) ∧ ∀ c, (s'.cvWchan c).Nodup)
    (spins : ∀ c, s'.cvLock c = some t ↔ p.spins = some c)
    (retest : ∀ l, s'.lkOwner l = none → s'.lkWchan l ≠ [] →
      p = .retest l ∨ ∃ q, q ≠ t ∧ s.pc q = .retest l) : s'.Ordered := by
  have hself : s'.pc t = p := by rw [hpc, Function.update_self]
  have hother : ∀ q, q ≠ t → s'.pc q = s.pc q := by
    intro q hq
    rw [hpc, Function.update_of_ne hq]
  constructor
  · intro q l hq
    by_cases hqt : q = t
    · rw [hqt, hself] at hq
      rw [hqt]
      exact needs l hq
    · rw [hother q hqt] at hq
      exact (hown l q hqt).2 (h.needs hq)
  · intro q l hq ho
    by_cases hqt : q = t
    · rw [hqt, hself] at hq
      rw [hqt] at ho
      exact lacks l hq ho
    · rw [hother q hqt] at hq
      exact h.lacks hq ((hown l q hqt).1 ho)
  · intro l q
    by_cases hqt : q = t
    · rw [hqt, hself]
      exact locked l
    · rw [hother q hqt, hlk l q hqt]
      exact h.locked
  · intro c q
    by_cases hqt : q = t
    · rw [hqt, hself]
      exact queued c
    · rw [hother q hqt, hcv c q hqt]
      exact h.queued
  · exact nodup.1 _
  · exact nodup.2 _
  · intro c q
    by_cases hqt : q = t
    · rw [hqt, hself]
      exact spins c
    · rw [hother q hqt, hsp c q hqt]
      exact h.spins
  · intro l ho hw
    rcases retest l ho hw with rfl | ⟨q, hqt, hq⟩
    · exact ⟨t, hself⟩
    · exact ⟨q, by rw [hother q hqt, hq]⟩

omit [DecidableEq τ] [DecidableEq ι] [DecidableEq κ] in
theorem Ordered.retest_other {s : Synch τ ι κ} {p : SynchPc ι κ} (h : s.Ordered) (hr : ∀ l, s.pc t ≠ .retest l)
    (l : ι) (ho : s.lkOwner l = none) (hw : s.lkWchan l ≠ []) :
    p = .retest l ∨ ∃ q, q ≠ t ∧ s.pc q = .retest l := by
  obtain ⟨q, hq⟩ := h.retest ho hw
  refine .inr ⟨q, ?_, hq⟩
  rintro rfl
  exact hr l hq

omit [DecidableEq ι] [DecidableEq κ] in
theorem Ordered.move {s : Synch τ ι κ} (h : s.Ordered)
    (hn : ∀ l, p.needs = some l → s.lkOwner l = some t)
    (hl : ∀ l, p.lacks = some l → s.lkOwner l ≠ some t)
    (hlq : p.lockQueue = (s.pc t).lockQueue) (hcq : p.cvQueued = (s.pc t).cvQueued)
    (hsp : p.spins = (s.pc t).spins) (hr : ∀ l, s.pc t ≠ .retest l) : (s.goto t p).Ordered := by
  refine h.change (t := t) (p := p) rfl (fun _ _ _ => Iff.rfl) (fun _ _ _ => Iff.rfl)
    (fun _ _ _ => Iff.rfl) (fun _ _ _ => Iff.rfl) hn hl ?_ ?_ ?_ ?_ ?_
  · intro l
    rw [hlq]
    exact h.locked
  · intro c
    rw [hcq]
    exact h.queued
  · exact ⟨fun _ => h.nodupLock, fun _ => h.nodupCv⟩
  · intro c
    rw [hsp]
    exact h.spins
  · exact h.retest_other hr

omit [DecidableEq τ] in
theorem mem_update {ν : Type} [DecidableEq ν] {f : ν → List τ} {W : List τ} {k : ν} (h : q ∈ W ↔ q ∈ f k)
    (k' : ν) : q ∈ Function.update f k W k' ↔ q ∈ f k' := by
  by_cases hk : k' = k
  · rw [hk, Function.update_self]
    exact h
  · rw [Function.update_of_ne hk]

omit [DecidableEq τ] in
theorem nodup_update {ν : Type} [DecidableEq ν] {f : ν → List τ} {W : List τ} {k : ν} (hW : W.Nodup)
    (h : ∀ k, (f k).Nodup) (k' : ν) : (Function.update f k W k').Nodup := by
  by_cases hk : k' = k
  · rw [hk, Function.update_self]
    exact hW
  · rw [Function.update_of_ne hk]
    exact h k'

omit [DecidableEq τ] [DecidableEq ι] [DecidableEq κ] in
theorem Ordered.locked_of {s : Synch τ ι κ} (h : s.Ordered) (hpc : s.pc t = p) (l : ι) :
    t ∈ s.lkWchan l ↔ p.lockQueue = some l := by
  rw [← hpc]
  exact h.locked

omit [DecidableEq τ] [DecidableEq ι] [DecidableEq κ] in
theorem Ordered.queued_of {s : Synch τ ι κ} (h : s.Ordered) (hpc : s.pc t = p) (c : κ) :
    t ∈ s.cvWchan c ↔ p.cvQueued = some c := by
  rw [← hpc]
  exact h.queued

omit [DecidableEq τ] [DecidableEq ι] [DecidableEq κ] in
theorem Ordered.spins_of {s : Synch τ ι κ} (h : s.Ordered) (hpc : s.pc t = p) (c : κ) :
    s.cvLock c = some t ↔ p.spins = some c := by
  rw [← hpc]
  exact h.spins

omit [DecidableEq κ] in
/-- A thread is taken off the wait channel of a lock that is not free. -/
theorem Ordered.wakeLock {s : Synch τ ι κ} (h : s.Ordered) (hw : s.lkWchan l = w :: r)
    (ho : s.lkOwner l ≠ none) :
    ({ s with lkWchan := Function.update s.lkWchan l r }.goto w (s.pc w).wake).Ordered := by
  have hpc : s.pc w = .lockSleep l := by
    apply SynchPc.eq_lockSleep
    rw [← h.locked, hw]
    exact List.mem_cons_self
  have hnd := h.nodupLock (l := l)
  rw [hw, List.nodup_cons] at hnd
  rw [hpc]
  refine h.change (t := w) (p := .retest l) rfl (fun _ _ _ => Iff.rfl) ?_ (fun _ _ _ => Iff.rfl)
    (fun _ _ _ => Iff.rfl) nofun ?_ ?_ ?_ ⟨nodup_update hnd.2 fun _ => h.nodupLock, fun _ => h.nodupCv⟩
    ?_ ?_
  · intro l' q hq
    apply mem_update
    rw [hw]
    simp [hq]
  · intro l' hl'
    cases hl'
    exact h.lacks (by rw [hpc]; rfl)
  · intro l'
    refine ⟨fun hm => ?_, nofun⟩
    by_cases hl : l' = l
    · rw [hl] at hm
      change w ∈ Function.update s.lkWchan l r l at hm
      rw [Function.update_self] at hm
      exact (hnd.1 hm).elim
    · change w ∈ Function.update s.lkWchan l r l' at hm
      rw [Function.update_of_ne hl, h.locked, hpc] at hm
      cases hm
      exact (hl rfl).elim
  · intro c
    exact (h.queued_of hpc c).trans ⟨nofun, nofun⟩
  · intro c
    exact (h.spins_of hpc c).trans ⟨nofun, nofun⟩
  · intro l' ho' hw'
    by_cases hl : l' = l
    · rw [hl] at ho'
      exact (ho ho').elim
    · change Function.update s.lkWchan l r l' ≠ [] at hw'
      rw [Function.update_of_ne hl] at hw'
      obtain ⟨q, hq⟩ := h.retest ho' hw'
      refine .inr ⟨q, ?_, hq⟩
      rintro rfl
      rw [hpc] at hq
      cases hq

omit [DecidableEq κ] in
/-- The owner of a lock gives it up after a thread was woken to test it again. -/
theorem Ordered.disown {s : Synch τ ι κ} (h : s.Ordered) (ho : s.lkOwner l = some t)
    (hw : s.lkWchan l = [] ∨ ∃ q, q ≠ t ∧ s.pc q = .retest l) (hpc : s.pc t = a)
    (hr : ∀ l', a ≠ .retest l') (hn : p.needs = none) (hlk : ∀ l', p.lacks = some l' → l' = l)
    (hlq : p.lockQueue = a.lockQueue) (hcq : p.cvQueued = a.cvQueued)
    (hsp : p.spins = a.spins) :
    ({ s with lkOwner := Function.update s.lkOwner l none }.goto t p).Ordered := by
  have hown : ∀ l', Function.update s.lkOwner l none l' = if l' = l then none else s.lkOwner l' :=
    fun l' => Function.update_apply ..
  refine h.change (t := t) (p := p) rfl ?_ (fun _ _ _ => Iff.rfl) (fun _ _ _ => Iff.rfl)
    (fun _ _ _ => Iff.rfl) ?_ ?_ ?_ ?_ ⟨fun _ => h.nodupLock, fun _ => h.nodupCv⟩ ?_ ?_
  · intro l' q hq
    change Function.update s.lkOwner l none l' = some q ↔ _
    rw [hown]
    split
    · rename_i hl
      rw [hl, ho]
      exact ⟨nofun, fun he => (hq (Option.some.inj he).symm).elim⟩
    · exact Iff.rfl
  · intro l' hl'
    rw [hn] at hl'
    cases hl'
  · intro l' hl'
    change Function.update s.lkOwner l none l' ≠ some t
    rw [hlk l' hl', Function.update_self]
    exact nofun
  · intro l'
    rw [hlq]
    exact h.locked_of hpc l'
  · intro c
    rw [hcq]
    exact h.queued_of hpc c
  · intro c
    rw [hsp]
    exact h.spins_of hpc c
  · intro l' ho' hw'
    change Function.update s.lkOwner l none l' = none at ho'
    by_cases hl : l' = l
    · subst hl
      exact .inr (hw.resolve_left hw')
    · rw [Function.update_of_ne hl] at ho'
      obtain ⟨q, hq⟩ := h.retest ho' hw'
      refine .inr ⟨q, ?_, hq⟩
      rintro rfl
      rw [hpc] at hq
      exact hr l' hq

omit [DecidableEq κ] in
theorem Ordered.giveLock {s : Synch τ ι κ} (h : s.Ordered) (ho : s.lkOwner l = some t)
    (hpc : s.pc t = a) (hq : a.lockQueue = none) (hr : ∀ l', a ≠ .retest l')
    (hn : p.needs = none) (hlk : ∀ l', p.lacks = some l' → l' = l)
    (hlq : p.lockQueue = a.lockQueue) (hcq : p.cvQueued = a.cvQueued)
    (hsp : p.spins = a.spins) : ((s.giveLock l).goto t p).Ordered := by
  unfold Synch.giveLock Synch.wakeLock
  cases hw : s.lkWchan l with
  | nil =>
    simp only
    exact h.disown ho (.inl hw) hpc hr hn hlk hlq hcq hsp
  | cons w r =>
    simp only
    have hwpc : s.pc w = .lockSleep l := by
      apply SynchPc.eq_lockSleep
      rw [← h.locked, hw]
      exact List.mem_cons_self
    have hwt : t ≠ w := by
      rintro rfl
      rw [← hpc, hwpc] at hq
      cases hq
    have h' := h.wakeLock hw (by rw [ho]; exact nofun)
    refine h'.disown (a := a) ho (.inr ⟨w, hwt.symm, ?_⟩) ?_ hr hn hlk hlq hcq hsp
    · rw [pc_goto_self, hwpc]
      rfl
    · rw [pc_goto_of_ne _ _ hwt]
      exact hpc

omit [DecidableEq κ] in
theorem Ordered.takeLock {s : Synch τ ι κ} (h : s.Ordered)
    (hpc : s.pc t = .acquire l ∨ s.pc t = .retest l) (ho : s.lkOwner l = none) :
    ({ s with lkOwner := Function.update s.lkOwner l (some t) }.goto t .out).Ordered := by
  have hq : (s.pc t).lockQueue = none ∧ (s.pc t).cvQueued = none ∧ (s.pc t).spins = none ∧
      ∀ l', s.pc t = .retest l' → l' = l := by
    rcases hpc with hpc | hpc
    · rw [hpc]
      exact ⟨rfl, rfl, rfl, nofun⟩
    · rw [hpc]
      exact ⟨rfl, rfl, rfl, fun l' hl' => by cases hl'; rfl⟩
  refine h.change (t := t) (p := .out) rfl ?_ (fun _ _ _ => Iff.rfl) (fun _ _ _ => Iff.rfl)
    (fun _ _ _ => Iff.rfl) nofun nofun ?_ ?_ ⟨fun _ => h.nodupLock, fun _ => h.nodupCv⟩ ?_ ?_
  · intro l' q hq'
    change Function.update s.lkOwner l (some t) l' = some q ↔ _
    by_cases hl : l' = l
    · rw [hl, Function.update_self, ho]
      exact ⟨fun he => (hq' (Option.some.inj he).symm).elim, nofun⟩
    · rw [Function.update_of_ne hl]
  · intro l'
    refine (h.locked_of rfl l').trans ?_
    rw [hq.1]
    exact Iff.rfl
  · intro c
    refine (h.queued_of rfl c).trans ?_
    rw [hq.2.1]
    exact Iff.rfl
  · intro c
    refine (h.spins_of rfl c).trans ?_
    rw [hq.2.2.1]
    exact Iff.rfl
  · intro l' ho' hw'
    change Function.update s.lkOwner l (some t) l' = none at ho'
    have hl : l' ≠ l := by
      rintro rfl
      rw [Function.update_self] at ho'
      cases ho'
    rw [Function.update_of_ne hl] at ho'
    obtain ⟨q, hq'⟩ := h.retest ho' hw'
    refine .inr ⟨q, ?_, hq'⟩
    rintro rfl
    exact hl (hq.2.2.2 l' hq')

omit [DecidableEq κ] in
theorem Ordered.block {s : Synch τ ι κ} (h : s.Ordered)
    (hpc : s.pc t = .acquire l ∨ s.pc t = .retest l) (ho : s.lkOwner l ≠ none) :
    ({ s with lkWchan := Function.update s.lkWchan l (s.lkWchan l ++ [t]) }.goto t
      (.lockSleep l)).Ordered := by
  have hq : (s.pc t).lockQueue = none ∧ (s.pc t).cvQueued = none ∧ (s.pc t).spins = none ∧
      (s.pc t).lacks = some l ∧ ∀ l', s.pc t = .retest l' → l' = l := by
    rcases hpc with hpc | hpc
    · rw [hpc]
      exact ⟨rfl, rfl, rfl, rfl, nofun⟩
    · rw [hpc]
      exact ⟨rfl, rfl, rfl, rfl, fun l' hl' => by cases hl'; rfl⟩
  have hout : ∀ l', t ∉ s.lkWchan l' := by
    intro l' hm
    rw [h.locked, hq.1] at hm
    cases hm
  have hnd : (s.lkWchan l ++ [t]).Nodup := by
    rw [List.nodup_append]
    refine ⟨h.nodupLock, List.nodup_singleton t, ?_⟩
    intro q hm b hb he
    rw [List.mem_singleton.1 hb] at he
    exact hout l (he ▸ hm)
  refine h.change (t := t) (p := .lockSleep l) rfl (fun _ _ _ => Iff.rfl) ?_
    (fun _ _ _ => Iff.rfl) (fun _ _ _ => Iff.rfl) nofun ?_ ?_ ?_
    ⟨nodup_update hnd fun _ => h.nodupLock, fun _ => h.nodupCv⟩ ?_ ?_
  · intro l' q hq'
    apply mem_update
    simp [hq']
  · intro l' hl'
    cases hl'
    exact h.lacks hq.2.2.2.1
  · intro l'
    change t ∈ Function.update s.lkWchan l _ l' ↔ _
    by_cases hl : l' = l
    · rw [hl, Function.update_self]
      exact ⟨fun _ => rfl, fun _ => List.mem_append_right _ (List.mem_singleton.2 rfl)⟩
    · rw [Function.update_of_ne hl]
      refine ⟨fun hm => (hout l' hm).elim, fun he => ?_⟩
      cases he
      exact (hl rfl).elim
  · intro c
    refine (h.queued_of rfl c).trans ?_
    rw [hq.2.1]
    exact Iff.rfl
  · intro c
    refine (h.spins_of rfl c).trans ?_
    rw [hq.2.2.1]
    exact Iff.rfl
  · intro l' ho' hw'
    change s.lkOwner l' = none at ho'
    have hl : l' ≠ l := by
      rintro rfl
      exact ho ho'
    change Function.update s.lkWchan l _ l' ≠ [] at hw'
    rw [Function.update_of_ne hl] at hw'
    obtain ⟨q, hq'⟩ := h.retest ho' hw'
    refine .inr ⟨q, ?_, hq'⟩
    rintro rfl
    exact hl (hq.2.2.2.2 l' hq')

omit [DecidableEq ι] in
theorem Ordered.spin {s : Synch τ ι κ} (h : s.Ordered) (hpc : s.pc t = .wait c l)
    (hc : s.cvLock c = none) :
    ({ s with cvLock := Function.update s.cvLock c (some t) }.goto t (.cvEnter c l)).Ordered := by
  refine h.change (t := t) (p := .cvEnter c l) rfl (fun _ _ _ => Iff.rfl) (fun _ _ _ => Iff.rfl)
    (fun _ _ _ => Iff.rfl) ?_ ?_ nofun ?_ ?_ ⟨fun _ => h.nodupLock, fun _ => h.nodupCv⟩ ?_ ?_
  · intro d q hq
    change Function.update s.cvLock c (some t) d = some q ↔ _
    by_cases hd : d = c
    · rw [hd, Function.update_self, hc]
      exact ⟨fun he => (hq (Option.some.inj he).symm).elim, nofun⟩
    · rw [Function.update_of_ne hd]
  · intro l' hl'
    cases hl'
    exact h.needs (by rw [hpc]; rfl)
  · intro l'
    exact (h.locked_of hpc l').trans Iff.rfl
  · intro d
    exact (h.queued_of hpc d).trans Iff.rfl
  · intro d
    change Function.update s.cvLock c (some t) d = some t ↔ _
    by_cases hd : d = c
    · rw [hd, Function.update_self]
      exact ⟨fun _ => rfl, fun _ => rfl⟩
    · rw [Function.update_of_ne hd, h.spins_of hpc d]
      refine ⟨nofun, fun he => ?_⟩
      cases he
      exact (hd rfl).elim
  · exact h.retest_other (by rw [hpc]; exact nofun)

omit [DecidableEq ι] in
theorem Ordered.queue {s : Synch τ ι κ} (h : s.Ordered) (hpc : s.pc t = .cvQueue c l) :
    ({ s with
      cvWchan := Function.update s.cvWchan c (s.cvWchan c ++ [t])
      cvLock := Function.update s.cvLock c none }.goto t (.cvSleep c l)).Ordered := by
  have hout : ∀ d, t ∉ s.cvWchan d := by
    intro d hm
    rw [h.queued_of hpc] at hm
    cases hm
  have hc : s.cvLock c = some t := h.spins.2 (by rw [hpc]; rfl)
  have hnd : (s.cvWchan c ++ [t]).Nodup := by
    rw [List.nodup_append]
    refine ⟨h.nodupCv, List.nodup_singleton t, ?_⟩
    intro q hm b hb he
    rw [List.mem_singleton.1 hb] at he
    exact hout c (he ▸ hm)
  refine h.change (t := t) (p := .cvSleep c l) rfl (fun _ _ _ => Iff.rfl) (fun _ _ _ => Iff.rfl)
    ?_ ?_ nofun ?_ ?_ ?_ ⟨fun _ => h.nodupLock, nodup_update hnd fun _ => h.nodupCv⟩ ?_ ?_
  · intro d q hq
    apply mem_update
    simp [hq]
  · intro d q hq
    change Function.update s.cvLock c none d = some q ↔ _
    by_cases hd : d = c
    · rw [hd, Function.update_self, hc]
      exact ⟨nofun, fun he => (hq (Option.some.inj he).symm).elim⟩
    · rw [Function.update_of_ne hd]
  · intro l' hl'
    cases hl'
    exact h.lacks (by rw [hpc]; rfl)
  · intro l'
    exact (h.locked_of hpc l').trans Iff.rfl
  · intro d
    change t ∈ Function.update s.cvWchan c _ d ↔ _
    by_cases hd : d = c
    · rw [hd, Function.update_self]
      exact ⟨fun _ => rfl, fun _ => List.mem_append_right _ (List.mem_singleton.2 rfl)⟩
    · rw [Function.update_of_ne hd]
      refine ⟨fun hm => (hout d hm).elim, fun he => ?_⟩
      cases he
      exact (hd rfl).elim
  · intro d
    change Function.update s.cvLock c none d = some t ↔ _
    refine ⟨fun he => ?_, nofun⟩
    by_cases hd : d = c
    · rw [hd, Function.update_self] at he
      cases he
    · rw [Function.update_of_ne hd, h.spins_of hpc d] at he
      cases he
      exact (hd rfl).elim
  · exact h.retest_other (by rw [hpc]; exact nofun)

omit [DecidableEq ι] in
theorem Ordered.wakeCv {s : Synch τ ι κ} (h : s.Ordered) (c : κ) : (s.wakeCv c).Ordered := by
  unfold Synch.wakeCv
  cases hw : s.cvWchan c with
  | nil => exact h
  | cons w r =>
    obtain ⟨l, hpc⟩ : ∃ l, s.pc w = .cvSleep c l := by
      apply SynchPc.eq_cvSleep
      rw [← h.queued, hw]
      exact List.mem_cons_self
    have hnd := h.nodupCv (c := c)
    rw [hw, List.nodup_cons] at hnd
    simp only [hpc]
    refine h.change (t := w) (p := .cvWoken c l) rfl (fun _ _ _ => Iff.rfl) (fun _ _ _ => Iff.rfl)
      ?_ (fun _ _ _ => Iff.rfl) nofun ?_ ?_ ?_
      ⟨fun _ => h.nodupLock, nodup_update hnd.2 fun _ => h.nodupCv⟩ ?_ ?_
    · intro d q hq
      apply mem_update
      rw [hw]
      simp [hq]
    · intro l' hl'
      cases hl'
      exact h.lacks (by rw [hpc]; rfl)
    · intro l'
      exact (h.locked_of hpc l').trans Iff.rfl
    · intro d
      change w ∈ Function.update s.cvWchan c r d ↔ _
      refine ⟨fun hm => ?_, nofun⟩
      by_cases hd : d = c
      · rw [hd, Function.update_self] at hm
        exact (hnd.1 hm).elim
      · rw [Function.update_of_ne hd, h.queued_of hpc d] at hm
        cases hm
        exact (hd rfl).elim
    · intro d
      exact (h.spins_of hpc d).trans Iff.rfl
    · exact h.retest_other (by rw [hpc]; exact nofun)

omit [DecidableEq ι] in
theorem Ordered.wakeAllCv {s : Synch τ ι κ} (h : s.Ordered) (c : κ) : (s.wakeAllCv c).Ordered := by
  have hpc : ∀ q, (∃ l, s.pc q = .cvSleep c l ∧ (s.wakeAllCv c).pc q = .cvWoken c l) ∨
      q ∉ s.cvWchan c ∧ (s.wakeAllCv c).pc q = s.pc q := by
    intro q
    change (∃ l, s.pc q = .cvSleep c l ∧ (if q ∈ s.cvWchan c then (s.pc q).wake else s.pc q) =
      .cvWoken c l) ∨ _ ∧ (if q ∈ s.cvWchan c then (s.pc q).wake else s.pc q) = _
    by_cases hq : q ∈ s.cvWchan c
    · obtain ⟨l, hl⟩ := SynchPc.eq_cvSleep (h.queued.1 hq)
      exact .inl ⟨l, hl, by rw [if_pos hq, hl]; rfl⟩
    · exact .inr ⟨hq, if_neg hq⟩
  constructor
  · intro q l hq
    rcases hpc q with ⟨l', -, he⟩ | ⟨-, he⟩
    · rw [he] at hq
      cases hq
    · rw [he] at hq
      exact h.needs hq
  · intro q l hq
    rcases hpc q with ⟨l', hs, he⟩ | ⟨-, he⟩
    · rw [he] at hq
      cases hq
      exact h.lacks (by rw [hs]; rfl)
    · rw [he] at hq
      exact h.lacks hq
  · intro l q
    refine h.locked.trans ?_
    rcases hpc q with ⟨l', hs, he⟩ | ⟨-, he⟩
    · rw [he, hs]
      exact Iff.rfl
    · rw [he]
  · intro d q
    change q ∈ Function.update s.cvWchan c [] d ↔ _
    rcases hpc q with ⟨l', hs, he⟩ | ⟨hout, he⟩
    · rw [he]
      refine ⟨fun hm => ?_, nofun⟩
      by_cases hd : d = c
      · rw [hd, Function.update_self] at hm
        cases hm
      · rw [Function.update_of_ne hd, h.queued_of hs] at hm
        cases hm
        exact (hd rfl).elim
    · rw [he, ← h.queued]
      by_cases hd : d = c
      · rw [hd, Function.update_self]
        exact ⟨nofun, fun hm => (hout hm).elim⟩
      · rw [Function.update_of_ne hd]
  · exact h.nodupLock
  · exact nodup_update List.nodup_nil (fun _ => h.nodupCv) _
  · intro d q
    refine h.spins.trans ?_
    rcases hpc q with ⟨l', hs, he⟩ | ⟨-, he⟩
    · rw [he, hs]
      exact Iff.rfl
    · rw [he]
  · intro l ho hw
    obtain ⟨q, hq⟩ := h.retest ho hw
    refine ⟨q, ?_⟩
    rcases hpc q with ⟨l', hs, -⟩ | ⟨-, he⟩
    · rw [hq] at hs
      cases hs
    · rw [he, hq]

omit [DecidableEq ι] in
theorem wakeCv_pc {s : Synch τ ι κ} (h : (s.pc t).cvQueued = none) (ho : s.Ordered) (c : κ) :
    (s.wakeCv c).pc t = s.pc t := by
  unfold Synch.wakeCv
  cases hw : s.cvWchan c with
  | nil => rfl
  | cons w r =>
    apply pc_goto_of_ne
    rintro rfl
    rw [ho.queued.1 (hw ▸ List.mem_cons_self)] at h
    cases h

omit [DecidableEq ι] in
theorem wakeAllCv_pc {s : Synch τ ι κ} (h : (s.pc t).cvQueued = none) (ho : s.Ordered) (c : κ) :
    (s.wakeAllCv c).pc t = s.pc t := by
  apply if_neg
  intro hm
  rw [ho.queued.1 hm] at h
  cases h

omit [DecidableEq ι] [DecidableEq κ] in
theorem lockDoIHold_iff {s : Synch τ ι κ} : s.lockDoIHold t l = true ↔ s.lkOwner l = some t := by
  simp [lockDoIHold]

/-- The sections keep the order. -/
theorem Ordered.step {s s' : Synch τ ι κ} (h : s.Ordered) (hs : SynchStep s e s') : s'.Ordered := by
  obtain ⟨hen, hex⟩ := hs
  cases e with
  | call t f =>
    obtain ⟨hpc, hf⟩ := hen
    cases hex
    refine h.move ?_ nofun (by rw [hpc]; rfl) (by rw [hpc]; rfl) (by rw [hpc]; rfl)
      (by rw [hpc]; exact nofun)
    intro l hl
    rcases hf with ⟨l', rfl⟩ | hf
    · cases hl
    · cases f <;> cases hl <;> exact hf
  | check t =>
    rcases hen with ⟨f, hpc⟩ | ⟨c, l, hpc⟩ | ⟨l, hpc⟩
    · -- only the assertion of `lock_acquire` is on a thread that does not own the lock
      have hmove : ∀ {p : SynchPc ι κ}, (∀ l, p.needs = some l → s.lkOwner l = some t) →
          (∀ l, p.lacks = some l → s.lkOwner l ≠ some t) → p.lockQueue = none →
          p.cvQueued = none → p.spins = none → (s.goto t p).Ordered := by
        intro p hn hl hq hcq hsp
        exact h.move hn hl (by rw [hq, hpc]; rfl) (by rw [hcq, hpc]; rfl) (by rw [hsp, hpc]; rfl)
          (by rw [hpc]; exact nofun)
      have hown : ∀ {l : ι} {p : SynchPc ι κ}, p.needs = some l → s.lkOwner l = some t →
          ∀ l', p.needs = some l' → s.lkOwner l' = some t := by
        intro l p hp ho l' hp'
        rw [hp] at hp'
        cases hp'
        exact ho
      cases f with
      | acquire l =>
        simp only [exec, hpc] at hex
        split at hex
        · cases hex
        · rename_i hno
          cases hex
          refine hmove nofun ?_ rfl rfl rfl
          intro l' hl'
          cases hl'
          exact fun ho => hno (lockDoIHold_iff.2 ho)
      | release l =>
        simp only [exec, hpc] at hex
        split at hex
        · rename_i ho
          cases hex
          exact hmove (hown rfl (lockDoIHold_iff.1 ho)) nofun rfl rfl rfl
        · cases hex
      | wait c l =>
        simp only [exec, hpc] at hex
        split at hex
        · rename_i ho
          cases hex
          exact hmove (hown rfl (lockDoIHold_iff.1 ho)) nofun rfl rfl rfl
        · cases hex
      | signal c l =>
        simp only [exec, hpc] at hex
        split at hex
        · rename_i ho
          cases hex
          exact hmove (hown rfl (lockDoIHold_iff.1 ho)) nofun rfl rfl rfl
        · cases hex
      | broadcast c l =>
        simp only [exec, hpc] at hex
        split at hex
        · rename_i ho
          cases hex
          exact hmove (hown rfl (lockDoIHold_iff.1 ho)) nofun rfl rfl rfl
        · cases hex
    · simp only [exec, hpc] at hex
      split at hex
      · rename_i ho
        cases hex
        refine h.move ?_ nofun (by rw [hpc]; rfl) (by rw [hpc]; rfl) (by rw [hpc]; rfl)
          (by rw [hpc]; exact nofun)
        intro l' hl'
        cases hl'
        exact lockDoIHold_iff.1 ho
      · cases hex
    · simp only [exec, hpc] at hex
      split at hex
      · cases hex
      · rename_i hno
        cases hex
        refine h.move nofun ?_ (by rw [hpc]; rfl) (by rw [hpc]; rfl) (by rw [hpc]; rfl)
          (by rw [hpc]; exact nofun)
        intro l' hl'
        cases hl'
        exact fun ho => hno (lockDoIHold_iff.2 ho)
  | acquire t l =>
    cases hex
    exact h.takeLock hen.1 hen.2
  | block t l =>
    cases hex
    exact h.block hen.1 hen.2
  | release t l =>
    rcases hen with hpc | ⟨c, hpc⟩
    · simp only [exec, hpc] at hex
      cases hex
      exact h.giveLock (h.needs (by rw [hpc]; rfl)) hpc rfl nofun rfl nofun rfl rfl rfl
    · simp only [exec, hpc] at hex
      cases hex
      exact h.giveLock (h.needs (by rw [hpc]; rfl)) hpc rfl nofun rfl
        (fun l' hl' => by cases hl'; rfl) rfl rfl rfl
  | spin t c =>
    obtain ⟨⟨l, hpc⟩, hc⟩ := hen
    simp only [exec, hpc] at hex
    cases hex
    exact h.spin hpc hc
  | queue t c =>
    obtain ⟨l, hpc⟩ := hen
    simp only [exec, hpc] at hex
    cases hex
    exact h.queue hpc
  | resume t c =>
    obtain ⟨⟨l, hpc⟩, -⟩ := hen
    simp only [exec, hpc] at hex
    cases hex
    refine h.move nofun ?_ (by rw [hpc]; rfl) (by rw [hpc]; rfl) (by rw [hpc]; rfl)
      (by rw [hpc]; exact nofun)
    intro l' hl'
    cases hl'
    exact h.lacks (by rw [hpc]; rfl)
  | signal t c =>
    obtain ⟨⟨l, hpc⟩, -⟩ := hen
    cases hex
    have hpc' : (s.wakeCv c).pc t = .signal c l := by
      rw [wakeCv_pc (by rw [hpc]; rfl) h, hpc]
    exact (h.wakeCv c).move nofun nofun (by rw [hpc']; rfl) (by rw [hpc']; rfl) (by rw [hpc']; rfl)
      (by rw [hpc']; exact nofun)
  | broadcast t c =>
    obtain ⟨⟨l, hpc⟩, -⟩ := hen
    cases hex
    have hpc' : (s.wakeAllCv c).pc t = .broadcast c l := by
      rw [wakeAllCv_pc (by rw [hpc]; rfl) h, hpc]
    exact (h.wakeAllCv c).move nofun nofun (by rw [hpc']; rfl) (by rw [hpc']; rfl)
      (by rw [hpc']; rfl) (by rw [hpc']; exact nofun)

omit [DecidableEq τ] [DecidableEq ι] [DecidableEq κ] in
theorem start_ordered : (start : Synch τ ι κ).Ordered := by
  constructor
  · exact nofun
  · exact nofun
  · intro l t
    exact ⟨nofun, nofun⟩
  · intro c t
    exact ⟨nofun, nofun⟩
  · exact List.nodup_nil
  · exact List.nodup_nil
  · intro c t
    exact ⟨nofun, nofun⟩
  · intro l _ hw
    exact (hw rfl).elim

omit [DecidableEq κ] in
theorem inside_snoc (t : τ) (l : ι) (tr : List (SynchEvent τ ι κ)) (e : SynchEvent τ ι κ) :
    inside t l (tr ++ [e]) = match e with
      | .acquire t' l' => if t' = t ∧ l' = l then true else inside t l tr
      | .release t' l' => if t' = t ∧ l' = l then false else inside t l tr
      | _ => inside t l tr := by
  unfold inside
  rw [List.foldl_append]
  rfl

omit [DecidableEq κ] in
theorem giveLock_lkOwner (s : Synch τ ι κ) (l : ι) :
    (s.giveLock l).lkOwner = Function.update s.lkOwner l none := by
  unfold giveLock wakeLock
  cases hw : s.lkWchan l with
  | nil => rfl
  | cons w r => rfl

omit [DecidableEq ι] in
theorem wakeCv_lkOwner (s : Synch τ ι κ) (c : κ) : (s.wakeCv c).lkOwner = s.lkOwner := by
  unfold wakeCv
  cases hw : s.cvWchan c with
  | nil => rfl
  | cons w r => rfl

theorem lkOwner_step {s s' : Synch τ ι κ} (hs : SynchStep s e s') (l : ι) :
    s'.lkOwner l = match e with
      | .acquire t l' => if l = l' then some t else s.lkOwner l
      | .release _ l' => if l = l' then none else s.lkOwner l
      | _ => s.lkOwner l := by
  obtain ⟨hen, hex⟩ := hs
  cases e with
  | call t f =>
    cases hex
    rfl
  | check t =>
    simp only [exec] at hex
    split at hex
    · split at hex <;> cases hex
      rfl
    · split at hex <;> cases hex
      rfl
    · split at hex <;> cases hex
      rfl
    · split at hex <;> cases hex
      rfl
    · cases hex
      rfl
  | acquire t l' =>
    cases hex
    exact Function.update_apply ..
  | block t l' =>
    cases hex
    rfl
  | release t l' =>
    have hgive : (s.giveLock l').lkOwner l = if l = l' then none else s.lkOwner l := by
      rw [giveLock_lkOwner]
      exact Function.update_apply ..
    simp only [exec] at hex
    split at hex
    · cases hex
      exact hgive
    · cases hex
      exact hgive
  | spin t c =>
    simp only [exec] at hex
    split at hex <;> cases hex <;> rfl
  | queue t c =>
    simp only [exec] at hex
    split at hex <;> cases hex <;> rfl
  | resume t c =>
    simp only [exec] at hex
    split at hex <;> cases hex <;> rfl
  | signal t c =>
    cases hex
    exact congrFun (wakeCv_lkOwner s c) l
  | broadcast t c =>
    cases hex
    rfl

theorem inside_step {s s' : Synch τ ι κ} (ho : s.Ordered)
    (h : ∀ t l, inside t l tr = true ↔ s.lkOwner l = some t) (hs : SynchStep s e s') (t : τ) (l : ι) :
    inside t l (tr ++ [e]) = true ↔ s'.lkOwner l = some t := by
  rw [inside_snoc, lkOwner_step hs]
  cases e with
  | acquire t' l' =>
    have hfree : s.lkOwner l' = none := hs.1.2
    simp only
    by_cases hl : l = l'
    · subst hl
      by_cases ht : t' = t
      · simp [ht]
      · simp [ht, h, hfree]
    · simp [hl, Ne.symm hl, h]
  | release t' l' =>
    have hown : s.lkOwner l' = some t' := by
      rcases hs.1 with hpc | ⟨c, hpc⟩
      · exact ho.needs (by rw [hpc]; rfl)
      · exact ho.needs (by rw [hpc]; rfl)
    simp only
    by_cases hl : l = l'
    · subst hl
      by_cases ht : t' = t
      · simp [ht]
      · simp [ht, h, hown]
    · simp [hl, Ne.symm hl, h]
  | _ => exact h t l

/-- The assertions hold, but for a thread that asks for a lock that it owns. -/
theorem Ordered.error {s : Synch τ ι κ} (h : s.Ordered) (hen : s.Enabled e)
    (he : s.exec e = .error f) :
    f = .lockAcquire ∧ ∃ t l, e = .check t ∧ s.pc t = .enter (.acquire l) ∧ s.lkOwner l = some t := by
  cases e with
  | check t =>
    rcases hen with ⟨g, hpc⟩ | ⟨c, l, hpc⟩ | ⟨l, hpc⟩
    · have hown : ∀ l, (SynchPc.enter g : SynchPc ι κ).needs = some l → s.lockDoIHold t l = true := by
        intro l hl
        exact lockDoIHold_iff.2 (h.needs (by rw [hpc]; exact hl))
      cases g with
      | acquire l =>
        simp only [exec, hpc] at he
        split at he
        · rename_i ho
          cases he
          exact ⟨rfl, t, l, rfl, hpc, lockDoIHold_iff.1 ho⟩
        · cases he
      | release l =>
        simp only [exec, hpc, SynchCall.lock, hown l rfl, if_true] at he
        cases he
      | wait c l =>
        simp only [exec, hpc, SynchCall.lock, hown l rfl, if_true] at he
        cases he
      | signal c l =>
        simp only [exec, hpc, SynchCall.lock, hown l rfl, if_true] at he
        cases he
      | broadcast c l =>
        simp only [exec, hpc, SynchCall.lock, hown l rfl, if_true] at he
        cases he
    · have ho := lockDoIHold_iff.2 (h.needs (t := t) (l := l) (by rw [hpc]; rfl))
      simp only [exec, hpc, ho, if_true] at he
      cases he
    · have hno : s.lockDoIHold t l = false := by
        apply eq_false_of_ne_true
        intro ho
        exact h.lacks (t := t) (l := l) (by rw [hpc]; rfl) (lockDoIHold_iff.1 ho)
      simp [exec, hpc, hno] at he
  | release t l =>
    simp only [exec] at he
    split at he <;> cases he
  | spin t c =>
    simp only [exec] at he
    split at he <;> cases he
  | queue t c =>
    simp only [exec] at he
    split at he <;> cases he
  | resume t c =>
    simp only [exec] at he
    split at he <;> cases he
  | _ => cases he

omit [DecidableEq τ] [DecidableEq ι] [DecidableEq κ] in
/-- A thread that has given up the lock in `cv_wait` and was not woken is on the wait channel
whenever `cv_lock` is free. -/
theorem Ordered.waits {s : Synch τ ι κ} (h : s.Ordered)
    (hq : s.pc q = .cvQueue c l ∨ s.pc q = .cvSleep c l) (hc : s.cvLock c = none) :
    s.pc q = .cvSleep c l ∧ q ∈ s.cvWchan c := by
  rcases hq with hq | hq
  · have hspin := h.spins.2 (show (s.pc q).spins = some c by rw [hq]; rfl)
    rw [hc] at hspin
    cases hspin
  · exact ⟨hq, h.queued.2 (by rw [hq]; rfl)⟩

end Synch

/-- In every run of any number of threads: (1) the owner of a lock is the one thread that has
taken it and not released it; (2) a thread sleeps on a free lock only if a woken thread is
about to test it again; (3) a signal by the owner of the lock wakes a thread, and a broadcast
wakes all threads, if there are threads that have given up the lock in `cv_wait`; and the
assertions hold, but for a thread that asks for a lock that it owns. -/
theorem locks_safe [DecidableEq τ] [DecidableEq ι] [DecidableEq κ]
    {s : Synch τ ι κ} (h : Run SynchStep Synch.start tr s) :
    (∀ t l, inside t l tr = true ↔ s.lkOwner l = some t) ∧
    (∀ t t' l, inside t l tr = true → inside t' l tr = true → t = t') ∧
    (∀ t l, t ∈ s.lkWchan l → s.lkOwner l = none → ∃ q, s.pc q = .retest l) ∧
    (∀ t q c l, s.pc t = .signal c l → s.Enabled (.signal t c) →
      s.pc q = .cvQueue c l ∨ s.pc q = .cvSleep c l → s.lkOwner l = some t ∧
        ∃ w r u, s.cvWchan c = w :: r ∧ s.exec (.signal t c) = .ok u ∧ u.cvWchan c = r ∧ w ∉ r ∧
          ∃ l', u.pc w = .cvWoken c l') ∧
    (∀ t q c l, s.pc t = .broadcast c l → s.Enabled (.broadcast t c) →
      s.pc q = .cvQueue c l ∨ s.pc q = .cvSleep c l → s.lkOwner l = some t ∧
        q ∈ s.cvWchan c ∧ ∃ u, s.exec (.broadcast t c) = .ok u ∧ u.cvWchan c = [] ∧
          u.pc q = .cvWoken c l) ∧
    ∀ e f, s.Enabled e → s.exec e = .error f → f = .lockAcquire ∧
      ∃ t l, e = .check t ∧ s.pc t = .enter (.acquire l) ∧ s.lkOwner l = some t := by
  have hinv : s.Ordered ∧ ∀ t l, inside t l tr = true ↔ s.lkOwner l = some t := by
    apply h.invariant_trace (P := fun tr s => Synch.Ordered s ∧
      ∀ t l, inside t l tr = true ↔ s.lkOwner l = some t)
    · refine ⟨Synch.start_ordered, fun t l => ?_⟩
      exact ⟨nofun, nofun⟩
    · intro tr u e u' hu hs
      exact ⟨hu.1.step hs, Synch.inside_step hu.1 hu.2 hs⟩
  obtain ⟨ho, hin⟩ := hinv
  refine ⟨hin, ?_, ?_, ?_, ?_, fun e f hen he => ho.error hen he⟩
  · intro t t' l ht ht'
    rw [hin] at ht ht'
    rw [ht] at ht'
    exact Option.some.inj ht'
  · intro t l ht hown
    apply ho.retest hown
    intro hnil
    rw [hnil] at ht
    cases ht
  · intro t q c l hpc hen hq
    obtain ⟨-, hmem⟩ := ho.waits hq hen.2
    refine ⟨ho.needs (by rw [hpc]; rfl), ?_⟩
    cases hw : s.cvWchan c with
    | nil =>
      rw [hw] at hmem
      cases hmem
    | cons w r =>
      obtain ⟨l', hwpc⟩ := SynchPc.eq_cvSleep (ho.queued.1 (show w ∈ s.cvWchan c by
        rw [hw]
        exact List.mem_cons_self))
      have hnd := ho.nodupCv (c := c)
      rw [hw, List.nodup_cons] at hnd
      have hwt : w ≠ t := by
        rintro rfl
        rw [hpc] at hwpc
        cases hwpc
      refine ⟨w, r, _, rfl, rfl, ?_, hnd.1, l', ?_⟩
      · change (s.wakeCv c).cvWchan c = r
        unfold Synch.wakeCv
        rw [hw]
        exact Function.update_self ..
      · rw [Synch.pc_goto_of_ne _ _ hwt]
        unfold Synch.wakeCv
        rw [hw]
        simp only
        rw [Synch.pc_goto_self, hwpc]
        rfl
  · intro t q c l hpc hen hq
    obtain ⟨hqpc, hmem⟩ := ho.waits hq hen.2
    have hqt : q ≠ t := by
      rintro rfl
      rw [hpc] at hqpc
      cases hqpc
    refine ⟨ho.needs (by rw [hpc]; rfl), hmem, _, rfl, Function.update_self .., ?_⟩
    rw [Synch.pc_goto_of_ne _ _ hqt]
    change (if q ∈ s.cvWchan c then (s.pc q).wake else s.pc q) = _
    rw [if_pos hmem, hqpc]
    rfl

theorem Run.synch [DecidableEq τ] [DecidableEq ι] [DecidableEq κ] {s u : Synch τ ι κ}
    (h : Run SynchStep s' tr s) (e : SynchEvent τ ι κ) (hen : s.Enabled e) (hex : s.exec e = .ok u) :
    Run SynchStep s' (tr ++ [e]) u :=
  h.snoc ⟨hen, hex⟩

/-- Thread 0 waits on a condition variable, and thread 1 takes the lock and signals. -/
theorem locks_safe_signal : ∃ (tr : List (SynchEvent Nat Nat Nat)) (s : Synch Nat Nat Nat),
    Run SynchStep Synch.start tr s ∧ s.pc 1 = .signal 0 0 ∧ s.pc 0 = .cvSleep 0 0 ∧
      s.lkOwner 0 = some 1 ∧ ∃ w r u, s.cvWchan 0 = w :: r ∧ s.exec (.signal 1 0) = .ok u ∧
        u.cvWchan 0 = r := by
  have h0 : Run SynchStep (Synch.start : Synch Nat Nat Nat) [] Synch.start := .nil _
  have h1 := h0.synch (.call 0 (.acquire 0)) ⟨rfl, .inl ⟨0, rfl⟩⟩ rfl
  have h2 := h1.synch (.check 0) (.inl ⟨_, rfl⟩) rfl
  have h3 := h2.synch (.acquire 0 0) ⟨.inl rfl, rfl⟩ rfl
  have h4 := h3.synch (.call 0 (.wait 0 0)) ⟨rfl, .inr rfl⟩ rfl
  have h5 := h4.synch (.check 0) (.inl ⟨_, rfl⟩) rfl
  have h6 := h5.synch (.spin 0 0) ⟨⟨_, rfl⟩, rfl⟩ rfl
  have h7 := h6.synch (.check 0) (.inr (.inl ⟨_, _, rfl⟩)) rfl
  have h8 := h7.synch (.release 0 0) (.inr ⟨_, rfl⟩) rfl
  have h9 := h8.synch (.queue 0 0) ⟨_, rfl⟩ rfl
  have h10 := h9.synch (.call 1 (.acquire 0)) ⟨rfl, .inl ⟨0, rfl⟩⟩ rfl
  have h11 := h10.synch (.check 1) (.inl ⟨_, rfl⟩) rfl
  have h12 := h11.synch (.acquire 1 0) ⟨.inl rfl, rfl⟩ rfl
  have h13 := h12.synch (.call 1 (.signal 0 0)) ⟨rfl, .inr rfl⟩ rfl
  have h14 := h13.synch (.check 1) (.inl ⟨_, rfl⟩) rfl
  obtain ⟨-, -, -, hsig, -⟩ := locks_safe h14
  obtain ⟨hown, w, r, u, hw, hu, hr, -⟩ := hsig 1 0 0 0 rfl ⟨⟨_, rfl⟩, rfl⟩ (.inr rfl)
  exact ⟨_, _, h14, rfl, rfl, hown, w, r, u, hw, hu, hr⟩

end Clape
