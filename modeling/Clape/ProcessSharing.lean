import Clape.ProcessMoves

namespace Clape
set_option autoImplicit true

/-- How far the thread of a process is with its end: it belongs to the process, it has left the
process and asks for the lock, or it has set `ended` and still has the lock. -/
inductive AgentStage where
  | attached | locking | ending
  deriving DecidableEq, Repr

/-- What a `struct proc` holds then. -/
def AgentStage.Fits (r : ProcStruct) : AgentStage → Prop
  | .attached => r.numthreads = 1 ∧ r.ended = false
  | .locking => r.numthreads = 0 ∧ r.ended = false
  | .ending => r.numthreads = 0 ∧ r.ended = true

/-- The process that a thread waits for, or will wait for, and whether it has seen its end. -/
def ThreadPc.waits : ThreadPc → Option (Nat × Bool)
  | .launching p | .launched p | .waitLock p _ | .waitCv p _ => some (p, false)
  | .waitRelease p _ | .waitDestroy p _ _ => some (p, true)
  | _ => .none

/-- The process that has no thread yet. -/
def ThreadPc.creates : ThreadPc → Option Nat
  | .forking p | .launching p => some p
  | _ => .none

namespace Procs

/-- The process that a thread works for. -/
def agent (s : Procs) (t : Nat) : Option (Nat × AgentStage) :=
  match s.pc t with
  | .exitLock p => some (p, .locking)
  | .exitSignal p => some (p, .ending)
  | .exitRelease p => if s.synch.pc t = .out then none else some (p, .ending)
  | .none | .zombie => none
  | _ => (s.tproc t).map fun p => (p, .attached)

/-- The table and the structures agree. -/
structure Tabled (s : Procs) : Prop where
  entry : s.table i = some p → ∃ r, s.heap p = some r ∧ r.pid = i
  proc : s.heap p = some r → s.table r.pid = some p ∧ 0 < r.pid ∧ r.pid ≤ maxProc ∧ p < s.brk

/-- At most one thread works for a process, at most one waits for it, and the structure lives
as long as they do. -/
structure Shared (s : Procs) (p : Nat) : Prop where
  agentOnce : s.agent t = some (p, a) → s.agent q = some (p, b) → t = q
  agentFits : s.agent t = some (p, a) → ∃ r, s.heap p = some r ∧ a.Fits r
  waitOnce : (s.pc t).waits = some (p, a) → (s.pc q).waits = some (p, b) → t = q
  waitLive : (s.pc t).waits = some (p, a) → ∃ r, s.heap p = some r
  waitEnds : (s.pc t).waits = some (p, true) →
    (∀ q b, s.agent q ≠ some (p, b)) ∧ ∀ r, s.heap p = some r → r.ended = true
  createOnce : (s.pc t).creates = some p → (s.pc q).creates = some p → t = q
  created : (s.pc t).creates = some p → (∀ q b, s.agent q ≠ some (p, b)) ∧
    ∃ r, s.heap p = some r ∧ r.numthreads = 0 ∧ r.ended = false
  ended : s.heap p = some r → r.ended = true → r.numthreads = 0

/-- The invariant of the exits and the waits. -/
structure Proper (s : Procs) : Prop where
  serves : s.synch.Serves fun t => (s.pc t).call
  tabled : s.Tabled
  kernel : ∃ r, s.heap kproc = some r
  waits : (s.pc t).waits = some (p, a) → p ≠ kproc
  creates : (s.pc t).creates = some p → p ≠ kproc
  startup : s.pc t = .startup g → ∃ p, s.tproc t = some p ∧ p ≠ kproc
  calls : (s.pc t).call = some f → f.lock ≠ kproc
  shared : p ≠ kproc → s.Shared p

/-- A user process waits only for a process of the table, other than the kernel's, that no
other thread waits for; the menu waits for each program that it starts. -/
def Sole (s : Procs) : ProcAction → Prop
  | .waitpid t pid => s.pc t = .run → 0 < pid.toInt ∧ pid.toInt ≤ maxProc ∧
      ∃ p, s.table pid.toNat = some p ∧ p ≠ kproc ∧ ∀ q a, (s.pc q).waits ≠ some (p, a)
  | _ => True

theorem agent_congr {s s' : Procs} (hpc : s'.pc q = s.pc q) (ht : s'.tproc q = s.tproc q)
    (hs : s'.synch.pc q = s.synch.pc q) : s'.agent q = s.agent q := by
  unfold agent
  rw [hpc, ht, hs]

theorem Shared.frame {s s' : Procs} (h : s.Shared p) (hheap : s'.heap p = s.heap p)
    (hagent : ∀ q b, s'.agent q = some (p, b) → s.agent q = some (p, b))
    (hwaits : ∀ q b, (s'.pc q).waits = some (p, b) → (s.pc q).waits = some (p, b))
    (hcreates : ∀ q, (s'.pc q).creates = some p → (s.pc q).creates = some p) : s'.Shared p := by
  have hnone : (∀ q b, s.agent q ≠ some (p, b)) → ∀ q b, s'.agent q ≠ some (p, b) :=
    fun hno q b hq => hno q b (hagent q b hq)
  constructor
  · intro t a q b ht hq
    exact h.agentOnce (hagent _ _ ht) (hagent _ _ hq)
  · intro t a ht
    rw [hheap]
    exact h.agentFits (hagent _ _ ht)
  · intro t a q b ht hq
    exact h.waitOnce (hwaits _ _ ht) (hwaits _ _ hq)
  · intro t a ht
    rw [hheap]
    exact h.waitLive (hwaits _ _ ht)
  · intro t ht
    obtain ⟨hno, hend⟩ := h.waitEnds (hwaits _ _ ht)
    refine ⟨hnone hno, ?_⟩
    rw [hheap]
    exact hend
  · intro t q ht hq
    exact h.createOnce (hcreates _ ht) (hcreates _ hq)
  · intro t ht
    obtain ⟨hno, hr⟩ := h.created (hcreates _ ht)
    refine ⟨hnone hno, ?_⟩
    rw [hheap]
    exact hr
  · rw [hheap]
    exact h.ended

theorem Tabled.set {s s' : Procs} (h : s.Tabled) (hp : s.heap p = some r)
    (hheap : s'.heap = Function.update s.heap p (some r')) (hpid : r'.pid = r.pid)
    (htable : s'.table = s.table) (hbrk : s'.brk = s.brk) : s'.Tabled := by
  constructor
  · intro i p' hi
    rw [htable] at hi
    obtain ⟨r₀, hr₀, hi₀⟩ := h.entry hi
    rw [hheap]
    by_cases hpp : p' = p
    · subst hpp
      rw [hp] at hr₀
      cases hr₀
      exact ⟨r', Function.update_self .., hpid.trans hi₀⟩
    · exact ⟨r₀, (Function.update_of_ne hpp ..).trans hr₀, hi₀⟩
  · intro p' r₀ hr₀
    rw [htable, hbrk]
    rw [hheap] at hr₀
    by_cases hpp : p' = p
    · subst hpp
      rw [Function.update_self] at hr₀
      cases hr₀
      rw [hpid]
      exact h.proc hp
    · rw [Function.update_of_ne hpp] at hr₀
      exact h.proc hr₀

theorem Tabled.same {s s' : Procs} (h : s.Tabled) (hheap : s'.heap = s.heap)
    (htable : s'.table = s.table) (hbrk : s'.brk = s.brk) : s'.Tabled := by
  constructor
  · rw [hheap, htable]
    exact h.entry
  · rw [hheap, htable, hbrk]
    exact h.proc

/-- The one thread that moves, to `x`. -/
structure Moved (s u : Procs) (t : Nat) (x : ThreadPc) : Prop where
  pc : u.pc = Function.update s.pc t x
  tproc : q ≠ t → u.tproc q = s.tproc q
  synch : q ≠ t → u.synch.pc q = s.synch.pc q

theorem Moved.self {s u : Procs} (h : Moved s u t x) : u.pc t = x := by
  rw [h.pc]
  exact Function.update_self ..

theorem Moved.other {s u : Procs} (h : Moved s u t x) (hq : q ≠ t) : u.pc q = s.pc q := by
  rw [h.pc]
  exact Function.update_of_ne hq ..

theorem Moved.agent {s u : Procs} (h : Moved s u t x) (hq : q ≠ t) : u.agent q = s.agent q :=
  agent_congr (h.other hq) (h.tproc hq) (h.synch hq)

theorem moved_goto (s : Procs) (t : Nat) (x : ThreadPc) : Moved s (s.goto t x) t x :=
  ⟨rfl, fun _ => rfl, fun _ => rfl⟩

theorem moved_begin (s : Procs) (t : Nat) (x : ThreadPc) (f : SynchCall Nat Nat) :
    Moved s (s.begin t x f) t x :=
  ⟨rfl, fun _ => rfl, fun hq => Synch.pc_goto_of_ne _ _ hq⟩

theorem Shared.other {s u : Procs} (h : s.Shared p) (hm : Moved s u t x)
    (hheap : u.heap p = s.heap p) (hagent : ∀ b, u.agent t = some (p, b) → s.agent t = some (p, b))
    (hwaits : ∀ b, x.waits = some (p, b) → (s.pc t).waits = some (p, b))
    (hcreates : x.creates = some p → (s.pc t).creates = some p) : u.Shared p := by
  apply h.frame hheap
  · intro q b hb
    by_cases hqt : q = t
    · subst hqt
      exact hagent b hb
    · rw [hm.agent hqt] at hb
      exact hb
  · intro q b hb
    by_cases hqt : q = t
    · subst hqt
      rw [hm.self] at hb
      exact hwaits b hb
    · rw [hm.other hqt] at hb
      exact hb
  · intro q hb
    by_cases hqt : q = t
    · subst hqt
      rw [hm.self] at hb
      exact hcreates hb
    · rw [hm.other hqt] at hb
      exact hb

/-- A process whose structure changes, or to which the thread that moves comes anew. -/
theorem Shared.change {s u : Procs} (h : s.Shared p) (hm : Moved s u t x) (hr : u.heap p = some r)
    (hagent : ∀ b, u.agent t = some (p, b) → b.Fits r ∧ ∀ q b', q ≠ t → s.agent q ≠ some (p, b'))
    (hothers : u.heap p = s.heap p ∨ ∀ q b, q ≠ t → s.agent q ≠ some (p, b))
    (hwaits : ∀ b, x.waits = some (p, b) → ∀ q b', q ≠ t → (s.pc q).waits ≠ some (p, b'))
    (hover : ∀ q, (u.pc q).waits = some (p, true) →
      (∀ q b, u.agent q ≠ some (p, b)) ∧ r.ended = true)
    (hcreates : x.creates = some p → ∀ q, q ≠ t → (s.pc q).creates ≠ some p)
    (hcreated : ∀ q, (u.pc q).creates = some p →
      (∀ q b, u.agent q ≠ some (p, b)) ∧ r.numthreads = 0 ∧ r.ended = false)
    (hended : r.ended = true → r.numthreads = 0) : u.Shared p := by
  have hself := hm.self
  constructor
  · intro y a z b hy hz
    by_cases hyt : y = t
    · subst hyt
      by_cases hzy : z = y
      · exact hzy.symm
      · rw [hm.agent hzy] at hz
        exact absurd hz ((hagent a hy).2 z b hzy)
    · rw [hm.agent hyt] at hy
      by_cases hzt : z = t
      · subst hzt
        exact absurd hy ((hagent b hz).2 y a hyt)
      · rw [hm.agent hzt] at hz
        exact h.agentOnce hy hz
  · intro y a hy
    by_cases hyt : y = t
    · subst hyt
      exact ⟨r, hr, (hagent a hy).1⟩
    · rw [hm.agent hyt] at hy
      rcases hothers with heq | hno
      · rw [heq]
        exact h.agentFits hy
      · exact absurd hy (hno y a hyt)
  · intro y a z b hy hz
    by_cases hyt : y = t
    · subst hyt
      by_cases hzy : z = y
      · exact hzy.symm
      · rw [hself] at hy
        rw [hm.other hzy] at hz
        exact absurd hz (hwaits a hy z b hzy)
    · rw [hm.other hyt] at hy
      by_cases hzt : z = t
      · subst hzt
        rw [hself] at hz
        exact absurd hy (hwaits b hz y a hyt)
      · rw [hm.other hzt] at hz
        exact h.waitOnce hy hz
  · intro y a hy
    exact ⟨r, hr⟩
  · intro y hy
    obtain ⟨hno, hend⟩ := hover y hy
    refine ⟨hno, ?_⟩
    intro r' hr'
    rw [hr] at hr'
    cases hr'
    exact hend
  · intro y z hy hz
    by_cases hyt : y = t
    · subst hyt
      by_cases hzy : z = y
      · exact hzy.symm
      · rw [hself] at hy
        rw [hm.other hzy] at hz
        exact absurd hz (hcreates hy z hzy)
    · rw [hm.other hyt] at hy
      by_cases hzt : z = t
      · subst hzt
        rw [hself] at hz
        exact absurd hy (hcreates hz y hyt)
      · rw [hm.other hzt] at hz
        exact h.createOnce hy hz
  · intro y hy
    obtain ⟨hno, hr0⟩ := hcreated y hy
    exact ⟨hno, r, hr, hr0⟩
  · intro r' hr' hend
    rw [hr] at hr'
    cases hr'
    exact hended hend

/-- One thread moves, and nothing changes for the processes but one. -/
theorem Proper.moved {s u : Procs} (h : s.Proper) (p₀ : Nat) (hm : Moved s u t x)
    (hheap : ∀ p, p ≠ p₀ → u.heap p = s.heap p) (hp₀ : p₀ ≠ kproc)
    (hagent : ∀ p b, p ≠ p₀ → u.agent t = some (p, b) → s.agent t = some (p, b))
    (hwaits : ∀ p b, p ≠ p₀ → x.waits = some (p, b) → (s.pc t).waits = some (p, b))
    (hcreates : ∀ p, p ≠ p₀ → x.creates = some p → (s.pc t).creates = some p)
    (hstartup : ∀ g, x = .startup g → ∃ p, u.tproc t = some p ∧ p ≠ kproc)
    (hcalls : ∀ f, x.call = some f → f.lock ≠ kproc)
    (serves : u.synch.Serves fun q => (Function.update s.pc t x q).call) (tabled : u.Tabled)
    (shared : u.Shared p₀) : u.Proper := by
  refine ⟨?_, tabled, ?_, ?_, ?_, ?_, ?_, ?_⟩
  · rw [hm.pc]
    exact serves
  · obtain ⟨r, hr⟩ := h.kernel
    exact ⟨r, (hheap kproc hp₀.symm).trans hr⟩
  · intro q p a hqw
    by_cases hpp : p = p₀
    · rw [hpp]
      exact hp₀
    · by_cases hqt : q = t
      · subst hqt
        rw [hm.self] at hqw
        exact h.waits (hwaits p a hpp hqw)
      · rw [hm.other hqt] at hqw
        exact h.waits hqw
  · intro q p hqc
    by_cases hpp : p = p₀
    · rw [hpp]
      exact hp₀
    · by_cases hqt : q = t
      · subst hqt
        rw [hm.self] at hqc
        exact h.creates (hcreates p hpp hqc)
      · rw [hm.other hqt] at hqc
        exact h.creates hqc
  · intro q g hqg
    by_cases hqt : q = t
    · subst hqt
      rw [hm.self] at hqg
      exact hstartup g hqg
    · rw [hm.other hqt] at hqg
      rw [hm.tproc hqt]
      exact h.startup hqg
  · intro q f hqf
    by_cases hqt : q = t
    · subst hqt
      rw [hm.self] at hqf
      exact hcalls f hqf
    · rw [hm.other hqt] at hqf
      exact h.calls hqf
  · intro p hp
    by_cases hpp : p = p₀
    · rw [hpp]
      exact shared
    · exact (h.shared hp).other hm (hheap p hpp) (fun b => hagent p b hpp)
        (fun b => hwaits p b hpp) (hcreates p hpp)

theorem Proper.turned {s u : Procs} (h : s.Proper) (hm : Moved s u t x) (hheap : u.heap = s.heap)
    (htable : u.table = s.table) (hbrk : u.brk = s.brk)
    (hagent : ∀ p b, u.agent t = some (p, b) → s.agent t = some (p, b))
    (hwaits : ∀ p b, x.waits = some (p, b) → (s.pc t).waits = some (p, b))
    (hcreates : x.creates = none) (hstartup : ∀ g, x ≠ .startup g)
    (hcalls : ∀ f, x.call = some f → f.lock ≠ kproc)
    (serves : u.synch.Serves fun q => (Function.update s.pc t x q).call) : u.Proper := by
  have hc : ∀ p, x.creates = some p → (s.pc t).creates = some p := by
    rw [hcreates]
    exact nofun
  apply h.moved 1 hm (fun p _ => congrFun hheap p) (by decide) (fun p b _ => hagent p b)
    (fun p b _ => hwaits p b) (fun p _ => hc p) (fun g hg => absurd hg (hstartup g)) hcalls
    serves (h.tabled.same hheap htable hbrk)
  exact (h.shared (by decide)).other hm (congrFun hheap 1) (hagent 1) (hwaits 1) (hc 1)

theorem Shared.absent {s : Procs} (h : s.Shared p) (hp : s.heap p = none) :
    (∀ q b, s.agent q ≠ some (p, b)) ∧ (∀ q b, (s.pc q).waits ≠ some (p, b)) ∧
      ∀ q, (s.pc q).creates ≠ some p := by
  refine ⟨?_, ?_, ?_⟩
  · intro q b hq
    obtain ⟨r, hr, -⟩ := h.agentFits hq
    rw [hp] at hr
    cases hr
  · intro q b hq
    obtain ⟨r, hr⟩ := h.waitLive hq
    rw [hp] at hr
    cases hr
  · intro q hq
    obtain ⟨-, r, hr, -⟩ := h.created hq
    rw [hp] at hr
    cases hr

theorem call_update (pc : Nat → ThreadPc) (t : Nat) (x : ThreadPc) :
    (fun q => (Function.update pc t x q).call) =
      Function.update (fun q => (pc q).call) t x.call := by
  funext q
  by_cases hq : q = t
  · subst hq
    rw [Function.update_self, Function.update_self]
  · rw [Function.update_of_ne hq, Function.update_of_ne hq]

theorem deref_ok {s : Procs} (h : s.heap p = some r) (f : ProcFn) : s.deref p f = .ok r := by
  unfold deref
  rw [h]

theorem mem_pidOrder (h : i ∈ pidOrder j) : 0 < i ∧ i ≤ maxProc := by
  unfold pidOrder at h
  obtain ⟨k, -, rfl⟩ := List.mem_map.1 h
  have hmod : (j + k) % maxProc < maxProc := Nat.mod_lt _ (by decide)
  omega

theorem agent_run {s : Procs} (hpc : s.pc t = .run) (ht : s.tproc t = some p) :
    s.agent t = some (p, .attached) := by
  unfold agent
  rw [hpc, ht]
  rfl

theorem agent_ending {s : Procs} (h : s.agent t = some (p, .ending)) :
    s.pc t = .exitSignal p ∨ s.pc t = .exitRelease p ∧ s.synch.pc t ≠ .out := by
  unfold agent at h
  split at h
  · cases h
  · rename_i hpc
    cases h
    exact .inl hpc
  · rename_i hpc
    split at h
    · cases h
    · rename_i hout
      cases h
      exact .inr ⟨hpc, hout⟩
  · cases h
  · cases h
  · obtain ⟨p', -, hp'⟩ := Option.map_eq_some_iff.1 h
    cases hp'

theorem Proper.stays {s : Procs} (h : s.Proper) (hout : s.synch.pc t = .out)
    (hf : ∀ f, (s.pc t).call = some f → f.owns .out = false) (hx : ThreadPc.call x = none) :
    s.synch.Serves fun q => (Function.update s.pc t x q).call := by
  rw [call_update, hx]
  exact h.serves.leave hout hf

theorem Proper.enters {s : Procs} (h : s.Proper) (hout : s.synch.pc t = .out)
    (hb : Synch.Begins (fun q => (s.pc q).call) t g) (hx : ThreadPc.call x = some g) :
    (s.synch.goto t (.enter g)).Serves fun q => (Function.update s.pc t x q).call := by
  rw [call_update, hx]
  exact (h.serves.begin hout hb).2

theorem Tabled.add {s s' : Procs} (h : s.Tabled) (hfree : s.table i = none) (hp : s.heap s.brk = none)
    (hi : 0 < i ∧ i ≤ maxProc) (hr : r.pid = i)
    (hheap : s'.heap = Function.update s.heap s.brk (some r))
    (htable : s'.table = Function.update s.table i (some s.brk)) (hbrk : s'.brk = s.brk + 1) :
    s'.Tabled := by
  constructor
  · intro j p hj
    rw [htable] at hj
    rw [hheap]
    by_cases hji : j = i
    · subst hji
      rw [Function.update_self] at hj
      cases hj
      exact ⟨r, Function.update_self .., hr⟩
    · rw [Function.update_of_ne hji] at hj
      obtain ⟨r₀, hr₀, hj₀⟩ := h.entry hj
      have hne : p ≠ s.brk := by
        rintro rfl
        rw [hp] at hr₀
        cases hr₀
      exact ⟨r₀, (Function.update_of_ne hne ..).trans hr₀, hj₀⟩
  · intro p r₀ hr₀
    rw [hheap] at hr₀
    rw [htable, hbrk]
    by_cases hpb : p = s.brk
    · subst hpb
      rw [Function.update_self] at hr₀
      cases hr₀
      rw [hr, Function.update_self]
      exact ⟨rfl, hi.1, hi.2, Nat.lt_succ_self _⟩
    · rw [Function.update_of_ne hpb] at hr₀
      obtain ⟨ht, h0, h1, hlt⟩ := h.proc hr₀
      have hne : r₀.pid ≠ i := by
        intro he
        rw [he, hfree] at ht
        cases ht
      rw [Function.update_of_ne hne]
      exact ⟨ht, h0, h1, Nat.lt_succ_of_lt hlt⟩

theorem Tabled.remove {s u : Procs} (h : s.Tabled) (hp : s.heap p = some r)
    (hheap : u.heap = Function.update s.heap p none)
    (htable : u.table = Function.update s.table r.pid none) (hbrk : u.brk = s.brk) : u.Tabled := by
  have hpid := (h.proc hp).1
  constructor
  · intro i p' hi
    rw [htable] at hi
    by_cases hir : i = r.pid
    · subst hir
      rw [Function.update_self] at hi
      cases hi
    · rw [Function.update_of_ne hir] at hi
      obtain ⟨r', hr', hi'⟩ := h.entry hi
      have hne : p' ≠ p := by
        rintro rfl
        rw [hp] at hr'
        cases hr'
        exact hir hi'.symm
      rw [hheap]
      exact ⟨r', (Function.update_of_ne hne ..).trans hr', hi'⟩
  · intro p' r' hr'
    rw [hheap] at hr'
    have hne : p' ≠ p := by
      rintro rfl
      rw [Function.update_self] at hr'
      cases hr'
    rw [Function.update_of_ne hne] at hr'
    obtain ⟨ht, h0, h1, hlt⟩ := h.proc hr'
    have hir : r'.pid ≠ r.pid := by
      intro he
      rw [he, hpid] at ht
      exact hne (Option.some.inj ht).symm
    rw [htable, hbrk, Function.update_of_ne hir]
    exact ⟨ht, h0, h1, hlt⟩

theorem Shared.of_absent {s : Procs} (hp : s.heap p = none) (hagent : ∀ q b, s.agent q ≠ some (p, b))
    (hwaits : ∀ q b, (s.pc q).waits ≠ some (p, b)) (hcreates : ∀ q, (s.pc q).creates ≠ some p) :
    s.Shared p := by
  constructor
  · intro t a q b ht
    exact absurd ht (hagent t a)
  · intro t a ht
    exact absurd ht (hagent t a)
  · intro t a q b ht
    exact absurd ht (hwaits t a)
  · intro t a ht
    exact absurd ht (hwaits t a)
  · intro t ht
    exact absurd ht (hwaits t true)
  · intro t q ht
    exact absurd ht (hcreates t)
  · intro t ht
    exact absurd ht (hcreates t)
  · intro r hr
    rw [hp] at hr
    cases hr

theorem boot_pc (t : Nat) : boot.pc t = .run ∨ boot.pc t = .none := by
  change (if t = 0 then ThreadPc.run else .none) = .run ∨
    (if t = 0 then ThreadPc.run else .none) = .none
  split
  · exact .inl rfl
  · exact .inr rfl

theorem boot_tabled : boot.Tabled := by
  constructor
  · intro i p hi
    change (if i = 1 then some kproc else none) = some p at hi
    split at hi
    · rename_i h1
      cases hi
      exact ⟨_, rfl, h1.symm⟩
    · cases hi
  · intro p r hr
    change (if p = kproc then some _ else none) = some r at hr
    split at hr
    · rename_i hp
      subst hp
      cases hr
      exact ⟨rfl, by decide⟩
    · cases hr

end Procs

end Clape
