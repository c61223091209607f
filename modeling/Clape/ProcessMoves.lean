import Clape.Processes

namespace Clape
set_option autoImplicit true

/-- What the actions do when they do not stop the kernel. -/
inductive ProcMove (s : Procs) : ProcAction → Procs → Prop where
  | create (hpc : s.pc t = .run) (hi : i ∈ pidOrder s.lastI) (hfree : s.table i = none)
      (hx : x = .launching s.brk ∨ x = .forking s.brk) :
      ProcMove s (.create t) { s with
        heap := Function.update s.heap s.brk (some ⟨i, 0, 0, false⟩)
        brk := s.brk + 1
        table := Function.update s.table i (some s.brk)
        lastI := i
        pc := Function.update s.pc t x }
  | start (hpc : (s.pc t = .forking p ∧ x = .run ∧ y = .run) ∨
        s.pc t = .launching p ∧ x = .startup g ∧ y = .launched p)
      (hq : s.pc q = .none) (hr : s.heap p = some r) :
      ProcMove s (.start t q g) ({ s.setProc p { r with numthreads := r.numthreads + 1 } with
        tproc := Function.update s.tproc q (some p)
        pc := Function.update s.pc q x }.goto t y)
  | enter (hpc : s.pc t = .startup g) (hg : g.runs = true) :
      ProcMove s (.runprogram t) (s.goto t .run)
  | fail (hpc : s.pc t = .startup g) (hg : g.runs = false) (ht : s.tproc t = some p)
      (hr : s.heap p = some r) (hn : 0 < r.numthreads) :
      ProcMove s (.runprogram t) ({ s.setProc p { r with numthreads := r.numthreads - 1 } with
        tproc := Function.update s.tproc t none }.goto t .zombie)
  | adrift (hpc : s.pc t = .startup g) (ht : s.tproc t = none) : ProcMove s (.runprogram t) s
  | exit (hpc : s.pc t = .run) (ht : s.tproc t = some p) (hk : p ≠ kproc)
      (hr : s.heap p = some r) (hn : 0 < r.numthreads) :
      ProcMove s (.exit t p status) ({ s.setProc p { r with
        status := (status &&& 0xff#32).toNat, numthreads := r.numthreads - 1 } with
          tproc := Function.update s.tproc t none }.begin t (.exitLock p) (.acquire p))
  | waitpid (hpc : s.pc t = .run ∨ ∃ p', s.pc t = .launched p') (hp : s.table pid.toNat = some p)
      (hk : p ≠ kproc) (hr : s.heap p = some r) (hpid : r.pid = pid.toNat) :
      ProcMove s (.waitpid t pid) ({ s with curspl := Function.update s.curspl t 1 }.begin t
        (.waitLock p (s.curspl t)) (.acquire p))
  | synch (hc : e.isCall = false) (he : SynchStep s.synch e v) :
      ProcMove s (.synch e) { s with synch := v }
  | still (hc : (s.pc e.thread).call = none) : ProcMove s (.synch e) s
  | ended (hpc : s.pc t = .exitLock p) (hout : s.synch.pc t = .out) (hr : s.heap p = some r) :
      ProcMove s (.resume t)
        ((s.setProc p { r with ended := true }).begin t (.exitSignal p) (.signal p p))
  | signalled (hpc : s.pc t = .exitSignal p) (hout : s.synch.pc t = .out) :
      ProcMove s (.resume t) (s.begin t (.exitRelease p) (.release p))
  | gone (hpc : s.pc t = .exitRelease p) (hout : s.synch.pc t = .out) :
      ProcMove s (.resume t) (s.goto t .zombie)
  | seen (hpc : s.pc t = .waitLock p spl ∨ s.pc t = .waitCv p spl) (hout : s.synch.pc t = .out)
      (hr : s.heap p = some r) (hend : r.ended = true) :
      ProcMove s (.resume t) (s.begin t (.waitRelease p spl) (.release p))
  | sleep (hpc : s.pc t = .waitLock p spl ∨ s.pc t = .waitCv p spl) (hout : s.synch.pc t = .out)
      (hr : s.heap p = some r) (hend : r.ended = false) :
      ProcMove s (.resume t) (s.begin t (.waitCv p spl) (.wait p p))
  | collect (hpc : s.pc t = .waitRelease p spl) (hout : s.synch.pc t = .out)
      (hr : s.heap p = some r) : ProcMove s (.resume t) (s.goto t (.waitDestroy p spl r.status))
  | destroy (hpc : s.pc t = .waitDestroy p spl status) (hr : s.heap p = some r)
      (hn : r.numthreads = 0) : ProcMove s (.destroy t p) { s with
        heap := Function.update s.heap p none
        table := Function.update s.table r.pid none
        pc := Function.update s.pc t .run
        curspl := Function.update s.curspl t spl
        result := Function.update s.result t (some (r.pid, status)) }

namespace Procs

theorem kassert_ok : kassert b f = .ok u ↔ b = true := by
  cases b <;> simp [kassert]

theorem deref_eq_ok {s : Procs} : s.deref p f = .ok r ↔ s.heap p = some r := by
  unfold deref
  cases s.heap p <;> simp

theorem procRemthread_eq_ok {s u : Procs} (h : s.procRemthread t p = .ok u) :
    ∃ r, s.heap p = some r ∧ 0 < r.numthreads ∧
      u = { s.setProc p { r with numthreads := r.numthreads - 1 } with
        tproc := Function.update s.tproc t none } := by
  obtain ⟨r, hr, h⟩ := bind_ok.1 h
  obtain ⟨_, hn, h⟩ := bind_ok.1 h
  cases h
  exact ⟨r, deref_eq_ok.1 hr, of_decide_eq_true (kassert_ok.1 hn), rfl⟩

theorem threadFork_eq_ok {s u : Procs} (h : s.threadFork p q x = .ok u) :
    ∃ r, s.heap p = some r ∧ u = { s.setProc p { r with numthreads := r.numthreads + 1 } with
      tproc := Function.update s.tproc q (some p)
      pc := Function.update s.pc q x } := by
  obtain ⟨r, hr, h⟩ := bind_ok.1 h
  cases h
  exact ⟨r, deref_eq_ok.1 hr, rfl⟩

theorem procSearchPid_eq_ok {s : Procs} (h : s.procSearchPid pid = .ok p) :
    s.table pid.toNat = some p ∧ ∃ r, s.heap p = some r ∧ r.pid = pid.toNat := by
  obtain ⟨-, -, h⟩ := bind_ok.1 h
  cases hp : s.table pid.toNat with
  | none =>
    rw [hp] at h
    cases h
  | some p' =>
    rw [hp] at h
    obtain ⟨r, hr, h⟩ := bind_ok.1 h
    obtain ⟨_, hpid, h⟩ := bind_ok.1 h
    cases h
    exact ⟨rfl, r, deref_eq_ok.1 hr, beq_iff_eq.1 (kassert_ok.1 hpid)⟩

theorem waitTest_move {s u : Procs} (hpc : s.pc t = .waitLock p spl ∨ s.pc t = .waitCv p spl)
    (hout : s.synch.pc t = .out) (h : s.waitTest t p spl = .ok u) : ProcMove s (.resume t) u := by
  obtain ⟨r, hr, h⟩ := bind_ok.1 h
  split at h
  · rename_i hend
    cases h
    exact .seen hpc hout (deref_eq_ok.1 hr) hend
  · rename_i hend
    cases h
    exact .sleep hpc hout (deref_eq_ok.1 hr) (Bool.eq_false_iff.2 hend)

theorem sysWaitpid_move {s u : Procs} (hpc : s.pc t = .run ∨ ∃ p', s.pc t = .launched p')
    (h : s.sysWaitpid t pid = .ok u) : ProcMove s (.waitpid t pid) u := by
  obtain ⟨p, hp, h⟩ := bind_ok.1 h
  obtain ⟨_, hk, h⟩ := bind_ok.1 h
  cases h
  obtain ⟨hp, r, hr, hpid⟩ := procSearchPid_eq_ok hp
  exact .waitpid hpc hp (bne_iff_ne.1 (kassert_ok.1 hk)) hr hpid

/-- The actions that can happen and do not stop the kernel. -/
theorem move_of_exec {s u : Procs} (hen : s.Enabled a) (h : s.exec a = .ok u) : ProcMove s a u := by
  cases a with
  | create t =>
    obtain ⟨v, hv, h⟩ := bind_ok.1 h
    unfold procCreate at hv
    split at hv
    · cases hv
    · rename_i i hfind
      cases hv
      cases h
      have hfree : s.table i = none := by simpa using List.find?_some hfind
      refine .create hen.1 (List.mem_of_find?_eq_some hfind) hfree ?_
      split
      · exact .inl rfl
      · exact .inr rfl
  | start t q g =>
    obtain ⟨⟨p, hpc⟩ | ⟨p, hpc⟩, hq⟩ := hen
    · simp only [exec, hpc] at h
      obtain ⟨v, hv, h⟩ := bind_ok.1 h
      obtain ⟨r, hr, rfl⟩ := threadFork_eq_ok hv
      cases h
      exact .start (.inl ⟨hpc, rfl, rfl⟩) hq hr
    · simp only [exec, hpc] at h
      obtain ⟨v, hv, h⟩ := bind_ok.1 h
      obtain ⟨r, hr, rfl⟩ := threadFork_eq_ok hv
      cases h
      exact .start (.inr ⟨hpc, rfl, rfl⟩) hq hr
  | runprogram t =>
    obtain ⟨g, hpc⟩ := hen
    cases ht : s.tproc t with
    | none =>
      simp only [exec, hpc, ht] at h
      cases h
      exact .adrift hpc ht
    | some p =>
      simp only [exec, hpc, ht] at h
      split at h
      · rename_i hg
        cases h
        exact .enter hpc hg
      · rename_i hg
        obtain ⟨v, hv, h⟩ := bind_ok.1 h
        obtain ⟨r, hr, hn, rfl⟩ := procRemthread_eq_ok hv
        cases h
        exact .fail hpc (Bool.eq_false_iff.2 hg) ht hr hn
  | exit t p status =>
    obtain ⟨hpc, ht, hk⟩ := hen
    obtain ⟨r, hr, h⟩ := bind_ok.1 h
    obtain ⟨v, hv, h⟩ := bind_ok.1 h
    obtain ⟨r', hr', hn, rfl⟩ := procRemthread_eq_ok hv
    cases h
    rw [show (s.setProc p { r with status := (status &&& 0xff#32).toNat }).heap p =
      some { r with status := (status &&& 0xff#32).toNat } from Function.update_self ..] at hr'
    cases hr'
    have hmove : ProcMove s (.exit t p status) _ := .exit hpc ht hk (deref_eq_ok.1 hr) hn
    unfold begin setProc at hmove ⊢
    simp only [Function.update_idem]
    exact hmove
  | waitpid t pid =>
    cases hpc : s.pc t with
    | launched p =>
      simp only [exec, hpc] at h
      obtain ⟨-, -, h⟩ := bind_ok.1 h
      exact sysWaitpid_move (.inr ⟨p, hpc⟩) h
    | run =>
      simp only [exec, hpc] at h
      exact sysWaitpid_move (.inl hpc) h
    | _ =>
      rcases hen with ⟨ht, -⟩ | ⟨p, ht, -⟩
      · rw [hpc] at ht
        cases ht
      · rw [hpc] at ht
        cases ht
  | synch e =>
    change s.synchSection e = .ok u at h
    unfold synchSection at h
    split at h
    · rename_i hc
      cases h
      exact .still hc
    · obtain ⟨-, -, h⟩ := bind_ok.1 h
      split at h
      · rename_i v hv
        cases h
        exact .synch hen.1 ⟨hen.2, hv⟩
      · cases h
  | resume t =>
    obtain ⟨hres, hout⟩ := hen
    change s.resume t = .ok u at h
    unfold resume at h
    split at h
    · rename_i p hpc
      obtain ⟨r, hr, h⟩ := bind_ok.1 h
      cases h
      exact .ended hpc hout (deref_eq_ok.1 hr)
    · rename_i p hpc
      obtain ⟨r, -, h⟩ := bind_ok.1 h
      cases h
      exact .signalled hpc hout
    · rename_i p hpc
      cases h
      exact .gone hpc hout
    · rename_i p spl hpc
      exact waitTest_move (.inl hpc) hout h
    · rename_i p spl hpc
      exact waitTest_move (.inr hpc) hout h
    · rename_i p spl hpc
      obtain ⟨r, hr, h⟩ := bind_ok.1 h
      obtain ⟨-, -, h⟩ := bind_ok.1 h
      cases h
      exact .collect hpc hout (deref_eq_ok.1 hr)
    · rename_i h1 h2 h3 h4 h5 h6
      cases hpc : s.pc t with
      | exitLock p => exact absurd hpc (h1 p)
      | exitSignal p => exact absurd hpc (h2 p)
      | exitRelease p => exact absurd hpc (h3 p)
      | waitLock p spl => exact absurd hpc (h4 p spl)
      | waitCv p spl => exact absurd hpc (h5 p spl)
      | waitRelease p spl => exact absurd hpc (h6 p spl)
      | _ =>
        rw [hpc] at hres
        cases hres
  | destroy t p =>
    obtain ⟨spl, status, hpc⟩ := hen
    simp only [exec, hpc] at h
    obtain ⟨r, hr, h⟩ := bind_ok.1 h
    obtain ⟨_, hn, h⟩ := bind_ok.1 h
    obtain ⟨-, -, h⟩ := bind_ok.1 h
    obtain ⟨-, -, h⟩ := bind_ok.1 h
    obtain ⟨-, -, h⟩ := bind_ok.1 h
    cases h
    exact .destroy hpc (deref_eq_ok.1 hr) (beq_iff_eq.1 (kassert_ok.1 hn))

theorem update_cases {β : Type} {f : Nat → β} {x y : β} (h : Function.update f a x b = y) :
    (b = a ∧ x = y) ∨ f b = y := by
  by_cases hb : b = a
  · subst hb
    rw [Function.update_self] at h
    exact .inl ⟨rfl, h⟩
  · rw [Function.update_of_ne hb] at h
    exact .inr h

/-- A structure that was there before, with `ended` set if a thread was about to set it. -/
def Kept (s : Procs) (p : Nat) (r' : ProcStruct) : Prop :=
  ∃ r, s.heap p = some r ∧ r'.status = r.status ∧
    (r'.ended = true → r.ended = true ∨ ∃ t, s.pc t = .exitLock p)

theorem kept_self {s : Procs} (h : s.heap p = some r) : s.Kept p r := ⟨r, h, rfl, .inl⟩

/-- What a step does to a structure: `sys__exit` sets its status, a thread that has the lock in
`sys__exit` sets `ended`. -/
theorem move_heap {s u : Procs} (h : ProcMove s a u) (hp : u.heap p = some r) :
    s.Kept p r ∨ (∃ t status, a = .exit t p status ∧ r.status = (status &&& 0xff#32).toNat) ∨
      (p = s.brk ∧ r.ended = false) := by
  cases h with
  | create hpc hi hfree hx =>
    rcases update_cases hp with ⟨rfl, hr⟩ | hr
    · cases hr
      exact .inr (.inr ⟨rfl, rfl⟩)
    · exact .inl (kept_self hr)
  | start hpc hq hr₀ =>
    rcases update_cases hp with ⟨rfl, hr⟩ | hr
    · cases hr
      exact .inl ⟨_, hr₀, rfl, .inl⟩
    · exact .inl (kept_self hr)
  | fail hpc hg ht hr₀ hn =>
    rcases update_cases hp with ⟨rfl, hr⟩ | hr
    · cases hr
      exact .inl ⟨_, hr₀, rfl, .inl⟩
    · exact .inl (kept_self hr)
  | exit hpc ht hk hr₀ hn =>
    rcases update_cases hp with ⟨rfl, hr⟩ | hr
    · cases hr
      exact .inr (.inl ⟨_, _, rfl, rfl⟩)
    · exact .inl (kept_self hr)
  | ended hpc hout hr₀ =>
    rcases update_cases hp with ⟨rfl, hr⟩ | hr
    · cases hr
      exact .inl ⟨_, hr₀, rfl, fun _ => .inr ⟨_, hpc⟩⟩
    · exact .inl (kept_self hr)
  | destroy hpc hr₀ hn =>
    rcases update_cases hp with ⟨rfl, hr⟩ | hr
    · cases hr
    · exact .inl (kept_self hr)
  | _ => exact .inl (kept_self hp)

theorem move_exit {s u : Procs} (h : ProcMove s (.exit t p status) u) (hp : u.heap p = some r) :
    r.status = (status &&& 0xff#32).toNat := by
  cases h with
  | exit hpc ht hk hr₀ hn =>
    rcases update_cases hp with ⟨-, hr⟩ | hr
    · cases hr
      rfl
    · cases (Function.update_self ..).symm.trans hp
      rfl

/-- A structure is freed by `proc_destroy` alone, and its address is not used again. -/
theorem move_freed {s u : Procs} (h : ProcMove s a u) (hp : p < s.brk) :
    p < u.brk ∧ (s.heap p = none → u.heap p = none) ∧
      ∀ r, s.heap p = some r → u.heap p = none → ∃ t, a = .destroy t p := by
  have hset : ∀ {p' r₀ r'}, s.heap p' = some r₀ →
      (s.heap p = none → Function.update s.heap p' (some r') p = none) ∧
        ∀ r, s.heap p = some r → Function.update s.heap p' (some r') p = none →
          ∃ t, a = .destroy t p := by
    intro p' r₀ r' hp'
    constructor
    · intro hnone
      have hne : p ≠ p' := by
        rintro rfl
        rw [hnone] at hp'
        cases hp'
      exact (Function.update_of_ne hne ..).trans hnone
    · intro r hr hnone
      rcases update_cases hnone with ⟨-, hr'⟩ | hr'
      · cases hr'
      · rw [hr] at hr'
        cases hr'
  have hsame : (s.heap p = none → s.heap p = none) ∧
      ∀ r, s.heap p = some r → s.heap p = none → ∃ t, a = .destroy t p := by
    refine ⟨id, fun r hr hnone => ?_⟩
    rw [hr] at hnone
    cases hnone
  cases h with
  | create hpc hi hfree hx =>
    have hne : p ≠ s.brk := by omega
    refine ⟨Nat.lt_succ_of_lt hp, ?_, ?_⟩
    · exact fun hnone => (Function.update_of_ne hne ..).trans hnone
    · intro r hr hnone
      rcases update_cases hnone with ⟨-, hr'⟩ | hr'
      · cases hr'
      · rw [hr] at hr'
        cases hr'
  | start hpc hq hr₀ => exact ⟨hp, hset hr₀⟩
  | fail hpc hg ht hr₀ hn => exact ⟨hp, hset hr₀⟩
  | exit hpc ht hk hr₀ hn => exact ⟨hp, hset hr₀⟩
  | ended hpc hout hr₀ => exact ⟨hp, hset hr₀⟩
  | @destroy t p' _ _ _ hpc hr₀ hn =>
    refine ⟨hp, ?_, ?_⟩
    · intro hnone
      by_cases hpp : p = p'
      · subst hpp
        exact Function.update_self ..
      · exact (Function.update_of_ne hpp ..).trans hnone
    · intro r hr hnone
      rcases update_cases hnone with ⟨rfl, -⟩ | hr'
      · exact ⟨t, rfl⟩
      · rw [hr] at hr'
        cases hr'
  | _ => exact ⟨hp, hsame⟩

theorem move_destroy {s u : Procs} (h : ProcMove s (.destroy t p) u) :
    (∃ r, s.heap p = some r) ∧ u.heap p = none ∧ u.brk = s.brk := by
  cases h with
  | destroy hpc hr hn => exact ⟨⟨_, hr⟩, Function.update_self .., rfl⟩

/-- The points that an action takes a thread to. -/
inductive Goes (s : Procs) : ProcAction → Nat → ThreadPc → Prop where
  | create (hx : x = .launching s.brk ∨ x = .forking s.brk) : s.Goes (.create t) t x
  | child (hpc : s.pc t = .forking p ∨ s.pc t = .launching p) (hx : x = .run ∨ x = .startup g) :
      s.Goes (.start t q g) q x
  | parent (hpc : s.pc t = .forking p ∨ s.pc t = .launching p) (hx : x = .run ∨ x = .launched p) :
      s.Goes (.start t q g) t x
  | runprogram (hx : x = .run ∨ x = .zombie) : s.Goes (.runprogram t) t x
  | exit : s.Goes (.exit t p c) t (.exitLock p)
  | waitpid : s.Goes (.waitpid t pid) t (.waitLock p spl)
  | ended : s.Goes (.resume t) t (.exitSignal p)
  | signalled : s.Goes (.resume t) t (.exitRelease p)
  | gone : s.Goes (.resume t) t .zombie
  | seen (hr : s.heap p = some r) (hend : r.ended = true) : s.Goes (.resume t) t (.waitRelease p spl)
  | sleep : s.Goes (.resume t) t (.waitCv p spl)
  | collect (hpc : s.pc t = .waitRelease p spl) (hr : s.heap p = some r) :
      s.Goes (.resume t) t (.waitDestroy p spl r.status)
  | destroy : s.Goes (.destroy t p) t .run

/-- A thread stays where it is, or the action takes it on. -/
theorem move_pc {s u : Procs} (h : ProcMove s a u) (hc : u.pc t = c) :
    (s.pc t = c ∧ ∀ q g, a ≠ .start t q g) ∨ s.Goes a t c := by
  cases h with
  | create _ _ _ hx =>
    rcases update_cases hc with ⟨rfl, rfl⟩ | hc
    · exact .inr (.create hx)
    · exact .inl ⟨hc, nofun⟩
  | @start t' p x y q r g hpc hq hr =>
    have hpc' : s.pc t' = .forking p ∨ s.pc t' = .launching p := hpc.imp And.left And.left
    have hy : y = .run ∨ y = .launched p := hpc.imp (·.2.2) (·.2.2)
    have hx : x = .run ∨ x = .startup g := hpc.imp (·.2.1) (·.2.1)
    by_cases ht : t = t'
    · subst ht
      cases (Function.update_self ..).symm.trans hc
      exact .inr (.parent hpc' hy)
    · have hc' : Function.update s.pc q x t = c := (Function.update_of_ne ht ..).symm.trans hc
      rcases update_cases hc' with ⟨rfl, rfl⟩ | hc''
      · exact .inr (.child hpc' hx)
      · exact .inl ⟨hc'', fun _ _ he => ht (ProcAction.start.inj he).1.symm⟩
  | enter _ _ =>
    rcases update_cases hc with ⟨rfl, rfl⟩ | hc
    · exact .inr (.runprogram (.inl rfl))
    · exact .inl ⟨hc, nofun⟩
  | fail _ _ _ _ _ =>
    rcases update_cases hc with ⟨rfl, rfl⟩ | hc
    · exact .inr (.runprogram (.inr rfl))
    · exact .inl ⟨hc, nofun⟩
  | adrift _ _ | synch _ _ | still _ => exact .inl ⟨hc, nofun⟩
  | exit _ _ _ _ _ =>
    rcases update_cases hc with ⟨rfl, rfl⟩ | hc
    · exact .inr .exit
    · exact .inl ⟨hc, nofun⟩
  | waitpid _ _ _ _ _ =>
    rcases update_cases hc with ⟨rfl, rfl⟩ | hc
    · exact .inr .waitpid
    · exact .inl ⟨hc, nofun⟩
  | ended _ _ _ =>
    rcases update_cases hc with ⟨rfl, rfl⟩ | hc
    · exact .inr .ended
    · exact .inl ⟨hc, nofun⟩
  | signalled _ _ =>
    rcases update_cases hc with ⟨rfl, rfl⟩ | hc
    · exact .inr .signalled
    · exact .inl ⟨hc, nofun⟩
  | gone _ _ =>
    rcases update_cases hc with ⟨rfl, rfl⟩ | hc
    · exact .inr .gone
    · exact .inl ⟨hc, nofun⟩
  | seen _ _ hr hend =>
    rcases update_cases hc with ⟨rfl, rfl⟩ | hc
    · exact .inr (.seen hr hend)
    · exact .inl ⟨hc, nofun⟩
  | sleep _ _ _ _ =>
    rcases update_cases hc with ⟨rfl, rfl⟩ | hc
    · exact .inr .sleep
    · exact .inl ⟨hc, nofun⟩
  | collect hpc _ hr =>
    rcases update_cases hc with ⟨rfl, rfl⟩ | hc
    · exact .inr (.collect hpc hr)
    · exact .inl ⟨hc, nofun⟩
  | destroy _ _ _ =>
    rcases update_cases hc with ⟨rfl, rfl⟩ | hc
    · exact .inr .destroy
    · exact .inl ⟨hc, nofun⟩

theorem move_exitLock {s u : Procs} (h : ProcMove s a u) (hp : u.pc t = .exitLock p) :
    s.pc t = .exitLock p ∨ ∃ status, a = .exit t p status := by
  rcases move_pc h hp with ⟨hs, -⟩ | hg
  · exact .inl hs
  · cases hg with
    | exit => exact .inr ⟨_, rfl⟩
    | create hx => rcases hx with hx | hx <;> cases hx
    | child _ hx => rcases hx with hx | hx <;> cases hx
    | parent _ hx => rcases hx with hx | hx <;> cases hx
    | runprogram hx => rcases hx with hx | hx <;> cases hx

theorem move_waitDestroy {s u : Procs} (h : ProcMove s a u)
    (hp : u.pc t = .waitDestroy p spl status) :
    s.pc t = .waitDestroy p spl status ∨ ∃ r, s.heap p = some r ∧ r.status = status ∧
      u.heap p = some r ∧ s.pc t = .waitRelease p spl := by
  rcases move_pc h hp with ⟨hs, -⟩ | hg
  · exact .inl hs
  · cases hg with
    | collect hpc hr =>
      apply Or.inr
      refine ⟨_, hr, rfl, ?_, hpc⟩
      cases h with
      | ended hpc' => cases hpc.symm.trans hpc'
      | _ => exact hr
    | create hx => rcases hx with hx | hx <;> cases hx
    | child _ hx => rcases hx with hx | hx <;> cases hx
    | parent _ hx => rcases hx with hx | hx <;> cases hx
    | runprogram hx => rcases hx with hx | hx <;> cases hx

end Procs

theorem Run.proc {C : Procs → ProcAction → Prop} (h : Run (ProcStepWhen C) s' tr s)
    (a : ProcAction) (hc : C s a) (hen : s.Enabled a) (hex : s.exec a = .ok u) :
    Run (ProcStepWhen C) s' (tr ++ [a]) u :=
  h.snoc ⟨hc, hen, hex⟩

end Clape
