import Clape.Outcomes
import Clape.ProcessSharing

namespace Clape
set_option autoImplicit true

namespace Procs

theorem Proper.create {s : Procs} (h : s.Proper) (hen : s.Enabled (.create t)) :
    Sound (· = ProcStop.tableFull) Proper (s.exec (.create t)) := by
  obtain ⟨hpc, -⟩ := hen
  have hout : s.synch.pc t = .out := h.serves.idle (by rw [hpc]; rfl)
  -- the new address was never used
  have hbrk : s.heap s.brk = none := by
    cases hb : s.heap s.brk with
    | none => rfl
    | some r => exact absurd (h.tabled.proc hb).2.2.2 (Nat.lt_irrefl _)
  have hk : s.brk ≠ kproc := by
    intro hk
    obtain ⟨r, hr⟩ := h.kernel
    rw [← hk, hbrk] at hr
    cases hr
  obtain ⟨hagent, hwaits, hcreates⟩ := (h.shared hk).absent hbrk
  unfold exec procCreate
  cases hfind : (pidOrder s.lastI).find? fun i => (s.table i).isNone with
  | none => rfl
  | some i =>
    have hi := mem_pidOrder (List.mem_of_find?_eq_some hfind)
    have hfree : s.table i = none := by simpa using List.find?_some hfind
    obtain ⟨x, hx, hcall, hxc, hxw, hxa⟩ : ∃ x : ThreadPc,
        (if s.tproc t = some kproc then ThreadPc.launching s.brk else .forking s.brk) = x ∧
          x.call = none ∧ x.creates = some s.brk ∧
          (∀ p b, x.waits = some (p, b) → p = s.brk ∧ b = false) ∧
          ∀ u : Procs, u.pc t = x → u.tproc t = s.tproc t → u.agent t = s.agent t := by
      split
      · refine ⟨_, rfl, rfl, rfl, ?_, ?_⟩
        · rintro p b hb
          cases hb
          exact ⟨rfl, rfl⟩
        · intro u hu htu
          unfold agent
          rw [hu, htu, hpc]
      · refine ⟨_, rfl, rfl, rfl, nofun, ?_⟩
        intro u hu htu
        unfold agent
        rw [hu, htu, hpc]
    simp only [hx]
    let u : Procs := { s with
      heap := Function.update s.heap s.brk (some ⟨i, 0, 0, false⟩)
      brk := s.brk + 1
      table := Function.update s.table i (some s.brk)
      lastI := i
      pc := Function.update s.pc t x }
    change u.Proper
    have hm : Moved s u t x := ⟨rfl, fun _ => rfl, fun _ => rfl⟩
    have hua : u.agent t = s.agent t := hxa u hm.self rfl
    have hnone : ∀ q b, u.agent q ≠ some (s.brk, b) := by
      intro q b
      by_cases hqt : q = t
      · subst hqt
        rw [hua]
        exact hagent q b
      · rw [hm.agent hqt]
        exact hagent q b
    apply h.moved s.brk hm
    · intro p hp
      exact Function.update_of_ne hp ..
    · exact hk
    · intro p b _ hp
      rw [hua] at hp
      exact hp
    · intro p b hp hw
      exact absurd (hxw p b hw).1 hp
    · intro p hp hc
      rw [hxc] at hc
      exact absurd (Option.some.inj hc).symm hp
    · intro g hg
      rw [hg] at hxc
      cases hxc
    · rw [hcall]
      exact nofun
    · exact h.stays hout (by rw [hpc]; exact nofun) hcall
    · exact h.tabled.add hfree hbrk hi rfl rfl rfl rfl
    · apply (h.shared hk).change hm (Function.update_self ..)
      · intro b hb
        exact absurd hb (hnone t b)
      · right
        intro q b _
        exact hagent q b
      · intro b _ q b' _
        exact hwaits q b'
      · intro q hqw
        by_cases hqt : q = t
        · subst hqt
          rw [hm.self] at hqw
          cases (hxw _ _ hqw).2
        · rw [hm.other hqt] at hqw
          exact absurd hqw (hwaits q true)
      · intro _ q _
        exact hcreates q
      · intro q _
        exact ⟨hnone, rfl, rfl⟩
      · exact nofun

theorem procRemthread_ok {s : Procs} (hr : s.heap p = some r) (hn : 0 < r.numthreads) :
    s.procRemthread t p = .ok { s.setProc p { r with numthreads := r.numthreads - 1 } with
      tproc := Function.update s.tproc t none } := by
  unfold procRemthread
  rw [deref_ok hr]
  change (kassert (decide (0 < r.numthreads)) .procRemthread >>= _) = _
  rw [decide_eq_true hn]
  rfl

theorem sysExit_ok {s : Procs} (hr : s.heap p = some r) (hn : 0 < r.numthreads)
    (status : BitVec 32) : s.sysExit t p status = .ok ({ s.setProc p { r with
      status := (status &&& 0xff#32).toNat, numthreads := r.numthreads - 1 } with
        tproc := Function.update s.tproc t none }.begin t (.exitLock p) (.acquire p)) := by
  unfold sysExit
  rw [deref_ok hr]
  have hset : (s.setProc p { r with status := (status &&& 0xff#32).toNat }).heap p =
      some { r with status := (status &&& 0xff#32).toNat } := Function.update_self ..
  change ((s.setProc p { r with status := (status &&& 0xff#32).toNat }).procRemthread t p >>= _) = _
  rw [procRemthread_ok hset hn]
  change Except.ok _ = Except.ok _
  congr 1
  unfold begin setProc
  simp only [Function.update_idem]

theorem Proper.detach {s u : Procs} (h : s.Proper) (hk : p ≠ kproc)
    (hagent : s.agent t = some (p, .attached)) (hr : s.heap p = some r) (hm : Moved s u t x)
    (hheap : u.heap = Function.update s.heap p (some r')) (hpid : r'.pid = r.pid)
    (hn : r'.numthreads = 0) (hend : r'.ended = false) (htable : u.table = s.table)
    (hbrk : u.brk = s.brk) (hx : u.agent t = some (p, .locking) ∨ u.agent t = none)
    (hw : x.waits = none) (hc : x.creates = none) (hst : ∀ g, x ≠ .startup g)
    (hcalls : ∀ f, x.call = some f → f.lock ≠ kproc)
    (serves : u.synch.Serves fun q => (Function.update s.pc t x q).call) : u.Proper := by
  have hsh := h.shared hk
  have honly : ∀ q b, q ≠ t → s.agent q ≠ some (p, b) :=
    fun q b hqt hq => hqt (hsh.agentOnce hq hagent)
  have hlock : ∀ p' b, u.agent t = some (p', b) → p' = p ∧ b = .locking := by
    intro p' b hb
    rcases hx with hx | hx
    · rw [hx] at hb
      cases hb
      exact ⟨rfl, rfl⟩
    · rw [hx] at hb
      cases hb
  have hwx : ∀ p b, x.waits ≠ some (p, b) := by
    rw [hw]
    exact nofun
  have hcx : ∀ p, x.creates ≠ some p := by
    rw [hc]
    exact nofun
  apply h.moved p hm
  · intro p' hp'
    rw [hheap]
    exact Function.update_of_ne hp' ..
  · exact hk
  · intro p' b hp' hb
    exact absurd (hlock p' b hb).1 hp'
  · intro p' b _ hb
    exact absurd hb (hwx p' b)
  · intro p' _ hb
    exact absurd hb (hcx p')
  · intro g hg
    exact absurd hg (hst g)
  · exact hcalls
  · exact serves
  · exact h.tabled.set hr hheap hpid htable hbrk
  · have hup : u.heap p = some r' := by
      rw [hheap]
      exact Function.update_self ..
    apply hsh.change hm hup
    · intro b hb
      rw [(hlock p b hb).2]
      exact ⟨⟨hn, hend⟩, honly⟩
    · exact .inr honly
    · intro b hb
      exact absurd hb (hwx p b)
    · -- a thread that has seen the end of the process rules the exit out
      intro q hqw
      by_cases hqt : q = t
      · subst hqt
        rw [hm.self] at hqw
        exact absurd hqw (hwx p true)
      · rw [hm.other hqt] at hqw
        exact absurd hagent ((hsh.waitEnds hqw).1 t _)
    · intro hb
      exact absurd hb (hcx p)
    · intro q hqc
      by_cases hqt : q = t
      · subst hqt
        rw [hm.self] at hqc
        exact absurd hqc (hcx p)
      · rw [hm.other hqt] at hqc
        exact absurd hagent ((hsh.created hqc).1 t _)
    · intro he
      rw [hend] at he
      cases he

theorem Proper.exit {s : Procs} (h : s.Proper) (hen : s.Enabled (.exit t p status)) :
    Sound (· = ProcStop.tableFull) Proper (s.exec (.exit t p status)) := by
  obtain ⟨hpc, htp, hk⟩ := hen
  have hagent := agent_run hpc htp
  have hout : s.synch.pc t = .out := h.serves.idle (by rw [hpc]; rfl)
  obtain ⟨r, hr, hn, hend⟩ := (h.shared hk).agentFits hagent
  change Sound _ _ (s.sysExit t p status)
  rw [sysExit_ok hr (by omega)]
  have hm := moved_begin { s with tproc := Function.update s.tproc t none } t (.exitLock p) (.acquire p)
  refine h.detach hk hagent hr ⟨hm.pc, fun hq => Function.update_of_ne hq .., hm.synch⟩ rfl rfl ?_ hend
    rfl rfl (.inl ?_) rfl rfl nofun ?_ (h.enters hout (by rw [Synch.Begins, hpc]; exact nofun) rfl)
  · change r.numthreads - 1 = 0
    omega
  · unfold agent
    rw [show (Procs.begin _ t (.exitLock p) (.acquire p)).pc t = .exitLock p from Function.update_self ..]
  · intro f hf
    cases hf
    exact hk

theorem Proper.runprogram {s : Procs} (h : s.Proper) (hen : s.Enabled (.runprogram t)) :
    Sound (· = ProcStop.tableFull) Proper (s.exec (.runprogram t)) := by
  obtain ⟨g, hpc⟩ := hen
  obtain ⟨p, htp, hk⟩ := h.startup hpc
  have hout : s.synch.pc t = .out := h.serves.idle (by rw [hpc]; rfl)
  have hagent : s.agent t = some (p, .attached) := by
    unfold agent
    rw [hpc, htp]
    rfl
  obtain ⟨r, hr, hn, hend⟩ := (h.shared hk).agentFits hagent
  have hstays : ∀ x : ThreadPc, x.call = none →
      s.synch.Serves fun q => (Function.update s.pc t x q).call :=
    fun x hx => h.stays hout (by rw [hpc]; intros; contradiction) hx
  simp only [exec, hpc, htp]
  split
  · have hm := moved_goto s t .run
    refine h.turned hm rfl rfl rfl ?_ (by intros; contradiction) rfl (by intro g hg; cases hg)
      (by intros; contradiction) (hstays _ rfl)
    intro p' b hb
    rw [agent_run hm.self htp] at hb
    rw [hagent]
    exact hb
  · rw [procRemthread_ok hr (by omega)]
    have hm := moved_goto { s with tproc := Function.update s.tproc t none } t .zombie
    refine h.detach hk hagent hr ⟨hm.pc, fun hq => Function.update_of_ne hq .., hm.synch⟩ rfl rfl
      ?_ hend rfl rfl (.inr ?_) rfl rfl (by intro g hg; cases hg) (by intros; contradiction)
      (hstays _ rfl)
    · change r.numthreads - 1 = 0
      omega
    · unfold agent
      rw [show (Procs.goto _ t .zombie).pc t = .zombie from Function.update_self ..]

theorem Proper.attach {s u : Procs} (h : s.Proper) (hk : p ≠ kproc) (hr : s.heap p = some r)
    (hn : r.numthreads = 0) (hend : r.ended = false) (hno : ∀ q b, s.agent q ≠ some (p, b))
    (hnc : ∀ q, (s.pc q).creates ≠ some p) (hpc : s.pc t = .none) (hm : Moved s u t x)
    (hheap : u.heap = Function.update s.heap p (some { r with numthreads := r.numthreads + 1 }))
    (htable : u.table = s.table) (hbrk : u.brk = s.brk) (htp : u.tproc t = some p)
    (hx : x = .run ∨ ∃ g, x = .startup g)
    (hsynch : u.synch = s.synch) : u.Proper := by
  have hout : s.synch.pc t = .out := h.serves.idle (by rw [hpc]; rfl)
  obtain ⟨hcall, hw, hc, hua⟩ : x.call = none ∧ x.waits = none ∧ x.creates = none ∧
      u.agent t = some (p, .attached) := by
    unfold agent
    rw [hm.self, htp]
    rcases hx with rfl | ⟨g, rfl⟩
    · exact ⟨rfl, rfl, rfl, rfl⟩
    · exact ⟨rfl, rfl, rfl, rfl⟩
  have hsh := h.shared hk
  have hcx : ∀ p, x.creates ≠ some p := by
    rw [hc]
    exact nofun
  have hwx : ∀ p b, x.waits ≠ some (p, b) := by
    rw [hw]
    exact nofun
  apply h.moved p hm
  · intro p' hp'
    rw [hheap]
    exact Function.update_of_ne hp' ..
  · exact hk
  · intro p' b hp' hb
    rw [hua] at hb
    cases hb
    exact absurd rfl hp'
  · intro p' b _ hb
    exact absurd hb (hwx p' b)
  · intro p' _ hb
    exact absurd hb (hcx p')
  · intro g _
    exact ⟨p, htp, hk⟩
  · rw [hcall]
    exact nofun
  · rw [hsynch]
    exact h.stays hout (by rw [hpc]; exact nofun) hcall
  · exact h.tabled.set hr hheap rfl htable hbrk
  · have hup : u.heap p = some { r with numthreads := r.numthreads + 1 } := by
      rw [hheap]
      exact Function.update_self ..
    apply hsh.change hm hup
    · intro b hb
      rw [hua] at hb
      cases hb
      refine ⟨⟨?_, hend⟩, fun q b' _ => hno q b'⟩
      change r.numthreads + 1 = 1
      omega
    · exact .inr fun q b _ => hno q b
    · intro b hb
      exact absurd hb (hwx p b)
    · intro q hqw
      by_cases hqt : q = t
      · subst hqt
        rw [hm.self] at hqw
        exact absurd hqw (hwx p true)
      · rw [hm.other hqt] at hqw
        rw [(hsh.waitEnds hqw).2 r hr] at hend
        cases hend
    · intro hb
      exact absurd hb (hcx p)
    · intro q hqc
      by_cases hqt : q = t
      · subst hqt
        rw [hm.self] at hqc
        exact absurd hqc (hcx p)
      · rw [hm.other hqt] at hqc
        exact absurd hqc (hnc q)
    · intro he
      change r.ended = true at he
      rw [hend] at he
      cases he

theorem Proper.fork {s u : Procs} (h : s.Proper) (hp : (s.pc t).creates = some p)
    (hpc : s.pc q = .none) (hy : y = .run ∨ y = .launched p)
    (hyw : ∀ p' b, ThreadPc.waits y = some (p', b) → (s.pc t).waits = some (p', b))
    (hx : x = .run ∨ ∃ g, x = .startup g) (hu : s.threadFork p q x = .ok u) :
    (u.goto t y).Proper := by
  have hk := h.creates hp
  obtain ⟨hno, r, hr, hn, hend⟩ := (h.shared hk).created hp
  have hqt : q ≠ t := by
    rintro rfl
    rw [hpc] at hp
    cases hp
  have hst : ∃ p', s.pc t = .forking p' ∨ s.pc t = .launching p' := by
    cases ht : s.pc t with
    | forking p' => exact ⟨p', .inl rfl⟩
    | launching p' => exact ⟨p', .inr rfl⟩
    | _ =>
      rw [ht] at hp
      cases hp
  have hcall : (s.pc t).call = none ∧ s.agent t = (s.tproc t).map fun p => (p, .attached) := by
    unfold agent
    obtain ⟨p', ht | ht⟩ := hst
    · rw [ht]
      exact ⟨rfl, rfl⟩
    · rw [ht]
      exact ⟨rfl, rfl⟩
  have hyc : y.call = none ∧ y.creates = none ∧ ∀ g, y ≠ .startup g := by
    rcases hy with rfl | rfl
    · exact ⟨rfl, rfl, nofun⟩
    · exact ⟨rfl, rfl, nofun⟩
  have hm := moved_goto s t y
  have hya : (s.goto t y).agent t = s.agent t := by
    rw [hcall.2]
    unfold agent
    rw [hm.self]
    rcases hy with rfl | rfl
    · rfl
    · rfl
  -- first the thread of the parent goes on, then the new thread comes
  have h₁ : (s.goto t y).Proper := by
    refine h.turned hm rfl rfl rfl ?_ hyw hyc.2.1 hyc.2.2 ?_ ?_
    · intro p' b hb
      rw [hya] at hb
      exact hb
    · rw [hyc.1]
      exact nofun
    · exact h.stays (h.serves.idle hcall.1) (by rw [hcall.1]; exact nofun) hyc.1
  unfold threadFork at hu
  rw [deref_ok hr] at hu
  cases hu
  refine h₁.attach hk hr hn hend ?_ ?_ ((hm.other hqt).trans hpc) ⟨?_, ?_, fun _ => rfl⟩ rfl rfl rfl
    (Function.update_self ..) hx rfl
  · intro q' b
    by_cases hq' : q' = t
    · subst hq'
      rw [hya]
      exact hno q' b
    · rw [hm.agent hq']
      exact hno q' b
  · intro q' hq'
    by_cases hqt' : q' = t
    · subst hqt'
      rw [hm.self, hyc.2.1] at hq'
      cases hq'
    · rw [hm.other hqt'] at hq'
      exact hqt' ((h.shared hk).createOnce hq' hp)
  · exact Function.update_comm hqt ..
  · intro q' hq'
    exact Function.update_of_ne hq' ..

theorem Proper.start {s : Procs} (h : s.Proper) (hen : s.Enabled (.start t q g)) :
    Sound (· = ProcStop.tableFull) Proper (s.exec (.start t q g)) := by
  obtain ⟨⟨p, ht⟩ | ⟨p, ht⟩, hq⟩ := hen
  · have hp : (s.pc t).creates = some p := by
      rw [ht]
      rfl
    obtain ⟨-, r, hr, -⟩ := (h.shared (h.creates hp)).created hp
    simp only [exec, ht]
    have hok : ∃ u, s.threadFork p q .run = .ok u := by
      unfold threadFork
      rw [deref_ok hr]
      exact ⟨_, rfl⟩
    obtain ⟨u, hu⟩ := hok
    rw [hu]
    exact h.fork hp hq (.inl rfl) (by intros; contradiction) (.inl rfl) hu
  · have hp : (s.pc t).creates = some p := by
      rw [ht]
      rfl
    obtain ⟨-, r, hr, -⟩ := (h.shared (h.creates hp)).created hp
    simp only [exec, ht]
    have hok : ∃ u, s.threadFork p q (.startup g) = .ok u := by
      unfold threadFork
      rw [deref_ok hr]
      exact ⟨_, rfl⟩
    obtain ⟨u, hu⟩ := hok
    rw [hu]
    refine h.fork hp hq (.inr rfl) ?_ (.inr ⟨g, rfl⟩) hu
    rw [ht]
    exact fun _ _ hb => hb

theorem procSearchPid_ok {s : Procs} (h : s.Tabled) {pid : BitVec 32} (h0 : 0 < pid.toInt)
    (h1 : pid.toInt ≤ maxProc) (hp : s.table pid.toNat = some p) : s.procSearchPid pid = .ok p := by
  obtain ⟨r, hr, hpid⟩ := h.entry hp
  unfold procSearchPid
  rw [decide_eq_true h0, decide_eq_true h1, hp]
  simp only
  rw [deref_ok hr]
  change (kassert (r.pid == pid.toNat) .procSearchPid >>= _) = _
  rw [hpid, beq_self_eq_true]
  rfl

theorem Proper.wait {s : Procs} (h : s.Proper) {pid : BitVec 32} (h0 : 0 < pid.toInt)
    (h1 : pid.toInt ≤ maxProc) (hp : s.table pid.toNat = some p) (hk : p ≠ kproc)
    (ht : s.pc t = .run ∨ s.pc t = .launched p)
    (hw : ∀ q a, q ≠ t → (s.pc q).waits ≠ some (p, a)) :
    ∃ u, s.sysWaitpid t pid = .ok u ∧ u.Proper ∧ u.pc t = .waitLock p (s.curspl t) := by
  have hcall : (s.pc t).call = none ∧ s.agent t = (s.tproc t).map fun p => (p, .attached) := by
    unfold agent
    rcases ht with ht | ht
    · rw [ht]
      exact ⟨rfl, rfl⟩
    · rw [ht]
      exact ⟨rfl, rfl⟩
  obtain ⟨r, hr, -⟩ := h.tabled.entry hp
  have hsh := h.shared hk
  let u := { s with curspl := Function.update s.curspl t 1 }.begin t
    (.waitLock p (s.curspl t)) (.acquire p)
  have hok : s.sysWaitpid t pid = .ok u := by
    unfold sysWaitpid
    rw [procSearchPid_ok h.tabled h0 h1 hp]
    change (kassert (p != kproc) .procWait >>= _) = _
    rw [bne_iff_ne.2 hk]
    rfl
  have hm : Moved s u t (.waitLock p (s.curspl t)) :=
    ⟨rfl, fun _ => rfl, fun hq => Synch.pc_goto_of_ne _ _ hq⟩
  have hua : u.agent t = s.agent t := by
    rw [hcall.2]
    unfold agent
    rw [hm.self]
    rfl
  have hall : ∀ q, u.agent q = s.agent q := by
    intro q
    by_cases hqt : q = t
    · subst hqt
      exact hua
    · exact hm.agent hqt
  refine ⟨u, hok, ?_, hm.self⟩
  apply h.moved p hm
  · exact fun _ _ => rfl
  · exact hk
  · intro p' b _ hb
    rw [hua] at hb
    exact hb
  · intro p' b hp' hb
    cases hb
    exact absurd rfl hp'
  · exact nofun
  · exact nofun
  · intro f hf
    cases hf
    exact hk
  · exact h.enters (h.serves.idle hcall.1) (by rw [Synch.Begins, hcall.1]; exact nofun) rfl
  · exact h.tabled.same rfl rfl rfl
  · apply hsh.change hm hr
    · intro b hb
      rw [hua] at hb
      obtain ⟨r', hr', hfit⟩ := hsh.agentFits hb
      rw [hr] at hr'
      cases hr'
      exact ⟨hfit, fun q b' hqt hq => hqt (hsh.agentOnce hq hb)⟩
    · exact .inl rfl
    · intro b _ q b' hqt
      exact hw q b' hqt
    · intro q hqw
      by_cases hqt : q = t
      · subst hqt
        rw [hm.self] at hqw
        cases hqw
      · rw [hm.other hqt] at hqw
        exact absurd hqw (hw q true hqt)
    · exact nofun
    · intro q hqc
      by_cases hqt : q = t
      · subst hqt
        rw [hm.self] at hqc
        cases hqc
      · rw [hm.other hqt] at hqc
        obtain ⟨hno, r', hr', h0, h1⟩ := hsh.created hqc
        rw [hr] at hr'
        cases hr'
        refine ⟨?_, h0, h1⟩
        intro q' b
        rw [hall]
        exact hno q' b
    · exact hsh.ended hr

theorem toInt_of_pid {pid : BitVec 32} (h0 : 0 < pid.toNat) (h1 : pid.toNat ≤ maxProc) :
    0 < pid.toInt ∧ pid.toInt ≤ maxProc := by
  have hm : maxProc = 100 := rfl
  have hint : pid.toInt = pid.toNat := by
    rw [BitVec.toInt_eq_toNat_cond]
    split
    · rfl
    · omega
  omega

/-- Each call waits: that of a user process by the condition, that of the menu because no other
thread waits for the program. -/
theorem Proper.waits_ok {s : Procs} (h : s.Proper) {pid : BitVec 32}
    (hen : s.Enabled (.waitpid t pid)) (hs : s.Sole (.waitpid t pid)) :
    ∃ p u, s.table pid.toNat = some p ∧ s.exec (.waitpid t pid) = .ok u ∧ u.Proper ∧
      u.pc t = .waitLock p (s.curspl t) := by
  rcases hen with ⟨ht, -⟩ | ⟨p, ht, hpid⟩
  · obtain ⟨h0, h1, p, hp, hk, hw⟩ := hs ht
    obtain ⟨u, hu, hok⟩ := h.wait h0 h1 hp hk (.inl ht) (fun q a _ => hw q a)
    refine ⟨p, u, hp, ?_, hok⟩
    simp only [exec, ht]
    exact hu
  · have hwt : (s.pc t).waits = some (p, false) := by
      rw [ht]
      rfl
    have hk := h.waits hwt
    obtain ⟨r, hr⟩ := (h.shared hk).waitLive hwt
    obtain ⟨hp, h0, h1, -⟩ := h.tabled.proc hr
    rw [← hpid r hr] at hp h0 h1
    obtain ⟨h0, h1⟩ := toInt_of_pid h0 h1
    obtain ⟨u, hu, hok⟩ := h.wait h0 h1 hp hk (.inr ht)
      (fun q a hqt hq => hqt ((h.shared hk).waitOnce hq hwt))
    refine ⟨p, u, hp, ?_, hok⟩
    simp only [exec, ht]
    rw [deref_ok hr]
    exact hu

/-- The structure of a call of synch.c is there until the call returns. -/
theorem Proper.lives {s : Procs} (h : s.Proper) (hf : (s.pc t).call = some f)
    (hout : s.synch.pc t ≠ .out ∨ f.owns .out = true) : ∃ r, s.heap f.lock = some r := by
  have hsh := h.shared (h.calls hf)
  have hagent : ∀ {a}, s.agent t = some (f.lock, a) → ∃ r, s.heap f.lock = some r := by
    intro a ha
    obtain ⟨r, hr, -⟩ := hsh.agentFits ha
    exact ⟨r, hr⟩
  cases hpc : s.pc t with
  | exitLock p =>
    rw [hpc] at hf
    cases hf
    apply hagent (a := .locking)
    unfold agent
    rw [hpc]
    rfl
  | exitSignal p =>
    rw [hpc] at hf
    cases hf
    apply hagent (a := .ending)
    unfold agent
    rw [hpc]
    rfl
  | exitRelease p =>
    rw [hpc] at hf
    cases hf
    rcases hout with hout | hout
    · apply hagent (a := .ending)
      unfold agent
      rw [hpc]
      simp only [hout, if_false]
      rfl
    · cases hout
  | waitLock p spl | waitCv p spl | waitRelease p spl =>
    rw [hpc] at hf
    cases hf
    apply hsh.waitLive (t := t)
    rw [hpc]
    rfl
  | _ =>
    rw [hpc] at hf
    cases hf

theorem Proper.synch {s : Procs} (h : s.Proper) (hen : s.Enabled (.synch e)) :
    Sound (· = ProcStop.tableFull) Proper (s.exec (.synch e)) := by
  obtain ⟨hc, hen⟩ := hen
  obtain ⟨f, hf⟩ := h.serves.running hen hc
  change Sound _ _ (s.synchSection e)
  unfold synchSection
  rw [hf]
  cases hex : s.synch.exec e with
  | error g => exact (h.serves.error hen hex).elim
  | ok v =>
    have hstep : SynchStep s.synch e v := ⟨hen, hex⟩
    have hout := (Synch.self_step hstep hc (h.serves.within hf)).1
    obtain ⟨r, hr⟩ := h.lives hf (.inl hout)
    simp only
    rw [deref_ok hr]
    change Proper { s with synch := v }
    -- a thread that has returned from its call stays there
    have hagent : ∀ q a, ({ s with synch := v } : Procs).agent q = some a → s.agent q = some a := by
      intro q a ha
      unfold agent at ha ⊢
      simp only at ha
      cases hpc : s.pc q with
      | exitRelease p =>
        rw [hpc] at ha
        simp only at ha ⊢
        by_cases hq : s.synch.pc q = .out
        · have hqe : q ≠ e.thread := by
            rintro rfl
            exact hout hq
          have hv : v.pc q = .out := by
            rcases Synch.pc_step hstep hqe with hv | hv
            · exact hv.trans hq
            · rw [hv]
              exact SynchPc.wake_out hq
          rw [if_pos hv] at ha
          cases ha
        · rw [if_neg hq]
          split at ha
          · cases ha
          · exact ha
      | _ =>
        rw [hpc] at ha
        exact ha
    refine ⟨h.serves.step hstep hc, h.tabled.same rfl rfl rfl, h.kernel, h.waits, h.creates,
      h.startup, h.calls, ?_⟩
    intro p hp
    exact (h.shared hp).frame rfl (fun q b => hagent q _) (fun _ _ hb => hb) (fun _ hb => hb)

theorem Proper.owner {s : Procs} (h : s.Proper) (hf : (s.pc t).call = some f)
    (ho : f.owns (s.synch.pc t) = true) : s.synch.lkOwner f.lock = some t :=
  h.serves.owner.2 ⟨f, hf, rfl, ho⟩

/-- The thread of a process sets `ended` while it has the lock. -/
theorem Proper.ends {s : Procs} (h : s.Proper) (hpc : s.pc t = .exitLock p)
    (hout : s.synch.pc t = .out) : Sound (· = ProcStop.tableFull) Proper (s.resume t) := by
  have hagent : s.agent t = some (p, .locking) := by
    unfold agent
    rw [hpc]
  have hk : p ≠ kproc := h.calls (t := t) (f := .acquire p) (by rw [hpc]; rfl)
  have hsh := h.shared hk
  obtain ⟨r, hr, hn, hend⟩ := hsh.agentFits hagent
  have honly : ∀ q b, q ≠ t → s.agent q ≠ some (p, b) :=
    fun q b hqt hq => hqt (hsh.agentOnce hq hagent)
  unfold resume
  simp only [hpc]
  rw [deref_ok hr]
  let u := (s.setProc p { r with ended := true }).begin t (.exitSignal p) (.signal p p)
  change u.Proper
  have hm : Moved s u t (.exitSignal p) :=
    ⟨rfl, fun _ => rfl, fun hq => Synch.pc_goto_of_ne _ _ hq⟩
  have hua : u.agent t = some (p, .ending) := by
    unfold agent
    rw [hm.self]
  apply h.moved p hm
  · intro p' hp'
    exact Function.update_of_ne hp' ..
  · exact hk
  · intro p' b hp' hb
    rw [hua] at hb
    cases hb
    exact absurd rfl hp'
  · exact nofun
  · exact nofun
  · exact nofun
  · intro f hf
    cases hf
    exact hk
  · exact h.enters hout ⟨.acquire p, by simp only [hpc]; rfl, rfl, rfl⟩ rfl
  · exact h.tabled.set hr rfl rfl rfl rfl
  · apply hsh.change hm (Function.update_self ..)
    · intro b hb
      rw [hua] at hb
      cases hb
      exact ⟨⟨hn, rfl⟩, honly⟩
    · exact .inr honly
    · exact nofun
    · intro q hqw
      by_cases hqt : q = t
      · subst hqt
        rw [hm.self] at hqw
        cases hqw
      · rw [hm.other hqt] at hqw
        exact absurd hagent ((hsh.waitEnds hqw).1 t _)
    · exact nofun
    · intro q hqc
      by_cases hqt : q = t
      · subst hqt
        rw [hm.self] at hqc
        cases hqc
      · rw [hm.other hqt] at hqc
        exact absurd hagent ((hsh.created hqc).1 t _)
    · exact fun _ => hn

/-- The test of `proc_wait`, by a thread that has the lock: if the process has ended then its
thread has released the lock. -/
theorem Proper.tests {s : Procs} (h : s.Proper)
    (hpc : s.pc t = .waitLock p spl ∨ s.pc t = .waitCv p spl) (hout : s.synch.pc t = .out) :
    Sound (· = ProcStop.tableFull) Proper (s.waitTest t p spl) := by
  obtain ⟨hw, f, hf, hl, hfo⟩ : (s.pc t).waits = some (p, false) ∧
      ∃ f, (s.pc t).call = some f ∧ f.lock = p ∧ f.owns .out = true := by
    rcases hpc with hpc | hpc
    · rw [hpc]
      exact ⟨rfl, _, rfl, rfl, rfl⟩
    · rw [hpc]
      exact ⟨rfl, _, rfl, rfl, rfl⟩
  have hta : s.agent t = (s.tproc t).map fun p => (p, .attached) := by
    unfold agent
    rcases hpc with hpc | hpc
    · rw [hpc]
    · rw [hpc]
  have hk := h.waits hw
  have hsh := h.shared hk
  obtain ⟨r, hr⟩ := hsh.waitLive hw
  have hown : s.synch.lkOwner p = some t := by
    rw [← hl]
    exact h.owner hf (by rw [hout]; exact hfo)
  unfold waitTest
  rw [deref_ok hr]
  change Sound _ _ (if r.ended = true then _ else _)
  split
  · rename_i hend
    change (s.begin t (.waitRelease p spl) (.release p)).Proper
    have hm := moved_begin s t (.waitRelease p spl) (.release p)
    have hua : (s.begin t (.waitRelease p spl) (.release p)).agent t = s.agent t := by
      rw [hta]
      unfold agent
      rw [hm.self]
      rfl
    -- a thread that is still at the end of the process would have the lock
    have hnone : ∀ q b, s.agent q ≠ some (p, b) := by
      intro q b hq
      obtain ⟨r', hr', hfit⟩ := hsh.agentFits hq
      rw [hr] at hr'
      cases hr'
      have hqt : ∀ g, (s.pc q).call = some g → g.lock = p → g.owns (s.synch.pc q) = true →
          q = t := by
        intro g hg hgl hgo
        have hq := h.owner hg hgo
        rw [hgl, hown] at hq
        exact (Option.some.inj hq).symm
      cases b with
      | attached =>
        rw [hfit.2] at hend
        cases hend
      | locking =>
        rw [hfit.2] at hend
        cases hend
      | ending =>
        have heq : q = t := by
          rcases agent_ending hq with hpq | ⟨hpq, hne⟩
          · exact hqt (.signal p p) (by rw [hpq]; rfl) rfl rfl
          · apply hqt (.release p) (by rw [hpq]; rfl) rfl
            cases hsp : s.synch.pc q with
            | out => exact absurd hsp hne
            | _ => rfl
        rw [heq, hta] at hq
        obtain ⟨p', -, hp'⟩ := Option.map_eq_some_iff.1 hq
        cases hp'
    have hall : ∀ q b, (s.begin t (.waitRelease p spl) (.release p)).agent q ≠ some (p, b) := by
      intro q b
      by_cases hqt : q = t
      · subst hqt
        rw [hua]
        exact hnone q b
      · rw [hm.agent hqt]
        exact hnone q b
    apply h.moved p hm
    · exact fun _ _ => rfl
    · exact hk
    · intro p' b _ hb
      rw [hua] at hb
      exact hb
    · intro p' b hp' hb
      cases hb
      exact absurd rfl hp'
    · exact nofun
    · exact nofun
    · intro g hg
      cases hg
      exact hk
    · exact h.enters hout ⟨f, hf, hl, hfo⟩ rfl
    · exact h.tabled.same rfl rfl rfl
    · apply hsh.change hm hr
      · intro b hb
        exact absurd hb (hall t b)
      · exact .inl rfl
      · intro b _ q b' hqt hq
        exact hqt (hsh.waitOnce hq hw)
      · exact fun q _ => ⟨hall, hend⟩
      · exact nofun
      · intro q hqc
        by_cases hqt : q = t
        · subst hqt
          rw [hm.self] at hqc
          cases hqc
        · rw [hm.other hqt] at hqc
          obtain ⟨-, r', hr', -, hend'⟩ := hsh.created hqc
          rw [hr] at hr'
          cases hr'
          rw [hend'] at hend
          cases hend
      · exact hsh.ended hr
  · have hm := moved_begin s t (.waitCv p spl) (.wait p p)
    refine h.turned hm rfl rfl rfl ?_ ?_ rfl nofun ?_ (h.enters hout ⟨f, hf, hl, hfo⟩ rfl)
    · intro p' b hb
      rw [hta]
      unfold agent at hb
      rw [hm.self] at hb
      exact hb
    · rw [hw]
      exact fun _ _ hb => hb
    · intro g hg
      cases hg
      exact hk

theorem Proper.resume {s : Procs} (h : s.Proper) (hen : s.Enabled (.resume t)) :
    Sound (· = ProcStop.tableFull) Proper (s.exec (.resume t)) := by
  obtain ⟨hres, hout⟩ := hen
  change Sound _ _ (s.resume t)
  cases hpc : s.pc t with
  | exitLock p => exact h.ends hpc hout
  | exitSignal p =>
    have hagent : s.agent t = some (p, .ending) := by
      unfold agent
      rw [hpc]
    have hk : p ≠ kproc := h.calls (t := t) (f := .signal p p) (by rw [hpc]; rfl)
    obtain ⟨r, hr, -⟩ := (h.shared hk).agentFits hagent
    unfold Procs.resume
    simp only [hpc]
    rw [deref_ok hr]
    change (s.begin t (.exitRelease p) (.release p)).Proper
    have hm := moved_begin s t (.exitRelease p) (.release p)
    refine h.turned hm rfl rfl rfl ?_ nofun rfl nofun ?_
      (h.enters hout ⟨.signal p p, by simp only [hpc]; rfl, rfl, rfl⟩ rfl)
    · intro p' b hb
      unfold agent at hb
      rw [hm.self] at hb
      simp only at hb
      split at hb
      · cases hb
      · rw [hagent]
        exact hb
    · intro g hg
      cases hg
      exact hk
  | exitRelease p =>
    unfold Procs.resume
    simp only [hpc]
    have hm := moved_goto s t .zombie
    refine h.turned hm rfl rfl rfl ?_ nofun rfl nofun nofun (h.stays hout ?_ rfl)
    · intro p' b hb
      unfold agent at hb
      rw [hm.self] at hb
      cases hb
    · rw [hpc]
      intro f hf
      cases hf
      rfl
  | waitLock p spl =>
    unfold Procs.resume
    simp only [hpc]
    exact h.tests (.inl hpc) hout
  | waitCv p spl =>
    unfold Procs.resume
    simp only [hpc]
    exact h.tests (.inr hpc) hout
  | waitRelease p spl =>
    have hw : (s.pc t).waits = some (p, true) := by
      rw [hpc]
      rfl
    have hk := h.waits hw
    obtain ⟨r, hr⟩ := (h.shared hk).waitLive hw
    unfold Procs.resume
    simp only [hpc]
    rw [deref_ok hr]
    change Sound _ _ (kassert (p != kproc) .procDestroy >>= _)
    rw [bne_iff_ne.2 hk]
    change (s.goto t (.waitDestroy p spl r.status)).Proper
    have hm := moved_goto s t (.waitDestroy p spl r.status)
    refine h.turned hm rfl rfl rfl ?_ ?_ rfl nofun nofun (h.stays hout ?_ rfl)
    · intro p' b hb
      unfold agent at hb ⊢
      rw [hm.self] at hb
      rw [hpc]
      exact hb
    · rw [hw]
      exact fun _ _ hb => hb
    · rw [hpc]
      intro f hf
      cases hf
      rfl
  | _ =>
    rw [hpc] at hres
    cases hres

/-- What a thread that destroys a structure can rely on: the process has ended, and no thread
has to do with its lock or its condition variable. -/
theorem Proper.unused {s : Procs} (h : s.Proper) (hpc : s.pc t = .waitDestroy p spl status) :
    ∃ r, s.heap p = some r ∧ r.ended = true ∧ r.numthreads = 0 ∧ p ≠ kproc ∧
      (∀ q b, s.agent q ≠ some (p, b)) ∧ s.synch.cvLock p = none ∧ s.synch.cvWchan p = [] ∧
      s.synch.lkWchan p = [] := by
  have hw : (s.pc t).waits = some (p, true) := by
    rw [hpc]
    rfl
  have hk := h.waits hw
  have hsh := h.shared hk
  obtain ⟨r, hr⟩ := hsh.waitLive hw
  obtain ⟨hno, hend⟩ := hsh.waitEnds hw
  -- a thread in a call for this structure is its agent or the waiter
  have hnone : ∀ q f, (s.pc q).call = some f → f.lock = p → f.owns .out = true → False := by
    intro q f hf hl ho
    have hwq : ∀ b, (s.pc q).waits ≠ some (p, b) := by
      intro b hb
      rw [hsh.waitOnce hb hw, hpc] at hf
      cases hf
    cases hq : s.pc q with
    | exitLock p' =>
      rw [hq] at hf
      cases hf
      cases hl
      apply hno q .locking
      unfold agent
      rw [hq]
      rfl
    | exitSignal p' =>
      rw [hq] at hf
      cases hf
      cases hl
      apply hno q .ending
      unfold agent
      rw [hq]
      rfl
    | waitLock p' spl' | waitCv p' spl' =>
      rw [hq] at hf
      cases hf
      cases hl
      apply hwq false
      rw [hq]
      rfl
    | exitRelease p' | waitRelease p' spl' =>
      rw [hq] at hf
      cases hf
      cases ho
    | _ =>
      rw [hq] at hf
      cases hf
  -- in `cv_wait` the lock and the condition variable are those of one structure
  have hwait : ∀ q l, (s.pc q).call = some (.wait p l) → False := by
    intro q l hq
    apply hnone q (.wait p l) hq ?_ rfl
    cases hpq : s.pc q with
    | waitCv p' spl' =>
      rw [hpq] at hq
      cases hq
      rfl
    | _ =>
      rw [hpq] at hq
      cases hq
  refine ⟨r, hr, hend r hr, hsh.ended hr (hend r hr), hk, hno, ?_, ?_, ?_⟩
  · cases hc : s.synch.cvLock p with
    | none => rfl
    | some q =>
      obtain ⟨l, hl⟩ := h.serves.spinning hc
      exact (hwait q l hl).elim
  · apply List.eq_nil_iff_forall_not_mem.2
    intro q hq
    obtain ⟨l, hl⟩ := h.serves.queued hq
    exact hwait q l hl
  · apply List.eq_nil_iff_forall_not_mem.2
    intro q hq
    obtain ⟨f, hf, hl, ho⟩ := h.serves.locked hq
    exact hnone q f hf hl ho

/-- `proc_destroy` after a wait. -/
theorem Proper.destroy {s : Procs} (h : s.Proper) (hpc : s.pc t = .waitDestroy p spl status) :
    ∃ r u, s.heap p = some r ∧ s.exec (.destroy t p) = .ok u ∧ u.Proper ∧ u.heap p = none ∧
      u.result t = some (r.pid, status) ∧ u.curspl t = spl := by
  obtain ⟨r, hr, hend, hn, hk, hno, hcv, hcvw, hlk⟩ := h.unused hpc
  have hsh := h.shared hk
  have hw : (s.pc t).waits = some (p, true) := by
    rw [hpc]
    rfl
  let u : Procs := { s with
    heap := Function.update s.heap p none
    table := Function.update s.table r.pid none
    pc := Function.update s.pc t .run
    curspl := Function.update s.curspl t spl
    result := Function.update s.result t (some (r.pid, status)) }
  have hok : s.exec (.destroy t p) = .ok u := by
    obtain ⟨-, h0, h1, -⟩ := h.tabled.proc hr
    simp only [exec, hpc]
    unfold procDestroy
    rw [deref_ok hr, hcv, hcvw, hlk]
    change (kassert (r.numthreads == 0) .procDestroy >>= fun _ =>
      kassert (decide (0 < r.pid) && decide (r.pid ≤ maxProc)) .procEndWaitpid >>= _) = _
    rw [hn, decide_eq_true h0, decide_eq_true h1]
    rfl
  have hm : Moved s u t .run := ⟨rfl, fun _ => rfl, fun _ => rfl⟩
  have hua : u.agent t = s.agent t := by
    unfold agent
    rw [hm.self, hpc]
  refine ⟨r, u, hr, hok, ?_, Function.update_self .., Function.update_self ..,
    Function.update_self ..⟩
  apply h.moved p hm
  · intro p' hp'
    exact Function.update_of_ne hp' ..
  · exact hk
  · intro p' b _ hb
    rw [hua] at hb
    exact hb
  · intros; contradiction
  · intros; contradiction
  · intros; contradiction
  · intros; contradiction
  · exact h.stays (h.serves.idle (by rw [hpc]; rfl)) (by rw [hpc]; intros; contradiction) rfl
  · exact h.tabled.remove hr rfl rfl rfl
  · apply Shared.of_absent (Function.update_self ..)
    · intro q b
      by_cases hqt : q = t
      · subst hqt
        rw [hua]
        exact hno q b
      · rw [hm.agent hqt]
        exact hno q b
    · intro q b hq
      by_cases hqt : q = t
      · subst hqt
        rw [hm.self] at hq
        cases hq
      · rw [hm.other hqt] at hq
        exact hqt (hsh.waitOnce hq hw)
    · intro q hq
      by_cases hqt : q = t
      · subst hqt
        rw [hm.self] at hq
        cases hq
      · rw [hm.other hqt] at hq
        obtain ⟨-, r', hr', -, hend'⟩ := hsh.created hq
        rw [hr] at hr'
        cases hr'
        rw [hend] at hend'
        cases hend'

theorem Proper.exec {s : Procs} (h : s.Proper) (hen : s.Enabled a) (hs : s.Sole a) :
    Sound (· = ProcStop.tableFull) Proper (s.exec a) := by
  cases a with
  | create t => exact h.create hen
  | start t q g => exact h.start hen
  | runprogram t => exact h.runprogram hen
  | exit t p status => exact h.exit hen
  | waitpid t pid =>
    obtain ⟨p, u, -, hu, hok, -⟩ := h.waits_ok hen hs
    rw [hu]
    exact hok
  | synch e => exact h.synch hen
  | resume t => exact h.resume hen
  | destroy t p =>
    obtain ⟨spl, status, hpc⟩ := hen
    obtain ⟨r, u, -, hu, hok, -⟩ := h.destroy hpc
    rw [hu]
    exact hok

theorem boot_proper : boot.Proper := by
  have hcall : ∀ t, (boot.pc t).call = none ∧ (boot.pc t).waits = none ∧
      (boot.pc t).creates = none ∧ ∀ g, boot.pc t ≠ .startup g := by
    intro t
    rcases boot_pc t with h | h
    · rw [h]
      exact ⟨rfl, rfl, rfl, nofun⟩
    · rw [h]
      exact ⟨rfl, rfl, rfl, nofun⟩
  refine ⟨?_, boot_tabled, ⟨_, rfl⟩, ?_, ?_, ?_, ?_, ?_⟩
  · rw [show (fun t => (boot.pc t).call) = fun _ => none from funext fun t => (hcall t).1]
    exact Synch.start_serves
  · intro t p a ht
    rw [(hcall t).2.1] at ht
    cases ht
  · intro t p ht
    rw [(hcall t).2.2.1] at ht
    cases ht
  · intro t g ht
    exact absurd ht ((hcall t).2.2.2 g)
  · intro t f ht
    rw [(hcall t).1] at ht
    cases ht
  · intro p hp
    apply Shared.of_absent (if_neg hp)
    · intro t b ht
      unfold agent at ht
      rcases boot_pc t with h | h
      · rw [h] at ht
        obtain ⟨p', hp', hpb⟩ := Option.map_eq_some_iff.1 ht
        cases hpb
        change (if t = 0 then some kproc else none) = some p at hp'
        split at hp'
        · cases hp'
          exact hp rfl
        · cases hp'
      · rw [h] at ht
        cases ht
    · intro t b ht
      rw [(hcall t).2.1] at ht
      cases ht
    · intro t ht
      rw [(hcall t).2.2.1] at ht
      cases ht

end Procs

/-- The calls of `proc_destroy` for a structure. -/
def ProcAction.destroys (p : Nat) : ProcAction → Bool
  | .destroy _ p' => p' == p
  | _ => false

namespace Procs

/-- What the actions so far say about the structures. -/
structure Recorded (tr : List ProcAction) (s : Procs) : Prop where
  exited : s.heap p = some r → (r.ended = true ∨ ∃ t, s.pc t = .exitLock p) →
    ∃ t status, ProcAction.exit t p status ∈ tr ∧ r.status = (status &&& 0xff#32).toNat
  read : s.pc t = .waitDestroy p spl status → ∃ r, s.heap p = some r ∧ r.status = status
  once : tr.countP (ProcAction.destroys p) ≤ 1
  freed : 0 < tr.countP (ProcAction.destroys p) → p < s.brk ∧ s.heap p = none

theorem boot_recorded : Recorded [] boot := by
  refine ⟨?_, ?_, fun {p} => Nat.zero_le _, nofun⟩
  · rintro p r hr (hend | ⟨t, ht⟩)
    · change (if p = kproc then some _ else none) = some r at hr
      split at hr
      · cases hr
        cases hend
      · cases hr
    · rcases boot_pc t with h | h <;> cases h.symm.trans ht
  · intro t p spl status ht
    rcases boot_pc t with h | h <;> cases h.symm.trans ht

theorem Recorded.exited_step {s u : Procs} (hr : Recorded tr s) (h : s.Proper)
    (hm : ProcMove s a u) (hp : u.heap p = some r)
    (hend : r.ended = true ∨ ∃ t, u.pc t = .exitLock p) :
    ∃ t status, ProcAction.exit t p status ∈ tr ++ [a] ∧
      r.status = (status &&& 0xff#32).toNat := by
  have hnew : (∃ t status, a = .exit t p status) →
      ∃ t status, ProcAction.exit t p status ∈ tr ++ [a] ∧
        r.status = (status &&& 0xff#32).toNat := by
    rintro ⟨t, status, rfl⟩
    exact ⟨t, status, List.mem_append_right _ List.mem_cons_self, move_exit hm hp⟩
  have hold : ∀ r₀, s.heap p = some r₀ → (r₀.ended = true ∨ ∃ t, s.pc t = .exitLock p) →
      r.status = r₀.status → ∃ t status, ProcAction.exit t p status ∈ tr ++ [a] ∧
        r.status = (status &&& 0xff#32).toNat := by
    intro r₀ hr₀ hend₀ hst
    obtain ⟨t, status, hmem, hst₀⟩ := hr.exited hr₀ hend₀
    exact ⟨t, status, List.mem_append_left _ hmem, hst.trans hst₀⟩
  rcases move_heap hm hp with ⟨r₀, hr₀, hst, hend₀⟩ | ⟨t, status, ha, -⟩ | ⟨hbrk, hno⟩
  · rcases hend with hend | ⟨t, ht⟩
    · exact hold r₀ hr₀ (hend₀ hend) hst
    · rcases move_exitLock hm ht with ht | ⟨status, ha⟩
      · exact hold r₀ hr₀ (.inr ⟨t, ht⟩) hst
      · exact hnew ⟨t, status, ha⟩
  · exact hnew ⟨t, status, ha⟩
  · rcases hend with hend | ⟨t, ht⟩
    · rw [hno] at hend
      cases hend
    · rcases move_exitLock hm ht with ht | ⟨status, ha⟩
      · -- a thread in `sys__exit` keeps the structure alive
        obtain ⟨r₀, hr₀⟩ := h.lives (t := t) (f := .acquire p) (by rw [ht]; rfl) (.inr rfl)
        have hlt := (h.tabled.proc hr₀).2.2.2
        rw [hbrk] at hlt
        exact absurd hlt (Nat.lt_irrefl _)
      · exact hnew ⟨t, status, ha⟩

theorem Recorded.step {s u : Procs} (hr : Recorded tr s) (h : s.Proper) (hu : u.Proper)
    (hm : ProcMove s a u) : Recorded (tr ++ [a]) u := by
  have hcount : ∀ p, (tr ++ [a]).countP (ProcAction.destroys p) =
      tr.countP (ProcAction.destroys p) + if a.destroys p then 1 else 0 := by
    intro p
    rw [List.countP_append, List.countP_singleton]
  have hdestroy : ∀ {p}, a.destroys p = true → tr.countP (ProcAction.destroys p) = 0 ∧
      p < u.brk ∧ u.heap p = none := by
    intro p ha
    obtain ⟨t, rfl⟩ : ∃ t, a = .destroy t p := by
      cases a with
      | destroy t p' => exact ⟨t, by rw [beq_iff_eq.1 ha]⟩
      | _ => cases ha
    obtain ⟨⟨r, hp⟩, hnone, hbrk⟩ := move_destroy hm
    refine ⟨?_, hbrk ▸ (h.tabled.proc hp).2.2.2, hnone⟩
    rcases Nat.eq_zero_or_pos (tr.countP (ProcAction.destroys p)) with h0 | hpos
    · exact h0
    · rw [(hr.freed hpos).2] at hp
      cases hp
  constructor
  · exact fun hp hend => hr.exited_step h hm hp hend
  · intro t p spl status ht
    rcases move_waitDestroy hm ht with hs | ⟨r, -, hst, hr', -⟩
    · obtain ⟨r, hp, hst⟩ := hr.read hs
      obtain ⟨-, -, -, -, -, hno, -⟩ := h.unused hs
      obtain ⟨r', hp', -⟩ := hu.unused ht
      refine ⟨r', hp', ?_⟩
      rcases move_heap hm hp' with ⟨r₀, hr₀, hst₀, -⟩ | ⟨q, st, rfl, -⟩ | ⟨hbrk, -⟩
      · rw [hp] at hr₀
        cases hr₀
        exact hst₀.trans hst
      · -- no thread works for a process that is about to be destroyed
        cases hm with
        | exit hpc htp hk hr₀ hn => exact absurd (agent_run hpc htp) (hno q .attached)
      · have hlt := (h.tabled.proc hp).2.2.2
        rw [hbrk] at hlt
        exact absurd hlt (Nat.lt_irrefl _)
    · exact ⟨r, hr', hst⟩
  · intro p
    rw [hcount]
    split
    · rename_i ha
      rw [(hdestroy ha).1]
    · exact hr.once
  · intro p hpos
    rw [hcount] at hpos
    split at hpos
    · rename_i ha
      exact (hdestroy ha).2
    · obtain ⟨hlt, hnone⟩ := hr.freed hpos
      obtain ⟨hlt', hnone', -⟩ := move_freed hm hlt
      exact ⟨hlt', hnone' hnone⟩

end Procs

/-- In every run in which the user processes wait only for processes of the table that no other
thread waits for: no assertion fails and no `NULL` or freed structure is used; a structure is
destroyed at most once, after its process has ended and its thread has left it; a wait returns
the status of the exit and goes back to the interrupt level of the call; and each call waits. -/
theorem exit_wait_safe (h : Run (ProcStepWhen Procs.Sole) Procs.boot tr s) :
    (∀ a e, s.Enabled a → s.Sole a → s.exec a = .error e → e = .tableFull) ∧
    (∀ p, tr.countP (ProcAction.destroys p) ≤ 1) ∧
    (∀ t p, s.Enabled (.destroy t p) → ∃ r u spl status, s.pc t = .waitDestroy p spl status ∧
      s.heap p = some r ∧ r.ended = true ∧ r.numthreads = 0 ∧ s.exec (.destroy t p) = .ok u ∧
      u.heap p = none ∧ u.result t = some (r.pid, r.status) ∧ u.curspl t = spl ∧
      ∃ q st, ProcAction.exit q p st ∈ tr ∧ r.status = (st &&& 0xff#32).toNat) ∧
    ∀ t pid, s.Enabled (.waitpid t pid) → s.Sole (.waitpid t pid) →
      ∃ p u, s.table pid.toNat = some p ∧ s.exec (.waitpid t pid) = .ok u ∧
        u.pc t = .waitLock p (s.curspl t) := by
  have hinv : s.Proper ∧ Procs.Recorded tr s := by
    apply h.invariant_trace (P := fun tr s => Procs.Proper s ∧ Procs.Recorded tr s)
    · exact ⟨Procs.boot_proper, Procs.boot_recorded⟩
    · rintro tr u a u' ⟨hu, hr⟩ ⟨hs, hen, hex⟩
      have hu' : u'.Proper := (hu.exec hen hs).ok hex
      exact ⟨hu', hr.step hu hu' (Procs.move_of_exec hen hex)⟩
  obtain ⟨hp, hr⟩ := hinv
  refine ⟨?_, fun p => hr.once, ?_, ?_⟩
  · intro a e hen hs he
    exact (hp.exec hen hs).error he
  · rintro t p ⟨spl, status, hpc⟩
    obtain ⟨r, hheap, hend, hn, -, hno, -⟩ := hp.unused hpc
    obtain ⟨r', u, hheap', hex, -, hnone, hres, hspl⟩ := hp.destroy hpc
    obtain ⟨r'', hheap'', hst⟩ := hr.read hpc
    cases hheap.symm.trans hheap'
    cases hheap.symm.trans hheap''
    refine ⟨r, u, spl, status, hpc, hheap, hend, hn, hex, hnone, ?_, hspl,
      hr.exited hheap (.inl hend)⟩
    rw [hst]
    exact hres
  · intro t pid hen hs
    obtain ⟨p, u, hpid, hex, -, hpc⟩ := hp.waits_ok hen hs
    exact ⟨p, u, hpid, hex, hpc⟩

/-- The menu starts a program, which exits with status 5, and waits for it. -/
theorem exit_wait_safe_menu : ∃ tr s, Run (ProcStepWhen Procs.Sole) Procs.boot tr s ∧
    s.pc 0 = .waitDestroy 1 0 5 ∧ ∃ u, s.exec (.destroy 0 1) = .ok u ∧ u.result 0 = some (2, 5) := by
  have h0 : Run (ProcStepWhen Procs.Sole) Procs.boot [] Procs.boot := .nil _
  have h1 := h0.proc (.create 0) trivial ⟨rfl, rfl⟩ rfl
  have h2 := h1.proc (.start 0 1 ⟨true, true, some []⟩) trivial ⟨.inr ⟨1, rfl⟩, rfl⟩ rfl
  have h3 := h2.proc (.runprogram 1) trivial ⟨_, rfl⟩ rfl
  have h4 := h3.proc (.exit 1 1 5#32) trivial ⟨rfl, rfl, by decide⟩ rfl
  have h5 := h4.proc (.synch (.check 1)) trivial ⟨rfl, .inl ⟨_, rfl⟩⟩ rfl
  have h6 := h5.proc (.synch (.acquire 1 1)) trivial ⟨rfl, .inl rfl, rfl⟩ rfl
  have h7 := h6.proc (.resume 1) trivial ⟨rfl, rfl⟩ rfl
  have h8 := h7.proc (.synch (.check 1)) trivial ⟨rfl, .inl ⟨_, rfl⟩⟩ rfl
  have h9 := h8.proc (.synch (.signal 1 1)) trivial ⟨rfl, ⟨_, rfl⟩, rfl⟩ rfl
  have h10 := h9.proc (.resume 1) trivial ⟨rfl, rfl⟩ rfl
  have h11 := h10.proc (.synch (.check 1)) trivial ⟨rfl, .inl ⟨_, rfl⟩⟩ rfl
  have h12 := h11.proc (.synch (.release 1 1)) trivial ⟨rfl, .inl rfl⟩ rfl
  have h13 := h12.proc (.resume 1) trivial ⟨rfl, rfl⟩ rfl
  have h14 := h13.proc (.waitpid 0 2#32) nofun (.inr ⟨1, rfl, by rintro r ⟨⟩; rfl⟩) rfl
  have h15 := h14.proc (.synch (.check 0)) trivial ⟨rfl, .inl ⟨_, rfl⟩⟩ rfl
  have h16 := h15.proc (.synch (.acquire 0 1)) trivial ⟨rfl, .inl rfl, rfl⟩ rfl
  have h17 := h16.proc (.resume 0) trivial ⟨rfl, rfl⟩ rfl
  have h18 := h17.proc (.synch (.check 0)) trivial ⟨rfl, .inl ⟨_, rfl⟩⟩ rfl
  have h19 := h18.proc (.synch (.release 0 1)) trivial ⟨rfl, .inl rfl⟩ rfl
  have h20 := h19.proc (.resume 0) trivial ⟨rfl, rfl⟩ rfl
  obtain ⟨-, -, hdestroy, -⟩ := exit_wait_safe h20
  obtain ⟨r, u, spl, status, hpc, hr, -, -, hex, -, hres, -⟩ := hdestroy 0 1 ⟨0, 5, rfl⟩
  refine ⟨_, _, h20, rfl, u, hex, ?_⟩
  rw [hres]
  cases hr
  rfl

/-- A program that waits for the pid 0, for a pid that is not in use, or for the kernel process
stops the kernel. -/
theorem waitpid_stops_kernel : ∃ tr s, Run (ProcStepWhen fun _ _ => True) Procs.boot tr s ∧
    (s.Enabled (.waitpid 1 0#32) ∧ s.exec (.waitpid 1 0#32) = .error (.kassert .procSearchPid)) ∧
    (s.Enabled (.waitpid 1 77#32) ∧ s.exec (.waitpid 1 77#32) = .error (.null .procSearchPid)) ∧
    (s.Enabled (.waitpid 1 1#32) ∧ s.exec (.waitpid 1 1#32) = .error (.kassert .procWait)) := by
  have h0 : Run (ProcStepWhen fun _ _ => True) Procs.boot [] Procs.boot := .nil _
  have h1 := h0.proc (.create 0) trivial ⟨rfl, rfl⟩ rfl
  have h2 := h1.proc (.start 0 1 ⟨true, true, some []⟩) trivial ⟨.inr ⟨1, rfl⟩, rfl⟩ rfl
  have h3 := h2.proc (.runprogram 1) trivial ⟨_, rfl⟩ rfl
  exact ⟨_, _, h3, ⟨.inl ⟨rfl, 1, rfl, by decide⟩, rfl⟩, ⟨.inl ⟨rfl, 1, rfl, by decide⟩, rfl⟩,
    .inl ⟨rfl, 1, rfl, by decide⟩, rfl⟩

end Clape
