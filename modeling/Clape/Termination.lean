import Clape.ProcessSharing

namespace Clape
set_option autoImplicit true

namespace Procs

/-- The programs that are started from the menu can be opened and are executables that
`load_elf` accepts, and there is memory for their address spaces. -/
def Runnable (s : Procs) : ProcAction → Prop
  | .runprogram t => ∀ g, s.pc t = .startup g → g.runs = true
  | _ => True

/-- A process without a thread has not yet been given one, is in `sys__exit`, or has ended. -/
def Published (s : Procs) : Prop :=
  ∀ p r, p ≠ kproc → s.heap p = some r → (∃ t, (s.pc t).creates = some p) ∨ 0 < r.numthreads ∨
    (∃ t, s.pc t = .exitLock p) ∨ r.ended = true

theorem Tabled.step {s u : Procs} (h : s.Tabled) (hm : ProcMove s a u) : u.Tabled := by
  have hbrk : s.heap s.brk = none := by
    cases hb : s.heap s.brk with
    | none => rfl
    | some r => exact absurd (h.proc hb).2.2.2 (Nat.lt_irrefl _)
  cases hm with
  | create hpc hi hfree hx => exact h.add hfree hbrk (mem_pidOrder hi) rfl rfl rfl rfl
  | start hpc hq hr => exact h.set hr rfl rfl rfl rfl
  | fail hpc hg ht hr hn => exact h.set hr rfl rfl rfl rfl
  | exit hpc ht hk hr hn => exact h.set hr rfl rfl rfl rfl
  | ended hpc hout hr => exact h.set hr rfl rfl rfl rfl
  | destroy hpc hr hn => exact h.remove hr rfl rfl rfl
  | _ => exact h.same rfl rfl rfl

/-- A process keeps what is known of it if the thread that gives it a thread, or that is in
`sys__exit`, stays there. -/
theorem Published.frame {s u : Procs} (h : s.Published) (hk : p ≠ kproc) (hp : s.heap p = some r)
    (hpc : ∀ q, (s.pc q).creates = some p ∨ s.pc q = .exitLock p → u.pc q = s.pc q) :
    (∃ t, (u.pc t).creates = some p) ∨ 0 < r.numthreads ∨ (∃ t, u.pc t = .exitLock p) ∨
      r.ended = true := by
  rcases h p r hk hp with ⟨q, hq⟩ | hn | ⟨q, hq⟩ | hend
  · exact .inl ⟨q, by rw [hpc q (.inl hq)]; exact hq⟩
  · exact .inr (.inl hn)
  · exact .inr (.inr (.inl ⟨q, by rw [hpc q (.inr hq)]; exact hq⟩))
  · exact .inr (.inr (.inr hend))

theorem update_of_stays {s : Procs} (hc : (s.pc t).creates ≠ some p) (hl : s.pc t ≠ .exitLock p)
    (q : Nat) (hq : (s.pc q).creates = some p ∨ s.pc q = .exitLock p) :
    Function.update s.pc t x q = s.pc q := by
  apply Function.update_of_ne
  rintro rfl
  rcases hq with hq | hq
  · exact hc hq
  · exact hl hq

theorem Published.step {s u : Procs} (h : s.Published) (hrun : s.Runnable a)
    (hm : ProcMove s a u) : u.Published := by
  intro p r hk hp
  cases hm with
  | @create t i x hpc hi hfree hx =>
    rcases update_cases hp with ⟨rfl, hr⟩ | hr
    · refine .inl ⟨t, ?_⟩
      change (Function.update s.pc t x t).creates = some s.brk
      rw [Function.update_self]
      rcases hx with rfl | rfl
      · rfl
      · rfl
    · exact h.frame hk hr (update_of_stays (by rw [hpc]; exact nofun) (by rw [hpc]; exact nofun))
  | @start t p' x y q r' g hpc hq hr' =>
    by_cases hpp : p = p'
    · subst hpp
      cases (Function.update_self ..).symm.trans hp
      exact .inr (.inl (Nat.succ_pos _))
    · have hr : s.heap p = some r := (Function.update_of_ne hpp ..).symm.trans hp
      apply h.frame hk hr
      intro q' hq'
      have hqt : q' ≠ t ∧ q' ≠ q := by
        constructor
        · rintro rfl
          rcases hpc with ⟨hpc, -⟩ | ⟨hpc, -⟩
          · rw [hpc] at hq'
            rcases hq' with hq' | hq' <;> cases hq'
            exact hpp rfl
          · rw [hpc] at hq'
            rcases hq' with hq' | hq' <;> cases hq'
            exact hpp rfl
        · rintro rfl
          rw [hq] at hq'
          rcases hq' with hq' | hq' <;> cases hq'
      exact (Function.update_of_ne hqt.1 ..).trans (Function.update_of_ne hqt.2 ..)
  | enter hpc hg =>
    exact h.frame hk hp (update_of_stays (by rw [hpc]; exact nofun) (by rw [hpc]; exact nofun))
  | fail hpc hg ht hr hn =>
    rw [hrun _ hpc] at hg
    cases hg
  | @exit t p' r' status hpc ht hk' hr' hn =>
    rcases update_cases hp with ⟨rfl, hr⟩ | hr
    · exact .inr (.inr (.inl ⟨t, Function.update_self ..⟩))
    · exact h.frame hk hr (update_of_stays (by rw [hpc]; exact nofun) (by rw [hpc]; exact nofun))
  | waitpid hpc hp' hk' hr' hpid =>
    rcases hpc with hpc | ⟨p', hpc⟩
    · exact h.frame hk hp (update_of_stays (by rw [hpc]; exact nofun) (by rw [hpc]; exact nofun))
    · exact h.frame hk hp (update_of_stays (by rw [hpc]; exact nofun) (by rw [hpc]; exact nofun))
  | @ended t p' r' hpc hout hr' =>
    by_cases hpp : p = p'
    · subst hpp
      cases (Function.update_self ..).symm.trans hp
      exact .inr (.inr (.inr rfl))
    · have hr : s.heap p = some r := (Function.update_of_ne hpp ..).symm.trans hp
      refine h.frame hk hr (update_of_stays (by rw [hpc]; exact nofun) ?_)
      rw [hpc]
      rintro ⟨⟩
      exact hpp rfl
  | seen hpc _ _ _ =>
    rcases hpc with hpc | hpc
    · exact h.frame hk hp (update_of_stays (by rw [hpc]; exact nofun) (by rw [hpc]; exact nofun))
    · exact h.frame hk hp (update_of_stays (by rw [hpc]; exact nofun) (by rw [hpc]; exact nofun))
  | sleep hpc _ _ _ =>
    rcases hpc with hpc | hpc
    · exact h.frame hk hp (update_of_stays (by rw [hpc]; exact nofun) (by rw [hpc]; exact nofun))
    · exact h.frame hk hp (update_of_stays (by rw [hpc]; exact nofun) (by rw [hpc]; exact nofun))
  | destroy hpc hr' hn =>
    rcases update_cases hp with ⟨-, hr⟩ | hr
    · cases hr
    · exact h.frame hk hr (update_of_stays (by rw [hpc]; exact nofun) (by rw [hpc]; exact nofun))
  | adrift _ _ | synch _ _ | still _ => exact h p r hk hp
  | signalled hpc _ | gone hpc _ | collect hpc _ _ =>
    exact h.frame hk hp (update_of_stays (by rw [hpc]; exact nofun) (by rw [hpc]; exact nofun))

end Procs

/-- In every run in which the programs of the menu can be run: a process of the table, other than
the kernel's, that has been given a thread and has none now, has ended unless its thread is in
`sys__exit`; and a thread that tests it in `proc_wait` does not go to sleep. -/
theorem termination_published (h : Run (ProcStepWhen Procs.Runnable) Procs.boot tr s)
    (hp : s.table i = some p) (hk : p ≠ kproc) (hborn : ∀ t, (s.pc t).creates ≠ some p) :
    ∃ r, s.heap p = some r ∧ r.pid = i ∧ (r.numthreads = 0 → (∀ t, s.pc t ≠ .exitLock p) →
      r.ended = true ∧ ∀ t spl, s.waitTest t p spl =
        .ok (s.begin t (.waitRelease p spl) (.release p))) := by
  have hinv : s.Tabled ∧ s.Published := by
    apply h.invariant (P := fun s => Procs.Tabled s ∧ Procs.Published s)
    · refine ⟨Procs.boot_tabled, ?_⟩
      intro p r hk hr
      change (if p = kproc then some _ else none) = some r at hr
      rw [if_neg hk] at hr
      cases hr
    · rintro u a u' ⟨ht, hu⟩ ⟨hrun, hen, hex⟩
      have hm := Procs.move_of_exec hen hex
      exact ⟨ht.step hm, hu.step hrun hm⟩
  obtain ⟨r, hr, hpid⟩ := hinv.1.entry hp
  refine ⟨r, hr, hpid, ?_⟩
  intro hn hexit
  have hend : r.ended = true := by
    rcases hinv.2 p r hk hr with ⟨t, ht⟩ | hpos | ⟨t, ht⟩ | hend
    · exact absurd ht (hborn t)
    · omega
    · exact absurd ht (hexit t)
    · exact hend
  refine ⟨hend, ?_⟩
  intro t spl
  unfold Procs.waitTest
  rw [Procs.deref_ok hr]
  change (if r.ended = true then _ else _) = _
  rw [if_pos hend]
  rfl

/-- A program that the menu starts, and that exits. -/
theorem termination_published_exit : ∃ tr s, Run (ProcStepWhen Procs.Runnable) Procs.boot tr s ∧
    s.table 2 = some 1 ∧ s.pc 1 = .zombie ∧ ∃ r, s.heap 1 = some r ∧ r.ended = true := by
  have hrun : ∀ g, ThreadPc.startup ⟨true, true, some []⟩ = .startup g → g.runs = true := by
    rintro g ⟨⟩
    rfl
  have h0 : Run (ProcStepWhen Procs.Runnable) Procs.boot [] Procs.boot := .nil _
  have h1 := h0.proc (.create 0) trivial ⟨rfl, rfl⟩ rfl
  have h2 := h1.proc (.start 0 1 ⟨true, true, some []⟩) trivial ⟨.inr ⟨1, rfl⟩, rfl⟩ rfl
  have h3 := h2.proc (.runprogram 1) hrun ⟨_, rfl⟩ rfl
  have h4 := h3.proc (.exit 1 1 5#32) trivial ⟨rfl, rfl, by decide⟩ rfl
  have h5 := h4.proc (.synch (.check 1)) trivial ⟨rfl, .inl ⟨_, rfl⟩⟩ rfl
  have h6 := h5.proc (.synch (.acquire 1 1)) trivial ⟨rfl, .inl rfl, rfl⟩ rfl
  have h7 := h6.proc (.resume 1) trivial ⟨rfl, rfl⟩ rfl
  have h8 := h7.proc (.synch (.check 1)) trivial ⟨rfl, .inl ⟨_, rfl⟩⟩ rfl
  have h9 := h8.proc (.synch (.signal 1 1)) trivial ⟨rfl, ⟨_, rfl⟩, rfl⟩ rfl
  have h10 := h9.proc (.resume 1) trivial ⟨rfl, rfl⟩ rfl
  have h11 := h10.proc (.synch (.check 1)) trivial ⟨rfl, .inl ⟨_, rfl⟩⟩ rfl
  have h12 := h11.proc (.synch (.release 1 1)) trivial ⟨rfl, .inl rfl⟩ rfl
  have h13 := h12.proc (.resume 1) trivial ⟨rfl, rfl⟩ rfl
  obtain ⟨r, hr, -, hend⟩ := termination_published (i := 2) (p := 1) h13 rfl (by decide) (by
    intro t
    match t with
    | 0 => exact nofun
    | 1 => exact nofun
    | t + 2 => exact nofun)
  have hn : r.numthreads = 0 := by
    cases hr
    rfl
  refine ⟨_, _, h13, rfl, rfl, r, hr, (hend hn ?_).1⟩
  intro t
  match t with
  | 0 => exact nofun
  | 1 => exact nofun
  | t + 2 => exact nofun

/-- The menu starts a program whose file does not exist: the thread leaves the process, which
never ends. -/
theorem failed_program_unpublished : ∃ tr s r, Run (ProcStepWhen fun _ _ => True) Procs.boot tr s ∧
    s.table 2 = some 1 ∧ s.heap 1 = some r ∧ r.numthreads = 0 ∧ s.pc 1 = .zombie ∧
    (∀ t, (s.pc t).creates ≠ some 1) ∧ (∀ t, s.pc t ≠ .exitLock 1) ∧ r.ended = false := by
  have h0 : Run (ProcStepWhen fun _ _ => True) Procs.boot [] Procs.boot := .nil _
  have h1 := h0.proc (.create 0) trivial ⟨rfl, rfl⟩ rfl
  have h2 := h1.proc (.start 0 1 ⟨false, true, none⟩) trivial ⟨.inr ⟨1, rfl⟩, rfl⟩ rfl
  have h3 := h2.proc (.runprogram 1) trivial ⟨_, rfl⟩ rfl
  refine ⟨_, _, _, h3, rfl, rfl, rfl, rfl, ?_, ?_, rfl⟩
  · intro t
    match t with
    | 0 => exact nofun
    | 1 => exact nofun
    | t + 2 => exact nofun
  · intro t
    match t with
    | 0 => exact nofun
    | 1 => exact nofun
    | t + 2 => exact nofun

end Clape
