import Clape.SchedulerMigration

namespace Clape
set_option autoImplicit true

open ThreadLists

/-- The CPU on which an event happens. -/
def SchedEvent.cpu {n : Nat} {τ ω : Type} : SchedEvent n τ ω → Fin n
  | .switch c _ | .fork c _ | .wakeone c _ | .wakeall c _ | .wake c | .interrupt c
  | .interprocessor c | .next c | .migrate c | .count c | .send c => c

namespace Sched
variable {n : Nat} {τ ω : Type} [DecidableEq τ] [DecidableEq ω] {c : Fin n} {s u : Sched n τ ω}

/-- No assertion fails in a step, the threads stay in their places, and no queue but that of a CPU
that migrates threads is served in another order. -/
theorem Placed.exec (h : s.Placed) {e : SchedEvent n τ ω} (hen : s.Enabled e) :
    ∃ u, s.exec e = .ok u ∧ u.Placed ∧ Spares e.cpu s u ∧
      (e ≠ .count e.cpu → s.Serves e.cpu (s.switched e.cpu e) u) := by
  cases e with
  | switch c st =>
    obtain ⟨u, hu, hp, hs, hq⟩ := threadSwitch_spec h hen
    exact ⟨u, hu, hp, hs, fun _ => hq⟩
  | fork c t =>
    obtain ⟨hp, hs, hq⟩ := h.threadFork hen.1 hen.2
    exact ⟨_, rfl, hp, hs, fun _ => hq⟩
  | wakeone c w =>
    have hheld : s.lists (.held c) = [] := h.held_nil (hen.imp_right .inl)
    obtain ⟨hp, hs, hq⟩ := h.goto (c := c) .waking (fun _ _ => rfl) trivial
    obtain ⟨hp', hs', hq', -⟩ := remhead_spec hp (Function.update_self ..) w
    exact ⟨_, rfl, hp', hs.trans hs', fun _ => hq.trans hq'⟩
  | wakeall c w =>
    obtain ⟨hp, hs, hq⟩ := h.goto (c := c) .waking (fun _ _ => rfl) trivial
    obtain ⟨hp', hs', hq'⟩ := wakeall_spec hp (Function.update_self ..) w (s.lists (.wchan w)).length
    exact ⟨_, rfl, hp', hs.trans hs', fun _ => hq.trans hq'⟩
  | wake c =>
    obtain ⟨hp, hs, hq⟩ := wake_spec h hen
    exact ⟨_, rfl, hp, hs, fun _ => hq⟩
  | interrupt c =>
    have hst := h.stands c
    rw [show s.pc c = .idle from hen] at hst
    obtain ⟨hp, hs, hq⟩ := h.goto (c := c) .retry (fun hne => (hne hst.2.1).elim) ⟨hst.1, hst.2.1⟩
    exact ⟨_, rfl, hp, hs, fun _ => hq⟩
  | interprocessor c =>
    obtain ⟨hp, hs, hq⟩ := h.interprocessor hen.2 rfl
    exact ⟨_, rfl, hp, hs, fun _ => hq⟩
  | next c =>
    have hst := h.stands c
    rw [show s.pc c = .retry from hen] at hst
    have hon : Function.update s.on (.inr c) [] = s.on := by
      rw [← on_cpu_idle hst.1]
      exact Function.update_eq_self ..
    obtain ⟨u, hu, hhoused, hs, hstands, hq, hrun⟩ := getNext_spec (hon.symm ▸ h.toHoused) hst.2
    refine ⟨u, hu, h.of_spares hhoused hs hstands, hs, fun _ => ?_⟩
    have hran : s.switched c (.next c) = (s.lists (.runqueue c)).head? := if_pos rfl
    refine ⟨⟨[], ?_⟩, ?_⟩
    · rw [List.append_nil]
      exact hq.trans (congrArg (·.toList ++ _) hran.symm)
    · intro t ht
      exact hrun t (hran.symm.trans ht)
  | migrate c =>
    have hheld : s.lists (.held c) = [] := h.held_nil (hen.imp_right .inl)
    obtain ⟨hp, hs, hq⟩ := h.goto (c := c) (.counting 0 0 0) (fun hne => (hne hheld).elim)
      ⟨hheld, Nat.zero_le _⟩
    exact ⟨_, rfl, hp, hs, fun _ => hq⟩
  | count c =>
    obtain ⟨i, m, k, hpc⟩ := hen
    obtain ⟨u, hu, hp, hs⟩ := countQueue_spec h hpc
    refine ⟨u, ?_, hp, hs, fun hne => (hne rfl).elim⟩
    simp only [Sched.exec, hpc]
    exact hu
  | send c =>
    obtain ⟨i, o, k, hpc⟩ := hen
    obtain ⟨u, hu, hp, hs, hq⟩ := sendVictims_spec h hpc
    refine ⟨u, ?_, hp, hs, fun _ => hq⟩
    simp only [Sched.exec, hpc]
    exact hu

omit [DecidableEq ω] in
theorem boot_placed {first : Fin n → τ} {cpu : τ → Fin n} (hcpu : ∀ c, cpu (first c) = c) :
    (boot first cpu : Sched n τ ω).Placed := by
  have hlist : ∀ l, (boot first cpu : Sched n τ ω).on (.inl l) = [] := fun _ => rfl
  have hown : ∀ c, (boot first cpu : Sched n τ ω).on (.inr c) = [first c] := fun _ => rfl
  have hstate : ∀ c, (boot first cpu : Sched n τ ω).tstate (first c) = some .ready :=
    fun c => if_pos ⟨c, rfl⟩
  have hmem : ∀ p t, t ∈ (boot first cpu : Sched n τ ω).on p → ∃ c, p = .inr c ∧ t = first c := by
    intro p t ht
    cases p with
    | inl l =>
      rw [hlist] at ht
      cases ht
    | inr c =>
      rw [hown] at ht
      exact ⟨c, rfl, List.mem_singleton.1 ht⟩
  refine ⟨⟨⟨⟨?_, ?_⟩, ?_, ?_⟩, ?_⟩, ?_⟩
  · intro p
    cases p with
    | inl l => exact List.nodup_nil
    | inr c => exact List.nodup_singleton _
  · intro p q t hp hq
    obtain ⟨c, rfl, rfl⟩ := hmem p t hp
    obtain ⟨d, rfl, hd⟩ := hmem q _ hq
    have hcd := congrArg cpu hd
    rw [hcpu, hcpu] at hcd
    rw [hcd]
  · intro p t ht
    obtain ⟨c, rfl, rfl⟩ := hmem p t ht
    exact ⟨.inr (hstate c), hcpu c⟩
  · intro t
    constructor
    · intro ht
      change (if ∃ c, first c = t then some ThreadState.ready else none) ≠ none at ht
      split at ht
      · rename_i hex
        obtain ⟨c, rfl⟩ := hex
        exact ⟨.inr c, hown c ▸ List.mem_cons_self⟩
      · exact (ht rfl).elim
    · rintro ⟨p, hp⟩ hno
      obtain ⟨c, rfl, rfl⟩ := hmem p t hp
      cases (hstate c).symm.trans hno
  · intro c
    refine ⟨hcpu c, ?_⟩
    intro hno
    cases (hstate c).symm.trans hno
  · intro c
    exact ⟨rfl, rfl⟩

theorem Placed.run (h : s.Placed) (hr : Run Step s tr u) : u.Placed := by
  apply hr.invariant h
  intro t e u ht hs
  obtain ⟨v, hv, hp, -⟩ := ht.exec hs.1
  cases hs.2.symm.trans hv
  exact hp

instance (s : Sched n τ ω) (e : SchedEvent n τ ω) : Decidable (s.Enabled e) :=
  match e with
  | .switch _ .ready | .wakeone _ _ | .wakeall _ _ | .migrate _ => inferInstanceAs (Decidable (_ ∨ _))
  | .fork _ _ | .interprocessor _ => inferInstanceAs (Decidable (_ ∧ _))
  | .switch _ (.sleep _) | .switch _ .zombie | .wake _ | .interrupt _ | .next _ =>
    inferInstanceAs (Decidable (_ = _))
  | .count c =>
    match h : s.pc c with
    | .counting i m k => .isTrue ⟨i, m, k, h⟩
    | .thread | .idle | .retry | .waking | .sending _ _ _ => .isFalse (by simp [Enabled, h])
  | .send c =>
    match h : s.pc c with
    | .sending i o k => .isTrue ⟨i, o, k, h⟩
    | .thread | .idle | .retry | .waking | .counting _ _ _ => .isFalse (by simp [Enabled, h])

/-- The state after an event, if it can happen. -/
def after (s : Sched n τ ω) (e : SchedEvent n τ ω) : Option (Sched n τ ω) :=
  if s.Enabled e then (s.exec e).toOption else none

theorem step_of_after {e : SchedEvent n τ ω} (h : s.after e = some u) : Step s e u := by
  unfold after at h
  split at h
  · rename_i hen
    cases he : s.exec e with
    | error f =>
      rw [he] at h
      cases h
    | ok v =>
      rw [he] at h
      cases h
      exact ⟨hen, he⟩
  · cases h

/-- In every run every thread is on one list or runs on one CPU, as its state says; no two CPUs stand on
the stack of one thread, and a thread that a CPU stands on is in no queue and among no zombies of
another CPU; and none of the faults of `SchedFault` happens. -/
theorem threads_in_one_place {first : Fin n → τ} {cpu : τ → Fin n} (hcpu : ∀ c, cpu (first c) = c)
    (h : Run Step (boot first cpu : Sched n τ ω) tr s) :
    (∀ t, s.tstate t ≠ none ↔ ∃! p, t ∈ s.on p) ∧ (∀ p, (s.on p).Nodup) ∧
      (∀ p, ∀ t ∈ s.on p, s.Fits p t) ∧ Function.Injective s.curthread ∧
      (∀ c, s.tstate (s.curthread c) ≠ none) ∧
      (∀ c d, c ≠ d → s.curthread c ∉ s.lists (.runqueue d) ∧ s.curthread c ∉ s.lists (.zombies d)) ∧
      ∀ e f, s.Enabled e → s.exec e ≠ .error f := by
  have hp := (boot_placed hcpu).run h
  refine ⟨?_, hp.nodup, fun p t ht => hp.fits ht, ?_, fun c => (hp.current c).2, ?_, ?_⟩
  · intro t
    rw [hp.known]
    constructor
    · rintro ⟨p, ht⟩
      exact ⟨p, ht, fun q hq => hp.place_unique hq ht⟩
    · rintro ⟨p, ht, -⟩
      exact ⟨p, ht⟩
  · intro c d he
    rw [← (hp.current c).1, he]
    exact (hp.current d).1
  · intro c d hne
    constructor
    · intro ht
      have hf := hp.fits (p := .inl (.runqueue d)) ht
      exact hne ((hp.current c).1.symm.trans hf.2)
    · intro ht
      have hf := hp.fits (p := .inl (.zombies d)) ht
      exact hne ((hp.current c).1.symm.trans hf.2)
  · intro e f hen he
    obtain ⟨u, hu, -⟩ := hp.exec hen
    cases hu.symm.trans he

/-- Two CPUs with the threads 0 and 1; the thread 1 is on the CPU `d`. -/
def bootTwo (c d : Fin 2) : Sched 2 Nat Unit := boot (fun k => k.val) fun t => if t = 1 then d else c

theorem bootTwo_cpu (c : Fin 2) : (if c.val = 1 then 1 else 0 : Fin 2) = c := by
  revert c
  decide

/-- CPU `c` makes two threads, CPU `d` goes to sleep, and CPU `c` wakes the thread that CPU `d` stands
on. -/
def wakeOther (c d : Fin 2) : List (SchedEvent 2 Nat Unit) :=
  [.fork c 2, .wake c, .wake c, .fork c 3, .wake c, .wake c, .switch d (.sleep ()), .wakeone c (), .wake c]

/-- CPU `d` runs its thread and sleeps again, and CPU `c` sends it a thread. -/
def sendOther (c d : Fin 2) : List (SchedEvent 2 Nat Unit) :=
  [.wake c, .interprocessor d, .next d, .switch d (.sleep ()), .migrate c, .count c, .count c, .count c,
    .send c, .send c]

theorem threads_in_one_place_migration : ∃ s : Sched 2 Nat Unit,
    Run Step (bootTwo 0 1) (wakeOther 0 1 ++ sendOther 0 1) s ∧ s.lists (.runqueue 1) = [3] ∧
      s.curthread 1 = 1 ∧ s.lists (.wchan ()) = [1] ∧ Function.Injective s.curthread := by
  obtain ⟨s, hr, hs⟩ := Run.of_any (fun _ _ _ => step_of_after)
    (show ((wakeOther 0 1 ++ sendOther 0 1).foldlM after (bootTwo 0 1)).any (fun s => decide
      (s.lists (.runqueue 1) = [3] ∧ s.curthread 1 = 1 ∧ s.lists (.wchan ()) = [1])) = true by decide +kernel)
  obtain ⟨hq, hcur, hw⟩ := of_decide_eq_true hs
  obtain ⟨-, -, -, hinj, -⟩ := threads_in_one_place bootTwo_cpu hr
  exact ⟨s, hr, hq, hcur, hw, hinj⟩

/-- In every run a CPU that waits in `cpu_idle` while a thread is on its run queue has an interrupt
pending that gets it out, and then it runs the first thread of the queue. -/
theorem no_thread_left_waiting {first : Fin n → τ} {cpu : τ → Fin n} (hcpu : ∀ c, cpu (first c) = c)
    (h : Run Step (boot first cpu : Sched n τ ω) tr s) (hidle : s.pc c = .idle)
    (hq : s.lists (.runqueue c) = t :: q) :
    ∃ u v, Step s (.interprocessor c) u ∧ Step u (.next c) v ∧ v.on (.inr c) = [t] := by
  have hp := (boot_placed hcpu).run h
  have hst := hp.stands c
  rw [hidle] at hst
  have hen : s.Enabled (.interprocessor c) := by
    refine ⟨hst.2.2 ?_, .inr (.inr hidle)⟩
    rw [hq]
    simp
  let u := { s with ipiPending := Function.update s.ipiPending c false }.back c
  have hpc : u.pc c = .retry := by
    change Function.update s.pc c (if s.isidle c then .retry else .thread) c = _
    rw [hst.1, Function.update_self]
    rfl
  have hu : u.Placed := (hp.interprocessor hen.2 rfl).1
  obtain ⟨v, hv, -, -, hserves⟩ := hu.exec (e := .next c) hpc
  have hran : u.switched c (.next c) = some t :=
    (if_pos rfl).trans (congrArg List.head? (show u.lists (.runqueue c) = t :: q from hq))
  obtain ⟨hcur, hrun⟩ := (hserves (by simp)).runs t hran
  refine ⟨u, v, ⟨hen, rfl⟩, ⟨hpc, hv⟩, ?_⟩
  rw [← hcur]
  exact on_cpu_run hrun

/-- The thread of CPU 1 has been woken up while the CPU waits. -/
theorem no_thread_left_waiting_wake : ∃ s u v : Sched 2 Nat Unit, Run Step (bootTwo 0 1) (wakeOther 0 1) s ∧
    s.pc 1 = .idle ∧ Step s (.interprocessor 1) u ∧ Step u (.next 1) v ∧ v.on (.inr 1) = [1] := by
  obtain ⟨s, hr, hs⟩ := Run.of_any (fun _ _ _ => step_of_after)
    (show ((wakeOther 0 1).foldlM after (bootTwo 0 1)).any (fun s => decide
      (s.pc 1 = .idle ∧ s.lists (.runqueue 1) = [1])) = true by decide +kernel)
  obtain ⟨hpc, hq⟩ := of_decide_eq_true hs
  obtain ⟨u, v, hu, hv, hrun⟩ := no_thread_left_waiting bootTwo_cpu hr hpc hq
  exact ⟨s, u, v, hr, hpc, hu, hv, hrun⟩

theorem Placed.serves (h : s.Placed) {e : SchedEvent n τ ω} (hs : Step s e u) (hne : e ≠ .count c) :
    s.Serves c (s.switched c e) u := by
  obtain ⟨v, hv, -, hspare, hserves⟩ := h.exec hs.1
  cases hs.2.symm.trans hv
  by_cases hc : c = e.cpu
  · subst hc
    exact hserves hne
  · have hran : s.switched c e = none := by
      cases e with
      | switch d st => exact if_neg fun hd => hc hd.1.symm
      | next d => exact if_neg fun hd => hc hd.symm
      | _ => rfl
    rw [hran]
    obtain ⟨A, hA⟩ := hspare.queue c hc
    exact ⟨⟨A, hA⟩, by simp⟩

/-- A step, with the threads that a CPU has switched to. A pass of `thread_consider_migration` may
take no threads from that CPU. -/
def Logged (c : Fin n) (x : Sched n τ ω × List τ) (e : SchedEvent n τ ω) (y : Sched n τ ω × List τ) : Prop :=
  Step x.1 e y.1 ∧ (e = .count c → y.1.lists (.runqueue c) = x.1.lists (.runqueue c)) ∧
    y.2 = x.2 ++ (x.1.switched c e).toList

theorem Placed.serves_logged {x y : Sched n τ ω × List τ} {e : SchedEvent n τ ω} (h : x.1.Placed)
    (hs : Logged c x e y) : x.1.Serves c (x.1.switched c e) y.1 := by
  by_cases hne : e = .count c
  · subst hne
    exact .of_same (hs.2.1 rfl)
  · exact h.serves hs.1 hne

/-- A CPU runs the threads of its queue in their order: the thread at place `i` is the one that it
switches to next after `i` others, whatever is put on the queue meanwhile, unless a migration takes
threads away. -/
theorem queue_fifo {first : Fin n → τ} {cpu : τ → Fin n} (hcpu : ∀ c, cpu (first c) = c)
    (h : Run Step (boot first cpu : Sched n τ ω) tr s) (hr : Run (Logged c) (s, []) tr' (u, ran))
    (ht : (s.lists (.runqueue c))[i]? = some t) :
    (i < ran.length → ran[i]? = some t) ∧
      (ran.length ≤ i → (u.lists (.runqueue c))[i - ran.length]? = some t) ∧
      ∀ e v x, Step u e v → u.switched c e = some x → v.on (.inr c) = [x] := by
  have hp := (boot_placed hcpu).run h
  obtain ⟨hu, A, hA⟩ := hr.invariant (P := fun x => x.1.Placed ∧
      ∃ A, s.lists (.runqueue c) ++ A = x.2 ++ x.1.lists (.runqueue c)) ⟨hp, [], by simp⟩ (by
    intro x e y hx hs
    obtain ⟨hx, A, hA⟩ := hx
    obtain ⟨B, hB⟩ := (hx.serves_logged hs).queue
    obtain ⟨hs, -, hlog⟩ := hs
    refine ⟨?_, A ++ B, ?_⟩
    · obtain ⟨v, hv, hv', -⟩ := hx.exec hs.1
      cases hs.2.symm.trans hv
      exact hv'
    · rw [hlog, ← List.append_assoc, hA, List.append_assoc, hB, List.append_assoc])
  have hi : i < (s.lists (.runqueue c)).length := by
    by_contra hno
    rw [List.getElem?_eq_none (Nat.le_of_not_lt hno)] at ht
    cases ht
  have hall : (ran ++ u.lists (.runqueue c))[i]? = some t := by
    rw [← hA, List.getElem?_append_left hi]
    exact ht
  refine ⟨?_, ?_, ?_⟩
  · intro hlt
    rwa [List.getElem?_append_left hlt] at hall
  · intro hle
    rwa [List.getElem?_append_right hle] at hall
  · intro e v x hs hx
    have hne : e ≠ .count c := by
      rintro rfl
      cases hx
    obtain ⟨hcur, hrun⟩ := (hu.serves hs hne).runs x hx
    rw [← hcur]
    exact on_cpu_run hrun

/-- `after`, with the threads that the CPU has switched to. -/
def logAfter (c : Fin n) (x : Sched n τ ω × List τ) (e : SchedEvent n τ ω) :
    Option (Sched n τ ω × List τ) := do
  let u ← x.1.after e
  if e = .count c ∧ u.lists (.runqueue c) ≠ x.1.lists (.runqueue c) then none
  else return (u, x.2 ++ (x.1.switched c e).toList)

theorem logged_of_logAfter {x y : Sched n τ ω × List τ} {e : SchedEvent n τ ω}
    (h : logAfter c x e = some y) : Logged c x e y := by
  unfold logAfter at h
  obtain ⟨u, hu, h⟩ := Option.bind_eq_some_iff.1 h
  split at h
  · cases h
  · rename_i hkept
    cases h
    refine ⟨step_of_after hu, ?_, rfl⟩
    intro he
    by_contra hne
    exact hkept ⟨he, hne⟩

/-- CPU `c` makes two threads and CPU `d` one. -/
def threeQueued (c d : Fin 2) : List (SchedEvent 2 Nat Unit) :=
  (wakeOther c d).take 6 ++ [.fork d 4, .wake d, .wake d]

/-- CPU `c` yields twice, and its pass of `thread_consider_migration` between finds nothing to send. -/
def yieldTwice (c : Fin 2) : List (SchedEvent 2 Nat Unit) :=
  [.switch c .ready, .migrate c, .count c, .count c, .count c, .send c, .switch c .ready]

/-- The second thread of a queue runs after the first one. -/
theorem queue_fifo_yield : ∃ s x, Run Step (bootTwo 0 1) (threeQueued 0 1) s ∧
    Run (Logged 0) (s, []) (yieldTwice 0) x ∧ s.lists (.runqueue 0) = [2, 3] ∧ x.2.length = 2 ∧
      x.2[1]? = some 3 := by
  obtain ⟨s, hr, hs⟩ := Run.of_any (fun _ _ _ => step_of_after)
    (show ((threeQueued 0 1).foldlM after (bootTwo 0 1)).any (fun s =>
      decide (s.lists (.runqueue 0) = [2, 3]) &&
      ((yieldTwice 0).foldlM (logAfter 0) (s, [])).any fun x =>
        decide (x.2.length = 2)) = true by decide +kernel)
  obtain ⟨hq, hs⟩ := Bool.and_eq_true_iff.1 hs
  have hq := of_decide_eq_true hq
  obtain ⟨⟨u, ran⟩, hr', hlen⟩ := Run.of_any (fun _ _ _ => logged_of_logAfter) hs
  have hlen : ran.length = 2 := of_decide_eq_true hlen
  have hran := (queue_fifo bootTwo_cpu hr hr' (i := 1) (t := 3) (by rw [hq]; rfl)).1
  exact ⟨s, (u, ran), hr, hr', hq, hlen, hran (by rw [hlen]; decide)⟩

end Sched

end Clape
