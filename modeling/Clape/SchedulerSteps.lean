import Clape.SchedulerInvariant

namespace Clape
set_option autoImplicit true

open ThreadLists

namespace Sched

/-- The thread that a CPU switches to. -/
def switched {n : Nat} {τ ω : Type} (s : Sched n τ ω) (c : Fin n) : SchedEvent n τ ω → Option τ
  | .switch d _ => if d = c ∧ s.isidle c = false then (s.lists (.runqueue c)).head? else none
  | .next d => if d = c then (s.lists (.runqueue c)).head? else none
  | _ => none

/-- The queue of a CPU is served from one end and filled at the other. -/
structure Serves {n : Nat} {τ ω : Type} (s : Sched n τ ω) (c : Fin n) (ran : Option τ)
    (u : Sched n τ ω) : Prop where
  queue : ∃ A, s.lists (.runqueue c) ++ A = ran.toList ++ u.lists (.runqueue c)
  runs : ∀ t, ran = some t → u.curthread c = t ∧ u.isidle c = false

theorem Serves.trans {n : Nat} {τ ω : Type} {c : Fin n} {s t u : Sched n τ ω}
    (h : s.Serves c none t) (h' : t.Serves c none u) : s.Serves c none u := by
  obtain ⟨A, hA⟩ := h.queue
  obtain ⟨B, hB⟩ := h'.queue
  refine ⟨⟨A ++ B, ?_⟩, by simp⟩
  rw [← List.append_assoc, hA, List.append_assoc, hB]
  rfl

variable {n : Nat} {τ ω : Type} [DecidableEq τ] [DecidableEq ω] {c : Fin n} {s u : Sched n τ ω}

theorem Placed.leave_cpu (h : s.Placed) (hrun : s.isidle c = false) (l : Listed n ω)
    (st : ThreadState) (hfit : ∀ u : Sched n τ ω, u.tcpu (s.curthread c) = c →
      u.tstate (s.curthread c) = some st → u.Fits (.inl l) (s.curthread c))
    (hu : u = (s.setState (s.curthread c) (some st)).addtail l (s.curthread c)) :
    u.Housed (Function.update u.on (.inr c) []) := by
  subst hu
  have hon : Function.update ((s.setState (s.curthread c) (some st)).addtail l (s.curthread c)).on (.inr c) [] =
      Function.update (Function.update s.on (.inr c) ([] ++ [])) (.inl l) (s.lists l ++ [s.curthread c]) := by
    rw [addtail, on_setList, Function.update_comm (by simp)]
    rfl
  rw [hon]
  apply h.move (p := .inr c) (A := []) (Y := [])
  · exact on_cpu_run hrun
  · rw [Function.update_of_ne (by simp), on_inl, List.append_nil]
  · intro x hx
    exact ⟨Function.update_of_ne hx .., rfl⟩
  · intro _ _ hpc
    exact hpc
  · exact hfit _ (h.current c).1 (Function.update_self ..)
  · intro d
    exact .inl ⟨rfl, fun _ => rfl⟩

theorem Placed.leave_next (h : s.Placed) (hrun : s.isidle c = false) (hheld : s.lists (.held c) = [])
    (l : Listed n ω) (st : ThreadState) (hl : ∀ d, l ≠ .held d) (hown : ∀ d ≠ c, l ≠ .runqueue d)
    (hfit : ∀ u : Sched n τ ω, u.tcpu (s.curthread c) = c →
      u.tstate (s.curthread c) = some st → u.Fits (.inl l) (s.curthread c))
    (ht : t = (s.setState (s.curthread c) (some st)).addtail l (s.curthread c)) :
    ∃ u, t.getNext c = .ok u ∧ u.Placed ∧ Spares c s u ∧
      t.lists (.runqueue c) = (t.lists (.runqueue c)).head?.toList ++ u.lists (.runqueue c) ∧
      ∀ x, (t.lists (.runqueue c)).head? = some x → u.curthread c = x ∧ u.isidle c = false := by
  have hhoused := h.leave_cpu hrun l st hfit ht
  have hlist : ∀ k, k ≠ l → t.lists k = s.lists k := by
    subst ht
    intro k hk
    exact Function.update_of_ne hk ..
  have hsame : Spares c s t := by
    apply Spares.of_lists (by rw [ht]; rfl) (by rw [ht]; rfl) (by rw [ht]; rfl) (by rw [ht]; rfl)
    intro d hd
    exact ⟨hlist _ (hl d).symm, hlist _ (hown d hd).symm⟩
  obtain ⟨u, hu, hhoused', hs, hstands, hqueue⟩ := getNext_spec hhoused ((hlist _ (hl c).symm).trans hheld)
  exact ⟨u, hu, h.of_spares hhoused' (hsame.trans hs) hstands, hsame.trans hs, hqueue⟩

omit [DecidableEq τ] [DecidableEq ω] in
theorem Placed.held_nil (h : s.Placed) (hpc : s.pc c = .thread ∨ s.pc c = .retry ∨ s.pc c = .idle) :
    s.lists (.held c) = [] := by
  have hs := h.stands c
  rcases hpc with hpc | hpc | hpc
  · rw [hpc] at hs
    exact hs.2
  · rw [hpc] at hs
    exact hs.2
  · rw [hpc] at hs
    exact hs.2.1

theorem threadSwitch_spec (h : s.Placed) {st : NewState ω} (hen : s.Enabled (.switch c st)) :
    ∃ u, s.threadSwitch c st = .ok u ∧ u.Placed ∧ Spares c s u ∧
      s.Serves c (s.switched c (.switch c st)) u := by
  have hcpu := (h.current c).1
  have hpc : s.pc c = .thread ∨ s.pc c = .retry := by
    cases st with
    | ready => exact hen
    | sleep w => exact .inl hen
    | zombie => exact .inl hen
  unfold threadSwitch
  simp only [hcpu, ne_eq, not_true_eq_false, if_false]
  by_cases hidle : s.isidle c = true
  · rw [if_pos hidle]
    exact ⟨s, rfl, h, .refl c s, ⟨[], by simp [switched, hidle]⟩, by simp [switched, hidle]⟩
  have hrun : s.isidle c = false := by simpa using hidle
  have hheld : s.lists (.held c) = [] := h.held_nil (hpc.imp_right .inl)
  have hran : ∀ st', s.switched c (.switch c st') = (s.lists (.runqueue c)).head? :=
    fun _ => if_pos ⟨rfl, hrun⟩
  rw [if_neg hidle, hran]
  cases st with
  | ready =>
    simp only
    by_cases hempty : s.lists (.runqueue c) = []
    · rw [if_pos hempty]
      exact ⟨s, rfl, h, .refl c s, ⟨[], by rw [hempty]; rfl⟩, by simp [hempty]⟩
    · have hmake : s.threadMakeRunnable c (s.curthread c) =
          (s.setState (s.curthread c) (some .ready)).addtail (.runqueue c) (s.curthread c) := by
        unfold threadMakeRunnable
        simp only [hcpu, hrun, Bool.false_eq_true, false_and, if_false]
      rw [if_neg hempty, hmake]
      obtain ⟨u, hu, hplaced, hs, hqueue, hnext⟩ := h.leave_next hrun hheld (.runqueue c) .ready
        (by simp) (by simp [eq_comm]) (fun u hc hst => ⟨hst, hc⟩) rfl
      have hnew : ((s.setState (s.curthread c) (some .ready)).addtail (.runqueue c) (s.curthread c)).lists
          (.runqueue c) = s.lists (.runqueue c) ++ [s.curthread c] := Function.update_self ..
      rw [hnew] at hqueue hnext
      rw [List.head?_append_of_ne_nil _ hempty] at hqueue hnext
      exact ⟨u, hu, hplaced, hs, ⟨[s.curthread c], hqueue⟩, hnext⟩
  | sleep w =>
    obtain ⟨u, hu, hplaced, hs, hqueue, hnext⟩ := h.leave_next hrun hheld (.wchan w) .sleep
      (by simp) (by simp) (fun u _ hst => hst) rfl
    exact ⟨u, hu, hplaced, hs, ⟨[], (List.append_nil _).trans hqueue⟩, hnext⟩
  | zombie =>
    obtain ⟨u, hu, hplaced, hs, hqueue, hnext⟩ := h.leave_next hrun hheld (.zombies c) .zombie
      (by simp) (by simp) (fun u hc hst => ⟨hst, hc⟩) rfl
    exact ⟨u, hu, hplaced, hs, ⟨[], (List.append_nil _).trans hqueue⟩, hnext⟩

omit [DecidableEq τ] [DecidableEq ω] in
theorem Serves.of_same (h : u.lists (.runqueue c) = s.lists (.runqueue c)) : s.Serves c none u := by
  refine ⟨⟨[], ?_⟩, by simp⟩
  rw [h, List.append_nil]
  rfl

omit [DecidableEq τ] [DecidableEq ω] in
theorem Placed.unmoved (h : s.Placed) (hl : u.lists = s.lists) (hst : u.tstate = s.tstate)
    (hcpu : u.tcpu = s.tcpu) (hcur : u.curthread = s.curthread) (hidle : u.isidle = s.isidle)
    (hpc : ∀ d ≠ c, u.pc d = s.pc d) (hipi : ∀ d ≠ c, u.ipiPending d = s.ipiPending d)
    (hw : s.lists (.held c) ≠ [] → s.pc c = .waking → u.pc c = .waking) (hc : u.Stands c (u.pc c)) :
    u.Placed ∧ Spares c s u ∧ s.Serves c none u := by
  have hs : Spares c s u := by
    apply Spares.of_same hpc
    · intro d _
      rw [hidle]
    · intro d _
      rw [hcur]
    · intro d _
      rw [hl]
      exact ⟨rfl, rfl⟩
    · exact hipi
  refine ⟨h.of_spares ?_ hs hc, hs, .of_same (by rw [hl])⟩
  have hon : u.on = s.on := by
    unfold on
    rw [hl, hidle, hcur]
  rw [hon]
  apply h.same hst hcpu hcur
  · intro d hne hd
    by_cases hdc : d = c
    · subst hdc
      exact hw hne hd
    · rw [hpc d hdc, hd]
  · intro d
    rfl

omit [DecidableEq τ] [DecidableEq ω] in
theorem Placed.goto (h : s.Placed) (p : CpuPc) (hw : s.lists (.held c) ≠ [] → s.pc c = .waking → p = .waking)
    (hc : s.Stands c p) :
    (s.goto c p).Placed ∧ Spares c s (s.goto c p) ∧ s.Serves c none (s.goto c p) := by
  have hp : (s.goto c p).pc c = p := Function.update_self ..
  apply h.unmoved (u := s.goto c p) rfl rfl rfl rfl rfl
  · intro d hd
    exact Function.update_of_ne hd ..
  · intro d _
    rfl
  · intro hne hwait
    exact hp.trans (hw hne hwait)
  · rw [hp]
    exact hc

omit [DecidableEq τ] [DecidableEq ω] in
theorem Placed.back (h : s.Placed) (hheld : s.lists (.held c) = []) :
    (s.back c).Placed ∧ Spares c s (s.back c) ∧ s.Serves c none (s.back c) := by
  unfold Sched.back
  apply h.goto
  · intro hne
    exact (hne hheld).elim
  · exact stands_back hheld

omit [DecidableEq τ] [DecidableEq ω] in
theorem Placed.interprocessor (h : s.Placed)
    (hpc : s.pc c = .thread ∨ s.pc c = .retry ∨ s.pc c = .idle)
    (hu : u = { s with ipiPending := Function.update s.ipiPending c false }.back c) :
    u.Placed ∧ Spares c s u ∧ s.Serves c none u := by
  have hheld := h.held_nil hpc
  have hp : u.pc c = if s.isidle c then .retry else .thread := by
    subst hu
    exact Function.update_self ..
  have hst : u.Stands c (u.pc c) := by
    rw [hp]
    subst hu
    exact stands_back (s := { s with ipiPending := Function.update s.ipiPending c false }.back c) hheld
  apply h.unmoved (u := u)
  any_goals
    subst hu
    rfl
  · subst hu
    intro d hd
    exact Function.update_of_ne hd ..
  · subst hu
    intro d hd
    exact Function.update_of_ne hd ..
  · intro hne
    exact (hne hheld).elim
  · exact hst

theorem Placed.threadFork (h : s.Placed) (hpc : s.pc c = .thread) (hnew : s.tstate t = none) :
    (s.threadFork c t).Placed ∧ Spares c s (s.threadFork c t) ∧ s.Serves c none (s.threadFork c t) := by
  have hheld := h.held_nil (.inl hpc)
  have hne : ∀ d, s.curthread d ≠ t := by
    rintro d rfl
    exact (h.current d).2 hnew
  have hlist : ∀ l, l ≠ .held c → (s.threadFork c t).lists l = s.lists l :=
    fun l hl => Function.update_of_ne hl ..
  have hs : Spares c s (s.threadFork c t) := by
    apply Spares.of_same
    · intro d hd
      exact Function.update_of_ne hd ..
    · intro d _
      rfl
    · intro d _
      rfl
    · intro d hd
      exact ⟨hlist _ (by simpa using hd), hlist _ (by simp)⟩
    · intro d _
      rfl
  have hp : (s.threadFork c t).pc c = .waking := Function.update_self ..
  refine ⟨h.of_spares ⟨?_, ?_⟩ hs (by rw [hp]; trivial), hs, .of_same (hlist _ (by simp))⟩
  · have hon : (s.threadFork c t).on = Function.update s.on (.inl (.held c)) ([] ++ [t]) :=
      Sum.update_elim_inl.symm
    rw [hon]
    apply h.toResidence.enter (Y := [])
    · exact hheld
    · exact fun hno => hno hnew
    · intro r x hr hx hf
      apply hf.congr (Function.update_of_ne hx ..) (Function.update_of_ne hx ..)
      rintro d rfl hw
      by_cases hd : d = c
      · subst hd
        rw [on_inl, hheld] at hr
        cases hr
      · exact (Function.update_of_ne hd ..).trans hw
    · refine .inl ⟨Function.update_self .., ?_⟩
      exact (Function.update_self ..).trans (h.current c).1
    · intro x
      change Function.update s.tstate t (some .ready) x ≠ none ↔ _
      by_cases hx : x = t
      · subst hx
        simp
      · simp [hx]
  · intro d
    change Function.update s.tcpu t _ (s.curthread d) = d ∧
      Function.update s.tstate t _ (s.curthread d) ≠ none
    rw [Function.update_of_ne (hne d), Function.update_of_ne (hne d)]
    exact h.current d

theorem Housed.requeue {l k : Listed n ω} {A B X Y : List τ} (h : s.Housed s.on)
    (he : s.lists l = A ++ t :: B) (he' : Function.update s.lists l (A ++ B) k = X ++ Y)
    (hu : u.lists = Function.update (Function.update s.lists l (A ++ B)) k (X ++ t :: Y))
    (hidle : u.isidle = s.isidle) (hcur : u.curthread = s.curthread) (hpc : u.pc = s.pc)
    (hsame : ∀ x ≠ t, u.tstate x = s.tstate x ∧ u.tcpu x = s.tcpu x)
    (hcpu : u.tcpu t = s.tcpu t ∨ ∀ d, t ≠ s.curthread d) (ht : u.Fits (.inl k) t) : u.Housed u.on := by
  have hl : ∀ ts, Function.update s.on (.inl l) ts = Sum.elim (Function.update s.lists l ts)
      fun d => if s.isidle d then [] else [s.curthread d] := fun _ => Sum.update_elim_inl
  have hon : u.on = Function.update (Function.update s.on (.inl l) (A ++ B)) (.inl k) (X ++ t :: Y) := by
    rw [hl, Sum.update_elim_inl, ← hu]
    unfold on
    rw [hidle, hcur]
  rw [hon]
  apply h.move (p := .inl l)
  · exact he
  · rw [hl]
    exact he'
  · exact hsame
  · intro d _ hd
    rw [hpc]
    exact hd
  · exact ht
  · intro d
    refine .inl ⟨congrFun hcur d, ?_⟩
    intro hd
    rcases hcpu with hcpu | hcpu
    · exact hcpu
    · exact (hcpu d hd).elim

omit [DecidableEq τ] in
theorem lists_to_tail {l k x : Listed n ω} (hl : x ≠ l) (hk : x ≠ k) :
    ((s.setList l r).addtail k t).lists x = s.lists x :=
  (Function.update_of_ne hk ..).trans (Function.update_of_ne hl ..)

theorem Housed.to_tail {l k : Listed n ω} (h : s.Housed s.on) (he : s.lists l = t :: r)
    (ht : ((s.setList l r).addtail k t).Fits (.inl k) t) :
    ((s.setList l r).addtail k t).Housed ((s.setList l r).addtail k t).on := by
  apply h.requeue (u := (s.setList l r).addtail k t) (A := []) (X := Function.update s.lists l r k)
    (Y := []) (k := k) he
  · exact (List.append_nil _).symm
  · rfl
  · rfl
  · rfl
  · rfl
  · exact fun _ _ => ⟨rfl, rfl⟩
  · exact .inl rfl
  · exact ht

theorem remhead_spec (h : s.Placed) (hpc : s.pc c = .waking) (w : ω) : (s.remhead c w).Placed ∧
    Spares c s (s.remhead c w) ∧ s.Serves c none (s.remhead c w) ∧ (s.remhead c w).pc c = .waking := by
  unfold remhead
  split
  · exact ⟨h, .refl c s, .of_same rfl, hpc⟩
  · rename_i t r hw
    have hsleep : s.tstate t = some .sleep := by
      have ht : t ∈ s.on (.inl (.wchan w)) := by
        rw [on_inl, hw]
        exact List.mem_cons_self
      exact h.fits ht
    let u := (s.setList (.wchan w) r).addtail (.held c) t
    have hs : Spares c s u := by
      apply Spares.of_lists (s := s) (u := u) rfl rfl rfl rfl
      intro d hd
      exact ⟨lists_to_tail (by simp) (by simpa using hd), lists_to_tail (by simp) (by simp)⟩
    refine ⟨h.of_spares (u := u) ?_ hs ?_, hs, .of_same (lists_to_tail (by simp) (by simp)), hpc⟩
    · exact h.toHoused.to_tail hw (.inr ⟨hsleep, hpc⟩)
    · rw [show u.pc c = .waking from hpc]
      trivial

theorem wakeall_spec (h : s.Placed) (hpc : s.pc c = .waking) (w : ω) (k : Nat) :
    ((fun s => s.remhead c w)^[k] s).Placed ∧ Spares c s ((fun s => s.remhead c w)^[k] s) ∧
      s.Serves c none ((fun s => s.remhead c w)^[k] s) := by
  suffices hk : ((fun s => s.remhead c w)^[k] s).Placed ∧ Spares c s ((fun s => s.remhead c w)^[k] s) ∧
      s.Serves c none ((fun s => s.remhead c w)^[k] s) ∧ ((fun s => s.remhead c w)^[k] s).pc c = .waking from
    ⟨hk.1, hk.2.1, hk.2.2.1⟩
  induction k with
  | zero => exact ⟨h, .refl c s, .of_same rfl, hpc⟩
  | succ k ih =>
    obtain ⟨hp, hs, hq, hw⟩ := ih
    rw [Function.iterate_succ_apply']
    obtain ⟨hp', hs', hq', hw'⟩ := remhead_spec hp hw w
    exact ⟨hp', hs.trans hs', hq.trans hq', hw'⟩

/-- A thread that was taken off a wait channel is ready. -/
theorem wake_spec (h : s.Placed) (hpc : s.pc c = .waking) :
    (s.wake c).Placed ∧ Spares c s (s.wake c) ∧ s.Serves c none (s.wake c) := by
  unfold Sched.wake
  split
  · rename_i hheld
    exact h.back hheld
  · rename_i t r hheld
    obtain ⟨ipi, he, -⟩ := threadMakeRunnable_spec (s := s.setList (.held c) r) c t
    have hspare := threadMakeRunnable_spares (s := s.setList (.held c) r) c t
    rw [he] at hspare ⊢
    have hlist : ∀ l, l ≠ .held c → (s.setList (.held c) r).lists l = s.lists l :=
      fun l hl => Function.update_of_ne hl ..
    have hown := hlist (.runqueue (s.tcpu t)) (by simp)
    let u := { s.setList (.held c) r with
      lists := Function.update (s.setList (.held c) r).lists (.runqueue (s.tcpu t))
        ((s.setList (.held c) r).lists (.runqueue (s.tcpu t)) ++ [t])
      tstate := Function.update s.tstate t (some .ready)
      ipiPending := ipi }
    change Sched.Placed u ∧ Spares c s u ∧ s.Serves c none u
    have hs : Spares c s (s.setList (.held c) r) := by
      apply Spares.of_lists (s := s) (u := s.setList (.held c) r) rfl rfl rfl rfl
      intro d hd
      exact ⟨hlist _ (by simpa using hd), hlist _ (by simp)⟩
    refine ⟨h.of_spares (u := u) ?_ (hs.trans hspare) ?_, hs.trans hspare, ?_⟩
    · apply h.toHoused.requeue (u := u) (A := []) (Y := []) hheld (k := .runqueue (s.tcpu t))
        (X := s.lists (.runqueue (s.tcpu t)))
      · rw [List.append_nil]
        exact hown
      · change Function.update (s.setList (.held c) r).lists (.runqueue (s.tcpu t))
          ((s.setList (.held c) r).lists (.runqueue (s.tcpu t)) ++ [t]) = _
        rw [hown]
        rfl
      · rfl
      · rfl
      · rfl
      · intro x hx
        exact ⟨Function.update_of_ne hx .., rfl⟩
      · exact .inl rfl
      · exact ⟨Function.update_self .., rfl⟩
    · rw [show u.pc c = .waking from hpc]
      trivial
    · by_cases hc : s.tcpu t = c
      · have hnew : u.lists (.runqueue (s.tcpu t)) = s.lists (.runqueue (s.tcpu t)) ++ [t] :=
          (Function.update_self ..).trans (congrArg (· ++ [t]) hown)
        rw [hc] at hnew
        exact ⟨⟨[t], hnew.symm⟩, by simp⟩
      · have hnew : u.lists (.runqueue c) = (s.setList (.held c) r).lists (.runqueue c) :=
          Function.update_of_ne (by simpa using Ne.symm hc) ..
        exact .of_same (hnew.trans (hlist _ (by simp)))

end Sched

end Clape
