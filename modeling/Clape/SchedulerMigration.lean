import Clape.SchedulerSteps

namespace Clape
set_option autoImplicit true

open ThreadLists

namespace Sched
variable {n : Nat} {τ ω : Type} [DecidableEq τ] [DecidableEq ω] {c d : Fin n} {s u : Sched n τ ω}

/-- What the loops of a migration leave as it is. -/
structure Loops (c : Fin n) (s u : Sched n τ ω) : Prop extends Spares c s u where
  own : u.pc c = s.pc c ∧ u.isidle c = s.isidle c

omit [DecidableEq τ] [DecidableEq ω] in
theorem Loops.refl (c : Fin n) (s : Sched n τ ω) : Loops c s s := ⟨.refl c s, rfl, rfl⟩

omit [DecidableEq τ] [DecidableEq ω] in
theorem Loops.trans (h : Loops c s t) (h' : Loops c t u) : Loops c s u :=
  ⟨h.toSpares.trans h'.toSpares, h'.own.1.trans h.own.1, h'.own.2.trans h.own.2⟩

theorem takeVictims_spec (k : Nat) (h : s.Housed s.on) (hk : k ≤ (s.lists (.runqueue c)).length) :
    ∃ u, takeVictims c k s = .ok u ∧ u.Housed u.on ∧ Loops c s u ∧
      (u.lists (.held c)).length = (s.lists (.held c)).length + k := by
  induction k generalizing s with
  | zero => exact ⟨s, rfl, h, .refl c s, rfl⟩
  | succ k ih =>
    have hne : s.lists (.runqueue c) ≠ [] := by
      intro he
      rw [he] at hk
      cases hk
    have hlast := List.getLast?_eq_some_getLast hne
    let t := (s.lists (.runqueue c)).getLast hne
    let A := (s.lists (.runqueue c)).dropLast
    have hq : s.lists (.runqueue c) = A ++ [t] := (List.dropLast_append_getLast hne).symm
    let v := (s.setList (.runqueue c) A).setList (.held c) (t :: s.lists (.held c))
    have hlist : ∀ l, l ≠ .runqueue c → l ≠ .held c → v.lists l = s.lists l := by
      intro l h1 h2
      exact (Function.update_of_ne h2 ..).trans (Function.update_of_ne h1 ..)
    have hheld : v.lists (.held c) = t :: s.lists (.held c) := Function.update_self ..
    have hqueue : v.lists (.runqueue c) = A := by
      change Function.update (Function.update s.lists (.runqueue c) A) (.held c) (t :: s.lists (.held c))
        (.runqueue c) = A
      rw [Function.update_of_ne (by simp), Function.update_self]
    have hready : s.tstate t = some .ready ∧ s.tcpu t = c := by
      have ht : t ∈ s.on (.inl (.runqueue c)) := by
        rw [on_inl, hq]
        exact List.mem_append_right A List.mem_cons_self
      exact h.fits ht
    have hv : v.Housed v.on := by
      apply h.requeue (u := v) (X := []) (Y := s.lists (.held c)) (k := .held c) hq
      · exact Function.update_of_ne (by simp) ..
      · rw [List.append_nil]
        rfl
      · rfl
      · rfl
      · rfl
      · exact fun _ _ => ⟨rfl, rfl⟩
      · exact .inl rfl
      · exact .inl hready
    have hs : Loops c s v := by
      refine ⟨Spares.of_lists (s := s) (u := v) rfl rfl rfl rfl ?_, rfl, rfl⟩
      intro d hd
      exact ⟨hlist _ (by simp) (by simpa using hd), hlist _ (by simpa using hd) (by simp)⟩
    obtain ⟨u, hu, hhoused, hloops, hlen⟩ := ih hv (by
      rw [hqueue, List.length_dropLast]
      exact Nat.le_sub_one_of_lt hk)
    refine ⟨u, ?_, hhoused, hs.trans hloops, ?_⟩
    · unfold takeVictims
      rw [hlast]
      exact hu
    · rw [hlen, hheld, List.length_cons]
      omega

/-- A victim is sent to another queue, whose CPU is told of it. -/
theorem sendOne_spec (d : Fin n) (t : τ) (r : List τ) : ∃ ipi,
    (if s.isidle d = true then ({ s.setList (.held c) r with
        tcpu := Function.update s.tcpu t d }.addtail (.runqueue d) t).ipiSend d
      else { s.setList (.held c) r with
        tcpu := Function.update s.tcpu t d }.addtail (.runqueue d) t) = { s with
      lists := Function.update (Function.update s.lists (.held c) r) (.runqueue d)
        (s.lists (.runqueue d) ++ [t])
      tcpu := Function.update s.tcpu t d
      ipiPending := ipi } ∧
      (∀ e, s.ipiPending e = true → ipi e = true) ∧ (s.isidle d = true → ipi d = true) := by
  have hold : Function.update s.lists (.held c) r (.runqueue d) = s.lists (.runqueue d) :=
    Function.update_of_ne (by simp) ..
  split
  · refine ⟨Function.update s.ipiPending d true, ?_, ?_, ?_⟩
    · unfold addtail setList ipiSend
      simp only [hold]
    · intro e he
      by_cases hed : e = d
      · rw [hed, Function.update_self]
      · rw [Function.update_of_ne hed, he]
    · intro _
      exact Function.update_self ..
  · rename_i hno
    refine ⟨s.ipiPending, ?_, fun _ h => h, fun h => (hno h).elim⟩
    unfold addtail setList
    simp only [hold]

omit [DecidableEq τ] [DecidableEq ω] in
theorem Housed.held_ready (h : s.Housed s.on) (hpc : s.pc c ≠ .waking) (hheld : s.lists (.held c) = t :: r) :
    s.tstate t = some .ready ∧ s.tcpu t = c := by
  have ht : t ∈ s.on (.inl (.held c)) := by
    rw [on_inl, hheld]
    exact List.mem_cons_self
  rcases h.fits ht with hf | hf
  · exact hf
  · exact (hpc hf.2).elim

/-- Threads are sent to another queue, and no thread that a CPU stands on is among them. -/
theorem sendTo_spec (hd : d ≠ c) (k : Nat) (h : s.Housed s.on) (hpc : s.pc c ≠ .waking)
    (hk : k ≤ (s.lists (.held c)).length) :
    ∃ u left, sendTo c d o k s = .ok (u, left) ∧ u.Housed u.on ∧ Loops c s u ∧
      left ≤ (u.lists (.held c)).length ∧ u.lists (.runqueue c) = s.lists (.runqueue c) := by
  induction k generalizing s with
  | zero => exact ⟨s, 0, rfl, h, .refl c s, Nat.zero_le _, rfl⟩
  | succ k ih =>
    unfold sendTo
    split
    · cases hheld : s.lists (.held c) with
      | nil =>
        rw [hheld] at hk
        cases hk
      | cons t r =>
        have hready := h.held_ready hpc hheld
        have hlen : k ≤ r.length := by
          rw [hheld] at hk
          exact Nat.le_of_succ_le_succ hk
        simp only
        split
        · -- the thread that the CPU stands on goes to the end of the victims
          let v := (s.setList (.held c) r).addtail (.held c) t
          have hlist : ∀ l, l ≠ .held c → v.lists l = s.lists l := fun l hl => lists_to_tail hl hl
          have hself : Function.update s.lists (.held c) r (.held c) = r := Function.update_self ..
          have hnew : v.lists (.held c) = r ++ [t] :=
            (Function.update_self ..).trans (congrArg (· ++ [t]) hself)
          have hv : v.Housed v.on := h.to_tail hheld (.inl hready)
          have hs : Loops c s v := by
            refine ⟨Spares.of_lists (s := s) (u := v) rfl rfl rfl rfl ?_, rfl, rfl⟩
            intro e he
            exact ⟨hlist _ (by simpa using he), hlist _ (by simp)⟩
          obtain ⟨u, left, hu, hhoused, hloops, hleft, hq⟩ := ih hv hpc (by
            rw [hnew, List.length_append]
            exact Nat.le_add_right_of_le hlen)
          exact ⟨u, left, hu, hhoused, hs.trans hloops, hleft, hq.trans (hlist _ (by simp))⟩
        · rename_i hcur
          obtain ⟨ipi, he, hkeep, htold⟩ := sendOne_spec (s := s) (c := c) d t r
          rw [he]
          let v := { s with
            lists := Function.update (Function.update s.lists (.held c) r) (.runqueue d)
              (s.lists (.runqueue d) ++ [t])
            tcpu := Function.update s.tcpu t d
            ipiPending := ipi }
          have hlist : ∀ l, l ≠ .held c → l ≠ .runqueue d → v.lists l = s.lists l := by
            intro l h1 h2
            exact (Function.update_of_ne h2 ..).trans (Function.update_of_ne h1 ..)
          have hqueue : v.lists (.runqueue d) = s.lists (.runqueue d) ++ [t] := Function.update_self ..
          have hnew : v.lists (.held c) = r := by
            change Function.update (Function.update s.lists (.held c) r) (.runqueue d)
              (s.lists (.runqueue d) ++ [t]) (.held c) = r
            rw [Function.update_of_ne (by simp), Function.update_self]
          have hv : v.Housed v.on := by
            apply h.requeue (u := v) (A := []) (Y := []) (k := .runqueue d) hheld
            · rw [Function.update_of_ne (by simp), List.append_nil]
            · rfl
            · rfl
            · rfl
            · rfl
            · intro x hx
              exact ⟨rfl, Function.update_of_ne hx ..⟩
            · exact .inr (h.not_current hready.2 hcur)
            · exact ⟨hready.1, Function.update_self ..⟩
          have hs : Loops c s v := by
            refine ⟨⟨fun _ _ => rfl, fun _ _ => rfl, fun _ _ => rfl, ?_, ?_, fun e _ => hkeep e, ?_⟩, rfl, rfl⟩
            · intro e he
              exact hlist _ (by simpa using he) (by simp)
            · intro e _
              by_cases hed : e = d
              · rw [hed, hqueue]
                exact List.prefix_append ..
              · rw [hlist _ (by simp) (by simpa using hed)]
            · intro e _ hne hidle
              by_cases hed : e = d
              · rw [hed] at hidle ⊢
                exact htold hidle
              · exact (hne (hlist _ (by simp) (by simpa using hed))).elim
          obtain ⟨u, left, hu, hhoused, hloops, hleft, hq⟩ := ih hv hpc (by
            rw [hnew]
            exact hlen)
          exact ⟨u, left, hu, hhoused, hs.trans hloops, hleft,
            hq.trans (hlist _ (by simp) (by simpa using hd.symm))⟩
    · exact ⟨s, k + 1, rfl, h, .refl c s, hk, rfl⟩

theorem putBack_spec (ts : List τ) (h : s.Housed s.on) (hheld : s.lists (.held c) = ts)
    (hpc : s.pc c ≠ .waking) : (putBack c ts s).Housed (putBack c ts s).on ∧
      Loops c s (putBack c ts s) ∧ (putBack c ts s).lists (.held c) = [] ∧
      s.Serves c none (putBack c ts s) := by
  induction ts generalizing s with
  | nil => exact ⟨h, .refl c s, hheld, .of_same rfl⟩
  | cons t r ih =>
    let v := (s.setList (.held c) r).addtail (.runqueue c) t
    have hold : Function.update s.lists (.held c) r (.runqueue c) = s.lists (.runqueue c) :=
      Function.update_of_ne (by simp) ..
    have hqueue : v.lists (.runqueue c) = s.lists (.runqueue c) ++ [t] :=
      (Function.update_self ..).trans (congrArg (· ++ [t]) hold)
    have hnew : v.lists (.held c) = r := by
      change Function.update (Function.update s.lists (.held c) r) (.runqueue c)
        (Function.update s.lists (.held c) r (.runqueue c) ++ [t]) (.held c) = r
      rw [Function.update_of_ne (by simp), Function.update_self]
    have hv : v.Housed v.on := h.to_tail hheld (h.held_ready hpc hheld)
    have hs : Loops c s v := by
      refine ⟨Spares.of_lists (s := s) (u := v) rfl rfl rfl rfl ?_, rfl, rfl⟩
      intro e he
      exact ⟨lists_to_tail (by simpa using he) (by simp), lists_to_tail (by simp) (by simpa using he)⟩
    obtain ⟨hhoused, hloops, hnil, hserve⟩ := ih hv hnew hpc
    have hfirst : s.Serves c none v := ⟨⟨[t], hqueue.symm⟩, by simp⟩
    exact ⟨hhoused, hs.trans hloops, hnil, hfirst.trans hserve⟩

omit [DecidableEq τ] [DecidableEq ω] in
/-- A CPU goes on after a loop of a migration. -/
theorem Placed.after_loop (h : s.Placed) (hu : u.Housed u.on) (hl : Loops c s u)
    (hpc : s.pc c ≠ .waking) (hst : u.Stands c p) :
    (u.goto c p).Placed ∧ Spares c s (u.goto c p) := by
  have hp : (u.goto c p).pc c = p := Function.update_self ..
  have hgoto : Spares c u (u.goto c p) := by
    apply Spares.of_same (u := u.goto c p)
    · intro d hd
      exact Function.update_of_ne hd ..
    · intro d _
      rfl
    · intro d _
      rfl
    · intro d _
      exact ⟨rfl, rfl⟩
    · intro d _
      rfl
  refine ⟨h.of_spares (u := u.goto c p) ?_ (hl.toSpares.trans hgoto) ?_, hl.toSpares.trans hgoto⟩
  · apply hu.same (u := u.goto c p) rfl rfl rfl
    · intro d _ hd
      by_cases hdc : d = c
      · rw [hdc, hl.own.1] at hd
        exact (hpc hd).elim
      · exact (Function.update_of_ne hdc ..).trans hd
    · intro d
      rfl
  · rw [hp]
    exact hst

theorem countQueue_spec (h : s.Placed) (hpc : s.pc c = .counting i m k) :
    ∃ u, s.countQueue c i m k = .ok u ∧ u.Placed ∧ Spares c s u := by
  have hst := h.stands c
  rw [hpc] at hst
  obtain ⟨hheld, hm⟩ := hst
  unfold countQueue
  split
  · rename_i hi
    have hgo := h.goto (c := c) (.counting (i + 1)
      (if ⟨i, hi⟩ = c then (s.lists (.runqueue ⟨i, hi⟩)).length else m)
      ((k + (s.lists (.runqueue ⟨i, hi⟩)).length) % 2 ^ 32)) (by
        intro hne
        exact (hne hheld).elim) (by
        refine ⟨hheld, ?_⟩
        split
        · rename_i hc
          rw [hc]
        · exact hm)
    exact ⟨_, rfl, hgo.1, hgo.2.1⟩
  · simp only
    split
    · obtain ⟨hp, hs, -⟩ := h.back hheld
      exact ⟨_, rfl, hp, hs⟩
    · obtain ⟨u, hu, hhoused, hloops, hlen⟩ := takeVictims_spec (c := c)
        (m - (k + n - 1) % 2 ^ 32 / n) h.toHoused (Nat.le_trans (Nat.sub_le ..) hm)
      rw [hu]
      obtain ⟨hp, hs⟩ := h.after_loop hhoused hloops (by rw [hpc]; simp)
        (p := .sending 0 ((k + n - 1) % 2 ^ 32 / n) (m - (k + n - 1) % 2 ^ 32 / n)) (by
          change _ ≤ _
          rw [hlen]
          exact Nat.le_add_left ..)
      exact ⟨_, rfl, hp, hs⟩

theorem sendVictims_spec (h : s.Placed) (hpc : s.pc c = .sending i o k) :
    ∃ u, s.sendVictims c i o k = .ok u ∧ u.Placed ∧ Spares c s u ∧ s.Serves c none u := by
  have hk := h.stands c
  rw [hpc] at hk
  have hw : s.pc c ≠ .waking := by
    rw [hpc]
    simp
  unfold sendVictims
  split
  · rename_i hi
    split
    · have hgo := h.goto (c := c) (.sending (i + 1) o k) (fun _ hwait => (hw hwait).elim) hk
      exact ⟨_, rfl, hgo⟩
    · rename_i hd
      obtain ⟨u, left, hu, hhoused, hloops, hleft, hq⟩ := sendTo_spec (o := o) hd k h.toHoused hw hk
      rw [hu]
      obtain ⟨hp, hs⟩ := h.after_loop hhoused hloops hw (p := .sending (i + 1) o left) hleft
      exact ⟨_, rfl, hp, hs, .of_same hq⟩
  · obtain ⟨hhoused, hloops, hnil, hserve⟩ := putBack_spec _ h.toHoused rfl hw
    simp only
    rw [if_pos hnil]
    obtain ⟨hp, hs⟩ := h.after_loop hhoused hloops hw
      (p := if (putBack c (s.lists (.held c)) s).isidle c then .retry else .thread) (stands_back hnil)
    exact ⟨_, rfl, hp, hs, hserve.queue, by simp⟩

end Sched

end Clape
