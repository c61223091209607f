import Clape.Residence
import Clape.Scheduler
import Mathlib.Data.Sum.Basic

namespace Clape
set_option autoImplicit true

open ThreadLists

namespace Sched
variable {n : Nat} {τ ω : Type}

/-- The threads on a list, and the thread that runs on a CPU. -/
def on (s : Sched n τ ω) : Listed n ω ⊕ Fin n → List τ :=
  Sum.elim s.lists fun c => if s.isidle c then [] else [s.curthread c]

/-- What is known of a thread from the list it is on. -/
def Fits (s : Sched n τ ω) : Listed n ω ⊕ Fin n → τ → Prop
  | .inl (.runqueue c), t => s.tstate t = some .ready ∧ s.tcpu t = c
  | .inl (.zombies c), t => s.tstate t = some .zombie ∧ s.tcpu t = c
  | .inl (.wchan _), t => s.tstate t = some .sleep
  | .inl (.held c), t =>
    s.tstate t = some .ready ∧ s.tcpu t = c ∨ s.tstate t = some .sleep ∧ s.pc c = .waking
  | .inr c, t => (s.tstate t = some .run ∨ s.tstate t = some .ready) ∧ s.tcpu t = c

/-- What a CPU has done so far. A CPU that waits in `cpu_idle` is told of threads on its queue. -/
def Stands (s : Sched n τ ω) (c : Fin n) : CpuPc → Prop
  | .thread => s.isidle c = false ∧ s.lists (.held c) = []
  | .idle => s.isidle c = true ∧ s.lists (.held c) = [] ∧
      (s.lists (.runqueue c) ≠ [] → s.ipiPending c = true)
  | .retry => s.isidle c = true ∧ s.lists (.held c) = []
  | .waking => True
  | .counting _ my_count _ => s.lists (.held c) = [] ∧ my_count ≤ (s.lists (.runqueue c)).length
  | .sending _ _ to_send => to_send ≤ (s.lists (.held c)).length

/-- Every thread is where its state says, on one list or one CPU. -/
structure Housed (s : Sched n τ ω) (L : Listed n ω ⊕ Fin n → List τ) : Prop extends
    Residence L s.Fits fun t => s.tstate t ≠ none where
  current : ∀ c, s.tcpu (s.curthread c) = c ∧ s.tstate (s.curthread c) ≠ none

structure Placed (s : Sched n τ ω) : Prop extends s.Housed s.on where
  stands : ∀ c, s.Stands c (s.pc c)

/-- What a step of a CPU leaves to the others: their queues grow, and they are told of it. -/
structure Spares (c : Fin n) (s u : Sched n τ ω) : Prop where
  pc : ∀ d ≠ c, u.pc d = s.pc d
  isidle : ∀ d ≠ c, u.isidle d = s.isidle d
  curthread : ∀ d ≠ c, u.curthread d = s.curthread d
  held : ∀ d ≠ c, u.lists (.held d) = s.lists (.held d)
  queue : ∀ d ≠ c, s.lists (.runqueue d) <+: u.lists (.runqueue d)
  pending : ∀ d ≠ c, s.ipiPending d = true → u.ipiPending d = true
  told : ∀ d ≠ c, u.lists (.runqueue d) ≠ s.lists (.runqueue d) → s.isidle d = true →
    u.ipiPending d = true

theorem Spares.refl (c : Fin n) (s : Sched n τ ω) : Spares c s s :=
  ⟨fun _ _ => rfl, fun _ _ => rfl, fun _ _ => rfl, fun _ _ => rfl, fun _ _ => List.prefix_refl _,
    fun _ _ h => h, fun _ _ h => (h rfl).elim⟩

theorem Spares.trans {c : Fin n} {s t u : Sched n τ ω} (h : Spares c s t) (h' : Spares c t u) :
    Spares c s u where
  pc d hd := (h'.pc d hd).trans (h.pc d hd)
  isidle d hd := (h'.isidle d hd).trans (h.isidle d hd)
  curthread d hd := (h'.curthread d hd).trans (h.curthread d hd)
  held d hd := (h'.held d hd).trans (h.held d hd)
  queue d hd := (h.queue d hd).trans (h'.queue d hd)
  pending d hd hp := h'.pending d hd (h.pending d hd hp)
  told d hd hne hidle := by
    by_cases ht : t.lists (.runqueue d) = s.lists (.runqueue d)
    · exact h'.told d hd (ht ▸ hne) ((h.isidle d hd).trans hidle)
    · exact h'.pending d hd (h.told d hd ht hidle)

theorem Spares.of_same {c : Fin n} {s u : Sched n τ ω} (hpc : ∀ d ≠ c, u.pc d = s.pc d)
    (hidle : ∀ d ≠ c, u.isidle d = s.isidle d) (hcur : ∀ d ≠ c, u.curthread d = s.curthread d)
    (hlist : ∀ d ≠ c, u.lists (.held d) = s.lists (.held d) ∧
      u.lists (.runqueue d) = s.lists (.runqueue d))
    (hipi : ∀ d ≠ c, u.ipiPending d = s.ipiPending d) : Spares c s u where
  pc := hpc
  isidle := hidle
  curthread := hcur
  held d hd := (hlist d hd).1
  queue d hd := by rw [(hlist d hd).2]
  pending d hd hp := (hipi d hd).trans hp
  told d hd hne := (hne (hlist d hd).2).elim

theorem Spares.of_lists {c : Fin n} {s u : Sched n τ ω} (hpc : u.pc = s.pc)
    (hidle : u.isidle = s.isidle) (hcur : u.curthread = s.curthread) (hipi : u.ipiPending = s.ipiPending)
    (hlist : ∀ d ≠ c, u.lists (.held d) = s.lists (.held d) ∧
      u.lists (.runqueue d) = s.lists (.runqueue d)) : Spares c s u := by
  apply Spares.of_same
  · intro d _
    rw [hpc]
  · intro d _
    rw [hidle]
  · intro d _
    rw [hcur]
  · exact hlist
  · intro d _
    rw [hipi]

theorem Stands.spared {c d : Fin n} {s u : Sched n τ ω} {p : CpuPc} (h : s.Stands d p)
    (hs : Spares c s u) (hd : d ≠ c) : u.Stands d p := by
  cases p with
  | thread => exact ⟨(hs.isidle d hd).trans h.1, (hs.held d hd).trans h.2⟩
  | idle =>
    refine ⟨(hs.isidle d hd).trans h.1, (hs.held d hd).trans h.2.1, ?_⟩
    intro hne
    by_cases hq : u.lists (.runqueue d) = s.lists (.runqueue d)
    · exact hs.pending d hd (h.2.2 (hq ▸ hne))
    · exact hs.told d hd hq h.1
  | retry => exact ⟨(hs.isidle d hd).trans h.1, (hs.held d hd).trans h.2⟩
  | waking => trivial
  | counting i m k =>
    exact ⟨(hs.held d hd).trans h.1, Nat.le_trans h.2 (hs.queue d hd).length_le⟩
  | sending i o k =>
    change k ≤ _
    rw [hs.held d hd]
    exact h

theorem stands_back {c : Fin n} {s : Sched n τ ω} (hheld : s.lists (.held c) = []) :
    s.Stands c (if s.isidle c then .retry else .thread) := by
  cases hidle : s.isidle c with
  | true => exact ⟨hidle, hheld⟩
  | false => exact ⟨hidle, hheld⟩

theorem Fits.congr {s u : Sched n τ ω} {p : Listed n ω ⊕ Fin n} {t : τ} (h : s.Fits p t)
    (hst : u.tstate t = s.tstate t) (hcpu : u.tcpu t = s.tcpu t)
    (hpc : ∀ c, p = .inl (.held c) → s.pc c = .waking → u.pc c = .waking) : u.Fits p t := by
  cases p with
  | inl l =>
    cases l with
    | runqueue c => exact ⟨hst.trans h.1, hcpu.trans h.2⟩
    | zombies c => exact ⟨hst.trans h.1, hcpu.trans h.2⟩
    | wchan w => exact hst.trans h
    | held c =>
      rcases h with h | h
      · exact .inl ⟨hst.trans h.1, hcpu.trans h.2⟩
      · exact .inr ⟨hst.trans h.1, hpc c rfl h.2⟩
  | inr c =>
    refine ⟨?_, hcpu.trans h.2⟩
    rw [hst]
    exact h.1

theorem Housed.not_current {s : Sched n τ ω} {L : Listed n ω ⊕ Fin n → List τ} (h : s.Housed L)
    (ht : s.tcpu t = c) (hne : t ≠ s.curthread c) (d : Fin n) : t ≠ s.curthread d := by
  rintro rfl
  rw [(h.current d).1] at ht
  subst ht
  exact hne rfl

theorem Fits.known {s : Sched n τ ω} {p : Listed n ω ⊕ Fin n} {t : τ} (h : s.Fits p t) : s.tstate t ≠ none := by
  intro hno
  cases p with
  | inl l =>
    cases l with
    | runqueue c => cases hno.symm.trans h.1
    | zombies c => cases hno.symm.trans h.1
    | wchan w => cases hno.symm.trans h
    | held c =>
      rcases h with h | h
      · cases hno.symm.trans h.1
      · cases hno.symm.trans h.1
  | inr c =>
    rcases h.1 with h | h
    · cases hno.symm.trans h
    · cases hno.symm.trans h

theorem Placed.of_spares {c : Fin n} {s u : Sched n τ ω} (h : s.Placed) (hu : u.Housed u.on)
    (hs : Spares c s u) (hc : u.Stands c (u.pc c)) : u.Placed := by
  refine ⟨hu, ?_⟩
  intro d
  by_cases hd : d = c
  · rw [hd]
    exact hc
  · rw [hs.pc d hd]
    exact (h.stands d).spared hs hd

theorem on_cpu_idle {s : Sched n τ ω} {c : Fin n} (h : s.isidle c = true) : s.on (.inr c) = [] := if_pos h

theorem on_cpu_run {s : Sched n τ ω} {c : Fin n} (h : s.isidle c = false) : s.on (.inr c) = [s.curthread c] := by
  change (if s.isidle c = true then _ else _) = _
  rw [h]
  rfl

section
variable [DecidableEq τ] [DecidableEq ω] {c : Fin n} {s u : Sched n τ ω}
  {L : Listed n ω ⊕ Fin n → List τ}

omit [DecidableEq τ] [DecidableEq ω] in
@[simp] theorem on_inl (l : Listed n ω) : s.on (.inl l) = s.lists l := rfl

omit [DecidableEq τ] in
theorem on_setList (l : Listed n ω) (ts : List τ) :
    (s.setList l ts).on = Function.update s.on (.inl l) ts := Sum.update_elim_inl.symm

omit [DecidableEq τ] [DecidableEq ω] in
theorem Housed.same (h : s.Housed L) (hst : u.tstate = s.tstate) (hcpu : u.tcpu = s.tcpu)
    (hcur : u.curthread = s.curthread)
    (hpc : ∀ c, s.lists (.held c) ≠ [] → s.pc c = .waking → u.pc c = .waking)
    (hL : ∀ c, L (.inl (.held c)) = s.lists (.held c)) : u.Housed L where
  toResidence := h.toResidence.congr rfl (by
    intro p t ht hf
    apply hf.congr (congrFun hst t) (congrFun hcpu t)
    rintro c rfl
    exact hpc c (List.ne_nil_of_mem (hL c ▸ ht))) (by simp [hst])
  current c := by
    rw [hst, hcpu, hcur]
    exact h.current c

theorem Housed.move {t : τ} {p q : Listed n ω ⊕ Fin n} {A B X Y : List τ} (h : s.Housed L)
    (he : L p = A ++ t :: B) (he' : Function.update L p (A ++ B) q = X ++ Y)
    (hsame : ∀ x ≠ t, u.tstate x = s.tstate x ∧ u.tcpu x = s.tcpu x)
    (hpc : ∀ c, L (.inl (.held c)) ≠ [] → s.pc c = .waking → u.pc c = .waking) (ht : u.Fits q t)
    (hcur : ∀ c, u.curthread c = s.curthread c ∧ (t = s.curthread c → u.tcpu t = s.tcpu t) ∨
      u.curthread c = t ∧ u.tcpu t = c) :
    u.Housed (Function.update (Function.update L p (A ++ B)) q (X ++ t :: Y)) where
  toResidence := h.toResidence.move he he' (by
    intro r x hr hx hf
    apply hf.congr (hsame x hx).1 (hsame x hx).2
    rintro c rfl
    exact hpc c (List.ne_nil_of_mem hr)) ht (by
    intro x
    by_cases hx : x = t
    · subst hx
      have hs : s.tstate x ≠ none :=
        h.known.2 ⟨p, he ▸ List.mem_append_right A List.mem_cons_self⟩
      exact iff_of_true ht.known hs
    · rw [(hsame x hx).1])
  current c := by
    rcases hcur c with ⟨hc, hown⟩ | ⟨hc, hown⟩
    · rw [hc]
      by_cases hx : s.curthread c = t
      · rw [hx, hown hx.symm, ← hx]
        refine ⟨(h.current c).1, ?_⟩
        rw [hx]
        exact ht.known
      · rw [(hsame _ hx).1, (hsame _ hx).2]
        exact h.current c
    · rw [hc]
      exact ⟨hown, ht.known⟩

/-- `thread_make_runnable` puts the thread at the end of the queue of its CPU, and tells that CPU. -/
theorem threadMakeRunnable_spec (c : Fin n) (t : τ) : ∃ ipi,
    s.threadMakeRunnable c t = { s with
      lists := Function.update s.lists (.runqueue (s.tcpu t)) (s.lists (.runqueue (s.tcpu t)) ++ [t])
      tstate := Function.update s.tstate t (some .ready)
      ipiPending := ipi } ∧
      (∀ d, s.ipiPending d = true → ipi d = true) ∧
      (s.isidle (s.tcpu t) = true → s.tcpu t ≠ c → ipi (s.tcpu t) = true) := by
  unfold threadMakeRunnable
  simp only
  split
  · refine ⟨_, rfl, ?_, ?_⟩
    · intro d hd
      change Function.update s.ipiPending (s.tcpu t) true d = true
      by_cases hdt : d = s.tcpu t
      · rw [hdt, Function.update_self]
      · rw [Function.update_of_ne hdt, hd]
    · intro _ _
      exact Function.update_self ..
  · rename_i hno
    exact ⟨s.ipiPending, rfl, fun _ h => h, fun h1 h2 => (hno ⟨h1, h2⟩).elim⟩

theorem threadMakeRunnable_spares (c : Fin n) (t : τ) : Spares c s (s.threadMakeRunnable c t) := by
  obtain ⟨ipi, he, hkeep, htold⟩ := threadMakeRunnable_spec (s := s) c t
  rw [he]
  have hother : ∀ d, d ≠ s.tcpu t →
      Function.update s.lists (.runqueue (s.tcpu t)) (s.lists (.runqueue (s.tcpu t)) ++ [t]) (.runqueue d) =
        s.lists (.runqueue d) := by
    intro d hd
    apply Function.update_of_ne
    intro he
    cases he
    exact hd rfl
  refine ⟨fun _ _ => rfl, fun _ _ => rfl, fun _ _ => rfl, ?_, ?_, fun d _ => hkeep d, ?_⟩
  · intro d _
    dsimp only
    rw [Function.update_of_ne]
    intro he
    cases he
  · intro d _
    dsimp only
    by_cases hd : d = s.tcpu t
    · subst hd
      rw [Function.update_self]
      exact List.prefix_append ..
    · rw [hother d hd]
  · intro d hdc hne hidle
    by_cases hd : d = s.tcpu t
    · subst hd
      exact htold hidle hdc
    · exact (hne (hother d hd)).elim

/-- A step that touches the zombies of a CPU alone. -/
structure Quiet (c : Fin n) (s u : Sched n τ ω) : Prop where
  pc : u.pc = s.pc
  isidle : u.isidle = s.isidle
  curthread : u.curthread = s.curthread
  pending : u.ipiPending = s.ipiPending
  lists : ∀ l, l ≠ .zombies c → u.lists l = s.lists l

omit [DecidableEq τ] [DecidableEq ω] in
theorem Quiet.spares (h : Quiet c s u) : Spares c s u := by
  apply Spares.of_lists h.pc h.isidle h.curthread h.pending
  intro d _
  exact ⟨h.lists _ (by simp), h.lists _ (by simp)⟩

/-- `exorcise` meets zombies of its CPU alone, and none that a CPU stands on. -/
theorem exorciseLoop_spec (zs : List τ) (h : s.Housed s.on) (hz : s.lists (.zombies c) = zs)
    (hrun : s.isidle c = false) : ∃ u, exorciseLoop c zs s = .ok u ∧ u.Housed u.on ∧ Quiet c s u := by
  induction zs generalizing s with
  | nil => exact ⟨s, rfl, h, rfl, rfl, rfl, rfl, fun _ _ => rfl⟩
  | cons z zs ih =>
    have hmem : z ∈ s.on (.inl (.zombies c)) := by
      rw [on_inl, hz]
      exact List.mem_cons_self
    obtain ⟨hstate, hcpu⟩ := h.fits hmem
    have hne : z ≠ s.curthread c := by
      intro he
      have hcur : z ∈ s.on (.inr c) := by
        change z ∈ if s.isidle c = true then _ else _
        rw [hrun, he]
        exact List.mem_cons_self
      cases h.place_unique hmem hcur
    have hothers := h.not_current hcpu hne
    let s' := (s.setList (.zombies c) zs).setState z none
    have hs' : s'.Housed s'.on := by
      refine ⟨?_, ?_⟩
      · have hleave : Residence (Function.update s.on (.inl (.zombies c)) ([] ++ zs)) s'.Fits
            fun t => s'.tstate t ≠ none := by
          apply h.toResidence.leave (show s.on (.inl (.zombies c)) = [] ++ z :: zs from hz)
          · intro r x _ hx hf
            exact hf.congr (Function.update_of_ne hx ..) rfl fun _ _ hw => hw
          · intro x
            change Function.update s.tstate z none x ≠ none ↔ _
            by_cases hx : x = z
            · subst hx
              simp
            · simp [hx]
        exact hleave.congr (on_setList ..) (fun _ _ _ hf => hf) fun _ => Iff.rfl
      · intro d
        refine ⟨(h.current d).1, ?_⟩
        change Function.update s.tstate z none (s.curthread d) ≠ none
        rw [Function.update_of_ne (hothers d).symm]
        exact (h.current d).2
    obtain ⟨u, hu, hhoused, hq⟩ := ih hs' (Function.update_self ..) hrun
    refine ⟨u, ?_, hhoused, hq.pc, hq.isidle, hq.curthread, hq.pending, ?_⟩
    · unfold exorciseLoop
      rw [if_neg (by rintro (he | he); exacts [hne he, he hstate])]
      unfold threadDestroy
      rw [if_neg (by
        rintro (he | he)
        · exact hne he
        · cases hstate.symm.trans he)]
      exact hu
    · intro l hl
      rw [hq.lists l hl]
      exact Function.update_of_ne hl ..

/-- The next thread runs, if there is one, and the zombies go. -/
theorem getNext_spec (h : s.Housed (Function.update s.on (.inr c) []))
    (hheld : s.lists (.held c) = []) : ∃ u, s.getNext c = .ok u ∧ u.Housed u.on ∧ Spares c s u ∧
      u.Stands c (u.pc c) ∧ s.lists (.runqueue c) = (s.lists (.runqueue c)).head?.toList ++
        u.lists (.runqueue c) ∧
      ∀ t, (s.lists (.runqueue c)).head? = some t → u.curthread c = t ∧ u.isidle c = false := by
  have hcpu : ∀ {x : Bool} {d}, d ≠ c → Function.update s.isidle c x d = s.isidle d := by
    intro x d hd
    exact Function.update_of_ne hd ..
  unfold getNext
  split
  · rename_i hq
    let u := { s with isidle := Function.update s.isidle c true }.goto c .idle
    have hon : u.on = Function.update s.on (.inr c) [] := by
      funext p
      cases p with
      | inl l => rfl
      | inr d =>
        by_cases hd : d = c
        · subst hd
          rw [Function.update_self]
          exact on_cpu_idle (Function.update_self ..)
        · rw [Function.update_of_ne (by simpa using hd)]
          change (if Function.update s.isidle c true d = true then _ else _) = _
          rw [hcpu hd]
          rfl
    refine ⟨u, rfl, ?_, ?_, ?_, ?_, ?_⟩
    · rw [hon]
      apply h.same (u := u) rfl rfl rfl
      · intro d hne hpc
        by_cases hd : d = c
        · subst hd
          exact (hne hheld).elim
        · exact (Function.update_of_ne hd ..).trans hpc
      · intro d
        rw [Function.update_of_ne (by simp)]
        rfl
    · exact Spares.of_same (fun d hd => Function.update_of_ne hd ..) (fun d hd => hcpu hd)
        (fun _ _ => rfl) (fun _ _ => ⟨rfl, rfl⟩) fun _ _ => rfl
    · rw [show u.pc c = .idle from Function.update_self ..]
      refine ⟨Function.update_self .., hheld, ?_⟩
      intro hne
      exact (hne hq).elim
    · rw [hq]
      exact hq.symm
    · intro t ht
      rw [hq] at ht
      cases ht
  · rename_i next q hq
    let u := (({ s with
      isidle := Function.update s.isidle c false
      curthread := Function.update s.curthread c next }.setList (.runqueue c) q).setState next
        (some .run)).goto c .thread
    have hlist : ∀ l, l ≠ .runqueue c → u.lists l = s.lists l := fun l hl => Function.update_of_ne hl ..
    have hqueue : u.lists (.runqueue c) = q := Function.update_self ..
    have hmem : next ∈ Function.update s.on (.inr c) [] (.inl (.runqueue c)) := by
      rw [Function.update_of_ne (by simp), on_inl, hq]
      exact List.mem_cons_self
    have hfit := h.fits hmem
    have hon : u.on = Function.update (Function.update (Function.update s.on (.inr c) [])
        (.inl (.runqueue c)) q) (.inr c) [next] := by
      funext p
      cases p with
      | inl l =>
        rw [Function.update_of_ne (by simp), Function.update_comm (by simp), Function.update_of_ne (by simp),
          ← on_setList]
        rfl
      | inr d =>
        by_cases hd : d = c
        · subst hd
          rw [Function.update_self, on_cpu_run (Function.update_self ..)]
          exact congrArg (fun t => [t]) (Function.update_self ..)
        · have hne : (Sum.inr d : Listed n ω ⊕ Fin n) ≠ .inr c := by simpa using hd
          rw [Function.update_of_ne hne, Function.update_of_ne (by simp), Function.update_of_ne hne]
          change (if Function.update s.isidle c false d = true then _ else
            [Function.update s.curthread c next d]) = _
          rw [hcpu hd, Function.update_of_ne hd]
          rfl
    have hu : u.Housed u.on := by
      rw [hon]
      apply h.move (p := .inl (.runqueue c)) (A := []) (X := []) (Y := [])
      · rw [Function.update_of_ne (by simp), on_inl, hq]
        rfl
      · rw [Function.update_of_ne (by simp), Function.update_self]
        rfl
      · intro x hx
        exact ⟨Function.update_of_ne hx .., rfl⟩
      · intro d hne hpc
        by_cases hd : d = c
        · subst hd
          rw [Function.update_of_ne (by simp)] at hne
          exact (hne hheld).elim
        · exact (Function.update_of_ne hd ..).trans hpc
      · exact ⟨.inl (Function.update_self ..), hfit.2⟩
      · intro d
        by_cases hd : d = c
        · subst hd
          exact .inr ⟨Function.update_self .., hfit.2⟩
        · exact .inl ⟨Function.update_of_ne hd .., fun _ => rfl⟩
    have hsu : Spares c s u := by
      apply Spares.of_same (u := u)
      · intro d hd
        exact Function.update_of_ne hd ..
      · intro d hd
        exact hcpu hd
      · intro d hd
        exact Function.update_of_ne hd ..
      · intro d hd
        exact ⟨hlist _ (by simp), hlist _ (by simpa using hd)⟩
      · intro d _
        rfl
    obtain ⟨v, hv, hhoused, hquiet⟩ := exorciseLoop_spec (c := c) _ hu rfl (Function.update_self ..)
    refine ⟨v, hv, hhoused, hsu.trans hquiet.spares, ?_, ?_, ?_⟩
    · rw [hquiet.pc, show u.pc c = .thread from Function.update_self ..]
      refine ⟨?_, ?_⟩
      · rw [hquiet.isidle]
        exact Function.update_self ..
      · rw [hquiet.lists _ (by simp), hlist _ (by simp)]
        exact hheld
    · rw [hquiet.lists _ (by simp), hqueue, hq]
      rfl
    · intro t ht
      rw [hq] at ht
      cases ht
      rw [hquiet.curthread, hquiet.isidle]
      exact ⟨Function.update_self .., Function.update_self ..⟩

end

end Sched

end Clape
