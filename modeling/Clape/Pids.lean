import Clape.ProcessSharing

namespace Clape
set_option autoImplicit true

/-- The process table and the field `p_pid` of every `struct proc` in use. -/
structure Pids where
  proc : Nat → Option Nat
  lastI : Nat
  pid : Nat → Option Nat

inductive PidStop where
  | tableFull | endless | kassert | freed
  deriving DecidableEq, Repr

inductive PidAction where
  | create (p : Nat)
  | destroy (p : Nat)
  deriving DecidableEq, Repr

/-- The index after `i` in the circular order. -/
def nextPid (i : Nat) : Nat := if maxProc < i + 1 then 1 else i + 1

/-- The loop of `proc_init_waitpid`: `none` while it still runs, `some none` if it came back to
`last_i`. -/
def pidLoop (proc : Nat → Option Nat) (lastI : Nat) : Nat → Nat → Option (Option Nat)
  | 0, _ => none
  | fuel + 1, i =>
    if i = lastI then some none
    else if (proc i).isNone then some (some i)
    else pidLoop proc lastI fuel (nextPid i)

namespace Pids

/-- The table as it is when the kernel starts. -/
def zeroed : Pids := ⟨fun _ => none, 0, fun _ => none⟩

/-- `proc_init_waitpid`. Nothing changes during the loop, so it runs forever if it does not end
within one turn. -/
def procInitWaitpid (s : Pids) (p : Nat) : Except PidStop Pids :=
  match pidLoop s.proc s.lastI maxProc (nextPid s.lastI) with
  | none => .error .endless
  | some none => .error .tableFull
  | some (some i) => .ok {
      proc := Function.update s.proc i (some p)
      lastI := i
      pid := Function.update s.pid p (some i) }

/-- `proc_destroy` with `proc_end_waitpid`. -/
def procDestroy (s : Pids) (p : Nat) : Except PidStop Pids :=
  match s.pid p with
  | none => .error .freed
  | some i =>
    if p ≠ kproc ∧ 0 < i ∧ i ≤ maxProc then .ok { s with
      proc := Function.update s.proc i none
      pid := Function.update s.pid p none }
    else .error .kassert

def act (s : Pids) : PidAction → Except PidStop Pids
  | .create p => s.procInitWaitpid p
  | .destroy p => s.procDestroy p

/-- A new structure does not lie where one in use is. -/
def Step (s : Pids) (a : PidAction) (t : Pids) : Prop :=
  (∀ p, a = .create p → s.pid p = none) ∧ s.act a = .ok t

/-- An empty slot of the table. -/
def Empty (s : Pids) (i : Nat) : Prop := 1 ≤ i ∧ i ≤ maxProc ∧ s.proc i = none

/-- The creation of `p` uses an empty slot if there is one, and stops the kernel only if there
is none. -/
def Allocates (s : Pids) (p : Nat) : Prop :=
  ((∃ i, s.Empty i) →
    ∃ i t, s.Empty i ∧ s.procInitWaitpid p = .ok t ∧ t.proc i = some p ∧ t.pid p = some i) ∧
  (s.procInitWaitpid p = .error .tableFull → ∀ i, ¬ s.Empty i)

end Pids

theorem nextPid_turn (j k : Nat) :
    nextPid ((j + k) % maxProc + 1) = (j + (k + 1)) % maxProc + 1 := by
  unfold nextPid maxProc
  split
  · omega
  · omega

theorem nextPid_last (h : j ≤ maxProc) : nextPid j = (j + 0) % maxProc + 1 := by
  unfold maxProc at h
  unfold nextPid maxProc
  split
  · omega
  · omega

/-- One turn of the loop looks at the indices of `pidOrder` and then ends. -/
theorem pidLoop_eq (h0 : 1 ≤ j) (h : j ≤ maxProc) (proc : Nat → Option Nat) :
    pidLoop proc j maxProc (nextPid j) = some ((pidOrder j).find? fun i => (proc i).isNone) := by
  suffices hs : ∀ m k, k + m = maxProc - 1 → pidLoop proc j (m + 1) ((j + k) % maxProc + 1) =
      some (((List.range' k m).map fun k => (j + k) % maxProc + 1).find? fun i => (proc i).isNone) by
    rw [nextPid_last h, pidOrder, List.range_eq_range']
    exact hs (maxProc - 1) 0 (Nat.zero_add _)
  intro m
  induction m with
  | zero =>
    intro k hk
    have hlast : (j + k) % maxProc + 1 = j := by
      unfold maxProc at hk h ⊢
      omega
    rw [pidLoop, if_pos hlast]
    rfl
  | succ m ih =>
    intro k hk
    have hne : ¬ (j + k) % maxProc + 1 = j := by
      unfold maxProc at hk h ⊢
      omega
    rw [pidLoop, if_neg hne, nextPid_turn, ih (k + 1) (by omega), List.range'_succ, List.map_cons,
      List.find?_cons]
    split
    · rename_i hf
      rw [hf]
    · rename_i hf
      rw [Bool.not_eq_true] at hf
      rw [hf]

theorem mem_pidOrder_iff (h0 : 1 ≤ j) (h : j ≤ maxProc) :
    i ∈ pidOrder j ↔ 1 ≤ i ∧ i ≤ maxProc ∧ i ≠ j := by
  unfold maxProc at h
  unfold pidOrder maxProc
  simp only [List.mem_map, List.mem_range]
  apply Iff.intro
  · intro hi
    obtain ⟨k, hk, rfl⟩ := hi
    omega
  · intro hi
    exact ⟨(i + 99 - j) % 100, by omega, by omega⟩

namespace Pids

/-- What holds of the table between the calls. -/
structure Inv (s : Pids) : Prop where
  last : s.lastI ≤ maxProc
  fresh : s.lastI = 0 → ∀ i, s.proc i = none
  slot : s.pid p = some i → 1 ≤ i ∧ i ≤ maxProc ∧ s.proc i = some p
  owner : s.proc i = some p → s.pid p = some i

theorem zeroed_inv : zeroed.Inv := by
  apply Inv.mk
  · exact Nat.zero_le _
  · intro _ i
    rfl
  · intro p i h
    cases h
  · intro i p h
    cases h

/-- What the search finds: an empty slot other than `last_i`, or it stops the kernel because
there is none. -/
theorem Inv.procInitWaitpid {s : Pids} (h : s.Inv) (p : Nat) :
    (∃ i, s.Empty i ∧ i ≠ s.lastI ∧ s.procInitWaitpid p = .ok ⟨Function.update s.proc i (some p), i,
      Function.update s.pid p (some i)⟩) ∨
    (s.procInitWaitpid p = .error .tableFull ∧ ∀ i, s.Empty i → i = s.lastI) := by
  cases Nat.eq_zero_or_pos s.lastI with
  | inl h0 =>
    -- only the first process is created with `last_i` still 0
    apply Or.inl
    refine ⟨1, ⟨Nat.le_refl 1, by decide, h.fresh h0 1⟩, by omega, ?_⟩
    unfold Pids.procInitWaitpid
    rw [h0, show nextPid 0 = 1 from rfl, show maxProc = 99 + 1 from rfl, pidLoop, h.fresh h0 1]
    rfl
  | inr h0 =>
    unfold Pids.procInitWaitpid
    rw [pidLoop_eq h0 h.last]
    cases hf : (pidOrder s.lastI).find? fun i => (s.proc i).isNone with
    | some i =>
      apply Or.inl
      obtain ⟨h1, hM, hne⟩ := (mem_pidOrder_iff h0 h.last).1 (List.mem_of_find?_eq_some hf)
      have hn := List.find?_some hf
      rw [Option.isNone_iff_eq_none] at hn
      exact ⟨i, ⟨h1, hM, hn⟩, hne, rfl⟩
    | none =>
      apply Or.inr
      refine ⟨rfl, fun i hi => ?_⟩
      obtain ⟨h1, hM, hn⟩ := hi
      by_contra hne
      have hocc := List.find?_eq_none.1 hf i ((mem_pidOrder_iff h0 h.last).2 ⟨h1, hM, hne⟩)
      rw [hn] at hocc
      exact hocc rfl

theorem Inv.create {s : Pids} (h : s.Inv) (hp : s.pid p = none) (he : s.Empty i) :
    Inv ⟨Function.update s.proc i (some p), i, Function.update s.pid p (some i)⟩ := by
  obtain ⟨h1, hM, hn⟩ := he
  apply Inv.mk
  · exact hM
  · intro h0
    exact (Nat.ne_of_gt h1 h0).elim
  · intro q j hq
    dsimp only at hq ⊢
    by_cases hqp : q = p
    · subst hqp
      rw [Function.update_self] at hq
      cases hq
      exact ⟨h1, hM, Function.update_self ..⟩
    · rw [Function.update_of_ne hqp] at hq
      obtain ⟨hj1, hjM, hj⟩ := h.slot hq
      have hji : j ≠ i := by
        intro he
        rw [he, hn] at hj
        cases hj
      exact ⟨hj1, hjM, by rwa [Function.update_of_ne hji]⟩
  · intro j q hj
    dsimp only at hj ⊢
    by_cases hji : j = i
    · subst hji
      rw [Function.update_self] at hj
      cases hj
      exact Function.update_self ..
    · rw [Function.update_of_ne hji] at hj
      have hq := h.owner hj
      have hqp : q ≠ p := by
        intro he
        rw [he, hp] at hq
        cases hq
      rwa [Function.update_of_ne hqp]

theorem Inv.destroy {s : Pids} (h : s.Inv) (hp : s.pid p = some i) :
    Inv { s with proc := Function.update s.proc i none, pid := Function.update s.pid p none } := by
  obtain ⟨h1, hM, hi⟩ := h.slot hp
  apply Inv.mk
  · exact h.last
  · intro h0
    rw [h.fresh h0 i] at hi
    cases hi
  · intro q j hq
    dsimp only at hq ⊢
    by_cases hqp : q = p
    · subst hqp
      rw [Function.update_self] at hq
      cases hq
    · rw [Function.update_of_ne hqp] at hq
      obtain ⟨hj1, hjM, hj⟩ := h.slot hq
      have hji : j ≠ i := by
        intro he
        rw [he, hi] at hj
        cases hj
        exact hqp rfl
      exact ⟨hj1, hjM, by rwa [Function.update_of_ne hji]⟩
  · intro j q hj
    dsimp only at hj ⊢
    by_cases hji : j = i
    · subst hji
      rw [Function.update_self] at hj
      cases hj
    · rw [Function.update_of_ne hji] at hj
      have hq := h.owner hj
      have hqp : q ≠ p := by
        intro he
        rw [he, hp] at hq
        cases hq
        exact hji rfl
      rwa [Function.update_of_ne hqp]

theorem Inv.step {s t : Pids} (h : s.Inv) (hs : s.Step a t) : t.Inv := by
  obtain ⟨hnew, ha⟩ := hs
  cases a with
  | create p =>
    obtain ⟨i, he, -, hok⟩ | ⟨herr, -⟩ := h.procInitWaitpid p
    · rw [act, hok] at ha
      cases ha
      exact h.create (hnew p rfl) he
    · rw [act, herr] at ha
      cases ha
  | destroy p =>
    rw [act, procDestroy] at ha
    split at ha
    · cases ha
    · rename_i i hp
      split at ha
      · cases ha
        exact h.destroy hp
      · cases ha

theorem Inv.allocates {s : Pids} (h : s.Inv) (p : Nat) :
    s.Allocates p ↔ ((∃ i, s.Empty i) → ∃ i, s.Empty i ∧ i ≠ s.lastI) := by
  apply Iff.intro
  · intro ha hex
    obtain ⟨i, t, -, hok, -⟩ := ha.1 hex
    obtain ⟨j, he, hne, -⟩ | ⟨herr, -⟩ := h.procInitWaitpid p
    · exact ⟨j, he, hne⟩
    · rw [herr] at hok
      cases hok
  · intro hc
    obtain ⟨j, he, hne, hok⟩ | ⟨herr, honly⟩ := h.procInitWaitpid p
    · refine ⟨fun _ => ⟨j, _, he, hok, Function.update_self .., Function.update_self ..⟩, ?_⟩
      intro herr
      rw [hok] at herr
      cases herr
    · have hnone : ∀ i, ¬ s.Empty i := by
        intro i hi
        obtain ⟨j, hj, hne⟩ := hc ⟨i, hi⟩
        exact hne (honly j hj)
      exact ⟨fun hex => (hnone _ hex.choose_spec).elim, fun _ => hnone⟩

/-- The table after `k` processes were created at the addresses from 0 on. -/
def filled (k : Nat) : Pids where
  proc i := if 1 ≤ i ∧ i ≤ k then some (i - 1) else none
  lastI := k
  pid p := if p < k then some (p + 1) else none

theorem filled_step (hk : k < maxProc) : Step (filled k) (.create k) (filled (k + 1)) := by
  apply And.intro
  · intro p hp
    cases hp
    exact if_neg (Nat.lt_irrefl k)
  · have hnext : nextPid k = k + 1 := if_neg (by omega)
    have hfree : (filled k).proc (k + 1) = none := if_neg (by omega)
    have hok : (filled k).procInitWaitpid k = .ok ⟨Function.update (filled k).proc (k + 1) (some k),
        k + 1, Function.update (filled k).pid k (some (k + 1))⟩ := by
      unfold procInitWaitpid
      rw [show (filled k).lastI = k from rfl, hnext, show maxProc = 99 + 1 from rfl, pidLoop,
        if_neg (by omega), hfree]
      rfl
    rw [act, hok]
    congr 1
    unfold filled
    congr 1
    · funext i
      by_cases hi : i = k + 1
      · subst hi
        simp
      · rw [Function.update_of_ne hi]
        simp only [show 1 ≤ i ∧ i ≤ k + 1 ↔ 1 ≤ i ∧ i ≤ k by omega]
    · funext p
      by_cases hp : p = k
      · subst hp
        simp
      · rw [Function.update_of_ne hp]
        simp only [show p < k + 1 ↔ p < k by omega]

theorem filled_run (hk : k ≤ maxProc) :
    Run Step zeroed ((List.range k).map .create) (filled k) := by
  induction k with
  | zero =>
    have hz : filled 0 = zeroed := by
      unfold filled zeroed
      congr 1
      funext i
      exact if_neg (by omega)
    rw [hz]
    exact .nil _
  | succ k ih =>
    rw [List.range_succ, List.map_append]
    exact .snoc (ih (by omega)) (filled_step hk)

end Pids

/-- In every run of creations and destructions every process has its pid to itself and the
table leads back to it. The search for a slot always ends; it uses an empty slot, and panics
only if there is none, exactly if the only empty slot is not `last_i`, which it never looks at. -/
theorem pids_complete_but_last (h : Run Pids.Step Pids.zeroed tr s) :
    (∀ p i, s.pid p = some i → s.proc i = some p) ∧
    (∀ p q i, s.pid p = some i → s.pid q = some i → p = q) ∧
    ∀ p, s.pid p = none → s.procInitWaitpid p ≠ .error .endless ∧
      (s.Allocates p ↔ ((∃ i, s.Empty i) → ∃ i, s.Empty i ∧ i ≠ s.lastI)) := by
  have hinv : s.Inv := h.invariant Pids.zeroed_inv fun _ _ _ ht hs => ht.step hs
  refine ⟨fun p i hp => (hinv.slot hp).2.2, fun p q i hp hq => ?_, fun p _ => ?_⟩
  · have hpi := (hinv.slot hp).2.2
    rw [(hinv.slot hq).2.2] at hpi
    cases hpi
    rfl
  · refine ⟨fun he => ?_, hinv.allocates p⟩
    obtain ⟨i, -, -, hok⟩ | ⟨herr, -⟩ := hinv.procInitWaitpid p
    · rw [hok] at he
      cases he
    · rw [herr] at he
      cases he

/-- The second process gets the second slot. -/
theorem pids_complete_but_last_second :
    Run Pids.Step Pids.zeroed [.create kproc] (Pids.filled 1) ∧ (Pids.filled 1).Allocates 1 := by
  have hrun : Run Pids.Step Pids.zeroed [.create kproc] (Pids.filled 1) :=
    Pids.filled_run (k := 1) (by decide)
  obtain ⟨-, -, hnext⟩ := pids_complete_but_last hrun
  refine ⟨hrun, (hnext 1 rfl).2.2 fun _ => ⟨2, ⟨by decide, by decide, rfl⟩, ?_⟩⟩
  exact Nat.succ_ne_self 1

/-- The table is full, then the process created last goes: its slot is empty and the next
creation panics. -/
theorem pids_last_slot_lost : ∃ tr s p, Run Pids.Step Pids.zeroed tr s ∧ s.pid p = none ∧
    s.Empty maxProc ∧ s.procInitWaitpid p = .error .tableFull ∧ ¬ s.Allocates p := by
  let s : Pids := { Pids.filled maxProc with
    proc := Function.update (Pids.filled maxProc).proc 100 none
    pid := Function.update (Pids.filled maxProc).pid 99 none }
  have hrun : Run Pids.Step Pids.zeroed ((List.range maxProc).map .create ++ [.destroy 99]) s := by
    refine .snoc (Pids.filled_run (Nat.le_refl _)) ⟨?_, rfl⟩
    intro p hp
    cases hp
  have hinv : s.Inv := hrun.invariant Pids.zeroed_inv fun _ _ _ ht hs => ht.step hs
  have hempty : s.Empty maxProc := ⟨by decide, Nat.le_refl _, rfl⟩
  have honly : ∀ i, s.Empty i → i = maxProc := by
    intro i hi
    obtain ⟨h1, hM, hn⟩ := hi
    by_contra hne
    have hocc : s.proc i = some (i - 1) := by
      apply Eq.trans (Function.update_of_ne hne ..)
      exact if_pos ⟨h1, hM⟩
    rw [hocc] at hn
    cases hn
  have herr : s.procInitWaitpid 99 = .error .tableFull := by
    obtain ⟨i, he, hne, -⟩ | ⟨herr, -⟩ := hinv.procInitWaitpid 99
    · exact (hne (honly i he)).elim
    · exact herr
  refine ⟨_, s, 99, hrun, rfl, hempty, herr, fun h => ?_⟩
  exact h.2 herr maxProc hempty

/-- The part of the processes that `proc_init_waitpid` works on. -/
def Procs.pids (s : Procs) : Pids := ⟨s.table, s.lastI, fun p => (s.heap p).map ProcStruct.pid⟩

/-- `proc_create` as the model of processes has it is the loop above. -/
theorem Procs.procCreate_pids {s : Procs} (h0 : 1 ≤ s.lastI) (h : s.lastI ≤ maxProc) :
    s.procCreate.toOption.map Procs.pids = (s.pids.procInitWaitpid s.brk).toOption := by
  unfold Procs.procCreate Pids.procInitWaitpid
  rw [show s.pids.lastI = s.lastI from rfl, show s.pids.proc = s.table from rfl, pidLoop_eq h0 h]
  cases (pidOrder s.lastI).find? fun i => (s.table i).isNone with
  | none => rfl
  | some i =>
    simp only [Except.toOption, Option.map_some, Option.some.injEq]
    unfold Procs.pids
    congr 1
    funext p
    by_cases hp : p = s.brk
    · subst hp
      simp
    · simp only [Function.update_of_ne hp]

end Clape
