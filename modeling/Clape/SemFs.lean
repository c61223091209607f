import Mathlib.Algebra.BigOperators.Group.List.Basic
import Mathlib.Algebra.GroupWithZero.Nat
import Clape.Machine
import Clape.Runs

namespace Clape
set_option autoImplicit true

/-- A reader that is blocked in `semfs_read`, with what is left of its request. -/
structure SemReader where
  tid : Nat
  resid : Nat
  deriving DecidableEq, Repr

/-- `struct semfs_sem`, with the readers asleep on `sems_cv` and those woken that do not have
`sems_lock` again. The last three fields only keep account: the count after the last truncate, and
what was written and consumed since. -/
structure SemfsSem where
  count : Nat
  asleep : List SemReader
  woken : List SemReader
  initial : Nat
  written : Nat
  consumed : Nat
  deriving DecidableEq, Repr

/-- What `semfs_read` takes in one turn of its loop. -/
def consume (count resid : Nat) : Nat :=
  if 0 < count then (if count < resid then count else resid) else 0

theorem consume_eq (count resid : Nat) : consume count resid = min resid count := by
  unfold consume
  split
  · split
    · omega
    · omega
  · omega

/-- The loop of `semfs_read` up to the return or to `cv_wait`: the count, and what is left of the
request (nothing at the return). -/
def readLoop (count resid : Nat) : Nat × Nat :=
  if resid = 0 then (count, resid)
  else if resid - consume count resid = 0 then
    (count - consume count resid, resid - consume count resid)
  else if count - consume count resid = 0 then
    (count - consume count resid, resid - consume count resid)
  else readLoop (count - consume count resid) (resid - consume count resid)
termination_by resid
decreasing_by
  simp only [consume_eq] at *
  omega

theorem readLoop_eq (count resid : Nat) :
    readLoop count resid = (count - min resid count, resid - min resid count) := by
  rw [readLoop]
  split
  · rename_i h0
    rw [h0, Nat.zero_min]
    rfl
  · simp only [consume_eq]
    split
    · rfl
    · split
      · rfl
      · omega

namespace SemfsSem

/-- `semfs_read` from the lock on. -/
def read (s : SemfsSem) (t n : Nat) : SemfsSem :=
  let r := readLoop s.count n
  let s' := { s with count := r.1, consumed := s.consumed + (s.count - r.1) }
  if r.2 = 0 then s' else { s' with asleep := s.asleep ++ [⟨t, r.2⟩] }

/-- `cv_signal`: it wakes one sleeper, if there is one. -/
inductive Signal : SemfsSem → SemfsSem → Prop where
  | none (h : s.asleep = []) : Signal s s
  | one (h : s.asleep = l ++ r :: l') : Signal s { s with asleep := l ++ l', woken := r :: s.woken }

/-- `cv_broadcast`. -/
def broadcast (s : SemfsSem) : SemfsSem := { s with asleep := [], woken := s.asleep ++ s.woken }

/-- `semfs_wakeup`. -/
def Wakeup (s : SemfsSem) (newcount : Nat) (u : SemfsSem) : Prop :=
  if 0 < s.count ∨ newcount = 0 then u = s
  else if newcount = 1 then s.Signal u
  else u = s.broadcast

def Idle (s : SemfsSem) (t : Nat) : Prop := ∀ r ∈ s.asleep ++ s.woken, r.tid ≠ t

end SemfsSem

/-- The steps of the readers and writers of one semaphore. `retest` is a reader that has been woken
and has the lock again. -/
inductive SemOp where
  | read (t n : Nat)
  | retest (t : Nat)
  | write (n : Nat)
  | truncate (len : Int)

/-- The system calls on one semaphore; what they do while they hold `sems_lock` is one step. -/
inductive SemStep : SemfsSem → SemOp → SemfsSem → Prop where
  | read (ht : s.Idle t) (hn : n < 4294967296) : SemStep s (.read t n) (s.read t n)
  | retest (hw : s.woken = l ++ ⟨t, n⟩ :: l') :
      SemStep s (.retest t) ({ s with woken := l ++ l' }.read t n)
  | writeNone : SemStep s (.write 0) s
  | overflow (hn : 0 < n) (hn' : n < 4294967296) (ho : u32 (s.count + n) < s.count) :
      SemStep s (.write n) s
  | write (hn : 0 < n) (hn' : n < 4294967296) (ho : ¬ u32 (s.count + n) < s.count)
      (hw : s.Wakeup (u32 (s.count + n)) u) :
      SemStep s (.write n) { u with count := u32 (s.count + n), written := u.written + n }
  | reject (h : len < 0 ∨ 4294967295 < len) : SemStep s (.truncate len) s
  | truncate (h0 : 0 ≤ len) (h1 : len ≤ 4294967295) (hw : s.Wakeup len.toNat u) :
      SemStep s (.truncate len)
        { u with count := len.toNat, initial := len.toNat, written := 0, consumed := 0 }

namespace SemfsSem
variable {s u : SemfsSem}

/-- A semaphore that nobody waits for. -/
def start (c : Nat) : SemfsSem := ⟨c, [], [], c, 0, 0⟩

/-- No reader sleeps while there is something to take, unless a woken one is about to look. -/
def NoneLost (s : SemfsSem) : Prop := s.asleep ≠ [] → 0 < s.count → s.woken ≠ []

/-- What the woken readers still want. -/
def wanted (s : SemfsSem) : Nat := (s.woken.map SemReader.resid).sum

theorem Signal.accounts (h : s.Signal u) : u.count = s.count ∧ u.initial = s.initial ∧
    u.written = s.written ∧ u.consumed = s.consumed := by
  cases h with
  | none => exact ⟨rfl, rfl, rfl, rfl⟩
  | one => exact ⟨rfl, rfl, rfl, rfl⟩

theorem Wakeup.accounts (h : s.Wakeup n u) : u.count = s.count ∧ u.initial = s.initial ∧
    u.written = s.written ∧ u.consumed = s.consumed := by
  unfold Wakeup at h
  split at h
  · rw [h]
    exact ⟨rfl, rfl, rfl, rfl⟩
  · split at h
    · exact h.accounts
    · rw [h]
      exact ⟨rfl, rfl, rfl, rfl⟩

theorem read_count (s : SemfsSem) (t n : Nat) : (s.read t n).count = s.count - min n s.count := by
  unfold read
  rw [readLoop_eq]
  dsimp only
  split
  · rfl
  · rfl

theorem read_consumed (s : SemfsSem) (t n : Nat) :
    (s.read t n).consumed = s.consumed + min n s.count ∧ (s.read t n).initial = s.initial ∧
      (s.read t n).written = s.written := by
  have hmin : s.count - (s.count - min n s.count) = min n s.count := by omega
  unfold read
  rw [readLoop_eq]
  dsimp only
  split
  · exact ⟨congrArg _ hmin, rfl, rfl⟩
  · exact ⟨congrArg _ hmin, rfl, rfl⟩

theorem read_woken (s : SemfsSem) (t n : Nat) : (s.read t n).woken = s.woken := by
  unfold read
  dsimp only
  split
  · rfl
  · rfl

theorem read_asleep (s : SemfsSem) (t n : Nat) :
    (s.read t n).asleep = s.asleep ∨ (s.read t n).count = 0 ∧
      ∃ r, 0 < r.resid ∧ (s.read t n).asleep = s.asleep ++ [r] := by
  rw [read_count]
  unfold read
  rw [readLoop_eq]
  dsimp only
  split
  · exact .inl rfl
  · right
    exact ⟨by omega, ⟨t, n - min n s.count⟩, by dsimp only; omega, rfl⟩

/-- The account is right, and the count is a 32-bit number. -/
structure Balanced (s : SemfsSem) : Prop where
  word : s.count < 4294967296
  account : s.initial + s.written = s.count + s.consumed

theorem u32_add (hc : c < 4294967296) (hn : n < 4294967296) (ho : ¬ u32 (c + n) < c) :
    u32 (c + n) = c + n ∧ c + n < 4294967296 := by
  unfold u32 at *
  omega

theorem Balanced.read (h : s.Balanced) (t n : Nat) : (s.read t n).Balanced := by
  obtain ⟨hw, ha⟩ := h
  obtain ⟨h1, h2, h3⟩ := s.read_consumed t n
  have h4 := s.read_count t n
  exact ⟨by omega, by omega⟩

theorem Balanced.step (h : s.Balanced) (hs : SemStep s op u) : u.Balanced := by
  obtain ⟨hw, ha⟩ := h
  cases hs with
  | read ht hn => exact Balanced.read ⟨hw, ha⟩ _ _
  | retest hwk =>
    apply Balanced.read
    exact ⟨hw, ha⟩
  | writeNone => exact ⟨hw, ha⟩
  | overflow hn hn' ho => exact ⟨hw, ha⟩
  | write hn hn' ho hwk =>
    obtain ⟨h1, h2, h3, h4⟩ := hwk.accounts
    obtain ⟨hsum, hlt⟩ := u32_add hw hn' ho
    rw [hsum]
    exact ⟨hlt, by dsimp only; omega⟩
  | reject hlen => exact ⟨hw, ha⟩
  | truncate h0 h1 hwk => exact ⟨by dsimp only; omega, rfl⟩

/-- While a reader sleeps the woken ones want all there is, and every waiting reader wants
something. -/
structure Served (s : SemfsSem) : Prop where
  wanted : s.asleep ≠ [] → s.count ≤ s.wanted
  hungry : ∀ r ∈ s.asleep ++ s.woken, 0 < r.resid

theorem Served.noneLost (h : s.Served) : s.NoneLost := by
  intro hs hc hw
  have hle := h.wanted hs
  unfold SemfsSem.wanted at hle
  rw [hw] at hle
  exact absurd hc (Nat.not_lt.2 hle)

theorem served_read (hc : s.asleep ≠ [] → s.count ≤ s.wanted + n)
    (hh : ∀ r ∈ s.asleep ++ s.woken, 0 < r.resid) (t : Nat) : (s.read t n).Served := by
  have hcount := s.read_count t n
  have hw := s.read_woken t n
  have hwanted : (s.read t n).wanted = s.wanted := by
    unfold SemfsSem.wanted
    rw [hw]
  obtain ha | ⟨h0, r, hr, ha⟩ := s.read_asleep t n
  · constructor
    · intro hne
      rw [ha] at hne
      have := hc hne
      omega
    · rw [ha, hw]
      exact hh
  · constructor
    · intro _
      omega
    · intro q hq
      rw [ha, hw] at hq
      simp only [List.mem_append, List.mem_singleton] at hq
      obtain (hq | rfl) | hq := hq
      · exact hh q (List.mem_append_left _ hq)
      · exact hr
      · exact hh q (List.mem_append_right _ hq)

theorem wanted_split (h : s.woken = l ++ r :: l') :
    s.wanted = ({ s with woken := l ++ l' } : SemfsSem).wanted + r.resid := by
  unfold wanted
  rw [h]
  simp only [List.map_append, List.map_cons, List.sum_append, List.sum_cons]
  omega

theorem Served.retest (h : s.Served) (hw : s.woken = l ++ ⟨t, n⟩ :: l') :
    ({ s with woken := l ++ l' }.read t n).Served := by
  apply served_read
  · intro hne
    rw [← show s.wanted = _ from wanted_split hw]
    exact h.wanted hne
  · intro q hq
    apply h.hungry q
    rw [hw]
    simp only [List.mem_append, List.mem_cons] at hq ⊢
    tauto

end SemfsSem

/-- A write or truncate that finds a positive count while a reader sleeps leaves no more than the
woken readers want. -/
def SemOp.Tame (s : SemfsSem) : SemOp → Prop
  | .write n => 0 < n → s.count + n < 4294967296 → 0 < s.count → s.asleep ≠ [] → s.count + n ≤ s.wanted
  | .truncate len => 0 ≤ len → len ≤ 4294967295 → 0 < s.count → s.asleep ≠ [] → len ≤ s.wanted
  | _ => True

def SemStepWhen (s : SemfsSem) (op : SemOp) (s' : SemfsSem) : Prop := op.Tame s ∧ SemStep s op s'

namespace SemfsSem
variable {s u w : SemfsSem}

/-- What a change of the count leaves, when it does not exceed what the woken readers want. -/
theorem Served.wakeup (h : s.Served) (hw : s.Wakeup c u)
    (hc : 0 < s.count → s.asleep ≠ [] → c ≤ s.wanted) (hu : w.asleep = u.asleep)
    (hu' : w.woken = u.woken) (hcount : w.count = c) : w.Served := by
  unfold Wakeup at hw
  constructor
  · intro hne
    unfold SemfsSem.wanted
    rw [hu] at hne
    rw [hcount, hu']
    split at hw
    · rename_i hz
      subst hw
      cases hz with
      | inl hz => exact hc hz hne
      | inr hz =>
        rw [hz]
        exact Nat.zero_le _
    · split at hw
      · rename_i hone
        cases hw with
        | none he => exact absurd he hne
        | @one _ r _ _ he =>
          have hr := h.hungry r (List.mem_append_left _ (by rw [he]; simp))
          rw [hone, List.map_cons, List.sum_cons]
          exact Nat.le_trans hr (Nat.le_add_right ..)
      · subst hw
        exact absurd rfl hne
  · intro q hq
    rw [hu, hu'] at hq
    apply h.hungry q
    split at hw
    · subst hw
      exact hq
    · split at hw
      · cases hw with
        | none he => exact hq
        | one he =>
          rw [he]
          simp only [List.mem_append, List.mem_cons] at hq ⊢
          tauto
      · subst hw
        exact hq

theorem Served.step (h : s.Served) (hb : s.Balanced) (hs : SemStepWhen s op u) : u.Served := by
  obtain ⟨htame, hs⟩ := hs
  cases hs with
  | read ht hn => exact served_read (fun hne => Nat.le_add_right_of_le (h.wanted hne)) h.hungry _
  | retest hw => exact h.retest hw
  | writeNone => exact h
  | overflow hn hn' ho => exact h
  | write hn hn' ho hw =>
    obtain ⟨hsum, hlt⟩ := u32_add hb.word hn' ho
    refine h.wakeup hw (fun hc hne => ?_) rfl rfl rfl
    rw [hsum]
    exact htame hn hlt hc hne
  | reject hlen => exact h
  | truncate h0 h1 hw =>
    refine h.wakeup hw (fun hc hne => ?_) rfl rfl rfl
    have := htame h0 h1 hc hne
    omega

theorem start_balanced (hc : c < 4294967296) : (start c).Balanced := ⟨hc, rfl⟩

theorem start_served (c : Nat) : (start c).Served := ⟨fun h => absurd rfl h, nofun⟩

/-- With more than the woken readers want, these can all take their part and leave a sleeper
behind. -/
theorem lost_of_wanted_lt (hne : s.asleep ≠ []) (hlt : s.wanted < s.count) :
    ∃ ops t, Run SemStep s ops t ∧ ¬ t.NoneLost := by
  generalize hw : s.woken = l
  induction l generalizing s with
  | nil => exact ⟨[], s, .nil s, fun h => h hne (Nat.zero_lt_of_lt hlt) hw⟩
  | cons r l ih =>
    have hsplit := wanted_split (l := []) hw
    have hstep : SemStep s (.retest r.tid) ({ s with woken := l }.read r.tid r.resid) :=
      .retest (l := []) hw
    have hcount := ({ s with woken := l } : SemfsSem).read_count r.tid r.resid
    have hwoken := ({ s with woken := l } : SemfsSem).read_woken r.tid r.resid
    have hasleep : ({ s with woken := l }.read r.tid r.resid).asleep = s.asleep := by
      obtain ha | ⟨h0, -⟩ := ({ s with woken := l } : SemfsSem).read_asleep r.tid r.resid
      · exact ha
      · rw [hcount] at h0
        dsimp only [List.nil_append] at h0 hsplit
        omega
    obtain ⟨ops, t, hrun, hlost⟩ := ih (s := { s with woken := l }.read r.tid r.resid)
      (by rw [hasleep]; exact hne) (by
        unfold wanted at hsplit ⊢
        rw [hwoken, hcount]
        dsimp only [List.nil_append] at hsplit ⊢
        unfold wanted at hlt
        omega) hwoken
    exact ⟨_, t, (Run.single hstep).append hrun, hlost⟩

end SemfsSem

/-- User-level semaphores: what was there and what was written is what is left and what was
consumed, in every run; no wake-up is lost in the runs in which no write and no truncate adds to a
positive count, while a reader sleeps, more than the woken readers want; and any such write or
truncate can lose one. -/
theorem semfs_wakeups (hc : c < 4294967296) :
    (∀ ops s, Run SemStep (.start c) ops s → s.initial + s.written = s.count + s.consumed) ∧
    (∀ ops s, Run SemStepWhen (.start c) ops s → s.NoneLost) ∧
    ∀ ops s op s', Run SemStep (.start c) ops s → SemStep s op s' → ¬ op.Tame s →
      ∃ ops' t, Run SemStep s' ops' t ∧ ¬ t.NoneLost := by
  have hbal : ∀ ops s, Run SemStep (.start c) ops s → s.Balanced := by
    intro ops s h
    exact h.invariant (SemfsSem.start_balanced hc) fun t op u ht hs => ht.step hs
  refine ⟨fun ops s h => (hbal ops s h).account, ?_, ?_⟩
  · intro ops s h
    have hinv : s.Balanced ∧ s.Served := by
      apply h.invariant ⟨SemfsSem.start_balanced hc, SemfsSem.start_served c⟩
      intro t op u ht hs
      exact ⟨ht.1.step hs.2, ht.2.step ht.1 hs⟩
    exact hinv.2.noneLost
  · intro ops s op s' h hs hnot
    have hword := (hbal ops s h).word
    cases hs with
    | read ht hn => exact absurd trivial hnot
    | retest hw => exact absurd trivial hnot
    | writeNone => exact absurd (fun h => absurd h (Nat.lt_irrefl 0)) hnot
    | overflow hn hn' ho =>
      refine absurd (fun _ hlt => ?_) hnot
      unfold u32 at ho
      omega
    | write hn hn' ho hw =>
      obtain ⟨hsum, hlt⟩ := SemfsSem.u32_add hword hn' ho
      simp only [SemOp.Tame, Classical.not_imp] at hnot
      obtain ⟨-, -, hpos, hne, hle⟩ := hnot
      unfold SemfsSem.Wakeup at hw
      rw [if_pos (.inl hpos)] at hw
      subst hw
      exact SemfsSem.lost_of_wanted_lt hne (by rw [hsum]; exact Nat.not_le.1 hle)
    | reject hlen =>
      refine absurd (fun h0 h1 => ?_) hnot
      omega
    | truncate h0 h1 hw =>
      simp only [SemOp.Tame, Classical.not_imp] at hnot
      obtain ⟨-, -, hpos, hne, hle⟩ := hnot
      unfold SemfsSem.Wakeup at hw
      rw [if_pos (.inl hpos)] at hw
      subst hw
      exact SemfsSem.lost_of_wanted_lt hne (by
        unfold SemfsSem.wanted at hle ⊢
        dsimp only
        omega)

/-- A reader that waits and is woken by the write that it waits for. -/
theorem semfs_wakeups_one : ∃ s, Run SemStepWhen (.start 0) [.read 1 1, .write 1] s ∧
    s.woken = [⟨1, 1⟩] ∧ s.NoneLost ∧ s.initial + s.written = s.count + s.consumed := by
  have h1 : SemStep (.start 0) (.read 1 1) ⟨0, [⟨1, 1⟩], [], 0, 0, 0⟩ := by
    have h : SemStep (.start 0) (.read 1 1) _ := .read nofun (by decide)
    rw [SemfsSem.read, readLoop_eq] at h
    exact h
  have hw : SemfsSem.Wakeup ⟨0, [⟨1, 1⟩], [], 0, 0, 0⟩ 1 ⟨0, [], [⟨1, 1⟩], 0, 0, 0⟩ :=
    SemfsSem.Signal.one (l := []) rfl
  have h2 : SemStep ⟨0, [⟨1, 1⟩], [], 0, 0, 0⟩ (.write 1) ⟨1, [], [⟨1, 1⟩], 0, 1, 0⟩ :=
    .write (u := ⟨0, [], [⟨1, 1⟩], 0, 0, 0⟩) (by decide) (by decide) (by decide) hw
  have hrun : Run SemStepWhen (.start 0) [.read 1 1, .write 1] ⟨1, [], [⟨1, 1⟩], 0, 1, 0⟩ :=
    .snoc (.single ⟨trivial, h1⟩) ⟨fun _ _ h => absurd h (by decide), h2⟩
  obtain ⟨hacc, hnone, -⟩ := semfs_wakeups (by decide : 0 < 4294967296)
  exact ⟨_, hrun, rfl, hnone _ _ hrun, hacc _ _ (hrun.mono fun _ _ _ h => h.2)⟩

/-- Two readers wait and two writers write one each before the woken reader runs: the second write
finds a positive count and wakes nobody. -/
theorem semfs_lost_wakeup : ∃ s, Run SemStep (.start 0)
    [.read 1 1, .read 2 1, .write 1, .write 1, .retest 1] s ∧ s.count = 1 ∧ s.asleep = [⟨2, 1⟩] ∧
      s.woken = [] ∧ ¬ s.NoneLost := by
  have h1 : SemStep (.start 0) (.read 1 1) ⟨0, [⟨1, 1⟩], [], 0, 0, 0⟩ := by
    have h : SemStep (.start 0) (.read 1 1) _ := .read nofun (by decide)
    rw [SemfsSem.read, readLoop_eq] at h
    exact h
  have h2 : SemStep ⟨0, [⟨1, 1⟩], [], 0, 0, 0⟩ (.read 2 1) ⟨0, [⟨1, 1⟩, ⟨2, 1⟩], [], 0, 0, 0⟩ := by
    have h : SemStep ⟨0, [⟨1, 1⟩], [], 0, 0, 0⟩ (.read 2 1) _ := .read (by
      intro r hr
      cases List.mem_singleton.1 hr
      decide) (by decide)
    rw [SemfsSem.read, readLoop_eq] at h
    exact h
  have hw : SemfsSem.Wakeup ⟨0, [⟨1, 1⟩, ⟨2, 1⟩], [], 0, 0, 0⟩ 1 ⟨0, [⟨2, 1⟩], [⟨1, 1⟩], 0, 0, 0⟩ :=
    SemfsSem.Signal.one (l := []) rfl
  have h3 : SemStep ⟨0, [⟨1, 1⟩, ⟨2, 1⟩], [], 0, 0, 0⟩ (.write 1) ⟨1, [⟨2, 1⟩], [⟨1, 1⟩], 0, 1, 0⟩ :=
    .write (u := ⟨0, [⟨2, 1⟩], [⟨1, 1⟩], 0, 0, 0⟩) (by decide) (by decide) (by decide) hw
  have h4 : SemStep ⟨1, [⟨2, 1⟩], [⟨1, 1⟩], 0, 1, 0⟩ (.write 1) ⟨2, [⟨2, 1⟩], [⟨1, 1⟩], 0, 2, 0⟩ :=
    .write (u := ⟨1, [⟨2, 1⟩], [⟨1, 1⟩], 0, 1, 0⟩) (by decide) (by decide) (by decide) rfl
  have h5 : SemStep ⟨2, [⟨2, 1⟩], [⟨1, 1⟩], 0, 2, 0⟩ (.retest 1) ⟨1, [⟨2, 1⟩], [], 0, 2, 1⟩ := by
    have h : SemStep ⟨2, [⟨2, 1⟩], [⟨1, 1⟩], 0, 2, 0⟩ (.retest 1) _ := .retest (l := []) rfl
    rw [SemfsSem.read, readLoop_eq] at h
    exact h
  refine ⟨_, .snoc (.snoc (.snoc (.snoc (.single h1) h2) h3) h4) h5, rfl, rfl, rfl, ?_⟩
  intro h
  exact h nofun (by decide) rfl

end Clape
