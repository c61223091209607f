import Clape.PageTableHash

namespace Clape
set_option autoImplicit true

/-- A frame the kernel may take: it is eligible and has no second chance left. -/
def PtEntry.Spent (e : PtEntry) : Prop :=
  e.eligible = true ∧ (e.ctrl.reference && e.ctrl.validity) = false

theorem PtEntry.eligible_of_not_validEntry {e : PtEntry} (h : e.validEntry = false) : e.Spent := by
  simp only [PtEntry.validEntry, Bool.or_eq_false_iff] at h
  obtain ⟨⟨⟨⟨h1, h2⟩, h3⟩, h4⟩, h5⟩ := h
  refine ⟨?_, by rw [Bool.and_comm]; exact h2⟩
  simp only [beq_eq_false_iff_ne] at h3
  simp [PtEntry.eligible, h1, h3, h4, h5]

theorem PtEntry.validEntry_of_not_eligible {e : PtEntry} (h : e.eligible = false) :
    e.validEntry = true := by
  cases hv : e.validEntry with
  | true => rfl
  | false =>
    rw [(PtEntry.eligible_of_not_validEntry hv).1] at h
    cases h

theorem PtEntry.Spent.not_validEntry {e : PtEntry} (h : e.Spent) : e.validEntry = false := by
  obtain ⟨h1, h2⟩ := h
  simp only [PtEntry.eligible, Bool.and_eq_true, Bool.not_eq_true', bne_iff_ne] at h1
  rw [Bool.and_comm] at h2
  simp [PtEntry.validEntry, h1.1.1.1, h1.1.1.2, h1.1.2, h1.2, h2]

theorem PtEntry.Spent.of_isFree {e : PtEntry} (h : e.isFree = true) : e.Spent := by
  simp only [PtEntry.isFree, Bool.and_eq_true, Bool.not_eq_true', bne_iff_ne] at h
  obtain ⟨⟨⟨⟨h1, h2⟩, h3⟩, h4⟩, h5⟩ := h
  simp [PtEntry.Spent, PtEntry.eligible, h1, h2, h3, h4, h5]

/-- What a sweep leaves of an entry that it passes. -/
def PtEntry.passed (e : PtEntry) : PtEntry :=
  if e.eligible && e.ctrl.reference && e.ctrl.validity then e.setReference false else e

/-- The entries when a sweep that began at `lo` reaches frame `k`. -/
def passed (E : Nat → PtEntry) (lo k : Nat) : Nat → PtEntry :=
  fun j => if lo ≤ j ∧ j < k then (E j).passed else E j

theorem PtEntry.Spent.passed {e : PtEntry} (h : e.Spent) : e.passed = e := by
  obtain ⟨-, h⟩ := h
  rw [PtEntry.passed, if_neg]
  rw [Bool.and_assoc, h, Bool.and_false]
  exact Bool.false_ne_true

theorem PtEntry.passed_of_not_eligible {e : PtEntry} (h : e.eligible = false) : e.passed = e := by
  simp [PtEntry.passed, h]

theorem PtEntry.passed_spent {e : PtEntry} (h : e.eligible = true) : e.passed.Spent := by
  unfold PtEntry.passed
  split
  · exact ⟨h, rfl⟩
  · rename_i hr
    refine ⟨h, ?_⟩
    simpa [h] using hr

theorem PtEntry.passed_validEntry (e : PtEntry) : e.passed.validEntry = !e.eligible := by
  cases h : e.eligible with
  | true => rw [(PtEntry.passed_spent h).not_validEntry]; rfl
  | false =>
    rw [PtEntry.passed_of_not_eligible h, PtEntry.validEntry_of_not_eligible h]
    rfl

theorem passed_self (E : Nat → PtEntry) (lo : Nat) : passed E lo lo = E := by
  funext j
  simp only [passed, ite_eq_right_iff, and_imp]
  omega

theorem passed_of_spent {E : Nat → PtEntry} (h : (E j).Spent) (lo k : Nat) : passed E lo k j = E j := by
  simp [passed, h.passed]

theorem passed_at (E : Nat → PtEntry) (lo k : Nat) : passed E lo k k = E k := by
  simp [passed]

theorem passed_spent_of_eligible {E : Nat → PtEntry} (hj : j < N)
    (h : (passed E 0 N j).eligible = true) : (passed E 0 N j).Spent := by
  have hin : passed E 0 N j = (E j).passed := by simp [passed, hj]
  rw [hin] at h ⊢
  cases hel : (E j).eligible with
  | true => exact PtEntry.passed_spent hel
  | false =>
    rw [PtEntry.passed_of_not_eligible hel, hel] at h
    cases h

theorem passed_succ (E : Nat → PtEntry) (h : lo ≤ k) :
    passed E lo (k + 1) = Function.update (passed E lo k) k (E k).passed := by
  funext j
  by_cases hj : j = k
  · subst hj
    rw [Function.update_self]
    simp [passed, h]
  · rw [Function.update_of_ne hj]
    have hiff : lo ≤ j ∧ j < k + 1 ↔ lo ≤ j ∧ j < k := by omega
    simp only [passed, hiff]

theorem passed_succ_same {E : Nat → PtEntry} (h : lo ≤ k) (hk : (E k).passed = E k) :
    passed E lo (k + 1) = passed E lo k := by
  rw [passed_succ E h, hk, ← passed_at E lo k, Function.update_eq_self]

/-- A sweep from `lo` notes frame `k` as `first_pos`: the frame is spent, and it is the first one
or the entry before it is not available. Where the sweep has passed that entry, only an entry that
is not eligible is still not available. -/
def Noted (E : Nat → PtEntry) (lo k : Nat) : Prop :=
  (E k).Spent ∧ (k = 0 ∨ (k ≤ lo ∧ (E (k - 1)).validEntry = true) ∨
    (lo < k ∧ (E (k - 1)).eligible = false))

/-- The value of `first_pos` when a sweep from `lo` that began with `fp` reaches frame `k`. -/
def FirstPos (E : Nat → PtEntry) (lo : Nat) (fp : Option Nat) (k f : Nat) : Prop :=
  (lo ≤ f ∧ f < k ∧ Noted E lo f ∧ ∀ j, f < j → j < k → ¬ Noted E lo j) ∨
    (fp = some f ∧ ∀ j, lo ≤ j → j < k → ¬ Noted E lo j)

/-- Frame `i` passes for the last of `n` frames from `f`. -/
def Stops (E : Nat → PtEntry) (lo : Nat) (fp : Option Nat) (n f i : Nat) : Prop :=
  lo ≤ i ∧ (E i).Spent ∧ FirstPos E lo fp (i + 1) f ∧ i + 1 = f + n

/-- A sweep from `lo` settles on the first block that passes. -/
def Settles (E : Nat → PtEntry) (N lo : Nat) (fp : Option Nat) (n f i : Nat) : Prop :=
  i < N ∧ Stops E lo fp n f i ∧ ∀ g j, j < i → ¬ Stops E lo fp n g j

theorem startsRun_passed {E : Nat → PtEntry} (h : lo ≤ k) (hk : (E k).Spent) :
    startsRun (passed E lo k) k = true ↔ Noted E lo k := by
  simp only [startsRun, Bool.or_eq_true, beq_iff_eq, Noted, hk, true_and]
  by_cases hlt : lo < k
  · have hprev : passed E lo k (k - 1) = (E (k - 1)).passed := by
      have hin : lo ≤ k - 1 ∧ k - 1 < k := by omega
      simp [passed, hin]
    rw [hprev, PtEntry.passed_validEntry, Bool.not_eq_true']
    simp [hlt, Nat.not_le_of_gt hlt]
  · have heq : k = lo := by omega
    subst heq
    simp [passed_self]

theorem firstPos_start : FirstPos E lo fp lo f ↔ fp = some f := by
  constructor
  · rintro (⟨h1, h2, -⟩ | ⟨h, -⟩)
    · omega
    · exact h
  · intro h
    exact .inr ⟨h, fun j hj hj' => by omega⟩

theorem Noted.firstPos (h : Noted E lo k) (hk : lo ≤ k) : FirstPos E lo fp (k + 1) f ↔ f = k := by
  constructor
  · rintro (⟨h1, h2, h3, h4⟩ | ⟨-, h2⟩)
    · by_contra hne
      exact h4 k (by omega) (by omega) h
    · exact (h2 k hk (by omega) h).elim
  · rintro rfl
    exact .inl ⟨hk, by omega, h, fun j hj hj' => by omega⟩

theorem firstPos_next (h : ¬ Noted E lo k) :
    FirstPos E lo fp (k + 1) f ↔ FirstPos E lo fp k f := by
  have hlast : ∀ j, j < k + 1 → Noted E lo j → j < k := by
    intro j hj hn
    have hjk : j ≠ k := fun he => h (he ▸ hn)
    omega
  constructor
  · rintro (⟨h1, h2, h3, h4⟩ | ⟨h1, h2⟩)
    · exact .inl ⟨h1, hlast f h2 h3, h3, fun j hj hj' => h4 j hj (by omega)⟩
    · exact .inr ⟨h1, fun j hj hj' => h2 j hj (by omega)⟩
  · rintro (⟨h1, h2, h3, h4⟩ | ⟨h1, h2⟩)
    · exact .inl ⟨h1, by omega, h3, fun j hj hj' hn => h4 j hj (hlast j hj' hn) hn⟩
    · exact .inr ⟨h1, fun j hj hj' hn => h2 j hj (hlast j hj' hn) hn⟩

/-- What a sweep does from frame `k` on. -/
def SweptFrom (E : Nat → PtEntry) (N lo : Nat) (fp : Option Nat) (n : Nat) :
    (Nat → PtEntry) × Option (Nat × Nat) → Prop
  | (E', some (f, i)) => Settles E N lo fp n f i ∧ E' = passed E lo i
  | (E', none) => E' = passed E lo N ∧ ∀ f i, i < N → ¬ Stops E lo fp n f i

/-- A sweep settles on the first block that passes, if there is one, and takes the second chance
of the eligible frames on its way. -/
theorem chanceSweep_spec {E : Nat → PtEntry} (hk : lo ≤ k)
    (hfp : ∀ f, fp' = some f ↔ FirstPos E lo fp k f)
    (hno : ∀ f i, i < k → ¬ Stops E lo fp n f i) :
    SweptFrom E (k + m) lo fp n (chanceSweep n (passed E lo k) (List.range' k m) fp') := by
  induction m generalizing k fp' with
  | zero => exact ⟨rfl, hno⟩
  | succ m ih =>
    rw [List.range'_succ, chanceSweep, passed_at, show k + (m + 1) = k + 1 + m by omega]
    have hgo : ∀ {fp''}, (∀ f, fp'' = some f ↔ FirstPos E lo fp (k + 1) f) →
        (∀ f, ¬ Stops E lo fp n f k) → SweptFrom E (k + 1 + m) lo fp n
          (chanceSweep n (passed E lo (k + 1)) (List.range' (k + 1) m) fp'') := by
      intro fp'' hfp'' hstop
      apply ih (by omega) hfp''
      intro f i hi
      by_cases hik : i = k
      · rw [hik]
        exact hstop f
      · exact hno f i (by omega)
    -- a frame that is not spent neither ends a block nor is it noted
    have hskip : ¬ (E k).Spent → SweptFrom E (k + 1 + m) lo fp n
        (chanceSweep n (passed E lo (k + 1)) (List.range' (k + 1) m) fp') := by
      intro hsp
      apply hgo
      · intro f
        rw [hfp f, firstPos_next fun hn => hsp hn.1]
      · exact fun f hs => hsp hs.2.1
    split
    · rename_i hel
      split
      · rename_i href
        have hpass : (E k).passed = (E k).setReference false := by
          rw [PtEntry.passed, hel, Bool.true_and, if_pos href]
        rw [← hpass, ← passed_succ E hk]
        exact hskip fun hsp => by rw [hsp.2] at href; cases href
      · rename_i href
        have hsp : (E k).Spent := ⟨hel, by simpa using href⟩
        have hfp'' : ∀ f, (if startsRun (passed E lo k) k = true then some k else fp') = some f ↔
            FirstPos E lo fp (k + 1) f := by
          intro f
          by_cases hn : Noted E lo k
          · rw [if_pos ((startsRun_passed hk hsp).2 hn), hn.firstPos hk, Option.some_inj]
            exact eq_comm
          · rw [if_neg fun h => hn ((startsRun_passed hk hsp).1 h), hfp f, firstPos_next hn]
        rw [← passed_succ_same hk hsp.passed]
        rw [← passed_succ_same hk hsp.passed] at hfp''
        simp only
        generalize (if startsRun (passed E lo (k + 1)) k = true then some k else fp') = fp''
          at hfp''
        cases fp'' with
        | none =>
          apply hgo hfp''
          intro f hs
          cases (hfp'' f).2 hs.2.2.1
        | some g =>
          simp only
          split
          · rename_i hlen
            rw [beq_iff_eq] at hlen
            exact ⟨⟨by omega, ⟨hk, hsp, (hfp'' g).1 rfl, hlen⟩, hno⟩,
              passed_succ_same hk hsp.passed⟩
          · rename_i hlen
            rw [beq_iff_eq] at hlen
            apply hgo hfp''
            intro f hs
            cases (hfp'' f).2 hs.2.2.1
            exact hlen hs.2.2.2
    · rename_i hel
      rw [← passed_succ_same hk (PtEntry.passed_of_not_eligible (by simpa using hel))]
      exact hskip fun hsp => hel hsp.1

theorem chanceSweep_swept (n : Nat) (E : Nat → PtEntry) (lo N : Nat) (fp : Option Nat) :
    SweptFrom E N lo fp n (chanceSweep n E (List.range' lo (N - lo)) fp) := by
  have hstart : ∀ f, fp = some f ↔ FirstPos E lo fp lo f := fun f => firstPos_start.symm
  have hno : ∀ f i, i < lo → ¬ Stops E lo fp n f i := by
    intro f i hi hs
    have := hs.1
    omega
  have h := chanceSweep_spec (m := N - lo) (Nat.le_refl lo) hstart hno
  rw [passed_self] at h
  by_cases hN : lo ≤ N
  · rwa [Nat.add_sub_cancel' hN] at h
  · -- an empty sweep
    rw [show N - lo = 0 by omega]
    refine ⟨?_, fun f i hi => hno f i (by omega)⟩
    funext j
    have hout : ¬ (lo ≤ j ∧ j < N) := by omega
    simp [passed, hout]

/-- The entries after a sweep from `lastIndex` that settles on nothing. -/
def PageTable.swept (pt : PageTable) : Nat → PtEntry := passed pt.entries pt.lastIndex pt.nEntry

/-- The search finds what its first sweep settles on, else what the second one does, and else
what the third one settles on with no second chance left anywhere. -/
theorem PageTable.chanceSearch_found {pt : PageTable}
    (h : pt.chanceSearch n fp = (E', some (f, i))) :
    (Settles pt.entries pt.nEntry pt.lastIndex fp n f i ∧
      E' = passed pt.entries pt.lastIndex i) ∨
    ((∀ g j, ¬ Settles pt.entries pt.nEntry pt.lastIndex fp n g j) ∧
      Settles pt.swept pt.nEntry 0 none n f i ∧ E' = passed pt.swept 0 i) ∨
    (Settles (passed pt.swept 0 pt.nEntry) pt.nEntry 0 none n f i ∧
      E' = passed (passed pt.swept 0 pt.nEntry) 0 i) := by
  have hfirst := chanceSweep_swept n pt.entries pt.lastIndex pt.nEntry fp
  have hnext := fun E => chanceSweep_swept n E 0 pt.nEntry none
  simp only [Nat.sub_zero, ← List.range_eq_range'] at hnext
  unfold PageTable.chanceSearch at h
  split at h
  · rename_i he
    cases h
    rw [he] at hfirst
    exact .inl hfirst
  · rename_i E he
    rw [he] at hfirst
    obtain ⟨rfl, hno⟩ := hfirst
    have hsecond := hnext (passed pt.entries pt.lastIndex pt.nEntry)
    split at h
    · rename_i he₁
      cases h
      rw [he₁] at hsecond
      exact .inr (.inl ⟨fun g j hs => hno g j hs.1 hs.2.1, hsecond⟩)
    · rename_i E₁ he₁
      rw [he₁] at hsecond
      have hthird := hnext E₁
      rw [h, hsecond.1] at hthird
      exact .inr (.inr hthird)

/-- A block of eligible frames. -/
def EligibleRun (E : Nat → PtEntry) (N n a : Nat) : Prop :=
  a + n ≤ N ∧ ∀ j, a ≤ j → j < a + n → (E j).eligible = true

theorem EligibleRun.start (h : EligibleRun E N n a) :
    ∃ b, EligibleRun E N n b ∧ (b = 0 ∨ 0 < b ∧ (E (b - 1)).eligible = false) := by
  induction a with
  | zero => exact ⟨0, h, .inl rfl⟩
  | succ a ih =>
    cases hel : (E a).eligible with
    | true =>
      apply ih
      refine ⟨by have := h.1; omega, fun j hj hj' => ?_⟩
      by_cases hja : j = a
      · rwa [hja]
      · exact h.2 j (by omega) (by omega)
    | false => exact ⟨a + 1, h, .inr ⟨by omega, hel⟩⟩

/-- Over spent frames a sweep from the first frame recognises an eligible block. -/
theorem EligibleRun.stops (h : EligibleRun E N n a) (hn : 1 ≤ n)
    (hsp : ∀ j < N, (E j).eligible = true → (E j).Spent) : ∃ f i, i < N ∧ Stops E 0 none n f i := by
  obtain ⟨b, hb, hstart⟩ := h.start
  have hspent : ∀ j, b ≤ j → j < b + n → (E j).Spent := by
    intro j hj hj'
    exact hsp j (by have := hb.1; omega) (hb.2 j hj hj')
  refine ⟨b, b + n - 1, by have := hb.1; omega, Nat.zero_le _, hspent _ (by omega) (by omega), ?_,
    by omega⟩
  refine .inl ⟨Nat.zero_le b, by omega, ⟨hspent b (by omega) (by omega), ?_⟩, ?_⟩
  · cases hstart with
    | inl h0 => exact .inl h0
    | inr h0 => exact .inr (.inr h0)
  · intro j hj hj' hnoted
    have hprev := hb.2 (j - 1) (by omega) (by omega)
    obtain ⟨-, h0 | ⟨h0, -⟩ | ⟨-, h0⟩⟩ := hnoted
    · omega
    · omega
    · rw [hprev] at h0
      cases h0

theorem EligibleRun.sameButRef (h : EligibleRun E N n a) (hs : ∀ j, SameButRef (E j) (E' j)) :
    EligibleRun E' N n a := by
  apply And.intro h.1
  intro j hj hj'
  obtain ⟨b, hb⟩ := hs j
  rw [hb]
  exact h.2 j hj hj'

/-- The search gives up only if there is no block of eligible frames: after two sweeps no
frame has a second chance left, and the third one starts from the first frame. -/
theorem PageTable.chanceSearch_none {pt : PageTable} (hn : 1 ≤ n)
    (h : pt.chanceSearch n fp = (E', none)) : ¬ ∃ a, EligibleRun pt.entries pt.nEntry n a := by
  intro hrun
  obtain ⟨a, ha⟩ := hrun
  have hnext := fun E => chanceSweep_swept n E 0 pt.nEntry none
  simp only [Nat.sub_zero, ← List.range_eq_range'] at hnext
  unfold PageTable.chanceSearch at h
  split at h
  · cases h
  · rename_i E he
    split at h
    · cases h
    · rename_i E₁ he₁
      have hsecond := hnext E
      have hthird := hnext E₁
      rw [he₁] at hsecond
      rw [h] at hthird
      have href : ∀ j, SameButRef (pt.entries j) (E₁ j) := by
        intro j
        have h1 := chanceSweep_sameButRef n pt.entries
          (List.range' pt.lastIndex (pt.nEntry - pt.lastIndex)) fp j
        have h2 := chanceSweep_sameButRef n E (List.range pt.nEntry) none j
        rw [he] at h1
        rw [he₁] at h2
        exact h1.trans h2
      obtain ⟨f, i, hi, hs⟩ := (ha.sameButRef href).stops hn fun j hj hel => by
        rw [hsecond.1] at hel ⊢
        exact passed_spent_of_eligible hj hel
      exact hthird.2 f i hi hs

/-- What the marking loop relies on: each frame from `a` to `b` that it reaches before it stores a
page is spent. -/
def Ready (E : Nat → PtEntry) (a b : Nat) : Prop :=
  ∀ j, a ≤ j → j < b → (∀ i, a ≤ i → i < j → (E i).ctrl.validity = false) → (E j).Spent

/-- The blocks that the first two sweeps settle on are ready for the marking loop. -/
structure PageTable.Straight (pt : PageTable) (n : Nat) (fp : Option Nat) : Prop where
  first : ∀ f i, Settles pt.entries pt.nEntry pt.lastIndex fp n f i → Ready pt.swept f (f + n)
  second : (∀ f i, ¬ Settles pt.entries pt.nEntry pt.lastIndex fp n f i) →
    ∀ f i, Settles pt.swept pt.nEntry 0 none n f i →
      Ready (passed pt.swept 0 pt.nEntry) f (f + n)

theorem Settles.passed_eq (h : Settles E N lo fp n f i) (hj : j ≤ i) :
    passed E lo N j = passed E lo i j := by
  obtain ⟨hi, ⟨hlo, hsp, -⟩, -⟩ := h
  by_cases hji : j = i
  · subst hji
    rw [passed_of_spent hsp, passed_at]
  · have hiff : lo ≤ j ∧ j < N ↔ lo ≤ j ∧ j < i := by omega
    simp only [passed, hiff]

theorem Ready.congr (h : Ready E a b) (hE : ∀ j, a ≤ j → j < b → E' j = E j) : Ready E' a b := by
  intro j hj hj' hv
  rw [hE j hj hj']
  refine h j hj hj' fun i hi hij => ?_
  rw [← hE i hi (by omega)]
  exact hv i hi hij

/-- Behind a frame without a page the loop goes on. -/
theorem Ready.tail (h : Ready E a b) (hv : (E a).ctrl.validity = false) : Ready E (a + 1) b := by
  intro j hj hj' hfree
  apply h j (by omega) hj'
  intro i hi hij
  by_cases hia : i = a
  · rwa [hia]
  · exact hfree i (by omega) hij

/-- A block of at most three frames that a sweep settles on is spent: its first frame was spent
when it was noted, and the frame before its last one does not start a run. -/
theorem Settles.spent (h : Settles E N lo fp n f i) (hfp : ∀ g, fp = some g → (E g).Spent)
    (hn : n ≤ 3) (hj : f ≤ j) (hj' : j ≤ i) : (passed E lo i j).Spent := by
  obtain ⟨hi, ⟨hlo, hsp, hpos, hlen⟩, -⟩ := h
  have hkeep : ∀ k, (E k).Spent → (passed E lo i k).Spent := by
    intro k hk
    rwa [passed_of_spent hk]
  have hend : j = f ∨ j = i ∨ (j + 1 = i ∧ f < j) := by omega
  rcases hend with rfl | rfl | ⟨hj1, hfj⟩
  · apply hkeep
    obtain ⟨-, -, hf, -⟩ | ⟨hf, -⟩ := hpos
    · exact hf.1
    · exact hfp j hf
  · exact hkeep j hsp
  · have hnot : ¬ Noted E lo i := by
      obtain ⟨-, -, -, hlast⟩ | ⟨-, hlast⟩ := hpos
      · exact hlast i (by omega) (by omega)
      · exact hlast i hlo (by omega)
    have hji : j = i - 1 := by omega
    by_cases hlt : lo < i
    · have hin : lo ≤ j ∧ j < i := by omega
      have hel : (E j).eligible = true := by
        by_contra hel
        exact hnot ⟨hsp, .inr (.inr ⟨hlt, by rw [← hji]; simpa using hel⟩)⟩
      simpa only [passed, hin, and_self, if_true] using PtEntry.passed_spent hel
    · have hout : ¬ (lo ≤ j ∧ j < i) := by omega
      simp only [passed, hout, if_false]
      apply PtEntry.eligible_of_not_validEntry
      by_contra hv
      exact hnot ⟨hsp, .inr (.inl ⟨by omega, by rw [← hji]; simpa using hv⟩)⟩

/-- With no second chance left, the block a sweep from the first frame settles on is spent: the
frame behind one that is not eligible would be noted. -/
theorem Settles.spent_of_eligible (h : Settles E N 0 none n f i)
    (hsp : ∀ j < N, (E j).eligible = true → (E j).Spent) (hj : f ≤ j) (hj' : j ≤ i) :
    (E j).Spent := by
  obtain ⟨hi, ⟨-, hi', hpos, -⟩, -⟩ := h
  obtain ⟨-, hfi, hf, hlast⟩ | ⟨hf, -⟩ := hpos
  · obtain ⟨d, hd⟩ : ∃ d, i = j + d := ⟨i - j, by omega⟩
    induction d generalizing j with
    | zero =>
      have hji : j = i := by omega
      rwa [hji]
    | succ d ih =>
      have hnext := ih (j := j + 1) (by omega) (by omega) (by omega)
      apply hsp j (by omega)
      by_contra hel
      exact hlast (j + 1) (by omega) (by omega)
        ⟨hnext, .inr (.inr ⟨by omega, by simpa using hel⟩)⟩
  · cases hf

theorem Settles.start (h : Settles E N lo fp n f i) : fp = some f ∨ startsRun E f = true := by
  obtain ⟨-, ⟨-, -, hpos, -⟩, -⟩ := h
  obtain ⟨-, -, ⟨-, h0 | ⟨-, hv⟩ | ⟨-, hel⟩⟩, -⟩ | ⟨hf, -⟩ := hpos
  · exact .inr (by simp [startsRun, h0])
  · exact .inr (by simp [startsRun, hv])
  · exact .inr (by simp [startsRun, PtEntry.validEntry_of_not_eligible hel])
  · exact .inl hf

theorem startsRun_of_passed (h : startsRun (passed E lo k) f = true) : startsRun E f = true := by
  simp only [startsRun, Bool.or_eq_true] at h ⊢
  refine h.imp_right fun hv => ?_
  unfold passed at hv
  split at hv
  · rw [PtEntry.passed_validEntry, Bool.not_eq_true'] at hv
    exact PtEntry.validEntry_of_not_eligible hv
  · exact hv

theorem PageTable.chanceSearch_start {pt : PageTable}
    (h : pt.chanceSearch n fp = (E', some (f, i))) : fp = some f ∨ startsRun pt.entries f = true := by
  obtain ⟨hs, -⟩ | ⟨-, hs, -⟩ | ⟨hs, -⟩ := pt.chanceSearch_found h
  · exact hs.start
  · obtain hf | hs := hs.start
    · cases hf
    · exact .inr (startsRun_of_passed hs)
  · obtain hf | hs := hs.start
    · cases hf
    · exact .inr (startsRun_of_passed (startsRun_of_passed hs))

theorem PageTable.chanceSearch_length {pt : PageTable}
    (h : pt.chanceSearch n fp = (E', some (f, i))) : i + 1 = f + n := by
  obtain ⟨hs, -⟩ | ⟨-, hs, -⟩ | ⟨hs, -⟩ := pt.chanceSearch_found h
  · exact hs.2.1.2.2.2
  · exact hs.2.1.2.2.2
  · exact hs.2.1.2.2.2

/-- A straight search finds a block that is ready for the marking loop. -/
theorem PageTable.Straight.ready {pt : PageTable} (hst : pt.Straight n fp)
    (h : pt.chanceSearch n fp = (E', some (f, i))) : Ready E' f (f + n) := by
  have hlen := pt.chanceSearch_length h
  obtain ⟨hs, rfl⟩ | ⟨hno, hs, rfl⟩ | ⟨hs, rfl⟩ := pt.chanceSearch_found h
  · exact (hst.first f i hs).congr fun j _ hj => (hs.passed_eq (by omega)).symm
  · exact (hst.second hno f i hs).congr fun j _ hj => (hs.passed_eq (by omega)).symm
  · intro j hj hj' _
    have hjs := hs.spent_of_eligible (fun k hk => passed_spent_of_eligible hk) hj (by omega)
    rwa [passed_of_spent hjs]

theorem PageTable.chanceSearch_spent {pt : PageTable}
    (hfp : ∀ f, fp = some f → (pt.entries f).Spent) (hn : n ≤ 3)
    (h : pt.chanceSearch n fp = (E', some (f, i))) (hj : f ≤ j) (hj' : j ≤ i) : (E' j).Spent := by
  have hnone : ∀ (E : Nat → PtEntry) g, (none : Option Nat) = some g → (E g).Spent := by
    intro E g hg
    cases hg
  obtain ⟨hs, rfl⟩ | ⟨-, hs, rfl⟩ | ⟨hs, rfl⟩ := pt.chanceSearch_found h
  · exact hs.spent hfp hn hj hj'
  · exact hs.spent (hnone _) hn hj hj'
  · exact hs.spent (hnone _) hn hj hj'

/-- Every search for at most three frames is straight. -/
theorem PageTable.Straight.of_le {pt : PageTable} (hfp : ∀ f, fp = some f → (pt.entries f).Spent)
    (hn : n ≤ 3) : pt.Straight n fp where
  first f i hs j hj hj' _ := by
    have hlen := hs.2.1.2.2.2
    rw [PageTable.swept, hs.passed_eq (by omega)]
    exact hs.spent hfp hn hj (by omega)
  second _ f i hs j hj hj' _ := by
    have hlen := hs.2.1.2.2.2
    rw [hs.passed_eq (by omega)]
    exact hs.spent (by simp) hn hj (by omega)

/-- Frames `f` to `f + n - 1` as the first search sees a free block: both ends are free, `f`
starts a run and none of the others does. -/
def FreeBlock (E : Nat → PtEntry) (n f : Nat) : Prop :=
  (E f).isFree = true ∧ startsRun E f = true ∧ (E (f + n - 1)).isFree = true ∧
    ∀ j, f < j → j < f + n → ¬ ((E j).isFree = true ∧ startsRun E j = true)

/-- What the first search knows about `first_pos` when it reaches frame `k`. -/
def LastStart (E : Nat → PtEntry) (k : Nat) (fp : Option Nat) : Prop :=
  ∀ f, fp = some f → (E f).isFree = true ∧ startsRun E f = true ∧ f < k ∧
    ∀ j, f < j → j < k → ¬ ((E j).isFree = true ∧ startsRun E j = true)

theorem LastStart.next (h : LastStart E k fp) :
    LastStart E (k + 1) (if (E k).isFree && startsRun E k then some k else fp) := by
  intro f hf
  split at hf
  · rename_i hk
    cases hf
    rw [Bool.and_eq_true] at hk
    exact ⟨hk.1, hk.2, by omega, fun j hj hj' => by omega⟩
  · rename_i hk
    obtain ⟨h1, h2, h3, h4⟩ := h f hf
    refine ⟨h1, h2, by omega, fun j hj hj' => ?_⟩
    by_cases hjk : j = k
    · subst hjk
      simpa using hk
    · exact h4 j hj (by omega)

theorem freeRun_spec {E : Nat → PtEntry} (hfp : LastStart E k fp) :
    (∀ f i, freeRun E n (List.range' k m) fp = .inr (f, i) → FreeBlock E n f) ∧
    ∀ fp', freeRun E n (List.range' k m) fp = .inl fp' → ∀ f, fp' = some f → (E f).isFree = true := by
  induction m generalizing k fp with
  | zero =>
    apply And.intro
    · intro f i h
      cases h
    · intro fp' h f hf
      cases h
      exact (hfp f hf).1
  | succ m ih =>
    obtain ⟨ih1, ih2⟩ := ih hfp.next
    rw [List.range'_succ, freeRun]
    have hnext := hfp.next
    generalize (if (E k).isFree && startsRun E k then some k else fp) = fp₁ at ih1 ih2 hnext
    cases fp₁ with
    | none => exact ⟨ih1, ih2⟩
    | some g =>
      simp only
      split
      · rename_i hc
        simp only [Bool.and_eq_true, beq_iff_eq] at hc
        obtain ⟨h1, h2, h3, h4⟩ := hnext g rfl
        apply And.intro
        · intro f i h
          simp only [Sum.inr.injEq, Prod.mk.injEq] at h
          obtain ⟨rfl, -⟩ := h
          have hk : g + n - 1 = k := by omega
          exact ⟨h1, h2, hk ▸ hc.1, fun j hj hj' => h4 j hj (by omega)⟩
        · intro fp' h
          cases h
      · exact ⟨ih1, ih2⟩

/-- The `first_pos` that the first search leaves to the second one: the last frame that starts a
run of free frames. -/
def LeftOver (E : Nat → PtEntry) (N : Nat) (fp : Option Nat) : Prop :=
  ∀ f, fp = some f ↔ f < N ∧ ((E f).isFree = true ∧ startsRun E f = true) ∧
    ∀ j, f < j → j < N → ¬ ((E j).isFree = true ∧ startsRun E j = true)

theorem LeftOver.spent (h : LeftOver E N fp) : ∀ f, fp = some f → (E f).Spent :=
  fun f hf => .of_isFree ((h f).1 hf).2.1.1

theorem LeftOver.next (h : LeftOver E k fp) :
    LeftOver E (k + 1) (if (E k).isFree && startsRun E k then some k else fp) := by
  intro f
  by_cases hk : (E k).isFree = true ∧ startsRun E k = true
  · rw [if_pos (by simp [hk]), Option.some_inj]
    constructor
    · rintro rfl
      exact ⟨by omega, hk, fun j hj hj' => by omega⟩
    · rintro ⟨hf, -, hlast⟩
      by_contra hne
      exact hlast k (by omega) (by omega) hk
  · rw [if_neg (by simpa using hk), h f]
    constructor
    · rintro ⟨hf, hs, hlast⟩
      refine ⟨by omega, hs, fun j hj hj' => ?_⟩
      by_cases hjk : j = k
      · rwa [hjk]
      · exact hlast j hj (by omega)
    · rintro ⟨hf, hs, hlast⟩
      have hfk : f ≠ k := fun he => hk (he ▸ hs)
      exact ⟨by omega, hs, fun j hj hj' => hlast j hj (by omega)⟩

theorem freeRun_leftOver {E : Nat → PtEntry} (h : freeRun E n (List.range N) none = .inl fp) :
    LeftOver E N fp := by
  have hstart : LeftOver E 0 none := by
    intro f
    constructor
    · intro hf
      cases hf
    · rintro ⟨hf, -⟩
      omega
  suffices hs : ∀ m k fp', LeftOver E k fp' → freeRun E n (List.range' k m) fp' = .inl fp →
      LeftOver E (k + m) fp by
    have := hs N 0 none hstart (by rwa [← List.range_eq_range'])
    rwa [Nat.zero_add] at this
  intro m
  induction m with
  | zero =>
    intro k fp' hfp h
    cases h
    exact hfp
  | succ m ih =>
    intro k fp' hfp h
    rw [List.range'_succ, freeRun] at h
    rw [show k + (m + 1) = k + 1 + m by omega]
    split at h
    · split at h
      · cases h
      · exact ih _ _ hfp.next h
    · exact ih _ _ hfp.next h

/-- The last frame of what the second search finds is spent, whatever it started from. -/
theorem chanceSweep_last {E : Nat → PtEntry} (h : chanceSweep n E l fp = (E', some (f, i))) :
    (E' i).Spent := by
  induction l generalizing E fp with
  | nil => cases h
  | cons k r ih =>
    rw [chanceSweep] at h
    split at h
    · rename_i hel
      split at h
      · exact ih h
      · rename_i href
        simp only at h
        split at h
        · split at h
          · cases h
            exact ⟨hel, by simpa using href⟩
          · exact ih h
        · exact ih h
    · exact ih h

theorem PageTable.chanceSearch_last {pt : PageTable}
    (h : pt.chanceSearch n fp = (E, some (f, i))) : (E i).Spent := by
  unfold PageTable.chanceSearch at h
  split at h
  · rename_i hs
    cases h
    exact chanceSweep_last hs
  · split at h
    · rename_i hs
      cases h
      exact chanceSweep_last hs
    · exact chanceSweep_last h

theorem freeRun_last {E : Nat → PtEntry} (h : freeRun E n l fp = .inr (f, i)) :
    i ∈ l ∧ (E i).isFree = true := by
  induction l generalizing fp with
  | nil => cases h
  | cons j l ih =>
    rw [freeRun] at h
    generalize (if (E j).isFree && startsRun E j then some j else fp) = fp' at h
    cases fp' with
    | none =>
      obtain ⟨hm, hi⟩ := ih h
      exact ⟨List.mem_cons_of_mem _ hm, hi⟩
    | some g =>
      simp only at h
      split at h
      · rename_i hc
        cases h
        simp only [Bool.and_eq_true] at hc
        exact ⟨List.mem_cons_self, hc.1⟩
      · obtain ⟨hm, hi⟩ := ih h
        exact ⟨List.mem_cons_of_mem _ hm, hi⟩

end Clape
