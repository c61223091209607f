import Clape.Tallies
import Clape.Menu
import Clape.FrameRuns

namespace Clape
set_option autoImplicit true

/-- The thread is inside `vm_fault`. -/
def Pc.faulting (c : Pc) : Bool := c.role.aim.isSome

/-- The fault is not counted as a page fault yet. -/
def Pc.uncounted : Pc → Bool
  | .findVictim _ _ | .victimWait _ _ _ | .storeSwap (.victim _) _ _ _ | .storing (.victim _) _ _
  | .stored (.victim _) _ | .loadPage _ _ | .cell (.load _ _) _ | .cellWait (.load _ _) _ _ => true
  | _ => false

/-- The page comes from a file or from the swap file, and is not counted as one or the
other yet. -/
def Pc.fetching : Pc → Bool
  | .reading _ _ _ | .elfReading _ _ => true
  | _ => false

/-- A page that passes the test of the text segment and lies behind the part of the segment
that the executable holds. -/
def AddrSpace.PastText (A : AddrSpace) (v : Nat) : Prop :=
  A.inText v = true ∧ ¬ (A.initialOffset1 ≠ 0 ∧ u32Sub v A.vbase1 = 0) ∧
    toInt32 (A.ph1.pFilesz + A.initialOffset1) - toInt32 (u32Sub v A.vbase1) < 0

theorem AddrSpace.pastText_of_zero {A : AddrSpace} (ht : A.inText v = true)
    (hz : A.loadPlan v = .zero) : A.PastText v := by
  unfold AddrSpace.loadPlan ElfPhdr.loadPlan at hz
  rw [if_pos ht] at hz
  simp only at hz
  split at hz
  · cases hz
  · rename_i hoff
    split at hz
    · rename_i hlt
      exact ⟨ht, hoff, hlt⟩
    · split at hz <;> cases hz

/-- The same number is added on both sides of the three relations, faults under way taken
into account. -/
structure Balance (x : Stats) (c : Pc) (y : Stats) (d : Pc) : Prop where
  tlb : y.tlbFaults + (x.tlbFreeFaults + x.tlbReplaceFaults) + c.faulting.toNat =
    x.tlbFaults + (y.tlbFreeFaults + y.tlbReplaceFaults) + d.faulting.toNat
  page : y.tlbFaults + (x.tlbReloads + x.pageDiskFaults + x.pageZeroedFaults) +
      c.uncounted.toNat =
    x.tlbFaults + (y.tlbReloads + y.pageDiskFaults + y.pageZeroedFaults) + d.uncounted.toNat
  disk : y.pageDiskFaults + (x.pageElfFaults + x.pageSwapfileFaults) + c.fetching.toNat =
    x.pageDiskFaults + (y.pageElfFaults + y.pageSwapfileFaults) + d.fetching.toNat

theorem Balance.flat (x : Stats) (hf : d.faulting = c.faulting) (hu : d.uncounted = c.uncounted)
    (hd : d.fetching = c.fetching) : Balance x c x d := by
  constructor
  · rw [hf]
  · rw [hu]
  · rw [hd]

theorem Balance.writes {y : Stats} (h : Balance x c y d) (n k : Nat) :
    Balance x c { y with swapfileWrites := n, tlbInvalidations := k } d :=
  ⟨h.tlb, h.page, h.disk⟩

theorem Balance.start (x : Stats) (hf : d.faulting = true) (hu : d.uncounted = true)
    (hd : d.fetching = false) : Balance x .run { x with tlbFaults := x.tlbFaults + 1 } d := by
  constructor
  · rw [hf]
    change x.tlbFaults + 1 + (x.tlbFreeFaults + x.tlbReplaceFaults) + 0 =
      x.tlbFaults + (x.tlbFreeFaults + x.tlbReplaceFaults) + 1
    omega
  · rw [hu]
    change x.tlbFaults + 1 + (x.tlbReloads + x.pageDiskFaults + x.pageZeroedFaults) + 0 =
      x.tlbFaults + (x.tlbReloads + x.pageDiskFaults + x.pageZeroedFaults) + 1
    omega
  · rw [hd]
    rfl

/-- The end of `vm_fault` counts a free or a replaced slot of the TLB. -/
theorem Balance.insert {x y : Stats} (r : Bool) (h : Balance x c y d) (hd : d.faulting = true)
    (hu : d.uncounted = false) (hf : d.fetching = false) :
    Balance x c (Sys.countInsert y r) .run := by
  obtain ⟨h1, h2, h3⟩ := h
  rw [hd] at h1
  rw [hu] at h2
  rw [hf] at h3
  have htlb : (Sys.countInsert y r).tlbFreeFaults + (Sys.countInsert y r).tlbReplaceFaults =
      y.tlbFreeFaults + y.tlbReplaceFaults + 1 := by
    cases r
    · simp only [Sys.countInsert, Bool.false_eq_true, if_false]
      omega
    · simp only [Sys.countInsert, if_true]
      omega
  have hsame : (Sys.countInsert y r).tlbFaults = y.tlbFaults ∧
      (Sys.countInsert y r).tlbReloads = y.tlbReloads ∧
      (Sys.countInsert y r).pageDiskFaults = y.pageDiskFaults ∧
      (Sys.countInsert y r).pageZeroedFaults = y.pageZeroedFaults ∧
      (Sys.countInsert y r).pageElfFaults = y.pageElfFaults ∧
      (Sys.countInsert y r).pageSwapfileFaults = y.pageSwapfileFaults := by
    cases r <;> exact ⟨rfl, rfl, rfl, rfl, rfl, rfl⟩
  obtain ⟨e1, e2, e3, e4, e5, e6⟩ := hsame
  constructor
  · rw [htlb, e1]
    simp only [Bool.toNat_true] at h1
    change _ = _ + 0
    omega
  · rw [e1, e2, e3, e4]
    exact h2
  · rw [e3, e5, e6]
    exact h3

theorem Pc.wakePt_flags (c : Pc) : c.wakePt.faulting = c.faulting ∧
    c.wakePt.uncounted = c.uncounted ∧ c.wakePt.fetching = c.fetching := by
  cases c <;> exact ⟨rfl, rfl, rfl⟩

theorem Pc.wakeCell_flags (d : Nat) (c : Pc) : (c.wakeCell d).faulting = c.faulting ∧
    (c.wakeCell d).uncounted = c.uncounted ∧ (c.wakeCell d).fetching = c.fetching := by
  cases c with
  | cellWait k e w => cases k <;> exact ⟨rfl, rfl, rfl⟩
  | _ => exact ⟨rfl, rfl, rfl⟩

theorem Pc.quiet {c : Pc} (h : c.faulting = false) : c.uncounted = false ∧ c.fetching = false := by
  cases c with
  | storeSwap k _ _ _ => cases k <;> first | exact ⟨rfl, rfl⟩ | cases h
  | storing k _ _ => cases k <;> first | exact ⟨rfl, rfl⟩ | cases h
  | stored k _ => cases k <;> first | exact ⟨rfl, rfl⟩ | cases h
  | cell k _ => cases k <;> first | exact ⟨rfl, rfl⟩ | cases h
  | cellWait k _ _ => cases k <;> first | exact ⟨rfl, rfl⟩ | cases h
  | _ => first | exact ⟨rfl, rfl⟩ | cases h

namespace Sys

/-- What the running thread has added to the counters. -/
def Balanced (s u : Sys) : Prop := Balance s.stats (s.pc s.cur) u.stats (u.pc s.cur)

theorem Balanced.goto {s w : Sys} (hw : w.cur = s.cur)
    (h : Balance s.stats (s.pc s.cur) w.stats d) : s.Balanced (w.goto d) := by
  unfold Balanced
  rw [pc_goto, hw, Function.update_self]
  exact h

theorem Balanced.of_insert {s w u : Sys} (hi : w.insert A v i = .ok u)
    (h : ∀ r, Balance s.stats (s.pc s.cur) (countInsert w.stats r) (w.pc s.cur)) : s.Balanced u := by
  obtain ⟨x, -, hi⟩ := bind_ok.1 hi
  cases hi
  exact h x.2.2

theorem activate_balanced {s s₁ u : Sys} (h : s.activate o q = .ok s₁)
    (hst : u.stats = s₁.stats) (hpc : u.pc s.cur = s.pc s.cur) : s.Balanced u := by
  obtain ⟨x, -, h⟩ := bind_ok.1 h
  cases h
  unfold Balanced
  rw [hst, hpc]
  simp only
  split
  · exact Balance.writes (y := s.stats) (.flat _ rfl rfl rfl) _ _
  · exact .flat _ rfl rfl rfl

theorem allocChance_balanced {s u : Sys} (hpc : s.pc s.cur = .run ∨ s.pc s.cur = .alloc)
    (h : s.allocChance fp = .ok u) : s.Balanced u := by
  have hflat : ∀ {w : Sys} {d : Pc}, w.cur = s.cur → w.stats = s.stats → d.faulting = false →
      d.uncounted = false → d.fetching = false → s.Balanced (w.goto d) := by
    intro w d hw hst h1 h2 h3
    refine Balanced.goto hw ?_
    rw [hst]
    rcases hpc with hpc | hpc
    · rw [hpc]
      exact .flat _ h1 h2 h3
    · rw [hpc]
      exact .flat _ h1 h2 h3
  unfold allocChance at h
  split at h
  · cases h
    exact hflat rfl rfl rfl rfl rfl
  · obtain ⟨⟨ipt, o⟩, -, h⟩ := bind_ok.1 h
    cases o with
    | none =>
      cases h
      exact hflat rfl rfl rfl rfl rfl
    | some o =>
      obtain ⟨v, p⟩ := o
      cases h
      exact hflat rfl rfl rfl rfl rfl

theorem vmFault_balanced {s u : Sys} (hpc : s.pc s.cur = .run) (ht : t ≠ .readonly)
    (h : s.vmFault t A v = .ok u) : s.Balanced u := by
  unfold vmFault at h
  simp only [if_neg ht] at h
  obtain ⟨_, -, h⟩ := bind_ok.1 h
  obtain ⟨⟨ipt, o⟩, -, h⟩ := bind_ok.1 h
  cases o with
  | some i =>
    refine Balanced.of_insert (w := { s with ipt := ipt, stats := _ }) h fun r => ?_
    change Balance _ (s.pc s.cur) _ (s.pc s.cur)
    rw [hpc]
    apply Balance.insert (d := .loaded v i) r _ rfl rfl rfl
    constructor <;> simp only [Pc.faulting, Pc.role, Role.aim, Pc.uncounted, Pc.fetching,
      Option.isSome, Bool.toNat_true, Bool.toNat_false] <;> omega
  | none =>
    simp only at h
    split at h
    · obtain ⟨ipt', -, h⟩ := bind_ok.1 h
      cases h
      refine Balanced.goto rfl ?_
      rw [hpc]
      exact .start _ rfl rfl rfl
    · cases h
      refine Balanced.goto rfl ?_
      rw [hpc]
      exact .start _ rfl rfl rfl

theorem loadElfPage_balanced {s u : Sys} (hpc : s.pc s.cur = .loadPage v i)
    (hz : ¬ A.PastText v) (hs : A.loadPlan v ≠ .segv) (h : s.loadElfPage A v i = .ok u) :
    s.Balanced u := by
  unfold loadElfPage at h
  simp only at h
  split at h
  · rename_i hp
    cases h
    refine Balanced.goto rfl ?_
    rw [hpc, if_neg fun ht => hz (AddrSpace.pastText_of_zero ht hp)]
    split
    · constructor <;> simp only [Pc.faulting, Pc.role, Role.aim, Pc.uncounted, Pc.fetching,
      Option.isSome, Bool.toNat_true, Bool.toNat_false] <;> omega
    · constructor <;> simp only [Pc.faulting, Pc.role, Role.aim, Pc.uncounted, Pc.fetching,
      Option.isSome, Bool.toNat_true, Bool.toNat_false] <;> omega
  · cases h
    refine Balanced.goto rfl ?_
    rw [hpc]
    constructor <;> simp only [Pc.faulting, Pc.role, Role.aim, Pc.uncounted, Pc.fetching,
      Option.isSome, Bool.toNat_true, Bool.toNat_false] <;> omega
  · rename_i hp
    exact (hs hp).elim

theorem copyPtStep_balanced {s u : Sys} (hpc : s.pc s.cur = .copyPt r i)
    (h : s.copyPtStep r i = .ok u) : s.Balanced u := by
  unfold copyPtStep at h
  split at h
  · simp only at h
    split at h
    · split at h
      · obtain ⟨_, -, h⟩ := bind_ok.1 h
        cases h
        exact Balanced.goto rfl (by rw [hpc]; exact .flat _ rfl rfl rfl)
      · obtain ⟨ipt, -, h⟩ := bind_ok.1 h
        cases h
        exact Balanced.goto rfl (by rw [hpc]; exact .flat _ rfl rfl rfl)
    · cases h
      exact Balanced.goto rfl (by rw [hpc]; exact .flat _ rfl rfl rfl)
  · obtain ⟨pt, -, h⟩ := bind_ok.1 h
    cases h
    exact Balanced.goto rfl (by rw [hpc]; exact .flat _ rfl rfl rfl)

/-- A thread that loads a page counts it once. -/
theorem advance_balanced {s u : Sys}
    (hv : ∀ v i A, s.pc s.cur = .loadPage v i → s.as s.cur = some A →
      v < userStack ∧ ¬ A.PastText v)
    (h : s.advance = .ok u) : s.Balanced u := by
  -- most steps count nothing and stay inside or outside a fault
  have hflat : ∀ {c d : Pc} {w : Sys}, s.pc s.cur = c → w.cur = s.cur → w.stats = s.stats →
      d.faulting = c.faulting → d.uncounted = c.uncounted → d.fetching = c.fetching →
      s.Balanced (w.goto d) := by
    intro c d w hc hw hst h1 h2 h3
    refine Balanced.goto hw ?_
    rw [hst, hc]
    exact .flat _ h1 h2 h3
  unfold advance at h
  cases hpc : s.pc s.cur with
  | none =>
    rw [hpc] at h
    cases h
    exact .flat _ rfl rfl rfl
  | embryo =>
    rw [hpc] at h
    cases h
    exact .flat _ rfl rfl rfl
  | run =>
    rw [hpc] at h
    cases h
    exact .flat _ rfl rfl rfl
  | zombie =>
    rw [hpc] at h
    cases h
    exact .flat _ rfl rfl rfl
  | findVictim v start =>
    rw [hpc] at h
    simp only at h
    split at h
    · cases h
      exact hflat hpc rfl rfl rfl rfl rfl
    · obtain ⟨⟨ipt, o⟩, -, h⟩ := bind_ok.1 h
      cases o with
      | none =>
        obtain ⟨ipt', -, h⟩ := bind_ok.1 h
        cases h
        exact hflat hpc rfl rfl rfl rfl rfl
      | some o =>
        obtain ⟨ov, op⟩ := o
        cases h
        exact hflat hpc rfl rfl rfl rfl rfl
  | victimWait v start woken =>
    rw [hpc] at h
    cases h
    exact hflat hpc rfl rfl rfl rfl rfl
  | storeSwap k i v p =>
    rw [hpc] at h
    obtain ⟨⟨w, c⟩, -, h⟩ := bind_ok.1 h
    cases h
    cases k <;> exact hflat hpc rfl rfl rfl rfl rfl
  | storing k i c =>
    rw [hpc] at h
    obtain ⟨w, -, h⟩ := bind_ok.1 h
    cases h
    refine Balanced.goto rfl ?_
    rw [hpc]
    refine Balance.writes (y := s.stats) (.flat _ ?_ ?_ ?_) _ _ <;> cases k <;> rfl
  | stored k i =>
    rw [hpc] at h
    cases k with
    | victim v =>
      obtain ⟨ipt, -, h⟩ := bind_ok.1 h
      cases h
      exact hflat hpc rfl rfl rfl rfl rfl
    | alloc =>
      cases h
      exact hflat hpc rfl rfl rfl rfl rfl
    | fork r =>
      cases h
      exact hflat hpc rfl rfl rfl rfl rfl
  | loadPage v i =>
    rw [hpc] at h
    obtain ⟨_, -, h⟩ := bind_ok.1 h
    cases has : s.as s.cur with
    | none =>
      rw [has] at h
      cases h
    | some A =>
      rw [has] at h
      obtain ⟨⟨w, o⟩, hb, h⟩ := bind_ok.1 h
      cases o with
      | some c =>
        cases h
        exact hflat hpc rfl rfl rfl rfl rfl
      | none =>
        obtain ⟨hlt, hz⟩ := hv v i A hpc has
        refine loadElfPage_balanced hpc hz ?_ h
        apply AddrSpace.loadPlan_ne_segv hlt
        intro hn
        simp only [SwapFile.loadBegin, hn] at hb
        cases hb
  | cell k c =>
    rw [hpc] at h
    obtain ⟨⟨w, b⟩, -, h⟩ := bind_ok.1 h
    cases b with
    | true =>
      cases h
      cases k <;> exact hflat hpc rfl rfl rfl rfl rfl
    | false =>
      cases h
      cases k with
      | load v i =>
        refine Balanced.goto rfl ?_
        rw [hpc]
        constructor <;> simp only [Pc.faulting, Pc.role, Role.aim, Pc.uncounted, Pc.fetching,
      Option.isSome, Bool.toNat_true, Bool.toNat_false] <;> omega
      | exit sg => exact hflat hpc rfl rfl rfl rfl rfl
      | copy r sg f => exact hflat hpc rfl rfl rfl rfl rfl
  | cellWait k c woken =>
    rw [hpc] at h
    cases h
    cases k <;> exact hflat hpc rfl rfl rfl rfl rfl
  | reading v i c =>
    rw [hpc] at h
    cases h
    refine Balanced.goto rfl ?_
    rw [hpc]
    constructor <;> simp only [Pc.faulting, Pc.role, Role.aim, Pc.uncounted, Pc.fetching,
      Option.isSome, Bool.toNat_true, Bool.toNat_false] <;> omega
  | elfReading v i =>
    rw [hpc] at h
    cases has : s.as s.cur with
    | none =>
      rw [has] at h
      cases h
    | some A =>
      rw [has] at h
      cases h
      refine Balanced.goto rfl ?_
      rw [hpc]
      constructor <;> simp only [Pc.faulting, Pc.role, Role.aim, Pc.uncounted, Pc.fetching,
      Option.isSome, Bool.toNat_true, Bool.toNat_false] <;> omega
  | loaded v i =>
    rw [hpc] at h
    cases has : s.as s.cur with
    | none =>
      rw [has] at h
      cases h
    | some A =>
      rw [has] at h
      refine Balanced.of_insert h fun r => ?_
      rw [pc_goto]
      change Balance _ _ _ (Function.update s.pc s.cur .run s.cur)
      rw [Function.update_self, hpc]
      exact Balance.insert r (.flat _ rfl rfl rfl) rfl rfl rfl
  | alloc =>
    rw [hpc] at h
    exact allocChance_balanced (.inr hpc) h
  | allocWait woken =>
    rw [hpc] at h
    cases h
    exact hflat hpc rfl rfl rfl rfl rfl
  | removeSwap sg e =>
    rw [hpc] at h
    cases e with
    | some c =>
      cases h
      exact hflat hpc rfl rfl rfl rfl rfl
    | none =>
      simp only at h
      split at h
      · cases h
        exact hflat hpc rfl rfl rfl rfl rfl
      · cases h
        exact hflat hpc rfl rfl rfl rfl rfl
  | copySwap r sg e =>
    rw [hpc] at h
    cases e with
    | some c =>
      obtain ⟨⟨w, f⟩, -, h⟩ := bind_ok.1 h
      cases h
      exact hflat hpc rfl rfl rfl rfl rfl
    | none =>
      simp only at h
      split at h
      · cases h
        exact hflat hpc rfl rfl rfl rfl rfl
      · cases h
        exact hflat hpc rfl rfl rfl rfl rfl
  | copyReading r sg c f =>
    rw [hpc] at h
    cases h
    exact hflat hpc rfl rfl rfl rfl rfl
  | copyWriting r sg c f =>
    rw [hpc] at h
    cases h
    exact hflat hpc rfl rfl rfl rfl rfl
  | copyPt r i =>
    rw [hpc] at h
    exact copyPtStep_balanced hpc h

/-- The counters and the threads agree on how many faults are under way. -/
def Books (s : Sys) : Prop := ∃ a b c,
  Tally (fun q => (s.pc q).faulting) a ∧ Tally (fun q => (s.pc q).uncounted) b ∧
  Tally (fun q => (s.pc q).fetching) c ∧
  s.stats.tlbFaults = s.stats.tlbFreeFaults + s.stats.tlbReplaceFaults + a ∧
  s.stats.tlbFaults = s.stats.tlbReloads + s.stats.pageDiskFaults + s.stats.pageZeroedFaults + b ∧
  s.stats.pageDiskFaults = s.stats.pageElfFaults + s.stats.pageSwapfileFaults + c

theorem Books.step {s u : Sys} (h : s.Books) (hb : s.Balanced u)
    (hq : ∀ q, q ≠ s.cur → (u.pc q).faulting = (s.pc q).faulting ∧
      (u.pc q).uncounted = (s.pc q).uncounted ∧ (u.pc q).fetching = (s.pc q).fetching) :
    u.Books := by
  obtain ⟨a, b, c, ha, hb', hc, e1, e2, e3⟩ := h
  obtain ⟨a', ha', d1⟩ := ha.step fun q hne => (hq q hne).1
  obtain ⟨b', hb'', d2⟩ := hb'.step fun q hne => (hq q hne).2.1
  obtain ⟨c', hc', d3⟩ := hc.step fun q hne => (hq q hne).2.2
  obtain ⟨f1, f2, f3⟩ := hb
  refine ⟨a', b', c', ha', hb'', hc', ?_, ?_, ?_⟩
  · omega
  · omega
  · omega

theorem books_of_quiet {s : Sys} (hst : s.stats = .zero) (hq : ∀ q, (s.pc q).faulting = false) :
    s.Books := by
  refine ⟨0, 0, 0, .zero hq, .zero fun q => (Pc.quiet (hq q)).1, .zero fun q => (Pc.quiet (hq q)).2,
    ?_, ?_, ?_⟩
  · rw [hst]
    rfl
  · rw [hst]
    rfl
  · rw [hst]
    rfl

/-- No fault writes to a read-only page, or is on a page of the text segment that the
executable does not hold; and no fault is under way when the counters are reset. -/
def Counted (s : Sys) : MenuAction → Prop
  | .vm (.fault t a) => t ≠ .readonly ∧ ∀ A, s.as s.cur = some A → ¬ A.PastText (pageOf a)
  | .vm _ => True
  | .collect _ => ∀ q, (s.pc q).faulting = false

theorem micro_balanced {s u : Sys} (haim : s.Aimed fun A v => v < userStack ∧ ¬ A.PastText v) (ha : s.Counted (.vm a))
    (hs : SysStep s a u) : s.Balanced u := by
  obtain ⟨hen, hu⟩ := hs
  cases a with
  | advance =>
    apply advance_balanced _ hu
    intro v i A hpc hA
    exact haim s.cur v A (by rw [hpc]; rfl) hA
  | fault t x =>
    obtain ⟨hpc, has, -⟩ := hen
    obtain ⟨A, hA⟩ := Option.isSome_iff_exists.1 has
    simp only [micro, hA] at hu
    exact vmFault_balanced hpc ha.1 hu
  | alloc =>
    unfold micro allocPage at hu
    simp only at hu
    split at hu
    · obtain ⟨pt, -, hu⟩ := bind_ok.1 hu
      cases hu
      exact .flat _ rfl rfl rfl
    · exact allocChance_balanced (.inl hen) hu
  | exit =>
    obtain ⟨ipt, -, hu⟩ := bind_ok.1 hu
    cases hu
    have hpc : s.pc s.cur = .run := hen
    refine Balanced.goto rfl ?_
    rw [hpc]
    exact .flat _ rfl rfl rfl
  | dispatch q =>
    obtain ⟨s₁, hs₁, rfl⟩ := map_ok.1 hu
    apply activate_balanced hs₁ rfl
    obtain ⟨x, -, hs₁⟩ := bind_ok.1 hs₁
    cases hs₁
    rfl
  | write k off b =>
    simp only [micro] at hu
    split at hu
    · cases hu
      exact .flat _ rfl rfl rfl
    · cases hu
      exact .flat _ rfl rfl rfl
  | kfree i =>
    obtain ⟨pt, -, hu⟩ := bind_ok.1 hu
    cases hu
    obtain ⟨h1, h2, h3⟩ := Pc.wakePt_flags (s.pc s.cur)
    exact .flat _ h1 h2 h3
  | fork r =>
    obtain ⟨pt, -, hu⟩ := bind_ok.1 hu
    cases hu
    have hpc : s.pc s.cur = .run := hen.1
    refine Balanced.goto rfl ?_
    rw [hpc]
    exact .flat _ rfl rfl rfl
  | spawn q =>
    cases hu
    have hne : s.cur ≠ q := by
      intro he
      have hpc := hen.1
      rw [he, hen.2.1] at hpc
      cases hpc
    have hpc : pc { s with procs := Function.update s.procs q ⟨none, .run⟩ } s.cur = s.pc s.cur :=
      congrArg Proc.pc (Function.update_of_ne hne ..)
    unfold Balanced
    rw [hpc]
    exact .flat _ rfl rfl rfl
  | exec vn phs =>
    obtain ⟨s₁, hs₁, hu⟩ := bind_ok.1 hu
    cases hu
    refine activate_balanced hs₁ rfl ?_
    obtain ⟨x, -, hs₁⟩ := bind_ok.1 hs₁
    cases hs₁
    change (Function.update s.procs s.cur { s.procs s.cur with as := loadElf vn phs } s.cur).pc = _
    rw [Function.update_self]
    rfl
  | reap q =>
    cases hu
    have hne : s.cur ≠ q := by
      intro he
      have hpc := hen.1
      rw [he, hen.2] at hpc
      cases hpc
    have hpc : pc { s with procs := Function.update s.procs q ⟨none, .none⟩ } s.cur = s.pc s.cur :=
      congrArg Proc.pc (Function.update_of_ne hne ..)
    unfold Balanced
    rw [hpc]
    exact .flat _ rfl rfl rfl

theorem flags_other {s u : Sys} (ho : s.table.Own) (hm : Move s a u) (hq : q ≠ s.cur) :
    (u.pc q).faulting = (s.pc q).faulting ∧ (u.pc q).uncounted = (s.pc q).uncounted ∧
      (u.pc q).fetching = (s.pc q).fetching := by
  rcases hm.pc_other hq with h | h | ⟨c, h⟩ | ⟨hs, hu⟩
  · rw [h]
    exact ⟨rfl, rfl, rfl⟩
  · rw [h]
    exact Pc.wakePt_flags _
  · rw [h]
    exact Pc.wakeCell_flags _ _
  · -- the process starts or ends, outside a fault
    have hq' : (s.pc q).faulting = false := by
      rcases hs with ⟨hs, -⟩ | hs | ⟨i, hs⟩
      · rw [hs]
        rfl
      · rw [hs]
        rfl
      · have hr : s.table.role s.cur = .forking q i := by
          rw [show s.table.role s.cur = (s.pc s.cur).role from rfl, hs]
          rfl
        unfold Pc.faulting
        rw [show (s.pc q).role = .embryo from ho.apart.embryo hr]
        rfl
    have hu' : (u.pc q).faulting = false := by
      rcases hu with hu | hu | hu
      · rw [hu]
        rfl
      · rw [hu]
        rfl
      · rw [hu]
        rfl
    obtain ⟨h1, h2⟩ := Pc.quiet hq'
    obtain ⟨h3, h4⟩ := Pc.quiet hu'
    exact ⟨hu'.trans hq'.symm, h3.trans h1.symm, h4.trans h2.symm⟩

/-- What holds at every step of a run that is counted right. -/
structure Audited (s : Sys) : Prop where
  good : s.table.Good
  aimed : s.Aimed fun A v => v < userStack ∧ ¬ A.PastText v
  books : s.Books

theorem Audited.step {s u : Sys} (h : s.Audited) (hs : MenuStepWhen Sys.Counted s a u) :
    u.Audited := by
  obtain ⟨ha, hen, hu⟩ := hs
  cases a with
  | vm a =>
    have hstep : SysStep s a u := ⟨hen, hu⟩
    refine ⟨step_good h.good hstep, h.aimed.step hstep.move ?_, ?_⟩
    · intro t x A hx ht hA
      subst hx
      refine ⟨?_, ha.2 A hA⟩
      have hlt : x < userStack := hen.2.2.1
      exact Nat.lt_of_le_of_lt (Nat.sub_le ..) hlt
    · exact h.books.step (micro_balanced h.aimed ha hstep)
        fun q hq => flags_other h.good.1 hstep.move hq
  | collect q =>
    obtain ⟨s₁, w, hm, -, -, rfl⟩ := collect_ok hen hu
    have hgood : s₁.table.Good := Table.Good.moves h.good (hm.table (F := False) h.good.1 False.elim)
    have haim : s₁.Aimed fun A v => v < userStack ∧ ¬ A.PastText v := h.aimed.step hm nofun
    refine ⟨hgood, haim, books_of_quiet rfl ?_⟩
    intro p
    change (s₁.pc p).faulting = false
    by_cases hp : p = s.cur
    · cases hm with
      | reap hpc hz =>
        have hne : p ≠ q := by
          rw [hp]
          intro he
          rw [he, hz] at hpc
          cases hpc
        have : pc { s with procs := Function.update s.procs q ⟨none, .none⟩ } p = s.pc p :=
          congrArg Proc.pc (Function.update_of_ne hne ..)
        rw [this]
        exact ha p
      | exit hpc hact => rcases hact with hact | ⟨x, hact⟩ <;> cases hact
      | allocWait hact => rcases hact with ⟨-, hact⟩ | ⟨-, hact⟩ <;> cases hact
      | allocTake hact => rcases hact with ⟨-, hact⟩ | ⟨-, hact⟩ <;> cases hact
      | allocEvict hact => rcases hact with ⟨-, hact⟩ | ⟨-, hact⟩ <;> cases hact
    · rw [(flags_other h.good.1 hm hp).1]
      exact ha p

end Sys

instance (A : AddrSpace) (v : Nat) : Decidable (A.PastText v) :=
  inferInstanceAs (Decidable (_ ∧ _ ∧ _))

instance (s : Sys) (a : Action) : Decidable (s.Counted (.vm a)) :=
  match a with
  | .fault t x =>
    decidable_of_iff (t ≠ .readonly ∧
      (s.as s.cur).all (fun A => decide (¬ A.PastText (Sys.pageOf x))) = true) (by
        simp [Sys.Counted, Option.all_eq_true])
  | .dispatch _ | .kfree _ | .reap _ | .write _ _ _ | .exit | .alloc | .advance | .fork _
  | .spawn _ | .exec _ _ => .isTrue trivial

end Clape
