import Clape.FrameStops
import Clape.Traces

namespace Clape
set_option autoImplicit true

theorem Sys.boot_role (m : Hardware) (q : Nat) :
    (Sys.boot m).table.role q = if q = 1 then .user else .absent := by
  have h : (Sys.boot m).table.role q = (if q = 1 then Pc.run else .none).role := rfl
  rw [h]
  split <;> rfl

theorem Sys.boot_own (m : Hardware) : (Sys.boot m).table.Own := by
  have hhold : ∀ q, ((Sys.boot m).table.role q).hold = none := by
    intro q
    rw [Sys.boot_role]
    split <;> rfl
  have hforks : ∀ q, ((Sys.boot m).table.role q).forks = false := by
    intro q
    rw [Sys.boot_role]
    split <;> rfl
  refine ⟨fun i => ?_, ?_, fun _ => hforks⟩
  · constructor
    · intro q o hq
      rw [hhold] at hq
      cases hq
    · intro hio
      cases hio
    · intro _
      exact ⟨rfl, rfl, rfl⟩
    · intro _
      exact ⟨rfl, rfl⟩
    · intro hs
      cases hs
    · intro hf
      rw [hforks] at hf
      cases hf
    · intro hg
      cases hg
  · constructor
    · intro q v hq
      rw [Sys.boot_role] at hq
      split at hq <;> cases hq
    · intro q i o r o' hq
      rw [hhold] at hq
      cases hq
    · intro q r hq
      rw [hforks] at hq
      cases hq
    · intro q c k hq
      rw [Sys.boot_role] at hq
      split at hq <;> cases hq

theorem Sys.boot_no_key (m : Hardware) (i v p : Nat) :
    ¬ Key (Sys.boot m).table.n (Sys.boot m).table.entries i v p := by
  intro hk
  cases (PtEntry.user_iff.1 hk.2.1).1

theorem Sys.boot_hashed (m : Hardware) : (Sys.boot m).table.Hashed := by
  have hno := Sys.boot_no_key m
  refine ⟨⟨rfl, rfl, fun _ => none, ?_⟩, ?_⟩
  · obtain ⟨L, hL⟩ := HashTable.init_rep m.nEntry
    refine ⟨L, hL, fun i v p => ?_⟩
    simp [hno]
  · constructor
    · intro i v p hk
      exact (hno i v p hk).elim
    · intro i v p j hk
      exact (hno i v p hk).elim
    · intro i v p hk
      exact (hno i v p hk).elim
    · intro i v p hk
      exact (hno i v p hk).elim
    · intro q v i _
      exact hno i v q
    · intro q hq
      rw [Sys.boot_role] at hq
      split at hq
      · rename_i h
        subst h
        exact ⟨by decide, by decide⟩
      · exact (hq rfl).elim
    · intro q hq
      rw [Sys.boot_role] at hq
      split at hq <;> cases hq

theorem Sys.boot_cached (m : Hardware) : (Sys.boot m).table.Cached := by
  refine ⟨⟨show 0 < numTlb by decide, ?_, ?_, ?_, ?_, ?_⟩, ?_, ?_⟩
  · intro k x _ hx
    cases hx
  · intro i hi
    cases hi
  · intro k k' x x' _ _ hx
    cases hx
  · intro k x _ hx
    cases hx
  · intro k x _ _ hx
    cases hx
  · intro q hq
    rw [Sys.boot_role] at hq
    split at hq <;> cases hq
  · intro h
    cases h

theorem Table.Good.moves (h : t.Good) (hm : Relation.ReflTransGen (TableMove F) t t') :
    t'.Good := by
  induction hm with
  | refl => exact h
  | tail _ hm ih => exact ⟨ih.1.step ih.2 hm, ih.2.step ih.1 hm⟩

theorem Table.Cached.moves (h : t.Good) (hc : t.Cached)
    (hm : Relation.ReflTransGen (TableMove True) t t') : t'.Cached := by
  induction hm with
  | refl => exact hc
  | tail hs hm ih =>
    have hg := h.moves hs
    exact ih.step hg.1 hg.2 hm

theorem Sys.step_good (h : s.table.Good) (hs : SysStep s a s') : s'.table.Good :=
  h.moves (hs.move.table (F := False) h.1 False.elim)

theorem Sys.run_good (h : Run SysStep (Sys.boot m) tr s) : s.table.Good :=
  h.invariant ⟨Sys.boot_own m, Sys.boot_hashed m⟩ fun _ _ _ ht hs => Sys.step_good ht hs

/-- The page a fault is about. -/
def Role.aim : Role → Option Nat
  | .seeking v | .claimed v _ | .loading v _ => some v
  | _ => none

/-- The fault is on an address that one of the range tests of the process accepts. -/
def Sys.Inside (s : Sys) : Action → Prop
  | .fault t a => t ≠ .readonly → ∀ A, s.as s.cur = some A → A.loadSeg (Sys.pageOf a) ≠ none
  | _ => True

/-- All faults under way are on addresses of a kind that the address spaces of their
processes tell; by default, inside their segments. -/
def Sys.Aimed (s : Sys) (P : AddrSpace → Nat → Prop := fun A v => A.loadSeg v ≠ none) : Prop :=
  ∀ q v A, (s.pc q).role.aim = some v → s.as q = some A → P A v

namespace Sys.Aimed
variable {s u : Sys} {P : AddrSpace → Nat → Prop}

theorem setPc (h : s.Aimed P) (p : Nat) (hc : ∀ v A, c.role.aim = some v → s.as p = some A →
    (s.pc p).role.aim = some v ∨ P A v) : (s.setPc p c).Aimed P := by
  intro q v A hq hA
  rw [Sys.pc_setPc] at hq
  rw [Sys.as_setPc] at hA
  by_cases hqp : q = p
  · subst hqp
    rw [Function.update_self] at hq
    rcases hc v A hq hA with hp | hA'
    · exact h q v A hp hA
    · exact hA'
  · rw [Function.update_of_ne hqp] at hq
    exact h q v A hq hA

theorem mapPc (h : s.Aimed P) {f : Pc → Pc} (hf : ∀ c, (f c).role = c.role) : (s.mapPc f).Aimed P := by
  intro q v A hq hA
  rw [Sys.pc_mapPc] at hq
  simp only [hf] at hq
  exact h q v A hq hA

theorem goto (h : s.Aimed P) (hu : u.procs = s.procs) (hcur : u.cur = s.cur)
    (hc : c.role.aim = none ∨ c.role.aim = (s.pc s.cur).role.aim) : (u.goto c).Aimed P := by
  have hu' : u.Aimed P := by
    intro q v A hq hA
    simp only [Sys.pc, Sys.as, hu] at hq hA
    exact h q v A hq hA
  apply hu'.setPc
  intro v A hv _
  apply Or.inl
  rcases hc with hc | hc
  · rw [hc] at hv
    cases hv
  · rw [hcur]
    simp only [Sys.pc, hu]
    exact hc ▸ hv

theorem update (h : s.Aimed P) (hu : u.procs = Function.update s.procs p x)
    (hx : x.pc.role.aim = none) : u.Aimed P := by
  intro q v A hq hA
  simp only [Sys.pc, Sys.as, hu] at hq hA
  by_cases hqp : q = p
  · subst hqp
    rw [Function.update_self, hx] at hq
    cases hq
  · rw [Function.update_of_ne hqp] at hq hA
    exact h q v A hq hA

theorem step (h : s.Aimed P) (hm : Move s a u)
    (ha : ∀ t x A, a = .fault t x → t ≠ .readonly → s.as s.cur = some A → P A (Sys.pageOf x)) :
    u.Aimed P := by
  cases hm with
  | dispatch => exact h
  | write => exact h
  | hit => exact h
  | space hpc has hv _ ht =>
    apply setPc
    · exact h
    · intro w A hw hA
      cases hw
      exact .inr (hv ▸ ha _ _ A rfl ht hA)
  | seek hpc has hv _ ht =>
    apply setPc
    · exact h
    · intro w A hw hA
      cases hw
      exact .inr (hv ▸ ha _ _ A rfl ht hA)
  | exit => exact h.goto rfl rfl (.inl rfl)
  | segv => exact h.goto rfl rfl (.inl rfl)
  | allocFree => exact h
  | allocWait => exact h.goto rfl rfl (.inl rfl)
  | allocTake => exact h.goto rfl rfl (.inl rfl)
  | allocEvict => exact h.goto rfl rfl (.inl rfl)
  | kfree => exact mapPc (s := s.setPt _) h Pc.role_wakePt
  | fork => exact (h.update (x := ⟨s.as s.cur, .embryo⟩) rfl rfl).goto rfl rfl (.inl rfl)
  | spawn => exact h.update rfl rfl
  | exec hpc =>
    apply h.update rfl
    change (s.pc s.cur).role.aim = none
    rw [hpc]
    rfl
  | reap => exact h.update rfl rfl
  | noVictim hpc => exact h.goto rfl rfl (.inr (by rw [hpc]; rfl))
  | takeVictim hpc => exact h.goto rfl rfl (.inr (by rw [hpc]; rfl))
  | evictVictim hpc => exact h.goto rfl rfl (.inr (by rw [hpc]; rfl))
  | victimWake hpc => exact h.goto rfl rfl (.inr (by rw [hpc]; rfl))
  | @store k i v p w c hpc _ =>
    exact h.goto rfl rfl (.inr (by rw [hpc, Pc.role_storing k i c v p]))
  | @storing k i c w st hpc _ =>
    refine Aimed.goto (s := { s with
      swap := w
      disk := _
      stats := st }.mapPc (Pc.wakeCell c)) (mapPc h (Pc.role_wakeCell c)) rfl rfl (.inr ?_)
    rw [Sys.pc_mapPc]
    simp only [Pc.role_wakeCell]
    change _ = (s.pc s.cur).role.aim
    rw [hpc, Pc.role_stored k i c]
  | storedVictim hpc => exact h.goto rfl rfl (.inr (by rw [hpc]; rfl))
  | storedAlloc => exact h.goto rfl rfl (.inl rfl)
  | storedFork => exact h.goto rfl rfl (.inl rfl)
  | loadFound hpc => exact h.goto rfl rfl (.inr (by rw [hpc]; rfl))
  | loadZero hpc => exact h.goto rfl rfl (.inr (by rw [hpc]; rfl))
  | loadElf hpc => exact h.goto rfl rfl (.inr (by rw [hpc]; rfl))
  | @cellSleep k c w hpc _ => exact h.goto rfl rfl (.inr (by rw [hpc, Pc.role_cellWait]))
  | cellLoad hpc => exact h.goto rfl rfl (.inr (by rw [hpc]; rfl))
  | cellExit => exact h.goto rfl rfl (.inl rfl)
  | cellCopy => exact h.goto rfl rfl (.inl rfl)
  | cellWake hpc => exact h.goto rfl rfl (.inr (by rw [hpc, Pc.role_cellWait]))
  | reading hpc => exact h.goto rfl rfl (.inr (by rw [hpc]; rfl))
  | elfReading hpc => exact h.goto rfl rfl (.inr (by rw [hpc]; rfl))
  | loaded => exact h.goto rfl rfl (.inl rfl)
  | allocWake => exact h.goto rfl rfl (.inl rfl)
  | removeCell => exact h.goto rfl rfl (.inl rfl)
  | removeNext => exact h.goto rfl rfl (.inl rfl)
  | removeDone => exact h.goto rfl rfl (.inl rfl)
  | copyTake => exact h.goto rfl rfl (.inl rfl)
  | copyNext => exact h.goto rfl rfl (.inl rfl)
  | copyDone => exact h.goto rfl rfl (.inl rfl)
  | copyReading => exact h.goto rfl rfl (.inl rfl)
  | copyWriting => exact h.goto rfl rfl (.inl rfl)
  | ptSkip => exact h.goto rfl rfl (.inl rfl)
  | ptStore => exact h.goto rfl rfl (.inl rfl)
  | ptSpace => exact h.goto rfl rfl (.inl rfl)
  | ptEnd =>
    refine setPc (setPc (mapPc (s := { s with semFork := true }.setPt _) h Pc.role_wakePt) _ ?_) _ ?_
    · intro v A hv
      cases hv
    · intro v A hv
      cases hv

end Sys.Aimed

/-- `load_page` builds every page that the range tests accept. -/
theorem AddrSpace.loadPlan_ne_segv {A : AddrSpace} (hv : v < userStack)
    (h : A.loadSeg v ≠ none) : A.loadPlan v ≠ .segv := by
  unfold AddrSpace.loadPlan
  split
  · apply ElfPhdr.loadPlan_ne_segv
  · split
    · apply ElfPhdr.loadPlan_ne_segv
    · rename_i ht hd
      have hst : A.inStack v = true := by
        by_contra hst
        simp [AddrSpace.loadSeg, AddrSpace.storeSegs, ht, hd, hst] at h
      simp only [AddrSpace.inStack, Bool.and_eq_true, decide_eq_true_eq] at hst
      rw [if_pos ⟨hst.2, hv⟩]
      exact nofun

/-- The process has an operation in progress on the frame: `get_page`, or
`get_contiguous_pages`. -/
def Sys.Holds (s : Sys) (q i : Nat) : Prop := ∃ o, (s.pc q).role.hold = some (i, o)

/-- The frame is under I/O, or holds a page of a process that is being copied by `fork`. -/
def Sys.Protected (s : Sys) (i : Nat) : Prop :=
  (s.ipt.pt.entries i).ctrl.io = true ∨
    i < s.ipt.pt.nEntry ∧ (s.ipt.pt.entries i).user = true ∧
      (s.pc (s.ipt.pt.entries i).pid).role.forks = true

/-- The functions whose assertions on the I/O bit and the swap bit guard the frames. -/
def Fn.guards : Fn → Bool
  | .findVictim | .ptGetPaddr | .freePages | .getContiguousPages | .copyPtEntries
  | .prepareCopyPt | .endCopyPt => true
  | _ => false

theorem Sys.Protected.bits {s : Sys} (h : s.Protected i) (ho : s.table.Own) :
    (s.ipt.pt.entries i).ctrl.io = true ∨ (s.ipt.pt.entries i).ctrl.swap = true := by
  rcases h with h | ⟨hi, hu, hf⟩
  · exact .inl h
  · exact .inr ((ho.fits i).frozen hf hi hu)

theorem Sys.Protected.not_idle {s : Sys} (h : s.Protected i) (ho : s.table.Own)
    (he : SameButRef (s.ipt.pt.entries i) e) : ¬ e.Idle := by
  obtain ⟨b, rfl⟩ := he
  intro hidle
  rcases h.bits ho with h | h
  · exact absurd (h.symm.trans hidle.1) (by decide)
  · exact absurd (h.symm.trans hidle.2.1) (by decide)

theorem Sys.Protected.not_searched {s : Sys} (h : s.Protected i) (ho : s.table.Own) :
    s.ipt.pt.findspace ≠ some i ∧ (∀ start E, s.ipt.pt.seekVictim start ≠ (E, some i)) ∧
    (∀ f, freeRun s.ipt.pt.entries 1 (List.range s.ipt.pt.nEntry) none ≠ .inr (f, i)) ∧
    ∀ fp E f, s.ipt.pt.chanceSearch 1 fp ≠ (E, some (f, i)) := by
  refine ⟨?_, ?_, ?_, ?_⟩
  · intro hsp
    have hsp := (PageTable.findspace_some hsp).2
    simp only [PtEntry.isSpace, Bool.and_eq_true, Bool.not_eq_true', bne_iff_ne] at hsp
    have hclean := (ho.fits i).clean hsp.1.1.1
    exact h.not_idle ho (.refl _) ⟨hclean.1, hclean.2.1, hclean.2.2, hsp.2⟩
  · intro start E hs
    obtain ⟨hsame, hvic⟩ := victimSweep_spec s.ipt.pt.entries (s.ipt.pt.victimOrder start)
    rw [show victimSweep s.ipt.pt.entries (s.ipt.pt.victimOrder start) = _ from hs] at hsame hvic
    exact h.not_idle ho (hsame i) (PtEntry.idle_of_eligible (hvic i rfl).2.1)
  · intro f hs
    exact h.not_idle ho (.refl _)
      (PtEntry.idle_of_eligible (PtEntry.Spent.of_isFree (freeRun_last hs).2).1)
  · intro fp E f hs
    have hsame := s.ipt.pt.chanceSearch_sameButRef 1 fp
    rw [hs] at hsame
    exact h.not_idle ho (hsame i) (PtEntry.idle_of_eligible (PageTable.chanceSearch_last hs).1)

theorem Sys.Protected.not_freed {s : Sys} {ipt : Ipt} (h : s.Protected i) (ho : s.table.Own)
    (hf : s.ipt.freePages s.cur = .ok ipt) :
    ipt.pt.entries i = s.ipt.pt.entries i := by
  obtain ⟨hok, hpt⟩ := freePages_ok hf
  rw [hpt]
  simp only
  rw [if_neg]
  rintro ⟨hi, hpid, hu⟩
  obtain ⟨hio, hsw⟩ := hok i hi hpid hu
  rcases h.bits ho with h | h
  · exact absurd (h.symm.trans hio) (by decide)
  · exact absurd (h.symm.trans hsw) (by decide)

/-- In every run whose faults are inside the segments of their processes, each frame under
I/O belongs to exactly one operation in progress, no search and no exit takes a frame that
is under I/O or is being copied by a fork, and the assertions that say so never fail. -/
theorem frames_protected (h : Run (StepWhen Sys.Inside) (Sys.boot m) tr s) :
    (∀ i, (s.ipt.pt.entries i).ctrl.io = true → ∃! q, s.Holds q i) ∧
    (∀ i, s.Protected i → s.ipt.pt.findspace ≠ some i ∧
      (∀ start E, s.ipt.pt.seekVictim start ≠ (E, some i)) ∧
      (∀ f, freeRun s.ipt.pt.entries 1 (List.range s.ipt.pt.nEntry) none ≠ .inr (f, i)) ∧
      (∀ fp E f, s.ipt.pt.chanceSearch 1 fp ≠ (E, some (f, i))) ∧
      ∀ ipt, s.ipt.freePages s.cur = .ok ipt → ipt.pt.entries i = s.ipt.pt.entries i) ∧
    ∀ a f c, s.Enabled a → f.guards = true → c = .io ∨ c = .swap →
      s.micro a ≠ .error (.kassert f c) := by
  obtain ⟨⟨ho, hh⟩, haim⟩ : s.table.Good ∧ s.Aimed := by
    refine h.invariant (P := fun s => s.table.Good ∧ s.Aimed)
      ⟨⟨Sys.boot_own m, Sys.boot_hashed m⟩, ?_⟩ fun t a u ht hs => ?_
    · intro q v A _ hA
      cases hA
    · refine ⟨Sys.step_good ht.1 hs.2, ht.2.step hs.2.move ?_⟩
      intro f x A ha hf hA
      have hin := hs.1
      rw [ha] at hin
      exact hin hf A hA
  refine ⟨fun i hio => ?_, fun i hp => ?_, fun a f c hen hf hc he => ?_⟩
  · obtain ⟨q, o, hq⟩ := (ho.fits i).io hio
    refine ⟨q, ⟨o, hq⟩, ?_⟩
    rintro r ⟨o', hr⟩
    exact ho.apart.single hr hq
  · obtain ⟨h1, h2, h3, h4⟩ := hp.not_searched ho
    exact ⟨h1, h2, h3, h4, fun ipt hf => hp.not_freed ho hf⟩
  · have hstop := (Sys.micro_sound hen).error he
    rcases hstop.cause ho hh with hcause | htlb
    · rcases hcause.fault with he | he | ⟨v, i, A, hpc, has, hplan, -⟩
      · cases he
        cases hf
      · rw [show c = .store from he] at hc
        rcases hc with hc | hc <;> cases hc
      · obtain ⟨-, -, hv, -⟩ := (ho.fits i).held (q := s.cur) (o := some v) (by
          rw [show s.table.role s.cur = (s.pc s.cur).role from rfl, hpc]
          rfl)
        exact AddrSpace.loadPlan_ne_segv hv.2 (haim s.cur v A (by rw [hpc]; rfl) has) hplan
    · rcases htlb.fault with he | he | he
      · cases he
        rcases hc with hc | hc <;> cases hc
      · cases he
        cases hf
      · cases he
        cases hf

instance (s : Sys) (a : Action) : Decidable (s.Inside a) :=
  match a with
  | .fault t x =>
    decidable_of_iff (t = .readonly ∨
      (s.as s.cur).all (fun A => (A.loadSeg (Sys.pageOf x)).isSome) = true) (by
        simp [Sys.Inside, Option.all_eq_true, Option.ne_none_iff_isSome, or_iff_not_imp_left])
  | .dispatch _ | .kfree _ | .reap _ | .write _ _ _ | .exit | .alloc | .advance | .fork _
  | .spawn _ | .exec _ _ => .isTrue trivial

/-- A program has faulted on its first page: its frame is under I/O. -/
theorem frames_protected_fault : ∃ tr s, Run (StepWhen Sys.Inside) (Sys.boot (.blank 1 1)) tr s ∧
    s.Protected 0 ∧ ∃! q, s.Holds q 0 := by
  obtain ⟨s, hr, hs⟩ := Sys.run_of_follow (C := Sys.Inside) (s := .boot (.blank 1 1))
    [.spawn 2, .dispatch 2, .exec 0 (programHeaders 0x400000 4096 0x10000000 4096),
      .fault .read 0x400000]
    (p := fun s => (s.ipt.pt.entries 0).ctrl.io) (by decide +kernel)
  exact ⟨_, s, hr, .inl hs, (frames_protected hr).1 0 hs⟩

end Clape
