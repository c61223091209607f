import Clape.KernelEvictions
import Clape.PagingRefinement
import Clape.ProcessExit

namespace Clape
set_option autoImplicit true

/-- The page that the thread is about to store for a page fault. -/
def Pc.evicts : Pc → Option Nat
  | .storeSwap (.victim _) _ v _ => some v
  | _ => Option.none

/-- A fault is on an address that a range test of the process accepts, in an address space with both
regions, and a page that is evicted for a fault has an address that one of them accepts. -/
def Sys.Admits (s : Sys) : Action → Prop
  | .fault t x => t ≠ .readonly → ∀ A, s.as s.cur = some A →
      A.isOk = true ∧ A.loadSeg (Sys.pageOf x) ≠ none
  | .advance => ∀ v, (s.pc s.cur).evicts = some v → ∀ A, s.as s.cur = some A → A.storeSegs v ≠ []
  | _ => True

/-- What a page fault relies on. -/
def Sys.Benign (s : Sys) (a : Action) : Prop := s.Unseen a ∧ s.Linked a ∧ s.Admits a

/-- The thread handles a page fault, or exits. -/
def Pc.handles (c : Pc) : Prop := c.role.aim ≠ Option.none ∨ c.role = .exiting

theorem Pc.not_handles {c : Pc} (h : c.role.aim = Option.none)
    (h' : decide (c.role = .exiting) = false) : ¬ c.handles := by
  rintro (hc | hc)
  · exact hc h
  · exact of_decide_eq_false h' hc

theorem Pc.steady_aim : Steady fun c => c.role.aim := by
  constructor
  · intro c
    exact congrArg Role.aim c.role_wakePt
  · intro d c
    exact congrArg Role.aim (c.role_wakeCell d)
  · rfl
  · rfl
  · rfl
  · rfl

/-- What a thread does next in a page fault. -/
theorem Move.faults {s u : Sys} (hm : Move s a u) (hv : (s.pc s.cur).role.aim = some v) :
    (u.pc s.cur).role.aim = some v ∨
      (∃ i A pt mmu r st, s.pc s.cur = .loaded v i ∧ s.as s.cur = some A ∧
        tlbInsert (s.ipt.pt.pageLoaded i) s.mmu A s.cur v i = .ok (pt, mmu, r) ∧
        u = { s.setPt pt with mmu := mmu, stats := st }.goto .run) ∨
      ∃ i A, s.pc s.cur = .loadPage v i ∧ s.as s.cur = some A ∧ A.loadPlan v = .segv := by
  have hno : ∀ {c : Pc}, s.pc s.cur = c → c.role.aim = none → False := by
    rintro c rfl hc
    cases hc.symm.trans hv
  have hgo : ∀ {w : Sys} {c d : Pc}, w.cur = s.cur → s.pc s.cur = d → c.role.aim = d.role.aim →
      ((w.goto c).pc s.cur).role.aim = some v := by
    rintro w c d hw rfl hc
    rw [Sys.pc_goto, hw, Function.update_self, hc, hv]
  rcases hm.pc_cur (fun h => hno h rfl) with h | h | rfl
  · exact .inl (by rw [h, hv])
  · exact .inl (by rw [h, Pc.role_wakePt, hv])
  cases hm with
  | exit hpc => exact (hno hpc rfl).elim
  | @segv v' i A w ipt hpc has hb hplan hf =>
    rw [hpc] at hv
    cases hv
    exact .inr (.inr ⟨i, A, hpc, has, hplan⟩)
  | allocWait hpc =>
    rcases hpc with ⟨hpc, -⟩ | ⟨hpc, -⟩
    · exact (hno hpc rfl).elim
    · exact (hno hpc rfl).elim
  | allocTake hpc =>
    rcases hpc with ⟨hpc, -⟩ | ⟨hpc, -⟩
    · exact (hno hpc rfl).elim
    · exact (hno hpc rfl).elim
  | allocEvict hpc =>
    rcases hpc with ⟨hpc, -⟩ | ⟨hpc, -⟩
    · exact (hno hpc rfl).elim
    · exact (hno hpc rfl).elim
  | @store k i v' p w c hpc _ => exact .inl (hgo rfl hpc (by rw [Pc.role_storing k i c v' p]))
  | @storing k i c w st hpc _ => exact .inl (hgo rfl hpc (by rw [Pc.role_stored k i c]))
  | @cellSleep k c w hpc _ => exact .inl (hgo rfl hpc (by rw [Pc.role_cellWait]))
  | @cellWake k c hpc => exact .inl (hgo rfl hpc (by rw [Pc.role_cellWait]))
  | @loaded v' i A pt mmu r st hpc has hins =>
    rw [hpc] at hv
    cases hv
    exact .inr (.inl ⟨i, A, pt, mmu, r, st, hpc, has, hins, rfl⟩)
  | noVictim hpc => exact .inl (hgo rfl hpc rfl)
  | takeVictim hpc => exact .inl (hgo rfl hpc rfl)
  | evictVictim hpc => exact .inl (hgo rfl hpc rfl)
  | victimWake hpc => exact .inl (hgo rfl hpc rfl)
  | storedVictim hpc => exact .inl (hgo rfl hpc rfl)
  | loadFound hpc => exact .inl (hgo rfl hpc rfl)
  | loadZero hpc => exact .inl (hgo rfl hpc rfl)
  | loadElf hpc => exact .inl (hgo rfl hpc rfl)
  | cellLoad hpc => exact .inl (hgo rfl hpc rfl)
  | reading hpc => exact .inl (hgo rfl hpc rfl)
  | elfReading hpc => exact .inl (hgo rfl hpc rfl)
  | _ => exact (hno (by assumption) rfl).elim

/-- What benign steps keep. -/
structure Sys.Guarded (s : Sys) (L : SwapList → List Nat) : Prop where
  settled : s.Settled L False
  cached : s.table.Cached
  aimed : s.Aimed

namespace Sys.Guarded
variable {s u : Sys}

theorem step (h : s.Guarded L) (hs : StepWhen Sys.Benign s a u) :
    ∃ M, u.Guarded M ∧ Retagged (s.retag a) ((s.cells False).Tagged L) ((u.cells False).Tagged M) := by
  obtain ⟨⟨hU, hL, hA⟩, hs⟩ := hs
  obtain ⟨M, hM, htag⟩ := h.settled.step hs.move hL False.elim
  refine ⟨M, ⟨hM, Sys.step_cached h.settled.good h.cached hU hs, h.aimed.step hs.move ?_⟩, htag⟩
  intro t x A ha ht has
  subst ha
  exact (hA ht A has).2

theorem boot (m : Hardware) : ∃ L, (Sys.boot m).Guarded L := by
  obtain ⟨L, hL⟩ := Sys.boot_inOrder m
  refine ⟨L, hL.toSettled.loosen, Sys.boot_cached m, ?_⟩
  intro q v A _ hA
  cases hA

theorem plans (h : s.Guarded L) (hpc : s.pc s.cur = .loadPage v i) (has : s.as s.cur = some A) :
    A.loadPlan v ≠ .segv := by
  obtain ⟨-, -, hv, -⟩ := (h.settled.good.1.fits i).held (q := s.cur) (o := some v) (by
    rw [show s.table.role s.cur = (s.pc s.cur).role from rfl, hpc]
    rfl)
  exact AddrSpace.loadPlan_ne_segv hv.2 (h.aimed s.cur v A (by rw [hpc]; rfl) has)

/-- What the TLB maps for a process in user mode is a frame of the process with the page. -/
theorem mapped (h : s.Guarded L) (hm : s.Maps p v i) :
    Key s.ipt.pt.nEntry s.ipt.pt.entries i v p := by
  obtain ⟨rfl, hpc, has, k, hk, d, he⟩ := hm
  have hcur : s.mmu.previousPid = s.cur := h.cached.current has
  have hact : s.table.hasAs s.table.mmu.previousPid = true ∧
      (s.table.role s.table.mmu.previousPid).active = true := by
    rw [show s.table.mmu.previousPid = s.cur from hcur]
    exact ⟨has, by rw [show s.table.role s.cur = (s.pc s.cur).role from rfl, hpc]; rfl⟩
  have hb := h.cached.coherent.strict hact hk he
  rw [show s.table.mmu.previousPid = s.cur from hcur] at hb
  exact hb.1

/-- `tlb_insert` ends a page fault. -/
theorem inserts (h : s.Guarded L) (hins : tlbInsert pt s.mmu A s.cur v i = .ok (pt', m, r)) :
    ∃ k < numTlb, ∃ d, m.slots k = some ⟨v, i, d⟩ := by
  obtain ⟨hins, -, -⟩ := Inserted.of_tlbInsert hins
  generalize pt'.entries = E at hins
  cases hins with
  | free hk _ => exact ⟨_, hk, _, Function.update_self ..⟩
  | replace _ _ => exact ⟨_, h.cached.coherent.victim, _, Function.update_self ..⟩
  | beyond hk => exact ⟨_, h.cached.coherent.victim, _, Function.update_self ..⟩

end Sys.Guarded

/-- The page fault on `v` has returned, with a translation to a frame of the process that has the
page. -/
def Sys.Installed (s : Sys) (p v : Nat) : Prop :=
  ∃ i, s.Maps p v i ∧ Key s.ipt.pt.nEntry s.ipt.pt.entries i v p

namespace Sys.Guarded
variable {s u : Sys}

/-- How a page fault begins. -/
theorem begins (h : s.Guarded L) (hs : StepWhen Sys.Benign s (.fault t x) u) (ht : t ≠ .readonly) :
    (u.pc s.cur).role.aim = some (Sys.pageOf x) ∨ u.Installed s.cur (Sys.pageOf x) := by
  obtain ⟨M, hu, -⟩ := h.step hs
  cases hs.2.move with
  | @hit A _ _ _ ipt i pt mmu r st hpc has hv ha _ hmiss hok hget hins =>
    subst hv
    obtain ⟨k, hk, d, he⟩ := h.inserts hins
    have hm : Sys.Maps { s with ipt := { ipt with pt := pt }, mmu := mmu, stats := st } s.cur
        (Sys.pageOf x) i := ⟨rfl, hpc, Option.isSome_iff_exists.2 ⟨A, has⟩, k, hk, d, he⟩
    exact .inr ⟨i, hm, hu.mapped hm⟩
  | space hpc has hv =>
    rw [Sys.pc_goto]
    exact .inl (by rw [hv, Function.update_self]; rfl)
  | seek hpc has hv =>
    rw [Sys.pc_goto]
    exact .inl (by rw [hv, Function.update_self]; rfl)
  | exit hpc ha hf =>
    rcases ha with ha | ⟨_, ha⟩
    · cases ha
    · cases ha
      exact (ht rfl).elim
  | allocWait hpc => rcases hpc with ⟨-, h⟩ | ⟨-, h⟩ <;> cases h
  | allocTake hpc => rcases hpc with ⟨-, h⟩ | ⟨-, h⟩ <;> cases h
  | allocEvict hpc => rcases hpc with ⟨-, h⟩ | ⟨-, h⟩ <;> cases h

/-- How a page fault goes on. -/
theorem goes_on (h : s.Guarded L) (hs : StepWhen Sys.Benign s a u)
    (hv : (s.pc p).role.aim = some v) :
    (u.pc p).role.aim = some v ∨ u.Installed p v := by
  obtain ⟨M, hu, -⟩ := h.step hs
  by_cases hp : p = s.cur
  · subst hp
    rcases hs.2.move.faults hv with hv' | ⟨i, A, pt, mmu, r, st, hpc, has, hins, rfl⟩ |
      ⟨i, A, hpc, has, hplan⟩
    · exact .inl hv'
    · obtain ⟨k, hk, d, he⟩ := h.inserts hins
      have hm : Sys.Maps ({ s.setPt pt with mmu := mmu, stats := st }.goto .run) s.cur v i := by
        refine ⟨rfl, Sys.pc_goto_self { s.setPt pt with mmu := mmu, stats := st } _, ?_, k, hk, d, he⟩
        rw [Sys.as_goto]
        exact Option.isSome_iff_exists.2 ⟨A, has⟩
      exact .inr ⟨i, hm, hu.mapped hm⟩
    · exact (h.plans hpc has hplan).elim
  · left
    rw [hs.2.move.steady h.settled.good.1 Pc.steady_aim hp, hv]

end Sys.Guarded

/-- A write to a readonly page begins an exit. -/
theorem Move.readonly {s u : Sys} (hm : Move s (.fault .readonly x) u) :
    (u.pc s.cur).role = .exiting := by
  cases hm with
  | hit _ _ _ _ ht => exact (ht rfl).elim
  | space _ _ _ _ ht => exact (ht rfl).elim
  | seek _ _ _ _ ht => exact (ht rfl).elim
  | @exit _ ipt st =>
    exact congrArg Pc.role (Sys.pc_goto_self { s with ipt := ipt, stats := st } _)
  | allocWait hpc => rcases hpc with ⟨-, h⟩ | ⟨-, h⟩ <;> cases h
  | allocTake hpc => rcases hpc with ⟨-, h⟩ | ⟨-, h⟩ <;> cases h
  | allocEvict hpc => rcases hpc with ⟨-, h⟩ | ⟨-, h⟩ <;> cases h

/-- Nothing is left of the process. -/
structure Sys.Gone (s : Sys) (p : Nat) : Prop where
  entries : ∀ i < s.ipt.pt.nEntry, (s.ipt.pt.entries i).user = true → (s.ipt.pt.entries i).pid ≠ p
  nodes : ∀ v o, ¬ s.ipt.ht.Node v p o
  cells : ∀ sg, s.swap.lists.head (.seg sg p) = none

/-- How many steps the thread can make before it sleeps or its page fault or the list of cells that it
frees is over. -/
def Pc.rank : Pc → Nat
  | .victimWait _ _ true => 10
  | .findVictim _ _ => 9
  | .storeSwap _ _ _ _ => 8
  | .storing _ _ _ => 7
  | .stored _ _ => 6
  | .loadPage _ _ | .cellWait (.load _ _) _ true => 5
  | .cell (.load _ _) _ => 4
  | .reading _ _ _ | .elfReading _ _ => 3
  | .loaded _ _ => 2
  | .removeSwap .text _ | .cellWait (.exit .text) _ true => 7
  | .cell (.exit .text) _ => 6
  | .removeSwap .data _ | .cellWait (.exit .data) _ true => 5
  | .cell (.exit .data) _ => 4
  | .removeSwap .stack _ | .cellWait (.exit .stack) _ true => 3
  | .cell (.exit .stack) _ => 2
  | _ => 0

theorem Pc.rank_le (c : Pc) : c.rank ≤ 10 := by
  unfold rank
  split <;> decide

/-- A step of a page fault or of an exit brings the thread nearer to its end. -/
theorem Move.ranks {s u : Sys} (hm : Move s .advance u) (hh : (s.pc s.cur).handles)
    (hseg : ∀ v i A, s.pc s.cur = .loadPage v i → s.as s.cur = some A → A.loadPlan v ≠ .segv) :
    u.cur = s.cur ∧ ((u.pc s.cur).rank < (s.pc s.cur).rank ∨
      ∃ sg c, s.pc s.cur = .cell (.exit sg) c ∧ s.swap.store c = false ∧
        (u.pc s.cur).rank = (s.pc s.cur).rank + 1) := by
  have hno : ∀ {c : Pc}, s.pc s.cur = c → ¬ c.handles → False := by
    rintro c rfl hc
    exact hc hh
  have hgo : ∀ {w : Sys} {c d : Pc}, w.cur = s.cur → s.pc s.cur = d → decide (c.rank < d.rank) = true →
      (w.goto c).cur = s.cur ∧ (((w.goto c).pc s.cur).rank < (s.pc s.cur).rank ∨
        ∃ sg c', s.pc s.cur = .cell (.exit sg) c' ∧ s.swap.store c' = false ∧
          ((w.goto c).pc s.cur).rank = (s.pc s.cur).rank + 1) := by
    rintro w c d hw rfl hc
    refine ⟨hw, .inl ?_⟩
    rw [Sys.pc_goto, hw, Function.update_self]
    exact of_decide_eq_true hc
  cases hm with
  | exit hpc ha => exact (hno hpc (Pc.not_handles rfl rfl)).elim
  | segv hpc has _ hplan => exact (hseg _ _ _ hpc has hplan).elim
  | allocWait hpc =>
    rcases hpc with ⟨hpc, -⟩ | ⟨hpc, -⟩
    · exact (hno hpc (Pc.not_handles rfl rfl)).elim
    · exact (hno hpc (Pc.not_handles rfl rfl)).elim
  | allocTake hpc =>
    rcases hpc with ⟨hpc, -⟩ | ⟨hpc, -⟩
    · exact (hno hpc (Pc.not_handles rfl rfl)).elim
    · exact (hno hpc (Pc.not_handles rfl rfl)).elim
  | allocEvict hpc =>
    rcases hpc with ⟨hpc, -⟩ | ⟨hpc, -⟩
    · exact (hno hpc (Pc.not_handles rfl rfl)).elim
    · exact (hno hpc (Pc.not_handles rfl rfl)).elim
  | noVictim hpc => exact hgo rfl hpc rfl
  | takeVictim hpc => exact hgo rfl hpc rfl
  | evictVictim hpc => exact hgo rfl hpc rfl
  | victimWake hpc => exact hgo rfl hpc rfl
  | store hpc => exact hgo rfl hpc rfl
  | storing hpc => exact hgo rfl hpc rfl
  | storedVictim hpc => exact hgo rfl hpc rfl
  | storedAlloc hpc => exact hgo rfl hpc rfl
  | storedFork hpc => exact hgo rfl hpc rfl
  | loadFound hpc => exact hgo rfl hpc rfl
  | loadZero hpc => exact hgo rfl hpc rfl
  | loadElf hpc => exact hgo rfl hpc rfl
  | @cellSleep k c w hpc =>
    cases k with
    | load v i => exact hgo rfl hpc rfl
    | exit sg => exact hgo rfl hpc (by cases sg <;> rfl)
    | copy child sg f => exact (hno hpc (Pc.not_handles rfl rfl)).elim
  | cellLoad hpc => exact hgo rfl hpc rfl
  | @cellExit sg c w hpc hb =>
    obtain ⟨rfl, hst⟩ := SwapFile.testStore_spec hb
    refine ⟨rfl, .inr ⟨sg, c, hpc, hst.symm, ?_⟩⟩
    rw [Sys.pc_goto, Function.update_self, hpc]
    cases sg <;> rfl
  | cellCopy hpc => exact (hno hpc (Pc.not_handles rfl rfl)).elim
  | @cellWake k c hpc =>
    cases k with
    | load v i => exact hgo rfl hpc rfl
    | exit sg => exact hgo rfl hpc (by cases sg <;> rfl)
    | copy child sg f => exact (hno hpc (Pc.not_handles rfl rfl)).elim
  | reading hpc => exact hgo rfl hpc rfl
  | elfReading hpc => exact hgo rfl hpc rfl
  | loaded hpc => exact hgo rfl hpc rfl
  | allocWake hpc => exact (hno hpc (Pc.not_handles rfl rfl)).elim
  | @removeCell sg c hpc => exact hgo rfl hpc (by cases sg <;> rfl)
  | @removeNext sg sg' hpc hsg =>
    cases sg with
    | text =>
      cases hsg
      exact hgo rfl hpc rfl
    | data =>
      cases hsg
      exact hgo rfl hpc rfl
    | stack => cases hsg
  | @removeDone sg hpc => exact hgo rfl hpc (by cases sg <;> rfl)
  | copyTake hpc => exact (hno hpc (Pc.not_handles rfl rfl)).elim
  | copyNext hpc => exact (hno hpc (Pc.not_handles rfl rfl)).elim
  | copyDone hpc => exact (hno hpc (Pc.not_handles rfl rfl)).elim
  | copyReading hpc => exact (hno hpc (Pc.not_handles rfl rfl)).elim
  | copyWriting hpc => exact (hno hpc (Pc.not_handles rfl rfl)).elim
  | ptSkip hpc => exact (hno hpc (Pc.not_handles rfl rfl)).elim
  | ptStore hpc => exact (hno hpc (Pc.not_handles rfl rfl)).elim
  | ptSpace hpc => exact (hno hpc (Pc.not_handles rfl rfl)).elim
  | ptEnd hpc => exact (hno hpc (Pc.not_handles rfl rfl)).elim

/-- An exit only puts cells on the free list. -/
theorem Pc.retag_exiting {c : Pc} (h : c.role = .exiting) (hr : c.retag w = some (d, o)) :
    o = Option.none := by
  cases c with
  | cell k e =>
    cases k with
    | exit sg =>
      simp only [Pc.retag] at hr
      split at hr
      · cases hr
      · cases hr
        rfl
    | load v i => cases h
    | copy r sg f => cases h
  | storeSwap k i v p => cases k <;> cases h
  | reading v i e => cases h
  | copyWriting r sg e f => cases h
  | _ => cases hr

open Classical in
/-- The cells on the lists of a process that exits. -/
noncomputable def Sys.owned (s : Sys) (L : SwapList → List Nat) (p : Nat) : Finset Nat :=
  if (s.pc p).role = .exiting then
    (Finset.range s.swap.size).filter fun c => ∃ sg, c ∈ L (.seg sg p)
  else ∅

namespace Sys.Guarded
variable {s u : Sys}

/-- What a process that exits has in the swap file, before and after a step of its own. -/
theorem owned_step (h : s.Guarded L) (hu : u.Guarded M)
    (htag : Retagged (s.retag .advance) ((s.cells False).Tagged L) ((u.cells False).Tagged M))
    (hr : (s.pc s.cur).role = .exiting) (hr' : (u.pc s.cur).role = .exiting ∨ u.pc s.cur = .zombie) :
    u.owned M s.cur ⊆ s.owned L s.cur ∧
      ∀ sg c, s.pc s.cur = .cell (.exit sg) c → s.swap.store c = false →
        c ∈ s.owned L s.cur ∧ c ∉ u.owned M s.cur := by
  classical
  have hdead : ∀ {c}, (∃ v, (s.cells False).Tagged L c s.cur v) ↔ ∃ sg, c ∈ L (.seg sg s.cur) :=
    h.settled.kept.tagged_dead (by
      rw [show (s.cells False).errand s.cur = (s.pc s.cur).errand from rfl, Pc.alive_errand, hr]
      rfl)
  have hdead' : ∀ {c}, (∃ v, (u.cells False).Tagged M c s.cur v) ↔ ∃ sg, c ∈ M (.seg sg s.cur) :=
    hu.settled.kept.tagged_dead (by
      rw [show (u.cells False).errand s.cur = (u.pc s.cur).errand from rfl, Pc.alive_errand]
      rcases hr' with hr' | hr'
      · rw [hr']
        rfl
      · rw [hr']
        rfl)
  have hback : ∀ {c}, (∃ sg, c ∈ M (.seg sg s.cur)) → ∃ sg, c ∈ L (.seg sg s.cur) := by
    intro c hc
    obtain ⟨v, hc⟩ := hdead'.2 hc
    apply hdead.1
    cases hret : s.retag .advance with
    | none =>
      rw [hret] at htag
      exact ⟨v, (htag c s.cur v).1 hc⟩
    | some x =>
      obtain ⟨d, o⟩ := x
      rw [hret] at htag
      by_cases hd : c = d
      · subst hd
        have ho := (htag.1 s.cur v).1 hc
        rw [Pc.retag_exiting hr hret] at ho
        cases ho
      · exact ⟨v, (htag.2 c hd s.cur v).1 hc⟩
  have hmem : ∀ {c}, c ∈ u.owned M s.cur → ∃ sg, c ∈ M (.seg sg s.cur) := by
    intro c hc
    unfold Sys.owned at hc
    split at hc
    · exact (Finset.mem_filter.1 hc).2
    · simp at hc
  have hin : ∀ {c}, (∃ sg, c ∈ L (.seg sg s.cur)) → c ∈ s.owned L s.cur := by
    rintro c ⟨sg, hc⟩
    unfold Sys.owned
    rw [if_pos hr, Finset.mem_filter, Finset.mem_range]
    exact ⟨h.settled.kept.bound hc, sg, hc⟩
  refine ⟨fun c hc => hin (hback (hmem hc)), fun sg c hpc hst => ⟨hin ⟨sg, ?_⟩, fun hc => ?_⟩⟩
  · have hs := h.settled.kept.serves s.cur
    rw [show (s.cells False).errand s.cur = (s.pc s.cur).errand from rfl, hpc] at hs
    exact (hs.1 c rfl).1
  · obtain ⟨v, hc⟩ := hdead'.2 (hmem hc)
    have hret : s.retag .advance = some (c, none) := by
      change (s.pc s.cur).retag s.swap = _
      rw [hpc]
      simp [Pc.retag, hst]
    rw [hret] at htag
    cases (htag.1 s.cur v).1 hc

/-- How many steps the thread can make by itself at most. -/
noncomputable def toGo (s : Sys) (L : SwapList → List Nat) : Nat :=
  3 * (s.owned L s.cur).card + (s.pc s.cur).rank

/-- A process that handles a page fault or exits handles it after a step of its own, or is in user mode
or dead. -/
theorem handled (h : s.Guarded L) (hs : StepWhen Sys.Benign s .advance u) (hh : (s.pc s.cur).handles) :
    (u.pc s.cur).handles ∨ u.pc s.cur = .run ∨ u.pc s.cur = .zombie := by
  rcases hh with hh | hh
  · obtain ⟨v, hv⟩ := Option.ne_none_iff_exists'.1 hh
    rcases h.goes_on hs hv with hv' | ⟨i, hm, -⟩
    · exact .inl (.inl (by rw [hv']; exact Option.some_ne_none v))
    · exact .inr (.inl hm.2.1)
  · rcases hs.2.move.exiting h.settled.good.1 hh with hr | hz
    · exact .inl (.inr hr)
    · exact .inr (.inr hz)

theorem closer (h : s.Guarded L) (hs : StepWhen Sys.Benign s .advance u) (hh : (s.pc s.cur).handles) :
    ∃ M, u.Guarded M ∧ u.cur = s.cur ∧ toGo u M < toGo s L := by
  obtain ⟨M, hu, htag⟩ := h.step hs
  obtain ⟨hcur, hrank⟩ := hs.2.move.ranks hh fun v i A hpc has => h.plans hpc has
  refine ⟨M, hu, hcur, ?_⟩
  unfold toGo
  rw [hcur]
  by_cases hr : (s.pc s.cur).role = .exiting
  · obtain ⟨hsub, hfree⟩ := h.owned_step hu htag hr (hs.2.move.exiting h.settled.good.1 hr)
    rcases hrank with hlt | ⟨sg, c, hpc, hst, heq⟩
    · have hle := Finset.card_le_card hsub
      omega
    · obtain ⟨hin, hout⟩ := hfree sg c hpc hst
      have hlt := Finset.card_lt_card (hsub.ssubset_of_mem_notMem hin hout)
      omega
  · obtain ⟨v, hv⟩ := Option.ne_none_iff_exists'.1 (hh.resolve_right hr)
    have hr' : (u.pc s.cur).role ≠ .exiting := by
      intro hr'
      rcases h.goes_on hs hv with hv' | ⟨i, hm, -⟩
      · rw [hr'] at hv'
        cases hv'
      · rw [hm.2.1] at hr'
        cases hr'
    rcases hrank with hlt | ⟨sg, c, hpc, -⟩
    · unfold Sys.owned
      rw [if_neg hr, if_neg hr']
      omega
    · rw [hpc] at hr
      exact (hr rfl).elim

/-- The thread ends its page fault or its exit or sleeps after so many steps of its own. -/
theorem ends (h : s.Guarded L) (hh : (s.pc s.cur).handles)
    (hr : Run (StepWhen fun t a => t.Benign a ∧ a = .advance) s tr u) :
    tr.length ≤ 3 * s.swap.size + 10 := by
  have hcard : (s.owned L s.cur).card ≤ s.swap.size := by
    classical
    unfold Sys.owned
    split
    · exact (Finset.card_filter_le _ _).trans (Finset.card_range _).le
    · exact Nat.zero_le _
  have hrank := (s.pc s.cur).rank_le
  suffices hsuff : ∃ M, u.Guarded M ∧ u.cur = s.cur ∧ tr.length + toGo u M ≤ toGo s L ∧
      ((u.pc u.cur).handles ∨ u.pc u.cur = .run ∨ u.pc u.cur = .zombie) by
    obtain ⟨M, -, -, hlen, -⟩ := hsuff
    change _ ≤ 3 * (s.owned L s.cur).card + (s.pc s.cur).rank at hlen
    omega
  apply hr.invariant_trace (P := fun tr u => ∃ M, u.Guarded M ∧ u.cur = s.cur ∧
    tr.length + toGo u M ≤ toGo s L ∧
      ((u.pc u.cur).handles ∨ u.pc u.cur = .run ∨ u.pc u.cur = .zombie))
  · exact ⟨L, h, rfl, by simp, .inl hh⟩
  · intro tr t a w hP hs
    obtain ⟨M, ht, hcur, hlen, hph⟩ := hP
    obtain ⟨⟨hb, rfl⟩, hs⟩ := hs
    have hadv : (t.pc t.cur).advances = true := hs.1
    rcases hph with hph | hrun | hz
    · obtain ⟨N, hw, hcur', hless⟩ := ht.closer ⟨hb, hs⟩ hph
      refine ⟨N, hw, hcur'.trans hcur, ?_, ?_⟩
      · rw [List.length_append, List.length_singleton]
        omega
      · rw [hcur']
        exact ht.handled ⟨hb, hs⟩ hph
    · rw [hrun] at hadv
      cases hadv
    · rw [hz] at hadv
      cases hadv

end Sys.Guarded

instance (s : Sys) (a : Action) : Decidable (s.Admits a) :=
  match a with
  | .fault t x =>
    decidable_of_iff (t = .readonly ∨ (s.as s.cur).all (fun A =>
      A.isOk && (A.loadSeg (Sys.pageOf x)).isSome) = true) (by
        simp [Sys.Admits, Option.all_eq_true, Option.ne_none_iff_isSome, or_iff_not_imp_left])
  | .advance =>
    decidable_of_iff ((s.pc s.cur).evicts.all (fun v =>
      (s.as s.cur).all fun A => decide (A.storeSegs v ≠ [])) = true) (by
        simp [Sys.Admits, Option.all_eq_true])
  | .dispatch _ | .kfree _ | .reap _ | .write _ _ _ | .exit | .alloc | .fork _ | .spawn _
  | .exec _ _ => .isTrue trivial

instance (s : Sys) (a : Action) : Decidable (s.Linked a) :=
  match a with
  | .advance =>
    match h : s.pc s.cur with
    | .storeSwap _ _ v _ =>
      decidable_of_iff ((s.as s.cur).all (fun A => decide ((A.storeSegs v).length ≤ 1)) = true) (by
        simp [Sys.Linked, h, Option.all_eq_true])
    | .none | .embryo | .run | .zombie | .findVictim _ _ | .victimWait _ _ _ | .storing _ _ _
    | .stored _ _ | .loadPage _ _ | .cell _ _ | .cellWait _ _ _ | .reading _ _ _
    | .elfReading _ _ | .loaded _ _ | .alloc | .allocWait _ | .removeSwap _ _ | .copySwap _ _ _
    | .copyReading _ _ _ _ | .copyWriting _ _ _ _ | .copyPt _ _ =>
      .isTrue (by simp [Sys.Linked, h])
  | .dispatch _ | .kfree _ | .reap _ | .write _ _ _ | .fault _ _ | .exit | .alloc | .fork _
  | .spawn _ | .exec _ _ => .isTrue trivial

instance (s : Sys) (a : Action) : Decidable (s.Benign a) := inferInstanceAs (Decidable (_ ∧ _ ∧ _))

instance (c : Pc) : Decidable c.handles := inferInstanceAs (Decidable (_ ∨ _))

end Clape
