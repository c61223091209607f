import Clape.CellSimulation

namespace Clape
set_option autoImplicit true

/-- The page table, the lists of swap cells and the threads fit together. -/
structure Sys.Settled (s : Sys) (L : SwapList → List Nat) (K : Prop := True) : Prop where
  good : s.table.Good
  filing : s.Filing
  kin : s.Kin
  kept : (s.cells K).Kept L

/-- The cells are, besides, where `swap_init` put them. -/
structure Sys.InOrder (s : Sys) (L : SwapList → List Nat) : Prop extends s.Settled L where
  offset : ∀ c, s.swap.offset c = c * pageSize

theorem Sys.boot_kept (m : Hardware) : ∃ L, (Sys.boot m).cells.Kept L := by
  obtain ⟨L, hrep, hmem⟩ := SwapFile.initLists_rep m.swapSize
  have herr : ∀ q, (Sys.boot m).cells.errand q = .idle ∨ (Sys.boot m).cells.errand q = .gone := by
    intro q
    change (if q = 1 then Pc.run else .none).errand = .idle ∨ _
    by_cases hq : q = 1
    · rw [if_pos hq]
      exact .inl rfl
    · apply Or.inr
      change (if q = 1 then Pc.run else .none).errand = .gone
      rw [if_neg hq]
      rfl
  have hnil : ∀ sg q, L (.seg sg q) = [] := by
    intro sg q
    apply List.eq_nil_iff_forall_not_mem.2
    intro c hc
    cases ((hmem _ c).1 hc).1
  have hno : ∀ {α : Type} {f : Errand → Option α}, f .idle = none → f .gone = none →
      ∀ q, f ((Sys.boot m).cells.errand q) = none := by
    intro α f h1 h2 q
    cases herr q with
    | inl h => rw [h, h1]
    | inr h => rw [h, h2]
  refine ⟨L, ?_, ?_, ?_, ?_, ?_, ?_, ?_, ?_, ?_⟩
  · have hview : (Sys.boot m).cells.view = SwapFile.initLists m.swapSize := by
      unfold Cells.view Lists.seen
      simp only [hno (f := Errand.walk) rfl rfl]
      change Lists.mk _ _ = Lists.mk _ _
      congr 1
      funext k
      cases k <;> rfl
    rw [hview]
    exact hrep
  · intro k c hc
    exact ((hmem k c).1 hc).2
  · intro c
    rfl
  · intro q
    cases herr q with
    | inl h =>
      rw [h]
      trivial
    | inr h =>
      rw [h]
      exact fun sg => hnil sg q
  · intro q x r hq
    rw [hno (f := Errand.claim) rfl rfl] at hq
    cases hq
  · intro q r f hq
    rw [hno (f := Errand.target) rfl rfl] at hq
    cases hq
  · intro c hc
    cases hc
  · intro c _
    rfl
  · intro sg q c hc
    rw [hnil] at hc
    cases hc

theorem Sys.boot_inOrder (m : Hardware) : ∃ L, (Sys.boot m).InOrder L := by
  obtain ⟨L, hL⟩ := Sys.boot_kept m
  have hpc : ∀ q, (Sys.boot m).pc q = .run ∨ (Sys.boot m).pc q = .none := by
    intro q
    change (if q = 1 then Pc.run else .none) = .run ∨ (if q = 1 then Pc.run else .none) = .none
    by_cases hq : q = 1
    · exact .inl (if_pos hq)
    · exact .inr (if_neg hq)
  refine ⟨L, ⟨⟨Sys.boot_own m, Sys.boot_hashed m⟩, ?_, ?_, hL⟩, fun _ => rfl⟩
  · apply Sys.Filing.quiet
    intro q
    cases hpc q with
    | inl h => rw [h]; rfl
    | inr h => rw [h]; rfl
  · intro q c k hq
    cases hpc q with
    | inl h => rw [h] at hq; cases hq
    | inr h => rw [h] at hq; cases hq

/-- The cells stay where they are in the swap file. -/
theorem Move.offset {s u : Sys} (hm : Move s a u) :
    u.swap.offset = s.swap.offset ∧ u.swap.size = s.swap.size := by
  cases hm with
  | store _ h =>
    obtain ⟨-, -, A, -, -, rfl⟩ := SwapFile.storeBegin_ok h
    exact ⟨rfl, rfl⟩
  | storing _ h =>
    rw [SwapFile.storeEnd_spec h]
    exact ⟨rfl, rfl⟩
  | loadFound _ _ h =>
    obtain ⟨sg, prev, -, -, rfl⟩ := SwapFile.loadBegin_some h
    exact ⟨rfl, rfl⟩
  | cellSleep _ h =>
    rw [(SwapFile.testStore_spec h).1]
    exact ⟨rfl, rfl⟩
  | cellLoad _ h =>
    rw [(SwapFile.testStore_spec h).1]
    exact ⟨rfl, rfl⟩
  | cellExit _ h =>
    rw [(SwapFile.testStore_spec h).1]
    exact ⟨rfl, rfl⟩
  | cellCopy _ h =>
    rw [(SwapFile.testStore_spec h).1]
    exact ⟨rfl, rfl⟩
  | copyTake _ h =>
    obtain ⟨-, -, rfl⟩ := SwapFile.copyBegin_ok h
    exact ⟨rfl, rfl⟩
  | _ => exact ⟨rfl, rfl⟩

theorem Move.disk {s u : Sys} (hm : Move s a u) : u.disk = s.disk ∨
    (∃ k i c, s.pc s.cur = .storing k i c ∧ a = .advance ∧ u.pc s.cur = .stored k i ∧
      u.disk = writeAt s.disk (s.swap.offset c) pageSize (s.frame i)) ∨
    ∃ r sg c f, s.pc s.cur = .copyWriting r sg c f ∧
      u.disk = writeAt s.disk (s.swap.offset f) pageSize s.kbuf := by
  cases hm with
  | @storing k i c w st hpc h =>
    refine .inr (.inl ⟨k, i, c, hpc, rfl, ?_, rfl⟩)
    rw [Sys.pc_goto]
    exact Function.update_self ..
  | @copyWriting r sg c f hpc => exact .inr (.inr ⟨r, sg, c, f, hpc, rfl⟩)
  | _ => exact .inl rfl

theorem Sys.Settled.step {s u : Sys} (h : s.Settled L K) (hm : Move s a u) (ha : s.Linked a)
    (hK : K → s.Filed a) : ∃ M, u.Settled M K ∧
      Retagged (s.retag a) ((s.cells K).Tagged L) ((u.cells K).Tagged M) := by
  obtain ⟨⟨ho, hh⟩, hf, hk, hc⟩ := h
  obtain ⟨M, hM, htag⟩ := hc.step (hm.cells ho hf hk ha hK)
  refine ⟨M, ⟨?_, hf.step hh ho hk hm, hk.step ho hm, hM⟩, htag⟩
  exact Table.Good.moves ⟨ho, hh⟩ (hm.table (F := False) ho False.elim)

theorem Sys.Settled.loosen {s : Sys} (h : s.Settled L K) : s.Settled L False :=
  ⟨h.good, h.filing, h.kin, { h.kept with filed := fun _ => .inr False.elim }⟩

theorem Sys.InOrder.step {s u : Sys} (h : s.InOrder L) (hm : Move s a u) (ha : s.Filed a) :
    ∃ M, u.InOrder M ∧ Retagged (s.retag a) (s.cells.Tagged L) (u.cells.Tagged M) := by
  obtain ⟨M, hM, htag⟩ := h.toSettled.step hm ha.linked fun _ => ha
  refine ⟨M, ⟨hM, ?_⟩, htag⟩
  intro c
  rw [hm.offset.1]
  exact h.offset c

theorem Sys.run_inOrder (h : Run (StepWhen Sys.Filed) (Sys.boot m) tr s) : ∃ L, s.InOrder L := by
  apply h.invariant (P := fun s => ∃ L, s.InOrder L)
  · exact Sys.boot_inOrder m
  · intro t a u ht hs
    obtain ⟨L, ht⟩ := ht
    obtain ⟨M, hM, -⟩ := ht.step hs.2.move hs.1
    exact ⟨M, hM⟩

namespace Sys.Settled
variable {s u : Sys}

theorem free_chain (h : s.Settled L K) :
    Chain s.swap.lists.next (s.swap.lists.head .free) (L .free) :=
  h.kept.rep.chain .free

theorem head_free (h : s.Settled L K) (hc : s.swap.lists.head .free = some c) : c ∈ L .free := by
  have hc' : (s.cells K).view.head .free = some c := hc
  exact h.kept.rep.mem_head hc'

theorem storeBegin_error {o : Option AddrSpace} (h : s.Settled L K)
    (he : s.swap.storeBegin o v p = .error e) :
    (s.swap.lists.head .free = none ∧ e = .swapFull .storeSwap) ∨
    (o = none ∧ e = .nullAddrspace .storeSwap) ∨
    ∃ A, o = some A ∧ A.storeSegs v = [] ∧ e = .panic .storeSwap := by
  unfold SwapFile.storeBegin at he
  split at he
  · rename_i hc
    cases he
    exact .inl ⟨hc, rfl⟩
  · rename_i c hc
    rw [show s.swap.store c = false from h.kept.free (h.head_free hc)] at he
    cases o with
    | none =>
      cases he
      exact .inr (.inl ⟨rfl, rfl⟩)
    | some A =>
      simp only [Bool.not_false, kassert_true, bind, Except.bind] at he
      split at he
      · rename_i hs
        cases he
        exact .inr (.inr ⟨A, rfl, hs, rfl⟩)
      · cases he

theorem copyBegin_error (h : s.Settled L K) (he : s.swap.copyBegin sg r = .error e) :
    s.swap.lists.head .free = none ∧ e = .swapFull .copySwapPages := by
  unfold SwapFile.copyBegin at he
  split at he
  · rename_i hc
    cases he
    exact ⟨hc, rfl⟩
  · rename_i c hc
    rw [show s.swap.store c = false from h.kept.free (h.head_free hc)] at he
    cases he

theorem storeEnd_ok (h : s.Settled L K) (q c : Nat) : s.swap.storeEnd q c ≠ .error e := by
  intro he
  have hl : s.swap.lock c = none := h.kept.unlocked
  simp only [SwapFile.storeEnd, SwapFile.lockAcquire, hl, if_true, bind, Except.bind] at he
  cases he

theorem testStore_ok (h : s.Settled L K) (q c : Nat) (f : Fn) : s.swap.testStore q c f ≠ .error e := by
  intro he
  have hl : s.swap.lock c = none := h.kept.unlocked
  simp only [SwapFile.testStore, SwapFile.lockAcquire, hl, if_true, bind, Except.bind] at he
  cases he

theorem search (h : s.Settled L K) (hw : (s.pc q).errand.walk = none) (p : Nat → Bool) (sg : Segment) :
    (∃ A c B, L (.seg sg q) = A ++ c :: B ∧ (∀ d ∈ A, p d = false) ∧ p c = true ∧
      s.swap.lists.search p s.swap.size none (s.swap.lists.head (.seg sg q)) =
        .found A.getLast? c) ∨
    ((∀ d ∈ L (.seg sg q), p d = false) ∧
      s.swap.lists.search p s.swap.size none (s.swap.lists.head (.seg sg q)) = .missing) := by
  have hchain : Chain s.swap.lists.next (s.swap.lists.head (.seg sg q)) (L (.seg sg q)) := by
    rw [← Lists.seen_head_of_none (W := fun q => (s.pc q).errand.walk) hw]
    exact h.kept.rep.chain (.seg sg q)
  have hlen : (L (.seg sg q)).length ≤ s.swap.size :=
    h.kept.rep.length_le fun d hd => h.kept.bound hd
  simpa only [Option.or_none] using search_spec (p := p) hchain hlen none

theorem loadBegin_error (h : s.Settled L K) (hw : (s.pc p).errand.walk = none)
    (he : s.swap.loadBegin A v p = .error e) : A.loadSeg v = none ∧ e = .panic .loadSwap := by
  unfold SwapFile.loadBegin at he
  split at he
  · rename_i hs
    cases he
    exact ⟨hs, rfl⟩
  · rename_i sg hs
    rcases h.search hw (fun c => s.swap.vaddr c == v) sg with ⟨_, c, _, -, -, -, hsearch⟩ | ⟨-, hsearch⟩
    · rw [hsearch] at he
      cases he
    · rw [hsearch] at he
      cases he

end Sys.Settled

/-- All programs that run have the layout of `A₀`. -/
def Sys.Family (A₀ : AddrSpace) (_ : Sys) : Action → Prop
  | .exec vn phs => ∀ A, loadElf vn phs = some A → A.SameLayout A₀
  | _ => True

/-- All address spaces have the layout of `A₀`. -/
def Sys.Alike (A₀ : AddrSpace) (s : Sys) : Prop := ∀ q A, s.as q = some A → A.SameLayout A₀

/-- Address spaces come from `execv`, or from a process that forks. -/
theorem as_of_move {s u : Sys} (hm : Move s a u) : (∀ q A, u.as q = some A → ∃ p, s.as p = some A) ∨
    ∃ vn phs A, a = .exec vn phs ∧ loadElf vn phs = some A ∧
      u.as = Function.update s.as s.cur (some A) := by
  have hsame : u.as = s.as → ∀ q A, u.as q = some A → ∃ p, s.as p = some A := by
    intro has q A hq
    exact ⟨q, has ▸ hq⟩
  have hupd : ∀ {p x}, u.procs = Function.update s.procs p x → (∀ A, x.as = some A →
      s.as s.cur = some A) → ∀ q A, u.as q = some A → ∃ p, s.as p = some A := by
    intro p x hu hx q A hq
    simp only [Sys.as, hu] at hq
    by_cases hqp : q = p
    · rw [hqp, Function.update_self] at hq
      exact ⟨s.cur, hx A hq⟩
    · rw [Function.update_of_ne hqp] at hq
      exact ⟨q, hq⟩
  cases hm with
  | @fork as child pt =>
    apply Or.inl
    intro q A hq
    rw [Sys.as_goto] at hq
    change (Function.update s.procs child ⟨s.as s.cur, .embryo⟩ q).as = some A at hq
    by_cases hqc : q = child
    · rw [hqc, Function.update_self] at hq
      exact ⟨s.cur, hq⟩
    · rw [Function.update_of_ne hqc] at hq
      exact ⟨q, hq⟩
  | spawn => exact .inl (hupd rfl (by simp))
  | reap => exact .inl (hupd rfl (by simp))
  | @exec vn phs A pt mmu st _ _ hload _ =>
    refine .inr ⟨vn, phs, A, rfl, hload, ?_⟩
    funext q
    change (Function.update s.procs s.cur { s.procs s.cur with as := some A } q).as = _
    by_cases hq : q = s.cur
    · rw [hq, Function.update_self, Function.update_self]
    · rw [Function.update_of_ne hq, Function.update_of_ne hq]
      rfl
  | storing => exact .inl (hsame (by rw [Sys.as_goto, Sys.as_mapPc]; rfl))
  | ptEnd => exact .inl (hsame (by rw [Sys.as_goto, Sys.as_setPc, Sys.as_mapPc]; rfl))
  | dispatch => exact .inl (hsame rfl)
  | write => exact .inl (hsame rfl)
  | hit => exact .inl (hsame rfl)
  | allocFree => exact .inl (hsame rfl)
  | kfree => exact .inl (hsame rfl)
  | _ => exact .inl (hsame (Sys.as_goto _ _))

theorem Sys.Alike.step {s u : Sys} (h : s.Alike A₀) (hm : Move s a u) (ha : s.Family A₀ a) :
    u.Alike A₀ := by
  intro q A hq
  rcases as_of_move hm with hold | ⟨vn, phs, B, rfl, hload, has⟩
  · obtain ⟨p, hp⟩ := hold q A hq
    exact h p A hp
  · rw [has] at hq
    by_cases hqc : q = s.cur
    · rw [hqc, Function.update_self] at hq
      cases hq
      exact ha A hload
    · rw [Function.update_of_ne hqc] at hq
      exact h q A hq

/-- In a family of processes with one layout every page is filed where its owner looks. -/
theorem Sys.Alike.filed {s : Sys} (h : s.Alike A₀) (hA : A₀.Exclusive) (hf : s.Filing)
    (a : Action) : s.Filed a := by
  cases a with
  | advance =>
    unfold Sys.Filed
    simp only
    split
    · rename_i k i v p hpc
      intro A hcur
      obtain ⟨B, hB⟩ := Option.isSome_iff_exists.1 (hf s.cur v p (by rw [hpc]; rfl)).2.1
      have hsA := (h s.cur A hcur).storeSegs v
      have hsB := (h p B hB).storeSegs v
      refine ⟨hsA ▸ hA v, ?_⟩
      rw [hB]
      change (B.storeSegs v).getLast? = (A.storeSegs v).getLast?
      rw [hsA, hsB]
    · trivial
  | _ => trivial

theorem Sys.run_family (hA : A₀.Exclusive) (h : Run (StepWhen (Sys.Family A₀)) (Sys.boot m) tr s) :
    (∃ L, s.InOrder L) ∧ s.Alike A₀ := by
  apply h.invariant (P := fun s => (∃ L, s.InOrder L) ∧ s.Alike A₀)
  · refine ⟨Sys.boot_inOrder m, ?_⟩
    intro q A hq
    cases hq
  · intro t a u ht hs
    obtain ⟨⟨L, hL⟩, hal⟩ := ht
    obtain ⟨M, hM, -⟩ := hL.step hs.2.move (hal.filed hA hL.filing a)
    exact ⟨⟨M, hM⟩, hal.step hs.2.move hs.1⟩

/-- The thread reads the cell, for a load or a copy. -/
def Pc.reads (c : Nat) : Pc → Bool
  | .reading _ _ d | .copyReading _ _ d _ => c == d
  | _ => false

/-- The thread has met the cell in a load or a copy and has not read it yet. -/
def Pc.wants (c : Nat) : Pc → Bool
  | .cell (.load _ _) d | .cell (.copy _ _ _) d | .cellWait (.load _ _) d _
  | .cellWait (.copy _ _ _) d _ | .reading _ _ d | .copyReading _ _ d _ => c == d
  | _ => false

/-- The thread is in `VOP_READ` or `VOP_WRITE` on the cell. -/
def Pc.busy (c : Nat) : Pc → Bool
  | .storing _ _ d | .reading _ _ d | .copyReading _ _ d _ | .copyWriting _ _ _ d => c == d
  | _ => false

theorem Pc.waits_of_reads {pc : Pc} (h : pc.reads c = true) : pc.errand.waits = some (c, .ready) := by
  cases pc with
  | reading v i d =>
    rw [show c = d from beq_iff_eq.1 h]
    rfl
  | copyReading r sg d f =>
    rw [show c = d from beq_iff_eq.1 h]
    rfl
  | _ => cases h

theorem Pc.errand_of_wants {pc : Pc} (h : pc.wants c = true) :
    (∃ v ph, pc.errand = .loading v c ph) ∨
      ∃ r sg f ph, pc.errand = .copyingTo r sg c f ph ∧ ∀ r' sg' d f', pc ≠ .copyWriting r' sg' d f' := by
  cases pc with
  | cell k d =>
    cases k with
    | load v i =>
      rw [show c = d from beq_iff_eq.1 h]
      exact .inl ⟨v, _, rfl⟩
    | exit sg => cases h
    | copy r sg f =>
      rw [show c = d from beq_iff_eq.1 h]
      exact .inr ⟨r, sg, f, _, rfl, nofun⟩
  | cellWait k d w =>
    cases k with
    | load v i =>
      rw [show c = d from beq_iff_eq.1 h]
      exact .inl ⟨v, _, rfl⟩
    | exit sg => cases h
    | copy r sg f =>
      rw [show c = d from beq_iff_eq.1 h]
      exact .inr ⟨r, sg, f, _, rfl, nofun⟩
  | reading v i d =>
    rw [show c = d from beq_iff_eq.1 h]
    exact .inl ⟨v, _, rfl⟩
  | copyReading r sg d f =>
    rw [show c = d from beq_iff_eq.1 h]
    exact .inr ⟨r, sg, f, _, rfl, nofun⟩
  | _ => cases h

namespace Sys.Settled
variable {s : Sys}

theorem phase (h : s.Settled L K) (hw : (s.pc q).errand.waits = some (c, ph)) :
    ph.Agrees (s.swap.store c) := by
  have hs := h.kept.serves q
  rw [show (s.cells K).errand q = (s.pc q).errand from rfl] at hs
  cases he : (s.pc q).errand with
  | loading v d ph' =>
    rw [he] at hw hs
    cases hw
    exact hs.2.2
  | freeing sg o ph' =>
    rw [he] at hw hs
    cases o with
    | none => cases hw
    | some d =>
      cases hw
      exact (hs.1 c rfl).2
  | copyingTo r sg d f ph' =>
    rw [he] at hw hs
    cases hw
    exact hs.2.2.2
  | _ =>
    rw [he] at hw
    cases hw

theorem storer (h : s.Settled L K) (hc : s.swap.store c = true) :
    ∃! p, ∃ k i, s.pc p = .storing k i c := by
  have hpc : ∀ {p}, (s.pc p).errand = .storing c → ∃ k i, s.pc p = .storing k i c := by
    intro p hp
    cases he : s.pc p with
    | storing k i d =>
      rw [he] at hp
      cases hp
      exact ⟨k, i, rfl⟩
    | cell k d =>
      rw [he] at hp
      cases k <;> cases hp
    | cellWait k d w =>
      rw [he] at hp
      cases k <;> cases hp
    | _ =>
      rw [he] at hp
      cases hp
  obtain ⟨p, hp⟩ := h.kept.stored hc
  refine ⟨p, hpc hp, ?_⟩
  rintro r ⟨k, i, hr⟩
  have hr' : (s.cells K).errand r = .storing c := by
    rw [show (s.cells K).errand r = (s.pc r).errand from rfl, hr]
    rfl
  exact h.kept.apart (Errand.eq_storing_iff.1 hr') (Errand.eq_storing_iff.1 hp)

end Sys.Settled

namespace Sys.InOrder
variable {s u : Sys}

theorem store_of_storing (h : s.InOrder L) (hp : s.pc p = .storing k i c) :
    s.swap.store c = true := by
  have hs := h.kept.serves p
  rw [show s.cells.errand p = (s.pc p).errand from rfl, hp] at hs
  exact hs

theorem not_free_of_busy (h : s.InOrder L) (hq : (s.pc q).busy c = true) : c ∉ L .free := by
  cases hpc : s.pc q with
  | storing k i d =>
    rw [hpc, show (Pc.storing k i d).busy c = (c == d) from rfl, beq_iff_eq] at hq
    intro hf
    have hst := h.store_of_storing (hq ▸ hpc)
    rw [show s.swap.store c = false from h.kept.free hf] at hst
    cases hst
  | reading v i d =>
    rw [hpc, show (Pc.reading v i d).busy c = (c == d) from rfl, beq_iff_eq] at hq
    exact h.kept.used (q := q) (by
      rw [show s.cells.errand q = (s.pc q).errand from rfl, hpc]
      exact hq)
  | copyReading r sg d f =>
    rw [hpc, show (Pc.copyReading r sg d f).busy c = (c == d) from rfl, beq_iff_eq] at hq
    exact h.kept.used (q := q) (by
      rw [show s.cells.errand q = (s.pc q).errand from rfl, hpc]
      exact .inl hq)
  | copyWriting r sg d f =>
    rw [hpc, show (Pc.copyWriting r sg d f).busy c = (c == f) from rfl, beq_iff_eq] at hq
    exact h.kept.used (q := q) (by
      rw [show s.cells.errand q = (s.pc q).errand from rfl, hpc]
      exact .inr hq)
  | _ =>
    rw [hpc] at hq
    cases hq

end Sys.InOrder

/-- A store goes on until its thread advances. -/
theorem Move.storing_stays {s u : Sys} (hm : Move s a u) (ho : s.table.Own)
    (hp : s.pc p = .storing k i c) : u.pc p = .storing k i c ∨ s.cur = p ∧ a = .advance := by
  by_cases hcur : p = s.cur
  · rw [hcur] at hp ⊢
    rcases hm.pc_cur (by rw [hp]; exact nofun) with h | h | h
    · exact .inl (h.trans hp)
    · rw [hp] at h
      exact .inl h
    · exact .inr ⟨rfl, h⟩
  · rcases hm.pc_other hcur with h | h | ⟨d, h⟩ | ⟨⟨h, -⟩ | h | ⟨j, h⟩, -⟩
    · exact .inl (h.trans hp)
    · rw [hp] at h
      exact .inl h
    · rw [hp] at h
      exact .inl h
    · rw [hp] at h
      cases h
    · rw [hp] at h
      cases h
    · have hr : s.table.role s.cur = .forking p j := by
        rw [show s.table.role s.cur = (s.pc s.cur).role from rfl, h]
        rfl
      have := ho.apart.embryo hr
      rw [show s.table.role p = (s.pc p).role from rfl, hp] at this
      cases k <;> cases this

namespace Sys.InOrder
variable {s u : Sys}

theorem cellBytes_of_write (h : s.InOrder L) (hne : d ≠ c) (hoff : u.swap.offset = s.swap.offset)
    (hu : u.disk = writeAt s.disk (s.swap.offset d) pageSize b) :
    SameBytes pageSize (u.cellBytes c) (s.cellBytes c) := by
  unfold Sys.cellBytes
  rw [hu, hoff, h.offset c, h.offset d]
  exact readAt_writeAt_apart _ _ (blocks_apart hne pageSize)

/-- While a load or a copy wants a cell that is on the disk, nothing happens to the cell. -/
theorem want_step (h : s.InOrder L) (hm : Move s a u) (hq : (s.pc q).wants c = true)
    (hc : s.swap.store c = false) :
    u.swap.store c = false ∧ SameBytes pageSize (u.cellBytes c) (s.cellBytes c) := by
  have huse : (s.cells.errand q).Uses c := by
    rw [show s.cells.errand q = (s.pc q).errand from rfl]
    rcases Pc.errand_of_wants hq with ⟨v, ph, he⟩ | ⟨r, sg, f, ph, he, -⟩
    · rw [he]
      rfl
    · rw [he]
      exact .inl rfl
  constructor
  · -- a store that begins takes a free cell
    cases hm with
    | @store k i v p w d hpc hb =>
      obtain ⟨hd, -, A, -, -, rfl⟩ := SwapFile.storeBegin_ok hb
      have hne : c ≠ d := by
        rintro rfl
        exact h.kept.used huse (h.head_free hd)
      change Function.update s.swap.store d true c = false
      rw [Function.update_of_ne hne]
      exact hc
    | @storing k i d w st hpc hb =>
      rw [SwapFile.storeEnd_spec hb]
      change Function.update s.swap.store d false c = false
      by_cases hne : c = d
      · rw [hne, Function.update_self]
      · rw [Function.update_of_ne hne]
        exact hc
    | loadFound _ _ hb =>
      obtain ⟨sg, prev, -, -, rfl⟩ := SwapFile.loadBegin_some hb
      exact hc
    | cellSleep _ hb =>
      rw [(SwapFile.testStore_spec hb).1]
      exact hc
    | cellLoad _ hb =>
      rw [(SwapFile.testStore_spec hb).1]
      exact hc
    | cellExit _ hb =>
      rw [(SwapFile.testStore_spec hb).1]
      exact hc
    | cellCopy _ hb =>
      rw [(SwapFile.testStore_spec hb).1]
      exact hc
    | copyTake _ hb =>
      obtain ⟨-, -, rfl⟩ := SwapFile.copyBegin_ok hb
      exact hc
    | _ => exact hc
  · have hoff := hm.offset.1
    rcases hm.disk with hd | ⟨k, i, d, hpc, -, -, hd⟩ | ⟨r, sg, d, f, hpc, hd⟩
    · unfold Sys.cellBytes
      rw [hd, hoff]
      exact .refl _ _
    · apply h.cellBytes_of_write _ hoff hd
      rintro rfl
      have hst := h.store_of_storing hpc
      rw [hc] at hst
      cases hst
    · -- the target of a copy is on a list of the child, and there is one copy at a time
      apply h.cellBytes_of_write _ hoff hd
      rintro rfl
      have hs := h.kept.serves s.cur
      rw [show s.cells.errand s.cur = (s.pc s.cur).errand from rfl, hpc] at hs
      have hf : f ∈ L (.seg sg r) := hs.2.1
      rcases Pc.errand_of_wants hq with ⟨v, ph, he⟩ | ⟨r', sg', f', ph, he, hnot⟩
      · exact h.kept.load_off (q := q) (v := v) (by
          rw [show s.cells.errand q = (s.pc q).errand from rfl, he]
          rfl) _ hf
      · have hqc : q = s.cur := by
          apply h.kept.apart (x := .copy)
          · rw [show s.cells.errand q = (s.pc q).errand from rfl, he]
            rfl
          · rw [show s.cells.errand s.cur = (s.pc s.cur).errand from rfl, hpc]
            rfl
        rw [hqc] at hnot
        exact hnot _ _ _ _ hpc

end Sys.InOrder

/-- The bytes that a load or a copy reads from a cell that it met while the cell was being
stored are those of the store, and the store is over. -/
theorem store_read (hA : A₀.Exclusive) (h : Run (StepWhen (Sys.Family A₀)) (Sys.boot m) tr s)
    (hp : s.pc p = .storing k i c)
    (ht : Run (StepWhen fun s a => s.Family A₀ a ∧ (s.pc q).wants c = true) s tr' t)
    (hq : (t.pc q).reads c = true) :
    ∃ tr₁ tr₂ u, tr' = tr₁ ++ .advance :: tr₂ ∧ Run (StepWhen (Sys.Family A₀)) s tr₁ u ∧
      u.cur = p ∧ u.pc p = .storing k i c ∧ SameBytes pageSize (t.cellBytes c) (u.frame i) := by
  have hinv := ht.invariant_trace (P := fun tr' t =>
    Run (StepWhen (Sys.Family A₀)) s tr' t ∧ (t.pc p = .storing k i c ∨ t.swap.store c = false ∧
      ∃ tr₁ tr₂ u, tr' = tr₁ ++ .advance :: tr₂ ∧ Run (StepWhen (Sys.Family A₀)) s tr₁ u ∧
        u.cur = p ∧ u.pc p = .storing k i c ∧ SameBytes pageSize (t.cellBytes c) (u.frame i)))
    ⟨.nil s, .inl hp⟩ (fun tr' t a u ih hs => ?_)
  · obtain ⟨hrun, hor⟩ := hinv
    rcases hor with hst | ⟨-, hres⟩
    · obtain ⟨⟨L, hL⟩, -⟩ := Sys.run_family hA (h.append hrun)
      have := hL.phase (Pc.waits_of_reads hq)
      rw [show t.swap.store c = true from hL.store_of_storing hst] at this
      cases this
    · exact hres
  · obtain ⟨hrun, hor⟩ := ih
    obtain ⟨⟨ha, hq⟩, hs⟩ := hs
    refine ⟨.snoc hrun ⟨ha, hs⟩, ?_⟩
    obtain ⟨⟨L, hL⟩, -⟩ := Sys.run_family hA (h.append hrun)
    have hm := hs.move
    rcases hor with hst | ⟨hc, tr₁, tr₂, w, rfl, hw, hcur, hpc, hb⟩
    · rcases hm.storing_stays hL.good.1 hst with hst' | ⟨hcur, rfl⟩
      · exact .inl hst'
      · -- the end of the store
        apply Or.inr
        have hpc : t.pc t.cur = .storing k i c := hcur ▸ hst
        have hu := hs.2
        simp only [Sys.micro, Sys.advance, hpc] at hu
        obtain ⟨w, hw, hu⟩ := bind_ok.1 hu
        rw [SwapFile.storeEnd_spec hw] at hu
        cases hu
        refine ⟨Function.update_self .., tr', [], t, rfl, hrun, hcur, hst, ?_⟩
        exact readAt_writeAt t.disk (t.swap.offset c) pageSize (t.frame i)
    · obtain ⟨hc', hb'⟩ := hL.want_step hm hq hc
      exact .inr ⟨hc', tr₁, tr₂ ++ [a], w, by simp, hw, hcur, hpc, hb'.trans hb⟩

/-- In every run of a family of processes with one layout whose range tests exclude each
other: the store flag of a cell tells the one store that is under way; loads and copies read
a cell when its store is over, and read what was stored; a cell under I/O is not free and
is not taken; the assertions on the flag do not fail; and a thread that sleeps on a cell is
going to be woken. -/
theorem inFlight_stores_safe (hA : A₀.Exclusive)
    (h : Run (StepWhen (Sys.Family A₀)) (Sys.boot m) tr s) :
    (∀ c, s.swap.store c = true → ∃! p, ∃ k i, s.pc p = .storing k i c) ∧
    (∀ q c, (s.pc q).reads c = true → s.swap.store c = false) ∧
    (∀ q c p k i, (s.pc q).wants c = true → s.pc p = .storing k i c → ∀ tr' t,
      Run (StepWhen fun s a => s.Family A₀ a ∧ (s.pc q).wants c = true) s tr' t →
      (t.pc q).reads c = true → ∃ tr₁ tr₂ u, tr' = tr₁ ++ .advance :: tr₂ ∧
        Run (StepWhen (Sys.Family A₀)) s tr₁ u ∧ u.cur = p ∧ u.pc p = .storing k i c ∧
        SameBytes pageSize (t.cellBytes c) (u.frame i)) ∧
    (∀ q c, (s.pc q).busy c = true →
      (∃ F, Chain s.swap.lists.next (s.swap.lists.head .free) F ∧ c ∉ F) ∧
      (∀ A v p w, s.swap.storeBegin A v p ≠ .ok (w, c)) ∧
      ∀ sg r w, s.swap.copyBegin sg r ≠ .ok (w, c)) ∧
    (∀ a, s.Enabled a → s.micro a ≠ .error (.kassert .storeSwap .store) ∧
      s.micro a ≠ .error (.kassert .copySwapPages .store)) ∧
    ∀ q k c, s.pc q = .cellWait k c false → s.swap.store c = true ∧
      ∃ p k' i, s.pc p = .storing k' i c := by
  obtain ⟨⟨L, hL⟩, -⟩ := Sys.run_family hA h
  refine ⟨fun c hc => hL.storer hc, fun q c hq => ?_, fun q c p k i _ hp tr' t ht hq => ?_,
    fun q c hq => ?_, fun a hen => ?_, fun q k c hq => ?_⟩
  · exact hL.phase (Pc.waits_of_reads hq)
  · exact store_read hA h hp ht hq
  · have hfree := hL.not_free_of_busy hq
    refine ⟨⟨L .free, hL.free_chain, hfree⟩, fun A v p w hw => ?_, fun sg r w hw => ?_⟩
    · exact hfree (hL.head_free (SwapFile.storeBegin_ok hw).1)
    · exact hfree (hL.head_free (SwapFile.copyBegin_ok hw).1)
  · have hno : ∀ f, f ≠ .freePages → s.micro a ≠ .error (.kassert f .store) := by
      intro f hf he
      cases ((Sys.micro_sound hen).error he).cause hL.good.1 hL.good.2 with
      | inl hcause =>
        cases hcause with
        | segv _ _ _ he =>
          rcases freePages_error he with ⟨c, he⟩ | he | he
          · cases he
            exact hf rfl
          · cases he
          · cases he
        | store _ he =>
          rcases hL.storeBegin_error he with ⟨-, he⟩ | ⟨-, he⟩ | ⟨A, -, -, he⟩
          · cases he
          · cases he
          · cases he
        | storing _ he => exact hL.storeEnd_ok _ _ he
        | loadBegin hpc _ he =>
          cases (hL.loadBegin_error (by rw [hpc]; rfl) he).2
        | testStore _ he => exact hL.testStore_ok _ _ _ he
        | copyTake _ he => cases (hL.copyBegin_error he).2
      | inr htlb =>
        rcases htlb.fault with he | he | he
        · cases he
        · cases he
        · cases he
    exact ⟨hno _ nofun, hno _ nofun⟩
  · have hst : s.swap.store c = true := by
      have hw : (s.pc q).errand.waits = some (c, .asleep) := by
        rw [hq]
        cases k <;> rfl
      exact hL.phase hw
    obtain ⟨p, ⟨k', i, hp⟩, -⟩ := hL.storer hst
    exact ⟨hst, p, k', i, hp⟩

instance (A B : AddrSpace) : Decidable (A.SameLayout B) :=
  inferInstanceAs (Decidable (_ ∧ _ ∧ _ ∧ _))

instance (A₀ : AddrSpace) (s : Sys) (a : Action) : Decidable (s.Family A₀ a) :=
  match a with
  | .exec vn phs =>
    decidable_of_iff ((loadElf vn phs).all (fun A => decide (A.SameLayout A₀)) = true) (by
      simp [Sys.Family, Option.all_eq_true])
  | .dispatch _ | .kfree _ | .reap _ | .write _ _ _ | .fault _ _ | .exit | .alloc | .advance
  | .fork _ | .spawn _ => .isTrue trivial

/-- A layout with one page of text and one page of data, far apart. -/
def smallLayout : AddrSpace := ⟨0x400000, 1, 0x10000000, 1, .zero, .zero, 0, 0, 0⟩

theorem smallLayout_exclusive : smallLayout.Exclusive := by
  intro v
  have ht : smallLayout.inText v = true → v ≤ 0x401000 := by
    intro h
    have h := (Bool.and_eq_true_iff.1 h).2
    exact of_decide_eq_true h
  have hd : smallLayout.inData v = true → 0x10000000 ≤ v ∧ v ≤ 0x10001000 := by
    intro h
    have h := Bool.and_eq_true_iff.1 h
    exact ⟨of_decide_eq_true h.1, of_decide_eq_true h.2⟩
  have hs : smallLayout.inStack v = true → 0x10001000 < v := by
    intro h
    have h := (Bool.and_eq_true_iff.1 h).2
    exact of_decide_eq_true h
  unfold AddrSpace.storeSegs
  split
  · rename_i h1
    have := ht h1
    rw [if_neg (by intro h2; have := hd h2; omega), if_neg (by intro h3; have := hs h3; omega)]
    simp
  · split
    · rename_i h2
      have := hd h2
      rw [if_neg (by intro h3; have := hs h3; omega)]
      simp
    · split <;> simp

/-- Process 3 evicts the page of process 2, which faults on it before the store is over and
sleeps on the cell. -/
theorem inFlight_stores_safe_wait : ∃ tr s,
    Run (StepWhen (Sys.Family smallLayout)) (Sys.boot (.blank 2 4)) tr s ∧
      s.pc 2 = .cellWait (.load 0x400000 1) 0 false ∧ s.swap.store 0 = true ∧
      ∃ p k i, s.pc p = .storing k i 0 := by
  obtain ⟨s, hr, hs⟩ := Sys.run_of_follow (C := Sys.Family smallLayout) (s := .boot (.blank 2 4))
    [.spawn 2, .spawn 3, .dispatch 2, .exec 0 (programHeaders 0x400000 4096 0x10000000 4096),
      .fault .read 0x400000, .advance, .advance, .advance,
      .dispatch 3, .exec 0 (programHeaders 0x400000 4096 0x10000000 4096),
      .fault .read 0x400000, .advance, .advance, .advance,
      .fault .read 0x10000000, .advance, .advance,
      .dispatch 2, .fault .read 0x400000, .advance, .advance, .advance, .advance, .advance,
      .advance]
    (p := fun s => decide (s.pc 2 = .cellWait (.load 0x400000 1) 0 false)) (by decide +kernel)
  have hs := of_decide_eq_true hs
  obtain ⟨-, -, -, -, -, hwait⟩ := inFlight_stores_safe smallLayout_exclusive hr
  obtain ⟨hst, hp⟩ := hwait 2 _ 0 hs
  exact ⟨_, s, hr, hs, hst, hp⟩

end Clape
