import Clape.InFlightStores
import Clape.Menu

namespace Clape
set_option autoImplicit true

/-- The running process has an address space, and its range tests accept every page in
memory that can be evicted. -/
def Sys.Accepts (s : Sys) : Prop :=
  ∀ i < s.ipt.pt.nEntry, (s.ipt.pt.entries i).eligible = true → (s.ipt.pt.entries i).user = true →
    ∃ A, s.as s.cur = some A ∧ A.storeSegs (s.ipt.pt.entries i).page ≠ []

/-- An allocation of a kernel page for which no frame is free is made by a thread whose
address space accepts the pages in memory. -/
def Sys.Backs (s : Sys) : Action → Prop
  | .alloc => ∀ fp, freeRun s.ipt.pt.entries 1 (List.range s.ipt.pt.nEntry) none = .inl fp → s.Accepts
  | .advance => s.pc s.cur = .alloc → s.Accepts
  | _ => True

/-- The page that `get_contiguous_pages` evicts is one that `store_swap` accepts. -/
structure Sys.Evicts (s : Sys) : Prop where
  good : s.table.Good
  filing : s.Filing
  kin : s.Kin
  accepted : s.pc s.cur = .storeSwap .alloc i v p → ∃ A, s.as s.cur = some A ∧ A.storeSegs v ≠ []

theorem PtEntry.Idle.eligible {e : PtEntry} (h : e.Idle) : e.eligible = true := by
  obtain ⟨hio, hsw, htlb, hk⟩ := h
  simp [PtEntry.eligible, hio, hsw, htlb, hk]

theorem Sys.Evicts.step {s u : Sys} (h : s.Evicts) (hm : Move s a u) (ha : s.Backs a) :
    u.Evicts := by
  obtain ⟨⟨ho, hh⟩, hf, hk, -⟩ := h
  refine ⟨Table.Good.moves ⟨ho, hh⟩ (hm.table (F := False) ho False.elim), hf.step hh ho hk hm,
    hk.step ho hm, ?_⟩
  intro i v p hpc
  obtain ⟨hcur, -, has, -, hcalls⟩ := hm.calls hf hpc
  rw [has, hcur]
  cases hcalls with
  | alloc hact hfree hi hidle hu =>
    rcases hact with ⟨-, rfl⟩ | ⟨hrun, rfl⟩
    · exact ha _ (hfree rfl) i hi hidle.eligible hu
    · exact ha hrun i hi hidle.eligible hu

theorem Sys.boot_evicts (m : Hardware) : (Sys.boot m).Evicts := by
  obtain ⟨L, hL⟩ := Sys.boot_inOrder m
  exact ⟨hL.good, hL.filing, hL.kin, nofun⟩

theorem SwapFile.link_head {l : Lists SwapList Nat} {segs : List Segment}
    (h : sg ∈ segs ∨ l.head (.seg sg p) = some c) :
    (SwapFile.link l segs p c).head (.seg sg p) = some c := by
  induction segs generalizing l with
  | nil => exact h.resolve_left nofun
  | cons sg' segs ih =>
    apply ih
    by_cases hsg : sg = sg'
    · subst hsg
      exact .inr (Lists.push_head_self ..)
    · cases h with
      | inl h => exact .inl ((List.mem_cons.1 h).resolve_left hsg)
      | inr h =>
        apply Or.inr
        rw [Lists.push_head_of_ne]
        · exact h
        · intro he
          cases he
          exact hsg rfl

/-- A page that the range tests accept leaves two ways to stop in `store_swap`. -/
theorem SwapFile.storeBegin_accepted {w : SwapFile} {A : AddrSpace} (hA : A.storeSegs v ≠ [])
    (he : w.storeBegin (some A) v p = .error e) :
    e = .swapFull .storeSwap ∨ e = .kassert .storeSwap .store := by
  unfold SwapFile.storeBegin at he
  split at he
  · cases he
    exact .inl rfl
  · cases hk : kassert (!w.store _) .storeSwap .store with
    | error e' =>
      rw [hk] at he
      cases he
      exact .inr (kassert_error.1 hk).2
    | ok x =>
      rw [hk] at he
      simp only [bind, Except.bind, if_neg hA] at he
      cases he

/-- In every run in which the allocations of kernel pages that have to evict are made by
threads whose address spaces accept the pages in memory, `store_swap` neither finds an
address space missing nor panics for an allocation, and it files the page under its owner and
returns, if there is a free cell and no page is ever linked to two lists. -/
theorem kernel_evictions_filed (h : Run (StepWhen Sys.Backs) (Sys.boot m) tr s) :
    (∀ i v p, s.pc s.cur = .storeSwap .alloc i v p →
      s.micro .advance ≠ .error (.nullAddrspace .storeSwap) ∧
      s.micro .advance ≠ .error (.panic .storeSwap) ∧
      (Run (StepWhen Sys.Linked) (Sys.boot m) tr s → s.swap.lists.head .free ≠ none →
        ∃ u c sg, s.micro .advance = .ok u ∧ u.pc s.cur = .storing .alloc i c ∧
          u.swap.lists.head (.seg sg p) = some c ∧ u.swap.vaddr c = v)) ∧
    ∀ i c, s.pc s.cur = .storing .alloc i c → Run (StepWhen Sys.Linked) (Sys.boot m) tr s →
      ∃ u, s.micro .advance = .ok u ∧ u.pc s.cur = .stored .alloc i := by
  have hinv : s.Evicts := by
    apply h.invariant (Sys.boot_evicts m)
    intro t a u ht hs
    exact ht.step hs.2.move hs.1
  have hset : Run (StepWhen Sys.Linked) (Sys.boot m) tr s → ∃ L, s.Settled L False := by
    intro hl
    apply hl.invariant (P := fun s => ∃ L, s.Settled L False)
    · obtain ⟨L, hL⟩ := Sys.boot_inOrder m
      exact ⟨L, hL.toSettled.loosen⟩
    · rintro t a u ⟨L, hL⟩ hs
      obtain ⟨M, hM, -⟩ := hL.step hs.2.move hs.1 False.elim
      exact ⟨M, hM⟩
  constructor
  · intro i v p hpc
    obtain ⟨A, hA, hsegs⟩ := hinv.accepted hpc
    have hmicro : s.micro .advance = (do
        let x ← s.swap.storeBegin (s.as s.cur) v p
        return { s with swap := x.1 }.goto (.storing .alloc i x.2)) := by
      simp only [Sys.micro, Sys.advance, hpc]
    have hno : ∀ e, s.micro .advance = .error e →
        e = .swapFull .storeSwap ∨ e = .kassert .storeSwap .store := by
      intro e he
      rw [hmicro, hA] at he
      cases hb : s.swap.storeBegin (some A) v p with
      | error e' =>
        rw [hb] at he
        cases he
        exact SwapFile.storeBegin_accepted hsegs hb
      | ok x =>
        rw [hb] at he
        cases he
    refine ⟨fun he => ?_, fun he => ?_, fun hl hfree => ?_⟩
    · rcases hno _ he with h | h <;> cases h
    · rcases hno _ he with h | h <;> cases h
    · obtain ⟨L, hL⟩ := hset hl
      cases hb : s.swap.storeBegin (s.as s.cur) v p with
      | error e =>
        rcases hL.storeBegin_error hb with ⟨hn, -⟩ | ⟨hn, -⟩ | ⟨B, hB, hn, -⟩
        · exact (hfree hn).elim
        · rw [hA] at hn
          cases hn
        · rw [hA] at hB
          cases hB
          exact (hsegs hn).elim
      | ok x =>
        obtain ⟨w, c⟩ := x
        obtain ⟨sg, hsg⟩ := List.exists_mem_of_ne_nil _ hsegs
        obtain ⟨-, -, B, hB, -, rfl⟩ := SwapFile.storeBegin_ok hb
        rw [hA] at hB
        cases hB
        rw [hmicro, hb]
        refine ⟨_, c, sg, rfl, ?_, SwapFile.link_head (.inl hsg), Function.update_self ..⟩
        rw [Sys.pc_goto]
        exact Function.update_self ..
  · intro i c hpc hl
    obtain ⟨L, hL⟩ := hset hl
    cases hb : s.swap.storeEnd s.cur c with
    | error e => exact (hL.storeEnd_ok _ _ hb).elim
    | ok w =>
      simp only [Sys.micro, Sys.advance, hpc, hb]
      refine ⟨_, rfl, ?_⟩
      rw [Sys.pc_goto]
      exact Function.update_self ..

instance (s : Sys) : Decidable s.Accepts :=
  decidable_of_iff (∀ i < s.ipt.pt.nEntry, (s.ipt.pt.entries i).eligible = true →
    (s.ipt.pt.entries i).user = true →
      (s.as s.cur).any (fun A => A.storeSegs (s.ipt.pt.entries i).page ≠ []) = true) (by
    simp [Sys.Accepts, Option.any_eq_true])

instance (s : Sys) (a : Action) : Decidable (s.Backs a) :=
  match a with
  | .alloc =>
    match h : freeRun s.ipt.pt.entries 1 (List.range s.ipt.pt.nEntry) none with
    | .inl fp => decidable_of_iff s.Accepts ⟨fun hA _ _ => hA, fun hA => hA fp h⟩
    | .inr _ => .isTrue fun _ hfp => (nomatch h.symm.trans hfp)
  | .advance => inferInstanceAs (Decidable (_ → _))
  | .dispatch _ | .kfree _ | .reap _ | .write _ _ _ | .fault _ _ | .exit | .exec _ _
  | .fork _ | .spawn _ => .isTrue trivial

/-- Program 3 allocates a kernel page and evicts the page of program 2. -/
theorem kernel_evictions_filed_alike : ∃ tr s,
    Run (StepWhen Sys.Backs) (Sys.boot (.blank 1 4)) tr s ∧
      s.pc s.cur = .storeSwap .alloc 0 0x400000 2 ∧ ∃ u c sg, s.micro .advance = .ok u ∧
        u.pc s.cur = .storing .alloc 0 c ∧ u.swap.lists.head (.seg sg 2) = some c ∧
        u.swap.vaddr c = 0x400000 := by
  obtain ⟨s, hr, hs⟩ := Sys.run_of_follow (C := fun s a => s.Backs a ∧ s.Filed a)
    (s := .boot (.blank 1 4))
    [.spawn 2, .spawn 3, .dispatch 2, .exec 0 (programHeaders 0x400000 4096 0x10000000 4096),
      .fault .read 0x400000, .advance, .advance, .advance,
      .dispatch 3, .exec 0 (programHeaders 0x400000 4096 0x10000000 4096), .alloc]
    (p := fun s => decide (s.pc s.cur = .storeSwap .alloc 0 0x400000 2 ∧
      s.swap.lists.head .free ≠ none)) (by decide +kernel)
  obtain ⟨hpc, hfree⟩ := of_decide_eq_true hs
  have hb : Run (StepWhen Sys.Backs) (Sys.boot (.blank 1 4)) _ s :=
    hr.mono fun _ _ _ hs => hs.mono fun _ _ h => h.1
  have hl : Run (StepWhen Sys.Linked) (Sys.boot (.blank 1 4)) _ s :=
    hr.mono fun _ _ _ hs => hs.mono fun _ _ h => h.2.linked
  exact ⟨_, s, hb, hpc, ((kernel_evictions_filed hb).1 0 0x400000 2 hpc).2.2 hl hfree⟩

/-- Program 2 forks 3 and exits, the menu collects it and allocates two pages: the second one
evicts the page of 3 on behalf of a process without an address space. -/
theorem kernel_eviction_orphan : ∃ tr s,
    Run (StepWhen fun _ _ => True) (Sys.boot (.blank 2 4)) tr s ∧ s.Enabled .advance ∧
      s.pc s.cur = .storeSwap .alloc 1 0x400000 3 ∧
      s.micro .advance = .error (.nullAddrspace .storeSwap) := by
  obtain ⟨s, hr, hs⟩ := Sys.run_of_follow (C := fun _ _ => True) (s := .boot (.blank 2 4))
    [.spawn 2, .dispatch 2, .exec 0 (programHeaders 0x400000 4096 0x10000000 4096),
      .fault .read 0x400000, .advance, .advance, .advance, .fork 3, .advance, .advance, .advance,
      .advance, .advance, .advance, .exit, .advance, .advance, .advance, .dispatch 1, .reap 2,
      .alloc, .alloc]
    (p := fun s => decide (s.Enabled .advance ∧ s.pc s.cur = .storeSwap .alloc 1 0x400000 3) &&
      s.stopsMenu (.vm .advance) (.nullAddrspace .storeSwap)) (by decide +kernel)
  obtain ⟨hs, hstop⟩ := Bool.and_eq_true_iff.1 hs
  obtain ⟨hen, hpc⟩ := of_decide_eq_true hs
  exact ⟨_, s, hr, hen, hpc, Sys.menu_of_stops hstop⟩

end Clape
