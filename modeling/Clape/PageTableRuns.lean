import Clape.PageTableHash

namespace Clape
set_option autoImplicit true

/-- `pt_init`: the control bits are cleared, the rest of each entry is what the memory held. -/
def ptInit (nEntry firstFreePaddr : Nat) (ram : Nat → PtEntry) : PageTable where
  entries := fun i => { ram i with ctrl := .zero }
  nEntry := nEntry
  firstFreePaddr := firstFreePaddr
  contiguous := fun _ => -1
  lastIndex := 0

/-- `pt_init` followed by `hashtable_init`. -/
def Ipt.boot (nEntry firstFreePaddr : Nat) (ram : Nat → PtEntry) : Ipt :=
  ⟨ptInit nEntry firstFreePaddr ram, .init nEntry, []⟩

/-- The operations on the page table. An operation that waits on `pt_cv` ends there and goes
on with the matching `resume` operation. -/
inductive PtOp where
  | getPage (v p : Nat)
  | resumeGetPage (start v p : Nat)
  | findVictim (start v p : Nat)
  | getContiguousPages (p n : Nat)
  | resumeContiguousPages (p n : Nat)
  | freeContiguousPages (i : Nat)
  | freePages (p : Nat)
  | updateTlbBit (v p : Nat)
  | prepareCopyPt (p : Nat)
  | copyPtEntries (old new : Nat)
  | endCopyPt (p : Nat)

def Ipt.resumeGetPage (s : Ipt) (start v p : Nat) : Except Fault Ipt := do
  match ← s.findVictimFrom start v p with
  | (s₁, none) => return s₁
  | (s₁, some i) => return { s₁ with pt := s₁.pt.pageLoaded i }

def PtOp.exec (s : Ipt) : PtOp → Except Fault Ipt
  | .getPage v p => (·.1) <$> s.getPage v p
  | .resumeGetPage start v p => s.resumeGetPage start v p
  | .findVictim start v p => (·.1) <$> s.findVictimFrom start v p
  | .getContiguousPages p n => (·.1) <$> s.getContiguousPages p n
  | .resumeContiguousPages p n => (·.1) <$> s.chanceRun p n none
  | .freeContiguousPages i => (fun pt => { s with pt := pt }) <$> s.pt.freeContiguousPages i
  | .freePages p => s.freePages p
  | .updateTlbBit v p => (fun pt => { s with pt := pt }) <$> s.pt.updateTlbBit v p
  | .prepareCopyPt p => (fun pt => { s with pt := pt }) <$> s.pt.prepareCopyPt p
  | .copyPtEntries old new => s.copyPtEntries old new
  | .endCopyPt p => (fun pt => { s with pt := pt }) <$> s.pt.endCopyPt p

/-- What the callers of the operations provide: user addresses and pids, a key that
`get_page` has just looked for in vain, a pid without pages for the copy. -/
def PtOp.Pre (s : Ipt) : PtOp → Prop
  | .getPage v p => UserAddr v ∧ PidOk p
  | .resumeGetPage _ v p | .findVictim _ v p =>
    UserAddr v ∧ PidOk p ∧ s.ht.getIndexFromHash v p = .ok none
  | .copyPtEntries _ new =>
    PidOk new ∧ ∀ j < s.pt.nEntry, (s.pt.entries j).user = true → (s.pt.entries j).pid ≠ new
  | _ => True

def PtStep (s : Ipt) (op : PtOp) (s' : Ipt) : Prop := op.Pre s ∧ op.exec s = .ok s'

theorem Sound.map {x : Except ε α} {f : α → β} (h : Sound E (fun a => Q (f a)) x) :
    Sound E Q (f <$> x) := by
  cases x with
  | ok a => exact h
  | error e => exact h

/-- Every operation keeps the invariant and stops, if at all, for another reason than the
hash table. -/
theorem PtOp.exec_sound (h : Ipt.Inv n s) (op : PtOp) (hpre : op.Pre s) :
    Sound NotHash (fun s' => Ipt.Inv n s') (op.exec s) := by
  have hfresh : ∀ v p, s.ht.getIndexFromHash v p = .ok none → ∀ j, s.pt.keys j ≠ some (v, p) := by
    intro v p he
    obtain ⟨L, hL⟩ := h.rep
    rcases hL.getIndexFromHash_iff.1 he with ⟨i, hi, _⟩ | ⟨_, hn⟩
    · cases hi
    · exact hn
  cases op with
  | getPage v p => exact Sound.map (getPage_sound h hpre.1 hpre.2)
  | resumeGetPage start v p =>
    unfold PtOp.exec Ipt.resumeGetPage
    refine (findVictimFrom_sound h hpre.1 hpre.2.1 (hfresh v p hpre.2.2) start).bind fun r hr => ?_
    obtain ⟨s₁, o⟩ := r
    cases o with
    | none => exact hr
    | some i => exact hr.pageLoaded i
  | findVictim start v p =>
    exact Sound.map (findVictimFrom_sound h hpre.1 hpre.2.1 (hfresh v p hpre.2.2) start)
  | getContiguousPages p m => exact Sound.map (getContiguousPages_sound h p m)
  | resumeContiguousPages p m => exact Sound.map (chanceRun_sound h p m none)
  | freeContiguousPages i => exact Sound.map (freeContiguousPages_sound h i)
  | freePages p => exact freePages_sound h p
  | updateTlbBit v p => exact Sound.map (updateTlbBit_sound h v p)
  | prepareCopyPt p => exact Sound.map (markCopy_sound h (by simp [NotHash]))
  | copyPtEntries old new =>
    exact copyPtEntries_sound h hpre.1 (by simpa [h.nEntry] using hpre.2) old
  | endCopyPt p => exact Sound.map (markCopy_sound h (by simp [NotHash]))

theorem Ipt.boot_inv (n f : Nat) (ram : Nat → PtEntry) : Ipt.Inv n (Ipt.boot n f ram) where
  nEntry := rfl
  pool := rfl
  size := rfl
  rep := by
    have hk : (Ipt.boot n f ram).pt.keys = fun _ => none := by
      funext i
      exact PageTable.keys_of_not_user rfl
    rw [hk]
    exact HashTable.init_rep n
  user i _ hu := by cases hu

theorem Ipt.Inv.run (h : Run PtStep (Ipt.boot n f ram) ops s) : Ipt.Inv n s := by
  refine h.invariant (Ipt.boot_inv n f ram) fun t op u ht hstep => ?_
  exact (PtOp.exec_sound ht op hstep.1).ok hstep.2

/-- The page table and the hash table agree: the nodes of the chains correspond one to one
to the valid user entries, each on the chain of its key; no key occurs twice; no node is
lost. -/
structure Ipt.Agree (s : Ipt) (L : HashList → List Nat) : Prop where
  lists : s.ht.lists.Rep L
  node : ∀ b c, c ∈ L (.bucket b) → 0 ≤ b ∧ b < s.ht.size ∧ ∃ i, i < s.pt.nEntry ∧
    (s.pt.entries i).user = true ∧ s.ht.iptEntry c = some i ∧
    s.ht.vad c = (s.pt.entries i).page ∧ s.ht.pid c = (s.pt.entries i).pid ∧
    b = getHashFunc s.ht.size (s.pt.entries i).page (s.pt.entries i).pid
  entry : ∀ i < s.pt.nEntry, (s.pt.entries i).user = true →
    ∃! c, (∃ b, c ∈ L (.bucket b)) ∧ s.ht.iptEntry c = some i
  keys : ∀ i < s.pt.nEntry, ∀ j < s.pt.nEntry, (s.pt.entries i).user = true →
    (s.pt.entries j).user = true → (s.pt.entries i).page = (s.pt.entries j).page →
    (s.pt.entries i).pid = (s.pt.entries j).pid → i = j
  count : {c | ∃ b, c ∈ L (.bucket b)}.ncard + (L .unused).length = s.pt.nEntry

theorem HashTable.Rep.count {ht : HashTable} (h : ht.Rep K L) :
    {c | ∃ b, c ∈ L (.bucket b)}.ncard + (L .unused).length = ht.pool := by
  have hunused : (L .unused).length = {c | c ∈ L .unused}.ncard := by
    rw [← List.toFinset_card_of_nodup (h.lists.nodup .unused), ← Set.ncard_coe_finset]
    congr 1
    ext c
    simp
  have hunion : {c | ∃ b, c ∈ L (.bucket b)} ∪ {c | c ∈ L .unused} =
      (Finset.range ht.pool : Set Nat) := by
    ext c
    simp only [Set.mem_union, Set.mem_ofPred_eq, Finset.coe_range, Set.mem_Iio]
    rw [← h.pooled c]
    constructor
    · rintro (⟨b, hb⟩ | hu)
      · exact ⟨_, hb⟩
      · exact ⟨_, hu⟩
    · rintro ⟨k, hk⟩
      cases k with
      | unused => exact .inr hk
      | bucket b => exact .inl ⟨b, hk⟩
  have hdis : Disjoint {c | ∃ b, c ∈ L (.bucket b)} {c | c ∈ L .unused} := by
    rw [Set.disjoint_left]
    rintro c ⟨b, hb⟩ hu
    cases h.lists.disjoint _ _ c hb hu
  have hfin : ((Finset.range ht.pool : Finset Nat) : Set Nat).Finite := Finset.finite_toSet _
  rw [hunused, ← Set.ncard_union_eq hdis (hfin.subset (hunion ▸ Set.subset_union_left))
    (hfin.subset (hunion ▸ Set.subset_union_right)), hunion, Set.ncard_coe_finset,
    Finset.card_range]

theorem Ipt.Inv.agree (h : Ipt.Inv n s) (hn : 0 < n) (hn' : n ≤ 1048576) : ∃ L, s.Agree L := by
  obtain ⟨L, hL⟩ := h.rep
  refine ⟨L, hL.lists, ?_, ?_, ?_, ?_⟩
  · intro b c hc
    obtain ⟨hb, i, hi, hk⟩ := hL.node b c hc
    obtain ⟨hin, hu, hpg, hpid⟩ := PageTable.keys_some.1 hk
    obtain ⟨hv, hp⟩ := h.user i (h.nEntry ▸ hin) hu
    rw [hpg] at hv
    rw [hpid] at hp
    have hsz : 0 < s.ht.size ∧ s.ht.size < 2147483648 := by
      rw [h.size]
      omega
    have hr := getHashFunc_range hv.2 hp.2 hsz.1 hsz.2
    refine ⟨by rw [hb]; exact hr.1, by rw [hb]; exact hr.2, i, hin, hu, hi, hpg.symm,
      hpid.symm, ?_⟩
    rw [hpg, hpid, hb]
  · intro i hi hu
    obtain ⟨c, hc, hci⟩ := hL.chained i _ _ (PageTable.keys_of_user hi hu)
    refine ⟨c, ⟨⟨_, hc⟩, hci⟩, ?_⟩
    rintro d ⟨⟨b, hd⟩, hdi⟩
    exact hL.single _ d _ c hd hc (hdi.trans hci.symm)
  · intro i hi j hj hui huj hpg hpid
    have hki := PageTable.keys_of_user hi hui
    rw [hpg, hpid] at hki
    exact hL.keys i j _ hki (PageTable.keys_of_user hj huj)
  · rw [hL.count, h.pool, h.nEntry]

/-- In every state that the operations reach from the boot of the page table, the inverted
page table and the hash table agree, the lookup is exact, and no operation finds the pool
of nodes empty or a node missing. -/
theorem pageTable_hashTable_agree (hn : 0 < n) (hn' : n ≤ 1048576)
    (h : Run PtStep (Ipt.boot n f ram) ops s) :
    (∃ L, s.Agree L) ∧
    (∀ v p i, s.ht.getIndexFromHash v p = .ok (some i) ↔ i < n ∧
      (s.pt.entries i).user = true ∧ (s.pt.entries i).page = v ∧ (s.pt.entries i).pid = p) ∧
    ∀ op : PtOp, op.Pre s → op.exec s ≠ .error (.kassert .addInHash .pool) ∧
      op.exec s ≠ .error (.panic .removeFromHash) := by
  have hinv := Ipt.Inv.run h
  refine ⟨hinv.agree hn hn', fun v p i => ?_, fun op hpre => ?_⟩
  · obtain ⟨L, hL⟩ := hinv.rep
    rw [hL.getIndexFromHash_iff, ← hinv.nEntry, ← PageTable.keys_some]
    constructor
    · rintro (⟨j, hj, hk⟩ | ⟨hj, _⟩)
      · cases hj
        exact hk
      · cases hj
    · intro hk
      exact .inl ⟨i, rfl, hk⟩
  · have hs := PtOp.exec_sound hinv op hpre
    exact ⟨fun he => (hs.error he).1 rfl, fun he => (hs.error he).2.1 rfl⟩

instance (s : Ipt) (op : PtOp) : Decidable (op.Pre s) :=
  match op with
  | .getPage _ _ | .copyPtEntries _ _ => inferInstanceAs (Decidable (_ ∧ _))
  | .resumeGetPage _ _ _ | .findVictim _ _ _ => inferInstanceAs (Decidable (_ ∧ _ ∧ _))
  | .getContiguousPages _ _ | .resumeContiguousPages _ _ | .freeContiguousPages _ | .freePages _
  | .updateTlbBit _ _ | .prepareCopyPt _ | .endCopyPt _ => .isTrue trivial

/-- The state after an operation whose callers provide what it needs, if it does not stop. -/
def PtOp.next (s : Ipt) (op : PtOp) : Option Ipt :=
  if op.Pre s then (op.exec s).toOption else none

theorem PtOp.next_step (h : PtOp.next s op = some t) : PtStep s op t := by
  unfold PtOp.next at h
  split at h
  · rename_i hpre
    refine ⟨hpre, ?_⟩
    cases hx : op.exec s with
    | error e =>
      rw [hx] at h
      cases h
    | ok u =>
      rw [hx] at h
      cases h
      rfl
  · cases h

theorem PtOp.run_next (s : Ipt) (l : List PtOp) {p : Ipt → Bool}
    (h : (l.foldlM PtOp.next s).any p = true) : ∃ t, Run PtStep s l t ∧ p t = true :=
  Run.of_any (fun _ _ _ => PtOp.next_step) h

/-- Process 2 fills both frames and loses its TLB entries; a fault of process 3 evicts its first
page, and its own next fault the second one. -/
theorem pageTable_hashTable_agree_evictions :
    ∃ s, Run PtStep (Ipt.boot 2 0 fun _ => ⟨0, 0, .zero⟩) [.getPage 4096 2, .getPage 8192 2,
        .updateTlbBit 4096 2, .updateTlbBit 8192 2, .getPage 12288 3, .getPage 4096 2] s ∧
      s.stores = [⟨4096, 2, 0⟩, ⟨8192, 2, 1⟩] ∧ (∃ L, s.Agree L) ∧
      s.ht.getIndexFromHash 12288 3 = .ok (some 0) ∧ s.ht.getIndexFromHash 4096 2 = .ok (some 1) := by
  obtain ⟨s, hrun, hs⟩ := PtOp.run_next (Ipt.boot 2 0 fun _ => ⟨0, 0, .zero⟩)
    [.getPage 4096 2, .getPage 8192 2, .updateTlbBit 4096 2, .updateTlbBit 8192 2,
      .getPage 12288 3, .getPage 4096 2]
    (p := fun s => decide (s.stores = [⟨4096, 2, 0⟩, ⟨8192, 2, 1⟩] ∧
      s.pt.entries 0 = ⟨12288, 3, ⟨true, false, true, false, false⟩⟩ ∧
      s.pt.entries 1 = ⟨4096, 2, ⟨true, false, true, false, false⟩⟩)) (by decide +kernel)
  obtain ⟨hst, h0, h1⟩ := of_decide_eq_true hs
  obtain ⟨hagree, hiff, -⟩ := pageTable_hashTable_agree (by decide) (by decide) hrun
  refine ⟨s, hrun, hst, hagree, (hiff _ _ _).2 ?_, (hiff _ _ _).2 ?_⟩
  · rw [h0]
    exact ⟨by decide, by decide, rfl, rfl⟩
  · rw [h1]
    exact ⟨by decide, by decide, rfl, rfl⟩

end Clape
