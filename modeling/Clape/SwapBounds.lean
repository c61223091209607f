import Clape.InFlightStores
import Clape.Pids

namespace Clape
set_option autoImplicit true

/-- The machine with `processTable.last_i`. -/
structure PidSys where
  sys : Sys
  lastI : Nat

/-- The process that an action creates. -/
def Action.creates : Action → Option Nat
  | .spawn q | .fork q => some q
  | _ => none

/-- `processTable.proc` as the pids of the machine fill it. -/
def Sys.slots (s : Sys) (i : Nat) : Option Nat := if s.pc i = .none then none else some i

/-- The elements of `swap->text`, `swap->data` and `swap->stack` that the next step of the running
thread uses: in `remove_process_from_swap`, `copy_swap_pages`, `store_swap` and `load_swap`. -/
def Sys.swapIndices (s : Sys) : Action → List Nat
  | .exit | .fault .readonly _ | .fork _ => [s.cur]
  | .advance =>
    match s.pc s.cur with
    | .storeSwap _ _ _ p => [p]
    | .loadPage _ _ | .removeSwap _ none | .copySwap _ _ none => [s.cur]
    | .copySwap child _ (some _) => [child]
    | _ => []
  | _ => []

theorem SwapFile.link_head_other {l : Lists SwapList Nat} {segs : List Segment} (hk : ∀ sg, k ≠ .seg sg p) :
    (SwapFile.link l segs p c).head k = l.head k := by
  unfold SwapFile.link
  induction segs generalizing l with
  | nil => rfl
  | cons sg segs ih =>
    rw [List.foldl_cons, ih]
    exact Function.update_of_ne (hk sg) ..

/-- These are the elements that the model of the VM system uses: a step leaves the others as
they are. -/
theorem Move.heads {s u : Sys} (hm : Move s a u) (hp : p ∉ s.swapIndices a) (sg : Segment) :
    u.swap.lists.head (.seg sg p) = s.swap.lists.head (.seg sg p) := by
  have hne : ∀ {q}, q ∈ s.swapIndices a → ∀ sg', SwapList.seg sg p ≠ .seg sg' q := by
    intro q hq sg' he
    cases he
    exact hp hq
  have hbehead : ∀ c, (s.swap.lists.behead .free c).head (.seg sg p) =
      s.swap.lists.head (.seg sg p) := by
    intro c
    simp [Lists.behead]
  have hpush : ∀ c, (s.swap.lists.push .free c).head (.seg sg p) = s.swap.lists.head (.seg sg p) := by
    intro c
    simp [Lists.push]
  cases hm with
  | @store k i v q w c hpc h =>
    obtain ⟨-, -, A, -, -, rfl⟩ := SwapFile.storeBegin_ok h
    have hq : q ∈ s.swapIndices .advance := by simp [Sys.swapIndices, hpc]
    exact (SwapFile.link_head_other (hne hq)).trans (hbehead c)
  | storing _ h =>
    rw [SwapFile.storeEnd_spec h]
    rfl
  | loadFound hpc _ h =>
    obtain ⟨sg', prev, -, -, rfl⟩ := SwapFile.loadBegin_some h
    cases prev with
    | none => exact Function.update_of_ne (hne (by simp [Sys.swapIndices, hpc]) sg') ..
    | some => rfl
  | cellSleep _ h =>
    rw [(SwapFile.testStore_spec h).1]
    rfl
  | cellLoad _ h =>
    rw [(SwapFile.testStore_spec h).1]
    rfl
  | cellExit _ h =>
    rw [(SwapFile.testStore_spec h).1]
    exact hpush _
  | cellCopy _ h =>
    rw [(SwapFile.testStore_spec h).1]
    rfl
  | reading => exact hpush _
  | removeNext hpc => exact Function.update_of_ne (hne (by simp [Sys.swapIndices, hpc]) _) ..
  | removeDone hpc => exact Function.update_of_ne (hne (by simp [Sys.swapIndices, hpc]) _) ..
  | @copyTake child sg' c w f hpc h =>
    obtain ⟨-, -, rfl⟩ := SwapFile.copyBegin_ok h
    have hq : child ∈ s.swapIndices .advance := by simp [Sys.swapIndices, hpc]
    apply Eq.trans _ (hbehead f)
    exact Function.update_of_ne (hne hq sg') ..
  | _ => rfl

namespace PidSys

/-- The machine after boot: `kproc` has the first pid. -/
def boot (m : Hardware) : PidSys := ⟨.boot m, 1⟩

/-- A new process gets the pid that `proc_init_waitpid` finds. -/
def Step (s : PidSys) (a : Action) (t : PidSys) : Prop :=
  SysStep s.sys a t.sys ∧
    match a.creates with
    | some q => pidLoop s.sys.slots s.lastI maxProc (nextPid s.lastI) = some (some q) ∧ t.lastI = q
    | none => t.lastI = s.lastI

/-- When a process is created, a slot between `last_i` and `MAX_PROC` is empty. -/
def Room (s : PidSys) (a : Action) : Prop :=
  a.creates ≠ none → ∃ i, s.lastI < i ∧ i < maxProc ∧ s.sys.pc i = .none

def StepWhen (C : PidSys → Action → Prop) (s : PidSys) (a : Action) (t : PidSys) : Prop :=
  C s a ∧ s.Step a t

end PidSys

/-- The search goes upwards, so it stops at an empty slot at the latest. -/
theorem pidLoop_le {proc : Nat → Option Nat} (hj : lastI < j) (hji : j ≤ i) (hi : i < maxProc)
    (hn : proc i = none) (h : pidLoop proc lastI fuel j = some (some q)) : q ≤ i := by
  induction fuel generalizing j with
  | zero => cases h
  | succ fuel ih =>
    rw [pidLoop, if_neg (Nat.ne_of_gt hj)] at h
    split at h
    · cases h
      exact hji
    · rename_i hocc
      have hne : j ≠ i := by
        intro he
        rw [he, hn] at hocc
        exact hocc rfl
      rw [nextPid, if_neg (by omega)] at h
      exact ih (by omega) (by omega) h

/-- All pids in use are below a bound. -/
structure Sys.PidsBelow (s : Sys) (N : Nat) : Prop where
  cur : s.cur < N
  live : s.pc q ≠ .none → q < N

theorem Move.cur_eq {s u : Sys} (hm : Move s a u) : u.cur = s.cur ∨ (s.pc u.cur).ready = true := by
  cases hm with
  | dispatch _ hq => exact .inr hq
  | _ => exact .inl rfl

theorem Sys.PidsBelow.step {s u : Sys} (h : s.PidsBelow N) (ho : s.table.Own) (hm : Move s a u)
    (ha : ∀ q, a.creates = some q → q < N) : u.PidsBelow N := by
  apply Sys.PidsBelow.mk
  · cases hm.cur_eq with
    | inl hc => exact hc ▸ h.cur
    | inr hc =>
      apply h.live
      intro hn
      rw [hn] at hc
      cases hc
  · intro q hq
    by_cases hqc : q = s.cur
    · exact hqc ▸ h.cur
    · rcases hm.pc_other hqc with hpc | hpc | ⟨c, hpc⟩ | ⟨hold, -⟩
      · exact h.live (hpc ▸ hq)
      · apply h.live
        intro hn
        rw [hpc, hn] at hq
        exact hq rfl
      · apply h.live
        intro hn
        rw [hpc, hn] at hq
        exact hq rfl
      · rcases hold with ⟨-, rfl | rfl⟩ | hz | ⟨i, hcp⟩
        · exact ha q rfl
        · exact ha q rfl
        · exact h.live (by rw [hz]; exact nofun)
        · -- the child of a fork that ends
          apply h.live
          intro hn
          have hemb : (s.pc q).role = .embryo :=
            ho.apart.embryo (q := s.cur) (k := i) (by
              change (s.pc s.cur).role = _
              rw [hcp]
              rfl)
          rw [hn] at hemb
          cases hemb

/-- What holds of the machine and of `last_i` while slot `MAX_PROC` is not used. -/
structure PidSys.Bounded (s : PidSys) : Prop where
  good : s.sys.table.Good
  filing : s.sys.Filing
  kin : s.sys.Kin
  below : s.sys.PidsBelow maxProc
  last : s.lastI < maxProc

theorem PidSys.boot_bounded (m : Hardware) : (PidSys.boot m).Bounded := by
  obtain ⟨L, hL⟩ := Sys.boot_inOrder m
  have h1 : 1 < maxProc := by decide
  refine ⟨hL.good, hL.filing, hL.kin, ⟨h1, ?_⟩, h1⟩
  intro q hq
  by_cases hq1 : q = 1
  · exact hq1 ▸ h1
  · exact (hq (if_neg hq1)).elim

theorem PidSys.Bounded.creates {s t : PidSys} (h : s.Bounded) (hs : s.Step a t) (hr : s.Room a)
    (hq : a.creates = some q) : q < maxProc ∧ t.lastI = q := by
  obtain ⟨-, hpid⟩ := hs
  rw [hq] at hpid
  obtain ⟨hloop, hlast⟩ := hpid
  obtain ⟨i, hi, hM, hn⟩ := hr (by rw [hq]; exact nofun)
  have hnext : nextPid s.lastI = s.lastI + 1 := if_neg (by have := h.last; omega)
  rw [hnext] at hloop
  have hle : q ≤ i := pidLoop_le (Nat.lt_succ_self _) hi hM (if_pos hn) hloop
  exact ⟨by omega, hlast⟩

theorem PidSys.Bounded.step {s t : PidSys} (h : s.Bounded) (hs : StepWhen Room s a t) : t.Bounded := by
  obtain ⟨hr, hs⟩ := hs
  have hm := hs.1.move
  have hnew := fun q => h.creates (q := q) hs hr
  refine ⟨h.good.moves (hm.table (F := False) h.good.1 False.elim),
    h.filing.step h.good.2 h.good.1 h.kin hm, h.kin.step h.good.1 hm,
    h.below.step h.good.1 hm fun q hq => (hnew q hq).1, ?_⟩
  cases hq : a.creates with
  | some q => exact (hnew q hq).2 ▸ (hnew q hq).1
  | none =>
    have hlast := hs.2
    rw [hq] at hlast
    exact hlast ▸ h.last

/-- Every index that a step uses is the pid of a process. -/
theorem PidSys.Bounded.indices {s : PidSys} (h : s.Bounded) (hen : s.sys.Enabled a)
    (hp : p ∈ s.sys.swapIndices a) : p < maxProc := by
  have hlive : ∀ {q}, (s.sys.pc q).role.owns = true → q < maxProc := by
    intro q hq
    apply h.below.live
    intro hn
    rw [hn] at hq
    cases hq
  have hcur : p ∈ [s.sys.cur] → p < maxProc := fun hp => List.mem_singleton.1 hp ▸ h.below.cur
  unfold Sys.swapIndices at hp
  split at hp
  · exact hcur hp
  · exact hcur hp
  · exact hcur hp
  · split at hp
    · rename_i hpc
      rw [List.mem_singleton] at hp
      subst hp
      have hf := (h.filing s.sys.cur _ p (by rw [hpc]; rfl)).2
      exact hlive hf.2
    · exact hcur hp
    · exact hcur hp
    · exact hcur hp
    · rename_i child sg c hpc
      rw [List.mem_singleton] at hp
      subst hp
      apply hlive
      have hemb : (s.sys.pc p).role = .embryo :=
        h.good.1.apart.embryo (q := s.sys.cur) (k := 0) (by
          change (s.sys.pc s.sys.cur).role = _
          rw [hpc]
          rfl)
      rw [hemb]
      rfl
    · cases hp
  · cases hp

/-- In every run in which a slot between `last_i` and `MAX_PROC` is empty when a process is
created, every index into the lists of the swap file is one of the `MAX_PROC` elements that
`swap_init` made. -/
theorem swap_tables_in_bounds (h : Run (PidSys.StepWhen PidSys.Room) (PidSys.boot m) tr s)
    (hen : s.sys.Enabled a) (hp : p ∈ s.sys.swapIndices a) : p < maxProc := by
  have hb : s.Bounded := h.invariant (PidSys.boot_bounded m) fun _ _ _ ht hs => ht.step hs
  exact hb.indices hen hp

instance (s : PidSys) (a : Action) : Decidable (s.Room a) :=
  decidable_of_iff (a.creates ≠ none → ∃ i < maxProc, s.lastI < i ∧ s.sys.pc i = .none) (by
    refine ⟨fun h hc => ?_, fun h hc => ?_⟩
    · obtain ⟨i, hi, hl, hn⟩ := h hc
      exact ⟨i, hl, hi, hn⟩
    · obtain ⟨i, hl, hi, hn⟩ := h hc
      exact ⟨i, hi, hl, hn⟩)

/-- The step of an action that meets the condition and does not stop the kernel. -/
def PidSys.next (s : PidSys) (a : Action) : Option PidSys :=
  if s.Room a ∧ s.sys.Enabled a then
    match s.sys.micro a with
    | .error _ => none
    | .ok t =>
      match a.creates with
      | none => some ⟨t, s.lastI⟩
      | some q =>
        if pidLoop s.sys.slots s.lastI maxProc (nextPid s.lastI) = some (some q) then some ⟨t, q⟩
        else none
  else none

theorem PidSys.next_step {s t : PidSys} (h : s.next a = some t) : StepWhen Room s a t := by
  unfold next at h
  split at h
  · rename_i hen
    split at h
    · cases h
    · rename_i u hu
      split at h
      · rename_i hc
        cases h
        refine ⟨hen.1, ⟨hen.2, hu⟩, ?_⟩
        rw [hc]
      · rename_i q hc
        split at h
        · rename_i hq
          cases h
          refine ⟨hen.1, ⟨hen.2, hu⟩, ?_⟩
          rw [hc]
          exact ⟨hq, rfl⟩
        · cases h
  · cases h

theorem PidSys.run_next (s : PidSys) (l : List Action) {p : PidSys → Bool}
    (h : (l.foldlM PidSys.next s).any p = true) : ∃ t, Run (StepWhen Room) s l t ∧ p t = true :=
  Run.of_any (fun _ _ _ => PidSys.next_step) h

/-- Process 3 evicts the page of process 2, which then forks: the copy of the cell goes on the list
of the child. -/
theorem swap_tables_in_bounds_fork : ∃ tr s,
    Run (PidSys.StepWhen PidSys.Room) (PidSys.boot (.blank 2 4)) tr s ∧
      s.sys.Enabled .advance ∧ s.sys.swapIndices .advance = [4] ∧ 4 < maxProc := by
  obtain ⟨s, hrun, hs⟩ := PidSys.run_next (PidSys.boot (.blank 2 4))
    [.spawn 2, .spawn 3, .dispatch 2, .exec 0 (programHeaders 0x400000 4096 0x10000000 4096),
      .fault .read 0x400000, .advance, .advance, .advance,
      .dispatch 3, .exec 0 (programHeaders 0x400000 4096 0x10000000 4096),
      .fault .read 0x400000, .advance, .advance, .advance,
      .fault .read 0x10000000, .advance, .advance, .advance, .advance, .advance, .advance, .advance,
      .dispatch 2, .fork 4]
    (p := fun s => decide (s.sys.Enabled .advance ∧ s.sys.swapIndices .advance = [4]))
    (by decide +kernel)
  obtain ⟨hen, hidx⟩ := of_decide_eq_true hs
  exact ⟨_, s, hrun, hen, hidx, swap_tables_in_bounds hrun hen (by rw [hidx]; exact .head _)⟩

theorem Ipt.freePages_none {s : Ipt} (h : ∀ i, (s.pt.entries i).user = false) (p : Nat) :
    s.freePages p = .ok s := by
  unfold Ipt.freePages
  induction List.range s.pt.nEntry with
  | nil => rfl
  | cons i l ih =>
    rw [List.foldlM_cons, Ipt.freePage, h i, Bool.and_false]
    exact ih

theorem tlbInvalidateAll_empty {pt : PageTable} {m : Mmu} (h : m.slots = fun _ => none) (p : Nat) :
    tlbInvalidateAll pt m p = .ok (pt, { m with previousPid := p }) := by
  have hloop : ∀ l : List Nat, l.foldlM invalidateSlot (pt, m) = .ok (pt, m) := by
    intro l
    induction l with
    | nil => rfl
    | cons k l ih =>
      have hw : m.write k none = m := by
        unfold Mmu.write
        congr 1
        rw [h]
        exact Function.update_eq_self k _
      rw [List.foldlM_cons, invalidateSlot, congrFun h k]
      change l.foldlM invalidateSlot (pt, m.write k none) = _
      rw [hw]
      exact ih
  unfold tlbInvalidateAll
  split
  · rename_i hp
    rw [← hp]
  · rw [hloop]
    rfl

/-- The machine between two programs that left no trace, the last one with pid `p`. -/
def Sys.rested (p : Nat) (st : Stats) : Sys :=
  { Sys.boot (.blank 1 1) with mmu := ⟨fun _ => none, 0, p⟩, stats := st }

def smallProgram : List ElfPhdr := programHeaders 0x400000 4096 0x10000000 4096

theorem SwapFile.init_clearList (sg : Segment) (p : Nat) :
    (SwapFile.init 1 fun _ => 0).clearList sg p = SwapFile.init 1 fun _ => 0 := by
  unfold SwapFile.clearList Lists.clear
  congr 2
  exact Function.update_eq_self (SwapList.seg sg p) (SwapFile.init 1 fun _ => 0).lists.head

/-- The machine with a program that has pid `q` next to the menu. -/
def Sys.manned (q p : Nat) (st : Stats) (x : Proc) (c : Nat) : Sys :=
  { Sys.rested p st with procs := Function.update (Sys.rested p st).procs q x, cur := c }

theorem Sys.manned_pc (q p : Nat) (st : Stats) (x : Proc) (c : Nat) :
    (Sys.manned q p st x c).pc q = x.pc := congrArg Proc.pc (Function.update_self ..)

theorem Sys.manned_as (q p : Nat) (st : Stats) (x : Proc) (c : Nat) :
    (Sys.manned q p st x c).as q = x.as := congrArg Proc.as (Function.update_self ..)

theorem Sys.manned_menu (hq : q ≠ 1) (p : Nat) (st : Stats) (x : Proc) (c : Nat) :
    (Sys.manned q p st x c).procs 1 = ⟨none, .run⟩ := Function.update_of_ne hq.symm ..

theorem Sys.manned_goto (q p : Nat) (st : Stats) (x : Proc) (c : Pc) :
    (Sys.manned q p st x q).goto c = Sys.manned q p st { x with pc := c } q := by
  unfold Sys.goto Sys.setPc Sys.manned
  simp only [Function.update_self, Function.update_idem]

theorem Sys.manned_advance (sg : Segment) (A : Option AddrSpace) (c : Pc)
    (hc : (match sg.next with | some sg' => Pc.removeSwap sg' none | none => .zombie) = c) :
    (Sys.manned q p st ⟨A, .removeSwap sg none⟩ q).micro .advance =
      .ok (Sys.manned q p st ⟨A, c⟩ q) := by
  change (Sys.manned q p st _ q).advance = _
  unfold Sys.advance
  rw [show (Sys.manned q p st ⟨A, .removeSwap sg none⟩ q).cur = q from rfl, Sys.manned_pc]
  subst hc
  cases sg with
  | text =>
    simp only [Segment.next]
    rw [show (Sys.manned q p st ⟨A, .removeSwap .text none⟩ q).swap = SwapFile.init 1 fun _ => 0 from rfl,
      SwapFile.init_clearList]
    exact congrArg Except.ok (Sys.manned_goto ..)
  | data =>
    simp only [Segment.next]
    rw [show (Sys.manned q p st ⟨A, .removeSwap .data none⟩ q).swap = SwapFile.init 1 fun _ => 0 from rfl,
      SwapFile.init_clearList]
    exact congrArg Except.ok (Sys.manned_goto ..)
  | stack =>
    simp only [Segment.next]
    rw [show (Sys.manned q p st ⟨A, .removeSwap .stack none⟩ q).swap = SwapFile.init 1 fun _ => 0 from rfl,
      SwapFile.init_clearList]
    exact congrArg Except.ok (Sys.manned_goto ..)

/-- The next program gets the next pid. -/
theorem PidSys.rested_spawn (st : Stats) (hk : 1 ≤ k) (hM : k < maxProc) :
    Run PidSys.Step ⟨.rested p st, k⟩ [.spawn (k + 1), .dispatch (k + 1)]
      ⟨.manned (k + 1) p st ⟨none, .run⟩ (k + 1), k + 1⟩ := by
  have h1 : k + 1 ≠ 1 := by omega
  have hpid : PidOk (k + 1) := by
    unfold maxProc at hM
    exact ⟨by omega, by omega⟩
  have hn : (Sys.rested p st).pc (k + 1) = .none := if_neg h1
  have hspawn : PidSys.Step ⟨.rested p st, k⟩ (.spawn (k + 1))
      ⟨.manned (k + 1) p st ⟨none, .run⟩ 1, k + 1⟩ := by
    have hnext : nextPid k = k + 1 := if_neg (by omega)
    refine ⟨⟨⟨rfl, hn, hpid⟩, rfl⟩, ?_, rfl⟩
    dsimp only
    rw [hnext, show maxProc = 99 + 1 from rfl, pidLoop, if_neg (by omega), Sys.slots, if_pos hn]
    rfl
  have hdispatch : PidSys.Step ⟨.manned (k + 1) p st ⟨none, .run⟩ 1, k + 1⟩ (.dispatch (k + 1))
      ⟨.manned (k + 1) p st ⟨none, .run⟩ (k + 1), k + 1⟩ := by
    refine ⟨⟨⟨?_, ?_⟩, ?_⟩, rfl⟩
    · exact congrArg Pc.switchable (congrArg Proc.pc (Sys.manned_menu h1 ..))
    · exact congrArg Pc.ready (Sys.manned_pc ..)
    · change _ <$> Sys.activate _ (Sys.as _ _) _ = _
      rw [Sys.manned_as]
      rfl
  exact Run.append (.single hspawn) (.single hdispatch)

theorem Sys.manned_exec (st : Stats) (hA : loadElf 0 smallProgram = some A) : ∃ st',
    (Sys.manned q p st ⟨none, .run⟩ q).micro (.exec 0 smallProgram) =
      .ok (Sys.manned q q st' ⟨some A, .run⟩ q) := by
  let st' := if (some A).isSome && (Sys.manned q p st ⟨none, .run⟩ q).mmu.previousPid != q then
    { st with tlbInvalidations := st.tlbInvalidations + 1 } else st
  refine ⟨st', ?_⟩
  have hact : (Sys.manned q p st ⟨none, .run⟩ q).activate (some A) q =
      .ok (Sys.manned q q st' ⟨none, .run⟩ q) := by
    unfold Sys.activate asActivate
    dsimp only
    rw [tlbInvalidateAll_empty rfl]
    rfl
  change (do
    let s₁ ← Sys.activate _ (loadElf 0 smallProgram) q
    return _) = _
  rw [hA, hact]
  change Except.ok _ = _
  congr 1
  unfold Sys.manned
  simp only [Function.update_self, Function.update_idem]

/-- It exits and the menu collects it. -/
theorem PidSys.manned_exit (st : Stats) (hq : q ≠ 1) : ∃ tr st',
    Run PidSys.Step ⟨.manned q p st ⟨none, .run⟩ q, k⟩ tr ⟨.rested q st', k⟩ := by
  obtain ⟨A, hA⟩ : ∃ A, loadElf 0 smallProgram = some A := ⟨_, rfl⟩
  obtain ⟨st', hexec⟩ := Sys.manned_exec (q := q) (p := p) st hA
  have hexit : (Sys.manned q q st' ⟨some A, .run⟩ q).micro .exit =
      .ok (Sys.manned q q st' ⟨some A, .removeSwap .text none⟩ q) := by
    change Sys.sysExit _ = _
    unfold Sys.sysExit
    rw [Ipt.freePages_none fun i => rfl]
    exact congrArg Except.ok (Sys.manned_goto ..)
  have hrun₁ : PidSys.Step ⟨.manned q p st ⟨none, .run⟩ q, k⟩ (.exec 0 smallProgram)
      ⟨.manned q q st' ⟨some A, .run⟩ q, k⟩ :=
    ⟨⟨⟨Sys.manned_pc .., Sys.manned_as .., rfl⟩, hexec⟩, rfl⟩
  have hrun₂ : PidSys.Step ⟨.manned q q st' ⟨some A, .run⟩ q, k⟩ .exit
      ⟨.manned q q st' ⟨some A, .removeSwap .text none⟩ q, k⟩ :=
    ⟨⟨Sys.manned_pc .., hexit⟩, rfl⟩
  have hadv : ∀ sg c, (match sg.next with | some sg' => Pc.removeSwap sg' none | none => .zombie) = c →
      PidSys.Step ⟨.manned q q st' ⟨some A, .removeSwap sg none⟩ q, k⟩ .advance
        ⟨.manned q q st' ⟨some A, c⟩ q, k⟩ := by
    intro sg c hc
    exact ⟨⟨congrArg Pc.advances (Sys.manned_pc ..), Sys.manned_advance sg _ c hc⟩, rfl⟩
  have hdispatch : PidSys.Step ⟨.manned q q st' ⟨some A, .zombie⟩ q, k⟩ (.dispatch 1)
      ⟨.manned q q st' ⟨some A, .zombie⟩ 1, k⟩ := by
    refine ⟨⟨⟨congrArg Pc.switchable (Sys.manned_pc ..), ?_⟩, ?_⟩, rfl⟩
    · exact congrArg Pc.ready (congrArg Proc.pc (Sys.manned_menu hq ..))
    · change _ <$> Sys.activate _ (Proc.as _) _ = _
      rw [Sys.manned_menu hq]
      rfl
  have hreap : PidSys.Step ⟨.manned q q st' ⟨some A, .zombie⟩ 1, k⟩ (.reap q)
      ⟨.rested q st', k⟩ := by
    refine ⟨⟨⟨congrArg Proc.pc (Sys.manned_menu hq ..), Sys.manned_pc ..⟩, ?_⟩, rfl⟩
    have hprocs : Function.update (Sys.manned q q st' ⟨some A, .zombie⟩ 1).procs q ⟨none, .none⟩ =
        (Sys.rested q st').procs := by
      unfold Sys.manned
      rw [Function.update_idem]
      have hold : (Sys.rested q st').procs q = ⟨none, .none⟩ := congrArg (Proc.mk none) (if_neg hq)
      rw [← hold]
      exact Function.update_eq_self ..
    change Except.ok { Sys.manned q q st' ⟨some A, .zombie⟩ 1 with
      procs := Function.update (Sys.manned q q st' ⟨some A, .zombie⟩ 1).procs q ⟨none, .none⟩ } = _
    rw [hprocs]
    rfl
  exact ⟨_, st', ((((((Run.single hrun₁).append (.single hrun₂)).append
    (.single (hadv .text _ rfl))).append (.single (hadv .data _ rfl))).append
    (.single (hadv .stack _ rfl))).append (.single hdispatch)).append (.single hreap)⟩

theorem PidSys.rested_run (hk : 1 ≤ k) (hM : k ≤ maxProc) : ∃ tr p st,
    Run PidSys.Step (.boot (.blank 1 1)) tr ⟨.rested p st, k⟩ := by
  induction k with
  | zero => cases hk
  | succ k ih =>
    cases Nat.eq_zero_or_pos k with
    | inl h0 =>
      subst h0
      exact ⟨[], 0, .zero, .nil _⟩
    | inr h0 =>
      obtain ⟨tr, p, st, hrun⟩ := ih h0 (by omega)
      obtain ⟨tr', st', hexit⟩ := PidSys.manned_exit (q := k + 1) (p := p) (k := k + 1) st (by omega)
      exact ⟨_, k + 1, st', (hrun.append (rested_spawn st h0 hM)).append hexit⟩

/-- After 98 programs the next one gets the pid `MAX_PROC`: at its exit `swap->text[MAX_PROC]`
is used. -/
theorem swap_tables_overrun : ∃ m tr s,
    Run PidSys.Step (.boot m) tr s ∧ s.sys.Enabled .exit ∧ maxProc ∈ s.sys.swapIndices .exit := by
  obtain ⟨tr, p, st, hrun⟩ := PidSys.rested_run (k := 99) (by decide) (by decide)
  have hlast := PidSys.rested_spawn (k := 99) (p := p) st (by decide) (by decide)
  exact ⟨_, _, _, hrun.append hlast, Sys.manned_pc .., List.mem_singleton.2 rfl⟩

end Clape
