import Clape.FrameRuns

namespace Clape
set_option autoImplicit true

/-- A process that gets an address space has not the pid that the TLB was last filled for. -/
def Sys.Unseen (s : Sys) : Action → Prop
  | .exec _ _ => s.mmu.previousPid ≠ s.cur
  | _ => True

instance (s : Sys) (a : Action) : Decidable (s.Unseen a) :=
  match a with
  | .exec _ _ => inferInstanceAs (Decidable (_ ≠ _))
  | .dispatch _ | .kfree _ | .reap _ | .write _ _ _ | .fault _ _ | .exit | .alloc | .advance
  | .fork _ | .spawn _ => .isTrue trivial

theorem Sys.step_cached {s : Sys} (hg : s.table.Good) (hc : s.table.Cached) (ha : s.Unseen a)
    (hs : SysStep s a s') : s'.table.Cached := by
  apply hc.moves hg
  apply hs.move.table hg.1
  intro _ hex
  obtain ⟨vn, phs, rfl⟩ := hex
  exact ha

theorem Sys.run_cached (h : Run (StepWhen Sys.Unseen) (Sys.boot m) tr s) :
    s.table.Good ∧ s.table.Cached := by
  apply h.invariant (P := fun s => s.table.Good ∧ s.table.Cached)
  · exact ⟨⟨Sys.boot_own m, Sys.boot_hashed m⟩, Sys.boot_cached m⟩
  · intro t a u ht hs
    exact ⟨Sys.step_good ht.1 hs.2, Sys.step_cached ht.1 ht.2 hs.1 hs.2⟩

/-- In every run in which a process that gets an address space has not the pid that the TLB
was last filled for, the TLB and the page table agree whenever a process is in user mode,
and the assertions on the TLB bit never fail. -/
theorem tlb_pageTable_coherent (h : Run (StepWhen Sys.Unseen) (Sys.boot m) tr s) :
    (s.pc s.cur = .run → (s.as s.cur).isSome = true →
      (∀ k < numTlb, ∀ x, s.mmu.slots k = some x → x.frame < s.ipt.pt.nEntry ∧
        (s.ipt.pt.entries x.frame).ctrl.validity = true ∧
        (s.ipt.pt.entries x.frame).page = x.vpage ∧ (s.ipt.pt.entries x.frame).pid = s.cur ∧
        (s.ipt.pt.entries x.frame).ctrl.tlb = true) ∧
      (∀ i, (s.ipt.pt.entries i).ctrl.tlb = true → (s.ipt.pt.entries i).pid = s.cur ∧
        ∃! k, k < numTlb ∧ ∃ x, s.mmu.slots k = some x ∧ x.frame = i) ∧
      (∀ k < numTlb, ∀ k' < numTlb, ∀ x x', s.mmu.slots k = some x → s.mmu.slots k' = some x' →
        x.vpage = x'.vpage → k = k')) ∧
    ∀ a, s.Enabled a → s.micro a ≠ .error (.kassert .ptGetPaddr .tlb) ∧
      s.micro a ≠ .error (.kassert .updateTlbBit .tlb) := by
  obtain ⟨⟨ho, hh⟩, hc⟩ := Sys.run_cached h
  constructor
  · intro hpc has
    have hcur : s.mmu.previousPid = s.cur := hc.current has
    have hback : ∀ k < numTlb, ∀ x, s.mmu.slots k = some x →
        Backed s.ipt.pt.nEntry s.ipt.pt.entries s.cur x := by
      intro k hk x hx
      rw [← hcur]
      apply hc.coherent.strict _ hk hx
      rw [show s.table.mmu.previousPid = s.cur from hcur]
      exact ⟨has, by rw [show s.table.role s.cur = (s.pc s.cur).role from rfl, hpc]; rfl⟩
    refine ⟨?_, ?_, ?_⟩
    · intro k hk x hx
      obtain ⟨⟨hi, hu, hpg, hpid⟩, htlb⟩ := hback k hk x hx
      exact ⟨hi, (PtEntry.user_iff.1 hu).1, hpg, hpid, htlb⟩
    · intro i hi
      obtain ⟨k, hk, x, hx, hf, hkey⟩ := hc.coherent.slot hi
      refine ⟨hkey.2.2.2.trans hcur, k, ⟨hk, x, hx, hf⟩, ?_⟩
      rintro k' ⟨hk', x', hx', hf'⟩
      -- both slots are for the page that the entry names
      have hpg := (hback k hk x hx).1.2.2.1
      have hpg' := (hback k' hk' x' hx').1.2.2.1
      apply hc.coherent.distinct hk' hk hx' hx
      rw [← hpg, ← hpg', hf, hf']
    · intro k hk k' hk' x x' hx hx' hv
      exact hc.coherent.distinct hk hk' hx hx' hv
  · have hno : ∀ a f, f ≠ .freePages → s.Enabled a → s.micro a ≠ .error (.kassert f .tlb) := by
      intro a f hf hen he
      cases ((Sys.micro_sound hen).error he).cause ho hh with
      | inl hcause =>
        rcases hcause.fault with he | he | ⟨v, i, A, -, -, -, he⟩
        · cases he
        · cases he
        · rcases freePages_error he with ⟨c, he⟩ | he | he
          · cases he
            exact hf rfl
          · cases he
          · cases he
      | inr htlb => exact htlb.absurd ho hh hc
    intro a hen
    exact ⟨hno a _ nofun hen, hno a _ nofun hen⟩

/-- A program has read its first page: the entry of its frame has one slot. -/
theorem tlb_pageTable_coherent_load : ∃ tr s, Run (StepWhen Sys.Unseen) (Sys.boot (.blank 1 1)) tr s ∧
    s.pc s.cur = .run ∧ (s.as s.cur).isSome = true ∧ (s.ipt.pt.entries 0).ctrl.tlb = true ∧
    ∃! k, k < numTlb ∧ ∃ x, s.mmu.slots k = some x ∧ x.frame = 0 := by
  obtain ⟨s, hr, hs⟩ := Sys.run_of_follow (C := Sys.Unseen) (s := .boot (.blank 1 1))
    [.spawn 2, .dispatch 2, .exec 0 (programHeaders 0x400000 4096 0x10000000 4096),
      .fault .read 0x400000, .advance, .advance, .advance]
    (p := fun s => decide (s.pc s.cur = .run) && (s.as s.cur).isSome &&
      (s.ipt.pt.entries 0).ctrl.tlb) (by decide +kernel)
  simp only [Bool.and_eq_true, decide_eq_true_eq] at hs
  obtain ⟨⟨hpc, has⟩, htlb⟩ := hs
  exact ⟨_, s, hr, hpc, has, htlb, (((tlb_pageTable_coherent hr).1 hpc has).2.1 0 htlb).2⟩

end Clape
