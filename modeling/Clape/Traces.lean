import Clape.Moves
import Clape.PageTableRuns

namespace Clape
set_option autoImplicit true

/-- The steps that meet a condition on the state before the step and the action. -/
def StepWhen (C : Sys → Action → Prop) (s : Sys) (a : Action) (s' : Sys) : Prop :=
  C s a ∧ SysStep s a s'

theorem StepWhen.mono {C D : Sys → Action → Prop} (h : StepWhen C s a s')
    (hCD : ∀ s a, C s a → D s a) : StepWhen D s a s' :=
  ⟨hCD s a h.1, h.2⟩

/-- What the machine holds when the kernel boots. -/
structure Hardware where
  nEntry : Nat
  firstFreePaddr : Nat
  entries : Nat → PtEntry
  swapSize : Nat
  cells : Nat → Nat
  mem : Nat → UInt8
  disk : Nat → UInt8
  kbuf : Nat → UInt8
  files : Nat → File

def Stats.zero : Stats := ⟨0, 0, 0, 0, 0, 0, 0, 0, 0, 0⟩

/-- The machine after boot: the TLB is reset and the kernel process, with pid 1 and no
address space, runs. -/
def Sys.boot (m : Hardware) : Sys where
  ipt := .boot m.nEntry m.firstFreePaddr m.entries
  swap := .init m.swapSize m.cells
  mmu := ⟨fun _ => none, 0, 0⟩
  mem := m.mem
  disk := m.disk
  kbuf := m.kbuf
  procs q := ⟨none, if q = 1 then .run else .none⟩
  cur := 1
  semFork := true
  files := m.files
  stats := .zero

/-- A machine with the given numbers of frames and of swap cells, and zeros everywhere. -/
def Hardware.blank (n k : Nat) : Hardware where
  nEntry := n
  firstFreePaddr := 0
  entries _ := ⟨0, 0, .zero⟩
  swapSize := k
  cells _ := 0
  mem _ := 0
  disk _ := 0
  kbuf _ := 0
  files _ := ⟨0, fun _ => 0⟩

namespace Sys

instance (s : Sys) (v : Nat) : Decidable (s.Misses v) :=
  decidable_of_iff (∀ k < numTlb, (s.mmu.slots k).all (fun e => e.vpage != v) = true) (by
    simp [Misses, Option.all_eq_true])

instance (s : Sys) (k : Nat) : Decidable (∃ e, s.mmu.slots k = some e ∧ e.dirty = true) :=
  decidable_of_iff ((s.mmu.slots k).any TlbEntry.dirty = true) (by simp [Option.any_eq_true])

instance (s : Sys) (a : Action) : Decidable (s.Enabled a) :=
  match a with
  | .dispatch _ | .kfree _ | .reap _ => inferInstanceAs (Decidable (_ ∧ _))
  | .write _ _ _ => inferInstanceAs (Decidable (_ ∧ _ ∧ _ ∧ _ ∧ _))
  | .fault _ _ => inferInstanceAs (Decidable (_ ∧ _ ∧ _ ∧ (_ ∨ _)))
  | .exit | .alloc | .advance => inferInstanceAs (Decidable (_ = _))
  | .fork _ => inferInstanceAs (Decidable (_ ∧ _ ∧ _ ∧ _ ∧ _))
  | .spawn _ => inferInstanceAs (Decidable (_ ∧ _ ∧ _))
  | .exec _ _ => inferInstanceAs (Decidable (_ ∧ _ ∧ _))

/-- The state after a list of actions, if they all meet the condition, can happen and do
not stop the kernel. -/
def follow (C : Sys → Action → Prop) [∀ s a, Decidable (C s a)] (s : Sys) :
    List Action → Option Sys
  | [] => some s
  | a :: l =>
    if C s a ∧ s.Enabled a then
      match s.micro a with
      | .ok s' => follow C s' l
      | .error _ => none
    else none

theorem follow_run {C : Sys → Action → Prop} [∀ s a, Decidable (C s a)] {s : Sys}
    (h : s.follow C l = some t) : Run (StepWhen C) s l t := by
  induction l generalizing s with
  | nil =>
    cases h
    exact .nil _
  | cons a l ih =>
    unfold follow at h
    split at h
    · rename_i hen
      split at h
      · rename_i s' hs'
        have hr : Run (StepWhen C) s [a] s' := .single ⟨hen.1, hen.2, hs'⟩
        exact hr.append (ih h)
      · cases h
    · cases h

/-- A run that ends in a state with a property that is tested. -/
theorem run_of_follow {C : Sys → Action → Prop} [∀ s a, Decidable (C s a)] {s : Sys}
    (l : List Action) {p : Sys → Bool} (h : (s.follow C l).any p = true) :
    ∃ t, Run (StepWhen C) s l t ∧ p t = true := by
  rw [Option.any_eq_true] at h
  obtain ⟨t, ht, hp⟩ := h
  exact ⟨t, follow_run ht, hp⟩

end Sys

end Clape
