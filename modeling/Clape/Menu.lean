import Clape.Traces

namespace Clape
set_option autoImplicit true

/-- The loop of `reorder_swapfile`, with the iterations left, the index and `tmp`. -/
def SwapFile.renumber (w : SwapFile) : Nat → Nat → Option Nat → Except Fault SwapFile
  | 0, _, _ => .ok w
  | _ + 1, _, none => .error (.nullCell .reorderSwapfile)
  | n + 1, i, some c =>
    { w with offset := Function.update w.offset c (i * pageSize) }.renumber n (i + 1)
      (w.lists.next c)

def SwapFile.reorderSwapfile (w : SwapFile) : Except Fault SwapFile :=
  w.renumber w.size 0 (w.lists.head .free)

/-- What can happen on the machine: a step of the VM system, or the end of `common_prog` for
the program `q`. -/
inductive MenuAction where
  | vm (a : Action)
  | collect (q : Nat)

namespace Sys

/-- `common_prog` when the program `q` has ended: `sys_waitpid` returns, the swap file is
reordered, and `stats_print` resets the counters. -/
def collect (s : Sys) (q : Nat) : Except Fault Sys := do
  let s₁ ← s.micro (.reap q)
  let w ← s₁.swap.reorderSwapfile
  return { s₁ with swap := w, stats := .zero }

/-- The menu runs in the kernel process. -/
def MenuEnabled (s : Sys) : MenuAction → Prop
  | .vm a => s.Enabled a
  | .collect q => s.cur = 1 ∧ s.Enabled (.reap q)

def menu (s : Sys) : MenuAction → Except Fault Sys
  | .vm a => s.micro a
  | .collect q => s.collect q

instance (s : Sys) (a : MenuAction) : Decidable (s.MenuEnabled a) :=
  match a with
  | .vm a => inferInstanceAs (Decidable (s.Enabled a))
  | .collect _ => inferInstanceAs (Decidable (_ ∧ _))

end Sys

/-- The steps that meet a condition on the state before the step and the action. -/
def MenuStepWhen (C : Sys → MenuAction → Prop) (s : Sys) (a : MenuAction) (s' : Sys) : Prop :=
  C s a ∧ s.MenuEnabled a ∧ s.menu a = .ok s'

theorem Run.vm {C : Sys → Action → Prop} {D : Sys → MenuAction → Prop}
    (h : Run (StepWhen C) s tr t) (hD : ∀ s a, C s a → D s (.vm a)) :
    Run (MenuStepWhen D) s (tr.map .vm) t := by
  induction h with
  | nil => exact .nil _
  | snoc _ ha ih =>
    rw [List.map_append]
    exact .snoc ih ⟨hD _ _ ha.1, ha.2.1, ha.2.2⟩

theorem Sys.collect_ok {s u : Sys} (hen : s.MenuEnabled (.collect q)) (h : s.collect q = .ok u) :
    ∃ s₁ w, Move s (.reap q) s₁ ∧ s₁.swap = s.swap ∧ s.swap.reorderSwapfile = .ok w ∧
      u = { s₁ with swap := w, stats := .zero } := by
  obtain ⟨s₁, hs₁, h⟩ := bind_ok.1 h
  obtain ⟨w, hw, h⟩ := bind_ok.1 h
  have hm : Move s (.reap q) s₁ := SysStep.move ⟨hen.2, hs₁⟩
  cases hs₁
  cases h
  exact ⟨_, w, hm, rfl, hw, rfl⟩

/-- An action stops the kernel with the given fault. -/
def Sys.stopsMenu (s : Sys) (a : MenuAction) (e : Fault) : Bool :=
  match s.menu a with
  | .ok _ => false
  | .error e' => e' == e

theorem Sys.menu_of_stops {s : Sys} (h : s.stopsMenu a e = true) : s.menu a = .error e := by
  unfold stopsMenu at h
  split at h
  · cases h
  · rename_i e' he
    rw [he, beq_iff_eq.1 h]

end Clape
