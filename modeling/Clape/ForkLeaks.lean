import Clape.ForkFailures

namespace Clape
set_option autoImplicit true

/-- The end of a `sys_fork` that succeeds. -/
def MachineAction.isFork : MachineAction → Bool
  | .forked true true => true
  | _ => false

namespace Machine

/-- What fork, exit and wait have to leave as it was: the pids in use, the user frames and their
hash nodes, the free cells of the swap file, the vnodes and the blocks of `kmalloc`. -/
structure Neutral (k k' : Machine) : Prop where
  pids : ∀ i, (k'.table i).isSome = (k.table i).isSome
  pages : ∀ i, k'.vm.userPage i = k.vm.userPage i
  nodes : ∀ v p i, k'.vm.HashNode v p i ↔ k.vm.HashNode v p i
  cells : ∀ c, k'.vm.swap.lists.On .free c ↔ k.vm.swap.lists.On .free c
  refs : k'.refs = k.refs
  blocks : k'.live = k.live

/-- The trapframes that were allocated stay allocated, and the numbers of the blocks grow. -/
structure Grows (k k' : Machine) : Prop where
  brk : k.brk ≤ k'.brk
  trapframe : k.live .trapframe n = true → n < k.brk → k'.live .trapframe n = true
  fresh : (∀ b n, k.live b n = true → n < k.brk) → ∀ b n, k'.live b n = true → n < k'.brk

theorem Grows.refl (k : Machine) : k.Grows k := ⟨Nat.le_refl _, fun h _ => h, id⟩

theorem Grows.trans {k k₁ k₂ : Machine} (h : k.Grows k₁) (h' : k₁.Grows k₂) : k.Grows k₂ :=
  ⟨Nat.le_trans h.brk h'.brk,
    fun hn hlt => h'.trapframe (h.trapframe hn hlt) (Nat.lt_of_lt_of_le hlt h.brk),
    fun hf => h'.fresh (h.fresh hf)⟩

theorem Grows.of_eq {k k' : Machine} (hlive : k'.live = k.live) (hbrk : k'.brk = k.brk) :
    k.Grows k' := by
  refine ⟨Nat.le_of_eq hbrk.symm, ?_, ?_⟩
  · intro n hn _
    rw [hlive]
    exact hn
  · intro hf
    rw [hlive, hbrk]
    exact hf

theorem grows_vm (k : Machine) (vm : Sys) : k.Grows { k with vm := vm } := .of_eq rfl rfl

theorem grows_kmalloc (k : Machine) (bs : List Block) : k.Grows (k.kmalloc bs) := by
  refine ⟨Nat.le_succ _, ?_, ?_⟩
  · intro n hn _
    simp [kmalloc, hn]
  · intro hf b n hn
    simp only [kmalloc, Bool.or_eq_true, Bool.and_eq_true, beq_iff_eq] at hn
    rcases hn with ⟨rfl, -⟩ | hn
    · exact Nat.lt_succ_self _
    · exact Nat.lt_succ_of_lt (hf b n hn)

theorem grows_kfree {k k' : Machine} (h : k.Grows k') {bs : List Block}
    (hbs : bs.contains .trapframe = false ∨ k.brk ≤ n) : k.Grows (k'.kfree bs n) := by
  refine ⟨h.brk, ?_, ?_⟩
  · intro m hm hlt
    simp only [kfree, h.trapframe hm hlt, Bool.true_and, Bool.not_eq_true', Bool.and_eq_false_iff,
      beq_eq_false_iff_ne]
    rcases hbs with hbs | hle
    · exact .inr hbs
    · exact .inl (by omega)
  · intro hf b m hm
    simp only [kfree, Bool.and_eq_true] at hm
    exact h.fresh hf b m hm.1

theorem grows_procCreate (k : Machine) (q : Nat) : k.Grows (k.procCreate q) := by
  have hm := grows_kmalloc { k with
    table := Function.update k.table q (some ⟨k.brk, none, k.cwd⟩), lastI := q } procBlocks
  unfold procCreate
  cases k.cwd with
  | none => exact ⟨hm.brk, hm.trapframe, hm.fresh⟩
  | some v => exact ⟨hm.brk, hm.trapframe, hm.fresh⟩

theorem grows_asDestroy {k k' : Machine} (h : k.Grows k') (n v : Nat) :
    k.Grows (k'.asDestroy n v) := by
  apply grows_kfree _ (.inl rfl)
  exact h.trans (.of_eq rfl rfl)

theorem grows_procDestroy {k k' : Machine} (h : k.Grows k') (q : Nat) :
    k.Grows (k'.procDestroy q) := by
  have hdecref : ∀ v, k.Grows (k'.decref v) := fun _ => h.trans (.of_eq rfl rfl)
  unfold procDestroy
  cases k'.table q with
  | none => exact h
  | some e =>
    simp only
    apply grows_kfree _ (.inl rfl)
    cases hc : e.cwd with
    | none =>
      cases ha : e.addrspace with
      | none => exact h.trans (.of_eq rfl rfl)
      | some a => exact (grows_asDestroy h a.1 a.2).trans (.of_eq rfl rfl)
    | some v =>
      cases ha : e.addrspace with
      | none => exact (hdecref v).trans (.of_eq rfl rfl)
      | some a => exact (grows_asDestroy (hdecref v) a.1 a.2).trans (.of_eq rfl rfl)

theorem grows_asCreate (k : Machine) (q v : Nat) : k.Grows (k.asCreate q v) := by
  let entry := (k.table q).map fun e => { e with addrspace := some (k.brk, v) }
  have hm := grows_kmalloc { k with table := Function.update k.table q entry } [.addrspace]
  exact ⟨hm.brk, hm.trapframe, hm.fresh⟩

theorem grows_threadFork (k : Machine) (q : Nat) : k.Grows (k.threadFork q) := by
  have hm := grows_kmalloc { k with thread := Function.update k.thread q k.brk } threadBlocks
  exact ⟨hm.brk, hm.trapframe, hm.fresh⟩

theorem grows_splx (k : Machine) (p spl : Nat) : k.Grows (k.splx p spl) := by
  unfold splx
  split
  · exact .of_eq rfl rfl
  · split
    · exact .of_eq rfl rfl
    · exact .refl k

theorem grows_kfrees (k : Machine) (l : List Nat) :
    k.Grows (l.foldl (fun k n => k.kfree threadBlocks n) k) := by
  induction l generalizing k with
  | nil => exact .refl k
  | cons n l ih => exact (grows_kfree (.refl k) (.inl (by decide))).trans (ih _)

theorem grows_sysFork {k : Machine} (h : k.sysFork child b c = .ok (k', r)) : k.Grows k' := by
  have henter : k.Grows k.enterFork := by
    have hs := grows_splx { k with
      vm := { k.vm with semFork := false }
      saved := Function.update k.saved k.cur (k.curspl k.cur) } k.cur 1
    exact ⟨hs.brk, hs.trapframe, hs.fresh⟩
  have hcreate := henter.trans (grows_procCreate k.enterFork child)
  unfold sysFork at h
  simp only at h
  split at h
  · cases h
    exact henter
  · split at h
    · cases h
      exact grows_procDestroy hcreate child
    · obtain ⟨vm, -, h⟩ := bind_ok.1 h
      split at h
      · cases h
        exact (hcreate.trans (grows_vm _ vm)).trans (grows_asCreate _ _ _)
      · cases h

theorem grows_sysForkEnd {k : Machine} (h : k.sysForkEnd child b c = .ok (k', err)) :
    k.Grows k' ∧ (b = true → c = true → k'.live .trapframe k.brk = true ∧ k.brk < k'.brk) := by
  have hm := grows_kmalloc k [.trapframe]
  unfold sysForkEnd at h
  split at h
  · rename_i hb
    obtain ⟨vm, -, h⟩ := bind_ok.1 h
    cases h
    refine ⟨grows_procDestroy (grows_vm k vm) child, ?_⟩
    rintro rfl
    cases hb
  · simp only at h
    split at h
    · rename_i hc
      obtain ⟨vm, -, h⟩ := bind_ok.1 h
      cases h
      refine ⟨grows_kfree (grows_procDestroy (hm.trans (grows_vm _ vm)) child)
        (.inr (Nat.le_refl _)), ?_⟩
      rintro - rfl
      cases hc
    · obtain ⟨vm, -, h⟩ := bind_ok.1 h
      cases h
      have hend := (grows_vm (k.kmalloc [.trapframe]) vm).trans
        ((grows_threadFork _ child).trans (grows_splx _ k.cur (k.saved k.cur)))
      refine ⟨hm.trans hend, fun _ _ => ⟨hend.trapframe ?_ (Nat.lt_succ_self _), ?_⟩⟩
      · simp [kmalloc]
      · exact Nat.lt_of_lt_of_le (Nat.lt_succ_self _) hend.brk

/-- What a step does to the blocks: none of them frees an old trapframe, and a fork that succeeds
allocates one. -/
theorem grows_step {k k' : Machine} (h : MachineStep k a k') :
    k.Grows k' ∧ (a.isFork = true → k'.live .trapframe k.brk = true ∧ k.brk < k'.brk) := by
  obtain ⟨hen, hex⟩ := h
  cases a with
  | vm a =>
    obtain ⟨vm, -, h⟩ := bind_ok.1 hex
    cases h
    exact ⟨.of_eq rfl rfl, (by simp [MachineAction.isFork])⟩
  | spawn q =>
    obtain ⟨vm, -, h⟩ := bind_ok.1 hex
    cases h
    exact ⟨(grows_vm k vm).trans ((grows_procCreate _ q).trans (grows_threadFork _ q)), (by simp [MachineAction.isFork])⟩
  | exec vn phs =>
    obtain ⟨vm, -, h⟩ := bind_ok.1 hex
    cases h
    exact ⟨(grows_vm k vm).trans (grows_asCreate _ _ _), (by simp [MachineAction.isFork])⟩
  | fork child b c =>
    obtain ⟨_, -, h⟩ := bind_ok.1 hex
    obtain ⟨⟨k₁, r⟩, hcall, h⟩ := bind_ok.1 h
    have hk' : k' = k₁ := by
      simp only at h
      split at h
      · obtain ⟨_, -, h⟩ := bind_ok.1 h
        cases h
        rfl
      · cases h
        rfl
    rw [hk']
    exact ⟨grows_sysFork hcall, (by simp [MachineAction.isFork])⟩
  | forked b c =>
    simp only [exec] at hex
    split at hex
    · obtain ⟨⟨k₁, err⟩, hend, h⟩ := bind_ok.1 hex
      obtain ⟨_, -, h⟩ := bind_ok.1 h
      cases h
      obtain ⟨hgrows, hframe⟩ := grows_sysForkEnd hend
      refine ⟨hgrows, fun hf => ?_⟩
      cases b with
      | false => cases hf
      | true =>
        cases c with
        | false => cases hf
        | true => exact hframe rfl rfl
    · rename_i hnone
      change k.atForkEnd.isSome = true at hen
      rw [hnone] at hen
      cases hen
  | wait q =>
    obtain ⟨vm, -, h⟩ := bind_ok.1 hex
    cases h
    exact ⟨grows_procDestroy (grows_vm k vm) q, (by simp [MachineAction.isFork])⟩
  | exorcise =>
    cases hex
    exact ⟨(grows_kfrees k k.zombies).trans (.of_eq rfl rfl), (by simp [MachineAction.isFork])⟩

theorem boot_fresh (m : Hardware) : ∀ b n, (boot m).live b n = true → n < (boot m).brk := by
  intro b n hn
  change (n == 0 && _) = true at hn
  simp only [Bool.and_eq_true, beq_iff_eq] at hn
  rw [hn.1]
  exact Nat.zero_lt_one

/-- After a run there is a new trapframe for each fork. -/
theorem leaked_trapframes {k k' : Machine} (h : Run MachineStep k tr k')
    (hf : ∀ b n, k.live b n = true → n < k.brk) :
    ∃ l : List Nat, l.Nodup ∧ l.length = tr.countP MachineAction.isFork ∧
      ∀ n ∈ l, k.live .trapframe n = false ∧ k'.live .trapframe n = true := by
  have hinv : k.brk ≤ k'.brk ∧ ∃ l : List Nat, l.Nodup ∧
      l.length = tr.countP MachineAction.isFork ∧
      ∀ n ∈ l, k.brk ≤ n ∧ n < k'.brk ∧ k'.live .trapframe n = true := by
    apply h.invariant_trace (P := fun tr u => k.brk ≤ u.brk ∧ ∃ l : List Nat, l.Nodup ∧
      l.length = tr.countP MachineAction.isFork ∧
      ∀ n ∈ l, k.brk ≤ n ∧ n < u.brk ∧ u.live .trapframe n = true)
    · exact ⟨Nat.le_refl _, [], List.nodup_nil, rfl, nofun⟩
    · rintro tr u a u' ⟨hbrk, l, hnd, hlen, hl⟩ hs
      obtain ⟨hg, hfork⟩ := grows_step hs
      have hold : ∀ n ∈ l, k.brk ≤ n ∧ n < u'.brk ∧ u'.live .trapframe n = true := by
        intro n hn
        obtain ⟨hle, hlt, hlive⟩ := hl n hn
        exact ⟨hle, Nat.lt_of_lt_of_le hlt hg.brk, hg.trapframe hlive hlt⟩
      refine ⟨Nat.le_trans hbrk hg.brk, ?_⟩
      rw [List.countP_append, List.countP_singleton]
      cases ha : a.isFork with
      | false => exact ⟨l, hnd, by simpa using hlen, hold⟩
      | true =>
        -- the number of the new trapframe is greater than those of the others
        obtain ⟨hlive, hlt⟩ := hfork ha
        refine ⟨u.brk :: l, List.nodup_cons.2 ⟨?_, hnd⟩, by simp [hlen], ?_⟩
        · intro hmem
          exact Nat.lt_irrefl _ (hl _ hmem).2.1
        · intro n hn
          rcases List.mem_cons.1 hn with rfl | hn
          · exact ⟨hbrk, hlt, hlive⟩
          · exact hold n hn
  obtain ⟨-, l, hnd, hlen, hl⟩ := hinv
  refine ⟨l, hnd, hlen, fun n hn => ?_⟩
  obtain ⟨hle, -, hlive⟩ := hl n hn
  refine ⟨?_, hlive⟩
  cases hk : k.live .trapframe n with
  | false => rfl
  | true =>
    have := hf _ _ hk
    omega

theorem fresh_run (h : Run MachineStep (boot m) tr k) : ∀ b n, k.live b n = true → n < k.brk :=
  h.invariant (P := fun k => ∀ b n, k.live b n = true → n < k.brk) (boot_fresh m)
    fun _ _ _ hu hs => (grows_step hs).1.fresh hu

end Machine

/-- From every reachable state: a run leaves one block of `kmalloc` more for each fork that it
makes, the copy of the trapframe, whatever the children and their parents do; so no run with a
fork leaves the resources as they were. -/
theorem fork_leaks_trapframe (h₀ : Run MachineStep (Machine.boot m) tr₀ k)
    (h : Run MachineStep k tr k') :
    (∃ l : List Nat, l.Nodup ∧ l.length = tr.countP MachineAction.isFork ∧
      ∀ n ∈ l, k.live .trapframe n = false ∧ k'.live .trapframe n = true) ∧
    (Machine.Neutral k k' → tr.countP MachineAction.isFork = 0) := by
  have hleak := Machine.leaked_trapframes h (Machine.fresh_run h₀)
  refine ⟨hleak, fun hn => ?_⟩
  obtain ⟨l, -, hlen, hl⟩ := hleak
  cases l with
  | nil => exact hlen.symm
  | cons n l =>
    obtain ⟨hold, hnew⟩ := hl n List.mem_cons_self
    rw [hn.blocks, hold] at hnew
    cases hnew

/-- Program 2 forks 3, which exits, is collected by 2, and whose thread is destroyed. -/
def forkCycle : List MachineAction :=
  [.fork 3 true true] ++ List.replicate 6 (.vm .advance) ++
    ([.forked true true, .vm (.dispatch 3), .vm .exit, .vm .advance, .vm .advance, .vm .advance,
      .vm (.dispatch 2), .wait 3, .exorcise] : List MachineAction)

theorem forkCycle_run : ∃ k k', Run MachineStep (Machine.boot (.blank 3 6)) forkingProgram k ∧
    Run MachineStep k forkCycle k' ∧ k'.vm.pc 3 = .none ∧ k'.table 3 = none ∧ k'.zombies = [] ∧
    k.live .trapframe 6 = false ∧ k'.live .trapframe 6 = true := by
  have hk : ((Machine.boot (.blank 3 6)).follow (fun _ => true) forkingProgram).any (fun k =>
      !k.live .trapframe 6 && (k.follow (fun _ => true) forkCycle).any fun k' =>
        decide (k'.vm.pc 3 = .none ∧ k'.table 3 = none ∧ k'.zombies = []) &&
          k'.live .trapframe 6) = true := by
    decide +kernel
  obtain ⟨k, hr, hk⟩ := (Option.any_eq_true ..).1 hk
  obtain ⟨hold, hk⟩ := Bool.and_eq_true_iff.1 hk
  obtain ⟨k', hr', hk⟩ := (Option.any_eq_true ..).1 hk
  obtain ⟨hdone, hnew⟩ := Bool.and_eq_true_iff.1 hk
  obtain ⟨hpc, ht, hz⟩ := of_decide_eq_true hdone
  exact ⟨k, k', (Machine.follow_run hr).mono (fun _ _ _ h => h.2),
    (Machine.follow_run hr').mono (fun _ _ _ h => h.2), hpc, ht, hz, by simpa using hold, hnew⟩

theorem fork_leaks_trapframe_cycle : ∃ k k',
    Run MachineStep (Machine.boot (.blank 3 6)) forkingProgram k ∧ Run MachineStep k forkCycle k' ∧
    ∃ n, k.live .trapframe n = false ∧ k'.live .trapframe n = true := by
  obtain ⟨k, k', hr, hr', -⟩ := forkCycle_run
  obtain ⟨⟨l, -, hlen, hl⟩, -⟩ := fork_leaks_trapframe hr hr'
  cases l with
  | nil => cases hlen
  | cons n l => exact ⟨k, k', hr, hr', n, hl n List.mem_cons_self⟩

/-- The child has exited, was collected, and its thread is destroyed, and the trapframe is still
allocated. -/
theorem collected_child_leaves_trapframe : ∃ k k',
    Run MachineStep (Machine.boot (.blank 3 6)) forkingProgram k ∧ Run MachineStep k forkCycle k' ∧
    k'.vm.pc 3 = .none ∧ k'.table 3 = none ∧ k'.zombies = [] ∧ ¬ Machine.Neutral k k' := by
  obtain ⟨k, k', hr, hr', hpc, ht, hz, hold, hnew⟩ := forkCycle_run
  refine ⟨k, k', hr, hr', hpc, ht, hz, fun hn => ?_⟩
  rw [hn.blocks, hold] at hnew
  cases hnew

end Clape
