import Clape.ByteStore
import Clape.ProcessSharing
import Clape.SysCalls

namespace Clape
set_option autoImplicit true

/-- The macros of kern/wait.h. -/
def wwhat (x : BitVec 32) : BitVec 32 := x &&& 3#32
def wval (x : BitVec 32) : BitVec 32 := x.sshiftRight 2
def wifexited (x : BitVec 32) : Bool := wwhat x == 0#32
def wexitstatus (x : BitVec 32) : BitVec 32 := wval x
def mkwaitExit (x : BitVec 32) : BitVec 32 := x <<< 2 ||| 0#32

/-- What a user program reads where `sys_waitpid` stored the status. -/
def loadInt (m : Nat → UInt8) (p : BitVec 32) : BitVec 32 := (wordAt m p.toNat).toBitVec

/-- The word tells the code of the exit. -/
def TellsExit (w c : BitVec 32) : Prop := wifexited w = true ∧ wexitstatus w = c &&& 0xff#32

/-- A process exited with some code. -/
def Exited (tr : List ProcAction) (p : Nat) : Prop := ∃ t c, ProcAction.exit t p c ∈ tr

theorem Exited.append (h : Exited tr p) (l : List ProcAction) : Exited (tr ++ l) p := by
  obtain ⟨t, c, hm⟩ := h
  exact ⟨t, c, List.mem_append_left _ hm⟩

/-- The process whose exit has begun when a thread gets there. -/
def ThreadPc.past : ThreadPc → Option Nat
  | .exitLock p | .waitRelease p _ => some p
  | _ => .none

namespace Procs

theorem move_tproc {s u : Procs} (h : ProcMove s a u) (ht : u.tproc t = some p) :
    s.tproc t = some p ∨ ∃ q g, a = .start q t g ∧ (s.pc q).creates = some p := by
  cases h with
  | start hpc hq hr =>
    rcases update_cases ht with ⟨rfl, hp⟩ | ht
    · cases hp
      apply Or.inr
      rcases hpc with ⟨hpc, -, -⟩ | ⟨hpc, -, -⟩
      · exact ⟨_, _, rfl, by rw [hpc]; rfl⟩
      · exact ⟨_, _, rfl, by rw [hpc]; rfl⟩
    · exact .inl ht
  | fail _ _ _ _ _ | exit _ _ _ _ _ =>
    rcases update_cases ht with ⟨-, hp⟩ | ht
    · cases hp
    · exact .inl ht
  | _ => exact .inl ht

theorem move_creates {s u : Procs} (h : ProcMove s a u) (ht : (u.pc t).creates = some p) :
    (s.pc t).creates = some p ∧ (∀ q g, a ≠ .start t q g) ∨ a = .create t ∧ p = s.brk := by
  rcases move_pc h rfl with ⟨hs, ha⟩ | hg
  · exact .inl ⟨hs ▸ ht, ha⟩
  · generalize u.pc t = c at ht hg
    cases hg with
    | create hx =>
      rcases hx with rfl | rfl
      · cases ht
        exact .inr ⟨rfl, rfl⟩
      · cases ht
        exact .inr ⟨rfl, rfl⟩
    | child _ hx => rcases hx with rfl | rfl <;> cases ht
    | parent _ hx => rcases hx with rfl | rfl <;> cases ht
    | runprogram hx => rcases hx with rfl | rfl <;> cases ht
    | _ => cases ht

theorem move_past {s u : Procs} (h : ProcMove s a u) (ht : (u.pc t).past = some p) :
    (s.pc t).past = some p ∨ (∃ c, a = .exit t p c) ∨ ∃ r, s.heap p = some r ∧ r.ended = true := by
  rcases move_pc h rfl with ⟨hs, -⟩ | hg
  · exact .inl (hs ▸ ht)
  · generalize u.pc t = c at ht hg
    cases hg with
    | exit =>
      cases ht
      exact .inr (.inl ⟨_, rfl⟩)
    | seen hr hend =>
      cases ht
      exact .inr (.inr ⟨_, hr, hend⟩)
    | create hx => rcases hx with rfl | rfl <;> cases ht
    | child _ hx => rcases hx with rfl | rfl <;> cases ht
    | parent _ hx => rcases hx with rfl | rfl <;> cases ht
    | runprogram hx => rcases hx with rfl | rfl <;> cases ht
    | _ => cases ht

/-- What the exits so far say about the structures and the threads. -/
structure Coded (tr : List ProcAction) (s : Procs) : Prop where
  known : s.tproc t = some p ∨ (s.pc t).creates = some p → p < s.brk
  live : s.heap p = some r → p < s.brk
  single : s.tproc t = some p → s.tproc q = some p → t = q
  creator : (s.pc t).creates = some p → (s.pc q).creates = some p → t = q
  apart : (s.pc t).creates = some p → s.tproc q ≠ some p
  spent : Exited tr p → p < s.brk ∧ ∀ t, s.tproc t ≠ some p ∧ (s.pc t).creates ≠ some p
  unique : .exit t p c ∈ tr → .exit q p d ∈ tr → c = d
  status : s.heap p = some r → .exit t p c ∈ tr → r.status = (c &&& 0xff#32).toNat
  ended : s.heap p = some r → r.ended = true → Exited tr p
  past : (s.pc t).past = some p → Exited tr p
  read : s.pc t = .waitDestroy p spl st → ∃ q c, .exit q p c ∈ tr ∧ st = (c &&& 0xff#32).toNat

theorem boot_coded : Coded [] boot := by
  have hpc : ∀ t, (boot.pc t).creates = none ∧ (boot.pc t).past = none ∧
      ∀ p spl st, boot.pc t ≠ .waitDestroy p spl st := by
    intro t
    rcases boot_pc t with h | h
    · rw [h]
      exact ⟨rfl, rfl, nofun⟩
    · rw [h]
      exact ⟨rfl, rfl, nofun⟩
  have hno : ∀ p, ¬ Exited [] p := fun p ⟨_, _, h⟩ => nomatch h
  have htp : ∀ {t p}, boot.tproc t = some p → t = 0 ∧ p = kproc := by
    intro t p h
    change (if t = 0 then some kproc else none) = some p at h
    split at h
    · cases h
      exact ⟨‹_›, rfl⟩
    · cases h
  apply Coded.mk
  · intro t p h
    cases h with
    | inl h =>
      rw [(htp h).2]
      exact Nat.one_pos
    | inr h =>
      rw [(hpc t).1] at h
      cases h
  · intro p r h
    change (if p = kproc then some _ else none) = some r at h
    split at h
    · rename_i hp
      rw [hp]
      exact Nat.one_pos
    · cases h
  · intro t p q ht hq
    rw [(htp ht).1, (htp hq).1]
  · intro t p q ht
    rw [(hpc t).1] at ht
    cases ht
  · intro t p q ht
    rw [(hpc t).1] at ht
    cases ht
  · intro p h
    exact (hno p h).elim
  · intro t p c q d h
    cases h
  · intro p r t c _ h
    cases h
  · intro p r h hend
    change (if p = kproc then some _ else none) = some r at h
    split at h
    · cases h
      cases hend
    · cases h
  · intro t p h
    rw [(hpc t).2.1] at h
    cases h
  · intro t p spl st h
    exact ((hpc t).2.2 p spl st h).elim

theorem move_live {s u : Procs} (h : ProcMove s a u) (hs : ∀ q r, s.heap q = some r → q < s.brk)
    (hp : u.heap p = some r) : p < u.brk := by
  cases h with
  | create _ _ _ _ =>
    rcases update_cases hp with ⟨rfl, -⟩ | hp
    · exact Nat.lt_succ_self _
    · exact Nat.lt_succ_of_lt (hs p r hp)
  | start _ _ hr | fail _ _ _ hr _ | exit _ _ _ hr _ | ended _ _ hr | destroy _ hr _ =>
    rcases update_cases hp with ⟨rfl, -⟩ | hp
    · exact hs p _ hr
    · exact hs p r hp
  | _ => exact hs p r hp

theorem move_brk {s u : Procs} (h : ProcMove s a u) :
    s.brk ≤ u.brk ∧ ∀ t, a = .create t → u.brk = s.brk + 1 := by
  cases h with
  | create _ _ _ _ => exact ⟨Nat.le_succ _, fun _ _ => rfl⟩
  | _ => exact ⟨Nat.le_refl _, nofun⟩

namespace Coded
variable {s u : Procs} {tr : List ProcAction}

theorem exits (h : Coded tr s) (hm : ProcMove s (.exit t p c) u) :
    s.tproc t = some p ∧ u.tproc = Function.update s.tproc t none ∧ ¬ Exited tr p := by
  cases hm with
  | exit hpc htp hk hr hn => exact ⟨htp, rfl, fun he => ((h.spent he).2 t).1 htp⟩

theorem known_step (h : Coded tr s) (hm : ProcMove s a u)
    (ht : u.tproc t = some p ∨ (u.pc t).creates = some p) : p < u.brk := by
  obtain ⟨hle, hnew⟩ := move_brk hm
  cases ht with
  | inl ht =>
    rcases move_tproc hm ht with ht | ⟨q, g, -, hq⟩
    · exact Nat.lt_of_lt_of_le (h.known (.inl ht)) hle
    · exact Nat.lt_of_lt_of_le (h.known (.inr hq)) hle
  | inr ht =>
    rcases move_creates hm ht with ⟨ht, -⟩ | ⟨rfl, rfl⟩
    · exact Nat.lt_of_lt_of_le (h.known (.inr ht)) hle
    · rw [hnew t rfl]
      exact Nat.lt_succ_self _

theorem apart_step (h : Coded tr s) (hm : ProcMove s a u) (ht : (u.pc t).creates = some p) :
    u.tproc q ≠ some p := by
  intro hq
  rcases move_creates hm ht with ⟨ht, hstart⟩ | ⟨rfl, rfl⟩
  · rcases move_tproc hm hq with hq | ⟨q', g, rfl, hq'⟩
    · exact h.apart ht hq
    · cases h.creator ht hq'
      exact hstart q g rfl
  · rcases move_tproc hm hq with hq | ⟨q', g, he, -⟩
    · exact absurd (h.known (.inl hq)) (Nat.lt_irrefl _)
    · cases he

theorem single_step (h : Coded tr s) (hm : ProcMove s a u) (ht : u.tproc t = some p)
    (hq : u.tproc q = some p) : t = q := by
  rcases move_tproc hm ht with ht | ⟨t', g, rfl, ht'⟩
  · rcases move_tproc hm hq with hq | ⟨q', g, rfl, hq'⟩
    · exact h.single ht hq
    · exact (h.apart hq' ht).elim
  · rcases move_tproc hm hq with hq | ⟨q', g', he, -⟩
    · exact (h.apart ht' hq).elim
    · cases he
      rfl

theorem creator_step (h : Coded tr s) (hm : ProcMove s a u) (ht : (u.pc t).creates = some p)
    (hq : (u.pc q).creates = some p) : t = q := by
  rcases move_creates hm ht with ⟨ht, -⟩ | ⟨rfl, rfl⟩
  · rcases move_creates hm hq with ⟨hq, -⟩ | ⟨rfl, rfl⟩
    · exact h.creator ht hq
    · exact absurd (h.known (.inr ht)) (Nat.lt_irrefl _)
  · rcases move_creates hm hq with ⟨hq, -⟩ | ⟨he, -⟩
    · exact absurd (h.known (.inr hq)) (Nat.lt_irrefl _)
    · cases he
      rfl

theorem spent_step (h : Coded tr s) (hm : ProcMove s a u) (he : Exited (tr ++ [a]) p) :
    p < u.brk ∧ ∀ t, u.tproc t ≠ some p ∧ (u.pc t).creates ≠ some p := by
  obtain ⟨hle, -⟩ := move_brk hm
  obtain ⟨t₀, c, hmem⟩ := he
  rcases List.mem_append.1 hmem with hmem | hmem
  · obtain ⟨hlt, hno⟩ := h.spent ⟨t₀, c, hmem⟩
    refine ⟨Nat.lt_of_lt_of_le hlt hle, fun t => ⟨fun ht => ?_, fun ht => ?_⟩⟩
    · rcases move_tproc hm ht with ht | ⟨q, g, -, hq⟩
      · exact (hno t).1 ht
      · exact (hno q).2 hq
    · rcases move_creates hm ht with ⟨ht, -⟩ | ⟨-, rfl⟩
      · exact (hno t).2 ht
      · exact Nat.lt_irrefl _ hlt
  · cases List.mem_singleton.1 hmem
    obtain ⟨htp, hu, -⟩ := h.exits hm
    refine ⟨Nat.lt_of_lt_of_le (h.known (.inl htp)) hle, fun t => ⟨fun ht => ?_, fun ht => ?_⟩⟩
    · rw [hu] at ht
      rcases update_cases ht with ⟨-, ht⟩ | ht'
      · cases ht
      · cases h.single ht' htp
        cases (Function.update_self ..).symm.trans ht
    · rcases move_creates hm ht with ⟨ht, -⟩ | ⟨he, -⟩
      · exact h.apart ht htp
      · cases he

theorem unique_step (h : Coded tr s) (hm : ProcMove s a u) (ht : .exit t p c ∈ tr ++ [a])
    (hq : .exit q p d ∈ tr ++ [a]) : c = d := by
  rcases List.mem_append.1 ht with hold | ht
  · rcases List.mem_append.1 hq with hq | hq
    · exact h.unique hold hq
    · cases List.mem_singleton.1 hq
      exact ((h.exits hm).2.2 ⟨t, c, hold⟩).elim
  · cases List.mem_singleton.1 ht
    rcases List.mem_append.1 hq with hq | hq
    · exact ((h.exits hm).2.2 ⟨q, d, hq⟩).elim
    · cases List.mem_singleton.1 hq
      rfl

theorem status_step (h : Coded tr s) (hm : ProcMove s a u) (hp : u.heap p = some r)
    (ht : .exit t p c ∈ tr ++ [a]) : r.status = (c &&& 0xff#32).toNat := by
  rcases List.mem_append.1 ht with hold | ht
  · rcases move_heap hm hp with ⟨r₀, hr₀, hst, -⟩ | ⟨q, d, rfl, -⟩ | ⟨rfl, -⟩
    · exact hst.trans (h.status hr₀ hold)
    · exact ((h.exits hm).2.2 ⟨t, c, hold⟩).elim
    · exact absurd (h.spent ⟨t, c, hold⟩).1 (Nat.lt_irrefl _)
  · cases List.mem_singleton.1 ht
    exact move_exit hm hp

theorem step (h : Coded tr s) (hm : ProcMove s a u) : Coded (tr ++ [a]) u := by
  have hexit : ∀ {t p c}, a = .exit t p c → Exited (tr ++ [a]) p := by
    intro t p c ha
    exact ⟨t, c, List.mem_append_right _ (List.mem_singleton.2 ha.symm)⟩
  refine ⟨h.known_step hm, move_live hm fun q r => h.live, h.single_step hm, h.creator_step hm,
    h.apart_step hm, h.spent_step hm, h.unique_step hm, h.status_step hm, ?_, ?_, ?_⟩
  · intro p r hp hend
    rcases move_heap hm hp with ⟨r₀, hr₀, -, hend₀⟩ | ⟨t, c, ha, -⟩ | ⟨-, hno⟩
    · rcases hend₀ hend with hend₀ | ⟨t, ht⟩
      · exact (h.ended hr₀ hend₀).append _
      · exact (h.past (t := t) (by rw [ht]; rfl)).append _
    · exact hexit ha
    · rw [hno] at hend
      cases hend
  · intro t p ht
    rcases move_past hm ht with ht | ⟨c, ha⟩ | ⟨r, hr, hend⟩
    · exact (h.past ht).append _
    · exact hexit ha
    · exact (h.ended hr hend).append _
  · intro t p spl st ht
    rcases move_waitDestroy hm ht with ht | ⟨r, hr, hst, -, hpc⟩
    · obtain ⟨q, c, hmem, hst⟩ := h.read ht
      exact ⟨q, c, List.mem_append_left _ hmem, hst⟩
    · obtain ⟨q, c, hmem⟩ := h.past (t := t) (by rw [hpc]; rfl)
      exact ⟨q, c, List.mem_append_left _ hmem, hst.symm.trans (h.status hr hmem)⟩

end Coded

end Procs

theorem loadInt_storeInt (hp : p.toNat % 4 = 0) (m : Nat → UInt8) (w ret : BitVec 32) :
    loadInt (storeInt m p w ret).mem p = w := by
  have hlt := p.isLt
  have hindex : ∀ i < 4, userIndex p i = p.toNat + i := by
    intro i hi
    rw [userIndex_eq]
    omega
  have hword : wordAt (storeInt m p w ret).mem p.toNat = .ofNat w.toNat := by
    apply wordAt_of
    intro o ho
    unfold storeInt readAt
    rw [if_neg (not_not.2 hp)]
    simp only [List.range, List.range.loop, List.foldl_cons, List.foldl_nil,
      hindex 0 (by decide), hindex 1 (by decide), hindex 2 (by decide), hindex 3 (by decide)]
    match o, ho with
    | 0, _ => simp [Function.update]
    | 1, _ => simp [Function.update]
    | 2, _ => simp [Function.update]
    | 3, _ => simp [Function.update]
  unfold loadInt
  rw [hword]
  apply BitVec.eq_of_toNat_eq
  simp

theorem low_toNat_lt (c : BitVec 32) : (c &&& 0xff#32).toNat < 256 := by
  rw [BitVec.toNat_and]
  exact Nat.lt_succ_of_le Nat.and_le_right

theorem wval_toNat {w : BitVec 32} (h : w.toNat < 2147483648) : (wval w).toNat = w.toNat / 4 := by
  have hmsb : w.msb = false := by
    rw [BitVec.msb_eq_false_iff_two_mul_lt]
    omega
  rw [wval, BitVec.sshiftRight_eq_of_msb_false hmsb, BitVec.toNat_ushiftRight, Nat.shiftRight_eq_div_pow]

/-- The low byte of a code, which is what `sys__exit` keeps, tells the code only if it is 0. -/
theorem tellsExit_low_iff (c : BitVec 32) : TellsExit (c &&& 0xff#32) c ↔ c &&& 0xff#32 = 0#32 := by
  have hlt := low_toNat_lt c
  unfold TellsExit
  generalize c &&& 0xff#32 = w at hlt
  apply Iff.intro
  · intro h
    have hval : (wval w).toNat = w.toNat := congrArg BitVec.toNat h.2
    rw [wval_toNat (by omega)] at hval
    apply BitVec.eq_of_toNat_eq
    rw [BitVec.toNat_zero]
    omega
  · intro h
    subst h
    decide

/-- The encoding that kern/wait.h gives the kernel would tell every code. -/
theorem tellsExit_mkwaitExit (c : BitVec 32) : TellsExit (mkwaitExit (c &&& 0xff#32)) c := by
  have hlt := low_toNat_lt c
  unfold TellsExit
  generalize c &&& 0xff#32 = w at hlt
  have hmk : (mkwaitExit w).toNat = w.toNat * 4 := by
    rw [mkwaitExit, BitVec.or_zero, BitVec.toNat_shiftLeft, Nat.shiftLeft_eq]
    omega
  apply And.intro
  · rw [wifexited, beq_iff_eq]
    apply BitVec.eq_of_toNat_eq
    rw [wwhat, BitVec.toNat_and, hmk, show (3#32).toNat = 2 ^ 2 - 1 from rfl,
      Nat.and_two_pow_sub_one_eq_mod, BitVec.toNat_zero]
    omega
  · apply BitVec.eq_of_toNat_eq
    rw [wexitstatus, wval_toNat (by omega), hmk]
    omega

/-- In every run, what `sys_waitpid` stores for a process tells the code of its `_exit` exactly
if the low byte of that code is 0: `sys__exit` leaves out the encoding of kern/wait.h. -/
theorem exit_code_round_trip (h : Run (ProcStepWhen fun _ _ => True) Procs.boot tr s)
    (hen : s.Enabled (.destroy t p)) (hex : s.exec (.destroy t p) = .ok u) :
    Exited tr p ∧ ∃ pid status, u.result t = some (pid, status) ∧
      ∀ q c, .exit q p c ∈ tr → ∀ m statusp, statusp.toNat % 4 = 0 →
        (TellsExit (loadInt (storeInt m statusp (.ofNat 32 status) (.ofNat 32 pid)).mem statusp) c ↔
          c &&& 0xff#32 = 0#32) := by
  have hc : Procs.Coded tr s := h.invariant_trace Procs.boot_coded
    fun tr t a u ht hs => ht.step (Procs.move_of_exec hs.2.1 hs.2.2)
  cases Procs.move_of_exec hen hex with
  | @destroy t p spl status r hpc hr hn =>
    obtain ⟨q₀, c₀, hmem₀, hst⟩ := hc.read hpc
    refine ⟨⟨q₀, c₀, hmem₀⟩, r.pid, status, Function.update_self .., ?_⟩
    intro q c hmem m statusp hal
    rw [loadInt_storeInt hal, hst, hc.unique hmem₀ hmem, BitVec.ofNat_toNat, BitVec.setWidth_eq]
    exact tellsExit_low_iff c

/-- The menu starts a program, which exits with the code `c`, and waits for it. -/
theorem menu_exit_run (c : BitVec 32) : ∃ tr s u, Run (ProcStepWhen fun _ _ => True) Procs.boot tr s ∧
    s.Enabled (.destroy 0 1) ∧ s.exec (.destroy 0 1) = .ok u ∧
    u.result 0 = some (2, (c &&& 0xff#32).toNat) ∧ .exit 1 1 c ∈ tr := by
  have h0 : Run (ProcStepWhen fun _ _ => True) Procs.boot [] Procs.boot := .nil _
  have h1 := h0.proc (.create 0) trivial ⟨rfl, rfl⟩ rfl
  have h2 := h1.proc (.start 0 1 ⟨true, true, some []⟩) trivial ⟨.inr ⟨1, rfl⟩, rfl⟩ rfl
  have h3 := h2.proc (.runprogram 1) trivial ⟨_, rfl⟩ rfl
  have h4 := h3.proc (.exit 1 1 c) trivial ⟨rfl, rfl, by decide⟩ rfl
  have h5 := h4.proc (.synch (.check 1)) trivial ⟨rfl, .inl ⟨_, rfl⟩⟩ rfl
  have h6 := h5.proc (.synch (.acquire 1 1)) trivial ⟨rfl, .inl rfl, rfl⟩ rfl
  have h7 := h6.proc (.resume 1) trivial ⟨rfl, rfl⟩ rfl
  have h8 := h7.proc (.synch (.check 1)) trivial ⟨rfl, .inl ⟨_, rfl⟩⟩ rfl
  have h9 := h8.proc (.synch (.signal 1 1)) trivial ⟨rfl, ⟨_, rfl⟩, rfl⟩ rfl
  have h10 := h9.proc (.resume 1) trivial ⟨rfl, rfl⟩ rfl
  have h11 := h10.proc (.synch (.check 1)) trivial ⟨rfl, .inl ⟨_, rfl⟩⟩ rfl
  have h12 := h11.proc (.synch (.release 1 1)) trivial ⟨rfl, .inl rfl⟩ rfl
  have h13 := h12.proc (.resume 1) trivial ⟨rfl, rfl⟩ rfl
  have h14 := h13.proc (.waitpid 0 2#32) trivial (.inr ⟨1, rfl, by rintro r ⟨⟩; rfl⟩) rfl
  have h15 := h14.proc (.synch (.check 0)) trivial ⟨rfl, .inl ⟨_, rfl⟩⟩ rfl
  have h16 := h15.proc (.synch (.acquire 0 1)) trivial ⟨rfl, .inl rfl, rfl⟩ rfl
  have h17 := h16.proc (.resume 0) trivial ⟨rfl, rfl⟩ rfl
  have h18 := h17.proc (.synch (.check 0)) trivial ⟨rfl, .inl ⟨_, rfl⟩⟩ rfl
  have h19 := h18.proc (.synch (.release 0 1)) trivial ⟨rfl, .inl rfl⟩ rfl
  have h20 := h19.proc (.resume 0) trivial ⟨rfl, rfl⟩ rfl
  refine ⟨_, _, _, h20, ⟨0, _, rfl⟩, rfl, rfl, ?_⟩
  simp

/-- The code 256 is told as 0. -/
theorem exit_code_round_trip_zero : ∃ tr s u pid status,
    Run (ProcStepWhen fun _ _ => True) Procs.boot tr s ∧ s.exec (.destroy 0 1) = .ok u ∧
      u.result 0 = some (pid, status) ∧ .exit 1 1 256#32 ∈ tr ∧
      TellsExit (loadInt (storeInt (fun _ => 0) 0x1000#32 (.ofNat 32 status) (.ofNat 32 pid)).mem 0x1000#32)
        256#32 := by
  obtain ⟨tr, s, u, hrun, hen, hex, -, hmem⟩ := menu_exit_run 256#32
  obtain ⟨-, pid, status, hres, htells⟩ := exit_code_round_trip hrun hen hex
  exact ⟨tr, s, u, pid, status, hrun, hex, hres, hmem, (htells 1 _ hmem _ _ rfl).2 rfl⟩

/-- A program exits with the code 1, and its parent reads that it was killed by a signal. -/
theorem exit_code_lost : ∃ tr s u pid status,
    Run (ProcStepWhen fun _ _ => True) Procs.boot tr s ∧ s.exec (.destroy 0 1) = .ok u ∧
      u.result 0 = some (pid, status) ∧ .exit 1 1 1#32 ∈ tr ∧
      ¬ TellsExit (loadInt (storeInt (fun _ => 0) 0x1000#32 (.ofNat 32 status) (.ofNat 32 pid)).mem 0x1000#32)
        1#32 := by
  obtain ⟨tr, s, u, hrun, hen, hex, hres, hmem⟩ := menu_exit_run 1#32
  refine ⟨tr, s, u, 2, _, hrun, hex, hres, hmem, ?_⟩
  rw [loadInt_storeInt rfl]
  exact fun h => Bool.false_ne_true h.1

end Clape
