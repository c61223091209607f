import Clape.ProcessMoves

namespace Clape
set_option autoImplicit true

/-- The system calls that use pointers of the program themselves, with the registers they come
in. -/
inductive PtrCall where
  | write (fd buf size : BitVec 32)
  | read (fd buf size : BitVec 32)
  | waitpid (pid statusp : BitVec 32)
  deriving DecidableEq, Repr

/-- What the calls find: the characters of `getch`, the process table, and the status with which
`proc_wait` returns for a process (`none` when it does not return). -/
structure CallEnv where
  input : Nat → UInt8
  procs : Procs
  procWait : Nat → Option (BitVec 32)

/-- What a call does with the pointer: the addresses that it uses, the memory that it leaves and
its return value. There is no value when the kernel stops. -/
structure CallEnd where
  used : List Nat
  mem : Nat → UInt8
  ret : Option (BitVec 32)

/-- `p[i]` for a pointer of the program. -/
def userIndex (p : BitVec 32) (i : Nat) : Nat := (p + BitVec.ofNat 32 i).toNat

def sysWrite (m : Nat → UInt8) (fd buf size : BitVec 32) : CallEnd :=
  if fd ≠ 1 ∧ fd ≠ 2 then ⟨[], m, some (-1)⟩
  else ⟨(List.range size.toInt.toNat).map (userIndex buf), m, some size⟩

/-- The loop of `sys_read` from index `i` on. It ends early at a character that is negative as a
`char`. -/
def readChars (input : Nat → UInt8) (buf size : BitVec 32) : (n i : Nat) → (Nat → UInt8) → CallEnd
  | 0, _, m => ⟨[], m, some size⟩
  | n + 1, i, m =>
    let m := Function.update m (userIndex buf i) (input i)
    if 128 ≤ input i then ⟨[userIndex buf i], m, some (.ofNat 32 i)⟩
    else
      let r := readChars input buf size n (i + 1) m
      { r with used := userIndex buf i :: r.used }

def sysRead (input : Nat → UInt8) (m : Nat → UInt8) (fd buf size : BitVec 32) : CallEnd :=
  if fd ≠ 0 then ⟨[], m, some (-1)⟩
  else readChars input buf size size.toInt.toNat 0 m

/-- The store of an `int`; one that is not aligned is an exception that the kernel does not
survive. -/
def storeInt (m : Nat → UInt8) (p value ret : BitVec 32) : CallEnd :=
  if p.toNat % 4 ≠ 0 then ⟨[], m, none⟩
  else ⟨(List.range 4).map (userIndex p), (List.range 4).foldl (fun m i =>
    Function.update m (userIndex p i) (wordBytes (.ofNat value.toNat) i)) m, some ret⟩

/-- `sys_waitpid`, with the store through the pointer at its end. -/
def sysWaitpidStatus (env : CallEnv) (m : Nat → UInt8) (pid statusp : BitVec 32) : CallEnd :=
  match env.procs.procSearchPid pid with
  | .error _ => ⟨[], m, none⟩
  | .ok p =>
    match env.procWait p with
    | none => ⟨[], m, none⟩
    | some s => if statusp = 0 then ⟨[], m, some pid⟩ else storeInt m statusp s pid

def PtrCall.exec (env : CallEnv) (m : Nat → UInt8) : PtrCall → CallEnd
  | .write fd buf size => sysWrite m fd buf size
  | .read fd buf size => sysRead env.input m fd buf size
  | .waitpid pid statusp => sysWaitpidStatus env m pid statusp

/-- `syscall` reports an error for a negative return value. -/
def CallEnd.IsError (r : CallEnd) : Prop := ∃ v, r.ret = some v ∧ v.toInt < 0

/-- The pointer, or the pointer and an index, lies in the kernel segments. -/
def PtrCall.Reaches : PtrCall → Prop
  | .write _ buf size | .read _ buf size =>
    userStack ≤ buf.toNat ∨ ∃ i < size.toNat, userStack ≤ userIndex buf i
  | .waitpid _ statusp => ∃ i < 4, userStack ≤ userIndex statusp i

/-- The call uses addresses of user space only; with a pointer into the kernel segments it reports
an error and leaves the memory of the kernel alone. -/
def PtrCall.Confined (env : CallEnv) (m : Nat → UInt8) (c : PtrCall) : Prop :=
  (∀ a ∈ (c.exec env m).used, a < userStack) ∧
    (c.Reaches → (c.exec env m).IsError ∧ ∀ a, userStack ≤ a → (c.exec env m).mem a = m a)

/-- The buffer lies in user space. -/
def InUser (buf : BitVec 32) (size : Nat) : Prop :=
  buf.toNat < userStack ∧ buf.toNat + size ≤ userStack

/-- The calls that cannot reach the kernel: those with another file descriptor, those with a size
that is negative as an `int`, and those whose buffer lies in user space. -/
def PtrCall.Harmless : PtrCall → Prop
  | .write fd buf size => (fd ≠ 1 ∧ fd ≠ 2) ∨ 2147483648 ≤ size.toNat ∨ InUser buf size.toNat
  | .read fd buf size => fd ≠ 0 ∨ 2147483648 ≤ size.toNat ∨ InUser buf size.toNat
  | .waitpid _ statusp => InUser statusp 4

theorem userIndex_eq (p : BitVec 32) (i : Nat) : userIndex p i = (p.toNat + i) % 4294967296 := by
  unfold userIndex
  rw [BitVec.toNat_add, BitVec.toNat_ofNat, Nat.add_mod_mod]

theorem InUser.index_lt (h : InUser p n) (hi : i < n) : userIndex p i < userStack := by
  rw [userIndex_eq]
  unfold InUser userStack at *
  omega

theorem not_inUser_iff :
    ¬ InUser p n ↔ userStack ≤ p.toNat ∨ ∃ i < n, userStack ≤ userIndex p i := by
  constructor
  · intro h
    by_cases hp : userStack ≤ p.toNat
    · exact .inl hp
    · right
      unfold InUser at h
      have hlt := p.isLt
      refine ⟨userStack - p.toNat, ?_, ?_⟩
      · omega
      · rw [userIndex_eq]
        unfold userStack at *
        omega
  · intro h hin
    cases h with
    | inl h => exact Nat.not_lt.2 h hin.1
    | inr h =>
      obtain ⟨i, hi, hle⟩ := h
      exact Nat.not_lt.2 hle (hin.index_lt hi)

theorem toInt_small {size : BitVec 32} (h : size.toNat < 2147483648) : size.toInt = size.toNat := by
  rw [BitVec.toInt_eq_toNat_cond, if_pos (by omega)]

theorem toInt_large {size : BitVec 32} (h : 2147483648 ≤ size.toNat) : size.toInt < 0 := by
  have := size.isLt
  rw [BitVec.toInt_eq_toNat_cond, if_neg (by omega)]
  omega

/-- The loop uses indices below the size, leaves the other addresses alone and returns no error. -/
theorem readChars_spec (input : Nat → UInt8) (buf size : BitVec 32) (hs : size.toNat < 2147483648)
    (n i : Nat) (m : Nat → UInt8) (hi : i + n = size.toNat) :
    (∀ a ∈ (readChars input buf size n i m).used, ∃ j, j < size.toNat ∧ a = userIndex buf j) ∧
      ¬ (readChars input buf size n i m).IsError := by
  induction n generalizing i m with
  | zero =>
    refine ⟨nofun, ?_⟩
    rintro ⟨v, hv, hneg⟩
    cases hv
    rw [toInt_small hs] at hneg
    omega
  | succ n ih =>
    rw [readChars]
    dsimp only
    split
    · constructor
      · intro a ha
        rw [List.mem_singleton] at ha
        exact ⟨i, by omega, ha⟩
      · rintro ⟨v, hv, hneg⟩
        cases hv
        rw [toInt_small] at hneg
        · omega
        · rw [BitVec.toNat_ofNat]
          omega
    · obtain ⟨h1, h2⟩ := ih (i + 1) (Function.update m (userIndex buf i) (input i)) (by omega)
      constructor
      · intro a ha
        cases List.mem_cons.1 ha with
        | inl ha => exact ⟨i, by omega, ha⟩
        | inr ha => exact h1 a ha
      · exact h2

theorem PtrCall.confined_of_error {c : PtrCall} (h : c.exec env m = ⟨[], m, some v⟩) (hv : v.toInt < 0) :
    c.Confined env m := by
  unfold Confined
  rw [h]
  exact ⟨nofun, fun _ => ⟨⟨v, rfl, hv⟩, fun _ _ => rfl⟩⟩

theorem PtrCall.confined_iff_not_reaches {c : PtrCall} (herr : ¬ (c.exec env m).IsError)
    (hused : ¬ c.Reaches → ∀ a ∈ (c.exec env m).used, a < userStack) :
    c.Confined env m ↔ ¬ c.Reaches := by
  constructor
  · intro h hr
    exact herr (h.2 hr).1
  · intro h
    exact ⟨hused h, fun hr => absurd hr h⟩

theorem sysWrite_confined {env : CallEnv} (fd buf size : BitVec 32) :
    (PtrCall.write fd buf size).Confined env m ↔ (PtrCall.write fd buf size).Harmless := by
  unfold PtrCall.Harmless
  dsimp only
  by_cases hfd : fd ≠ 1 ∧ fd ≠ 2
  · have he : (PtrCall.write fd buf size).exec env m = ⟨[], m, some (-1)⟩ := if_pos hfd
    exact iff_of_true (PtrCall.confined_of_error he (by decide)) (.inl hfd)
  · have he : (PtrCall.write fd buf size).exec env m =
        ⟨(List.range size.toInt.toNat).map (userIndex buf), m, some size⟩ := if_neg hfd
    rw [or_iff_right hfd]
    by_cases hlarge : 2147483648 ≤ size.toNat
    · have hneg := toInt_large hlarge
      refine iff_of_true (PtrCall.confined_of_error ?_ hneg) (.inl hlarge)
      rw [he, Int.toNat_of_nonpos (Int.le_of_lt hneg)]
      rfl
    · have hsize := toInt_small (Nat.not_le.1 hlarge)
      rw [or_iff_right hlarge, PtrCall.confined_iff_not_reaches]
      · exact not_iff_comm.1 not_inUser_iff
      · rw [he]
        rintro ⟨v, hv, hneg⟩
        cases hv
        omega
      · intro hno a ha
        rw [he, hsize, Int.toNat_natCast] at ha
        obtain ⟨i, hi, rfl⟩ := List.mem_map.1 ha
        rw [List.mem_range] at hi
        by_contra hle
        exact hno (.inr ⟨i, hi, Nat.not_lt.1 hle⟩)

theorem sysRead_confined {env : CallEnv} (fd buf size : BitVec 32) :
    (PtrCall.read fd buf size).Confined env m ↔ (PtrCall.read fd buf size).Harmless := by
  unfold PtrCall.Harmless
  dsimp only
  by_cases hfd : fd ≠ 0
  · have he : (PtrCall.read fd buf size).exec env m = ⟨[], m, some (-1)⟩ := if_pos hfd
    exact iff_of_true (PtrCall.confined_of_error he (by decide)) (.inl hfd)
  · have he : (PtrCall.read fd buf size).exec env m =
        readChars env.input buf size size.toInt.toNat 0 m := if_neg hfd
    rw [or_iff_right hfd]
    by_cases hlarge : 2147483648 ≤ size.toNat
    · have hneg := toInt_large hlarge
      refine iff_of_true (PtrCall.confined_of_error ?_ hneg) (.inl hlarge)
      rw [he, Int.toNat_of_nonpos (Int.le_of_lt hneg)]
      rfl
    · have hlt := Nat.not_le.1 hlarge
      obtain ⟨hused, herr⟩ := readChars_spec env.input buf size hlt size.toNat 0 m (Nat.zero_add _)
      rw [toInt_small hlt, Int.toNat_natCast] at he
      rw [or_iff_right hlarge, PtrCall.confined_iff_not_reaches]
      · exact not_iff_comm.1 not_inUser_iff
      · rw [he]
        exact herr
      · intro hno a ha
        rw [he] at ha
        obtain ⟨i, hi, rfl⟩ := hused a ha
        by_contra hle
        exact hno (.inr ⟨i, hi, Nat.not_lt.1 hle⟩)

theorem procSearchPid_pos {s : Procs} (h : s.procSearchPid pid = .ok p) : 0 < pid.toInt := by
  obtain ⟨u, hk, _⟩ := bind_ok.1 h
  have hb := Procs.kassert_ok.1 hk
  rw [Bool.and_eq_true, decide_eq_true_iff] at hb
  exact hb.1

/-- `sys_waitpid` reports no error, and uses the bytes at the pointer only. -/
theorem sysWaitpid_spec (env : CallEnv) (m : Nat → UInt8) (pid statusp : BitVec 32) :
    ¬ ((PtrCall.waitpid pid statusp).exec env m).IsError ∧
      ∀ a ∈ ((PtrCall.waitpid pid statusp).exec env m).used, ∃ i < 4, a = userIndex statusp i := by
  unfold PtrCall.exec sysWaitpidStatus
  dsimp only
  split
  · exact ⟨fun ⟨v, hv, _⟩ => (nomatch hv), nofun⟩
  · rename_i p hp
    have hpos := procSearchPid_pos hp
    split
    · exact ⟨fun ⟨v, hv, _⟩ => (nomatch hv), nofun⟩
    · split
      · refine ⟨?_, nofun⟩
        rintro ⟨v, hv, hneg⟩
        cases hv
        omega
      · unfold storeInt
        split
        · exact ⟨fun ⟨v, hv, _⟩ => (nomatch hv), nofun⟩
        · constructor
          · rintro ⟨v, hv, hneg⟩
            cases hv
            omega
          · intro a ha
            obtain ⟨i, hi, rfl⟩ := List.mem_map.1 ha
            exact ⟨i, List.mem_range.1 hi, rfl⟩

theorem sysWaitpid_confined {env : CallEnv} (pid statusp : BitVec 32) :
    (PtrCall.waitpid pid statusp).Confined env m ↔ (PtrCall.waitpid pid statusp).Harmless := by
  obtain ⟨herr, hused⟩ := sysWaitpid_spec env m pid statusp
  have hreach : (PtrCall.waitpid pid statusp).Reaches ↔ ¬ InUser statusp 4 := by
    rw [not_inUser_iff]
    refine ⟨.inr, fun h => ?_⟩
    cases h with
    | inl h =>
      refine ⟨0, by decide, ?_⟩
      rw [userIndex_eq, Nat.add_zero, Nat.mod_eq_of_lt statusp.isLt]
      exact h
    | inr h => exact h
  rw [PtrCall.confined_iff_not_reaches herr, hreach, not_not]
  · exact Iff.rfl
  · intro hno a ha
    obtain ⟨i, hi, rfl⟩ := hused a ha
    by_contra hle
    exact hno ⟨i, hi, Nat.not_lt.1 hle⟩

/-- The three calls stay in the memory of the program exactly when they are harmless: nothing in
them looks at the pointer. -/
theorem syscalls_confined (env : CallEnv) (m : Nat → UInt8) (c : PtrCall) :
    c.Confined env m ↔ c.Harmless := by
  cases c with
  | write fd buf size => exact sysWrite_confined fd buf size
  | read fd buf size => exact sysRead_confined fd buf size
  | waitpid pid statusp => exact sysWaitpid_confined pid statusp

/-- A read of one character to the start of the kernel segments. -/
theorem sysRead_overwrites_kernel :
    ((PtrCall.read 0 0x80000000 1).exec ⟨fun _ => 65, .boot, fun _ => none⟩ fun _ => 0).mem 0x80000000 = 65 ∧
      ¬ (PtrCall.read 0 0x80000000 1).Confined ⟨fun _ => 65, .boot, fun _ => none⟩ fun _ => 0 := by
  refine ⟨rfl, ?_⟩
  rw [sysRead_confined]
  unfold PtrCall.Harmless InUser
  decide

end Clape
