import Clape.HashTable

namespace Clape
set_option autoImplicit true

theorem toInt_ofNat_low (h : n < 2147483648) : (BitVec.ofNat 32 n).toInt = n := by
  rw [BitVec.toInt_eq_toNat_cond, BitVec.toNat_ofNat]
  split <;> omega

theorem toInt_ofNat_high (h : 2147483648 ≤ n) (h' : n < 4294967296) :
    (BitVec.ofNat 32 n).toInt = n - 4294967296 := by
  rw [BitVec.toInt_eq_toNat_cond, BitVec.toNat_ofNat]
  split <;> omega

theorem srem_high (hv : v % 4096 = 0) (h : 2147483648 ≤ v) (h' : v < 4294967296) :
    v % 24 = 16 ∧ (BitVec.ofNat 32 v).srem 24#32 = 0#32 ∨
    v % 24 = 8 ∧ (BitVec.ofNat 32 v).srem 24#32 = BitVec.ofInt 32 (-8) ∨
    v % 24 = 0 ∧ (BitVec.ofNat 32 v).srem 24#32 = BitVec.ofInt 32 (-16) := by
  have hrem : ((BitVec.ofNat 32 v).srem 24#32).toInt = -(((4294967296 - v) % 24 : Nat) : Int) := by
    rw [BitVec.toInt_srem, toInt_ofNat_high h h']
    have hneg : (v : Int) - 4294967296 = -((4294967296 - v : Nat) : Int) := by omega
    rw [hneg, Int.neg_tmod]
    congr 1
  have hcases : v % 24 = 16 ∧ (4294967296 - v) % 24 = 0 ∨ v % 24 = 8 ∧ (4294967296 - v) % 24 = 8 ∨
      v % 24 = 0 ∧ (4294967296 - v) % 24 = 16 := by omega
  rcases hcases with ⟨hm, hr⟩ | ⟨hm, hr⟩ | ⟨hm, hr⟩
  · refine .inl ⟨hm, BitVec.eq_of_toInt_eq ?_⟩
    rw [hrem, hr]
    decide
  · refine .inr (.inl ⟨hm, BitVec.eq_of_toInt_eq ?_⟩)
    rw [hrem, hr]
    decide
  · refine .inr (.inr ⟨hm, BitVec.eq_of_toInt_eq ?_⟩)
    rw [hrem, hr]
    decide

theorem srem_pid (h : p < 2147483648) : (BitVec.ofNat 32 p).srem 8#32 = BitVec.ofNat 32 (p % 8) := by
  apply BitVec.eq_of_toInt_eq
  have hlt : p % 8 < 2147483648 := by omega
  rw [BitVec.toInt_srem, toInt_ofNat_low h, toInt_ofNat_low hlt]
  exact (Int.ofNat_tmod ..).symm

/-- The number that is reduced to the size of the table. -/
def hashWord (v p : Nat) : BitVec 32 :=
  ((BitVec.ofNat 32 v).srem 24#32 + (BitVec.ofNat 32 p).srem 8#32 <<< 8) ^^^ 1234567891#32

/-- For a kernel address it is negative unless the pid or the address is of the right kind, and odd
then. -/
theorem hashWord_high (hv : v % 4096 = 0) (h : 2147483648 ≤ v) (h' : v < 4294967296) (hp : p < 2147483648) :
    (p % 8 ≠ 0 ∨ v % 24 = 16) ∧ 0 ≤ (hashWord v p).toInt ∨
    ¬ (p % 8 ≠ 0 ∨ v % 24 = 16) ∧ (hashWord v p).toInt < 0 ∧ (hashWord v p).toInt % 2 = 1 := by
  unfold hashWord
  rw [srem_pid hp]
  have hlt : p % 8 < 8 := Nat.mod_lt _ (by decide)
  generalize p % 8 = k at hlt
  rcases srem_high hv h h' with ⟨hm, hr⟩ | ⟨hm, hr⟩ | ⟨hm, hr⟩
  · rw [hr, hm]
    revert k
    decide
  · rw [hr, hm]
    revert k
    decide
  · rw [hr, hm]
    revert k
    decide

theorem getHashFunc_eq (size v p : Nat) :
    getHashFunc size v p = (hashWord v p).toInt.tmod (BitVec.ofNat 32 size).toInt := BitVec.toInt_srem ..

theorem tmod_range {x : Int} {size : Nat} (hx : 0 ≤ x) (hs : 0 < size) : 0 ≤ x.tmod size ∧ x.tmod size < size := by
  rw [Int.tmod_eq_emod_of_nonneg hx]
  exact ⟨Int.emod_nonneg _ (by omega), Int.emod_lt_of_pos _ (by omega)⟩

theorem tmod_neg {x : Int} (hx : x < 0) (hodd : x % 2 = 1) (n : Nat) : x.tmod ((2 * n : Nat) : Int) < 0 := by
  have hle : 0 ≤ (-x).tmod ((2 * n : Nat) : Int) := Int.tmod_nonneg _ (by omega)
  rw [Int.neg_tmod] at hle
  have hne : x.tmod ((2 * n : Nat) : Int) ≠ 0 := by
    intro h0
    obtain ⟨k, hk⟩ := Int.dvd_of_tmod_eq_zero h0
    rw [Int.natCast_mul, Int.mul_assoc] at hk
    generalize (n : Int) * k = m at hk
    omega
  omega

/-- The index of a page of the running process is in the table, but for a page of the kernel whose
remainder is negative, in a process whose pid is a multiple of eight. -/
theorem getHashFunc_in_table (hv : v % 4096 = 0) (hr : v < 0x80000000 ∨ 0xc0000000 ≤ v ∧ v < 4294967296)
    (hp : 1 ≤ p ∧ p ≤ 100) (hn : 0 < n) (hs : 2 * n < 2147483648) :
    0 ≤ getHashFunc (2 * n) v p ∧ getHashFunc (2 * n) v p < (2 * n : Nat) ↔
      v < 0x80000000 ∨ p % 8 ≠ 0 ∨ v % 24 = 16 := by
  have hpos : 0 < 2 * n := by omega
  rcases hr with hlow | ⟨hhigh, hlt⟩
  · exact iff_of_true (getHashFunc_range hlow (by omega) hpos hs) (.inl hlow)
  · rw [getHashFunc_eq, toInt_ofNat_low hs]
    rw [or_iff_right (a := v < 0x80000000) (by omega)]
    rcases hashWord_high hv (by omega) hlt (show p < 2147483648 by omega) with ⟨hc, hx⟩ | ⟨hc, hx, hodd⟩
    · exact iff_of_true (tmod_range hx hpos) hc
    · refine iff_of_false ?_ hc
      have hneg := tmod_neg hx hodd n
      omega

theorem getHashFunc_in_table_small :
    (0 ≤ getHashFunc (2 * 5) 0x400000 8 ∧ getHashFunc (2 * 5) 0x400000 8 < (2 * 5 : Nat)) ∧
    0 ≤ getHashFunc (2 * 5) 0xc0001000 1 ∧ getHashFunc (2 * 5) 0xc0001000 1 < (2 * 5 : Nat) :=
  ⟨(getHashFunc_in_table (by decide) (.inl (by decide)) (by decide) (by decide) (by decide)).2 (.inl (by decide)),
    (getHashFunc_in_table (by decide) (.inr (by decide)) (by decide) (by decide) (by decide)).2 (.inr (.inl (by decide)))⟩

/-- The first page above the direct-mapped segments, for process 8. -/
theorem getHashFunc_below_table :
    ¬ (0 ≤ getHashFunc (2 * 5) 0xc0000000 8 ∧ getHashFunc (2 * 5) 0xc0000000 8 < (2 * 5 : Nat)) := by
  decide

end Clape
