import Mathlib.Algebra.GroupWithZero.Nat
import Mathlib.Data.List.Basic
import Mathlib.Logic.Function.Basic

namespace Clape
set_option autoImplicit true

/-- `struct bitmap`, with the bytes that were allocated for it. -/
structure Bitmap where
  nbits : Nat
  v : List (BitVec 8)
  deriving DecidableEq, Repr

namespace Bitmap

/-- The assertions, and an access outside the bytes. -/
inductive Failure where
  | overbits | allocRange | allocByte | markRange | markSet | unmarkRange | unmarkClear | outside
  deriving DecidableEq, Repr

/-- `DIVROUNDUP(nbits, BITS_PER_WORD)`, with 32 bits. -/
def words (nbits : Nat) : Nat := (nbits + 7) % 2 ^ 32 / 8

def word (b : Bitmap) (ix : Nat) : Except Failure (BitVec 8) :=
  match b.v[ix]? with
  | some w => .ok w
  | none => .error .outside

def mask (offset : Nat) : BitVec 8 := 1#8 <<< offset

def setWord (b : Bitmap) (ix : Nat) (w : BitVec 8) : Bitmap := { b with v := b.v.set ix w }

/-- `bitmap_create`, when there is memory for the bitmap. -/
def create (nbits : Nat) : Except Failure Bitmap := do
  let b : Bitmap := ⟨nbits, List.replicate (words nbits) 0⟩
  if nbits / 8 < words nbits then do
    let ix := words nbits - 1
    let overbits := nbits - ix * 8
    if nbits / 8 ≠ ix ∨ overbits = 0 ∨ 8 ≤ overbits then .error .overbits
    else return b.setWord ix ((List.range 8).foldl (fun w j => if overbits ≤ j then w ||| mask j else w) 0)
  else return b

/-- The loop of `bitmap_alloc`, with the bytes that are left. -/
def allocFrom (b : Bitmap) : (left ix : Nat) → Except Failure (Option Nat × Bitmap)
  | 0, _ => .ok (none, b)
  | left + 1, ix => do
    let w ← b.word ix
    if w ≠ 0xff#8 then
      match (List.range 8).find? fun offset => w &&& mask offset == 0 with
      | some offset =>
        if ix * 8 + offset < b.nbits then .ok (some (ix * 8 + offset), b.setWord ix (w ||| mask offset))
        else .error .allocRange
      | none => .error .allocByte
    else allocFrom b left (ix + 1)

/-- `bitmap_alloc`, which returns `ENOSPC` where there is no index. -/
def alloc (b : Bitmap) : Except Failure (Option Nat × Bitmap) := allocFrom b (words b.nbits) 0

def mark (b : Bitmap) (index : Nat) : Except Failure Bitmap := do
  if b.nbits ≤ index then .error .markRange
  else
    let w ← b.word (index / 8)
    if w &&& mask (index % 8) ≠ 0 then .error .markSet
    else return b.setWord (index / 8) (w ||| mask (index % 8))

def unmark (b : Bitmap) (index : Nat) : Except Failure Bitmap := do
  if b.nbits ≤ index then .error .unmarkRange
  else
    let w ← b.word (index / 8)
    if w &&& mask (index % 8) = 0 then .error .unmarkClear
    else return b.setWord (index / 8) (w &&& ~~~ mask (index % 8))

def isset (b : Bitmap) (index : Nat) : Except Failure (BitVec 8) := do
  let w ← b.word (index / 8)
  return w &&& mask (index % 8)

theorem getLsbD_mask (hk : k < 8) : (mask o).getLsbD k = decide (k = o) := by
  unfold mask
  rw [BitVec.getLsbD_shiftLeft, BitVec.getLsbD_one]
  by_cases hko : k = o
  · simp [hko]
    omega
  · simp [hko]
    omega

theorem and_mask_eq_zero (ho : o < 8) : w &&& mask o = 0 ↔ w.getLsbD o = false := by
  constructor
  · intro h
    have hbit := congrArg (fun x => x.getLsbD o) h
    simp only [BitVec.getLsbD_and, getLsbD_mask ho] at hbit
    simpa using hbit
  · intro h
    apply BitVec.eq_of_getLsbD_eq
    intro k hk
    rw [BitVec.getLsbD_and, getLsbD_mask hk]
    by_cases hko : k = o
    · rw [hko, h]
      simp
    · simp [hko]

theorem getLsbD_or_mask (hk : k < 8) : (w ||| mask o).getLsbD k = if k = o then true else w.getLsbD k := by
  rw [BitVec.getLsbD_or, getLsbD_mask hk]
  split <;> simp_all

theorem getLsbD_and_not_mask (hk : k < 8) :
    (w &&& ~~~ mask o).getLsbD k = if k = o then false else w.getLsbD k := by
  rw [BitVec.getLsbD_and, BitVec.getLsbD_not, getLsbD_mask hk]
  split <;> simp_all

theorem eq_allbits {w : BitVec 8} (h : ∀ o < 8, w.getLsbD o = true) : w = 0xff#8 := by
  have hones : ∀ o < 8, (0xff#8).getLsbD o = true := by decide
  apply BitVec.eq_of_getLsbD_eq
  intro o ho
  rw [h o ho, hones o ho]

/-- A bit of the bytes, also past the end of the bitmap. -/
def bit (b : Bitmap) (i : Nat) : Bool := (b.v.getD (i / 8) 0).getLsbD (i % 8)

/-- The bitmap holds a set of bits, and the bits of the last byte that are not used are set. -/
structure Rep (n : Nat) (S : Nat → Bool) (b : Bitmap) : Prop where
  nbits : b.nbits = n
  length : b.v.length = (n + 7) / 8
  bits : ∀ i < n, b.bit i = S i
  padding : ∀ i, n ≤ i → i < 8 * b.v.length → b.bit i = true

variable {b : Bitmap}

theorem word_eq (h : ix < b.v.length) : b.word ix = .ok (b.v.getD ix 0) := by
  unfold word
  rw [List.getD_eq_getElem?_getD, List.getElem?_eq_getElem h]
  rfl

theorem bit_word (ho : o < 8) : b.bit (ix * 8 + o) = (b.v.getD ix 0).getLsbD o := by
  have hq : (ix * 8 + o) / 8 = ix := by omega
  have hr : (ix * 8 + o) % 8 = o := by omega
  rw [bit, hq, hr]

theorem bit_setWord (h : ix < b.v.length) (w : BitVec 8) (i : Nat) :
    (b.setWord ix w).bit i = if i / 8 = ix then w.getLsbD (i % 8) else b.bit i := by
  unfold bit setWord
  rw [List.getD_eq_getElem?_getD, List.getElem?_set]
  by_cases hi : i / 8 = ix
  · rw [if_pos hi, if_pos hi.symm, if_pos h]
    rfl
  · rw [if_neg hi, if_neg (Ne.symm hi), ← List.getD_eq_getElem?_getD]

theorem Rep.change (h : Rep n S b) (hi : i < n)
    (hw : ∀ k < 8, w.getLsbD k = if k = i % 8 then x else (b.v.getD (i / 8) 0).getLsbD k) :
    Rep n (Function.update S i x) (b.setWord (i / 8) w) := by
  have hlen := h.length
  have hix : i / 8 < b.v.length := by omega
  have hbit : ∀ j, (b.setWord (i / 8) w).bit j = if j = i then x else b.bit j := by
    intro j
    rw [bit_setWord hix]
    by_cases hq : j / 8 = i / 8
    · rw [if_pos hq, hw _ (Nat.mod_lt _ (by decide))]
      by_cases hr : j % 8 = i % 8
      · rw [if_pos hr, if_pos (by omega)]
      · rw [if_neg hr, if_neg (by omega), ← hq]
        rfl
    · rw [if_neg hq, if_neg (by omega)]
  refine ⟨h.nbits, ?_, ?_, ?_⟩
  · exact (List.length_set ..).trans hlen
  · intro j hj
    rw [hbit, Function.update_apply, h.bits j hj]
  · intro j hj hlt
    rw [hbit, if_neg (by omega)]
    have hsame : (b.setWord (i / 8) w).v.length = b.v.length := List.length_set ..
    rw [hsame] at hlt
    exact h.padding j hj hlt

theorem Rep.word (h : Rep n S b) (hi : i < n) : b.word (i / 8) = .ok (b.v.getD (i / 8) 0) := by
  have hlen := h.length
  exact word_eq (by omega)

theorem Rep.mark (h : Rep n S b) (hi : i < n) (hs : S i = false) :
    ∃ b', mark b i = .ok b' ∧ Rep n (Function.update S i true) b' := by
  have hbit : (b.v.getD (i / 8) 0).getLsbD (i % 8) = false := (h.bits i hi).trans hs
  have hlt : i % 8 < 8 := Nat.mod_lt _ (by decide)
  refine ⟨_, ?_, h.change hi (w := b.v.getD (i / 8) 0 ||| mask (i % 8)) fun k hk => getLsbD_or_mask hk⟩
  unfold Bitmap.mark
  rw [h.nbits, if_neg (Nat.not_le.2 hi), h.word hi]
  show (if _ then _ else _) = _
  rw [if_neg (not_not.2 ((and_mask_eq_zero hlt).2 hbit))]
  rfl

theorem Rep.unmark (h : Rep n S b) (hi : i < n) (hs : S i = true) :
    ∃ b', unmark b i = .ok b' ∧ Rep n (Function.update S i false) b' := by
  have hbit : (b.v.getD (i / 8) 0).getLsbD (i % 8) = true := (h.bits i hi).trans hs
  have hlt : i % 8 < 8 := Nat.mod_lt _ (by decide)
  refine ⟨_, ?_, h.change hi (w := b.v.getD (i / 8) 0 &&& ~~~ mask (i % 8)) fun k hk => getLsbD_and_not_mask hk⟩
  unfold Bitmap.unmark
  rw [h.nbits, if_neg (Nat.not_le.2 hi), h.word hi]
  show (if _ then _ else _) = _
  rw [if_neg (fun h0 => absurd ((and_mask_eq_zero hlt).1 h0) (by rw [hbit]; exact Bool.noConfusion))]
  rfl

theorem Rep.isset (h : Rep n S b) (hi : i < n) : ∃ w, isset b i = .ok w ∧ (w ≠ 0 ↔ S i = true) := by
  have hlt : i % 8 < 8 := Nat.mod_lt _ (by decide)
  refine ⟨b.v.getD (i / 8) 0 &&& mask (i % 8), ?_, ?_⟩
  · unfold Bitmap.isset
    rw [h.word hi]
    rfl
  · rw [Ne, and_mask_eq_zero hlt, Bool.not_eq_false, ← h.bits i hi]
    rfl

/-- What `bitmap_alloc` returns: the lowest clear index, which it sets. -/
def Allocates (n : Nat) (S : Nat → Bool) (b : Bitmap) (r : Except Failure (Option Nat × Bitmap)) : Prop :=
  (∀ i < n, S i = true) ∧ r = .ok (none, b) ∨
  ∃ i b', i < n ∧ S i = false ∧ (∀ j < i, S j = true) ∧ r = .ok (some i, b') ∧ Rep n (Function.update S i true) b'

/-- The byte has a clear bit, and `bitmap_alloc` takes the lowest of them. -/
theorem Rep.allocByte (h : Rep n S b) (hix : ix < b.v.length) (hfull : ∀ i < ix * 8, b.bit i = true)
    (hw : b.v.getD ix 0 ≠ 0xff#8) (left : Nat) : Allocates n S b (allocFrom b (left + 1) ix) := by
  rw [allocFrom, word_eq hix]
  show Allocates n S b (if _ then _ else _)
  rw [if_pos hw]
  cases hf : (List.range 8).find? fun offset => b.v.getD ix 0 &&& mask offset == 0 with
  | none =>
    apply absurd (eq_allbits _) hw
    intro o ho
    have hset := List.find?_eq_none.1 hf o (List.mem_range.2 ho)
    rw [beq_iff_eq, and_mask_eq_zero ho, Bool.not_eq_false] at hset
    exact hset
  | some o =>
    have ho := List.mem_range.1 (List.mem_of_find?_eq_some hf)
    have hclear := List.find?_some hf
    rw [beq_iff_eq, and_mask_eq_zero ho, ← bit_word ho] at hclear
    have hlow : ∀ k < o, b.bit (ix * 8 + k) = true := by
      intro k hk
      have hset := (List.find?_range_eq_some.1 hf).2.2 k hk
      rw [Bool.not_eq_true', beq_eq_false_iff_ne, Ne, and_mask_eq_zero (by omega), Bool.not_eq_false,
        ← bit_word (by omega)] at hset
      exact hset
    have hn : ix * 8 + o < n := by
      by_contra hge
      rw [h.padding _ (Nat.not_lt.1 hge) (by omega)] at hclear
      cases hclear
    simp only
    rw [h.nbits, if_pos hn]
    have hq : (ix * 8 + o) / 8 = ix := by omega
    have hr : (ix * 8 + o) % 8 = o := by omega
    refine .inr ⟨_, _, hn, (h.bits _ hn).symm.trans hclear, ?_, rfl, ?_⟩
    · intro j hj
      rw [← h.bits j (by omega)]
      by_cases hlt : j < ix * 8
      · exact hfull j hlt
      · have hj' := hlow (j - ix * 8) (by omega)
        rw [Nat.add_sub_cancel' (Nat.not_lt.1 hlt)] at hj'
        exact hj'
    · have hrep := h.change hn (x := true) (w := b.v.getD ix 0 ||| mask o) (by
        intro k hk
        rw [hq, hr]
        exact getLsbD_or_mask hk)
      rw [hq] at hrep
      exact hrep

theorem Rep.allocFrom (h : Rep n S b) (hsum : ix + left = b.v.length) (hfull : ∀ i < ix * 8, b.bit i = true) :
    Allocates n S b (allocFrom b left ix) := by
  have hlen := h.length
  induction left generalizing ix with
  | zero =>
    refine .inl ⟨?_, rfl⟩
    intro i hi
    rw [← h.bits i hi]
    exact hfull i (by omega)
  | succ left ih =>
    by_cases hw : b.v.getD ix 0 = 0xff#8
    · have hfull' : ∀ i < (ix + 1) * 8, b.bit i = true := by
        intro i hi
        by_cases hlt : i < ix * 8
        · exact hfull i hlt
        · have hones : ∀ o < 8, (0xff#8).getLsbD o = true := by decide
          have hbit : b.bit (ix * 8 + (i - ix * 8)) = _ := bit_word (by omega)
          rw [Nat.add_sub_cancel' (Nat.not_lt.1 hlt), hw] at hbit
          rw [hbit]
          exact hones _ (by omega)
      have hnext := ih (by omega) hfull'
      rw [Bitmap.allocFrom, word_eq (by omega)]
      show Allocates n S b (if _ then _ else _)
      rw [if_neg (not_not.2 hw)]
      exact hnext
    · exact h.allocByte (by omega) hfull hw left

theorem words_eq (h : n + 7 < 2 ^ 32) : words n = (n + 7) / 8 := by
  unfold words
  rw [Nat.mod_eq_of_lt h]

theorem Rep.alloc (h : Rep n S b) (hn : n + 7 < 2 ^ 32) : Allocates n S b (alloc b) := by
  unfold Bitmap.alloc
  rw [h.nbits, words_eq hn]
  apply h.allocFrom
  · rw [h.length, Nat.zero_add]
  · intro i hi
    omega

theorem overbits_bit (ho : o < 8) (hk : k < 8) :
    ((List.range 8).foldl (fun w j => if o ≤ j then w ||| mask j else w) 0).getLsbD k = decide (o ≤ k) := by
  have hall : ∀ o < 8, ∀ k < 8,
      ((List.range 8).foldl (fun w j => if o ≤ j then w ||| mask j else w) 0).getLsbD k = decide (o ≤ k) := by
    decide
  exact hall o ho k hk

theorem bit_replicate (m i : Nat) : (⟨n, List.replicate m 0⟩ : Bitmap).bit i = false := by
  unfold bit
  rw [List.getD_eq_getElem?_getD, List.getElem?_replicate]
  split <;> simp

theorem create_rep (hn : n + 7 < 2 ^ 32) : ∃ b, create n = .ok b ∧ Rep n (fun _ => false) b := by
  have hw := words_eq hn
  by_cases hover : n / 8 < words n
  · have hix : words n - 1 = n / 8 := by omega
    have hmod : n - n / 8 * 8 = n % 8 := by omega
    have hlast : n / 8 < (⟨n, List.replicate (words n) 0⟩ : Bitmap).v.length := by
      rw [List.length_replicate]
      exact hover
    have hbit : ∀ i, ((⟨n, List.replicate (words n) 0⟩ : Bitmap).setWord (n / 8)
        ((List.range 8).foldl (fun w j => if n % 8 ≤ j then w ||| mask j else w) 0)).bit i =
        if i / 8 = n / 8 then decide (n % 8 ≤ i % 8) else false := by
      intro i
      rw [bit_setWord hlast, overbits_bit (Nat.mod_lt _ (by decide)) (Nat.mod_lt _ (by decide)), bit_replicate]
    refine ⟨(⟨n, List.replicate (words n) 0⟩ : Bitmap).setWord (n / 8)
      ((List.range 8).foldl (fun w j => if n % 8 ≤ j then w ||| mask j else w) 0), ?_, rfl, ?_, ?_, ?_⟩
    · unfold create
      dsimp only
      rw [hix, hmod, if_pos hover, if_neg (by omega)]
      rfl
    · rw [setWord, List.length_set, List.length_replicate, hw]
    · intro i hi
      rw [hbit]
      split
      · rw [decide_eq_false_iff_not]
        omega
      · rfl
    · intro i hge hlt
      rw [setWord, List.length_set, List.length_replicate] at hlt
      rw [hbit, if_pos (by omega), decide_eq_true_eq]
      omega
  · refine ⟨⟨n, List.replicate (words n) 0⟩, ?_, rfl, ?_, ?_, ?_⟩
    · unfold create
      show (if n / 8 < words n then _ else _) = _
      rw [if_neg hover]
      rfl
    · rw [List.length_replicate, hw]
    · intro i _
      exact bit_replicate ..
    · intro i hge hlt
      rw [List.length_replicate] at hlt
      omega

/-- The bitmaps that operations lead to, with the bits that they have set. -/
inductive Reached (n : Nat) : Bitmap → (Nat → Bool) → Prop where
  | create {b : Bitmap} (h : create n = .ok b) : Reached n b fun _ => false
  | alloc {b b' : Bitmap} (hb : Reached n b S) (h : alloc b = .ok (some i, b')) :
    Reached n b' (Function.update S i true)
  | full {b b' : Bitmap} (hb : Reached n b S) (h : alloc b = .ok (none, b')) : Reached n b' S
  | mark {b b' : Bitmap} (hb : Reached n b S) (hi : i < n) (hs : S i = false) (h : mark b i = .ok b') :
    Reached n b' (Function.update S i true)
  | unmark {b b' : Bitmap} (hb : Reached n b S) (hi : i < n) (hs : S i = true) (h : unmark b i = .ok b') :
    Reached n b' (Function.update S i false)

theorem Reached.rep (h : Reached n b S) (hn : n + 7 < 2 ^ 32) : Rep n S b := by
  induction h with
  | create h =>
    obtain ⟨b, hb, hrep⟩ := create_rep hn
    rw [hb] at h
    cases h
    exact hrep
  | alloc _ h ih =>
    rcases ih.alloc hn with ⟨-, hr⟩ | ⟨i, b', -, -, -, hr, hrep⟩
    · rw [hr] at h
      cases h
    · rw [hr] at h
      cases h
      exact hrep
  | full _ h ih =>
    rcases ih.alloc hn with ⟨-, hr⟩ | ⟨i, b', -, -, -, hr, -⟩
    · rw [hr] at h
      cases h
      exact ih
    · rw [hr] at h
      cases h
  | mark _ hi hs h ih =>
    obtain ⟨b', hb', hrep⟩ := ih.mark hi hs
    rw [hb'] at h
    cases h
    exact hrep
  | unmark _ hi hs h ih =>
    obtain ⟨b', hb', hrep⟩ := ih.unmark hi hs
    rw [hb'] at h
    cases h
    exact hrep

/-- The bits act as a set in every bitmap that operations lead to, and no assertion fails. -/
structure Exact (n : Nat) : Prop where
  create : ∃ b, create n = .ok b
  alloc {b : Bitmap} {S : Nat → Bool} (h : Reached n b S) : Allocates n S b (alloc b)
  isset {b : Bitmap} {S : Nat → Bool} (h : Reached n b S) (hi : i < n) :
    ∃ w, isset b i = .ok w ∧ (w ≠ 0 ↔ S i = true)
  padding {b : Bitmap} {S : Nat → Bool} (h : Reached n b S) (hi : n ≤ i) (hlt : i < 8 * b.v.length) : b.bit i = true
  mark {b : Bitmap} {S : Nat → Bool} (h : Reached n b S) (hi : i < n) (hs : S i = false) : ∃ b', mark b i = .ok b'
  unmark {b : Bitmap} {S : Nat → Bool} (h : Reached n b S) (hi : i < n) (hs : S i = true) :
    ∃ b', unmark b i = .ok b'

/-- So large a number of bits is rounded up to no bytes. -/
theorem words_wrap (h : 2 ^ 32 ≤ n + 7) (hlt : n < 2 ^ 32) : words n = 0 := by
  unfold words
  omega

theorem create_wrap (h : 2 ^ 32 ≤ n + 7) (hlt : n < 2 ^ 32) : create n = .ok ⟨n, []⟩ := by
  unfold create
  rw [words_wrap h hlt]
  rfl

theorem alloc_wrap (h : 2 ^ 32 ≤ n + 7) (hlt : n < 2 ^ 32) : alloc ⟨n, []⟩ = .ok (none, ⟨n, []⟩) := by
  unfold alloc
  rw [words_wrap h hlt]
  rfl

theorem not_exact_wrap (h : 2 ^ 32 ≤ n + 7) (hlt : n < 2 ^ 32) : ¬ Exact n := by
  intro hexact
  have halloc := hexact.alloc (.create (create_wrap h hlt))
  rw [alloc_wrap h hlt] at halloc
  rcases halloc with ⟨hall, -⟩ | ⟨i, b', -, -, -, hr, -⟩
  · cases hall 0 (by omega)
  · cases hr

/-- The bitmap is exact unless its number of bits is not rounded up to bytes. -/
theorem exact_iff (hlt : n < 2 ^ 32) : Exact n ↔ n + 7 < 2 ^ 32 := by
  constructor
  · intro h
    by_contra hge
    exact not_exact_wrap (Nat.not_lt.1 hge) hlt h
  · intro h
    refine ⟨?_, ?_, ?_, ?_, ?_, ?_⟩
    · obtain ⟨b, hb, -⟩ := create_rep h
      exact ⟨b, hb⟩
    · intro b S hb
      exact (hb.rep h).alloc h
    · intro i b S hb hi
      exact (hb.rep h).isset hi
    · intro i b S hb hi hlen
      exact (hb.rep h).padding i hi hlen
    · intro i b S hb hi hs
      obtain ⟨b', hb', -⟩ := (hb.rep h).mark hi hs
      exact ⟨b', hb'⟩
    · intro i b S hb hi hs
      obtain ⟨b', hb', -⟩ := (hb.rep h).unmark hi hs
      exact ⟨b', hb'⟩

theorem exact_thirteen : 13 < 2 ^ 32 ∧ Exact 13 :=
  ⟨by decide, (exact_iff (by decide)).2 (by decide)⟩

theorem not_exact_unsigned :
    create 4294967295 = .ok ⟨4294967295, []⟩ ∧ alloc ⟨4294967295, []⟩ = .ok (none, ⟨4294967295, []⟩) ∧
      ¬ Exact 4294967295 :=
  ⟨create_wrap (by decide) (by decide), alloc_wrap (by decide) (by decide), not_exact_wrap (by decide) (by decide)⟩

end Bitmap
end Clape
