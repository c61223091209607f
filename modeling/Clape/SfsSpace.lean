import Mathlib.Data.Finset.Card
import Mathlib.Order.Interval.Finset.Nat
import Clape.SfsAllocation

namespace Clape
set_option autoImplicit true

namespace Sfs
namespace Volume
variable {v v' : Volume}

/-- The blocks below this number have an address that fits in 32 bits. -/
def lowBlocks : Nat := 2 ^ 23

/-- The free blocks whose addresses fit in 32 bits. -/
def lowFree (v : Volume) : Nat :=
  ((Finset.range (min v.nblocks.toNat lowBlocks)).filter fun k => v.freemap.v (.ofNat k) = false).card

/-- The free blocks of the volume. -/
def free (v : Volume) : Nat :=
  ((Finset.range v.nblocks.toNat).filter fun k => v.freemap.v (.ofNat k) = false).card

theorem lowFree_eq (h : v.nblocks.toNat ≤ lowBlocks) : v.lowFree = v.free := by
  unfold lowFree free
  rw [Nat.min_eq_left h]

/-- The blocks that have to be allocated for blocks `a` up to `b` of a file. -/
def lacking (v : Volume) (sv : UInt32) (a b : Nat) : Nat :=
  ((Finset.Ico a b).filter fun fb => v.blockOf sv fb = 0).card +
    if a < b ∧ ndirect < b ∧ (v.inode sv).indirect = 0 then 1 else 0

/-- There are enough blocks for a part of a file, and those that the file has are all low. -/
structure Fits (v : Volume) (sv : UInt32) (a b : Nat) : Prop where
  enough : v.lacking sv a b ≤ v.lowFree
  low : ∀ fb, (v.blockOf sv fb).toNat < lowBlocks

theorem NextFree.low (h : v.NextFree b) (hf : 0 < v.lowFree) : b.toNat < lowBlocks := by
  obtain ⟨j, hj⟩ := Finset.card_pos.1 hf
  rw [Finset.mem_filter, Finset.mem_range] at hj
  obtain ⟨hlt, hfree⟩ := hj
  obtain ⟨k, hk, -, rfl⟩ := h.index
  have hle : k ≤ j := by
    by_contra hjk
    have hset := (List.find?_range_eq_some.1 hk).2.2 j (Nat.not_le.1 hjk)
    rw [hfree] at hset
    cases hset
  rw [UInt32.toNat_ofNat']
  exact Nat.lt_of_le_of_lt (Nat.mod_le ..) (by omega)

theorem lowFree_alloc (hn : v'.nblocks = v.nblocks) (hv : v'.freemap.v = Function.update v.freemap.v b true) :
    v.lowFree ≤ v'.lowFree + 1 := by
  unfold lowFree
  rw [hn, hv]
  have hsub : ((Finset.range (min v.nblocks.toNat lowBlocks)).filter fun k => v.freemap.v (.ofNat k) = false).erase
      b.toNat ⊆ (Finset.range (min v.nblocks.toNat lowBlocks)).filter
        fun k => Function.update v.freemap.v b true (.ofNat k) = false := by
    intro k hk
    rw [Finset.mem_erase, Finset.mem_filter, Finset.mem_range] at hk
    obtain ⟨hne, hlt, hfree⟩ := hk
    rw [Finset.mem_filter, Finset.mem_range]
    refine ⟨hlt, ?_⟩
    rw [Function.update_of_ne, hfree]
    intro hkb
    apply hne
    rw [← hkb, UInt32.toNat_ofNat', Nat.mod_eq_of_lt]
    have hb := v.nblocks.toNat_lt
    omega
  have hcard := Finset.card_le_card hsub
  have herase := Finset.pred_card_le_card_erase (a := b.toNat)
    (s := (Finset.range (min v.nblocks.toNat lowBlocks)).filter fun k => v.freemap.v (.ofNat k) = false)
  omega

theorem lacking_block (ha : a ≤ k) (hb : k < b) (h0 : v.blockOf sv k = 0) (hd : d ≠ 0)
    (hblock : ∀ fb, v'.blockOf sv fb = if fb = k then d else v.blockOf sv fb)
    (hi : (v'.inode sv).indirect = (v.inode sv).indirect) : v'.lacking sv a b + 1 = v.lacking sv a b := by
  have hset : (Finset.Ico a b).filter (fun fb => v'.blockOf sv fb = 0) =
      ((Finset.Ico a b).filter fun fb => v.blockOf sv fb = 0).erase k := by
    ext fb
    rw [Finset.mem_erase, Finset.mem_filter, Finset.mem_filter, hblock]
    by_cases hfb : fb = k
    · rw [if_pos hfb]
      tauto
    · rw [if_neg hfb]
      tauto
  have hmem : k ∈ (Finset.Ico a b).filter fun fb => v.blockOf sv fb = 0 :=
    Finset.mem_filter.2 ⟨Finset.mem_Ico.2 ⟨ha, hb⟩, h0⟩
  have hcard := Finset.card_erase_add_one hmem
  unfold lacking
  rw [hset, hi]
  omega

theorem lacking_indirect (ha : a < b) (hb : ndirect < b) (h0 : (v.inode sv).indirect = 0)
    (hi : (v'.inode sv).indirect ≠ 0) (hblock : ∀ fb, v'.blockOf sv fb = v.blockOf sv fb) :
    v'.lacking sv a b + 1 = v.lacking sv a b := by
  unfold lacking
  simp only [hblock]
  rw [if_neg fun h : _ ∧ _ ∧ (v'.inode sv).indirect = 0 => hi h.2.2, if_pos ⟨ha, hb, h0⟩]

theorem lacking_mono (ha : a ≤ a') : v.lacking sv a' b ≤ v.lacking sv a b := by
  have hsub : (Finset.Ico a' b).filter (fun fb => v.blockOf sv fb = 0) ⊆
      (Finset.Ico a b).filter fun fb => v.blockOf sv fb = 0 :=
    Finset.filter_subset_filter _ (Finset.Ico_subset_Ico_left ha)
  have hcard := Finset.card_le_card hsub
  unfold lacking
  by_cases h : a' < b ∧ ndirect < b ∧ (v.inode sv).indirect = 0
  · rw [if_pos h, if_pos ⟨Nat.lt_of_le_of_lt ha h.1, h.2⟩]
    omega
  · rw [if_neg h]
    omega

theorem lacking_pos (ha : a ≤ k) (hb : k < b) (h0 : v.blockOf sv k = 0) : 0 < v.lacking sv a b := by
  have hmem : k ∈ (Finset.Ico a b).filter fun fb => v.blockOf sv fb = 0 :=
    Finset.mem_filter.2 ⟨Finset.mem_Ico.2 ⟨ha, hb⟩, h0⟩
  have hpos := Finset.card_pos.2 ⟨k, hmem⟩
  unfold lacking
  omega

theorem Fits.mono (h : v.Fits sv a b) (ha : a ≤ a') : v.Fits sv a' b := ⟨(lacking_mono ha).trans h.enough, h.low⟩

theorem lowFree_none (hm : v.Mapped) (hf : v.freeBit = none) : v.lowFree = 0 := by
  rw [lowFree, Finset.card_eq_zero]
  apply Finset.filter_eq_empty_iff.2
  intro k hk hfree
  rw [Finset.mem_range] at hk
  have hnbits := hm.nbits
  unfold freemapbits at hnbits
  simp only [bitsperblock, blocksize] at hnbits
  have hset := List.find?_eq_none.1 hf k (List.mem_range.2 (by omega))
  rw [hfree] at hset
  exact hset rfl

theorem Fits.block (h : v.Fits sv a b) (hd : v.NextFree d) (hd0 : d ≠ 0) (ha : a ≤ k) (hb : k < b)
    (h0 : v.blockOf sv k = 0) (hn : v'.nblocks = v.nblocks)
    (hv : v'.freemap.v = Function.update v.freemap.v d true)
    (hblock : ∀ fb, v'.blockOf sv fb = if fb = k then d else v.blockOf sv fb)
    (hi : (v'.inode sv).indirect = (v.inode sv).indirect) : v'.Fits sv a b := by
  have henough := h.enough
  have hpos := lacking_pos ha hb h0
  have hless := lacking_block ha hb h0 hd0 hblock hi
  have hfree := lowFree_alloc hn hv
  have hlow := hd.low (by omega)
  refine ⟨by omega, ?_⟩
  intro fb
  rw [hblock]
  split
  · exact hlow
  · exact h.low fb

theorem nblocks_allocated : (v.allocated b).nblocks = v.nblocks := written_nblocks

theorem Fits.newDirect (h : v.Fits sv a b) (hs : v.Sane) (hc : v.Cached sv) (hd : v.NextFree d) (ha : a ≤ k.val)
    (hb : k.val < b) (h0 : (v.inode sv).direct k = 0) : (v.newDirect sv k d).Fits sv a b := by
  have hind : (v.inode sv).indirect ≠ d ∨ (v.inode sv).indirect = 0 := by
    by_cases hz : (v.inode sv).indirect = 0
    · exact .inr hz
    · exact .inl (hs.fresh_ne_indirect hd hc hz)
  apply h.block hd (hs.fresh_ne_zero hd) ha hb
  · rw [blockOf_direct, h0]
  · exact nblocks_allocated
  · exact freemap_allocated
  · exact fun fb => blockOf_newDirect hc hind
  · rw [inode_newDirect hc]
    rfl

theorem Fits.newEntry (h : v.Fits sv a b) (hs : v.Sane) (hc : v.Cached sv) (hw : v.dev = []) (hd : v.NextFree d)
    (ha : a ≤ ndirect + k.val) (hb : ndirect + k.val < b) (hi : (v.inode sv).indirect ≠ 0) (h0 : v.ids sv k = 0) :
    (v.newEntry sv k d).Fits sv a b := by
  apply h.block hd (hs.fresh_ne_zero hd) ha hb
  · rw [blockOf_mapped, h0]
  · exact written_nblocks.trans nblocks_allocated
  · exact freemap_newEntry
  · exact fun fb => blockOf_newEntry hc hw hi
  · rw [inode_newEntry hc]

theorem Fits.newIndirect (h : v.Fits sv a b) (hs : v.Sane) (hc : v.Cached sv) (hw : v.dev = []) (hd : v.NextFree d)
    (ha : a < b) (hb : ndirect < b) (h0 : (v.inode sv).indirect = 0) : (v.newIndirect sv d).Fits sv a b := by
  have hd0 := hs.fresh_ne_zero hd
  have hblock : ∀ fb, (v.newIndirect sv d).blockOf sv fb = v.blockOf sv fb :=
    fun fb => newIndirect_blockOf hc (failures_working hw) hd0 h0
  have hi : ((v.newIndirect sv d).inode sv).indirect ≠ 0 := by
    rw [inode_newIndirect hc]
    exact hd0
  have henough := h.enough
  have hless := lacking_indirect ha hb h0 hi hblock
  have hfree : v.lowFree ≤ (v.newIndirect sv d).lowFree + 1 :=
    lowFree_alloc (b := d) nblocks_allocated freemap_allocated
  refine ⟨by omega, ?_⟩
  intro fb
  rw [hblock]
  exact h.low fb

theorem Fits.left (h : v.Fits sv a b) (hm : v.Mapped) (ha : a ≤ k) (hb : k < b) (h0 : v.blockOf sv k = 0) :
    v.freeBit ≠ none := by
  intro hf
  have henough := h.enough
  have hpos := lacking_pos ha hb h0
  rw [lowFree_none hm hf] at henough
  omega

/-- A call of `sfs_bmap` for a write that fits. -/
theorem Bmapped.fits (hrun : v.Bmapped sv fb true r v') (h : v.Sane) (hc : v.Cached sv) (hw : v.dev = [])
    (hf : v.Fits sv fb b) (hb : fb < b) (hmax : fb < maxblocks) : (∃ d, r = .ok d) ∧ v'.Fits sv fb b := by
  have hm := h.mapped
  cases hrun with
  | direct => exact ⟨⟨_, rfl⟩, hf⟩
  | directNew k h0 hd => exact ⟨⟨_, rfl⟩, hf.newDirect h hc hd (Nat.le_refl _) hb h0⟩
  | directFull k h0 hfull =>
    exact absurd hfull (hf.left hm (Nat.le_refl _) hb (by rw [blockOf_direct, h0]))
  | tooBig hbig => exact absurd hmax (Nat.not_lt.2 hbig)
  | indirectFull k hi hfull =>
    exact absurd hfull (hf.left hm (Nat.le_refl _) hb (by rw [blockOf_mapped, ids_zero hi]))
  | indirectOnly k hi hB hfull =>
    rename_i B
    have hone := hf.newIndirect h hc hw hB hb (Nat.lt_of_le_of_lt (Nat.le_add_right ..) hb) hi
    have hgrown := Grown.newIndirect h hc hw hB hi
    have hB0 := h.fresh_ne_zero hB
    rw [← freeBit_congr sameFree_newIndirect.freemap] at hfull
    refine absurd hfull (hone.left hgrown.sane.mapped (Nat.le_refl _) hb ?_)
    rw [newIndirect_blockOf hc (failures_working hw) hB0 hi, blockOf_mapped, ids_zero hi]
  | indirectNew k hi hB hd =>
    rename_i B d
    have hone := hf.newIndirect h hc hw hB hb (Nat.lt_of_le_of_lt (Nat.le_add_right ..) hb) hi
    have hgrown := Grown.newIndirect h hc hw hB hi
    have hB0 := h.fresh_ne_zero hB
    rw [indirectNew_eq hc hw hB0]
    refine ⟨⟨_, rfl⟩, hone.newEntry hgrown.sane hgrown.cached hgrown.works (sameFree_newIndirect.nextFree.2 hd)
      (Nat.le_refl _) hb ?_ ?_⟩
    · rw [inode_newIndirect hc]
      exact hB0
    · rw [ids_newIndirect_working hc (failures_working hw) hB0]
  | unreadable k hi hfail =>
    have hz := failures_working hw
    omega
  | mapped =>
    rw [skip_working hw]
    exact ⟨⟨_, rfl⟩, hf⟩
  | mappedNew k hi h0 hd =>
    rw [skip_working hw]
    exact ⟨⟨_, rfl⟩, hf.newEntry h hc hw hd (Nat.le_refl _) hb hi h0⟩
  | mappedFull k hi h0 hfull =>
    exact absurd hfull (hf.left hm (Nat.le_refl _) hb (by rw [blockOf_mapped, h0]))

end Volume

open Call Volume

theorem bmap_fits {v : Volume} (h : v.Sane) (hc : v.Cached sv) (hw : v.dev = []) (hf : v.Fits sv fb b) (hb : fb < b)
    (hmax : fb < maxblocks) :
    Ends False (bmap sv fb true)
      (fun d v' => Grown sv v v' ∧ v'.blockOf sv fb = d ∧ d ≠ 0 ∧ v'.Fits sv fb b) (fun _ _ => False) v := by
  have hgrown : Ends False (bmap sv fb true) _ _ v := bmap_grown h hc hw
  have hall : Ends False (bmap sv fb true) _ _ v := bmap_ends hc fun hm => hm (h.maps hc)
  obtain ⟨r, v', hrun⟩ := hgrown.ok
  cases r with
  | ok d =>
    obtain ⟨hg, hd, hd0, -⟩ := hgrown.value hrun
    exact .of_ok hrun ⟨hg, hd, hd0 rfl, ((hall.value hrun).fits h hc hw hf hb hmax).2⟩
  | error e =>
    obtain ⟨d, hd⟩ := ((hall.errno hrun).fits h hc hw hf hb hmax).1
    cases hd

end Sfs
end Clape
