import Clape.SfsGrowth

namespace Clape
set_option autoImplicit true

namespace Sfs
open Call
namespace Volume
variable {v v' w w' : Volume}

/-- The failure leaves a new indirect block, whose old contents the device did not clear. -/
structure Stale (v : Volume) (sv : UInt32) (fb : Nat) (doalloc : Bool) (B : UInt32) : Prop where
  alloc : doalloc = true
  range : ndirect ≤ fb ∧ fb < ndirect + dbperidb
  indirect : (v.inode sv).indirect = 0
  free : v.NextFree B
  only : (v.setBit B true).freeBit = none
  lost : v.dev.head? = some .mediaError
  entry : ∃ k, Idbuf.ofSector (v.disk B).bytes k ≠ 0

/-- A later state of the volume, with the file as it was left. The device works, and the freemap has
the superblock and the indirect block of the file. -/
structure Later (sv : UInt32) (v w : Volume) : Prop where
  works : w.dev = []
  cached : w.Cached sv
  inode : w.inode sv = v.inode sv
  ids : w.ids sv = v.ids sv
  super : w.freemap.v superBlock = true
  indirect : (w.inode sv).indirect ≠ 0 → w.freemap.v (w.inode sv).indirect = true

/-- A block of a file is mapped: to the block that it had, or to a new one that is cleared. The other
blocks of the file stay where they are. -/
structure MapsTo (sv : UInt32) (v : Volume) (fb : Nat) (doalloc : Bool) (w : Volume) (d : UInt32) (w' : Volume) :
    Prop where
  block : w'.blockOf sv fb = d
  others : ∀ k, k ≠ fb → w'.blockOf sv k = v.blockOf sv k
  old : v.blockOf sv fb ≠ 0 ∨ doalloc = false → d = v.blockOf sv fb
  new : v.blockOf sv fb = 0 → doalloc = true →
    d ≠ 0 ∧ w.freemap.v d = false ∧ w'.freemap.v d = true ∧ w'.disk d = .ofBuf zeros

namespace Later

theorem blockOf (h : Later sv v w) (k : Nat) : w.blockOf sv k = v.blockOf sv k :=
  blockOf_congr (congrArg Dinode.direct h.inode) h.ids k

theorem keeps (h : Later sv v w) (hn : w.blockOf sv fb ≠ 0 ∨ doalloc = false) :
    MapsTo sv v fb doalloc w (w.blockOf sv fb) w where
  block := rfl
  others k _ := h.blockOf k
  old _ := h.blockOf fb
  new h0 hd := by
    rw [h.blockOf, h0, hd] at hn
    rcases hn with hn | hn
    · exact absurd rfl hn
    · cases hn

theorem grows (h : Later sv v w) (h0 : w.blockOf sv fb = 0)
    (hb : ∀ k, w'.blockOf sv k = if k = fb then d else w.blockOf sv k) (hfree : w.freemap.v d = false)
    (hmark : w'.freemap.v d = true) (hclear : w'.disk d = .ofBuf zeros) : MapsTo sv v fb true w d w' where
  block := (hb fb).trans (if_pos rfl)
  others k hk := by rw [hb, if_neg hk, h.blockOf]
  old hn := by
    rw [← h.blockOf] at hn
    rcases hn with hn | hn
    · exact absurd h0 hn
    · cases hn
  new _ _ := by
    refine ⟨?_, hfree, hmark, hclear⟩
    intro hd
    rw [hd] at hfree
    have hsuper := h.super
    rw [hfree] at hsuper
    cases hsuper

end Later

theorem Bmapped.mapsTo (h : w.Bmapped sv fb doalloc (.ok d) w') (hl : Later sv v w) :
    MapsTo sv v fb doalloc w d w' := by
  have hc := hl.cached
  have hw := hl.works
  have hi : ∀ {b}, w.NextFree b → (w.inode sv).indirect ≠ b ∨ (w.inode sv).indirect = 0 := by
    intro b hb
    by_cases h0 : (w.inode sv).indirect = 0
    · exact .inr h0
    · exact .inl (hb.ne (hl.indirect h0))
  cases h with
  | direct k h =>
    rw [← blockOf_direct] at h ⊢
    exact hl.keeps h
  | directNew k h hb =>
    apply hl.grows
    · rw [blockOf_direct, h]
    · intro j
      exact blockOf_newDirect hc (hi hb)
    · exact hb.free
    · show (w.allocated d).freemap.v d = true
      rw [freemap_allocated, Function.update_self]
    · show (w.allocated d).disk d = _
      rw [disk_allocated (failures_working hw), Function.update_self]
  | hole k h =>
    have h0 : w.blockOf sv (ndirect + k) = 0 := by rw [blockOf_mapped, ids_zero h]
    have hk : MapsTo sv v (ndirect + k) false w _ w := hl.keeps (.inr rfl)
    rw [h0] at hk
    exact hk
  | indirectNew k h hB hb =>
    rename_i B
    have hB0 : B ≠ 0 := (hB.ne hl.super).symm
    have hdB : B ≠ d := hb.ne (Function.update_self ..)
    have hind : ((w.newIndirect sv B).inode sv).indirect = B := by rw [inode_newIndirect hc]
    rw [indirectNew_eq hc hw hB0]
    apply hl.grows
    · rw [blockOf_mapped, ids_zero h]
    · intro j
      rw [blockOf_newEntry (cached_newIndirect hc) (dev_newIndirect hw) (by rw [hind]; exact hB0),
        newIndirect_blockOf hc (failures_working hw) hB0 h]
    · exact (Function.update_of_ne hdB.symm ..).symm.trans hb.free
    · rw [freemap_newEntry, Function.update_self]
    · exact disk_newEntry (dev_newIndirect hw) (by rw [hind]; exact hdB)
  | mapped k h hn =>
    rw [← blockOf_mapped] at hn ⊢
    rw [skip_working hw]
    exact hl.keeps hn
  | mappedNew k h h0 hb =>
    rw [skip_working hw]
    show MapsTo sv v _ true w d (w.newEntry sv k d)
    apply hl.grows
    · rw [blockOf_mapped, h0]
    · intro j
      exact blockOf_newEntry hc hw h
    · exact hb.free
    · rw [freemap_newEntry, Function.update_self]
    · exact disk_newEntry hw ((hi hb).resolve_right h)

theorem Bmapped.error (h : v.Bmapped sv fb doalloc (.error e) v') :
    (∃ n, v' = v.skip n) ∨ ∃ B, doalloc = true ∧ (ndirect ≤ fb ∧ fb < ndirect + dbperidb) ∧
      (v.inode sv).indirect = 0 ∧ v.NextFree B ∧ (v.setBit B true).freeBit = none ∧ v' = v.newIndirect sv B := by
  cases h with
  | directFull k h hf => exact .inl ⟨0, rfl⟩
  | tooBig h => exact .inl ⟨0, rfl⟩
  | indirectFull k h hf => exact .inl ⟨0, rfl⟩
  | indirectOnly k h hB hf =>
    have hk := k.isLt
    exact .inr ⟨_, rfl, ⟨by omega, by omega⟩, h, hB, hf, rfl⟩
  | unreadable k h hf => exact .inl ⟨11, rfl⟩
  | mappedFull k h h0 hf => exact .inl ⟨_, rfl⟩

/-- The blocks of the file stay where they are, unless the new indirect block has old entries. -/
theorem newIndirect_same_iff (hc : v.Cached sv) (hi : (v.inode sv).indirect = 0) (h0 : B ≠ 0) :
    (∀ fb, (v.newIndirect sv B).blockOf sv fb = v.blockOf sv fb) ↔
      v.dev.head? ≠ some .mediaError ∨ ∀ k, Idbuf.ofSector (v.disk B).bytes k = 0 := by
  rw [← failures_eq_zero]
  by_cases hf : v.failures = 0
  · exact iff_of_true (fun fb => newIndirect_blockOf hc hf h0 hi) (.inl hf)
  · rw [or_iff_right hf]
    have hids : (v.newIndirect sv B).ids sv = .ofSector (v.disk B).bytes := by
      rw [ids_newIndirect hc h0, disk_allocated_lost hf]
    constructor
    · intro h k
      have hk := h (ndirect + k)
      rw [blockOf_mapped, blockOf_mapped, hids, ids_zero hi] at hk
      exact hk
    · intro h fb
      apply blockOf_congr
      · rw [inode_newIndirect hc]
      · rw [hids, ids_zero hi]
        funext k
        exact h k

theorem NextFree.freeBit_ne (h : v.NextFree b) : v.freeBit ≠ none := by
  obtain ⟨k, hk, -⟩ := h.index
  rw [hk]
  exact Option.some_ne_none k

namespace Stale

theorem maps (h : v.Stale sv fb doalloc B) : v.Maps sv fb where
  first := h.free.allocates
  second B' hB' := by
    intro k hk
    rw [hB'.eq h.free, h.only] at hk
    cases hk
  block hn := by
    have h0 : v.blockOf sv fb = 0 := by
      unfold blockOf
      rw [dif_neg (Nat.not_lt.2 h.range.1), ids_zero h.indirect]
      split <;> rfl
    exact absurd h0 hn
  indirect _ hn := absurd h.indirect hn

theorem bmap (h : v.Stale sv fb doalloc B) (hc : v.Cached sv) :
    bmap sv fb doalloc v = .ok (.error .enospc, v.newIndirect sv B) := by
  have hends : Ends False (Sfs.bmap sv fb doalloc) (fun d v' => v.Bmapped sv fb doalloc (.ok d) v')
      (fun e v' => v.Bmapped sv fb doalloc (.error e) v') v := bmap_ends hc fun hm => hm h.maps
  obtain ⟨r, v', hr⟩ := hends.ok
  have hrun : v.Bmapped sv fb doalloc r v' := by
    cases r with
    | ok d => exact hends.value hr
    | error e => exact hends.errno hr
  have hrange := h.range
  have hi := h.indirect
  rw [hr]
  cases hrun with
  | direct k h' | directNew k h' _ | directFull k h' _ => exact absurd hrange.1 (Nat.not_le.2 k.isLt)
  | tooBig h' => exact absurd hrange.2 (Nat.not_lt.2 h')
  | hole k _ => cases h.alloc
  | indirectFull k _ hf => exact absurd hf h.free.freeBit_ne
  | indirectOnly k _ hB _ => rw [hB.eq h.free]
  | indirectNew k _ hB hb =>
    rw [hB.eq h.free] at hb
    exact absurd h.only hb.freeBit_ne
  | unreadable k h' _ | mapped k h' _ | mappedNew k h' _ _ | mappedFull k h' _ _ => exact absurd hi h'

end Stale

theorem MapsTo.congr (h : MapsTo sv v' fb doalloc w d w') (hb : ∀ k, v'.blockOf sv k = v.blockOf sv k) :
    MapsTo sv v fb doalloc w d w' where
  block := h.block
  others k hk := (h.others k hk).trans (hb k)
  old hn := by
    rw [← hb] at hn ⊢
    exact h.old hn
  new h0 := by
    rw [← hb] at h0
    exact h.new h0

end Volume

open Volume

/-- After an error of `sfs_bmap`, the file has every block that was allocated, and its blocks are where
they were; a later call maps the block. This fails only when the device has not cleared a new indirect
block. -/
theorem bmap_error_kept {v : Volume} (hc : v.Cached sv) (hsuper : v.freemap.v superBlock = true) :
    (∀ e v', bmap sv fb doalloc v = .ok (.error e, v') →
      (∀ b, v'.freemap.v b = true → v.freemap.v b = false → b = (v'.inode sv).indirect) ∧
      (∀ k, v'.blockOf sv k = v.blockOf sv k) ∧
      ∀ w, Later sv v' w → ∀ again d w', bmap sv fb again w = .ok (.ok d, w') → MapsTo sv v fb again w d w') ↔
    ¬ ∃ B, v.Stale sv fb doalloc B := by
  constructor
  · rintro h ⟨B, hB⟩
    obtain ⟨-, hblocks, -⟩ := h _ _ (hB.bmap hc)
    have h0 : B ≠ 0 := (hB.free.ne hsuper).symm
    rcases (newIndirect_same_iff hc hB.indirect h0).1 hblocks with hdev | hids
    · exact hdev hB.lost
    · obtain ⟨k, hk⟩ := hB.entry
      exact hk (hids k)
  · intro h e v' hv'
    have hrun := (bmap_ends (p := True) hc fun _ => trivial).errno hv'
    suffices hs : (∀ b, v'.freemap.v b = true → v.freemap.v b = false → b = (v'.inode sv).indirect) ∧
        ∀ k, v'.blockOf sv k = v.blockOf sv k by
      refine ⟨hs.1, hs.2, ?_⟩
      intro w hw again d w' hd
      have hnext := (bmap_ends (p := True) hw.cached fun _ => trivial).value hd
      exact (hnext.mapsTo hw).congr hs.2
    rcases hrun.error with ⟨n, rfl⟩ | ⟨B, hd, hrange, hi, hB, hf, rfl⟩
    · refine ⟨?_, fun k => rfl⟩
      intro b hb hfree
      have hmark : v.freemap.v b = true := hb
      rw [hfree] at hmark
      cases hmark
    · have h0 : B ≠ 0 := (hB.ne hsuper).symm
      refine ⟨?_, ?_⟩
      · intro b hb hfree
        rw [inode_newIndirect hc]
        have hmap : (v.newIndirect sv B).freemap.v = Function.update v.freemap.v B true := freemap_allocated
        rw [hmap] at hb
        by_contra hne
        rw [Function.update_of_ne hne, hfree] at hb
        cases hb
      · apply (newIndirect_same_iff hc hi h0).2
        by_contra hn
        rw [not_or, not_not, not_forall] at hn
        exact h ⟨B, hd, hrange, hi, hB, hf, hn.1, hn.2⟩

/-- The small volume with no free block. -/
def fullVolume : Volume := { smallVolume with freemap := ⟨freemapbits 16, fun _ => true⟩ }

theorem bmap_error_kept_full : fullVolume.Cached 3 ∧ fullVolume.freemap.v superBlock = true ∧
    ∀ e v', bmap 3 1 true fullVolume = .ok (.error e, v') →
      (∀ b, v'.freemap.v b = true → fullVolume.freemap.v b = false → b = (v'.inode 3).indirect) ∧
      (∀ k, v'.blockOf 3 k = fullVolume.blockOf 3 k) ∧
      ∀ w, Later 3 v' w → ∀ again d w', bmap 3 1 again w = .ok (.ok d, w') → MapsTo 3 fullVolume 1 again w d w' := by
  have hc : fullVolume.Cached 3 := rfl
  refine ⟨hc, rfl, (bmap_error_kept hc rfl).2 ?_⟩
  rintro ⟨B, hB⟩
  have hfree := hB.free.free
  cases hfree

/-- The small volume with one free block, which has old contents, and with a device that is about to
fail. -/
def staleVolume : Volume := { smallVolume with
  freemap := ⟨freemapbits 16, fun b => b != 5⟩
  disk := fun _ => .ofBuf fun _ => 1
  dev := [.mediaError] }

theorem staleVolume_stale : staleVolume.Stale 3 15 true 5 where
  alloc := rfl
  range := by decide
  indirect := rfl
  free := ⟨⟨5, by decide +kernel, by decide +kernel, rfl⟩, by decide, by decide⟩
  only := by
    apply List.find?_eq_none.2
    intro k _
    show ¬ (!(Function.update staleVolume.freemap.v 5 true (.ofNat k))) = true
    by_cases hk : UInt32.ofNat k = 5
    · rw [hk, Function.update_self]
      decide
    · rw [Function.update_of_ne hk]
      show ¬ (!(UInt32.ofNat k != 5)) = true
      rw [bne_iff_ne.2 hk]
      decide
  lost := rfl
  entry := ⟨0, by decide +kernel⟩

/-- The call fails, and block 15 of the file is then mapped to what the old contents say. -/
theorem bmap_error_maps : ∃ v', bmap 3 15 true staleVolume = .ok (.error .enospc, v') ∧
    v'.blockOf 3 15 ≠ staleVolume.blockOf 3 15 := by
  refine ⟨_, staleVolume_stale.bmap rfl, ?_⟩
  decide +kernel

end Sfs
end Clape
