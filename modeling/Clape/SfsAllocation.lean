import Clape.SfsBlocks
import Clape.SfsLeaks

namespace Clape
set_option autoImplicit true

namespace Sfs
namespace Volume
variable {v v' v'' : Volume}

/-- A file has got blocks, which read as the holes did that they fill. -/
structure Grown (sv : UInt32) (v v' : Volume) : Prop where
  touch : Touch sv v v'
  sane : v'.Sane
  works : v'.dev = []
  cached : v'.Cached sv
  size : (v'.inode sv).size = (v.inode sv).size
  data : ∀ fb, v'.data sv fb = v.data sv fb
  marks : ∀ b, v.freemap.v b = true → v'.freemap.v b = true
  old : ∀ fb, v.blockOf sv fb ≠ 0 → v'.blockOf sv fb = v.blockOf sv fb
  new : ∀ fb, v'.blockOf sv fb ≠ v.blockOf sv fb → v'.blockOf sv fb < v.nblocks ∧
    v.freemap.v (v'.blockOf sv fb) = false

theorem Grown.refl (h : v.Sane) (hc : v.Cached sv) (hw : v.dev = []) : Grown sv v v where
  touch := .refl sv v
  sane := h
  works := hw
  cached := hc
  size := rfl
  data _ := rfl
  marks _ := id
  old _ _ := rfl
  new _ hne := absurd rfl hne

theorem Grown.trans (h : Grown sv v v') (h' : Grown sv v' v'') : Grown sv v v'' where
  touch := h.touch.trans h'.touch
  sane := h'.sane
  works := h'.works
  cached := h'.cached
  size := h'.size.trans h.size
  data fb := (h'.data fb).trans (h.data fb)
  marks b hb := h'.marks b (h.marks b hb)
  old fb hfb := by
    have hold := h.old fb hfb
    rw [h'.old fb (by rw [hold]; exact hfb), hold]
  new fb hfb := by
    by_cases hmid : v''.blockOf sv fb = v'.blockOf sv fb
    · rw [hmid] at hfb ⊢
      exact h.new fb hfb
    · have hnew := h'.new fb hmid
      rw [h.touch.nblocks] at hnew
      refine ⟨hnew.1, ?_⟩
      by_contra hmark
      rw [Bool.not_eq_false] at hmark
      rw [h.marks _ hmark] at hnew
      exact Bool.noConfusion hnew.2

theorem Sane.unplaced (h : v.Sane) (hb : v.NextFree b) (r : Role) : v.place r ≠ some b := by
  intro hr
  have hm := (h.owned.marked_of hr).2
  rw [hb.free] at hm
  cases hm

theorem Sane.super_marked (h : v.Sane) : v.freemap.v superBlock = true :=
  (h.owned.marked_of (r := .super) rfl).2

theorem Sane.fresh_ne_zero (h : v.Sane) (hb : v.NextFree b) : b ≠ 0 := (hb.ne h.super_marked).symm

theorem Sane.fresh_ne_inode (h : v.Sane) (hb : v.NextFree b) (hc : v.Cached sv) : b ≠ sv := by
  intro hsv
  apply h.unplaced hb (.file sv .inode)
  rw [place_file hc.live, hsv]
  rfl

theorem Sane.fresh_ne_block (h : v.Sane) (hb : v.NextFree b) (hc : v.Cached sv) (hfb : v.blockOf sv fb ≠ 0) :
    v.blockOf sv fb ≠ b := by
  obtain ⟨p, -, hp⟩ := blockOf_place hfb
  intro hbb
  apply h.unplaced hb (.file sv p)
  rw [place_file hc.live, hp, hbb]

theorem Sane.fresh_ne_indirect (h : v.Sane) (hb : v.NextFree b) (hc : v.Cached sv)
    (hi : (v.inode sv).indirect ≠ 0) : (v.inode sv).indirect ≠ b := by
  intro hbb
  apply h.unplaced hb (.file sv .indirect)
  rw [place_file hc.live, ← hbb]
  exact pointer_ne hi

theorem Sane.allocates (h : v.Sane) : v.Allocates := h.mapped.allocates h.device

theorem allocated_touch (h : v.Sane) (hc : v.Cached sv) (hw : v.dev = []) (hb : v.NextFree b) :
    Touch sv v (v.allocated b) := by
  have hset : Touch sv v (v.setBit b true) := .setBit hb.volume
  rw [allocated_working hw]
  apply hset.trans
  apply Touch.put (v := v.setBit b true) hc (h.fresh_ne_inode hb hc)
  · intro j _ _ p
    exact h.unplaced hb (.file j p)
  · intro _ fb
    have hput : SameFile (v.setBit b true) ((v.setBit b true).put b (.ofBuf zeros)) sv :=
      .put (v := v.setBit b true) hc.live fun p => h.unplaced hb (.file sv p)
    exact hput.data fb

theorem data_grown (hb : b ≠ 0) (hold : v.blockOf sv k = 0)
    (hnew : ∀ fb, v'.blockOf sv fb = if fb = k then b else v.blockOf sv fb) (hclear : v'.disk b = .ofBuf zeros)
    (hdisk : ∀ fb, v.blockOf sv fb ≠ 0 → v'.disk (v.blockOf sv fb) = v.disk (v.blockOf sv fb)) (fb : Nat) :
    v'.data sv fb = v.data sv fb := by
  unfold data
  rw [hnew]
  by_cases hfb : fb = k
  · rw [if_pos hfb, hfb, hold, content_ne hb, hclear, Sector.bytes_zeros, content_zero]
  · rw [if_neg hfb]
    unfold content
    split
    · rfl
    · rename_i hne
      rw [hdisk fb hne]

theorem dev_allocated (hw : v.dev = []) : (v.allocated b).dev = [] := by
  unfold allocated
  rw [written_dev]
  show v.dev.drop 1 = []
  rw [hw, List.drop_nil]

/-- A block for a place of the file that has none. -/
theorem Grown.of (h : v.Sane) (hc : v.Cached sv) (hb : v.NextFree b) (ht : Touch sv v v') (hw : v'.dev = [])
    (hfree : v'.freemap.v = Function.update v.freemap.v b true)
    (hp : ∀ q : Place, q.block sv (v'.inode sv) (v'.ids sv) =
      if q = p then some b else q.block sv (v.inode sv) (v.ids sv))
    (hs : (v'.inode sv).size = (v.inode sv).size) (hd : ∀ fb, v'.data sv fb = v.data sv fb)
    (hnew : ∀ fb, v'.blockOf sv fb = v.blockOf sv fb ∨ v.blockOf sv fb = 0 ∧ v'.blockOf sv fb = b) :
    Grown sv v v' where
  touch := ht
  sane := by
    apply ht.sane h
    apply ht.owned_alloc h.owned hc.live hb.volume hb.free hp
    intro c _
    rw [hfree, Function.update_apply]
  works := hw
  cached := (ht.cached sv).2 hc
  size := hs
  data := hd
  marks c hm := by
    rw [hfree, Function.update_apply, hm]
    split <;> rfl
  old fb hfb := by
    rcases hnew fb with hsame | ⟨h0, -⟩
    · exact hsame
    · exact absurd h0 hfb
  new fb hfb := by
    rcases hnew fb with hsame | ⟨-, hb'⟩
    · exact absurd hsame hfb
    · rw [hb']
      exact ⟨hb.volume, hb.free⟩

theorem Grown.newDirect (h : v.Sane) (hc : v.Cached sv) (hw : v.dev = []) (hb : v.NextFree b)
    (h0 : (v.inode sv).direct k = 0) : Grown sv v (v.newDirect sv k b) := by
  have hc' : (v.allocated b).Cached sv := (cached_congr vnodes_allocated).2 hc
  have hi := inode_newDirect (k := k) (b := b) hc
  have hind : (v.inode sv).indirect ≠ b ∨ (v.inode sv).indirect = 0 := by
    by_cases hz : (v.inode sv).indirect = 0
    · exact .inr hz
    · exact .inl (h.fresh_ne_indirect hb hc hz)
  have hblock : ∀ fb, (v.newDirect sv k b).blockOf sv fb = if fb = k then b else v.blockOf sv fb :=
    fun fb => blockOf_newDirect hc hind
  have hdata : ∀ fb, (v.newDirect sv k b).data sv fb = v.data sv fb := by
    apply data_grown (h.fresh_ne_zero hb) (by rw [blockOf_direct, h0]) hblock
    · show (v.allocated b).disk b = _
      rw [disk_allocated (failures_working hw), Function.update_self]
    · intro fb hfb
      exact disk_allocated_ne (h.fresh_ne_block hb hc hfb)
  have ht := allocated_touch h hc hw hb
  have htouch : Touch sv v (v.newDirect sv k b) := by
    apply ht.trans
    apply Touch.edit hc'
    · rfl
    · rfl
    · intro hroot
      refine ⟨rfl, fun fb => ?_⟩
      rw [(ht.root hroot).2]
      exact hdata fb
  apply Grown.of (p := .direct k) h hc hb htouch (dev_allocated hw) freemap_allocated
  · intro q
    rw [hi, ids_newDirect hc hind]
    cases q with
    | inode => rfl
    | indirect => rfl
    | mapped j => rfl
    | direct j =>
      show pointer (Function.update (v.inode sv).direct k b j) = _
      rw [Function.update_apply]
      by_cases hj : j = k
      · rw [if_pos hj, if_pos (congrArg _ hj), pointer_ne (h.fresh_ne_zero hb)]
      · rw [if_neg hj, if_neg fun he => hj (Place.direct.inj he)]
        rfl
  · rw [hi]
    rfl
  · exact hdata
  · intro fb
    rw [hblock]
    by_cases hfb : fb = k
    · rw [if_pos hfb]
      exact .inr ⟨by rw [hfb, blockOf_direct, h0], rfl⟩
    · rw [if_neg hfb]
      exact .inl rfl

theorem Grown.newIndirect (h : v.Sane) (hc : v.Cached sv) (hw : v.dev = []) (hB : v.NextFree B)
    (h0 : (v.inode sv).indirect = 0) : Grown sv v (v.newIndirect sv B) := by
  have hc' : (v.allocated B).Cached sv := (cached_congr vnodes_allocated).2 hc
  have hB0 := h.fresh_ne_zero hB
  have hi := inode_newIndirect (B := B) hc
  have hids := ids_newIndirect_working hc (failures_working hw) hB0
  have hblock : ∀ fb, (v.newIndirect sv B).blockOf sv fb = v.blockOf sv fb :=
    fun fb => newIndirect_blockOf hc (failures_working hw) hB0 h0
  have hdata : ∀ fb, (v.newIndirect sv B).data sv fb = v.data sv fb := by
    intro fb
    unfold Volume.data
    rw [hblock]
    unfold content
    split
    · rfl
    · rename_i hfb
      have hdisk : (v.newIndirect sv B).disk (v.blockOf sv fb) = v.disk (v.blockOf sv fb) :=
        disk_allocated_ne (h.fresh_ne_block hB hc hfb)
      rw [hdisk]
  have ht := allocated_touch h hc hw hB
  have htouch : Touch sv v (v.newIndirect sv B) := by
    apply ht.trans
    apply Touch.edit hc'
    · rfl
    · rfl
    · intro hroot
      refine ⟨rfl, fun fb => ?_⟩
      rw [(ht.root hroot).2]
      exact hdata fb
  apply Grown.of (p := .indirect) h hc hB htouch (dev_allocated hw) freemap_allocated
  · intro q
    rw [hi, hids, ids_zero h0]
    cases q with
    | inode => rfl
    | direct j => rfl
    | mapped j => rfl
    | indirect => exact pointer_ne hB0
  · rw [hi]
  · exact hdata
  · intro fb
    exact .inl (hblock fb)

theorem Grown.newEntry (h : v.Sane) (hc : v.Cached sv) (hw : v.dev = []) (hb : v.NextFree b)
    (hi : (v.inode sv).indirect ≠ 0) (h0 : v.ids sv k = 0) : Grown sv v (v.newEntry sv k b) := by
  have hc' : (v.allocated b).Cached sv := (cached_congr vnodes_allocated).2 hc
  have hl := hc.live
  have hb0 := h.fresh_ne_zero hb
  have hne := h.fresh_ne_indirect hb hc hi
  have hplace : v.place (.file sv .indirect) = some (v.inode sv).indirect := by
    rw [place_file hl]
    exact pointer_ne hi
  have hinode : (v.newEntry sv k b).inode sv = v.inode sv := inode_newEntry hc
  have hids := ids_newEntry (k := k) (b := b) hc hw hi
  have hblock : ∀ fb, (v.newEntry sv k b).blockOf sv fb = if fb = ndirect + k then b else v.blockOf sv fb :=
    fun fb => blockOf_newEntry hc hw hi
  -- the indirect block is none of the blocks mapped
  have hapart : ∀ fb, v.blockOf sv fb ≠ 0 → v.blockOf sv fb ≠ (v.inode sv).indirect := by
    intro fb hfb
    obtain ⟨p, hp, hpb⟩ := blockOf_place hfb
    have hpl : v.place (.file sv p) = some (v.blockOf sv fb) := by
      rw [place_file hl, hpb]
    apply h.owned.ne hpl hplace
    rintro ⟨⟩
    unfold placeOf at hp
    split at hp
    · cases hp
    · split at hp <;> cases hp
  have hdisk : ∀ c, c ≠ b → c ≠ (v.inode sv).indirect → (v.newEntry sv k b).disk c = v.disk c := by
    intro c hcb hci
    rw [newEntry_working hw]
    exact (Function.update_of_ne hci ..).trans (Function.update_of_ne hcb ..)
  have hdata : ∀ fb, (v.newEntry sv k b).data sv fb = v.data sv fb := by
    apply data_grown hb0 (by rw [blockOf_mapped, h0]) hblock (disk_newEntry hw hne)
    intro fb hfb
    exact hdisk _ (h.fresh_ne_block hb hc hfb) (hapart fb hfb)
  have ht := allocated_touch h hc hw hb
  have htouch : Touch sv v (v.newEntry sv k b) := by
    apply ht.trans
    unfold Volume.newEntry
    rw [written_working (dev_allocated hw)]
    apply Touch.put hc'
    · have hino : v.place (.file sv .inode) = some sv := by
        rw [place_file hl]
        rfl
      exact h.owned.ne hplace hino (by rintro ⟨⟩)
    · intro j hj hjne p
      rw [ht.place _ fun q hq => hjne (Role.file.inj hq).1]
      intro hp
      exact hjne (Role.file.inj (h.owned.inj hp hplace)).1
    · intro hroot fb
      rw [(ht.root hroot).2]
      have hfb := hdata fb
      unfold Volume.newEntry at hfb
      rw [written_working (dev_allocated hw)] at hfb
      exact hfb
  have hdev : (v.newEntry sv k b).dev = [] := by
    unfold Volume.newEntry
    rw [written_dev, dev_allocated hw, List.drop_nil]
  apply Grown.of (p := .mapped k) h hc hb htouch hdev freemap_newEntry
  · intro q
    rw [hinode, hids]
    cases q with
    | inode => rfl
    | direct j => rfl
    | indirect => rfl
    | mapped j =>
      show pointer (Function.update (v.ids sv) k b j) = _
      rw [Function.update_apply]
      by_cases hj : j = k
      · rw [if_pos hj, if_pos (congrArg _ hj), pointer_ne hb0]
      · rw [if_neg hj, if_neg fun he => hj (Place.mapped.inj he)]
        rfl
  · rw [hinode]
  · exact hdata
  · intro fb
    rw [hblock]
    by_cases hfb : fb = ndirect + k
    · rw [if_pos hfb]
      exact .inr ⟨by rw [hfb, blockOf_mapped, h0], rfl⟩
    · rw [if_neg hfb]
      exact .inl rfl

theorem Sane.indirect_marked (h : v.Sane) (hc : v.Cached sv) (hi : (v.inode sv).indirect ≠ 0) :
    v.Marked (v.inode sv).indirect := by
  apply h.owned.marked_of (r := .file sv .indirect)
  rw [place_file hc.live]
  exact pointer_ne hi

theorem Sane.maps (h : v.Sane) (hc : v.Cached sv) : v.Maps sv fb where
  first := h.allocates
  second B hB := by
    have hm : (v.setBit B true).Mapped := by
      refine ⟨h.mapped.nbits, h.mapped.bound, ?_⟩
      intro b hle hlt
      have hbB : b ≠ B := by
        intro hb
        rw [hb] at hle
        exact absurd hB.volume (UInt32.not_lt.2 hle)
      exact (Function.update_of_ne hbB ..).trans (h.mapped.tail b hle hlt)
    exact hm.allocates h.device
  block hfb := by
    obtain ⟨p, -, hp⟩ := blockOf_place hfb
    exact h.owned.marked_of (r := .file sv p) ((place_file hc.live).trans hp)
  indirect _ hi := by
    exact UInt32.lt_of_lt_of_le (h.indirect_marked hc hi).1 h.device

theorem Sane.later (h : v.Sane) (hc : v.Cached sv) (hw : v.dev = []) : Later sv v v where
  works := hw
  cached := hc
  inode := rfl
  ids := rfl
  super := h.super_marked
  indirect hi := (h.indirect_marked hc hi).2

theorem Bmapped.grown (hrun : v.Bmapped sv fb doalloc r v') (h : v.Sane) (hc : v.Cached sv) (hw : v.dev = []) :
    Grown sv v v' := by
  have hrefl := Grown.refl h hc hw
  cases hrun with
  | direct | directFull | tooBig | hole | indirectFull => exact hrefl
  | directNew k h0 hb => exact .newDirect h hc hw hb h0
  | indirectOnly k hi hB hf => exact .newIndirect h hc hw hB hi
  | indirectNew k hi hB hb =>
    rename_i B b
    have hB0 := h.fresh_ne_zero hB
    have hone := Grown.newIndirect h hc hw hB hi
    rw [indirectNew_eq hc hw hB0]
    refine hone.trans (.newEntry hone.sane hone.cached hone.works (sameFree_newIndirect.nextFree.2 hb) ?_ ?_)
    · rw [inode_newIndirect hc]
      exact hB0
    · rw [ids_newIndirect_working hc (failures_working hw) hB0]
  | unreadable | mapped | mappedFull =>
    rw [skip_working hw]
    exact hrefl
  | mappedNew k hi h0 hb =>
    rw [skip_working hw]
    exact .newEntry h hc hw hb hi h0

end Volume

open Call Volume

/-- `sfs_bmap` on a sane volume and a device that works. -/
theorem bmap_grown {v : Volume} (h : v.Sane) (hc : v.Cached sv) (hw : v.dev = []) :
    Ends False (bmap sv fb doalloc)
      (fun d v' => Grown sv v v' ∧ v'.blockOf sv fb = d ∧ (doalloc = true → d ≠ 0) ∧ (doalloc = false → v' = v))
      (fun e v' => Grown sv v v' ∧ (e = .enospc ∧ doalloc = true ∧ v'.freeBit = none ∨ e = .efbig ∧ maxblocks ≤ fb)) v := by
  apply (bmap_ends hc fun hm => hm (h.maps hc)).mono
  · intro d v' hrun
    refine ⟨hrun.grown h hc hw, ?_⟩
    have hm := hrun.mapsTo (h.later hc hw)
    refine ⟨hm.block, ?_, ?_⟩
    · intro hd h0
      by_cases hold : v.blockOf sv fb = 0
      · exact (hm.new hold hd).1 h0
      · exact hold ((hm.old (.inl hold)).symm.trans h0)
    · rintro rfl
      cases hrun with
      | direct | hole => rfl
      | mapped => exact skip_working hw _
  · intro e v' hrun
    refine ⟨hrun.grown h hc hw, ?_⟩
    have hf := failures_working hw
    cases hrun with
    | directFull k h0 hf | indirectFull k h0 hf | mappedFull k hi h0 hf => exact .inl ⟨rfl, rfl, hf⟩
    | tooBig hbig => exact .inr ⟨rfl, hbig⟩
    | indirectOnly k hi hB hf => exact .inl ⟨rfl, rfl, (freeBit_congr sameFree_newIndirect.freemap).trans hf⟩
    | unreadable k hi hfail => omega

end Sfs
end Clape
