import Clape.SfsIo

namespace Clape
set_option autoImplicit true

namespace Sfs
open Call

theorem readAt_zero (m : Nat → β) : readAt m 0 = m := by
  funext o
  exact congrArg m (Nat.zero_add o)

/-- A transfer of one sector of the device. -/
structure OneSector (s : IoState) (b : UInt32) : Prop where
  resid : s.uio.resid = blocksize
  aligned : s.uio.offset % blocksize = 0
  sector : UInt32.ofNat (s.uio.offset / blocksize) = b
  room : blocksize ≤ (addrs s.uio.iov).length

/-- The state after the sector has passed through the `uio`. -/
def IoState.passed (s : IoState) (v : Volume) (iov : List Iovec) (mem : Nat → UInt8) : IoState :=
  ⟨v, ⟨iov, s.uio.offset + blocksize, 0, s.uio.write⟩, mem⟩

theorem succ_le_of_lt {a b : UInt32} (h : a < b) : a + 1 ≤ b := by
  rw [UInt32.lt_iff_toNat_lt] at h
  have hb := b.toNat_lt
  rw [UInt32.le_iff_toNat_le, UInt32.toNat_add]
  show (a.toNat + 1) % 2 ^ 32 ≤ b.toNat
  omega

theorem move_spec (buf : Buf) (ptr : Nat) {s : IoState} (hn : n ≤ s.uio.resid) (hr : s.uio.resid < 4294967296)
    (hl : n ≤ (addrs s.uio.iov).length) :
    ∃ iov' buf' mem', move buf ptr n s =
        .ok (.ok buf', ⟨s.vol, ⟨iov', s.uio.offset + n, s.uio.resid - n, s.uio.write⟩, mem'⟩) ∧
      addrs iov' = (addrs s.uio.iov).drop n ∧ Moved s.uio.write (addrs s.uio.iov) ptr n buf s.mem buf' mem' := by
  obtain ⟨iov', buf', mem', hm, hrest⟩ := uiomove_spec buf ptr s.mem hn hr hl
  refine ⟨iov', buf', mem', ?_, hrest⟩
  unfold move
  rw [hm]

theorem lhdIo_one {s : IoState} (h : OneSector s b) :
    lhdIo s = if s.vol.dblocks < b + 1 then .ok (.error .einval, s) else lhdSector b s := by
  have hlen : s.uio.resid / blocksize = 1 := by
    rw [h.resid]
    rfl
  have hguard : ¬ (s.uio.offset % blocksize ≠ 0 ∨ s.uio.resid % blocksize ≠ 0) := by
    rw [h.aligned, h.resid]
    simp
  show (if _ then _ else if _ then _ else _ : Io Unit) s = _
  rw [if_neg hguard, h.sector, hlen]
  by_cases hsum : s.vol.dblocks < b + 1
  · rw [if_pos hsum]
    exact congrFun (if_pos hsum) s
  · rw [if_neg hsum]
    have hzero : b + UInt32.ofNat 0 = b := UInt32.add_zero b
    refine (congrFun (if_neg hsum) s).trans ?_
    show (lhdSector (b + UInt32.ofNat 0) >>= fun _ => pure ()) s = _
    rw [hzero]
    exact bind_unit _ s

theorem lhdIo_sector {s : IoState} (h : OneSector s b) (hb : b < s.vol.dblocks) : lhdIo s = lhdSector b s := by
  rw [lhdIo_one h, if_neg (UInt32.not_lt.2 (succ_le_of_lt hb))]

namespace Volume

/-- The number of media errors before the next operation that succeeds. -/
def failures (v : Volume) : Nat := (v.dev.takeWhile (· == .mediaError)).length

/-- The volume after some operations of the device that change no block. -/
def skip (v : Volume) (n : Nat) : Volume := { v with dev := v.dev.drop n }

/-- The volume after `sfs_writeblock` returned. -/
def written (v : Volume) (b : UInt32) (data : Buf) : Volume :=
  if v.failures = 0 then (v.skip 1).put b (.ofBuf data) else v.skip 1

theorem skip_skip (v : Volume) (m n : Nat) : (v.skip m).skip n = v.skip (m + n) := by
  unfold skip
  rw [List.drop_drop]

theorem failures_skip {v : Volume} (h : v.failures ≠ 0) : (v.skip 1).failures + 1 = v.failures := by
  unfold failures skip at *
  cases hd : v.dev with
  | nil =>
    rw [hd] at h
    exact absurd rfl h
  | cons o l =>
    rw [hd] at h
    cases o with
    | done => exact absurd rfl h
    | mediaError => rfl

end Volume

theorem operate_eq {v : Volume} (h : b < v.dblocks) (f : Volume → Volume) :
    operate b f v = .ok (if v.failures = 0 then .ok () else .error .eio,
      if v.failures = 0 then f (v.skip 1) else v.skip 1) := by
  have hbound : ¬ v.dblocks ≤ b := UInt32.not_le.2 h
  show (if v.dblocks ≤ b then _ else _ : Sfs Unit) v = _
  rw [if_neg hbound]
  unfold Volume.failures Volume.skip
  cases hd : v.dev with
  | nil => rfl
  | cons o l => cases o <;> rfl

theorem lhdIo_write {s : IoState} (h : OneSector s b) (hb : b < s.vol.dblocks) (hw : s.uio.write = true) :
    ∃ iov, addrs iov = (addrs s.uio.iov).drop blocksize ∧
      lhdIo s = .ok (if s.vol.failures = 0 then .ok () else .error .eio,
        s.passed (s.vol.written b (gather s.mem (addrs s.uio.iov))) iov s.mem) := by
  have hr : blocksize ≤ s.uio.resid := Nat.le_of_eq h.resid.symm
  obtain ⟨iov, buf, mem, hm, ha, hmoved⟩ := move_spec zeros 0 hr (by rw [h.resid]; decide) h.room
  obtain ⟨hbuf, hmem⟩ := hmoved.put hw
  refine ⟨iov, ha, ?_⟩
  have hdata : Sector.ofBuf buf = .ofBuf (gather s.mem (addrs s.uio.iov)) := by
    apply Sector.ofBuf_congr
    rw [hbuf, ← readAt_zero (writeAt _ _ _ _)]
    exact readAt_writeAt _ _ _ _
  rw [h.resid, Nat.sub_self] at hm
  rw [lhdIo_sector h hb]
  show (if s.uio.write = true then _ else _ : Io Unit) s = _
  rw [if_pos hw]
  show andThen (move zeros 0 blocksize) _ s = _
  unfold andThen
  rw [hm]
  show onVolume (operate b fun v => v.put b (.ofBuf buf)) _ = _
  unfold onVolume
  rw [operate_eq hb, hdata, hmem]
  rfl

theorem lhdIo_read {s : IoState} (h : OneSector s b) (hb : b < s.vol.dblocks) (hw : s.uio.write = false) :
    ∃ iov, addrs iov = (addrs s.uio.iov).drop blocksize ∧
      lhdIo s = if s.vol.failures = 0 then
          .ok (.ok (), s.passed (s.vol.skip 1) iov
            (scatter (s.vol.disk b).bytes 0 ((addrs s.uio.iov).take blocksize) s.mem))
        else .ok (.error .eio, { s with vol := s.vol.skip 1 }) := by
  have hr : blocksize ≤ s.uio.resid := Nat.le_of_eq h.resid.symm
  obtain ⟨iov, buf, mem, hm, ha, hmoved⟩ := move_spec (s := { s with vol := s.vol.skip 1 })
    (s.vol.disk b).bytes 0 hr (by rw [h.resid]; decide) h.room
  obtain ⟨hmem, -⟩ := hmoved.get hw
  rw [readAt_zero] at hmem
  refine ⟨iov, ha, ?_⟩
  rw [lhdIo_sector h hb]
  show (if s.uio.write = true then _ else _ : Io Unit) s = _
  rw [if_neg (by rw [hw]; exact Bool.noConfusion)]
  show andThen (onVolume (operate b id)) _ s = _
  unfold andThen onVolume
  rw [operate_eq hb]
  by_cases hf : s.vol.failures = 0
  · simp only [if_pos hf]
    show andThen (move (s.vol.disk b).bytes 0 blocksize) _ { s with vol := s.vol.skip 1 } = _
    unfold andThen
    rw [hm, h.resid, hmem]
    rfl
  · simp only [if_neg hf]

theorem lhdIo_nothing {t : IoState} (hr : t.uio.resid = 0) (ha : t.uio.offset % blocksize = 0)
    (hb : UInt32.ofNat (t.uio.offset / blocksize) ≤ t.vol.dblocks) : lhdIo t = .ok (.ok (), t) := by
  have hguard : ¬ (t.uio.offset % blocksize ≠ 0 ∨ t.uio.resid % blocksize ≠ 0) := by
    rw [ha, hr]
    simp
  have hsector : UInt32.ofNat (t.uio.offset / blocksize) + UInt32.ofNat 0 =
      UInt32.ofNat (t.uio.offset / blocksize) := UInt32.add_zero _
  show (if _ then _ else if _ then _ else _ : Io Unit) t = _
  rw [if_neg hguard, hr, Nat.zero_div, hsector, if_neg (UInt32.not_lt.2 hb)]
  rfl

/-- A second attempt to write finds nothing left to transfer. -/
theorem lhdIo_passed {s : IoState} (h : OneSector s b) (hb : b < s.vol.dblocks) (hv : v.dblocks = s.vol.dblocks) :
    lhdIo (s.passed v iov mem) = .ok (.ok (), s.passed v iov mem) := by
  have hal := h.aligned
  apply lhdIo_nothing
  · rfl
  · exact (Nat.add_mod_right ..).trans hal
  · have hsector : UInt32.ofNat ((s.uio.offset + blocksize) / blocksize) = b + 1 := by
      rw [Nat.add_div_right _ (by decide), ← h.sector]
      exact UInt32.ofNat_add ..
    show UInt32.ofNat ((s.uio.offset + blocksize) / blocksize) ≤ v.dblocks
    rw [hsector, hv]
    exact succ_le_of_lt hb

theorem attempt_ok (h : lhdIo s = .ok (.ok (), t)) (again : Io Unit) : attempt again s = .ok (.ok (), t) := by
  show andThen (result lhdIo) _ s = _
  unfold andThen result
  rw [h]
  rfl

theorem attempt_eio (h : lhdIo s = .ok (.error .eio, t)) (again : Io Unit) : attempt again s = again t := by
  show andThen (result lhdIo) _ s = _
  unfold andThen result
  rw [h]

/-- `sfs_rwblock` reports success for every write. -/
theorem rwblock_write {s : IoState} (h : OneSector s b) (hb : b < s.vol.dblocks) (hw : s.uio.write = true) (tries : Nat) :
    ∃ iov, addrs iov = (addrs s.uio.iov).drop blocksize ∧
      rwblock (tries + 1) s = .ok (.ok (), s.passed (s.vol.written b (gather s.mem (addrs s.uio.iov))) iov s.mem) := by
  obtain ⟨iov, ha, hio⟩ := lhdIo_write h hb hw
  refine ⟨iov, ha, ?_⟩
  by_cases hf : s.vol.failures = 0
  · rw [if_pos hf] at hio
    exact attempt_ok hio _
  · rw [if_neg hf] at hio
    refine (attempt_eio hio _).trans ?_
    have hv : (s.vol.written b (gather s.mem (addrs s.uio.iov))).dblocks = s.vol.dblocks := by
      rw [Volume.written, if_neg hf]
      rfl
    cases tries with
    | zero => exact attempt_ok (lhdIo_passed h hb hv) _
    | succ n => exact attempt_ok (lhdIo_passed h hb hv) _

/-- `sfs_rwblock` reads the block if one of its attempts succeeds. -/
theorem rwblock_read {s : IoState} (h : OneSector s b) (hb : b < s.vol.dblocks) (hw : s.uio.write = false) (tries : Nat) :
    ∃ iov, addrs iov = (addrs s.uio.iov).drop blocksize ∧
      rwblock tries s = if s.vol.failures ≤ tries then
          .ok (.ok (), s.passed (s.vol.skip (s.vol.failures + 1)) iov
            (scatter (s.vol.disk b).bytes 0 ((addrs s.uio.iov).take blocksize) s.mem))
        else .ok (.error .eio, { s with vol := s.vol.skip (tries + 1) }) := by
  induction tries generalizing s with
  | zero =>
    obtain ⟨iov, ha, hio⟩ := lhdIo_read h hb hw
    refine ⟨iov, ha, ?_⟩
    by_cases hf : s.vol.failures = 0
    · rw [if_pos hf] at hio
      rw [if_pos (Nat.le_of_eq hf), hf]
      exact attempt_ok hio _
    · rw [if_neg hf] at hio
      rw [if_neg (by omega)]
      exact attempt_eio hio _
  | succ tries ih =>
    obtain ⟨iov, ha, hio⟩ := lhdIo_read h hb hw
    by_cases hf : s.vol.failures = 0
    · rw [if_pos hf] at hio
      refine ⟨iov, ha, ?_⟩
      rw [if_pos (by omega), hf]
      exact attempt_ok hio _
    · -- the next attempt has one failure less before it
      rw [if_neg hf] at hio
      have hskip := Volume.failures_skip hf
      obtain ⟨iov, ha, hrest⟩ := ih (s := { s with vol := s.vol.skip 1 })
        ⟨h.resid, h.aligned, h.sector, h.room⟩ hb hw
      refine ⟨iov, ha, ?_⟩
      refine (attempt_eio hio _).trans ?_
      refine hrest.trans ?_
      simp only [Volume.skip_skip]
      by_cases hle : (s.vol.skip 1).failures ≤ tries
      · rw [if_pos hle, if_pos (by omega), Nat.add_comm 1, hskip]
        rfl
      · rw [if_neg hle, if_neg (by omega), Nat.add_comm 1]

theorem oneSector_kernel (v : Volume) (b : UInt32) (write : Bool) (data : Buf) :
    OneSector ⟨v, ⟨[⟨0, blocksize⟩], b.toNat * blocksize, blocksize, write⟩, data⟩ b where
  resid := rfl
  aligned := Nat.mul_mod_left ..
  sector := by
    show UInt32.ofNat (b.toNat * blocksize / blocksize) = b
    rw [Nat.mul_div_cancel _ (by decide)]
    exact UInt32.ofNat_toNat
  room := by simp [addrs]

theorem gather_kernel (mem : Nat → UInt8) (n : Nat) : SameBytes n (gather mem (addrs [⟨0, n⟩])) mem := by
  intro o ho
  rw [addrs_cons, gather_range ho, Nat.zero_add]

theorem scatter_kernel (f mem : Nat → UInt8) (n : Nat) :
    scatter f 0 ((addrs [⟨0, n⟩]).take n) mem = writeAt mem 0 n f := by
  have htake : (addrs [⟨0, n⟩]).take n = (List.range n).map fun o => 0 + o := by
    rw [addrs_cons, List.take_append_of_le_length (by simp)]
    apply List.take_of_length_le
    simp
  rw [htake, scatter_range]

theorem writeblock_eq {v : Volume} (h : b < v.dblocks) (data : Buf) :
    writeblock b data v = .ok (.ok (), v.written b data) := by
  obtain ⟨iov, -, hrw⟩ := rwblock_write (oneSector_kernel v b true data) h rfl 9
  have hwritten : v.written b (gather data (addrs [⟨0, blocksize⟩])) = v.written b data := by
    unfold Volume.written
    rw [Sector.ofBuf_congr (gather_kernel data blocksize)]
  show andThen (kernelIo b true data) _ v = _
  unfold andThen kernelIo
  rw [hrw, hwritten]
  rfl

theorem writeAt_bytes (x : Sector) : writeAt zeros 0 blocksize x.bytes = x.bytes := by
  funext o
  unfold writeAt
  by_cases ho : o < blocksize
  · rw [if_pos ⟨Nat.zero_le _, by omega⟩, Nat.sub_zero]
  · rw [if_neg (by omega), Sector.bytes, dif_neg ho]
    rfl

theorem readblock_eq {v : Volume} (h : b < v.dblocks) :
    readblock b v = if v.failures ≤ 10 then .ok (.ok (v.disk b).bytes, v.skip (v.failures + 1))
      else .ok (.error .eio, v.skip 11) := by
  obtain ⟨iov, -, hrw⟩ := rwblock_read (oneSector_kernel v b false zeros) h rfl 10
  have hmem : scatter (v.disk b).bytes 0 ((addrs [⟨0, blocksize⟩]).take blocksize) zeros = (v.disk b).bytes := by
    rw [scatter_kernel, writeAt_bytes]
  rw [hmem] at hrw
  show kernelIo b false zeros v = _
  unfold kernelIo
  rw [hrw]
  by_cases hf : v.failures ≤ 10
  · rw [if_pos hf, if_pos hf]
    rfl
  · rw [if_neg hf, if_neg hf]

/-- The device has no such sector. -/
theorem lhdIo_range {s : IoState} (h : OneSector s b) (hb : s.vol.dblocks ≤ b) :
    ∃ t, lhdIo s = .ok (.error .einval, t) := by
  rw [lhdIo_one h]
  by_cases hsum : s.vol.dblocks < b + 1
  · rw [if_pos hsum]
    exact ⟨s, rfl⟩
  · -- the sum has overflowed, and the device reports the error
    rw [if_neg hsum]
    have hop : ∀ f, operate b f s.vol = .ok (.error .einval, s.vol) := by
      intro f
      show (if s.vol.dblocks ≤ b then _ else _ : Sfs Unit) s.vol = _
      rw [if_pos hb]
      rfl
    show ∃ t, (if s.uio.write = true then _ else _ : Io Unit) s = _
    cases hw : s.uio.write with
    | false =>
      refine ⟨s, ?_⟩
      show andThen (onVolume (operate b id)) _ s = _
      unfold andThen onVolume
      rw [hop]
    | true =>
      have hr : blocksize ≤ s.uio.resid := Nat.le_of_eq h.resid.symm
      obtain ⟨iov, buf, mem, hm, -⟩ := move_spec zeros 0 hr (by rw [h.resid]; decide) h.room
      rw [if_pos rfl]
      show ∃ t, andThen (move zeros 0 blocksize) _ s = _
      unfold andThen
      rw [hm]
      show ∃ t, onVolume (operate b fun v => v.put b (.ofBuf buf)) _ = _
      unfold onVolume
      rw [hop]
      exact ⟨_, rfl⟩

theorem rwblock_range {s : IoState} (h : OneSector s b) (hb : s.vol.dblocks ≤ b) (tries : Nat) :
    rwblock tries s = .error .devopEinval := by
  obtain ⟨t, ht⟩ := lhdIo_range h hb
  have hat : ∀ again, attempt again s = .error .devopEinval := by
    intro again
    show andThen (result lhdIo) _ s = _
    unfold andThen result
    rw [ht]
    rfl
  cases tries with
  | zero => exact hat _
  | succ n => exact hat _

theorem writeblock_range {v : Volume} (h : v.dblocks ≤ b) (data : Buf) :
    writeblock b data v = .error .devopEinval := by
  show andThen (kernelIo b true data) _ v = _
  unfold andThen kernelIo
  rw [rwblock_range (oneSector_kernel v b true data) h]

theorem readblock_range {v : Volume} (h : v.dblocks ≤ b) : readblock b v = .error .devopEinval := by
  show kernelIo b false zeros v = _
  unfold kernelIo
  rw [rwblock_range (oneSector_kernel v b false zeros) h]

/-- `sfs_bmap` has given `sfs_blockio` a block, and the buffers have room for it. -/
structure BlockTransfer (sv : UInt32) (s : IoState) (d : UInt32) (v : Volume) : Prop where
  mapped : bmap sv (s.uio.offset / blocksize % 2 ^ 32) s.uio.write s.vol = .ok (.ok d, v)
  block : d ≠ 0
  whole : blocksize ≤ s.uio.resid
  bound : s.uio.resid < 4294967296
  room : s.uio.resid ≤ (addrs s.uio.iov).length

/-- The sector at the address that `sfs_blockio` computes for a block. -/
def sectorOf (d : UInt32) : UInt32 := .ofNat (d.toNat * blocksize % 2 ^ 32 / blocksize)

theorem toNat_sectorOf (d : UInt32) : (sectorOf d).toNat = d.toNat % 2 ^ 23 := by
  unfold sectorOf
  rw [UInt32.toNat_ofNat']
  simp only [blocksize]
  omega

theorem sectorOf_eq_iff : sectorOf d = d ↔ d.toNat < 2 ^ 23 := by
  rw [← UInt32.toNat_inj, toNat_sectorOf]
  exact Nat.mod_eq_iff_lt (by decide)

/-- The state in which `sfs_blockio` calls `sfs_rwblock`. -/
def IoState.toBlock (s : IoState) (v : Volume) (d : UInt32) : IoState :=
  ⟨v, ⟨s.uio.iov, d.toNat * blocksize % 2 ^ 32, blocksize, s.uio.write⟩, s.mem⟩

/-- The state after `sfs_blockio` has restored the offset and the rest of the length. -/
def IoState.restored (s t : IoState) (d : UInt32) : IoState :=
  { t with uio := { t.uio with
    offset := t.uio.offset - d.toNat * blocksize % 2 ^ 32 + s.uio.offset
    resid := t.uio.resid + s.uio.resid - blocksize } }

theorem BlockTransfer.blockio {s : IoState} (h : BlockTransfer sv s d v) :
    blockio sv s = match rwblock 10 (s.toBlock v d) with
      | .error p => .error p
      | .ok (r, t) => .ok (r, s.restored t d) := by
  show andThen (onVolume (bmap sv (s.uio.offset / blocksize % 2 ^ 32) s.uio.write)) _ s = _
  unfold andThen onVolume
  rw [h.mapped]
  simp only
  rw [if_neg h.block]
  show andThen (require (decide (blocksize ≤ s.uio.resid)) _) _ _ = _
  rw [decide_eq_true h.whole]
  show andThen (result (rwblock 10)) _ (s.toBlock v d) = _
  unfold andThen result
  cases hrw : rwblock 10 (s.toBlock v d) with
  | error p => rfl
  | ok x =>
    cases x with
    | mk r t => cases r <;> rfl

theorem BlockTransfer.oneSector {s : IoState} (h : BlockTransfer sv s d v) :
    OneSector (s.toBlock v d) (sectorOf d) where
  resid := rfl
  aligned := by
    show d.toNat * blocksize % 2 ^ 32 % blocksize = 0
    simp only [blocksize]
    omega
  sector := rfl
  room := Nat.le_trans h.whole h.room

theorem BlockTransfer.write {s : IoState} (h : BlockTransfer sv s d v) (hb : sectorOf d < v.dblocks)
    (hw : s.uio.write = true) :
    ∃ iov, addrs iov = (addrs s.uio.iov).drop blocksize ∧
      Sfs.blockio sv s = .ok (.ok (), ⟨v.written (sectorOf d) (gather s.mem (addrs s.uio.iov)),
        ⟨iov, s.uio.offset + blocksize, s.uio.resid - blocksize, true⟩, s.mem⟩) := by
  obtain ⟨iov, ha, hrw⟩ := rwblock_write h.oneSector hb hw 9
  refine ⟨iov, ha, ?_⟩
  rw [h.blockio, hrw]
  simp only [IoState.restored, IoState.passed, IoState.toBlock, Nat.add_sub_cancel_left, Nat.zero_add,
    Nat.add_comm blocksize, hw]

theorem BlockTransfer.read {s : IoState} (h : BlockTransfer sv s d v) (hb : sectorOf d < v.dblocks)
    (hw : s.uio.write = false) :
    ∃ iov, addrs iov = (addrs s.uio.iov).drop blocksize ∧
      Sfs.blockio sv s = if v.failures ≤ 10 then
          .ok (.ok (), ⟨v.skip (v.failures + 1),
            ⟨iov, s.uio.offset + blocksize, s.uio.resid - blocksize, false⟩,
            scatter (v.disk (sectorOf d)).bytes 0 ((addrs s.uio.iov).take blocksize) s.mem⟩)
        else .ok (.error .eio, { s with vol := v.skip 11 }) := by
  obtain ⟨iov, ha, hrw⟩ := rwblock_read h.oneSector hb hw 10
  refine ⟨iov, ha, ?_⟩
  rw [h.blockio, hrw]
  have hv : (s.toBlock v d).vol = v := rfl
  rw [hv]
  by_cases hf : v.failures ≤ 10
  · rw [if_pos hf, if_pos hf]
    simp only [IoState.restored, IoState.passed, IoState.toBlock, Nat.add_sub_cancel_left, Nat.zero_add,
      Nat.add_comm blocksize, hw]
  · rw [if_neg hf, if_neg hf]
    simp only [IoState.restored, IoState.toBlock, Nat.sub_self, Nat.zero_add, Nat.add_sub_cancel_left]

theorem BlockTransfer.range {s : IoState} (h : BlockTransfer sv s d v) (hb : v.dblocks ≤ sectorOf d) :
    Sfs.blockio sv s = .error .devopEinval := by
  rw [h.blockio, rwblock_range h.oneSector hb]

theorem Volume.failures_eq_zero (v : Volume) : v.failures = 0 ↔ v.dev.head? ≠ some .mediaError := by
  unfold failures
  cases v.dev with
  | nil => exact iff_of_true rfl (by simp)
  | cons o l =>
    cases o with
    | done => exact iff_of_true rfl (by simp)
    | mediaError => exact iff_of_false (by simp) (by simp)

/-- A block holds the data after a write if the device took it, or if it held it before. -/
theorem Volume.written_disk (v : Volume) (b c : UInt32) (data : Buf) :
    (v.written c data).disk b = .ofBuf data ↔
      b = c ∧ v.dev.head? ≠ some .mediaError ∨ v.disk b = .ofBuf data := by
  unfold written
  by_cases hf : v.failures = 0
  · rw [if_pos hf]
    by_cases hb : b = c
    · subst hb
      exact iff_of_true (Function.update_self ..) (.inl ⟨rfl, v.failures_eq_zero.1 hf⟩)
    · have hne : ((v.skip 1).put c (.ofBuf data)).disk b = v.disk b := Function.update_of_ne hb ..
      rw [hne, or_iff_right fun h => hb h.1]
  · rw [if_neg hf, or_iff_right fun h => hf (v.failures_eq_zero.2 h.2)]
    exact Iff.rfl

theorem writeblock_kept (v : Volume) (b : UInt32) (data : Buf) :
    (∀ v', writeblock b data v = .ok (.ok (), v') → v'.disk b = .ofBuf data) ↔
      (b < v.dblocks → v.dev.head? ≠ some .mediaError ∨ v.disk b = .ofBuf data) := by
  by_cases hb : b < v.dblocks
  · rw [imp_iff_right hb, writeblock_eq hb]
    have hdisk := v.written_disk b b data
    rw [eq_self_iff_true, true_and] at hdisk
    rw [← hdisk]
    constructor
    · intro h
      exact h _ rfl
    · intro h v' hv'
      cases hv'
      exact h
  · refine iff_of_true ?_ fun h => absurd h hb
    intro v' hv'
    rw [writeblock_range (UInt32.not_lt.1 hb)] at hv'
    cases hv'

theorem readblock_kept (h : readblock b v = .ok (.ok buf, v')) : buf = (v'.disk b).bytes := by
  by_cases hb : b < v.dblocks
  · rw [readblock_eq hb] at h
    split at h
    · cases h
      rfl
    · cases h
  · rw [readblock_range (UInt32.not_lt.1 hb)] at h
    cases h

theorem BlockTransfer.write_kept {s : IoState} (h : BlockTransfer sv s d v) (hw : s.uio.write = true) :
    (∀ t, Sfs.blockio sv s = .ok (.ok (), t) → t.vol.disk d = .ofBuf (gather s.mem (addrs s.uio.iov))) ↔
      (sectorOf d < v.dblocks → d.toNat < 2 ^ 23 ∧ v.dev.head? ≠ some .mediaError ∨
        v.disk d = .ofBuf (gather s.mem (addrs s.uio.iov))) := by
  by_cases hb : sectorOf d < v.dblocks
  · obtain ⟨iov, -, hio⟩ := h.write hb hw
    have hdisk := v.written_disk d (sectorOf d) (gather s.mem (addrs s.uio.iov))
    rw [eq_comm (a := d), sectorOf_eq_iff] at hdisk
    rw [imp_iff_right hb, hio, ← hdisk]
    constructor
    · intro h
      exact h _ rfl
    · intro h t ht
      cases ht
      exact h
  · refine iff_of_true ?_ fun h => absurd h hb
    intro t ht
    rw [h.range (UInt32.not_lt.1 hb)] at ht
    cases ht

theorem BlockTransfer.read_kept {s : IoState} (h : BlockTransfer sv s d v) (hw : s.uio.write = false) :
    (∀ t, Sfs.blockio sv s = .ok (.ok (), t) →
        t.mem = scatter (t.vol.disk d).bytes 0 ((addrs s.uio.iov).take blocksize) s.mem) ↔
      (sectorOf d < v.dblocks → v.failures ≤ 10 → d.toNat < 2 ^ 23 ∨
        scatter (v.disk (sectorOf d)).bytes 0 ((addrs s.uio.iov).take blocksize) s.mem =
          scatter (v.disk d).bytes 0 ((addrs s.uio.iov).take blocksize) s.mem) := by
  by_cases hb : sectorOf d < v.dblocks
  · obtain ⟨iov, -, hio⟩ := h.read hb hw
    rw [imp_iff_right hb, hio]
    by_cases hf : v.failures ≤ 10
    · rw [imp_iff_right hf, if_pos hf]
      have hsame : d.toNat < 2 ^ 23 →
          scatter (v.disk (sectorOf d)).bytes 0 ((addrs s.uio.iov).take blocksize) s.mem =
            scatter (v.disk d).bytes 0 ((addrs s.uio.iov).take blocksize) s.mem := by
        intro hd
        rw [sectorOf_eq_iff.2 hd]
      rw [or_iff_right_of_imp hsame]
      constructor
      · intro h
        exact h _ rfl
      · intro h t ht
        cases ht
        exact h
    · rw [if_neg hf]
      refine iff_of_true ?_ fun h => absurd h hf
      intro t ht
      cases ht
  · refine iff_of_true ?_ fun h => absurd h hb
    intro t ht
    rw [h.range (UInt32.not_lt.1 hb)] at ht
    cases ht

/-- A write that returns success is kept if its first attempt succeeds, since there is no second one;
a read always is. The transfer of a whole block also has to be at an address of 32 bits. -/
theorem retried_io_kept (v : Volume) (b : UInt32) (data : Buf) (s : IoState) (w : Volume)
    (h : BlockTransfer sv s d w) :
    ((∀ v', writeblock b data v = .ok (.ok (), v') → v'.disk b = .ofBuf data) ↔
      (b < v.dblocks → v.dev.head? ≠ some .mediaError ∨ v.disk b = .ofBuf data)) ∧
    (∀ buf v', readblock b v = .ok (.ok buf, v') → buf = (v'.disk b).bytes) ∧
    (s.uio.write = true →
      ((∀ t, blockio sv s = .ok (.ok (), t) → t.vol.disk d = .ofBuf (gather s.mem (addrs s.uio.iov))) ↔
        (sectorOf d < w.dblocks → d.toNat < 2 ^ 23 ∧ w.dev.head? ≠ some .mediaError ∨
          w.disk d = .ofBuf (gather s.mem (addrs s.uio.iov))))) ∧
    (s.uio.write = false →
      ((∀ t, blockio sv s = .ok (.ok (), t) →
          t.mem = scatter (t.vol.disk d).bytes 0 ((addrs s.uio.iov).take blocksize) s.mem) ↔
        (sectorOf d < w.dblocks → w.failures ≤ 10 → d.toNat < 2 ^ 23 ∨
          scatter (w.disk (sectorOf d)).bytes 0 ((addrs s.uio.iov).take blocksize) s.mem =
            scatter (w.disk d).bytes 0 ((addrs s.uio.iov).take blocksize) s.mem))) :=
  ⟨writeblock_kept v b data, fun _ _ => readblock_kept, h.write_kept, h.read_kept⟩

/-- A volume of 16 blocks. The inode of its file is block 3, and the file has block 4. -/
def smallVolume : Volume where
  nblocks := 16
  freemap := ⟨freemapbits 16, fun b => b < 5 ∨ 16 ≤ b⟩
  vnodes := [⟨3, { Dinode.empty with
    size := 512, type := typeFile, linkcount := 1, direct := fun k => if k = 0 then 4 else 0 }, true, 1⟩]
  disk _ := .ofBuf zeros
  dblocks := 16
  dev := []

/-- The start of a read or a write of the first block of the file, with a disk that gives the
results of the list. -/
def smallTransfer (write : Bool) (dev : List Outcome) : IoState :=
  ⟨{ smallVolume with dev := dev }, ⟨[⟨0, 512⟩], 0, 512, write⟩, fun _ => 1⟩

theorem smallTransfer_block (write : Bool) (dev : List Outcome) :
    BlockTransfer 3 (smallTransfer write dev) 4 { smallVolume with dev := dev } where
  mapped := by
    have hfirst : (smallTransfer write dev).uio.offset / blocksize % 2 ^ 32 = 0 := by
      simp [smallTransfer]
    rw [hfirst]
    unfold bmap
    cases write <;> rfl
  block := by decide
  whole := Nat.le_refl 512
  bound := (by decide : 512 < 4294967296)
  room := by simp [smallTransfer, addrs]

/-- A write that succeeds at once is kept, one with a media error is not, and a read with a media
error is. -/
theorem retried_io_kept_small :
    (∀ t, blockio 3 (smallTransfer true []) = .ok (.ok (), t) →
      t.vol.disk 4 = .ofBuf (gather (fun _ => 1) (addrs [⟨0, 512⟩]))) ∧
    (¬ ∀ t, blockio 3 (smallTransfer true [.mediaError]) = .ok (.ok (), t) →
      t.vol.disk 4 = .ofBuf (gather (fun _ => 1) (addrs [⟨0, 512⟩]))) ∧
    ∀ t, blockio 3 (smallTransfer false [.mediaError]) = .ok (.ok (), t) →
      t.mem = scatter (t.vol.disk 4).bytes 0 ((addrs [⟨0, 512⟩]).take blocksize) fun _ => 1 := by
  have hkept := fun write dev =>
    retried_io_kept smallVolume 4 zeros _ _ (smallTransfer_block write dev)
  refine ⟨((hkept true []).2.2.1 rfl).2 ?_, ?_, ((hkept false [.mediaError]).2.2.2 rfl).2 ?_⟩
  · intro _
    exact .inl ⟨by decide, by simp⟩
  · intro h
    obtain ⟨-, hdev⟩ | hdisk := ((hkept true [.mediaError]).2.2.1 rfl).1 h (by decide)
    · exact hdev rfl
    · have hbyte := congrArg (fun x => x.byte 0) hdisk
      exact absurd hbyte (by decide)
  · intro _ _
    exact .inl (by decide)

/-- The first attempt fails, and `sfs_writeblock` returns success without a second one. -/
theorem writeblock_lost : ∃ v', writeblock 4 (fun _ => 1) { smallVolume with dev := [.mediaError] } = .ok (.ok (), v') ∧
    v'.disk 4 ≠ .ofBuf fun _ => 1 := by
  refine ⟨_, writeblock_eq (by decide) _, ?_⟩
  intro h
  have hbyte := congrArg (fun x => x.byte 0) h
  exact absurd hbyte (by decide)

end Sfs
end Clape
