import Clape.SfsBytes
import Clape.SfsFresh

namespace Clape
set_option autoImplicit true

namespace Sfs
open Call Volume

/-- A file as an array of bytes. -/
structure File where
  size : Nat
  bytes : Nat → UInt8

namespace File

def empty : File := ⟨0, fun _ => 0⟩

def write (f : File) (offset len : Nat) (data : Nat → UInt8) : File where
  size := if 0 < len then max f.size (offset + len) else f.size
  bytes x := if offset ≤ x ∧ x < offset + len then data (x - offset) else f.bytes x

/-- The bytes that a read of some length gets. -/
def count (f : File) (offset len : Nat) : Nat := min len (f.size - offset)

end File

/-- A volume holds a file, in blocks that are low. -/
structure Holds (v : Volume) (sv : UInt32) (f : File) : Prop extends v.Working sv where
  size : (v.inode sv).size.toNat = f.size
  bytes : ∀ x, v.byteAt sv x = f.bytes x
  low : ∀ fb, (v.blockOf sv fb).toNat < lowBlocks

/-- There are enough free blocks for a write, and their addresses fit in 32 bits. -/
def Volume.Room (v : Volume) (sv : UInt32) (u : Uio) : Prop :=
  v.lacking sv (u.offset / blocksize) ((u.offset + u.resid + (blocksize - 1)) / blocksize) ≤ v.lowFree

/-- A file of a volume that has just been created. -/
structure Volume.Created (v : Volume) (sv : UInt32) : Prop extends v.Working sv where
  root : sv ≠ rootdirIno
  size : (v.inode sv).size = 0
  direct : ∀ k, (v.inode sv).direct k = 0
  indirect : (v.inode sv).indirect = 0

/-- The states that reads and writes lead to, with the array that the file has become. -/
inductive Reached (sv : UInt32) (v₀ : Volume) : Volume → File → Prop where
  | created : Reached sv v₀ v₀ .empty
  | read {v : Volume} {f : File} {u : Uio} {mem : Nat → UInt8} {r : Except Errno Unit} {t : IoState}
    (h : Reached sv v₀ v f) (hu : Roomy u) (hw : u.write = false) (hmax : u.offset + u.resid ≤ maxsize)
    (hr : io sv ⟨v, u, mem⟩ = .ok (r, t)) : Reached sv v₀ t.vol f
  | write {v : Volume} {f : File} {u : Uio} {mem : Nat → UInt8} {r : Except Errno Unit} {t : IoState}
    (h : Reached sv v₀ v f) (hu : Roomy u) (hw : u.write = true) (hmax : u.offset + u.resid ≤ maxsize)
    (he : v.Room sv u) (hr : io sv ⟨v, u, mem⟩ = .ok (r, t)) :
    Reached sv v₀ t.vol (f.write u.offset u.resid (gather mem (addrs u.iov)))

/-- A read returns the bytes that are there, and nothing changes on the volume. -/
structure ReadDone (v : Volume) (f : File) (u : Uio) (mem : Nat → UInt8) (t : IoState) : Prop where
  vol : t.vol = v
  offset : t.uio.offset = u.offset + f.count u.offset u.resid
  resid : t.uio.resid = u.resid - f.count u.offset u.resid
  memory : t.mem = scatter (fun k => f.bytes (u.offset + k)) 0 ((addrs u.iov).take (f.count u.offset u.resid)) mem

/-- A write transfers all its bytes, sets the size, and changes no other file. -/
structure WriteDone (v : Volume) (sv : UInt32) (f : File) (u : Uio) (mem : Nat → UInt8) (t : IoState) : Prop where
  offset : t.uio.offset = u.offset + u.resid
  resid : t.uio.resid = 0
  memory : t.mem = mem
  size : (t.vol.inode sv).size.toNat = (f.write u.offset u.resid (gather mem (addrs u.iov))).size
  others : ∀ j, v.Live j → j ≠ sv → SameFile v t.vol j

section Steps
variable {v : Volume} {f : File} {u : Uio} {mem : Nat → UInt8}

theorem Holds.read (h : Holds v sv f) (hu : Roomy u) (hw : u.write = false) (hmax : u.offset + u.resid ≤ maxsize) :
    Ends False (io sv) (fun _ => ReadDone v f u mem) (fun _ _ => False) ⟨v, u, mem⟩ := by
  apply io_read_ends h.cached hw
  · intro hle
    have hle : (v.inode sv).size.toNat ≤ u.offset := hle
    rw [h.size] at hle
    have hcount : f.count u.offset u.resid = 0 := by
      unfold File.count
      omega
    refine ⟨rfl, ?_, ?_, ?_⟩
    · rw [hcount, Nat.add_zero]
    · rw [hcount, Nat.sub_zero]
    · rw [hcount]
      rfl
  · intro hlt extra hextra
    have hlt : u.offset < (v.inode sv).size.toNat := hlt
    have hextra : extra = u.offset + u.resid - (v.inode sv).size.toNat := hextra
    rw [h.size] at hlt hextra
    have hcount : u.resid - extra = f.count u.offset u.resid := by
      unfold File.count
      omega
    have hb := hu.bound
    have hroom := hu.room
    have hroomy : Roomy { u with resid := u.resid - extra } := by
      refine ⟨?_, ?_⟩
      · show u.resid - extra < _
        omega
      · show u.resid - extra ≤ (addrs u.iov).length
        omega
    apply (ioTransfer_fetches (s := ⟨v, { u with resid := u.resid - extra }, mem⟩) h.toWorking hroomy hw h.low ?_).mono
    · intro _ t ht
      have hoff : t.uio.offset = u.offset + (u.resid - extra) := ht.passed.offset
      have hres : t.uio.resid + (u.resid - extra) = u.resid - extra := ht.passed.resid
      have hle : f.count u.offset u.resid ≤ u.resid := Nat.min_le_left ..
      refine ⟨?_, ht.passed.write.trans hw, ht.vol, ?_, ?_, ?_⟩
      · rw [ht.vol]
        exact h.cached
      · rw [← hcount]
        exact hoff
      · show t.uio.resid + extra = _
        omega
      · show t.mem = _
        rw [ht.mem, ← hcount]
        apply scatter_congr
        intro k _
        exact h.bytes _
    · exact fun _ _ he => he.elim
    · show u.offset + (u.resid - extra) ≤ maxsize
      omega

theorem inode_resize (hc : v.Cached sv) (n : UInt32) :
    (v.edit sv fun i => { i with size := n }).inode sv = { v.inode sv with size := n } := inode_edit hc

theorem Working.resize (h : v.Working sv) (hroot : sv ≠ rootdirIno) (n : UInt32) :
    Touch sv v (v.edit sv fun i => { i with size := n }) ∧ (v.edit sv fun i => { i with size := n }).Working sv ∧
      (∀ fb, (v.edit sv fun i => { i with size := n }).blockOf sv fb = v.blockOf sv fb) ∧
      ∀ x, (v.edit sv fun i => { i with size := n }).byteAt sv x = v.byteAt sv x := by
  have hi := inode_resize h.cached n
  have hids : (v.edit sv fun i => { i with size := n }).ids sv = v.ids sv := by
    unfold ids
    rw [hi]
    rfl
  have hblock : ∀ fb, (v.edit sv fun i => { i with size := n }).blockOf sv fb = v.blockOf sv fb :=
    blockOf_congr (by rw [hi]) hids
  have htouch : Touch sv v (v.edit sv fun i => { i with size := n }) :=
    .edit h.cached rfl rfl fun hr => absurd hr hroot
  refine ⟨htouch, ⟨htouch.sane h.sane ?_, (htouch.cached sv).2 h.cached, h.works⟩, hblock, ?_⟩
  · apply htouch.owned_same h.sane.owned h.cached.live
    · intro q
      rw [hi, hids]
      cases q <;> rfl
    · exact fun _ => id
  · intro x
    unfold byteAt data
    rw [hblock]
    rfl

theorem Holds.write (h : Holds v sv f) (hroot : sv ≠ rootdirIno) (hu : Roomy u) (hw : u.write = true)
    (hmax : u.offset + u.resid ≤ maxsize)
    (he : v.Room sv u) :
    Ends False (io sv) (fun _ t => WriteDone v sv f u mem t ∧
      Holds t.vol sv (f.write u.offset u.resid (gather mem (addrs u.iov)))) (fun _ _ => False) ⟨v, u, mem⟩ := by
  have hsize : maxsize = 73216 := rfl
  apply io_write_ends h.cached hw
  apply (ioTransfer_fills (s := ⟨v, u, mem⟩) h.toWorking hroot hu hw hmax ⟨he, h.low⟩).mono
  · intro _ t ht
    refine ⟨ht.working.cached, ?_⟩
    have hoff : t.uio.offset = u.offset + u.resid := ht.passed.offset
    have hres : t.uio.resid = 0 := by
      have hsum : t.uio.resid + u.resid = u.resid := ht.passed.resid
      omega
    have hold : (t.vol.inode sv).size.toNat = f.size := by
      rw [ht.size]
      exact h.size
    have hbytes : ∀ x, t.vol.byteAt sv x = (f.write u.offset u.resid (gather mem (addrs u.iov))).bytes x := by
      intro x
      rw [ht.bytes]
      show (if _ then _ else v.byteAt sv x) = _
      rw [h.bytes]
      rfl
    unfold IoState.sized
    split
    · rename_i hgrow
      obtain ⟨hne, -, hlt⟩ := hgrow
      have hne : t.uio.resid ≠ u.resid := hne
      obtain ⟨htouch, hwork, hblock, hbyte⟩ := Working.resize ht.working hroot (.ofNat t.uio.offset)
      have hnew : ((t.vol.edit sv fun i => { i with size := .ofNat t.uio.offset }).inode sv).size.toNat =
          (f.write u.offset u.resid (gather mem (addrs u.iov))).size := by
        rw [inode_resize ht.working.cached]
        show (UInt32.ofNat t.uio.offset).toNat = if 0 < u.resid then max f.size (u.offset + u.resid) else f.size
        rw [hold] at hlt
        rw [if_pos (by omega), UInt32.toNat_ofNat', Nat.mod_eq_of_lt (by omega)]
        omega
      refine ⟨⟨hoff, hres, ht.mem, hnew, ?_⟩, hwork, hnew, ?_, ?_⟩
      · intro j hj hne
        exact (ht.touch.trans htouch).other j hj hne
      · intro x
        rw [hbyte, hbytes]
      · intro fb
        rw [hblock]
        exact ht.fits.low fb
    · rename_i hkeep
      have hkeep : ¬ (t.uio.resid ≠ u.resid ∧ t.uio.write = true ∧ (t.vol.inode sv).size.toNat < t.uio.offset) := hkeep
      have hsame : (t.vol.inode sv).size.toNat = (f.write u.offset u.resid (gather mem (addrs u.iov))).size := by
        show _ = if 0 < u.resid then max f.size (u.offset + u.resid) else f.size
        rw [ht.passed.write.trans hw, hold, hres, hoff] at hkeep
        rw [hold]
        split
        · by_contra hne
          exact hkeep ⟨by omega, rfl, by omega⟩
        · rfl
      exact ⟨⟨hoff, hres, ht.mem, hsame, ht.touch.other⟩, ht.working, hsame, hbytes, ht.fits.low⟩
  · exact fun _ _ he => he.elim

theorem Volume.Created.blockOf (h : v.Created sv) (fb : Nat) : v.blockOf sv fb = 0 := by
  unfold Volume.blockOf
  rw [ids_zero h.indirect]
  split
  · exact h.direct _
  · split <;> rfl

theorem Volume.Created.holds (h : v.Created sv) : Holds v sv .empty := by
  have hblock := h.blockOf
  refine ⟨h.toWorking, ?_, ?_, ?_⟩
  · rw [h.size]
    rfl
  · intro x
    unfold byteAt data
    rw [hblock]
    rfl
  · intro fb
    rw [hblock]
    decide

theorem Ends.success {m : Io Unit} {Q : Unit → IoState → Prop} {s : IoState}
    (h : Ends False m Q (fun _ _ => False) s) : ∃ t, m s = .ok (.ok (), t) ∧ Q () t := by
  obtain ⟨r, t, hrun⟩ := h.ok
  cases r with
  | ok a => exact ⟨t, hrun, h.value hrun⟩
  | error e => exact (h.errno hrun).elim

theorem Reached.holds (h : Reached sv v₀ v f) (hc : v₀.Created sv) : Holds v sv f := by
  induction h with
  | created => exact hc.holds
  | read _ hu hw hmax hr ih =>
    obtain ⟨t, hrun, hdone⟩ := Ends.success (ih.read hu hw hmax)
    rw [hr] at hrun
    cases hrun
    rw [hdone.vol]
    exact ih
  | write _ hu hw hmax he hr ih =>
    obtain ⟨t, hrun, -, hholds⟩ := Ends.success (ih.write hc.root hu hw hmax he)
    rw [hr] at hrun
    cases hrun
    exact hholds

/-- A new file acts as an array of bytes in every run whose writes have room. -/
theorem file_is_bytes (h : Reached sv v₀ v f) (hc : v₀.Created sv) (u : Uio) (mem : Nat → UInt8) (hu : Roomy u)
    (hmax : u.offset + u.resid ≤ maxsize) :
    (v.inode sv).size.toNat = f.size ∧
      (u.write = false → ∃ t, io sv ⟨v, u, mem⟩ = .ok (.ok (), t) ∧ ReadDone v f u mem t) ∧
      (u.write = true → v.Room sv u → ∃ t, io sv ⟨v, u, mem⟩ = .ok (.ok (), t) ∧ WriteDone v sv f u mem t) := by
  have hholds := h.holds hc
  refine ⟨hholds.size, ?_, ?_⟩
  · intro hw
    exact Ends.success (hholds.read hu hw hmax)
  · intro hw he
    obtain ⟨t, hrun, hdone, -⟩ := Ends.success (hholds.write hc.root hu hw hmax he)
    exact ⟨t, hrun, hdone⟩

/-- A read or a write of one byte. -/
def oneByte (x : Nat) (write : Bool) : Uio := ⟨[⟨0, 1⟩], x, 1, write⟩

theorem oneByte_roomy (x : Nat) (write : Bool) : Roomy (oneByte x write) :=
  ⟨(by decide : 1 < 4294967296), by simp [oneByte, addrs]⟩

theorem byte_of_read {mem : Nat → UInt8} {t : IoState} (h : ReadDone v f (oneByte x false) mem t) (hx : x < f.size) :
    t.mem 0 = f.bytes x := by
  have hcount : f.count (oneByte x false).offset (oneByte x false).resid = 1 := by
    show min 1 (f.size - x) = 1
    omega
  rw [h.memory, hcount]
  show Function.update mem 0 (f.bytes (x + 0)) 0 = _
  rw [Function.update_self, Nat.add_zero]

end Steps

instance (v : Volume) (sv : UInt32) (u : Uio) : Decidable (v.Room sv u) :=
  inferInstanceAs (Decidable (_ ≤ _))

/-- On a volume of no more than `lowBlocks` blocks, it is enough that the blocks are free. -/
theorem Volume.room_of_free {v : Volume} {u : Uio} (hn : v.nblocks.toNat ≤ lowBlocks)
    (h : v.lacking sv (u.offset / blocksize) ((u.offset + u.resid + (blocksize - 1)) / blocksize) ≤ v.free) :
    v.Room sv u := by
  unfold Room
  rw [lowFree_eq hn]
  exact h

theorem Volume.fresh_created {nblocks : UInt32} (h : FreshMarks nblocks marks sv) : (fresh nblocks marks sv).Created sv where
  sane := fresh_sane h
  cached := fresh_cached_iff.2 rfl
  works := rfl
  root := h.root_ne
  size := by
    rw [fresh_inode]
    rfl
  direct k := by
    rw [fresh_inode]
    rfl
  indirect := by
    rw [fresh_inode]
    rfl

/-- A volume of 16 blocks with a new file. -/
def newVolume : Volume := fresh 16 (fun b => b ≤ 3 || 16 ≤ b) 3

theorem newVolume_marks : FreshMarks 16 (fun b => b ≤ 3 || 16 ≤ b) 3 where
  volume := by decide
  metadata := by decide
  used b hb := by
    rw [decide_eq_true hb]
    rfl
  bound := by decide
  tail b hb := by
    rw [decide_eq_true hb]
    exact Bool.or_true _

/-- A write of one block at the start of a file. -/
def blockWrite : Uio := ⟨[⟨0, 512⟩], 0, 512, true⟩

theorem blockWrite_roomy : Roomy blockWrite := ⟨by decide, by simp [blockWrite, addrs]⟩

theorem blockWrite_lacking (v : Volume) (sv : UInt32) : v.lacking sv 0 1 ≤ 1 := by
  unfold lacking
  rw [if_neg fun h => absurd h.2.1 (by decide)]
  exact Finset.card_filter_le (Finset.Ico 0 1) fun fb => v.blockOf sv fb = 0

/-- A block is written, and one of its bytes is read back. -/
theorem file_is_bytes_new : newVolume.Created 3 ∧ newVolume.Room 3 blockWrite ∧
    ∃ t, io 3 ⟨newVolume, blockWrite, fun _ => 1⟩ = .ok (.ok (), t) ∧
      WriteDone newVolume 3 .empty blockWrite (fun _ => 1) t ∧ (t.vol.inode 3).size.toNat = 512 ∧
      ∃ t', io 3 ⟨t.vol, oneByte 100 false, fun _ => 0⟩ = .ok (.ok (), t') ∧ t'.mem 0 = 1 := by
  have hc := fresh_created newVolume_marks
  have hfree : 1 ≤ newVolume.free := Finset.card_pos.2 ⟨4, by decide⟩
  have hroom : newVolume.Room 3 blockWrite :=
    room_of_free (by decide) (Nat.le_trans (blockWrite_lacking newVolume 3) hfree)
  obtain ⟨t, hio, hdone⟩ :=
    (file_is_bytes .created hc blockWrite (fun _ => 1) blockWrite_roomy (by decide)).2.2 rfl hroom
  have hwritten := Reached.write .created blockWrite_roomy rfl (by decide) hroom hio
  obtain ⟨hsize, hread, -⟩ := file_is_bytes hwritten hc (oneByte 100 false) (fun _ => 0) (oneByte_roomy _ _)
    (by decide)
  obtain ⟨t', hio', hdone'⟩ := hread rfl
  exact ⟨hc, hroom, t, hio, hdone, hsize, t', hio', byte_of_read hdone' (by decide)⟩

/-- A volume with one free block, which is past the limit. -/
def highVolume : Volume := fresh 8392704 (fun b => b != 8388609) 4096

theorem highVolume_marks : FreshMarks 8392704 (fun b => b != 8388609) 4096 where
  volume := by decide
  metadata := by decide
  used b hb := by
    apply bne_iff_ne.2
    rintro rfl
    exact absurd hb (by decide)
  bound := by decide
  tail b hb := by
    apply bne_iff_ne.2
    rintro rfl
    exact absurd hb (by decide)

/-- A volume whose free block has the address of the inode of the directory, with 32 bits. -/
structure Wraps (v : Volume) (sv : UInt32) : Prop where
  created : v.Created sv
  free : v.freeBit ≠ none
  sector : ∀ d, v.freemap.v d = false → sectorOf d = rootdirIno
  device : rootdirIno < v.dblocks
  uncached : ¬ v.Cached rootdirIno
  size : (v.inode rootdirIno).size = 0

theorem highVolume_wraps : Wraps highVolume 4096 where
  created := fresh_created highVolume_marks
  free := by
    intro h
    have hset := List.find?_eq_none.1 h 8388609 (List.mem_range.2 (by decide))
    exact hset rfl
  sector d hfree := by
    have hd : d = 8388609 := by
      by_contra hne
      rw [show highVolume.freemap.v d = true from bne_iff_ne.2 hne] at hfree
      cases hfree
    rw [hd]
    decide
  device := by decide
  uncached h := absurd (fresh_cached_iff.1 h) (by decide)
  size := by
    rw [show highVolume.inode rootdirIno = emptyDirectory from fresh_root (by decide)]
    rfl

section Wrap
variable {v : Volume}

/-- The block has been written to the inode of the directory. -/
structure Clobbered (v : Volume) (sv : UInt32) (n : Nat) (t : IoState) : Prop where
  cached : t.vol.Cached sv
  done : t.uio.resid + n = 512
  start : n = 0 → t = ⟨v, blockWrite, fun _ => 1⟩
  root : n ≠ 0 → (t.vol.inode rootdirIno).size ≠ 0

theorem clobbered_size :
    (Dinode.ofSector (Sector.ofBuf (gather (fun _ => 1) (addrs blockWrite.iov))).bytes).size ≠ 0 := by
  decide +kernel

theorem Wraps.blockio (h : Wraps v sv) :
    Ends False (blockio sv) (fun _ => Clobbered v sv 512) (fun _ _ => False) ⟨v, blockWrite, fun _ => 1⟩ := by
  obtain ⟨hs, hc, hw⟩ := h.created.toWorking
  have hlt : blockWrite.offset / blocksize % 2 ^ 32 < ndirect := by decide
  apply blockio_ends blockWrite_roomy (Nat.le_refl _)
  apply (bmap_ends hc fun hm => hm (hs.maps hc)).mono
  · intro d v' hrun
    have hg := hrun.grown hs hc hw
    obtain ⟨hd, hfree, -⟩ := (hrun.mapsTo (hs.later hc hw)).new (h.created.blockOf _) rfl
    have hsector := h.sector d hfree
    refine ⟨fun h0 => absurd h0 hd, ?_, ?_, ?_⟩
    · intro _ hrange
      rw [hsector, hg.touch.dblocks] at hrange
      exact absurd h.device (UInt32.not_lt.2 hrange)
    · intro _ hfail
      rw [failures_working hg.works] at hfail
      exact absurd hfail (by decide)
    · intro t ht
      obtain ⟨hvol, -⟩ := ht.wrote rfl
      rw [hsector, written_working hg.works] at hvol
      refine ⟨?_, ht.passed.resid, fun h0 => absurd h0 (by decide), ?_⟩
      · rw [hvol]
        exact hg.cached
      · intro _
        have hroot : ¬ t.vol.Cached rootdirIno := by
          rw [hvol]
          exact fun hcached => h.uncached ((hg.touch.cached _).1 hcached)
        rw [inode_disk hroot, hvol]
        show (Dinode.ofSector (Function.update v'.disk rootdirIno _ rootdirIno).bytes).size ≠ 0
        rw [Function.update_self]
        exact clobbered_size
  · intro e v' hrun
    generalize hfb : blockWrite.offset / blocksize % 2 ^ 32 = fb at hrun
    rw [hfb] at hlt
    cases hrun with
    | directFull k h0 hf => exact h.free hf
    | tooBig hbig => exact absurd hlt (Nat.not_lt.2 (Nat.le_trans (Nat.le_add_right ..) hbig))
    | indirectFull | indirectOnly | unreadable | mappedFull => exact absurd hlt (Nat.not_lt.2 (Nat.le_add_right ..))

theorem Wraps.transfer (h : Wraps v sv) :
    Ends False (ioTransfer sv) (fun _ => Clobbered v sv 512) (fun _ _ => False) ⟨v, blockWrite, fun _ => 1⟩ := by
  have hstart : Clobbered v sv 0 ⟨v, blockWrite, fun _ => 1⟩ :=
    ⟨h.created.cached, rfl, fun _ => rfl, fun h0 => absurd rfl h0⟩
  have hloop : Ends False ((List.range 1).foldlM (fun _ _ => Sfs.blockio sv) ()) (fun _ => Clobbered v sv 512)
      (fun _ _ => False) ⟨v, blockWrite, fun _ => 1⟩ := by
    have hal : (0 + 0) % blocksize = 0 := rfl
    have hm : 0 + blocksize * 1 ≤ 512 := Nat.le_refl _
    apply wholeBlocks_ends ?_ hal hm hstart
    intro k t ht hk _
    have hk : k = 0 := by
      simp only [blocksize] at hk
      omega
    subst hk
    rw [ht.start rfl]
    exact h.blockio
  have hal : blockWrite.offset % blocksize = 0 := Nat.zero_mod blocksize
  have hres : blockWrite.resid ≠ 0 := by decide
  have hblocks : blockWrite.resid / blocksize = 1 := by decide
  unfold ioTransfer
  rw [ends_bind, ends_state, ends_bind, ends_when, decide_eq_true_eq, decide_eq_false_iff_not]
  dsimp only
  refine ⟨fun hne => absurd hal hne, fun _ => ?_⟩
  rw [ends_bind, ends_state, ends_when, decide_eq_true_eq, decide_eq_false_iff_not]
  refine ⟨fun _ => ?_, fun heq => absurd hres heq⟩
  rw [ends_bind, ends_require, decide_eq_true_eq, decide_eq_false_iff_not]
  refine ⟨fun _ => ?_, fun hne => absurd hal hne⟩
  rw [ends_bind]
  dsimp only
  rw [hblocks]
  apply hloop.mono
  · intro _ t ht
    have hres : t.uio.resid = 0 := Nat.add_right_cancel (ht.done.trans (Nat.zero_add 512).symm)
    rw [ends_bind, ends_state, ends_bind, ends_require, hres, decide_eq_true_eq, decide_eq_false_iff_not]
    refine ⟨fun _ => ?_, fun hge => absurd (Nat.succ_pos 511) hge⟩
    rw [ends_when, decide_eq_true_eq, decide_eq_false_iff_not]
    exact ⟨fun hlt => absurd hlt (Nat.lt_irrefl 0), fun _ => ht⟩
  · exact fun _ _ h => h

/-- The write succeeds, but another file has changed. -/
theorem Wraps.write (h : Wraps v sv) : ∃ t, io sv ⟨v, blockWrite, fun _ => 1⟩ = .ok (.ok (), t) ∧
    ¬ WriteDone v sv .empty blockWrite (fun _ => 1) t := by
  apply Ends.success (Q := fun _ t => ¬ WriteDone v sv .empty blockWrite (fun _ => 1) t)
  apply io_write_ends h.created.cached rfl
  apply h.transfer.mono
  · intro _ t ht
    refine ⟨ht.cached, ?_⟩
    intro hdone
    have hsame := (hdone.others rootdirIno live_root h.created.root.symm).inode
    have hsized : (t.sized sv blockWrite.resid).vol.inode rootdirIno = t.vol.inode rootdirIno := by
      unfold IoState.sized
      split
      · exact inode_edit_ne h.created.root.symm
      · rfl
    apply ht.root (by decide)
    rw [← hsized, hsame, h.size]
  · exact fun _ _ h => h.elim

end Wrap

/-- There is a free block for the write, which destroys the inode of the directory instead. -/
theorem high_write_clobbers : highVolume.Created 4096 ∧ highVolume.lacking 4096 0 1 ≤ highVolume.free ∧
    ∃ t, io 4096 ⟨highVolume, blockWrite, fun _ => 1⟩ = .ok (.ok (), t) ∧
      ¬ WriteDone highVolume 4096 .empty blockWrite (fun _ => 1) t := by
  have hfree : 1 ≤ highVolume.free :=
    Finset.card_pos.2 ⟨8388609, Finset.mem_filter.2 ⟨Finset.mem_range.2 (by decide), rfl⟩⟩
  exact ⟨fresh_created highVolume_marks, Nat.le_trans (blockWrite_lacking highVolume 4096) hfree, highVolume_wraps.write⟩

end Sfs
end Clape
