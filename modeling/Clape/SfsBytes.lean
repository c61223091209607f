import Clape.SfsSpace
import Clape.SfsTransfers

namespace Clape
set_option autoImplicit true

namespace Sfs
namespace Volume
variable {v v' : Volume}

/-- A byte of a file, where holes read as zeros. -/
def byteAt (v : Volume) (sv : UInt32) (x : Nat) : UInt8 := v.data sv (x / blocksize) (x % blocksize)

/-- A file of a volume on a device that works. -/
structure Working (v : Volume) (sv : UInt32) : Prop where
  sane : v.Sane
  cached : v.Cached sv
  works : v.dev = []

theorem Grown.working (h : Grown sv v v') : v'.Working sv := ⟨h.sane, h.cached, h.works⟩

theorem Working.data_place (h : v.Working sv) (hd : v.blockOf sv k ≠ 0) :
    ∃ p, placeOf k = some p ∧ v.place (.file sv p) = some (v.blockOf sv k) := by
  obtain ⟨p, hp, hb⟩ := blockOf_place hd
  exact ⟨p, hp, (place_file h.cached.live).trans hb⟩

theorem placeOf_ne_inode : placeOf k ≠ some .inode := by
  unfold placeOf
  split
  · exact nofun
  · split <;> exact nofun

theorem placeOf_ne_indirect : placeOf k ≠ some .indirect := by
  unfold placeOf
  split
  · exact nofun
  · split <;> exact nofun

theorem Working.put_block (h : v.Working sv) (hroot : sv ≠ rootdirIno) (hd : v.blockOf sv k ≠ 0) (x : Sector) :
    Touch sv v (v.put (v.blockOf sv k) x) ∧ (v.put (v.blockOf sv k) x).Working sv ∧
      (v.put (v.blockOf sv k) x).inode sv = v.inode sv ∧
      (∀ fb, (v.put (v.blockOf sv k) x).blockOf sv fb = v.blockOf sv fb) ∧
      ∀ fb, (v.put (v.blockOf sv k) x).data sv fb = if fb = k then x.bytes else v.data sv fb := by
  obtain ⟨p, hp, hplace⟩ := h.data_place hd
  have hl := h.cached.live
  have hown := h.sane.owned
  have hne : ∀ j q c, v.place (.file j q) = some c → Role.file j q ≠ .file sv p → c ≠ v.blockOf sv k :=
    fun j q c hq => hown.ne hq hplace
  have hino : sv ≠ v.blockOf sv k := by
    apply hne sv .inode sv
    · rw [place_file hl]
      rfl
    · intro he
      cases he
      exact placeOf_ne_inode hp
  have htouch : Touch sv v (v.put (v.blockOf sv k) x) := by
    apply Touch.put h.cached hino.symm
    · intro j _ hj q hq
      exact hne j q _ hq (fun he => hj (Role.file.inj he).1) rfl
    · exact fun hr => absurd hr hroot
  have hinode : (v.put (v.blockOf sv k) x).inode sv = v.inode sv := inode_congr rfl h.cached
  have hids : (v.put (v.blockOf sv k) x).ids sv = v.ids sv := by
    by_cases hz : (v.inode sv).indirect = 0
    · rw [ids_zero hz, ids_zero]
      rw [hinode]
      exact hz
    · have hind : (v.inode sv).indirect ≠ v.blockOf sv k := by
        apply hne sv .indirect
        · rw [place_file hl]
          exact pointer_ne hz
        · intro he
          cases he
          exact placeOf_ne_indirect hp
      have hsame : (v.put (v.blockOf sv k) x).disk (v.inode sv).indirect = v.disk (v.inode sv).indirect :=
        Function.update_of_ne hind ..
      rw [ids_ne hz, ids_ne (by rw [hinode]; exact hz), hinode, hsame]
  have hblock : ∀ fb, (v.put (v.blockOf sv k) x).blockOf sv fb = v.blockOf sv fb :=
    blockOf_congr (by rw [hinode]) hids
  refine ⟨htouch, ⟨htouch.sane h.sane ?_, (htouch.cached sv).2 h.cached, h.works⟩, hinode, hblock, ?_⟩
  · apply htouch.owned_same hown hl
    · intro q
      rw [hinode, hids]
    · exact fun _ => id
  · intro fb
    unfold data content
    rw [hblock]
    by_cases hfb : fb = k
    · rw [hfb, if_neg hd, if_pos rfl]
      exact congrArg Sector.bytes (Function.update_self ..)
    · rw [if_neg hfb]
      split
      · rfl
      · rename_i hfb0
        obtain ⟨q, hq, hqplace⟩ := h.data_place hfb0
        have hbb : v.blockOf sv fb ≠ v.blockOf sv k := by
          apply hne sv q _ hqplace
          intro he
          cases he
          exact hfb (placeOf_inj hq hp)
        exact congrArg Sector.bytes (Function.update_of_ne hbb ..)

theorem Working.block_lt (h : v.Working sv) (hd : v.blockOf sv k ≠ 0) : v.blockOf sv k < v.dblocks := by
  obtain ⟨p, -, hplace⟩ := h.data_place hd
  exact UInt32.lt_of_lt_of_le (h.sane.owned.marked_of hplace).1 h.sane.device

theorem fetched_working (h : v.dev = []) (d : UInt32) : v.fetched d = v := by
  unfold fetched
  split
  · rfl
  · exact skip_working h _

theorem Fits.put (h : v.Fits sv a b) (hi : (v.put d x).inode sv = v.inode sv)
    (hblock : ∀ fb, (v.put d x).blockOf sv fb = v.blockOf sv fb) : (v.put d x).Fits sv a b := by
  have hlack : (v.put d x).lacking sv a b = v.lacking sv a b := by
    unfold lacking
    simp only [hblock, hi]
  refine ⟨?_, fun fb => ?_⟩
  · rw [hlack]
    exact h.enough
  · rw [hblock]
    exact h.low fb

end Volume

open Call Volume

/-- The bytes of a write that have got into the file so far. -/
structure Filled (sv : UInt32) (s : IoState) (n : Nat) (t : IoState) : Prop where
  passed : Passed s.uio n t.uio
  mem : t.mem = s.mem
  working : t.vol.Working sv
  touch : Touch sv s.vol t.vol
  size : (t.vol.inode sv).size = (s.vol.inode sv).size
  bytes : ∀ x, t.vol.byteAt sv x = if s.uio.offset ≤ x ∧ x < s.uio.offset + n then
    gather s.mem (addrs s.uio.iov) (x - s.uio.offset) else s.vol.byteAt sv x
  fits : t.vol.Fits sv ((s.uio.offset + n) / blocksize) ((s.uio.offset + s.uio.resid + (blocksize - 1)) / blocksize)

theorem Filled.store (h : Filled sv s n t) (hroot : sv ≠ rootdirIno) (hg : Grown sv t.vol v)
    (hd : v.blockOf sv ((s.uio.offset + n) / blocksize) ≠ 0)
    (hf : v.Fits sv ((s.uio.offset + n) / blocksize) ((s.uio.offset + s.uio.resid + (blocksize - 1)) / blocksize))
    (hlen : (s.uio.offset + n) % blocksize + len ≤ blocksize) (hp : Passed t.uio len u.uio) (hm : u.mem = t.mem)
    (hv : u.vol = v.put (v.blockOf sv ((s.uio.offset + n) / blocksize)) (.ofBuf y))
    (hy : ∀ o < blocksize, y o = if (s.uio.offset + n) % blocksize ≤ o ∧ o < (s.uio.offset + n) % blocksize + len then
      gather t.mem (addrs t.uio.iov) (o - (s.uio.offset + n) % blocksize)
      else v.data sv ((s.uio.offset + n) / blocksize) o) : Filled sv s (n + len) u := by
  obtain ⟨htouch, hwork, hinode, hblock, hdata⟩ := hg.working.put_block hroot hd (.ofBuf y)
  rw [← hv] at htouch hwork hinode hblock hdata
  refine ⟨h.passed.trans hp, hm.trans h.mem, hwork, (h.touch.trans hg.touch).trans htouch, ?_, ?_, ?_⟩
  · rw [hinode, hg.size, h.size]
  · intro x
    have hold := h.bytes x
    unfold byteAt at hold ⊢
    rw [hdata]
    have hmod : x % blocksize < blocksize := Nat.mod_lt _ (by decide)
    by_cases hx : x / blocksize = (s.uio.offset + n) / blocksize
    · rw [if_pos hx, Sector.bytes_ofBuf _ _ hmod, hy _ hmod]
      by_cases hin : (s.uio.offset + n) % blocksize ≤ x % blocksize ∧
          x % blocksize < (s.uio.offset + n) % blocksize + len
      · rw [if_pos hin, if_pos (by simp only [blocksize] at *; omega), h.mem, h.passed.addrs, gather_drop]
        congr 1
        simp only [blocksize] at *
        omega
      · rw [if_neg hin, hg.data, ← hx, hold]
        by_cases hlt : s.uio.offset ≤ x ∧ x < s.uio.offset + n
        · rw [if_pos hlt, if_pos (by omega)]
        · rw [if_neg hlt, if_neg (by simp only [blocksize] at *; omega)]
    · rw [if_neg hx, hg.data, hold]
      by_cases hlt : s.uio.offset ≤ x ∧ x < s.uio.offset + n
      · rw [if_pos hlt, if_pos (by omega)]
      · rw [if_neg hlt, if_neg (by simp only [blocksize] at *; omega)]
  · have hput := hf.put (x := .ofBuf y) (by rw [← hv]; exact hinode) (by rw [← hv]; exact hblock)
    rw [← hv] at hput
    apply hput.mono
    apply Nat.div_le_div_right
    omega

section Writes
variable {s t : IoState}

theorem Filled.block (h : Filled sv s n t) (hmax : s.uio.offset + s.uio.resid ≤ maxsize) (hn : n ≤ s.uio.resid) :
    t.uio.offset / blocksize % 2 ^ 32 = (s.uio.offset + n) / blocksize := by
  have hsize : maxsize = 73216 := rfl
  rw [h.passed.offset]
  simp only [blocksize]
  omega

theorem Filled.bmap (h : Filled sv s n t) (hmax : s.uio.offset + s.uio.resid ≤ maxsize)
    (hlt : (s.uio.offset + n) % blocksize ≠ 0 ∨ n < s.uio.resid) (hn : n ≤ s.uio.resid) :
    Ends False (Sfs.bmap sv ((s.uio.offset + n) / blocksize) true)
      (fun d v => Grown sv t.vol v ∧ v.blockOf sv ((s.uio.offset + n) / blocksize) = d ∧ d ≠ 0 ∧
        v.Fits sv ((s.uio.offset + n) / blocksize)
          ((s.uio.offset + s.uio.resid + (blocksize - 1)) / blocksize)) (fun _ _ => False) t.vol := by
  have hsize : maxsize = 73216 := rfl
  have hblocks : maxblocks = 143 := rfl
  apply bmap_fits h.working.sane h.working.cached h.working.works h.fits
  · simp only [blocksize] at *
    omega
  · simp only [blocksize] at *
    omega

theorem Filled.partialio (h : Filled sv s n t) (hroot : sv ≠ rootdirIno) (hu : Roomy s.uio) (hw : s.uio.write = true)
    (hmax : s.uio.offset + s.uio.resid ≤ maxsize) (hlen : (s.uio.offset + n) % blocksize + len ≤ blocksize)
    (hlt : (s.uio.offset + n) % blocksize ≠ 0 ∨ n < s.uio.resid) (hn : n + len ≤ s.uio.resid) :
    Ends False (Sfs.partialio sv ((s.uio.offset + n) % blocksize) len) (fun _ => Filled sv s (n + len))
      (fun _ _ => False) t := by
  have hwt := h.passed.write.trans hw
  have hres := h.passed.resid
  apply partialio_ends (h.passed.roomy hu) hlen (by omega)
  rw [h.block hmax (by omega), hwt]
  apply (h.bmap hmax hlt (by omega)).mono
  · rintro d v ⟨hg, rfl, hd0, hf⟩
    refine ⟨fun h0 => absurd h0 hd0, ?_, ?_, ?_⟩
    · intro _ hle
      exact absurd (hg.working.block_lt hd0) (UInt32.not_lt.2 hle)
    · intro _ hfail
      have hz := failures_working hg.works
      omega
    · intro u hdone
      obtain ⟨hvol, hmem⟩ := hdone.wrote hwt
      rw [fetched_working hg.works, written_working hg.works] at hvol
      apply h.store hroot hg hd0 hf hlen hdone.passed hmem hvol
      intro o _
      unfold writeAt
      rw [content_ne hd0, data, content_ne hd0]
  · exact fun _ _ he => he

theorem Filled.blockio (h : Filled sv s n t) (hroot : sv ≠ rootdirIno) (hu : Roomy s.uio) (hw : s.uio.write = true)
    (hmax : s.uio.offset + s.uio.resid ≤ maxsize) (hn : n + blocksize ≤ s.uio.resid)
    (hal : (s.uio.offset + n) % blocksize = 0) :
    Ends False (Sfs.blockio sv) (fun _ => Filled sv s (n + blocksize)) (fun _ _ => False) t := by
  have hwt := h.passed.write.trans hw
  have hres := h.passed.resid
  apply blockio_ends (h.passed.roomy hu) (by omega)
  rw [h.block hmax (by omega), hwt]
  apply (h.bmap hmax (.inr (by simp only [blocksize] at hn; omega)) (by omega)).mono
  · rintro d v ⟨hg, rfl, hd0, hf⟩
    have hsector := sectorOf_eq_iff.2 (hf.low ((s.uio.offset + n) / blocksize))
    rw [hsector]
    refine ⟨fun h0 => absurd h0 hd0, ?_, ?_, ?_⟩
    · intro _ hle
      exact absurd (hg.working.block_lt hd0) (UInt32.not_lt.2 hle)
    · intro _ hfail
      have hz := failures_working hg.works
      omega
    · intro u hdone
      obtain ⟨hvol, hmem⟩ := hdone.wrote hwt
      rw [hsector, written_working hg.works] at hvol
      apply h.store hroot hg hd0 hf (by omega) hdone.passed hmem hvol
      intro o ho
      rw [hal, if_pos ⟨Nat.zero_le o, by omega⟩, Nat.sub_zero]
  · exact fun _ _ he => he

theorem ioTransfer_fills (h : s.vol.Working sv) (hroot : sv ≠ rootdirIno) (hu : Roomy s.uio) (hw : s.uio.write = true)
    (hmax : s.uio.offset + s.uio.resid ≤ maxsize)
    (hf : s.vol.Fits sv (s.uio.offset / blocksize) ((s.uio.offset + s.uio.resid + (blocksize - 1)) / blocksize)) :
    Ends False (ioTransfer sv) (fun _ => Filled sv s s.uio.resid) (fun _ _ => False) s := by
  apply ioTransfer_ends
  · intro n t ht
    exact ⟨ht.passed.offset, ht.passed.resid⟩
  · intro n t len ht hn hlen hne
    exact ht.partialio hroot hu hw hmax hlen (hne.imp_right fun h => by omega) hn
  · intro n t ht hn hal
    exact ht.blockio hroot hu hw hmax hn hal
  · refine ⟨.refl _, rfl, h, .refl sv _, rfl, ?_, hf⟩
    intro x
    rw [if_neg (by omega)]

end Writes

/-- The bytes of a read that have got into the buffers so far. -/
structure Fetched (sv : UInt32) (s : IoState) (n : Nat) (t : IoState) : Prop where
  passed : Passed s.uio n t.uio
  vol : t.vol = s.vol
  mem : t.mem = scatter (fun k => s.vol.byteAt sv (s.uio.offset + k)) 0 ((addrs s.uio.iov).take n) s.mem

section Reads
variable {s t u : IoState}

theorem Fetched.store (h : Fetched sv s n t) (hu : Roomy s.uio) (hn : n ≤ s.uio.resid)
    (hlen : (s.uio.offset + n) % blocksize + len ≤ blocksize) (hp : Passed t.uio len u.uio) (hv : u.vol = s.vol)
    (hm : u.mem = scatter f 0 ((addrs t.uio.iov).take len) t.mem)
    (hf : ∀ j < len, f j = s.vol.data sv ((s.uio.offset + n) / blocksize) ((s.uio.offset + n) % blocksize + j)) :
    Fetched sv s (n + len) u := by
  refine ⟨h.passed.trans hp, hv, ?_⟩
  have hroom : n ≤ (addrs s.uio.iov).length := hn.trans hu.room
  rw [hm, h.mem, h.passed.addrs, List.take_add, scatter_append, List.length_take, Nat.min_eq_left hroom]
  apply scatter_congr
  intro j hj
  have hj : j < len := Nat.lt_of_lt_of_le hj (List.length_take_le ..)
  rw [Nat.zero_add, Nat.zero_add, hf j hj]
  show _ = s.vol.data sv _ _
  have hq : (s.uio.offset + (n + j)) / blocksize = (s.uio.offset + n) / blocksize := by
    simp only [blocksize] at *
    omega
  have hr : (s.uio.offset + (n + j)) % blocksize = (s.uio.offset + n) % blocksize + j := by
    simp only [blocksize] at *
    omega
  rw [hq, hr]

theorem Fetched.bmap (h : Fetched sv s n t) (hs : s.vol.Working sv) (hmax : s.uio.offset + s.uio.resid ≤ maxsize)
    (hlt : (s.uio.offset + n) % blocksize ≠ 0 ∨ n < s.uio.resid) (hn : n ≤ s.uio.resid) :
    Ends False (Sfs.bmap sv (t.uio.offset / blocksize % 2 ^ 32) false)
      (fun d v => v = s.vol ∧ s.vol.blockOf sv ((s.uio.offset + n) / blocksize) = d) (fun _ _ => False) t.vol := by
  have hsize : maxsize = 73216 := rfl
  have hblocks : maxblocks = 143 := rfl
  have hblock : t.uio.offset / blocksize % 2 ^ 32 = (s.uio.offset + n) / blocksize := by
    rw [h.passed.offset]
    simp only [blocksize]
    omega
  rw [hblock, h.vol]
  apply (bmap_grown hs.sane hs.cached hs.works).mono
  · rintro d v ⟨-, hd, -, hv⟩
    rw [hv rfl] at hd
    exact ⟨hv rfl, hd⟩
  · rintro e v ⟨hg, ⟨-, hnew, -⟩ | ⟨-, hbig⟩⟩
    · cases hnew
    · simp only [blocksize] at *
      omega

theorem Fetched.partialio (h : Fetched sv s n t) (hs : s.vol.Working sv) (hu : Roomy s.uio) (hw : s.uio.write = false)
    (hmax : s.uio.offset + s.uio.resid ≤ maxsize) (hlen : (s.uio.offset + n) % blocksize + len ≤ blocksize)
    (hlt : (s.uio.offset + n) % blocksize ≠ 0 ∨ n < s.uio.resid) (hn : n + len ≤ s.uio.resid) :
    Ends False (Sfs.partialio sv ((s.uio.offset + n) % blocksize) len) (fun _ => Fetched sv s (n + len))
      (fun _ _ => False) t := by
  have hwt := h.passed.write.trans hw
  have hres := h.passed.resid
  apply partialio_ends (h.passed.roomy hu) hlen (by omega)
  rw [hwt]
  apply (h.bmap hs hmax hlt (by omega)).mono
  · rintro d v ⟨rfl, rfl⟩
    refine ⟨nofun, ?_, ?_, ?_⟩
    · intro hd0 hle
      exact absurd (hs.block_lt hd0) (UInt32.not_lt.2 hle)
    · intro _ hfail
      have hz := failures_working hs.works
      omega
    · intro u hdone
      obtain ⟨hvol, hmem⟩ := hdone.read hwt
      rw [fetched_working hs.works] at hvol
      apply h.store hu (by omega) hlen hdone.passed hvol hmem
      intro j _
      rfl
  · exact fun _ _ he => he

theorem Fetched.blockio (h : Fetched sv s n t) (hs : s.vol.Working sv) (hu : Roomy s.uio) (hw : s.uio.write = false)
    (hlow : ∀ fb, (s.vol.blockOf sv fb).toNat < lowBlocks) (hmax : s.uio.offset + s.uio.resid ≤ maxsize)
    (hn : n + blocksize ≤ s.uio.resid) (hal : (s.uio.offset + n) % blocksize = 0) :
    Ends False (Sfs.blockio sv) (fun _ => Fetched sv s (n + blocksize)) (fun _ _ => False) t := by
  have hwt := h.passed.write.trans hw
  have hres := h.passed.resid
  apply blockio_ends (h.passed.roomy hu) (by omega)
  rw [hwt]
  apply (h.bmap hs hmax (.inr (by simp only [blocksize] at hn; omega)) (by omega)).mono
  · rintro d v ⟨rfl, rfl⟩
    have hsector := sectorOf_eq_iff.2 (hlow ((s.uio.offset + n) / blocksize))
    rw [hsector]
    refine ⟨nofun, ?_, ?_, ?_⟩
    · intro hd0 hle
      exact absurd (hs.block_lt hd0) (UInt32.not_lt.2 hle)
    · intro _ hfail
      have hz := failures_working hs.works
      omega
    · intro u hdone
      obtain ⟨hvol, hmem⟩ := hdone.read hwt
      rw [fetched_working hs.works] at hvol
      rw [hsector] at hmem
      apply h.store hu (by omega) (by omega) hdone.passed hvol hmem
      intro j _
      rw [hal, Nat.zero_add]
      rfl
  · exact fun _ _ he => he

theorem ioTransfer_fetches (hs : s.vol.Working sv) (hu : Roomy s.uio) (hw : s.uio.write = false)
    (hlow : ∀ fb, (s.vol.blockOf sv fb).toNat < lowBlocks) (hmax : s.uio.offset + s.uio.resid ≤ maxsize) :
    Ends False (ioTransfer sv) (fun _ => Fetched sv s s.uio.resid) (fun _ _ => False) s := by
  apply ioTransfer_ends
  · intro n t ht
    exact ⟨ht.passed.offset, ht.passed.resid⟩
  · intro n t len ht hn hlen hne
    exact ht.partialio hs hu hw hmax hlen (hne.imp_right fun h => by omega) hn
  · intro n t ht hn hal
    exact ht.blockio hs hu hw hlow hmax hn hal
  · exact ⟨.refl _, rfl, rfl⟩

end Reads

end Sfs
end Clape
