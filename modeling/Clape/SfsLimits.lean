import Clape.SfsGrowth
import Clape.SfsTransfers

namespace Clape
set_option autoImplicit true

namespace Sfs
open Call

/-- The block number that `sfs_io` computes first, with 32 bits. -/
def IoState.block (s : IoState) : Nat := s.uio.offset / blocksize % 2 ^ 32

theorem bmap_limit {v : Volume} (hc : v.Cached sv) :
    Ends (fb < maxblocks) (bmap sv fb doalloc)
      (fun _ v' => fb < maxblocks ∧ v'.Cached sv ∧ (v'.inode sv).size = (v.inode sv).size)
      (fun e v' => v'.Cached sv ∧ (v'.inode sv).size = (v.inode sv).size ∧ (e = .efbig ↔ maxblocks ≤ fb) ∧
        (maxblocks ≤ fb → v' = v)) v := by
  by_cases hbig : maxblocks ≤ fb
  · have hlt : ¬ fb < ndirect := by
      unfold maxblocks at hbig
      omega
    have hdiv : nindirect ≤ (fb - ndirect) / dbperidb := by
      simp only [maxblocks, ndirect, nindirect, dbperidb] at *
      omega
    unfold bmap
    rw [dif_neg hlt, if_pos hdiv]
    exact ⟨hc, rfl, iff_of_true rfl hbig, fun _ => rfl⟩
  · have hlt := Nat.not_le.1 hbig
    apply (bmap_ends hc fun _ => hlt).mono
    · intro d v' h
      exact ⟨hlt, h.size hc⟩
    · intro e v' h
      refine ⟨(h.size hc).1, (h.size hc).2, iff_of_false ?_ hbig, fun h => absurd h hbig⟩
      intro he
      subst he
      cases h with
      | tooBig h => exact hbig h

theorem block_limit (h : offset ≤ maxsize) (hb : offset / blocksize % 2 ^ 32 < maxblocks)
    (hl : offset % blocksize + len ≤ blocksize) : offset + len ≤ maxsize := by
  have hsize : maxsize = 73216 := rfl
  have hblocks : maxblocks = 143 := rfl
  simp only [blocksize] at hb hl
  omega

variable {s t : IoState}

/-- A write in which some bytes have been transferred. -/
structure Written (sv : UInt32) (s : IoState) (n : Nat) (t : IoState) : Prop where
  passed : Passed s.uio n t.uio
  cached : t.vol.Cached sv
  size : (t.vol.inode sv).size = (s.vol.inode sv).size
  low : 0 < n → s.block < maxblocks
  limit : s.uio.offset < maxsize → s.uio.offset + n ≤ maxsize
  same : maxblocks ≤ s.block → t = s

/-- A write that has failed. -/
def Failed (sv : UInt32) (s : IoState) (e : Errno) (t : IoState) : Prop :=
  ∃ n, Written sv s n t ∧ (n = 0 → (e = .efbig ↔ maxblocks ≤ s.block))

theorem Written.refl (hc : s.vol.Cached sv) : Written sv s 0 s where
  passed := .refl s.uio
  cached := hc
  size := rfl
  low h := absurd h (Nat.lt_irrefl 0)
  limit h := Nat.le_of_lt h
  same _ := rfl

theorem Written.block (h : Written sv s 0 t) : t.block = s.block := by
  unfold IoState.block
  rw [h.passed.offset, Nat.add_zero]

theorem Written.below (h : Written sv s n t) (hb : t.block < maxblocks) : s.block < maxblocks := by
  by_contra hbig
  rw [h.same (Nat.not_lt.1 hbig)] at hb
  exact hbig hb

theorem Written.step (h : Written sv s n t) (hb : t.block < maxblocks) (hp : Passed t.uio len u.uio)
    (hlen : t.uio.offset % blocksize + len ≤ blocksize) (hc : u.vol.Cached sv)
    (hs : (u.vol.inode sv).size = (t.vol.inode sv).size) : Written sv s (n + len) u where
  passed := h.passed.trans hp
  cached := hc
  size := hs.trans h.size
  low _ := h.below hb
  limit hlt := by
    have hle := h.limit hlt
    rw [← h.passed.offset] at hle
    rw [← Nat.add_assoc, ← h.passed.offset]
    exact block_limit hle hb hlen
  same hbig := absurd (h.below hb) (Nat.not_lt.2 hbig)

theorem Written.fails (h : Written sv s n t) (hv : v.Cached sv) (hs : (v.inode sv).size = (t.vol.inode sv).size)
    (he : e = .efbig ↔ maxblocks ≤ t.block) (hsame : maxblocks ≤ t.block → v = t.vol) :
    Failed sv s e { t with vol := v } := by
  refine ⟨n, ⟨h.passed, hv, hs.trans h.size, h.low, h.limit, ?_⟩, ?_⟩
  · intro hbig
    have ht := h.same hbig
    subst ht
    rw [hsame hbig]
  · rintro rfl
    rw [← h.block]
    exact he

theorem fetched_vnodes {v : Volume} : (v.fetched d).vnodes = v.vnodes := by
  unfold Volume.fetched
  split <;> rfl

theorem Written.partialio (h : Written sv s n t) (hu : Roomy s.uio) (hw : s.uio.write = true)
    (hn : n + len ≤ s.uio.resid) (hlen : t.uio.offset % blocksize + len ≤ blocksize) :
    Ends (s.block < maxblocks) (partialio sv (t.uio.offset % blocksize) len)
      (fun _ => Written sv s (n + len)) (Failed sv s) t := by
  have hres := h.passed.resid
  apply partialio_ends (h.passed.roomy hu) hlen (by omega)
  apply ((bmap_limit h.cached).stops h.below).mono
  · rintro d v ⟨hb, hc, hs⟩
    refine ⟨fun _ _ => h.below hb, fun _ _ => h.below hb, ?_, ?_⟩
    · intro _ _
      refine h.fails hc hs ?_ fun hbig => absurd hb (Nat.not_lt.2 hbig)
      exact iff_of_false (by simp) (Nat.not_le.2 hb)
    · intro u hdone
      obtain ⟨hvol, -⟩ := hdone.wrote (h.passed.write.trans hw)
      have hv : u.vol.vnodes = v.vnodes := by
        rw [hvol, Volume.written_vnodes, fetched_vnodes]
      exact h.step hb hdone.passed hlen ((Volume.cached_congr hv).2 hc) (by rw [Volume.inode_congr hv hc, hs])
  · rintro e v ⟨hc, hs, he, hsame⟩
    exact h.fails hc hs he hsame

theorem Written.blockio (h : Written sv s n t) (hu : Roomy s.uio) (hw : s.uio.write = true)
    (hn : n + blocksize ≤ s.uio.resid) (hal : t.uio.offset % blocksize = 0) :
    Ends (s.block < maxblocks) (blockio sv) (fun _ => Written sv s (n + blocksize)) (Failed sv s) t := by
  have hres := h.passed.resid
  apply blockio_ends (h.passed.roomy hu) (by omega)
  apply ((bmap_limit h.cached).stops h.below).mono
  · rintro d v ⟨hb, hc, hs⟩
    refine ⟨fun _ _ => h.below hb, fun _ _ => h.below hb, ?_, ?_⟩
    · intro _ _
      refine h.fails hc hs ?_ fun hbig => absurd hb (Nat.not_lt.2 hbig)
      exact iff_of_false (by simp) (Nat.not_le.2 hb)
    · intro u hdone
      obtain ⟨hvol, -⟩ := hdone.wrote (h.passed.write.trans hw)
      have hv : u.vol.vnodes = v.vnodes := by
        rw [hvol, Volume.written_vnodes]
      exact h.step hb hdone.passed (by omega) ((Volume.cached_congr hv).2 hc) (by rw [Volume.inode_congr hv hc, hs])
  · rintro e v ⟨hc, hs, he, hsame⟩
    exact h.fails hc hs he hsame

theorem ioTransfer_limit (hc : s.vol.Cached sv) (hu : Roomy s.uio) (hw : s.uio.write = true) :
    Ends (s.block < maxblocks) (ioTransfer sv) (fun _ => Written sv s s.uio.resid) (Failed sv s) s := by
  apply ioTransfer_ends
  · intro n t h
    exact ⟨h.passed.offset, h.passed.resid⟩
  · intro n t len h hn hlen _
    rw [← h.passed.offset] at hlen ⊢
    exact h.partialio hu hw hn hlen
  · intro n t h hn hal
    rw [← h.passed.offset] at hal
    exact h.blockio hu hw hn hal
  · exact .refl hc

theorem sized_uio (t : IoState) : (t.sized sv resid).uio = t.uio := by
  unfold IoState.sized
  split <;> rfl

theorem io_limit (hc : s.vol.Cached sv) (hu : Roomy s.uio) (hw : s.uio.write = true) :
    Ends (s.block < maxblocks) (io sv)
      (fun _ t => ∃ u, Written sv s s.uio.resid u ∧ t = u.sized sv s.uio.resid)
      (fun e t => ∃ u, Failed sv s e u ∧ t = u.sized sv s.uio.resid) s := by
  apply io_write_ends hc hw
  apply (ioTransfer_limit hc hu hw).mono
  · intro _ t h
    exact ⟨h.cached, t, h, rfl⟩
  · intro e t h
    obtain ⟨n, hwr, -⟩ := id h
    exact ⟨hwr.cached, t, h, rfl⟩

theorem Written.sized (h : Written sv s n t) (hw : s.uio.write = true) (hn : t.uio.resid ≠ s.uio.resid)
    (hlt : s.uio.offset < maxsize) :
    ((t.sized sv s.uio.resid).vol.inode sv).size.toNat = max (s.vol.inode sv).size.toNat t.uio.offset := by
  unfold IoState.sized
  rw [h.size]
  by_cases hgrow : (s.vol.inode sv).size.toNat < t.uio.offset
  · have hle := h.limit hlt
    rw [← h.passed.offset] at hle
    have hsize : maxsize = 73216 := rfl
    rw [if_pos ⟨hn, h.passed.write.trans hw, hgrow⟩]
    show (((t.vol.edit sv _).inode sv).size).toNat = _
    rw [Volume.inode_edit h.cached, UInt32.toNat_ofNat', Nat.max_eq_right (Nat.le_of_lt hgrow)]
    exact Nat.mod_eq_of_lt (by omega)
  · rw [if_neg fun h => hgrow h.2.2, h.size, Nat.max_eq_left (Nat.not_lt.1 hgrow)]

/-- A write beyond the limit is refused, and a write that transfers something leaves the right length,
exactly when the block number that is computed with 32 bits is past the limit too. -/
theorem write_limit (hc : s.vol.Cached sv) (hw : s.uio.write = true) (hu : Roomy s.uio) :
    ((maxsize ≤ s.uio.offset → 0 < s.uio.resid → ∃ t, io sv s = .ok (.error .efbig, t) ∧
        t.uio.resid = s.uio.resid ∧ (t.vol.inode sv).size = (s.vol.inode sv).size ∧
        t.vol.freemap = s.vol.freemap ∧ t.vol.disk = s.vol.disk) ∧
      ∀ r t, io sv s = .ok (r, t) → t.uio.resid ≠ s.uio.resid →
        (t.vol.inode sv).size.toNat = max (s.vol.inode sv).size.toNat t.uio.offset) ↔
    s.uio.resid = 0 ∨ s.uio.offset < maxsize ∨ maxblocks ≤ s.uio.offset / blocksize % 2 ^ 32 := by
  have hends := io_limit hc hu hw
  constructor
  · rintro ⟨hbig, -⟩
    by_contra hn
    simp only [not_or, Nat.not_lt] at hn
    obtain ⟨hpos, hoff, hblock⟩ := hn
    obtain ⟨t, hio, hres, -⟩ := hbig hoff (Nat.pos_of_ne_zero hpos)
    obtain ⟨u, ⟨n, hwr, he⟩, rfl⟩ := hends.errno hio
    rw [sized_uio] at hres
    have hpass := hwr.passed.resid
    exact hblock ((he (by omega)).1 rfl)
  · intro hcond
    constructor
    · intro hoff hpos
      have hblock : maxblocks ≤ s.block := by
        rcases hcond with h | h | h
        · omega
        · omega
        · exact h
      obtain ⟨r, t, hio⟩ := Ends.ok (hends.stops (q := False) fun h => absurd h (Nat.not_lt.2 hblock))
      cases r with
      | ok =>
        obtain ⟨u, hwr, -⟩ := hends.value hio
        exact absurd (hwr.low hpos) (Nat.not_lt.2 hblock)
      | error e =>
        obtain ⟨u, ⟨n, hwr, he⟩, rfl⟩ := hends.errno hio
        have hsame := hwr.same hblock
        subst hsame
        have hn : n = 0 := by
          have hpass := hwr.passed.resid
          omega
        rw [(he hn).2 hblock] at hio
        refine ⟨_, hio, ?_⟩
        have hsized : u.sized sv u.uio.resid = u := if_neg fun h => h.1 rfl
        rw [hsized]
        exact ⟨rfl, rfl, rfl, rfl⟩
    · intro r t hio hne
      have hwr : ∃ n u, Written sv s n u ∧ t = u.sized sv s.uio.resid := by
        cases r with
        | ok =>
          obtain ⟨u, hwr, rfl⟩ := hends.value hio
          exact ⟨_, u, hwr, rfl⟩
        | error e =>
          obtain ⟨u, ⟨n, hwr, -⟩, rfl⟩ := hends.errno hio
          exact ⟨n, u, hwr, rfl⟩
      obtain ⟨n, u, hwr, rfl⟩ := hwr
      rw [sized_uio] at hne ⊢
      have hpass := hwr.passed.resid
      rcases hcond with h | h | h
      · omega
      · exact hwr.sized hw hne h
      · exact absurd (hwr.low (by omega)) (Nat.not_lt.2 h)

/-- A write of one block to the file of the small volume. -/
def smallWriteAt (offset : Nat) : IoState := ⟨smallVolume, ⟨[⟨0, 512⟩], offset, 512, true⟩, fun _ => 1⟩

theorem smallWriteAt_roomy (offset : Nat) : Roomy (smallWriteAt offset).uio :=
  ⟨by simp [smallWriteAt], by simp [smallWriteAt, addrs]⟩

theorem write_limit_small : smallVolume.Cached 3 ∧ Roomy (smallWriteAt maxsize).uio ∧
    ∃ t, io 3 (smallWriteAt maxsize) = .ok (.error .efbig, t) ∧ t.uio.resid = 512 ∧
      (t.vol.inode 3).size = 512 ∧ t.vol.freemap = smallVolume.freemap ∧ t.vol.disk = smallVolume.disk := by
  have hc : smallVolume.Cached 3 := rfl
  have hu := smallWriteAt_roomy maxsize
  refine ⟨hc, hu, ?_⟩
  have hlimit := (write_limit (s := smallWriteAt maxsize) hc rfl hu).2 (.inr (.inr (by decide)))
  exact hlimit.1 (Nat.le_refl _) (by decide)

/-- A write at `2^41` goes to the first block of the file. -/
theorem write_wraps : ∃ t, io 3 (smallWriteAt (2 ^ 41)) = .ok (.ok (), t) ∧ maxsize ≤ (smallWriteAt (2 ^ 41)).uio.offset ∧
    (t.vol.inode 3).size.toNat ≠ max (smallVolume.inode 3).size.toNat t.uio.offset := by
  have hrun : succeeded (io 3 (smallWriteAt (2 ^ 41)))
      (fun t => t.uio.offset == 2 ^ 41 + 512 && (t.vol.inode 3).size == 512) = true := by decide +kernel
  obtain ⟨u, t, hio, ht⟩ := exists_of_succeeded hrun
  rw [Bool.and_eq_true, beq_iff_eq, beq_iff_eq] at ht
  refine ⟨t, hio, ?_, ?_⟩
  · show maxsize ≤ 2 ^ 41
    decide
  · rw [ht.1, ht.2]
    decide

end Sfs
end Clape
