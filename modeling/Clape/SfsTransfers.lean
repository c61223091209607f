import Clape.SfsMapping

namespace Clape
set_option autoImplicit true

namespace Sfs
open Call

theorem ends_onVolume {m : Sfs α} {Q : α → IoState → Prop} {s : IoState} :
    Ends p (onVolume m) Q E s ↔
      Ends p m (fun a v => Q a { s with vol := v }) (fun e v => E e { s with vol := v }) s.vol := by
  unfold Ends onVolume
  cases m s.vol with
  | error x => exact Iff.rfl
  | ok x =>
    cases x with
    | mk r v => cases r <;> exact Iff.rfl

/-- The loop over the whole blocks. The invariant is about the bytes that are done. -/
theorem wholeBlocks_ends {I : Nat → IoState → Prop} {s : IoState} {start total n m : Nat}
    (hblock : ∀ k t, I k t → k + blocksize ≤ total → (start + k) % blocksize = 0 →
      Ends p (blockio sv) (fun _ => I (k + blocksize)) E t)
    (hal : (start + n) % blocksize = 0) (hm : n + blocksize * m ≤ total) (h : I n s) :
    Ends p ((List.range m).foldlM (fun _ _ => blockio sv) ()) (fun _ => I (n + blocksize * m)) E s := by
  have hfold := Ends.foldlM (p := p) (E := E) (l := List.range m)
    (f := fun _ _ => blockio sv) (P := fun done _ u => I (n + blocksize * done.length) u) (a := ()) (s := s) h ?_
  · rw [List.length_range] at hfold
    exact hfold
  · intro done i rest _ u hl hu
    have hlen := congrArg List.length hl
    rw [List.length_range, List.length_append, List.length_cons] at hlen
    have hroom : n + blocksize * done.length + blocksize ≤ total := by
      simp only [blocksize] at *
      omega
    have halign : (start + (n + blocksize * done.length)) % blocksize = 0 := by
      simp only [blocksize] at *
      omega
    rw [List.length_append, List.length_singleton, Nat.mul_succ, ← Nat.add_assoc]
    exact hblock _ u hu hroom halign

/-- The transfer of `sfs_io` is made of parts that do not cross the end of a block. -/
theorem ioTransfer_ends {I : Nat → IoState → Prop} {s : IoState}
    (hI : ∀ n t, I n t → t.uio.offset = start + n ∧ t.uio.resid + n = total)
    (hpart : ∀ n t len, I n t → n + len ≤ total → (start + n) % blocksize + len ≤ blocksize →
      (start + n) % blocksize ≠ 0 ∨ 0 < len →
      Ends p (partialio sv ((start + n) % blocksize) len) (fun _ => I (n + len)) E t)
    (hblock : ∀ n t, I n t → n + blocksize ≤ total → (start + n) % blocksize = 0 →
      Ends p (blockio sv) (fun _ => I (n + blocksize)) E t)
    (h0 : I 0 s) : Ends p (ioTransfer sv) (fun _ => I total) E s := by
  obtain ⟨hoff, hres⟩ := hI 0 s h0
  unfold ioTransfer
  simp only [ends_bind, ends_state]
  have hoff : s.uio.offset = start := hoff
  have hres : s.uio.resid = total := hres
  rw [hoff, hres]
  -- the leading part
  have hlead : Ends p (when (decide (start % blocksize ≠ 0))
      (partialio sv (start % blocksize) (min (blocksize - start % blocksize) total)))
      (fun _ t => ∃ n, I n t ∧ ((start + n) % blocksize = 0 ∨ n = total)) E s := by
    rw [ends_when]
    constructor
    · intro hne
      rw [decide_eq_true_eq] at hne
      have hlt : start % blocksize < blocksize := Nat.mod_lt _ (by decide)
      apply (hpart 0 s (min (blocksize - start % blocksize) total) h0 _ _ (.inl hne)).mono
      · intro _ t ht
        refine ⟨_, ht, ?_⟩
        simp only [blocksize] at *
        omega
      · intro e t he
        exact he
      · omega
      · rw [Nat.add_zero]
        omega
    · intro hz
      rw [decide_eq_false_iff_not, not_not] at hz
      exact ⟨0, h0, .inl hz⟩
  apply hlead.mono
  · rintro _ t ⟨n, hn, hal⟩
    obtain ⟨hoff, hres⟩ := hI n t hn
    rw [ends_when]
    constructor
    · intro hne
      rw [decide_eq_true_eq] at hne
      have hal := hal.resolve_right (by omega)
      simp only [ends_bind, ends_require, ends_state, decide_eq_true_eq, decide_eq_false_iff_not]
      rw [hoff]
      refine ⟨fun _ => ?_, fun h => absurd hal h⟩
      have hwhole : n + blocksize * (t.uio.resid / blocksize) ≤ total := by
        simp only [blocksize]
        omega
      apply (wholeBlocks_ends hblock hal hwhole hn).mono
      · intro _ u hu
        obtain ⟨hoff', hres'⟩ := hI _ u hu
        have hrest : u.uio.resid < blocksize := by
          simp only [blocksize] at *
          omega
        refine ⟨fun _ => ?_, fun h => absurd hrest h⟩
        rw [ends_when, decide_eq_true_eq, decide_eq_false_iff_not]
        constructor
        · intro hpos
          have halign : (start + (n + blocksize * (t.uio.resid / blocksize))) % blocksize = 0 := by
            simp only [blocksize] at *
            omega
          have htail := hpart _ u u.uio.resid hu (by omega) (by omega) (.inr hpos)
          rw [halign] at htail
          apply htail.mono
          · intro _ x hx
            have hsum : n + blocksize * (t.uio.resid / blocksize) + u.uio.resid = total := by omega
            rw [hsum] at hx
            exact hx
          · intro e x he
            exact he
        · intro hz
          have hsum : n + blocksize * (t.uio.resid / blocksize) = total := by omega
          rw [hsum] at hu
          exact hu
      · intro e u he
        exact he
    · intro hz
      rw [decide_eq_false_iff_not, not_not] at hz
      have hsum : n = total := by omega
      rw [hsum] at hn
      exact hn
  · intro e t he
    exact he

/-- The buffers hold what is left of the transfer. -/
structure Roomy (u : Uio) : Prop where
  bound : u.resid < 4294967296
  room : u.resid ≤ (addrs u.iov).length

/-- The `uio` after some bytes have passed. -/
structure Passed (u : Uio) (n : Nat) (u' : Uio) : Prop where
  offset : u'.offset = u.offset + n
  resid : u'.resid + n = u.resid
  write : u'.write = u.write
  addrs : addrs u'.iov = (addrs u.iov).drop n

theorem Passed.refl (u : Uio) : Passed u 0 u := ⟨rfl, rfl, rfl, rfl⟩

theorem Passed.roomy (h : Passed u n u') (hu : Roomy u) : Roomy u' := by
  have hb := hu.bound
  have hr := hu.room
  have hres := h.resid
  refine ⟨by omega, ?_⟩
  rw [h.addrs, List.length_drop]
  omega

theorem Passed.trans (h : Passed u m u') (h' : Passed u' n u'') : Passed u (m + n) u'' where
  offset := by rw [h'.offset, h.offset, Nat.add_assoc]
  resid := by
    have h1 := h.resid
    have h2 := h'.resid
    omega
  write := h'.write.trans h.write
  addrs := by rw [h'.addrs, h.addrs, List.drop_drop]

theorem move_ends (buf : Buf) (ptr : Nat) {s : IoState} (hu : Roomy s.uio) (hn : n ≤ s.uio.resid) :
    Ends p (move buf ptr n) (fun buf' t => t.vol = s.vol ∧ Passed s.uio n t.uio ∧
      Moved s.uio.write (addrs s.uio.iov) ptr n buf s.mem buf' t.mem) E s := by
  obtain ⟨iov, buf', mem, hm, ha, hmoved⟩ := move_spec buf ptr hn hu.bound (Nat.le_trans hn hu.room)
  exact .of_ok hm ⟨rfl, ⟨rfl, Nat.sub_add_cancel hn, rfl, ha⟩, hmoved⟩

theorem movezeros_ends {s : IoState} (hu : Roomy s.uio) (hn : n ≤ s.uio.resid) (hw : s.uio.write = false) :
    Ends p (movezeros n) (fun _ t => t.vol = s.vol ∧ Passed s.uio n t.uio ∧
      t.mem = scatter (fun _ => 0) 0 ((addrs s.uio.iov).take n) s.mem) E s := by
  obtain ⟨iov, hm, ha⟩ := uiomovezeros_spec s.mem hn hu.bound (Nat.le_trans hn hu.room) hw
  have hz : movezeros n s = .ok (.ok (), { s with
      uio := ⟨iov, s.uio.offset + n, s.uio.resid - n, false⟩
      mem := scatter (fun _ => 0) 0 ((addrs s.uio.iov).take n) s.mem }) := by
    unfold movezeros
    rw [hm]
  exact .of_ok hz ⟨rfl, ⟨rfl, Nat.sub_add_cancel hn, hw.symm, ha⟩, rfl⟩

/-- The volume after the block that `sfs_bmap` gave has been read. -/
def Volume.fetched (v : Volume) (d : UInt32) : Volume := if d = 0 then v else v.skip (v.failures + 1)

/-- What `sfs_partialio` does with the block that `sfs_bmap` gave it. -/
structure PartDone (s : IoState) (skip len : Nat) (d : UInt32) (v : Volume) (t : IoState) : Prop where
  passed : Passed s.uio len t.uio
  wrote : s.uio.write = true → t.vol = (v.fetched d).written d
    (writeAt (v.content d) skip len (gather s.mem (addrs s.uio.iov))) ∧ t.mem = s.mem
  read : s.uio.write = false → t.vol = v.fetched d ∧
    t.mem = scatter (readAt (v.content d) skip) 0 ((addrs s.uio.iov).take len) s.mem

/-- The rule for `sfs_partialio`. It panics on a hole that is written to and on a block that the device
does not have. -/
theorem partialio_ends {s : IoState} (hu : Roomy s.uio) (hlen : skip + len ≤ blocksize)
    (hn : len ≤ s.uio.resid) {Q : Unit → IoState → Prop}
    (hmap : Ends p (bmap sv (s.uio.offset / blocksize % 2 ^ 32) s.uio.write)
      (fun d v => (d = 0 → s.uio.write = true → p) ∧ (d ≠ 0 → v.dblocks ≤ d → p) ∧
        (d ≠ 0 → 10 < v.failures → E .eio { s with vol := v.skip 11 }) ∧
        ∀ t, PartDone s skip len d v t → Q () t)
      (fun e v => E e { s with vol := v }) s.vol) :
    Ends p (partialio sv skip len) Q E s := by
  unfold partialio
  rw [ends_bind, ends_require, decide_eq_true hlen]
  refine ⟨fun _ => ?_, Bool.noConfusion⟩
  simp only [ends_bind, ends_state]
  rw [ends_onVolume]
  apply hmap.mono
  · rintro d v ⟨hhole, hrange, heio, hdone⟩
    -- with the block in the buffer
    have hrest : (s.uio.write = true → d < v.dblocks) → Ends p (do
          let iobuf ← move (v.content d) skip len
          when s.uio.write (onVolume (writeblock d iobuf))) Q E { s with vol := v.fetched d } := by
      intro hdev
      rw [ends_bind]
      apply (move_ends (v.content d) skip (s := { s with vol := v.fetched d }) hu hn).mono
      · rintro buf t ⟨hvol, hpass, hmoved⟩
        rw [ends_when]
        constructor
        · intro hw
          obtain ⟨rfl, hmem⟩ := hmoved.put hw
          have hb : d < t.vol.dblocks := by
            rw [hvol, Volume.fetched]
            split <;> exact hdev hw
          rw [ends_onVolume, ends_writeblock hb]
          apply hdone
          exact ⟨hpass, fun _ => ⟨by rw [hvol], hmem⟩, fun h => absurd (hw.symm.trans h) Bool.noConfusion⟩
        · intro hw
          obtain ⟨hmem, -⟩ := hmoved.get hw
          apply hdone
          exact ⟨hpass, fun h => absurd (h.symm.trans hw) Bool.noConfusion, fun _ => ⟨hvol, hmem⟩⟩
      · intro e t he
        exact he
    by_cases hd : d = 0
    · rw [if_pos hd, ends_bind, ends_require, Bool.not_eq_true', Bool.not_eq_false']
      refine ⟨fun hw => ?_, hhole hd⟩
      unfold Volume.fetched Volume.content at hrest
      rw [if_pos hd, if_pos hd] at hrest
      exact hrest fun h => absurd (h.symm.trans hw) Bool.noConfusion
    · rw [if_neg hd, ends_bind, ends_onVolume]
      unfold Volume.fetched Volume.content at hrest
      rw [if_neg hd, if_neg hd] at hrest
      by_cases hb : d < v.dblocks
      · exact (ends_readblock hb).2 ⟨fun _ => hrest fun _ => hb, heio hd⟩
      · exact .of_stop (readblock_range (UInt32.not_lt.1 hb)) (hrange hd (UInt32.not_lt.1 hb))
  · intro e v he
    exact he

/-- What `sfs_blockio` does with the block that `sfs_bmap` gave it. -/
structure BlockDone (s : IoState) (d : UInt32) (v : Volume) (t : IoState) : Prop where
  passed : Passed s.uio blocksize t.uio
  wrote : s.uio.write = true → t.vol = v.written (sectorOf d) (gather s.mem (addrs s.uio.iov)) ∧ t.mem = s.mem
  read : s.uio.write = false → t.vol = v.fetched d ∧
    t.mem = scatter (if d = 0 then zeros else (v.disk (sectorOf d)).bytes) 0 ((addrs s.uio.iov).take blocksize) s.mem

/-- The rule for `sfs_blockio`. It panics on a hole that is written to and on a sector that the device
does not have. -/
theorem blockio_ends {s : IoState} (hu : Roomy s.uio) (hn : blocksize ≤ s.uio.resid) {Q : Unit → IoState → Prop}
    (hmap : Ends p (bmap sv (s.uio.offset / blocksize % 2 ^ 32) s.uio.write)
      (fun d v => (d = 0 → s.uio.write = true → p) ∧ (d ≠ 0 → v.dblocks ≤ sectorOf d → p) ∧
        (d ≠ 0 → 10 < v.failures → E .eio { s with vol := v.skip 11 }) ∧
        ∀ t, BlockDone s d v t → Q () t)
      (fun e v => E e { s with vol := v }) s.vol) :
    Ends p (blockio sv) Q E s := by
  cases hb : bmap sv (s.uio.offset / blocksize % 2 ^ 32) s.uio.write s.vol with
  | error x =>
    have hio : blockio sv s = .error x := by
      show andThen (onVolume (bmap sv (s.uio.offset / blocksize % 2 ^ 32) s.uio.write)) _ s = _
      unfold andThen onVolume
      rw [hb]
    unfold Ends at hmap
    rw [hb] at hmap
    exact .of_stop hio hmap
  | ok x =>
    obtain ⟨r, v⟩ := x
    cases r with
    | error e =>
      have hio : blockio sv s = .ok (.error e, { s with vol := v }) := by
        show andThen (onVolume (bmap sv (s.uio.offset / blocksize % 2 ^ 32) s.uio.write)) _ s = _
        unfold andThen onVolume
        rw [hb]
      exact .of_error hio (hmap.errno hb)
    | ok d =>
      obtain ⟨hhole, hrange, heio, hdone⟩ := hmap.value hb
      by_cases hd : d = 0
      · unfold blockio
        rw [ends_bind, ends_state, ends_bind, ends_onVolume]
        apply Ends.of_ok hb
        rw [if_pos hd, ends_bind, ends_require, Bool.not_eq_true', Bool.not_eq_false']
        refine ⟨fun hw => ?_, hhole hd⟩
        apply (movezeros_ends (s := { s with vol := v }) hu hn hw).mono
        · rintro _ t ⟨hvol, hpass, hmem⟩
          apply hdone
          refine ⟨hpass, fun h => absurd (h.symm.trans hw) Bool.noConfusion, fun _ => ?_⟩
          unfold Volume.fetched
          rw [if_pos hd, if_pos hd]
          exact ⟨hvol, hmem⟩
        · intro e t he
          exact he
      · have ht : BlockTransfer sv s d v := ⟨hb, hd, hn, hu.bound, hu.room⟩
        by_cases hdev : sectorOf d < v.dblocks
        · cases hw : s.uio.write with
          | true =>
            obtain ⟨iov, ha, hio⟩ := ht.write hdev hw
            apply Ends.of_ok hio
            apply hdone
            exact ⟨⟨rfl, Nat.sub_add_cancel hn, hw.symm, ha⟩, fun _ => ⟨rfl, rfl⟩,
              fun h => absurd (hw.symm.trans h) Bool.noConfusion⟩
          | false =>
            obtain ⟨iov, ha, hio⟩ := ht.read hdev hw
            by_cases hf : v.failures ≤ 10
            · rw [if_pos hf] at hio
              apply Ends.of_ok hio
              apply hdone
              refine ⟨⟨rfl, Nat.sub_add_cancel hn, hw.symm, ha⟩, fun h => absurd (h.symm.trans hw) Bool.noConfusion,
                fun _ => ?_⟩
              unfold Volume.fetched
              rw [if_neg hd, if_neg hd]
              exact ⟨rfl, rfl⟩
            · rw [if_neg hf] at hio
              exact .of_error hio (heio hd (Nat.not_le.1 hf))
        · exact .of_stop (ht.range (UInt32.not_lt.1 hdev)) (hrange hd (UInt32.not_lt.1 hdev))

/-- The state after `sfs_io` has looked at the length of the file. -/
def IoState.sized (sv : UInt32) (resid : Nat) (t : IoState) : IoState :=
  if t.uio.resid ≠ resid ∧ t.uio.write = true ∧ (t.vol.inode sv).size.toNat < t.uio.offset then
    { t with vol := t.vol.edit sv fun i => { i with size := .ofNat t.uio.offset } }
  else t

theorem ioEnd_ends (resid extra : Nat) (r : Except Errno Unit) {t : IoState} {Q : Unit → IoState → Prop}
    (hc : t.vol.Cached sv)
    (hq : ∀ u, u = { t.sized sv resid with uio := { t.uio with resid := t.uio.resid + extra } } →
      match r with
      | .ok _ => Q () u
      | .error e => E e u) :
    Ends p (do
      let n ← onVolume (deref sv)
      let t ← state
      when (t.uio.resid ≠ resid ∧ t.uio.write ∧ n.i.size.toNat < t.uio.offset)
        (onVolume (setInode sv fun i => { i with size := .ofNat t.uio.offset }))
      update fun t => { t with uio := { t.uio with resid := t.uio.resid + extra } }
      match r with
      | .ok _ => return ()
      | .error e => fail e : Io Unit) Q E t := by
  obtain ⟨n, hn⟩ := hc.vnode
  have hi := Volume.inode_vnode hn
  rw [ends_bind, ends_onVolume, ends_deref hn, ends_bind, ends_state, ends_bind]
  rw [ends_when, decide_eq_true_eq, decide_eq_false_iff_not, ← hi]
  unfold IoState.sized at hq
  constructor
  · intro h
    rw [if_pos h] at hq
    have hq := hq _ rfl
    rw [ends_onVolume, ends_setInode, ends_bind, ends_update]
    cases r with
    | ok => exact hq
    | error e => exact hq
  · intro h
    rw [if_neg h] at hq
    have hq := hq _ rfl
    rw [ends_bind, ends_update]
    cases r with
    | ok => exact hq
    | error e => exact hq

theorem io_write_ends {s : IoState} {Q : Unit → IoState → Prop} (hc : s.vol.Cached sv) (hw : s.uio.write = true)
    (ht : Ends p (ioTransfer sv) (fun _ t => t.vol.Cached sv ∧ Q () (t.sized sv s.uio.resid))
      (fun e t => t.vol.Cached sv ∧ E e (t.sized sv s.uio.resid)) s) :
    Ends p (io sv) Q E s := by
  obtain ⟨n, hn⟩ := hc.vnode
  have hsized : ∀ t : IoState, { t.sized sv s.uio.resid with uio := { t.uio with resid := t.uio.resid + 0 } } =
      t.sized sv s.uio.resid := by
    intro t
    unfold IoState.sized
    split <;> rfl
  have hextra : extraresid n.i s.uio = 0 := if_pos hw
  unfold io
  rw [ends_bind, ends_onVolume, ends_deref hn, ends_bind, ends_state, if_neg (by rw [hw]; simp)]
  rw [hextra, ends_bind, ends_require]
  refine ⟨fun _ => ?_, fun h => absurd h (by simp)⟩
  rw [ends_bind, ends_update, ends_bind, ends_result]
  apply ht.mono
  · rintro x t ⟨hc', hq⟩
    apply ioEnd_ends s.uio.resid 0 (.ok x) hc'
    rintro u rfl
    rw [hsized]
    exact hq
  · rintro e t ⟨hc', hq⟩
    apply ioEnd_ends s.uio.resid 0 (.error e) hc'
    rintro u rfl
    rw [hsized]
    exact hq

theorem io_read_ends {s : IoState} {Q : Unit → IoState → Prop} (hc : s.vol.Cached sv) (hw : s.uio.write = false)
    (heof : (s.vol.inode sv).size.toNat ≤ s.uio.offset → Q () s)
    (ht : s.uio.offset < (s.vol.inode sv).size.toNat → ∀ extra,
      extra = s.uio.offset + s.uio.resid - (s.vol.inode sv).size.toNat →
      Ends p (ioTransfer sv)
        (fun _ t => t.vol.Cached sv ∧ t.uio.write = false ∧
          Q () { t with uio := { t.uio with resid := t.uio.resid + extra } })
        (fun e t => t.vol.Cached sv ∧ t.uio.write = false ∧
          E e { t with uio := { t.uio with resid := t.uio.resid + extra } })
        { s with uio := { s.uio with resid := s.uio.resid - extra } }) :
    Ends p (io sv) Q E s := by
  obtain ⟨n, hn⟩ := hc.vnode
  have hi := Volume.inode_vnode hn
  have hsized : ∀ t : IoState, t.uio.write = false → t.sized sv s.uio.resid = t := by
    intro t hw'
    exact if_neg fun h => absurd (h.2.1.symm.trans hw') Bool.noConfusion
  unfold io
  rw [ends_bind, ends_onVolume, ends_deref hn, ends_bind, ends_state]
  by_cases hlt : n.i.size.toNat ≤ s.uio.offset
  · rw [if_pos ⟨by rw [hw]; rfl, hlt⟩]
    rw [hi] at heof
    exact heof hlt
  · have hextra : extraresid n.i s.uio = s.uio.offset + s.uio.resid - n.i.size.toNat :=
      if_neg fun h => absurd (h.symm.trans hw) Bool.noConfusion
    rw [if_neg fun h => hlt h.2, hextra, ends_bind, ends_require, decide_eq_true_eq, decide_eq_false_iff_not]
    have hbound : s.uio.offset + s.uio.resid - n.i.size.toNat = 0 ∨
        s.uio.offset + s.uio.resid - n.i.size.toNat < s.uio.resid := by omega
    refine ⟨fun _ => ?_, fun h => absurd hbound h⟩
    rw [hi] at ht
    rw [ends_bind, ends_update, ends_bind, ends_result]
    apply (ht (Nat.not_le.1 hlt) _ rfl).mono
    · rintro x t ⟨hc', hw', hq⟩
      apply ioEnd_ends s.uio.resid _ (.ok x) hc'
      rintro u rfl
      rw [hsized t hw']
      exact hq
    · rintro e t ⟨hc', hw', hq⟩
      apply ioEnd_ends s.uio.resid _ (.error e) hc'
      rintro u rfl
      rw [hsized t hw']
      exact hq

end Sfs
end Clape
