import Clape.SfsRetries
import Clape.SfsViews

namespace Clape
set_option autoImplicit true

namespace Sfs
open Call
namespace Volume
variable {v v' : Volume}

@[simp] theorem written_nblocks : (v.written b x).nblocks = v.nblocks := by
  unfold written
  split <;> rfl

@[simp] theorem written_dblocks : (v.written b x).dblocks = v.dblocks := by
  unfold written
  split <;> rfl

@[simp] theorem written_freemap : (v.written b x).freemap = v.freemap := by
  unfold written
  split <;> rfl

@[simp] theorem written_vnodes : (v.written b x).vnodes = v.vnodes := by
  unfold written
  split <;> rfl

@[simp] theorem written_dev : (v.written b x).dev = v.dev.drop 1 := by
  unfold written
  split <;> rfl

theorem written_other (h : c ≠ b) : (v.written b x).disk c = v.disk c := by
  unfold written
  split
  · exact Function.update_of_ne h _ _
  · rfl

theorem written_working (h : v.dev = []) : v.written b x = v.put b (.ofBuf x) := by
  have hf : v.failures = 0 := by
    unfold failures
    rw [h]
    rfl
  rw [written, if_pos hf]
  unfold skip
  rw [h]
  cases v
  cases h
  rfl

theorem skip_working (h : v.dev = []) (n : Nat) : v.skip n = v := by
  unfold skip
  rw [h, List.drop_nil, ← h]

/-- What `bitmap_alloc` finds. -/
def freeBit (v : Volume) : Option Nat :=
  (List.range ((v.freemap.nbits + 7) / 8 * 8)).find? fun k => !v.freemap.v (.ofNat k)

/-- The block that `sfs_balloc` hands out. -/
structure NextFree (v : Volume) (b : UInt32) : Prop where
  index : ∃ k, v.freeBit = some k ∧ k < v.freemap.nbits ∧ UInt32.ofNat k = b
  volume : b < v.nblocks
  device : b < v.dblocks

/-- The volume after `sfs_balloc`. -/
def allocated (v : Volume) (b : UInt32) : Volume := (v.setBit b true).written b zeros

theorem NextFree.free (h : v.NextFree b) : v.freemap.v b = false := by
  obtain ⟨k, hk, -, rfl⟩ := h.index
  have hp := List.find?_some hk
  rw [Bool.not_eq_true'] at hp
  exact hp

theorem NextFree.eq (h : v.NextFree b) (h' : v.NextFree c) : b = c := by
  obtain ⟨k, hk, -, rfl⟩ := h.index
  obtain ⟨k', hk', -, rfl⟩ := h'.index
  rw [hk] at hk'
  cases hk'
  rfl

theorem freeBit_congr (h : v'.freemap = v.freemap) : v'.freeBit = v.freeBit := by
  unfold freeBit
  rw [h]

/-- Two volumes agree on what `sfs_balloc` looks at. -/
structure SameFree (v v' : Volume) : Prop where
  freemap : v'.freemap = v.freemap
  nblocks : v'.nblocks = v.nblocks
  dblocks : v'.dblocks = v.dblocks

theorem SameFree.nextFree (h : SameFree v v') : v'.NextFree b ↔ v.NextFree b := by
  constructor
  · rintro ⟨hi, hv, hd⟩
    rw [freeBit_congr h.freemap, h.freemap] at hi
    rw [h.nblocks] at hv
    rw [h.dblocks] at hd
    exact ⟨hi, hv, hd⟩
  · rintro ⟨hi, hv, hd⟩
    rw [← freeBit_congr h.freemap, ← h.freemap] at hi
    rw [← h.nblocks] at hv
    rw [← h.dblocks] at hd
    exact ⟨hi, hv, hd⟩

/-- What `bitmap_alloc` finds is a block of the volume and of its device. -/
def Allocates (v : Volume) : Prop := ∀ k, v.freeBit = some k → v.NextFree (.ofNat k)

theorem SameFree.allocates (h : SameFree v v') : v'.Allocates ↔ v.Allocates := by
  unfold Allocates
  simp only [freeBit_congr h.freemap, h.nextFree]

theorem NextFree.allocates (h : v.NextFree b) : v.Allocates := by
  obtain ⟨k, hk, -, rfl⟩ := h.index
  intro k' hk'
  rw [hk] at hk'
  cases hk'
  exact h

theorem Mapped.allocates (h : v.Mapped) (hd : v.nblocks ≤ v.dblocks) : v.Allocates := by
  intro k hk
  have hmem := List.mem_of_find?_eq_some hk
  have hfree := List.find?_some hk
  rw [Bool.not_eq_true'] at hfree
  have hbound := h.bound
  rw [List.mem_range] at hmem
  have hlt : k < v.freemap.nbits := by
    rw [h.nbits] at hmem ⊢
    unfold freemapbits at *
    simp only [bitsperblock, blocksize] at *
    omega
  have hnat : (UInt32.ofNat k).toNat = k := by
    rw [UInt32.toNat_ofNat']
    exact Nat.mod_eq_of_lt (by omega)
  have hvol : UInt32.ofNat k < v.nblocks := by
    rw [← UInt32.not_le]
    intro hle
    have htail := h.tail _ hle (by rw [hnat]; exact hlt)
    rw [hfree] at htail
    cases htail
  exact ⟨⟨k, hk, hlt, rfl⟩, hvol, UInt32.lt_of_lt_of_le hvol hd⟩

end Volume

open Volume

theorem ends_writeblock {v : Volume} {x : Buf} {Q : Unit → Volume → Prop} (h : b < v.dblocks) :
    Ends p (writeblock b x) Q E v ↔ Q () (v.written b x) := by
  unfold Ends
  rw [writeblock_eq h]

theorem ends_readblock {v : Volume} {Q : Buf → Volume → Prop} (h : b < v.dblocks) :
    Ends p (readblock b) Q E v ↔ (v.failures ≤ 10 → Q (v.disk b).bytes (v.skip (v.failures + 1))) ∧
      (10 < v.failures → E .eio (v.skip 11)) := by
  unfold Ends
  rw [readblock_eq h]
  by_cases hf : v.failures ≤ 10
  · rw [if_pos hf]
    exact ⟨fun hq => ⟨fun _ => hq, fun h => absurd h (by omega)⟩, fun hq => hq.1 hf⟩
  · rw [if_neg hf]
    exact ⟨fun hq => ⟨fun h => absurd h hf, fun _ => hq⟩, fun hq => hq.2 (by omega)⟩

theorem bitmapAlloc_ends {v : Volume} (hp : ¬ v.Allocates → p) :
    Ends p bitmapAlloc (fun b v' => (∃ k, v.freeBit = some k ∧ k < v.freemap.nbits ∧ .ofNat k = b) ∧
      v' = v.setBit b true) (fun e v' => e = .enospc ∧ v.freeBit = none ∧ v' = v) v := by
  unfold bitmapAlloc freeBit
  rw [ends_bind, ends_state]
  generalize hk : (List.range ((v.freemap.nbits + 7) / 8 * 8)).find? (fun k => !v.freemap.v (.ofNat k)) = r
  cases r with
  | none => exact ⟨rfl, rfl, rfl⟩
  | some k =>
    simp only [ends_bind, ends_require, ends_update, ends_pure, decide_eq_true_eq, decide_eq_false_iff_not]
    constructor
    · intro hlt
      exact ⟨⟨k, rfl, hlt, rfl⟩, trivial⟩
    · intro hlt
      apply hp
      intro h
      obtain ⟨⟨k', hk', hlt', -⟩, -, -⟩ := h k hk
      have heq := hk'.symm.trans hk
      cases heq
      exact hlt hlt'

theorem balloc_ends {v : Volume} (hp : ¬ v.Allocates → p) :
    Ends p balloc (fun b v' => v.NextFree b ∧ v' = v.allocated b)
      (fun e v' => e = .enospc ∧ v.freeBit = none ∧ v' = v) v := by
  apply (bitmapAlloc_ends hp).bind
  · rintro b t ⟨hb, rfl⟩
    have hnext : v.Allocates → v.NextFree b := by
      obtain ⟨k, hk, -, rfl⟩ := hb
      intro h
      exact h k hk
    simp only [ends_bind, ends_state, ends_require, decide_eq_true_eq, decide_eq_false_iff_not]
    constructor
    · intro hvol
      by_cases hdev : b < v.dblocks
      · rw [ends_result, ends_writeblock (v := v.setBit b true) hdev]
        exact ⟨⟨hb, hvol, hdev⟩, rfl⟩
      · rw [ends_result]
        have hrange : (v.setBit b true).dblocks ≤ b := UInt32.not_lt.1 hdev
        exact .of_stop (writeblock_range hrange _) (hp fun h => hdev (hnext h).device)
    · intro hvol
      exact hp fun h => hvol (hnext h).volume
  · intro e t h
    exact h

theorem ends_deref {v : Volume} {Q : Vnode → Volume → Prop} (hn : v.vnode? sv = some n) :
    Ends p (deref sv) Q E v ↔ Q n v := by
  unfold deref
  rw [ends_bind, ends_state, hn]
  exact Iff.rfl

theorem ends_setInode {v : Volume} {Q : Unit → Volume → Prop} :
    Ends p (setInode sv f) Q E v ↔ Q () (v.edit sv f) := Iff.rfl

theorem handBack_ends {v : Volume} (hp : b ≠ 0 → ¬ v.Marked b → p) :
    Ends p (handBack b) (fun d v' => d = b ∧ v' = v) E v := by
  show Ends p (if b = 0 then _ else _ : Sfs UInt32) _ _ v
  by_cases h0 : b = 0
  · rw [if_pos h0]
    exact ⟨rfl, rfl⟩
  · rw [if_neg h0]
    simp only [bused, ends_bind, ends_state, ends_require, ends_pure, decide_eq_true_eq,
      decide_eq_false_iff_not, and_self]
    constructor
    · intro hlt
      refine ⟨fun _ => trivial, ?_⟩
      intro hfree
      apply hp h0
      intro h
      rw [h.2] at hfree
      cases hfree
    · intro hlt
      exact hp h0 fun h => hlt h.1

namespace Volume
variable {v v' : Volume}

/-- The volume with a new indirect block for a file. -/
def newIndirect (v : Volume) (sv B : UInt32) : Volume :=
  (v.allocated B).edit sv fun i => { i with indirect := B }

/-- What a call of `sfs_bmap` can do. -/
inductive Bmapped (sv : UInt32) (v : Volume) : Nat → Bool → Except Errno UInt32 → Volume → Prop where
  | direct (k : Fin ndirect) (h : (v.inode sv).direct k ≠ 0 ∨ doalloc = false) :
    Bmapped sv v k doalloc (.ok ((v.inode sv).direct k)) v
  | directNew (k : Fin ndirect) (h : (v.inode sv).direct k = 0) (hb : v.NextFree b) :
    Bmapped sv v k true (.ok b) ((v.allocated b).edit sv fun i => i.setDirect k b)
  | directFull (k : Fin ndirect) (h : (v.inode sv).direct k = 0) (hf : v.freeBit = none) :
    Bmapped sv v k true (.error .enospc) v
  | tooBig (h : ndirect + dbperidb ≤ fb) : Bmapped sv v fb doalloc (.error .efbig) v
  | hole (k : Fin dbperidb) (hi : (v.inode sv).indirect = 0) : Bmapped sv v (ndirect + k) false (.ok 0) v
  | indirectFull (k : Fin dbperidb) (hi : (v.inode sv).indirect = 0) (hf : v.freeBit = none) :
    Bmapped sv v (ndirect + k) true (.error .enospc) v
  | indirectOnly (k : Fin dbperidb) (hi : (v.inode sv).indirect = 0) (hB : v.NextFree B)
      (hf : (v.setBit B true).freeBit = none) :
    Bmapped sv v (ndirect + k) true (.error .enospc) (v.newIndirect sv B)
  | indirectNew (k : Fin dbperidb) (hi : (v.inode sv).indirect = 0) (hB : v.NextFree B)
      (hb : (v.setBit B true).NextFree b) :
    Bmapped sv v (ndirect + k) true (.ok b) (((v.newIndirect sv B).allocated b).written B
      (Idbuf.toSector (Function.update (fun _ => 0) k b)))
  | unreadable (k : Fin dbperidb) (hi : (v.inode sv).indirect ≠ 0) (hf : 10 < v.failures) :
    Bmapped sv v (ndirect + k) doalloc (.error .eio) (v.skip 11)
  | mapped (k : Fin dbperidb) (hi : (v.inode sv).indirect ≠ 0) (h : v.ids sv k ≠ 0 ∨ doalloc = false) :
    Bmapped sv v (ndirect + k) doalloc (.ok (v.ids sv k)) (v.skip (v.failures + 1))
  | mappedNew (k : Fin dbperidb) (hi : (v.inode sv).indirect ≠ 0) (h : v.ids sv k = 0)
      (hb : v.NextFree b) :
    Bmapped sv v (ndirect + k) true (.ok b) (((v.skip (v.failures + 1)).allocated b).written (v.inode sv).indirect
      (Idbuf.toSector (Function.update (v.ids sv) k b)))
  | mappedFull (k : Fin dbperidb) (hi : (v.inode sv).indirect ≠ 0) (h : v.ids sv k = 0) (hf : v.freeBit = none) :
    Bmapped sv v (ndirect + k) true (.error .enospc) (v.skip (v.failures + 1))

/-- The conditions under which `sfs_bmap` does not panic. -/
structure Maps (v : Volume) (sv : UInt32) (fb : Nat) : Prop where
  first : v.Allocates
  second : ∀ B, v.NextFree B → (v.setBit B true).Allocates
  block : v.blockOf sv fb ≠ 0 → v.Marked (v.blockOf sv fb)
  indirect : ndirect ≤ fb → (v.inode sv).indirect ≠ 0 → (v.inode sv).indirect < v.dblocks

theorem blockOf_direct (k : Fin ndirect) : v.blockOf sv k = (v.inode sv).direct k := dif_pos k.isLt

theorem blockOf_mapped (k : Fin dbperidb) : v.blockOf sv (ndirect + k) = v.ids sv k := by
  have hk : ndirect + k.val - ndirect < dbperidb := by
    rw [Nat.add_sub_cancel_left]
    exact k.isLt
  unfold blockOf
  rw [dif_neg (by omega), dif_pos hk]
  congr 1
  apply Fin.ext
  exact Nat.add_sub_cancel_left ..

theorem sameFree_newIndirect : SameFree (v.setBit B true) (v.newIndirect sv B) :=
  ⟨written_freemap, written_nblocks, written_dblocks⟩

theorem marked_allocated (hb : b < v.nblocks) : (v.allocated b).Marked b := by
  unfold Marked allocated
  rw [written_nblocks, written_freemap]
  exact ⟨hb, Function.update_self ..⟩

end Volume

theorem bmapDirect_ends {v : Volume} (hc : v.Cached sv) (k : Fin ndirect) (hp : ¬ v.Maps sv k → p) :
    Ends p (bmapDirect sv k doalloc) (fun d v' => v.Bmapped sv k doalloc (.ok d) v')
      (fun e v' => v.Bmapped sv k doalloc (.error e) v') v := by
  obtain ⟨n, hn⟩ := hc.vnode
  have hi := inode_vnode hn
  unfold bmapDirect
  rw [ends_bind, ends_deref hn, ← hi]
  by_cases hnew : (v.inode sv).direct k = 0 ∧ doalloc = true
  · obtain ⟨h0, rfl⟩ := hnew
    rw [if_pos ⟨h0, rfl⟩]
    apply (balloc_ends fun h => hp fun hm => h hm.first).bind
    · rintro b t ⟨hb, rfl⟩
      rw [ends_bind, ends_setInode]
      apply (handBack_ends _).mono
      · rintro d v' ⟨rfl, rfl⟩
        exact .directNew k h0 hb
      · intro e v' he
        exact he
      · intro _ hm
        exact absurd (marked_allocated hb.volume) hm
    · rintro e t ⟨rfl, hf, rfl⟩
      exact .directFull k h0 hf
  · rw [if_neg hnew]
    apply (handBack_ends _).mono
    · rintro d v' ⟨rfl, rfl⟩
      refine .direct k ?_
      rw [not_and, Bool.not_eq_true] at hnew
      exact or_iff_not_imp_left.2 fun h => hnew (not_not.1 h)
    · intro e v' he
      exact he
    · intro h0 hm
      apply hp
      intro hmaps
      have hblock := hmaps.block
      rw [blockOf_direct] at hblock
      exact hm (hblock h0)

/-- `sfs_bmap` has the indirect block, and fills an entry if it has to. -/
theorem bmapEntry_ends {v : Volume} (idbuf : Idbuf) (k : Fin dbperidb) (doalloc : Bool) (hp : ¬ v.Allocates → p) (hd : idblock < v.dblocks)
    (hu : idbuf k ≠ 0 → ¬ v.Marked (idbuf k) → p) :
    Ends p (if idbuf k = 0 ∧ doalloc then do
        let block ← balloc
        writeblock idblock (Idbuf.toSector (Function.update idbuf k block))
        handBack block
      else handBack (idbuf k))
      (fun d v' => (idbuf k = 0 ∧ doalloc = true ∧ v.NextFree d ∧
          v' = (v.allocated d).written idblock (Idbuf.toSector (Function.update idbuf k d))) ∨
        (idbuf k ≠ 0 ∨ doalloc = false) ∧ d = idbuf k ∧ v' = v)
      (fun e v' => e = .enospc ∧ idbuf k = 0 ∧ doalloc = true ∧ v.freeBit = none ∧ v' = v) v := by
  by_cases hnew : idbuf k = 0 ∧ doalloc = true
  · rw [if_pos hnew]
    apply (balloc_ends hp).bind
    · rintro b t ⟨hb, rfl⟩
      have hdev : idblock < (v.allocated b).dblocks := by
        rw [allocated, written_dblocks]
        exact hd
      rw [ends_bind, ends_writeblock hdev]
      apply (handBack_ends _).mono
      · rintro d v' ⟨rfl, rfl⟩
        exact .inl ⟨hnew.1, hnew.2, hb, rfl⟩
      · intro e v' he
        exact he
      · intro _ hm
        have hmark := marked_allocated hb.volume
        unfold Marked at hm hmark
        rw [written_nblocks, written_freemap] at hm
        exact absurd hmark hm
    · rintro e t ⟨rfl, hf, rfl⟩
      exact ⟨rfl, hnew.1, hnew.2, hf, rfl⟩
  · rw [if_neg hnew]
    apply (handBack_ends hu).mono
    · rintro d v' ⟨rfl, rfl⟩
      refine .inr ⟨?_, rfl, rfl⟩
      rw [not_and, Bool.not_eq_true] at hnew
      exact or_iff_not_imp_left.2 fun h => hnew (not_not.1 h)
    · intro e v' he
      exact he

theorem bmapIndirect_ends {v : Volume} (hc : v.Cached sv) (k : Fin dbperidb) (doalloc : Bool)
    (hp : ¬ v.Maps sv (ndirect + k) → p) :
    Ends p (bmapIndirect sv k doalloc) (fun d v' => v.Bmapped sv (ndirect + k) doalloc (.ok d) v')
      (fun e v' => v.Bmapped sv (ndirect + k) doalloc (.error e) v') v := by
  obtain ⟨n, hn⟩ := hc.vnode
  have hi := inode_vnode hn
  unfold bmapIndirect
  rw [ends_bind, ends_deref hn, ← hi]
  by_cases hzero : (v.inode sv).indirect = 0
  · cases doalloc with
    | false =>
      rw [if_pos ⟨hzero, rfl⟩]
      exact .hole k hzero
    | true =>
      rw [if_neg (fun h => Bool.noConfusion h.2)]
      rw [ends_bind]
      unfold indirectBlock
      rw [ends_bind, ends_deref hn, ← hi, if_pos hzero]
      apply (balloc_ends fun h => hp fun hm => h hm.first).bind
      · rintro B t ⟨hB, rfl⟩
        rw [ends_bind, ends_setInode]
        have hsame : SameFree (v.setBit B true) (v.newIndirect sv B) := sameFree_newIndirect
        have hdev : B < (v.newIndirect sv B).dblocks := by
          rw [hsame.dblocks]
          exact hB.device
        rw [ends_pure]
        apply (bmapEntry_ends (v := v.newIndirect sv B) (fun _ => 0) k true _ hdev _).mono
        · rintro d v' (⟨-, -, hd, rfl⟩ | ⟨h, -⟩)
          · exact .indirectNew k hzero hB (hsame.nextFree.1 hd)
          · cases h with
            | inl h => exact absurd rfl h
            | inr h => cases h
        · rintro e v' ⟨rfl, -, -, hf, rfl⟩
          rw [freeBit_congr hsame.freemap] at hf
          exact .indirectOnly k hzero hB hf
        · intro h
          apply hp
          intro hm
          exact h (hsame.allocates.2 (hm.second B hB))
        · intro h
          exact absurd rfl h
      · rintro e t ⟨rfl, hf, rfl⟩
        exact .indirectFull k hzero hf
  · rw [if_neg (fun h => hzero h.1)]
    rw [ends_bind]
    unfold indirectBlock
    rw [ends_bind, ends_deref hn, ← hi, if_neg hzero]
    by_cases hdev : (v.inode sv).indirect < v.dblocks
    · rw [ends_bind, ends_readblock hdev]
      constructor
      · intro _
        have hids : Idbuf.ofSector (v.disk (v.inode sv).indirect).bytes = v.ids sv := (if_neg hzero).symm
        rw [ends_pure, hids]
        have hsame : SameFree v (v.skip (v.failures + 1)) := ⟨rfl, rfl, rfl⟩
        apply (bmapEntry_ends (v := v.skip (v.failures + 1)) (v.ids sv) k doalloc _ hdev _).mono
        · rintro d v' (⟨h0, rfl, hd, rfl⟩ | ⟨h, rfl, rfl⟩)
          · exact .mappedNew k hzero h0 (hsame.nextFree.1 hd)
          · exact .mapped k hzero h
        · rintro e v' ⟨rfl, h0, rfl, hf, rfl⟩
          exact .mappedFull k hzero h0 hf
        · intro h
          exact hp fun hm => h (hsame.allocates.2 hm.first)
        · intro h0 h
          apply hp
          intro hm
          have hblock := hm.block
          rw [blockOf_mapped] at hblock
          exact h (hblock h0)
      · intro hf
        exact .unreadable k hzero hf
    · rw [ends_bind]
      apply Ends.of_stop (readblock_range (UInt32.not_lt.1 hdev))
      exact hp fun hm => hdev (hm.indirect (Nat.le_add_right ..) hzero)

theorem bmap_ends {v : Volume} (hc : v.Cached sv) (hp : ¬ v.Maps sv fb → p) :
    Ends p (bmap sv fb doalloc) (fun d v' => v.Bmapped sv fb doalloc (.ok d) v')
      (fun e v' => v.Bmapped sv fb doalloc (.error e) v') v := by
  unfold bmap
  by_cases hlt : fb < ndirect
  · rw [dif_pos hlt]
    exact bmapDirect_ends hc ⟨fb, hlt⟩ hp
  · rw [dif_neg hlt]
    by_cases hbig : nindirect ≤ (fb - ndirect) / dbperidb
    · rw [if_pos hbig]
      refine .tooBig ?_
      simp only [ndirect, nindirect, dbperidb] at *
      omega
    · rw [if_neg hbig]
      have hk : (fb - ndirect) % dbperidb = fb - ndirect := by
        simp only [ndirect, nindirect, dbperidb] at *
        omega
      have hfb : ndirect + (fb - ndirect) % dbperidb = fb := by omega
      have hind := bmapIndirect_ends (p := p) hc
        ⟨(fb - ndirect) % dbperidb, Nat.mod_lt _ (by decide)⟩ doalloc
      simp only [hfb] at hind
      exact hind hp

end Sfs
end Clape
