import Clape.SfsMapping

namespace Clape
set_option autoImplicit true

namespace Sfs

/-- The number of blocks that a file can have, and the bytes in them. -/
def maxblocks : Nat := ndirect + dbperidb

def maxsize : Nat := maxblocks * blocksize

namespace Volume
variable {v v' : Volume}

theorem cached_congr (h : v'.vnodes = v.vnodes) : v'.Cached j ↔ v.Cached j := by
  unfold Cached vnode?
  rw [h]

theorem inode_congr (h : v'.vnodes = v.vnodes) (hc : v.Cached j) : v'.inode j = v.inode j := by
  obtain ⟨n, hn⟩ := hc.vnode
  have hn' : v'.vnode? j = some n := by
    unfold vnode? at hn ⊢
    rw [h]
    exact hn
  rw [inode_vnode hn, inode_vnode hn']

theorem vnodes_allocated : (v.allocated b).vnodes = v.vnodes := written_vnodes

theorem freemap_allocated : (v.allocated b).freemap.v = Function.update v.freemap.v b true := by
  unfold allocated
  rw [written_freemap]
  rfl

theorem disk_allocated (h : v.failures = 0) : (v.allocated b).disk = Function.update v.disk b (.ofBuf zeros) := by
  have hf : (v.setBit b true).failures = 0 := h
  unfold allocated written
  rw [if_pos hf]
  rfl

theorem disk_allocated_lost (h : v.failures ≠ 0) : (v.allocated b).disk = v.disk := by
  have hf : (v.setBit b true).failures ≠ 0 := h
  unfold allocated written
  rw [if_neg hf]
  rfl

theorem disk_allocated_ne (h : c ≠ b) : (v.allocated b).disk c = v.disk c := written_other h

theorem blockOf_congr (hd : (v'.inode sv).direct = (v.inode sv).direct) (hids : v'.ids sv = v.ids sv) (fb : Nat) :
    v'.blockOf sv fb = v.blockOf sv fb := by
  unfold blockOf
  rw [hd, hids]

theorem ids_zero (h : (v.inode sv).indirect = 0) : v.ids sv = fun _ => 0 := if_pos h

theorem ids_ne (h : (v.inode sv).indirect ≠ 0) :
    v.ids sv = .ofSector (v.disk (v.inode sv).indirect).bytes := if_neg h

theorem inode_newIndirect (hc : v.Cached sv) :
    (v.newIndirect sv B).inode sv = { v.inode sv with indirect := B } := by
  have hc' := (cached_congr (vnodes_allocated (b := B))).2 hc
  unfold newIndirect
  rw [inode_edit hc', inode_congr vnodes_allocated hc]

theorem ids_newIndirect (hc : v.Cached sv) (h0 : B ≠ 0) :
    (v.newIndirect sv B).ids sv = .ofSector ((v.allocated B).disk B).bytes := by
  have hi := inode_newIndirect (B := B) hc
  rw [ids_ne]
  · rw [hi]
    rfl
  · rw [hi]
    exact h0

theorem NextFree.ne (h : v.NextFree b) (hm : v.freemap.v c = true) : c ≠ b := by
  intro hcb
  rw [hcb, h.free] at hm
  cases hm

theorem allocated_working (h : v.dev = []) : v.allocated b = (v.setBit b true).put b (.ofBuf zeros) :=
  written_working h

/-- The entry of a new block is written to the indirect block. -/
def newEntry (v : Volume) (sv : UInt32) (k : Fin dbperidb) (b : UInt32) : Volume :=
  (v.allocated b).written (v.inode sv).indirect (Idbuf.toSector (Function.update (v.ids sv) k b))

theorem vnodes_newEntry : (v.newEntry sv k b).vnodes = v.vnodes := written_vnodes.trans vnodes_allocated

theorem inode_newEntry (hc : v.Cached sv) : (v.newEntry sv k b).inode sv = v.inode sv :=
  inode_congr vnodes_newEntry hc

theorem newEntry_working (h : v.dev = []) : v.newEntry sv k b =
    ((v.setBit b true).put b (.ofBuf zeros)).put (v.inode sv).indirect
      (.ofBuf (Idbuf.toSector (Function.update (v.ids sv) k b))) := by
  have hdev : (v.allocated b).dev = [] := by
    unfold allocated
    rw [written_dev]
    show v.dev.drop 1 = []
    rw [h, List.drop_nil]
  unfold newEntry
  rw [written_working hdev, allocated_working h]

theorem ids_newEntry (hc : v.Cached sv) (h : v.dev = []) (hi : (v.inode sv).indirect ≠ 0) :
    (v.newEntry sv k b).ids sv = Function.update (v.ids sv) k b := by
  have hi' := inode_newEntry (k := k) (b := b) hc
  rw [ids_ne (by rw [hi']; exact hi), hi', newEntry_working h]
  have hdisk : (((v.setBit b true).put b (.ofBuf zeros)).put (v.inode sv).indirect
      (.ofBuf (Idbuf.toSector (Function.update (v.ids sv) k b)))).disk (v.inode sv).indirect =
      .ofBuf (Idbuf.toSector (Function.update (v.ids sv) k b)) := Function.update_self ..
  rw [hdisk, Idbuf.bytes_toSector, Idbuf.ofSector_toSector]

theorem disk_newEntry (h : v.dev = []) (hi : (v.inode sv).indirect ≠ b) :
    (v.newEntry sv k b).disk b = .ofBuf zeros := by
  rw [newEntry_working h]
  exact (Function.update_of_ne hi.symm ..).trans (Function.update_self ..)

theorem freemap_newEntry : (v.newEntry sv k b).freemap.v = Function.update v.freemap.v b true := by
  unfold newEntry
  rw [written_freemap, freemap_allocated]

theorem blockOf_newEntry (hc : v.Cached sv) (h : v.dev = []) (hi : (v.inode sv).indirect ≠ 0) :
    (v.newEntry sv k b).blockOf sv fb = if fb = ndirect + k then b else v.blockOf sv fb := by
  unfold blockOf
  rw [inode_newEntry hc, ids_newEntry hc h hi]
  have hk := k.isLt
  by_cases hfb : fb = ndirect + k
  · subst hfb
    rw [if_pos rfl, dif_neg (by omega), dif_pos (by omega)]
    have hfin : (⟨ndirect + k.val - ndirect, by omega⟩ : Fin dbperidb) = k := Fin.ext (by
      show ndirect + k.val - ndirect = k.val
      omega)
    rw [hfin, Function.update_self]
  · rw [if_neg hfb]
    by_cases hlt : fb < ndirect
    · rw [dif_pos hlt, dif_pos hlt]
    · rw [dif_neg hlt, dif_neg hlt]
      by_cases hlt' : fb - ndirect < dbperidb
      · rw [dif_pos hlt', dif_pos hlt', Function.update_of_ne]
        intro hk
        have hval := congrArg Fin.val hk
        simp only at hval
        omega
      · rw [dif_neg hlt', dif_neg hlt']

/-- A new block becomes a direct block. -/
def newDirect (v : Volume) (sv : UInt32) (k : Fin ndirect) (b : UInt32) : Volume :=
  (v.allocated b).edit sv fun i => i.setDirect k b

theorem inode_newDirect (hc : v.Cached sv) : (v.newDirect sv k b).inode sv = (v.inode sv).setDirect k b := by
  have hc' := (cached_congr (vnodes_allocated (b := b))).2 hc
  unfold newDirect
  rw [inode_edit hc', inode_congr vnodes_allocated hc]

theorem ids_newDirect (hc : v.Cached sv) (hi : (v.inode sv).indirect ≠ b ∨ (v.inode sv).indirect = 0) :
    (v.newDirect sv k b).ids sv = v.ids sv := by
  have hi' := inode_newDirect (k := k) (b := b) hc
  by_cases h0 : (v.inode sv).indirect = 0
  · rw [ids_zero h0, ids_zero]
    rw [hi']
    exact h0
  · have hne := hi.resolve_right h0
    have hi'' : ((v.newDirect sv k b).inode sv).indirect = (v.inode sv).indirect := by rw [hi']; rfl
    rw [ids_ne (by rw [hi'']; exact h0), hi'', ids_ne h0]
    have hdisk : (v.newDirect sv k b).disk (v.inode sv).indirect = v.disk (v.inode sv).indirect :=
      disk_allocated_ne hne
    rw [hdisk]

theorem blockOf_newDirect (hc : v.Cached sv) (hi : (v.inode sv).indirect ≠ b ∨ (v.inode sv).indirect = 0) :
    (v.newDirect sv k b).blockOf sv fb = if fb = k then b else v.blockOf sv fb := by
  unfold blockOf
  rw [inode_newDirect hc, ids_newDirect hc hi]
  have hk := k.isLt
  by_cases hlt : fb < ndirect
  · rw [dif_pos hlt, dif_pos hlt]
    by_cases hfb : fb = k
    · subst hfb
      rw [if_pos rfl]
      exact Function.update_self ..
    · rw [if_neg hfb]
      apply Function.update_of_ne
      intro hkk
      exact hfb (congrArg Fin.val hkk)
  · rw [dif_neg hlt, dif_neg hlt, if_neg (by omega)]

theorem dev_newIndirect (h : v.dev = []) : (v.newIndirect sv B).dev = [] := by
  show (v.allocated B).dev = []
  unfold allocated
  rw [written_dev]
  show v.dev.drop 1 = []
  rw [h, List.drop_nil]

theorem cached_newIndirect (hc : v.Cached sv) : (v.newIndirect sv B).Cached sv :=
  cached_edit.2 ((cached_congr vnodes_allocated).2 hc)

theorem ids_newIndirect_working (hc : v.Cached sv) (h : v.failures = 0) (h0 : B ≠ 0) :
    (v.newIndirect sv B).ids sv = fun _ => 0 := by
  have hdisk : (v.allocated B).disk B = .ofBuf zeros := by
    rw [disk_allocated h]
    exact Function.update_self ..
  rw [ids_newIndirect hc h0, hdisk, Sector.bytes_zeros, Idbuf.ofSector_zeros]

theorem failures_working (h : v.dev = []) : v.failures = 0 := by
  unfold failures
  rw [h]
  rfl

/-- On a device that works, the new indirect block is filled like an old one. -/
theorem indirectNew_eq (hc : v.Cached sv) (h : v.dev = []) (h0 : B ≠ 0) :
    ((v.newIndirect sv B).allocated b).written B (Idbuf.toSector (Function.update (fun _ => 0) k b)) =
      (v.newIndirect sv B).newEntry sv k b := by
  unfold newEntry
  rw [ids_newIndirect_working hc (failures_working h) h0, inode_newIndirect hc]

theorem newIndirect_blockOf (hc : v.Cached sv) (h : v.failures = 0) (h0 : B ≠ 0)
    (hi : (v.inode sv).indirect = 0) : (v.newIndirect sv B).blockOf sv fb = v.blockOf sv fb := by
  apply blockOf_congr
  · rw [inode_newIndirect hc]
  · rw [ids_newIndirect_working hc h h0, ids_zero hi]

theorem Bmapped.size (h : v.Bmapped sv fb doalloc r v') (hc : v.Cached sv) :
    v'.Cached sv ∧ (v'.inode sv).size = (v.inode sv).size := by
  have hkeep : ∀ {w : Volume}, w.vnodes = v.vnodes → w.Cached sv ∧ (w.inode sv).size = (v.inode sv).size := by
    intro w hw
    exact ⟨(cached_congr hw).2 hc, by rw [inode_congr hw hc]⟩
  cases h with
  | direct | directFull | tooBig | hole | indirectFull | unreadable | mapped | mappedFull => exact hkeep rfl
  | directNew k h hb =>
    refine ⟨cached_edit.2 ((cached_congr vnodes_allocated).2 hc), ?_⟩
    show ((v.newDirect sv k _).inode sv).size = _
    rw [inode_newDirect hc]
    rfl
  | indirectOnly k h hB hf => exact ⟨cached_newIndirect hc, by rw [inode_newIndirect hc]⟩
  | indirectNew k h hB hb =>
    rename_i B b
    have hc' : (v.newIndirect sv B).Cached sv := cached_newIndirect hc
    have hsame : (((v.newIndirect sv B).allocated b).written B
        (Idbuf.toSector (Function.update (fun _ => 0) k b))).vnodes = (v.newIndirect sv B).vnodes :=
      written_vnodes.trans vnodes_allocated
    refine ⟨(cached_congr hsame).2 hc', ?_⟩
    rw [inode_congr hsame hc', inode_newIndirect hc]
  | mappedNew k h h0 hb => exact hkeep vnodes_newEntry

end Volume
end Sfs
end Clape
