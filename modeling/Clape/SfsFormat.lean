import Mathlib.Logic.Function.Basic
import Mathlib.Data.List.FinRange
import Clape.ByteStore

namespace Clape
set_option autoImplicit true

namespace Sfs

abbrev blocksize : Nat := 512
abbrev ndirect : Nat := 15
abbrev nindirect : Nat := 1
abbrev dbperidb : Nat := 128
abbrev namelen : Nat := 60
abbrev superBlock : UInt32 := 0
abbrev freemapStart : Nat := 2
abbrev noino : UInt32 := 0
abbrev rootdirIno : UInt32 := 1
abbrev bitsperblock : Nat := blocksize * 8

abbrev typeInval : UInt16 := 0
abbrev typeFile : UInt16 := 1
abbrev typeDir : UInt16 := 2

/-- `SFS_FREEMAPBITS`. -/
def freemapbits (nblocks : Nat) : Nat := (nblocks + bitsperblock - 1) / bitsperblock * bitsperblock

/-- `SFS_FREEMAPBLOCKS`. -/
def freemapblocks (nblocks : Nat) : Nat := freemapbits nblocks / bitsperblock

/-- The bytes of a buffer in memory. -/
abbrev Buf := Nat → UInt8

def zeros : Buf := fun _ => 0

/-- A block of the device. -/
@[ext] structure Sector where
  byte : Fin blocksize → UInt8

namespace Sector

/-- The contents of the buffer that a block is read into. -/
def bytes (x : Sector) : Buf := fun o => if h : o < blocksize then x.byte ⟨o, h⟩ else 0

def ofBuf (b : Buf) : Sector := ⟨fun o => b o⟩

theorem bytes_ofBuf (b : Buf) : SameBytes blocksize (ofBuf b).bytes b := fun _ ho => dif_pos ho

@[simp] theorem ofBuf_bytes (x : Sector) : ofBuf x.bytes = x := by
  ext o
  exact congrArg UInt8.toNat (dif_pos o.isLt)

theorem ofBuf_congr (h : SameBytes blocksize b c) : ofBuf b = ofBuf c := by
  ext o
  exact congrArg UInt8.toNat (h o o.isLt)

theorem bytes_ofBuf_eq (h : ∀ o, blocksize ≤ o → b o = 0) : (ofBuf b).bytes = b := by
  funext o
  by_cases ho : o < blocksize
  · exact dif_pos ho
  · exact (dif_neg ho).trans (h o (Nat.not_lt.1 ho)).symm

@[simp] theorem bytes_zeros : (ofBuf zeros).bytes = zeros := bytes_ofBuf_eq fun _ _ => rfl

end Sector

@[simp] theorem halfAt_zeros : halfAt zeros a = 0 := halfAt_zero

@[simp] theorem wordAt_zeros : wordAt zeros a = 0 := wordAt_zero

/-- `struct sfs_dinode`. -/
structure Dinode where
  size : UInt32
  type : UInt16
  linkcount : UInt16
  direct : Fin ndirect → UInt32
  indirect : UInt32
  waste : Fin 440 → UInt8

namespace Dinode

def ofSector (b : Buf) : Dinode where
  size := wordAt b 0
  type := halfAt b 4
  linkcount := halfAt b 6
  direct k := wordAt b (8 + 4 * k)
  indirect := wordAt b 68
  waste k := b (72 + k)

def toSector (i : Dinode) : Buf := fun o =>
  if o < 4 then wordBytes i.size o
  else if o < 6 then halfBytes i.type (o - 4)
  else if o < 8 then halfBytes i.linkcount (o - 6)
  else if h : o < 68 then wordBytes (i.direct ⟨(o - 8) / 4, by simp only [ndirect]; omega⟩) ((o - 8) % 4)
  else if o < 72 then wordBytes i.indirect (o - 68)
  else if h : o < blocksize then i.waste ⟨o - 72, by simp only [blocksize] at h; omega⟩
  else 0

@[simp] theorem ofSector_toSector (i : Dinode) : ofSector i.toSector = i := by
  have hsize : wordAt i.toSector 0 = i.size := by
    apply wordAt_of
    intro o ho
    simp only [readAt, toSector, Nat.zero_add, if_pos ho]
  have htype : halfAt i.toSector 4 = i.type := by
    apply halfAt_of
    intro o ho
    simp only [readAt, toSector, if_neg (show ¬ 4 + o < 4 by omega),
      if_pos (show 4 + o < 6 by omega), Nat.add_sub_cancel_left]
  have hlinkcount : halfAt i.toSector 6 = i.linkcount := by
    apply halfAt_of
    intro o ho
    simp only [readAt, toSector, if_neg (show ¬ 6 + o < 4 by omega),
      if_neg (show ¬ 6 + o < 6 by omega), if_pos (show 6 + o < 8 by omega),
      Nat.add_sub_cancel_left]
  have hdirect : ∀ k : Fin ndirect, wordAt i.toSector (8 + 4 * k) = i.direct k := by
    intro k
    apply wordAt_of
    intro o ho
    have hk := k.isLt
    simp only [readAt, toSector, if_neg (show ¬ 8 + 4 * k.val + o < 4 by omega),
      if_neg (show ¬ 8 + 4 * k.val + o < 6 by omega),
      if_neg (show ¬ 8 + 4 * k.val + o < 8 by omega),
      dif_pos (show 8 + 4 * k.val + o < 68 by simp only [ndirect] at hk; omega)]
    have hq : (8 + 4 * k.val + o - 8) / 4 = k := by omega
    have hr : (8 + 4 * k.val + o - 8) % 4 = o := by omega
    simp only [hq, hr]
  have hindirect : wordAt i.toSector 68 = i.indirect := by
    apply wordAt_of
    intro o ho
    simp only [readAt, toSector, if_neg (show ¬ 68 + o < 4 by omega),
      if_neg (show ¬ 68 + o < 6 by omega), if_neg (show ¬ 68 + o < 8 by omega),
      dif_neg (show ¬ 68 + o < 68 by omega), if_pos (show 68 + o < 72 by omega),
      Nat.add_sub_cancel_left]
  have hwaste : ∀ k : Fin 440, i.toSector (72 + k) = i.waste k := by
    intro k
    have hk := k.isLt
    simp only [toSector, if_neg (show ¬ 72 + k.val < 4 by omega),
      if_neg (show ¬ 72 + k.val < 6 by omega), if_neg (show ¬ 72 + k.val < 8 by omega),
      dif_neg (show ¬ 72 + k.val < 68 by omega), if_neg (show ¬ 72 + k.val < 72 by omega),
      dif_pos (show 72 + k.val < blocksize by simp only [blocksize]; omega),
      Nat.add_sub_cancel_left]
  simp only [ofSector, hsize, htype, hlinkcount, hdirect, hindirect, hwaste]

@[simp] theorem bytes_toSector (i : Dinode) : (Sector.ofBuf i.toSector).bytes = i.toSector := by
  apply Sector.bytes_ofBuf_eq
  intro o ho
  simp only [blocksize] at ho
  simp only [toSector, if_neg (show ¬ o < 4 by omega), if_neg (show ¬ o < 6 by omega),
    if_neg (show ¬ o < 8 by omega), dif_neg (show ¬ o < 68 by omega), if_neg (show ¬ o < 72 by omega),
    dif_neg (show ¬ o < blocksize by simp only [blocksize]; omega)]

/-- A cleared block is an inode of no type, without links and without blocks. -/
def empty : Dinode := ⟨0, typeInval, 0, fun _ => 0, 0, fun _ => 0⟩

@[simp] theorem ofSector_zeros : ofSector zeros = empty := by
  simp only [ofSector, wordAt_zeros, halfAt_zeros, empty]
  rfl

end Dinode

/-- The contents of an indirect block. -/
abbrev Idbuf := Fin dbperidb → UInt32

namespace Idbuf

def ofSector (b : Buf) : Idbuf := fun k => wordAt b (4 * k)

def toSector (ids : Idbuf) : Buf := fun o =>
  if h : o < blocksize then wordBytes (ids ⟨o / 4, by simp only [blocksize, dbperidb] at h ⊢; omega⟩) (o % 4)
  else 0

@[simp] theorem ofSector_toSector (ids : Idbuf) : ofSector ids.toSector = ids := by
  funext k
  apply wordAt_of
  intro o ho
  have hk := k.isLt
  have hlt : 4 * k.val + o < blocksize := by
    simp only [dbperidb, blocksize] at hk ⊢
    omega
  have hq : (4 * k.val + o) / 4 = k := by omega
  have hr : (4 * k.val + o) % 4 = o := by omega
  simp only [readAt, toSector, dif_pos hlt, hq, hr]

@[simp] theorem bytes_toSector (ids : Idbuf) : (Sector.ofBuf ids.toSector).bytes = ids.toSector :=
  Sector.bytes_ofBuf_eq fun _ ho => dif_neg (Nat.not_lt.2 ho)

@[simp] theorem ofSector_zeros : ofSector zeros = fun _ => 0 := by
  funext k
  exact wordAt_zeros

end Idbuf

/-- A string as C has it, without the zero at its end. -/
abbrev CString := { s : List UInt8 // 0 ∉ s }

/-- `struct sfs_direntry`. -/
structure Direntry where
  ino : UInt32
  name : Fin namelen → UInt8

namespace Direntry

def sizeof : Nat := 64

/-- The directory entry at an offset. -/
def ofBytes (b : Nat → UInt8) (o : Nat) : Direntry where
  ino := wordAt b o
  name k := b (o + 4 + k)

def toBytes (d : Direntry) : Nat → UInt8 := fun o =>
  if o < 4 then wordBytes d.ino o
  else if h : o < 64 then d.name ⟨o - 4, by simp only [namelen]; omega⟩
  else 0

/-- The entry for a name, with the rest of its field cleared. -/
def named (ino : UInt32) (name : CString) : Direntry where
  ino := ino
  name k := name.1.getD k 0

def empty : Direntry := ⟨noino, fun _ => 0⟩

/-- The name in an entry, with its last byte taken for zero. -/
def cname (d : Direntry) : List UInt8 :=
  ((List.ofFn d.name).take (namelen - 1)).takeWhile (· != 0)

theorem ofBytes_of (h : SameBytes sizeof (readAt b o) d.toBytes) : ofBytes b o = d := by
  have hino : wordAt b o = d.ino := by
    apply wordAt_of
    intro j hj
    have hb := h j (by simp only [sizeof]; omega)
    rw [hb, toBytes, if_pos hj]
  have hname : ∀ k : Fin namelen, b (o + 4 + k) = d.name k := by
    intro k
    have hk := k.isLt
    simp only [namelen] at hk
    have hb := h (4 + k) (by simp only [sizeof]; omega)
    rw [readAt, ← Nat.add_assoc] at hb
    rw [hb, toBytes, if_neg (by omega), dif_pos (by omega)]
    simp only [Nat.add_sub_cancel_left]
  simp only [ofBytes, hino, hname]

/-- A name that fits is found in its entry. -/
theorem cname_named {n : UInt32} {s : CString} (h : s.1.length + 1 ≤ namelen) :
    (named n s).cname = s.1 := by
  obtain ⟨s, hs⟩ := s
  simp only at h
  have htake : (List.ofFn fun k : Fin namelen => s.getD k 0).take (namelen - 1) =
      s ++ List.replicate (namelen - 1 - s.length) 0 := by
    apply List.ext_getElem
    · simp only [namelen] at h ⊢
      simp
      omega
    · intro k hk hk'
      simp only [List.getElem_take, List.getElem_ofFn, List.getElem_append, List.getD_eq_getElem?_getD]
      split
      · rename_i hlt
        rw [List.getElem?_eq_getElem hlt, Option.getD_some]
      · rename_i hlt
        rw [List.getElem?_eq_none (by omega), Option.getD_none, List.getElem_replicate]
  have hall : ∀ c ∈ s, (c != 0) = true := by
    intro c hc
    rw [bne_iff_ne]
    intro hc0
    exact hs (hc0 ▸ hc)
  show (((List.ofFn fun k : Fin namelen => s.getD k 0).take (namelen - 1)).takeWhile
    (· != 0)) = s
  rw [htake, List.takeWhile_append_of_pos hall]
  cases namelen - 1 - s.length with
  | zero => simp
  | succ n => simp [List.replicate_succ]

end Direntry

end Sfs

end Clape
