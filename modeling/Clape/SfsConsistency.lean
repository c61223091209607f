import Mathlib.Data.Finset.Card
import Mathlib.Data.Finset.Range
import Clape.Placement
import Clape.SfsVnodes

namespace Clape
set_option autoImplicit true

namespace Sfs

/-- The places where a file has blocks: its inode, the direct blocks, the indirect block and the
blocks mapped by it. -/
inductive Place where
  | inode
  | direct (k : Fin ndirect)
  | indirect
  | mapped (k : Fin dbperidb)
  deriving DecidableEq

/-- The roles of the blocks of a volume. -/
inductive Role where
  | super
  | freemap (k : Nat)
  | file (ino : UInt32) (p : Place)
  deriving DecidableEq

/-- A block pointer, where zero stands for none. -/
def pointer (b : UInt32) : Option UInt32 := if b = 0 then none else some b

@[simp] theorem pointer_zero : pointer 0 = none := rfl

theorem pointer_ne (h : b ≠ 0) : pointer b = some b := if_neg h

theorem pointer_eq_some : pointer b = some c ↔ b = c ∧ c ≠ 0 := by
  unfold pointer
  split
  · rename_i hb
    constructor
    · intro h
      cases h
    · intro h
      exact absurd (h.1 ▸ hb) h.2
  · rename_i hb
    constructor
    · intro h
      cases h
      exact ⟨rfl, hb⟩
    · intro h
      rw [h.1]

/-- The block in a place of a file, from its inode and its indirect block. -/
def Place.block (ino : UInt32) (i : Dinode) (ids : Idbuf) : Place → Option UInt32
  | .inode => some ino
  | .direct k => pointer (i.direct k)
  | .indirect => pointer i.indirect
  | .mapped k => pointer (ids k)

def direntsPerBlock : Nat := blocksize / Direntry.sizeof

/-- The slots that the blocks of a directory have room for. -/
def maxslots : Nat := (ndirect + nindirect * dbperidb) * direntsPerBlock

namespace Volume

/-- The inode of a file: that of its vnode, or the one on disk. -/
def inode (v : Volume) (ino : UInt32) : Dinode :=
  match v.vnode? ino with
  | some n => n.i
  | none => .ofSector (v.disk ino).bytes

def ids (v : Volume) (ino : UInt32) : Idbuf :=
  if (v.inode ino).indirect = 0 then fun _ => 0 else .ofSector (v.disk (v.inode ino).indirect).bytes

/-- The disk block of a block of a file, or zero. -/
def blockOf (v : Volume) (ino : UInt32) (fileblock : Nat) : UInt32 :=
  if h : fileblock < ndirect then (v.inode ino).direct ⟨fileblock, h⟩
  else if h : fileblock - ndirect < dbperidb then v.ids ino ⟨fileblock - ndirect, h⟩
  else 0

def content (v : Volume) (b : UInt32) : Buf := if b = 0 then zeros else (v.disk b).bytes

/-- The data in a block of a file. -/
def data (v : Volume) (ino : UInt32) (fileblock : Nat) : Buf :=
  v.content (v.blockOf ino fileblock)

def nentries (v : Volume) : Nat := (v.inode rootdirIno).size.toNat / Direntry.sizeof

/-- A slot of the root directory. -/
def slot (v : Volume) (k : Nat) : Direntry :=
  if k < v.nentries then
    .ofBytes (v.data rootdirIno (k / direntsPerBlock)) (k % direntsPerBlock * Direntry.sizeof)
  else .empty

/-- Some slot names the inode. -/
def Named (v : Volume) (ino : UInt32) : Prop :=
  ino ≠ noino ∧ ∃ k < maxslots, (v.slot k).ino = ino

/-- The inodes in use: the root directory, the files with a name and those with a vnode. -/
def Live (v : Volume) (ino : UInt32) : Prop :=
  ino = rootdirIno ∨ v.Named ino ∨ v.Cached ino

instance (v : Volume) (ino : UInt32) : Decidable (v.Named ino) := inferInstanceAs (Decidable (_ ∧ _))

instance (v : Volume) (ino : UInt32) : Decidable (v.Cached ino) := inferInstanceAs (Decidable (_ = _))

instance (v : Volume) (ino : UInt32) : Decidable (v.Live ino) := inferInstanceAs (Decidable (_ ∨ _ ∨ _))

/-- The block that has a role, if there is one. -/
def place (v : Volume) : Role → Option UInt32
  | .super => some superBlock
  | .freemap k => if k < freemapblocks v.nblocks.toNat then some (.ofNat (freemapStart + k)) else none
  | .file ino p => if v.Live ino then p.block ino (v.inode ino) (v.ids ino) else none

/-- The blocks of the volume that the freemap marks. -/
def Marked (v : Volume) (b : UInt32) : Prop := b < v.nblocks ∧ v.freemap.v b = true

/-- The number of slots that name an inode. -/
def links (v : Volume) (ino : UInt32) : Nat :=
  ((Finset.range maxslots).filter fun k => (v.slot k).ino = ino).card

/-- The table of vnodes: no inode has two vnodes, each is referred to, and what is not dirty is
on disk. -/
structure Tabled (v : Volume) : Prop where
  nodup : (v.vnodes.map Vnode.ino).Nodup
  refs : ∀ ino n, v.vnode? ino = some n → 0 < n.refcount
  clean : ∀ ino n, v.vnode? ino = some n → n.dirty = false → Dinode.ofSector (v.disk ino).bytes = n.i

/-- The bitmap has bits for all blocks, and those past the end of the volume are set. -/
structure Mapped (v : Volume) : Prop where
  nbits : v.freemap.nbits = freemapbits v.nblocks.toNat
  bound : v.freemap.nbits < 2 ^ 32
  tail : ∀ b : UInt32, v.nblocks ≤ b → b.toNat < v.freemap.nbits → v.freemap.v b = true

/-- A volume whose link counts may be wrong, but for the root, and which may have marked blocks
without a role. The inode of block 1 is the directory, which no slot names; the other inodes in use
are files. -/
structure Sane (v : Volume) : Prop where
  device : v.nblocks ≤ v.dblocks
  owned : Owned v.place v.Marked
  names : ∀ j k, (v.slot j).ino ≠ noino → (v.slot k).ino ≠ noino →
    (v.slot j).cname = (v.slot k).cname → j = k
  unnamed : ∀ k, (v.slot k).ino ≠ rootdirIno
  rootType : (v.inode rootdirIno).type = typeDir
  rootLinks : (v.inode rootdirIno).linkcount ≠ 0
  rootSize : (v.inode rootdirIno).size.toNat % Direntry.sizeof = 0
  files : ∀ ino, v.Live ino → ino ≠ rootdirIno → (v.inode ino).type = typeFile
  mapped : v.Mapped
  tabled : v.Tabled

/-- A consistent volume: each link count is the number of the slots that name the inode, and each
marked block has a role. -/
structure Consistent (v : Volume) : Prop extends v.Sane where
  exact : Exact v.place v.Marked
  linkcount : ∀ ino, v.Live ino → ino ≠ rootdirIno → (v.inode ino).linkcount.toNat = v.links ino

/-- A volume as `mksfs` leaves it, mounted and without vnodes. -/
def mksfs (nblocks : UInt32) : Volume where
  nblocks := nblocks
  freemap :=
    { nbits := freemapbits nblocks.toNat
      v := fun b => b.toNat < freemapStart + freemapblocks nblocks.toNat ∨ nblocks ≤ b }
  vnodes := []
  disk b := .ofBuf
    (if b = rootdirIno then { Dinode.empty with type := typeDir, linkcount := 1 }.toSector else zeros)
  dblocks := nblocks
  dev := []

end Volume

end Sfs

end Clape
