import Clape.Calls
import Clape.SfsFormat
import Clape.Uio

namespace Clape
set_option autoImplicit true

namespace Sfs

/-- The bits of a bitmap. Bit `k` is bit `k % 8` of byte `k / 8`. -/
structure Bitmap where
  nbits : Nat
  v : UInt32 → Bool

/-- `struct sfs_vnode`, with the reference count of its `struct vnode`. -/
structure Vnode where
  ino : UInt32
  i : Dinode
  dirty : Bool
  refcount : Nat

/-- How the device ends an operation on a sector. -/
inductive Outcome where
  | done | mediaError
  deriving DecidableEq, Repr

/-- A mounted volume: `struct sfs_fs` and its device, with the size and the blocks of that and the
outcomes of its next operations; those after them succeed. -/
structure Volume where
  nblocks : UInt32
  freemap : Bitmap
  vnodes : List Vnode
  disk : UInt32 → Sector
  dblocks : UInt32
  dev : List Outcome

inductive Errno where
  | enoent | eexist | enospc | efbig | enametoolong | einval | ebusy | enotdir | eisdir | eio
  deriving DecidableEq, Repr

/-- The panics and assertions of the code, and the use of a vnode that is not in memory. -/
inductive Panic where
  | bitmapAllocRange | bitmapUnmarkRange | bitmapUnmarkFree
  | ballocInvalidBlock | busedOutOfRange | dataBlockFree
  | inodeUnallocated | loadUnallocated | forcetypeFound | forcetypeInode | inodeType
  | reclaimRefcount | reclaimNotInPool | cleanupRefcount | decrefRefcount
  | nentriesNotDir | nentriesSize | doublyNamed | linkcountZero
  | removeLinkcount | renameDirs | renameRoot | renameType | renameLinkcount | renameRecover
  | metaioHole | ioHole | ioResid | ioExtraresid | ioAligned | partialioLen
  | devopEinval | uioRanOut | dangling
  deriving DecidableEq, Repr

/-- The state of a transfer: the volume, the `uio`, and the memory that its buffers are in. -/
structure IoState where
  vol : Volume
  uio : Uio
  mem : Nat → UInt8

end Sfs

/-- A call of the file system. -/
abbrev Sfs := Call Sfs.Panic Sfs.Errno Sfs.Volume

namespace Sfs
open Call

/-- A call that works on a `uio`. -/
abbrev Io := Call Panic Errno IoState

namespace Volume

def setBit (v : Volume) (b : UInt32) (x : Bool) : Volume :=
  { v with freemap := { v.freemap with v := Function.update v.freemap.v b x } }

def put (v : Volume) (b : UInt32) (data : Sector) : Volume :=
  { v with disk := Function.update v.disk b data }

def vnode? (v : Volume) (ino : UInt32) : Option Vnode := v.vnodes.find? fun n => n.ino == ino

def mapVnode (v : Volume) (ino : UInt32) (f : Vnode → Vnode) : Volume :=
  { v with vnodes := v.vnodes.map fun n => if n.ino = ino then f n else n }

end Volume

/-- A call that does not look at the `uio`. -/
def onVolume (m : Sfs α) : Io α := fun s =>
  match m s.vol with
  | .error p => .error p
  | .ok (r, v) => .ok (r, { s with vol := v })

/-- `uiomove` to or from a buffer of the kernel, which is returned. -/
def move (buf : Buf) (ptr n : Nat) : Io Buf := fun s =>
  match uiomove buf ptr n s.uio s.mem with
  | none => .error .uioRanOut
  | some (buf, u, mem) => .ok (.ok buf, { s with uio := u, mem := mem })

/-- `uiomovezeros`. -/
def movezeros (n : Nat) : Io Unit := fun s =>
  match uiomovezeros n s.uio s.mem with
  | none => .error .uioRanOut
  | some (u, mem) => .ok (.ok (), { s with uio := u, mem := mem })

/-- The device works on a sector. It reports `LHD_INVSECT` or `LHD_MEDIA`, or does what it is asked
to do. -/
def operate (sector : UInt32) (f : Volume → Volume) : Sfs Unit := do
  let v ← state
  if v.dblocks ≤ sector then fail .einval
  else match v.dev with
    | .mediaError :: l => do
      update fun v => { v with dev := l }
      fail .eio
    | l => update fun v => f { v with dev := l.tail }

/-- One turn of the loop of `lhd_io`. -/
def lhdSector (sector : UInt32) : Io Unit := do
  let s ← state
  if s.uio.write then do
    let lhbuf ← move zeros 0 blocksize
    onVolume (operate sector fun v => v.put sector (.ofBuf lhbuf))
  else do
    onVolume (operate sector id)
    let _ ← move (s.vol.disk sector).bytes 0 blocksize

/-- `lhd_io`. The sectors of the device are as large as the blocks of the file system. -/
def lhdIo : Io Unit := do
  let s ← state
  let sector : UInt32 := .ofNat (s.uio.offset / blocksize)
  let len := s.uio.resid / blocksize
  if s.uio.offset % blocksize ≠ 0 ∨ s.uio.resid % blocksize ≠ 0 then fail .einval
  else if s.vol.dblocks < sector + .ofNat len then fail .einval
  else (List.range len).foldlM (fun _ i => lhdSector (sector + .ofNat i)) ()

/-- One attempt of `sfs_rwblock`, and what it does after an I/O error. -/
def attempt (again : Io Unit) : Io Unit := do
  match ← result lhdIo with
  | .ok _ => return ()
  | .error .einval => stop .devopEinval
  | .error .eio => again
  | .error e => fail e

/-- `sfs_rwblock`, with the number of times that it may still try again. -/
def rwblock : Nat → Io Unit
  | 0 => attempt (fail .eio)
  | tries + 1 => attempt (rwblock tries)

/-- The transfer of a block to or from a buffer of the kernel, through `SFSUIO`. -/
def kernelIo (block : UInt32) (write : Bool) (data : Buf) : Sfs Buf := fun v =>
  match rwblock 10 ⟨v, ⟨[⟨0, blocksize⟩], block.toNat * blocksize, blocksize, write⟩, data⟩ with
  | .error p => .error p
  | .ok (.ok _, s) => .ok (.ok s.mem, s.vol)
  | .ok (.error e, s) => .ok (.error e, s.vol)

def readblock (block : UInt32) : Sfs Buf := kernelIo block false zeros

def writeblock (block : UInt32) (data : Buf) : Sfs Unit := do
  let _ ← kernelIo block true data

end Sfs
end Clape
