import Mathlib.Data.List.FinRange
import Clape.SfsDevice

namespace Clape
set_option autoImplicit true

namespace Sfs
open Call

/-- The first clear bit, looked for byte by byte. -/
def bitmapAlloc : Sfs UInt32 := do
  let v ← state
  match (List.range ((v.freemap.nbits + 7) / 8 * 8)).find? fun k => !v.freemap.v (.ofNat k) with
  | none => fail .enospc
  | some k =>
    require (k < v.freemap.nbits) .bitmapAllocRange
    update fun v => v.setBit (.ofNat k) true
    return .ofNat k

def bitmapUnmark (index : UInt32) : Sfs Unit := do
  let v ← state
  require (index.toNat < v.freemap.nbits) .bitmapUnmarkRange
  require (v.freemap.v index) .bitmapUnmarkFree
  update fun v => v.setBit index false

def balloc : Sfs UInt32 := do
  let diskblock ← bitmapAlloc
  let v ← state
  require (diskblock < v.nblocks) .ballocInvalidBlock
  match ← result (writeblock diskblock zeros) with
  | .ok _ => return diskblock
  | .error e =>
    bitmapUnmark diskblock
    fail e

def bfree (diskblock : UInt32) : Sfs Unit := bitmapUnmark diskblock

def bused (diskblock : UInt32) : Sfs Bool := do
  let v ← state
  require (diskblock < v.nblocks) .busedOutOfRange
  return v.freemap.v diskblock

/-- The vnode that a pointer is for. No two vnodes in memory have one inode, so that a pointer is
modelled by the number of the inode. -/
def deref (sv : UInt32) : Sfs Vnode := do
  let v ← state
  match v.vnode? sv with
  | some n => return n
  | none => stop .dangling

def store (sv : UInt32) (f : Vnode → Vnode) : Sfs Unit := update fun v => v.mapVnode sv f

/-- Write to `sv_i`, and set `sv_dirty`. -/
def setInode (sv : UInt32) (f : Dinode → Dinode) : Sfs Unit :=
  store sv fun n => { n with i := f n.i, dirty := true }

def Dinode.setDirect (i : Dinode) (k : Fin ndirect) (b : UInt32) : Dinode :=
  { i with direct := Function.update i.direct k b }

/-- The end of `sfs_bmap`. -/
def handBack (block : UInt32) : Sfs UInt32 := do
  if block = 0 then return block
  else
    require (← bused block) .dataBlockFree
    return block

def bmapDirect (sv : UInt32) (k : Fin ndirect) (doalloc : Bool) : Sfs UInt32 := do
  let n ← deref sv
  if n.i.direct k = 0 ∧ doalloc then
    let block ← balloc
    setInode sv fun i => i.setDirect k block
    handBack block
  else handBack (n.i.direct k)

/-- The indirect block and its contents, for a file that may not have one yet. -/
def indirectBlock (sv : UInt32) : Sfs (UInt32 × Idbuf) := do
  let n ← deref sv
  if n.i.indirect = 0 then
    let idblock ← balloc
    setInode sv fun i => { i with indirect := idblock }
    return (idblock, fun _ => 0)
  else
    let data ← readblock n.i.indirect
    return (n.i.indirect, .ofSector data)

def bmapIndirect (sv : UInt32) (idoff : Fin dbperidb) (doalloc : Bool) : Sfs UInt32 := do
  let n ← deref sv
  if n.i.indirect = 0 ∧ !doalloc then return 0
  else
    let (idblock, idbuf) ← indirectBlock sv
    if idbuf idoff = 0 ∧ doalloc then
      let block ← balloc
      writeblock idblock (Idbuf.toSector (Function.update idbuf idoff block))
      handBack block
    else handBack (idbuf idoff)

def bmap (sv : UInt32) (fileblock : Nat) (doalloc : Bool) : Sfs UInt32 :=
  if h : fileblock < ndirect then bmapDirect sv ⟨fileblock, h⟩ doalloc
  else if nindirect ≤ (fileblock - ndirect) / dbperidb then fail .efbig
  else bmapIndirect sv ⟨(fileblock - ndirect) % dbperidb, Nat.mod_lt _ (by decide)⟩ doalloc

/-- One turn of the loop of `sfs_itrunc` over the direct blocks. -/
def truncDirect (sv : UInt32) (blocklen : Nat) (k : Fin ndirect) : Sfs Unit := do
  let n ← deref sv
  when (blocklen ≤ k ∧ n.i.direct k ≠ 0) do
    bfree (n.i.direct k)
    setInode sv fun i => i.setDirect k 0

/-- The variables of the loop of `sfs_itrunc` over the indirect block. -/
structure IdLoop where
  idbuf : Idbuf
  hasnonzero : Bool
  iddirty : Bool

def truncIndirect (blocklen : Nat) (x : IdLoop) (j : Fin dbperidb) : Sfs IdLoop := do
  let x ←
    if blocklen < ndirect + j ∧ x.idbuf j ≠ 0 then do
      bfree (x.idbuf j)
      pure { x with idbuf := Function.update x.idbuf j 0, iddirty := true }
    else pure x
  return { x with hasnonzero := x.hasnonzero || x.idbuf j != 0 }

/-- The part of `sfs_itrunc` for the indirect block. -/
def itruncIndirect (sv : UInt32) (blocklen : Nat) : Sfs Unit := do
  let n ← deref sv
  when (blocklen < ndirect + dbperidb - 1 ∧ n.i.indirect ≠ 0) do
    let data ← readblock n.i.indirect
    let x ← (List.finRange dbperidb).foldlM (truncIndirect blocklen) ⟨.ofSector data, false, false⟩
    if !x.hasnonzero then
      bfree n.i.indirect
      setInode sv fun i => { i with indirect := 0 }
    else when x.iddirty (writeblock n.i.indirect x.idbuf.toSector)

/-- `sfs_itrunc`, for a length that is not negative. -/
def itrunc (sv : UInt32) (len : Nat) : Sfs Unit := do
  let blocklen := (len + blocksize - 1) / blocksize % 2 ^ 32
  (List.finRange ndirect).foldlM (fun _ k => truncDirect sv blocklen k) ()
  itruncIndirect sv blocklen
  setInode sv fun i => { i with size := .ofNat len }

end Sfs

end Clape
