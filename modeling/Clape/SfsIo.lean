import Clape.SfsVolume

namespace Clape
set_option autoImplicit true

namespace Sfs
open Call

def partialio (sv : UInt32) (skipstart len : Nat) : Io Unit := do
  require (skipstart + len ≤ blocksize) .partialioLen
  let s ← state
  let diskblock ← onVolume (bmap sv (s.uio.offset / blocksize % 2 ^ 32) s.uio.write)
  let iobuf ←
    if diskblock = 0 then do
      require (!s.uio.write) .ioHole
      pure zeros
    else onVolume (readblock diskblock)
  let iobuf ← move iobuf skipstart len
  when s.uio.write (onVolume (writeblock diskblock iobuf))

/-- `sfs_blockio`. The address on the device is computed with 32 bits. -/
def blockio (sv : UInt32) : Io Unit := do
  let s ← state
  let diskblock ← onVolume (bmap sv (s.uio.offset / blocksize % 2 ^ 32) s.uio.write)
  if diskblock = 0 then do
    require (!s.uio.write) .ioHole
    movezeros blocksize
  else do
    require (blocksize ≤ s.uio.resid) .ioResid
    let diskoff := diskblock.toNat * blocksize % 2 ^ 32
    update fun t => { t with uio := { t.uio with offset := diskoff, resid := blocksize } }
    let r ← result (rwblock 10)
    update fun t => { t with uio := { t.uio with
      offset := t.uio.offset - diskoff + s.uio.offset
      resid := t.uio.resid + s.uio.resid - blocksize } }
    match r with
    | .ok _ => return ()
    | .error e => fail e

/-- The transfer of `sfs_io`, up to the label `out`. -/
def ioTransfer (sv : UInt32) : Io Unit := do
  let s ← state
  let blkoff := s.uio.offset % blocksize
  when (blkoff ≠ 0) (partialio sv blkoff (min (blocksize - blkoff) s.uio.resid))
  let s ← state
  when (s.uio.resid ≠ 0) do
    require (s.uio.offset % blocksize = 0) .ioAligned
    (List.range (s.uio.resid / blocksize)).foldlM (fun _ _ => blockio sv) ()
    let s ← state
    require (s.uio.resid < blocksize) .ioResid
    when (0 < s.uio.resid) (partialio sv 0 s.uio.resid)

/-- The bytes that a read asks for past the end of the file. -/
def extraresid (i : Dinode) (u : Uio) : Nat := if u.write then 0 else u.offset + u.resid - i.size.toNat

def io (sv : UInt32) : Io Unit := do
  let n ← onVolume (deref sv)
  let s ← state
  if !s.uio.write ∧ n.i.size.toNat ≤ s.uio.offset then return ()
  else
    let extra := extraresid n.i s.uio
    require (extra = 0 ∨ extra < s.uio.resid) .ioExtraresid
    update fun t => { t with uio := { t.uio with resid := t.uio.resid - extra } }
    let r ← result (ioTransfer sv)
    let n ← onVolume (deref sv)
    let t ← state
    when (t.uio.resid ≠ s.uio.resid ∧ t.uio.write ∧ n.i.size.toNat < t.uio.offset)
      (onVolume (setInode sv fun i => { i with size := .ofNat t.uio.offset }))
    update fun t => { t with uio := { t.uio with resid := t.uio.resid + extra } }
    match r with
    | .ok _ => return ()
    | .error e => fail e

/-- A call on a `uio` of its own. -/
def withUio (u : Uio) (mem : Nat → UInt8) (m : Io α) : Sfs α := fun v =>
  match m ⟨v, u, mem⟩ with
  | .error p => .error p
  | .ok (r, s) => .ok (r, s.vol)

end Sfs

end Clape
