import Clape.Runs
import Clape.SfsIo

namespace Clape
set_option autoImplicit true

namespace Sfs
open Call

def syncInode (sv : UInt32) : Sfs Unit := do
  let n ← deref sv
  when n.dirty do
    writeblock n.ino n.i.toSector
    store sv fun n => { n with dirty := false }

/-- The search of `sfs_loadvnode` in the table of vnodes. -/
def searchVnodes (ino : UInt32) : List Vnode → Sfs Bool
  | [] => return false
  | n :: l => do
    require (← bused n.ino) .inodeUnallocated
    if n.ino = ino then return true
    else searchVnodes ino l

def incref (sv : UInt32) : Sfs Unit := store sv fun n => { n with refcount := n.refcount + 1 }

/-- The vnode that `sfs_loadvnode` makes of an inode on disk. -/
def newVnode (ino : UInt32) (forcetype : UInt16) (i : Dinode) : Vnode :=
  if forcetype = typeInval then ⟨ino, i, false, 1⟩
  else ⟨ino, { i with type := forcetype }, true, 1⟩

def loadvnode (ino : UInt32) (forcetype : UInt16) : Sfs UInt32 := do
  let v ← state
  if ← searchVnodes ino v.vnodes then
    require (forcetype = typeInval) .forcetypeFound
    incref ino
    return ino
  else
    require (← bused ino) .loadUnallocated
    let data ← readblock ino
    require (forcetype = typeInval ∨ (Dinode.ofSector data).type = typeInval) .forcetypeInode
    let n := newVnode ino forcetype (.ofSector data)
    require (n.i.type = typeFile ∨ n.i.type = typeDir) .inodeType
    update fun v => { v with vnodes := v.vnodes ++ [n] }
    return ino

def makeobj (type : UInt16) : Sfs UInt32 := do
  let ino ← balloc
  match ← result (loadvnode ino type) with
  | .ok sv => return sv
  | .error e =>
    bfree ino
    fail e

def getroot : Sfs UInt32 := do
  let sv ← loadvnode rootdirIno typeInval
  let n ← deref sv
  if n.i.type ≠ typeDir then fail .einval
  else return sv

/-- Take the vnode out of the table. -/
def removeVnode (sv : UInt32) : Sfs Unit := do
  let v ← state
  match v.vnodes.find? fun n => n.ino == sv with
  | none => stop .reclaimNotInPool
  | some n =>
    update fun v => { v with vnodes := v.vnodes.eraseP fun n => n.ino == sv }
    -- `vnode_cleanup`
    require (n.refcount = 1) .cleanupRefcount

def reclaim (sv : UInt32) : Sfs Unit := do
  let n ← deref sv
  if n.refcount ≠ 1 then
    require (1 < n.refcount) .reclaimRefcount
    store sv fun n => { n with refcount := n.refcount - 1 }
    fail .ebusy
  else
    when (n.i.linkcount = 0) (itrunc sv 0)
    syncInode sv
    let n ← deref sv
    when (n.i.linkcount = 0) (bfree n.ino)
    removeVnode sv

/-- `vnode_decref`. It only prints a warning when `VOP_RECLAIM` fails. -/
def decref (sv : UInt32) : Sfs Unit := do
  let n ← deref sv
  require (0 < n.refcount) .decrefRefcount
  if 1 < n.refcount then store sv fun n => { n with refcount := n.refcount - 1 }
  else
    let _ ← result (reclaim sv)
    return ()

/-- The direction of a transfer, with the data of a write. -/
inductive Rw where
  | read
  | write (data : Nat → UInt8)

def Rw.isWrite : Rw → Bool
  | .read => false
  | .write _ => true

/-- `sfs_metaio`. The data of a read is returned. -/
def metaio (sv : UInt32) (actualpos len : Nat) (rw : Rw) : Sfs (Nat → UInt8) := do
  let diskblock ← bmap sv (actualpos / blocksize % 2 ^ 32) rw.isWrite
  if diskblock = 0 then
    require (!rw.isWrite) .metaioHole
    return fun _ => 0
  else
    let metaiobuf ← readblock diskblock
    match rw with
    | .read => return readAt metaiobuf (actualpos % blocksize)
    | .write data =>
      writeblock diskblock (writeAt metaiobuf (actualpos % blocksize) len data)
      let n ← deref sv
      when (n.i.size.toNat < actualpos + len)
        (setInode sv fun i => { i with size := .ofNat (actualpos + len) })
      return data

def readdir (sv : UInt32) (slot : Nat) : Sfs Direntry := do
  let data ← metaio sv (slot * Direntry.sizeof) Direntry.sizeof .read
  return .ofBytes data 0

def writedir (sv : UInt32) (slot : Nat) (sd : Direntry) : Sfs Unit := do
  let _ ← metaio sv (slot * Direntry.sizeof) Direntry.sizeof (.write sd.toBytes)
  return ()

def dirNentries (sv : UInt32) : Sfs Nat := do
  let n ← deref sv
  require (n.i.type = typeDir) .nentriesNotDir
  require (n.i.size.toNat % Direntry.sizeof = 0) .nentriesSize
  return n.i.size.toNat / Direntry.sizeof

/-- What `sfs_dir_findname` has found: the slot of the name with the inode number, and an empty
slot. -/
structure Found where
  entry : Option (Nat × UInt32)
  emptyslot : Option Nat

/-- One turn of the loop of `sfs_dir_findname`. -/
def findSlot (sv : UInt32) (name : CString) (x : Found) (slot : Nat) : Sfs Found := do
  let tsd ← readdir sv slot
  if tsd.ino = noino then return { x with emptyslot := some slot }
  else if tsd.cname = name.1 then
    require x.entry.isNone .doublyNamed
    return { x with entry := some (slot, tsd.ino) }
  else return x

/-- `sfs_dir_findname`. It returns `ENOENT` when it finds no entry; the empty slot is handed back
in that case too. -/
def dirFindname (sv : UInt32) (name : CString) : Sfs Found := do
  let nentries ← dirNentries sv
  (List.range nentries).foldlM (findSlot sv name) ⟨none, none⟩

def dirLink (sv : UInt32) (name : CString) (ino : UInt32) : Sfs Nat := do
  let x ← dirFindname sv name
  if x.entry.isSome then fail .eexist
  else if namelen < name.1.length + 1 then fail .enametoolong
  else
    let nentries ← dirNentries sv
    let slot := x.emptyslot.getD nentries
    writedir sv slot (.named ino name)
    return slot

def dirUnlink (sv : UInt32) (slot : Nat) : Sfs Unit := writedir sv slot .empty

/-- `sfs_lookonce`, which hands back the vnode and the slot. -/
def lookonce (sv : UInt32) (name : CString) : Sfs (UInt32 × Nat) := do
  let x ← dirFindname sv name
  match x.entry with
  | none => fail .enoent
  | some (slot, ino) =>
    let ret ← loadvnode ino typeInval
    let n ← deref ret
    require (n.i.linkcount ≠ 0) .linkcountZero
    return (ret, slot)

def Dinode.addLink (i : Dinode) : Dinode := { i with linkcount := i.linkcount + 1 }

def Dinode.dropLink (i : Dinode) : Dinode := { i with linkcount := i.linkcount - 1 }

def creat (sv : UInt32) (name : CString) (excl : Bool) : Sfs UInt32 := do
  let x ← dirFindname sv name
  match x.entry with
  | some (_, ino) =>
    if excl then fail .eexist
    else loadvnode ino typeInval
  | none =>
    let newguy ← makeobj typeFile
    match ← result (dirLink sv name newguy) with
    | .error e =>
      decref newguy
      fail e
    | .ok _ =>
      setInode newguy Dinode.addLink
      return newguy

def link (sv : UInt32) (name : CString) (f : UInt32) : Sfs Unit := do
  let n ← deref f
  if n.i.type = typeDir then fail .einval
  else
    let _ ← dirLink sv name n.ino
    setInode f Dinode.addLink

def remove (sv : UInt32) (name : CString) : Sfs Unit := do
  let (victim, slot) ← lookonce sv name
  match ← result (dirUnlink sv slot) with
  | .ok _ =>
    let n ← deref victim
    require (0 < n.i.linkcount) .removeLinkcount
    setInode victim Dinode.dropLink
    decref victim
  | .error e =>
    decref victim
    fail e

/-- The part of `sfs_rename` after the file is linked under its new name. -/
def renameUnlink (sv g1 : UInt32) (slot1 slot2 : Nat) : Sfs Unit := do
  setInode g1 Dinode.addLink
  match ← result (dirUnlink sv slot1) with
  | .ok _ =>
    let n ← deref g1
    require (0 < n.i.linkcount) .renameLinkcount
    setInode g1 Dinode.dropLink
    decref g1
  | .error e =>
    match ← result (dirUnlink sv slot2) with
    | .ok _ =>
      store g1 fun n => { n with i := n.i.dropLink }
      decref g1
      fail e
    | .error _ => stop .renameRecover

def rename (d1 : UInt32) (n1 : CString) (d2 : UInt32) (n2 : CString) : Sfs Unit := do
  require (d1 = d2) .renameDirs
  require (d1 = rootdirIno) .renameRoot
  let (g1, slot1) ← lookonce d1 n1
  let n ← deref g1
  require (n.i.type = typeFile) .renameType
  match ← result (dirLink d1 n2 n.ino) with
  | .error e =>
    decref g1
    fail e
  | .ok slot2 => renameUnlink d1 g1 slot1 slot2

/-- The calls that the file system serves. A call takes the vnodes that its caller has a
reference to. -/
inductive Op where
  | creat (dir : UInt32) (name : CString) (excl : Bool)
  | link (dir : UInt32) (name : CString) (file : UInt32)
  | remove (dir : UInt32) (name : CString)
  | rename (d1 : UInt32) (n1 : CString) (d2 : UInt32) (n2 : CString)
  | lookup (dir : UInt32) (name : CString)
  | getroot
  | io (file : UInt32) (u : Uio) (mem : Nat → UInt8)
  | truncate (file : UInt32) (len : Nat)
  | fsync (sv : UInt32)
  | incref (sv : UInt32)
  | decref (sv : UInt32)
  | reclaim (sv : UInt32)

/-- An operation of the table `sfs_dirops`; a file has a stub in its place. -/
def dirop (sv : UInt32) (m : Sfs α) : Sfs α := do
  let n ← deref sv
  if n.i.type = typeDir then m
  else fail .enotdir

/-- An operation of the table `sfs_fileops`; the directory has a stub in its place. -/
def fileop (sv : UInt32) (m : Sfs α) : Sfs α := do
  let n ← deref sv
  if n.i.type = typeDir then fail .eisdir
  else m

def Op.exec : Op → Sfs Unit
  | .creat dir name excl => dirop dir do let _ ← Sfs.creat dir name excl
  | .link dir name file => dirop dir (Sfs.link dir name file)
  | .remove dir name => dirop dir (Sfs.remove dir name)
  | .rename d1 n1 d2 n2 => dirop d1 (Sfs.rename d1 n1 d2 n2)
  | .lookup dir name => dirop dir do let _ ← lookonce dir name
  | .getroot => do let _ ← Sfs.getroot
  | .io file u mem => fileop file (withUio u mem (Sfs.io file))
  | .truncate file len => fileop file (itrunc file len)
  | .fsync sv => syncInode sv
  | .incref sv => Sfs.incref sv
  | .decref sv => Sfs.decref sv
  | .reclaim sv => Sfs.reclaim sv

/-- A vnode is in memory. -/
def Volume.Cached (v : Volume) (ino : UInt32) : Prop := (v.vnode? ino).isSome = true

/-- The vnodes that an operation is called with are in memory, the second directory of a rename is
one, and the buffers of a transfer are as long as it says. -/
def Op.Valid (v : Volume) : Op → Prop
  | .creat dir _ _ | .remove dir _ | .lookup dir _ => v.Cached dir
  | .link dir _ file => v.Cached dir ∧ v.Cached file
  | .rename d1 _ d2 _ => v.Cached d1 ∧ ∃ n, v.vnode? d2 = some n ∧ n.i.type = typeDir
  | .getroot => True
  | .io sv u _ => v.Cached sv ∧ u.resid < 4294967296 ∧ u.resid ≤ (addrs u.iov).length
  | .truncate sv _ | .fsync sv | .incref sv | .decref sv
  | .reclaim sv => v.Cached sv

/-- One operation, which ends with or without an error number. The operations run one at a time,
under the lock of the VFS layer. -/
def OpStep (v : Volume) (op : Op) (v' : Volume) : Prop :=
  op.Valid v ∧ ∃ r, op.exec v = .ok (r, v')

end Sfs

end Clape
