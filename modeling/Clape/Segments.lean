import Clape.ByteStore
import Clape.Machine

namespace Clape
set_option autoImplicit true

/-- A file that `VOP_READ` reads: its size and its bytes. -/
structure File where
  size : Nat
  bytes : Nat → UInt8

/-- How `load_page` builds a page that is not in the swap file: zeros, a read of the
executable (with the zeros before it, the file offset, the place in the frame and the
length), or a segmentation fault. -/
inductive LoadPlan where
  | zero
  | read (bzero : Bool) (offset dst len : Nat)
  | segv
  deriving DecidableEq, Repr

/-- The branch of `load_page` for the text segment or the data segment. The first page of a
text segment that is not aligned has its offset subtracted twice from the length. -/
def ElfPhdr.loadPlan (ph : ElfPhdr) (base initialOffset : Nat) (text : Bool) (v : Nat) : LoadPlan :=
  let d := u32Sub v base
  let offset := u32 (ph.pOffset + d)
  if initialOffset ≠ 0 ∧ d = 0 then
    let sz := if pageSize - initialOffset ≤ ph.pFilesz then pageSize - initialOffset else ph.pFilesz
    let filesize := if text then u32Sub sz initialOffset else sz
    .read true offset initialOffset (min filesize pageSize)
  else
    let rest := u32Sub (u32 (ph.pFilesz + initialOffset)) d
    if toInt32 (ph.pFilesz + initialOffset) - toInt32 d < 0 then .zero
    else if rest < pageSize then
      .read true offset 0 (min rest (u32Sub (u32 (ph.pMemsz + initialOffset)) d))
    else .read false offset 0 pageSize

theorem ElfPhdr.loadPlan_ne_segv (ph : ElfPhdr) (base off : Nat) (text : Bool) (v : Nat) :
    ph.loadPlan base off text v ≠ .segv := by
  unfold ElfPhdr.loadPlan
  simp only
  split
  · exact nofun
  · split
    · exact nofun
    · split <;> exact nofun

/-- `load_page` after `load_swap` found nothing. -/
def AddrSpace.loadPlan (as : AddrSpace) (v : Nat) : LoadPlan :=
  if as.inText v then as.ph1.loadPlan as.vbase1 as.initialOffset1 true v
  else if as.inData v then as.ph2.loadPlan as.vbase2 as.initialOffset2 false v
  else if u32 (as.vbase2 + as.npages2 * pageSize) < v ∧ v < userStack then .zero
  else .segv

/-- The read of `load_elf_page` stays inside the frame. -/
def LoadPlan.Inside : LoadPlan → Prop
  | .read _ _ dst len => dst + len ≤ pageSize
  | _ => True

/-- `VOP_READ` of an executable into memory; a read past the end of the file is short. -/
def File.readInto (f : File) (m : Nat → UInt8) (a offset len : Nat) : Nat → UInt8 :=
  writeAt m a (min len (f.size - offset)) (readAt f.bytes offset)

def bzero (m : Nat → UInt8) (a : Nat) : Nat → UInt8 := writeAt m a pageSize fun _ => 0

def ptNull : Nat := 0
def ptLoad : Nat := 1
def ptPhdr : Nat := 6
def ptMipsReginfo : Nat := 0x70000000

/-- The program headers of an executable with a text and a data segment of the given sizes. -/
def programHeaders (text memsz₁ data memsz₂ : Nat) : List ElfPhdr :=
  [⟨ptMipsReginfo, 0, 0, 0, 0⟩, ⟨ptLoad, 0, text, 0, memsz₁⟩, ⟨ptLoad, 0, data, 0, memsz₂⟩]

/-- The first loop of `load_elf` over the program headers. -/
def ElfPhdr.define (ph : ElfPhdr) (as : AddrSpace) : Option AddrSpace :=
  if ph.pType = ptNull ∨ ph.pType = ptPhdr ∨ ph.pType = ptMipsReginfo then some as
  else if ph.pType = ptLoad then asDefineRegion as ph.pVaddr ph.pMemsz
  else none

/-- `load_elf` into a new address space: `ph1` and `ph2` are the headers number 1 and 2,
whatever the regions come from. -/
def loadElf (vn : Nat) (phs : List ElfPhdr) : Option AddrSpace := do
  let as ← phs.foldlM (fun as ph => ph.define as) (asCreate vn)
  let as := match phs[1]? with
    | some ph => if ph.pType = ptLoad then { as with ph1 := ph } else as
    | none => as
  return match phs[2]? with
    | some ph => if ph.pType = ptLoad then { as with ph2 := ph } else as
    | none => as

end Clape
