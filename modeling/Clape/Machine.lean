import Mathlib.Data.List.Basic
import Mathlib.Logic.Function.Basic

namespace Clape
set_option autoImplicit true

def pageSize : Nat := 4096

/-- `USERSTACK`, which is also `USERSPACETOP` and `MIPS_KSEG0`. -/
def userStack : Nat := 0x80000000

/-- The value of the page field that marks a frame of the kernel heap. -/
def kmallocPage : Nat := 1

def maxProc : Nat := 100

def numTlb : Nat := 64

/-- Unsigned 32-bit arithmetic: `vaddr_t`, `paddr_t` and `size_t`. -/
def u32 (n : Nat) : Nat := n % 4294967296

/-- Unsigned 32-bit subtraction. -/
def u32Sub (a b : Nat) : Nat := (a + 4294967296 - b % 4294967296) % 4294967296

theorem u32Sub_of_le (h : b ≤ a) (ha : a < 4294967296) : u32Sub a b = a - b := by
  unfold u32Sub
  omega

/-- A 32-bit word read as a C `int`. -/
def toInt32 (n : Nat) : Int :=
  if n % 4294967296 < 2147483648 then (n % 4294967296 : Nat) else (n % 4294967296 : Nat) - 4294967296

/-- The page-aligned addresses of user space. -/
def UserAddr (v : Nat) : Prop := v % pageSize = 0 ∧ v < userStack

def PidOk (p : Nat) : Prop := 1 ≤ p ∧ p < 2147483648

instance (v : Nat) : Decidable (UserAddr v) := inferInstanceAs (Decidable (_ ∧ _))

instance (p : Nat) : Decidable (PidOk p) := inferInstanceAs (Decidable (_ ∧ _))

/-- The functions whose assertions and panics are modelled. -/
inductive Fn where
  | findVictim | ptGetPaddr | getPage | freePages | updateTlbBit | getContiguousPages
  | freeContiguousPages | copyPtEntries | endCopyPt | prepareCopyPt
  | getIndexFromHash | addInHash | removeFromHash
  | loadSwap | storeSwap | copySwapPages | removeProcessFromSwap | reorderSwapfile | loadPage
  | vmFault
  deriving DecidableEq, Repr

/-- What an assertion tests. -/
inductive Cond where
  | validity | reference | tlb | io | swap | kmalloc | key | bound | pool | store | addrspace
  deriving DecidableEq, Repr

/-- The ways in which the kernel stops: a failed `KASSERT`, a `panic`, the panic for a full
swap file, a use of the `NULL` address space of a kernel thread or of a `NULL` swap cell, a walk
of a cyclic list, a sleep that no other thread ends. -/
inductive Fault where
  | kassert (f : Fn) (c : Cond)
  | panic (f : Fn)
  | swapFull (f : Fn)
  | nullAddrspace (f : Fn)
  | nullCell (f : Fn)
  | endless (f : Fn)
  | contended (f : Fn)
  deriving DecidableEq, Repr

def kassert (b : Bool) (f : Fn) (c : Cond) : Except Fault Unit :=
  if b then .ok () else .error (.kassert f c)

@[simp] theorem kassert_ok : kassert b f c = .ok u ↔ b = true := by
  cases b <;> simp [kassert]

@[simp] theorem kassert_true : kassert true f c = .ok () := rfl

@[simp] theorem kassert_error : kassert b f c = .error e ↔ b = false ∧ e = .kassert f c := by
  cases b <;> simp [kassert, eq_comm]

theorem bind_ok {x : Except ε α} {g : α → Except ε β} :
    (x >>= g) = .ok r ↔ ∃ a, x = .ok a ∧ g a = .ok r := by
  cases x <;> simp [bind, Except.bind]

theorem map_ok {x : Except Fault α} {g : α → β} : g <$> x = .ok r ↔ ∃ a, x = .ok a ∧ g a = r := by
  cases x <;> simp [Functor.map, Except.map]

theorem bind_error {x : Except Fault α} {g : α → Except Fault β} :
    (x >>= g) = .error e ↔ x = .error e ∨ ∃ a, x = .ok a ∧ g a = .error e := by
  cases x <;> simp [bind, Except.bind]

/-- The control bits of a page table entry. -/
structure Ctrl where
  validity : Bool
  reference : Bool
  tlb : Bool
  io : Bool
  swap : Bool
  deriving DecidableEq, Repr

def Ctrl.zero : Ctrl := ⟨false, false, false, false, false⟩

/-- `struct pt_entry`. -/
structure PtEntry where
  page : Nat
  pid : Nat
  ctrl : Ctrl
  deriving DecidableEq, Repr

/-- A valid entry that holds a page of a process. -/
def PtEntry.user (e : PtEntry) : Bool := e.ctrl.validity && e.page != kmallocPage

theorem PtEntry.user_iff {e : PtEntry} :
    e.user = true ↔ e.ctrl.validity = true ∧ e.page ≠ kmallocPage := by
  simp [PtEntry.user]

/-- `struct pt_info` with the global `lastIndex`. -/
structure PageTable where
  entries : Nat → PtEntry
  nEntry : Nat
  firstFreePaddr : Nat
  contiguous : Nat → Int
  lastIndex : Nat

def PageTable.set (pt : PageTable) (i : Nat) (e : PtEntry) : PageTable :=
  { pt with entries := Function.update pt.entries i e }

/-- The physical address of frame `i`. -/
def PageTable.frame (pt : PageTable) (i : Nat) : Nat := i * pageSize + pt.firstFreePaddr

/-- The fields of `Elf_Phdr` that the loader reads. -/
structure ElfPhdr where
  pType : Nat
  pOffset : Nat
  pVaddr : Nat
  pFilesz : Nat
  pMemsz : Nat
  deriving DecidableEq, Repr

def ElfPhdr.zero : ElfPhdr := ⟨0, 0, 0, 0, 0⟩

/-- `struct addrspace`; the vnode is the number of a file. -/
structure AddrSpace where
  vbase1 : Nat
  npages1 : Nat
  vbase2 : Nat
  npages2 : Nat
  ph1 : ElfPhdr
  ph2 : ElfPhdr
  vnode : Nat
  initialOffset1 : Nat
  initialOffset2 : Nat
  deriving DecidableEq, Repr

inductive Segment where
  | text | data | stack
  deriving DecidableEq, Repr

/-- The range test for the text segment, as it stands in four functions. -/
def AddrSpace.inText (as : AddrSpace) (v : Nat) : Bool :=
  as.vbase1 ≤ v && v ≤ u32 (as.vbase1 + as.npages1 * pageSize)

def AddrSpace.inData (as : AddrSpace) (v : Nat) : Bool :=
  as.vbase2 ≤ v && v ≤ u32 (as.vbase2 + as.npages2 * pageSize)

/-- The stack test of `store_swap` and `load_swap`. -/
def AddrSpace.inStack (as : AddrSpace) (v : Nat) : Bool :=
  v ≤ userStack && u32 (as.vbase2 + as.npages2 * pageSize) < v

/-- The segments whose tests accept an address, in the order in which `store_swap` makes
the tests. -/
def AddrSpace.storeSegs (as : AddrSpace) (v : Nat) : List Segment :=
  (if as.inText v then [.text] else []) ++ (if as.inData v then [.data] else []) ++
    (if as.inStack v then [.stack] else [])

/-- The list `load_swap` searches: the last test that accepts the address decides. -/
def AddrSpace.loadSeg (as : AddrSpace) (v : Nat) : Option Segment :=
  (as.storeSegs v).getLast?

/-- `as_is_ok` for an address space that is not `NULL`. -/
def AddrSpace.isOk (as : AddrSpace) : Bool :=
  !(as.vbase1 == 0 || as.vbase2 == 0 || as.npages1 == 0 || as.npages2 == 0)

/-- Two address spaces that the range tests cannot tell apart. -/
def AddrSpace.SameLayout (as as' : AddrSpace) : Prop :=
  as.vbase1 = as'.vbase1 ∧ as.npages1 = as'.npages1 ∧
    as.vbase2 = as'.vbase2 ∧ as.npages2 = as'.npages2

theorem AddrSpace.SameLayout.storeSegs {as as' : AddrSpace} (h : as.SameLayout as') (v : Nat) :
    as.storeSegs v = as'.storeSegs v := by
  obtain ⟨h1, h2, h3, h4⟩ := h
  unfold AddrSpace.storeSegs AddrSpace.inText AddrSpace.inData AddrSpace.inStack
  rw [h1, h2, h3, h4]

/-- No address is accepted by two of the three tests. -/
def AddrSpace.Exclusive (as : AddrSpace) : Prop := ∀ v, (as.storeSegs v).length ≤ 1

theorem AddrSpace.Exclusive.storeSegs {as : AddrSpace} (h : as.Exclusive)
    (hv : as.loadSeg v = some sg) : as.storeSegs v = [sg] := by
  have hl := h v
  unfold AddrSpace.loadSeg at hv
  match hs : as.storeSegs v with
  | [] => simp [hs] at hv
  | [a] => simp_all
  | a :: b :: r => simp [hs] at hl

/-- `as_define_region`: the unaligned start is added twice to the size. -/
def asDefineRegion (as : AddrSpace) (vaddr memsize : Nat) : Option AddrSpace :=
  let initialOffset := vaddr % pageSize
  let base := vaddr - initialOffset
  let size := u32 (u32 (memsize + vaddr % pageSize) + initialOffset + pageSize - 1)
  let npages := (size - size % pageSize) / pageSize
  if as.vbase1 = 0 then
    some { as with vbase1 := base, npages1 := npages, initialOffset1 := initialOffset }
  else if as.vbase2 = 0 then
    some { as with vbase2 := base, npages2 := npages, initialOffset2 := initialOffset }
  else none

/-- `as_create`, for an executable with the given vnode. -/
def asCreate (v : Nat) : AddrSpace := ⟨0, 0, 0, 0, .zero, .zero, v, 0, 0⟩

end Clape
