import Clape.PageTable

namespace Clape
set_option autoImplicit true

/-- A valid slot of the TLB: the virtual page, the index of the frame and the dirty bit,
which is the permission to write. -/
structure TlbEntry where
  vpage : Nat
  frame : Nat
  dirty : Bool
  deriving DecidableEq, Repr

/-- The TLB, the counter of `tlb_victim` and `previous_pid`. -/
structure Mmu where
  slots : Nat → Option TlbEntry
  nextVictim : Nat
  previousPid : Nat

def Mmu.write (m : Mmu) (k : Nat) (e : Option TlbEntry) : Mmu :=
  { m with slots := Function.update m.slots k e }

def Mmu.freeSlot (m : Mmu) : Option Nat :=
  (List.range numTlb).find? fun k => (m.slots k).isNone

/-- `tlb_insert`, and whether it replaced a slot. The test of `segment_is_readonly` is that
of the text segment. -/
def tlbInsert (pt : PageTable) (m : Mmu) (as : AddrSpace) (p v i : Nat) :
    Except Fault (PageTable × Mmu × Bool) :=
  let e : TlbEntry := ⟨v, i, !as.inText v⟩
  match m.freeSlot with
  | some k => .ok (pt, m.write k (some e), false)
  | none => do
    let k := m.nextVictim
    let pt ← match m.slots k with
      | some prev => pt.updateTlbBit prev.vpage p
      | none => .ok pt
    return (pt, { m with nextVictim := (k + 1) % numTlb }.write k (some e), true)

/-- One iteration of the loop of `tlb_invalidate_all`. -/
def invalidateSlot (x : PageTable × Mmu) (k : Nat) : Except Fault (PageTable × Mmu) := do
  let pt ← match x.2.slots k with
    | some e => x.1.updateTlbBit e.vpage x.2.previousPid
    | none => .ok x.1
  return (pt, x.2.write k none)

/-- `tlb_invalidate_all` for the process `p`. -/
def tlbInvalidateAll (pt : PageTable) (m : Mmu) (p : Nat) : Except Fault (PageTable × Mmu) :=
  if m.previousPid = p then .ok (pt, m)
  else do
    let (pt, m) ← (List.range numTlb).foldlM invalidateSlot (pt, m)
    return (pt, { m with previousPid := p })

/-- `as_activate`; a thread without an address space leaves the TLB as it is. -/
def asActivate (pt : PageTable) (m : Mmu) (as : Option AddrSpace) (p : Nat) :
    Except Fault (PageTable × Mmu) :=
  match as with
  | none => .ok (pt, m)
  | some _ => tlbInvalidateAll pt m p

end Clape
