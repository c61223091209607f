import Clape.HashTable

namespace Clape
set_option autoImplicit true

/-- A call of `store_swap` made by the page table code: address, owner and frame index. -/
structure StoreCall where
  vaddr : Nat
  pid : Nat
  index : Nat
  deriving DecidableEq, Repr

/-- The inverted page table, its hash table and the calls of `store_swap` made so far. -/
structure Ipt where
  pt : PageTable
  ht : HashTable
  stores : List StoreCall

def PtEntry.setTlb (e : PtEntry) (b : Bool) : PtEntry := { e with ctrl := { e.ctrl with tlb := b } }
def PtEntry.setIo (e : PtEntry) (b : Bool) : PtEntry := { e with ctrl := { e.ctrl with io := b } }
def PtEntry.setSwap (e : PtEntry) (b : Bool) : PtEntry :=
  { e with ctrl := { e.ctrl with swap := b } }
def PtEntry.setReference (e : PtEntry) (b : Bool) : PtEntry :=
  { e with ctrl := { e.ctrl with reference := b } }

/-- The test of `findspace`. -/
def PtEntry.isSpace (e : PtEntry) : Bool :=
  !e.ctrl.validity && !e.ctrl.io && !e.ctrl.swap && e.page != kmallocPage

/-- The entries `find_victim` and `get_contiguous_pages` may take. -/
def PtEntry.eligible (e : PtEntry) : Bool :=
  !e.ctrl.tlb && !e.ctrl.io && e.page != kmallocPage && !e.ctrl.swap

def PageTable.findspace (pt : PageTable) : Option Nat :=
  (List.range pt.nEntry).find? fun i => (pt.entries i).isSpace

/-- The second-chance loop of `find_victim` over the given indices: the entries with the
reference bits it cleared, and the victim. -/
def victimSweep (E : Nat → PtEntry) : List Nat → (Nat → PtEntry) × Option Nat
  | [] => (E, none)
  | i :: r =>
    if (E i).eligible then
      if (E i).ctrl.reference then
        victimSweep (Function.update E i ((E i).setReference false)) r
      else (E, some i)
    else victimSweep E r

/-- `find_victim` goes round three times from its start before it waits on `pt_cv`. -/
def PageTable.victimOrder (pt : PageTable) (start : Nat) : List Nat :=
  (List.range (3 * pt.nEntry)).map fun k => (start + k) % pt.nEntry

def PageTable.seekVictim (pt : PageTable) (start : Nat) : (Nat → PtEntry) × Option Nat :=
  victimSweep pt.entries (pt.victimOrder start)

/-- The entry a fault claims: the new key, valid and under I/O. -/
def PtEntry.claim (e : PtEntry) (v p : Nat) : PtEntry :=
  { page := v, pid := p, ctrl := { e.ctrl with io := true, validity := true } }

/-- `find_victim` from the choice of the victim to the call of `store_swap`; the result
is the key of the page that was there. -/
def Ipt.claimVictim (s : Ipt) (v p i : Nat) : Except Fault (Ipt × Option (Nat × Nat)) := do
  let e := s.pt.entries i
  kassert (!e.ctrl.io) .findVictim .io
  kassert (!e.ctrl.swap) .findVictim .swap
  kassert (!e.ctrl.tlb) .findVictim .tlb
  kassert (e.page != kmallocPage) .findVictim .kmalloc
  let pt := s.pt.set i (e.claim v p)
  if e.ctrl.validity then
    let ht ← s.ht.removeFromHash e.page e.pid
    return ({ s with pt := pt, ht := ht }, some (e.page, e.pid))
  else
    return ({ s with pt := pt }, none)

/-- The end of `find_victim`. -/
def Ipt.hashVictim (s : Ipt) (v p i : Nat) : Except Fault Ipt := do
  let ht ← s.ht.addInHash v p i
  return { s with pt := { s.pt with lastIndex := (i + 1) % s.pt.nEntry }, ht := ht }

/-- `find_victim` from a given start; `none` is a wait on `pt_cv`, after which the loop
goes on from the same start. -/
def Ipt.findVictimFrom (s : Ipt) (start v p : Nat) : Except Fault (Ipt × Option Nat) :=
  match s.pt.seekVictim start with
  | (E, none) => .ok ({ s with pt := { s.pt with entries := E } }, none)
  | (E, some i) => do
    let (s₁, old) ← ({ s with pt := { s.pt with entries := E } } : Ipt).claimVictim v p i
    let s₂ : Ipt := match old with
      | some (ov, op) => { s₁ with stores := s₁.stores ++ [⟨ov, op, i⟩] }
      | none => s₁
    let s₃ ← s₂.hashVictim v p i
    return (s₃, some i)

def Ipt.findVictim (s : Ipt) (v p : Nat) : Except Fault (Ipt × Option Nat) :=
  s.findVictimFrom s.pt.lastIndex v p

/-- `pt_get_paddr`, with the index for the address. -/
def Ipt.ptGetPaddr (s : Ipt) (v p : Nat) : Except Fault (Ipt × Option Nat) := do
  match ← s.ht.getIndexFromHash v p with
  | none => return (s, none)
  | some i =>
    let e := s.pt.entries i
    kassert (e.pid == p) .ptGetPaddr .key
    kassert (e.page == v) .ptGetPaddr .key
    kassert (e.page != kmallocPage) .ptGetPaddr .kmalloc
    kassert (!e.ctrl.io) .ptGetPaddr .io
    kassert (!e.ctrl.tlb) .ptGetPaddr .tlb
    return ({ s with pt := s.pt.set i (e.setTlb true) }, some i)

/-- The branch of `get_page` that uses a free frame, up to `load_page`. -/
def Ipt.claimSpace (s : Ipt) (v p i : Nat) : Except Fault Ipt := do
  let ht ← s.ht.addInHash v p i
  return { s with pt := s.pt.set i ((s.pt.entries i).claim v p), ht := ht }

/-- The end of `get_page`, after `load_page`. -/
def PageTable.pageLoaded (pt : PageTable) (i : Nat) : PageTable :=
  pt.set i (((pt.entries i).setIo false).setTlb true)

/-- `get_page` without the contents of the pages; `none` is a wait in `find_victim`. -/
def Ipt.getPage (s : Ipt) (v p : Nat) : Except Fault (Ipt × Option Nat) := do
  match ← s.ptGetPaddr v p with
  | (s₁, some i) => return (s₁, some i)
  | (s₁, none) =>
    match s₁.pt.findspace with
    | some i =>
      let s₂ ← s₁.claimSpace v p i
      return ({ s₂ with pt := s₂.pt.pageLoaded i }, some i)
    | none =>
      match ← s₁.findVictim v p with
      | (s₂, none) => return (s₂, none)
      | (s₂, some i) => return ({ s₂ with pt := s₂.pt.pageLoaded i }, some i)

/-- One iteration of the loop of `free_pages`. -/
def Ipt.freePage (s : Ipt) (p i : Nat) : Except Fault Ipt := do
  let e := s.pt.entries i
  if e.pid == p && e.user then
    kassert (!e.ctrl.io) .freePages .io
    kassert (e.page != kmallocPage) .freePages .kmalloc
    kassert (!e.ctrl.swap) .freePages .swap
    let ht ← s.ht.removeFromHash e.page p
    return { s with pt := s.pt.set i ⟨0, 0, .zero⟩, ht := ht }
  else return s

def Ipt.freePages (s : Ipt) (p : Nat) : Except Fault Ipt :=
  (List.range s.pt.nEntry).foldlM (fun s i => s.freePage p i) s

def PageTable.updateTlbBit (pt : PageTable) (v p : Nat) : Except Fault PageTable :=
  match (List.range pt.nEntry).find? fun i =>
      (pt.entries i).pid == p && (pt.entries i).page == v && (pt.entries i).ctrl.validity with
  | none => .ok pt
  | some i => do
    let e := pt.entries i
    kassert (e.page != kmallocPage) .updateTlbBit .kmalloc
    kassert e.ctrl.tlb .updateTlbBit .tlb
    return pt.set i ((e.setTlb false).setReference true)

/-- The loops of `prepare_copy_pt` and `end_copy_pt`: set or clear the swap bits of a
process after an assertion on each of its entries. -/
def PageTable.markCopy (pt : PageTable) (p : Nat) (b : Bool) (f : Fn) (c : Cond)
    (ok : PtEntry → Bool) : Except Fault PageTable :=
  (List.range pt.nEntry).foldlM (fun pt i =>
    if (pt.entries i).pid == p && (pt.entries i).user then do
      kassert (ok (pt.entries i)) f c
      return pt.set i ((pt.entries i).setSwap b)
    else return pt) pt

def PageTable.prepareCopyPt (pt : PageTable) (p : Nat) : Except Fault PageTable :=
  pt.markCopy p true .prepareCopyPt .io fun e => !e.ctrl.io

def PageTable.endCopyPt (pt : PageTable) (p : Nat) : Except Fault PageTable :=
  pt.markCopy p false .endCopyPt .swap fun e => e.ctrl.swap

/-- The entry of a copied page. -/
def PtEntry.copyOf (e src : PtEntry) (p : Nat) : PtEntry :=
  { page := src.page, pid := p, ctrl := { e.ctrl with validity := true } }

/-- The branch of `copy_pt_entries` that found a free frame. -/
def Ipt.copyEntry (s : Ipt) (new i pos : Nat) : Except Fault Ipt := do
  let e := (s.pt.entries pos).copyOf (s.pt.entries i) new
  let ht ← s.ht.addInHash e.page new pos
  kassert (!e.ctrl.io) .copyPtEntries .io
  kassert (!e.ctrl.swap) .copyPtEntries .swap
  kassert (!e.ctrl.tlb) .copyPtEntries .tlb
  kassert (e.page != kmallocPage) .copyPtEntries .kmalloc
  return { s with pt := s.pt.set pos e, ht := ht }

/-- The assertions of `copy_pt_entries` before it stores a page. -/
def copyStoreAsserts (e : PtEntry) : Except Fault Unit := do
  kassert (!e.ctrl.io) .copyPtEntries .io
  kassert e.ctrl.swap .copyPtEntries .swap
  kassert (e.page != kmallocPage) .copyPtEntries .kmalloc

/-- One iteration of the loop of `copy_pt_entries`. -/
def Ipt.copyPage (s : Ipt) (old new i : Nat) : Except Fault Ipt := do
  let e := s.pt.entries i
  if e.pid == old && e.user then
    match s.pt.findspace with
    | none =>
      copyStoreAsserts e
      return { s with stores := s.stores ++ [⟨e.page, new, i⟩] }
    | some pos => s.copyEntry new i pos
  else return s

def Ipt.copyPtEntries (s : Ipt) (old new : Nat) : Except Fault Ipt :=
  (List.range s.pt.nEntry).foldlM (fun s i => s.copyPage old new i) s

def PtEntry.validEntry (e : PtEntry) : Bool :=
  e.ctrl.tlb || (e.ctrl.validity && e.ctrl.reference) || e.page == kmallocPage ||
    e.ctrl.io || e.ctrl.swap

/-- The test for a free frame in `get_contiguous_pages`. -/
def PtEntry.isFree (e : PtEntry) : Bool :=
  !e.ctrl.validity && !e.ctrl.tlb && !e.ctrl.io && !e.ctrl.swap && e.page != kmallocPage

/-- `i == 0` or the entry before is not available: a run of frames may start at `i`. -/
def startsRun (E : Nat → PtEntry) (i : Nat) : Bool :=
  i == 0 || (E (i - 1)).validEntry

/-- The first search of `get_contiguous_pages`, for a run of free frames: the bounds of
the run, or the value of `first_pos` that is left over. -/
def freeRun (E : Nat → PtEntry) (n : Nat) : List Nat → Option Nat → Option Nat ⊕ (Nat × Nat)
  | [], fp => .inl fp
  | i :: r, fp =>
    let fp := if (E i).isFree && startsRun E i then some i else fp
    match fp with
    | some f => if (E i).isFree && i + 1 == f + n then .inr (f, i) else freeRun E n r fp
    | none => freeRun E n r fp

/-- One sweep of the second search, which clears reference bits on its way. -/
def chanceSweep (n : Nat) : (Nat → PtEntry) → List Nat → Option Nat →
    (Nat → PtEntry) × Option (Nat × Nat)
  | E, [], _ => (E, none)
  | E, i :: r, fp =>
    if (E i).eligible then
      if (E i).ctrl.reference && (E i).ctrl.validity then
        chanceSweep n (Function.update E i ((E i).setReference false)) r fp
      else
        let fp := if startsRun E i then some i else fp
        match fp with
        | some f => if i + 1 == f + n then (E, some (f, i)) else chanceSweep n E r fp
        | none => chanceSweep n E r fp
    else chanceSweep n E r fp

/-- The sweeps made before `get_contiguous_pages` waits: one from `lastIndex` and two from
the start of the table. -/
def PageTable.chanceSearch (pt : PageTable) (n : Nat) (fp : Option Nat) :
    (Nat → PtEntry) × Option (Nat × Nat) :=
  match chanceSweep n pt.entries (List.range' pt.lastIndex (pt.nEntry - pt.lastIndex)) fp with
  | (E, some r) => (E, some r)
  | (E, none) =>
    match chanceSweep n E (List.range pt.nEntry) none with
    | (E, some r) => (E, some r)
    | (E, none) => chanceSweep n E (List.range pt.nEntry) none

/-- One iteration of the marking loop of the first search. It asserts about entry `j` and
writes entry `i`, the last of the run. -/
def PageTable.markFree (pt : PageTable) (p i j : Nat) : Except Fault PageTable := do
  let e := pt.entries j
  kassert (e.page != kmallocPage) .getContiguousPages .kmalloc
  kassert (!e.ctrl.validity) .getContiguousPages .validity
  kassert (!e.ctrl.tlb) .getContiguousPages .tlb
  kassert (!e.ctrl.io) .getContiguousPages .io
  kassert (!e.ctrl.swap) .getContiguousPages .swap
  return pt.set i { page := kmallocPage, pid := p, ctrl := { e.ctrl with validity := true } }

/-- The entry of a frame the kernel takes, with the I/O bit while its page is stored. -/
def PtEntry.kmalloc (e : PtEntry) (p : Nat) (io : Bool) : PtEntry :=
  { page := kmallocPage, pid := p, ctrl := { e.ctrl with validity := true, io := io } }

/-- One iteration of the marking loop of the second search up to the call of `store_swap`;
the result is the key of the page that was there. -/
def Ipt.claimKernel (s : Ipt) (p j : Nat) : Except Fault (Ipt × Option (Nat × Nat)) := do
  let e := s.pt.entries j
  kassert (e.page != kmallocPage) .getContiguousPages .kmalloc
  kassert (!e.ctrl.validity || !e.ctrl.reference) .getContiguousPages .reference
  kassert (!e.ctrl.tlb) .getContiguousPages .tlb
  kassert (!e.ctrl.io) .getContiguousPages .io
  kassert (!e.ctrl.swap) .getContiguousPages .swap
  if e.ctrl.validity then
    let ht ← s.ht.removeFromHash e.page e.pid
    return ({ s with pt := s.pt.set j (e.kmalloc p true), ht := ht }, some (e.page, e.pid))
  else
    return ({ s with pt := s.pt.set j (e.kmalloc p e.ctrl.io) }, none)

/-- One whole iteration of the marking loop of the second search. -/
def Ipt.takeKernel (s : Ipt) (p j : Nat) : Except Fault Ipt := do
  match ← s.claimKernel p j with
  | (s₁, none) => return s₁
  | (s₁, some (ov, op)) =>
    return { s₁ with
      pt := s₁.pt.set j ((s₁.pt.entries j).setIo false)
      stores := s₁.stores ++ [⟨ov, op, j⟩] }

/-- The second search with its marking loop; `none` is a wait on `pt_cv`. -/
def Ipt.chanceRun (s : Ipt) (p n : Nat) (fp : Option Nat) : Except Fault (Ipt × Option Nat) :=
  match s.pt.chanceSearch n fp with
  | (E, none) => .ok ({ s with pt := { s.pt with entries := E, lastIndex := 0 } }, none)
  | (E, some (f, i)) => do
    let s₁ ← (List.range' f (i + 1 - f)).foldlM (fun s j => s.takeKernel p j)
      ({ s with pt := { s.pt with entries := E } } : Ipt)
    return ({ s₁ with pt := { s₁.pt with
      contiguous := Function.update s₁.pt.contiguous f n
      lastIndex := (i + 1) % s₁.pt.nEntry } }, some f)

/-- `get_contiguous_pages`, with the index of the first frame as result. -/
def Ipt.getContiguousPages (s : Ipt) (p n : Nat) : Except Fault (Ipt × Option Nat) := do
  if s.pt.nEntry < n then .error (.panic .getContiguousPages)
  else
    match freeRun s.pt.entries n (List.range s.pt.nEntry) none with
    | .inr (f, i) =>
      let pt ← (List.range' f (i + 1 - f)).foldlM (fun pt j => pt.markFree p i j) s.pt
      return ({ s with pt := { pt with contiguous := Function.update pt.contiguous f n } }, some f)
    | .inl fp => s.chanceRun p n fp

/-- One iteration of the loop of `free_contiguous_pages`. -/
def PageTable.freeFrame (pt : PageTable) (i : Nat) : Except Fault PageTable := do
  let e := pt.entries i
  kassert (e.page == kmallocPage) .freeContiguousPages .kmalloc
  return pt.set i { e with page := 0, ctrl := { e.ctrl with validity := false } }

/-- `free_contiguous_pages` of the block that starts at frame `i`. -/
def PageTable.freeContiguousPages (pt : PageTable) (i : Nat) : Except Fault PageTable := do
  let pt ← (List.range' i (pt.contiguous i).toNat).foldlM (fun pt j => pt.freeFrame j) pt
  return { pt with contiguous := Function.update pt.contiguous i (-1) }

end Clape
