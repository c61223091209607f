import Clape.PageTableEffects
import Clape.Moves

namespace Clape
set_option autoImplicit true

/-- What the thread of a process does to the page table. A process that seeks a frame for a
page has none yet; one that has claimed a frame has not hashed it yet; one that loads has.
`evicting` is `get_contiguous_pages` under way, `forking` a copy for a child whose entries
below an index are done, and `leaving` an exit that frees its pages. -/
inductive Role where
  | absent | embryo | zombie | leaving | exiting | user
  | seeking (v : Nat)
  | claimed (v i : Nat)
  | loading (v i : Nat)
  | evicting (i : Nat)
  | forking (child k : Nat)
  deriving DecidableEq, Repr

def Pc.role : Pc → Role
  | .none => .absent
  | .embryo => .embryo
  | .zombie => .zombie
  | .run | .alloc | .allocWait _ => .user
  | .findVictim v _ | .victimWait v _ _ => .seeking v
  | .storeSwap (.victim v) i _ _ | .storing (.victim v) i _ | .stored (.victim v) i =>
    .claimed v i
  | .storeSwap .alloc i _ _ | .storing .alloc i _ | .stored .alloc i => .evicting i
  | .storeSwap (.fork child) i _ _ | .storing (.fork child) i _ | .stored (.fork child) i =>
    .forking child i
  | .loadPage v i | .cell (.load v i) _ | .cellWait (.load v i) _ _ | .reading v i _
  | .elfReading v i | .loaded v i => .loading v i
  | .removeSwap _ _ | .cell (.exit _) _ | .cellWait (.exit _) _ _ => .exiting
  | .copySwap child _ _ | .cell (.copy child _ _) _ | .cellWait (.copy child _ _) _ _
  | .copyReading child _ _ _ | .copyWriting child _ _ _ => .forking child 0
  | .copyPt child i => .forking child i

theorem Pc.role_wakePt (c : Pc) : c.wakePt.role = c.role := by
  cases c <;> rfl

theorem Pc.role_wakeCell (d : Nat) (c : Pc) : (c.wakeCell d).role = c.role := by
  cases c with
  | cellWait k e w => cases k <;> rfl
  | _ => rfl

/-- The frame an operation in progress holds, with the page it loads there. -/
def Role.hold : Role → Option (Nat × Option Nat)
  | .claimed v i | .loading v i => some (i, some v)
  | .evicting i => some (i, none)
  | _ => none

def Role.forks : Role → Bool
  | .forking _ _ => true
  | _ => false

/-- The page table with the hash table and the TLB, and what the processes do to them. -/
structure Table where
  n : Nat
  entries : Nat → PtEntry
  contiguous : Nat → Int
  ht : HashTable
  mmu : Mmu
  role : Nat → Role
  hasAs : Nat → Bool
  cur : Nat
  sem : Bool

def Sys.table (s : Sys) : Table where
  n := s.ipt.pt.nEntry
  entries := s.ipt.pt.entries
  contiguous := s.ipt.pt.contiguous
  ht := s.ipt.ht
  mmu := s.mmu
  role q := (s.pc q).role
  hasAs q := (s.as q).isSome
  cur := s.cur
  sem := s.semFork

/-- The running process takes on another role. -/
def Table.play (t : Table) (r : Role) : Table :=
  { t with role := Function.update t.role t.cur r }

/-- The entry of the page, if there is one, loses its TLB bit. -/
def TlbCleared (n : Nat) (E : Nat → PtEntry) (v p : Nat) (E' : Nat → PtEntry) : Prop :=
  E' = E ∧ (∀ i < n, (E i).ctrl.validity = true → (E i).page = v → (E i).pid ≠ p) ∨
  ∃ i < n, (E i).pid = p ∧ (E i).page = v ∧ v ≠ kmallocPage ∧ (E i).ctrl.validity = true ∧
    (E i).ctrl.tlb = true ∧ E' = Function.update E i (((E i).setTlb false).setReference true)

/-- `tlb_insert`: into a free slot, or in place of the next victim. -/
inductive Inserted (n : Nat) (E : Nat → PtEntry) (m : Mmu) (p : Nat) (x : TlbEntry) :
    (Nat → PtEntry) → Mmu → Prop where
  | free : k < numTlb → m.slots k = none → Inserted n E m p x E (m.write k (some x))
  | replace : m.slots m.nextVictim = some y → TlbCleared n E y.vpage p E' →
      Inserted n E m p x E'
        ({ m with nextVictim := (m.nextVictim + 1) % numTlb }.write m.nextVictim (some x))
  | beyond : numTlb ≤ m.nextVictim →
      Inserted n E m p x E
        ({ m with nextVictim := (m.nextVictim + 1) % numTlb }.write m.nextVictim (some x))

/-- The entries of a process with the swap bit set or cleared. -/
def marked (n : Nat) (E : Nat → PtEntry) (p : Nat) (b : Bool) (i : Nat) : PtEntry :=
  if i < n ∧ (E i).pid = p ∧ (E i).user = true then (E i).setSwap b else E i

/-- What can happen to the page table. If `F` holds, a process that gets an address
space finds the TLB empty. -/
inductive TableMove (F : Prop) (t : Table) : Table → Prop where
  | refs : (∀ i, SameButRef (t.entries i) (E i)) → TableMove F t { t with entries := E }
  | seek : t.role t.cur = .user → t.hasAs t.cur = true → UserAddr v →
      t.ht.getIndexFromHash v t.cur = .ok none → TableMove F t (t.play (.seeking v))
  | claim : t.role t.cur = .seeking v → i < t.n → (t.entries i).Idle →
      (t.entries i).ctrl.validity = false →
      TableMove F t ({ t with
        entries := Function.update t.entries i ((t.entries i).claim v t.cur) }.play (.claimed v i))
  | evict : t.role t.cur = .seeking v → i < t.n → (t.entries i).Idle →
      (t.entries i).user = true →
      t.ht.removeFromHash (t.entries i).page (t.entries i).pid = .ok ht →
      TableMove F t ({ t with
        entries := Function.update t.entries i ((t.entries i).claim v t.cur)
        ht := ht }.play (.claimed v i))
  | hash : t.role t.cur = .claimed v i → t.ht.addInHash v t.cur i = .ok ht →
      TableMove F t ({ t with ht := ht }.play (.loading v i))
  | load : t.role t.cur = .loading v i → t.hasAs t.cur = true →
      Inserted t.n (Function.update t.entries i (((t.entries i).setIo false).setTlb true)) t.mmu
        t.cur ⟨v, i, d⟩ E m →
      TableMove F t ({ t with entries := E, mmu := m }.play .user)
  | hit : t.role t.cur = .user → t.hasAs t.cur = true → UserAddr v →
      (∀ k < numTlb, ∀ x, t.mmu.slots k = some x → x.vpage ≠ v) →
      t.ht.getIndexFromHash v t.cur = .ok (some i) → (t.entries i).ctrl.io = false →
      Inserted t.n (Function.update t.entries i ((t.entries i).setTlb true)) t.mmu
        t.cur ⟨v, i, d⟩ E m →
      TableMove F t { t with entries := E, mmu := m }
  | take : t.role t.cur = .user → i < t.n → (t.entries i).Idle →
      (t.entries i).ctrl.validity = false →
      TableMove F t { t with
        entries := Function.update t.entries i ((t.entries i).kmalloc t.cur false)
        contiguous := Function.update t.contiguous i 1 }
  | steal : t.role t.cur = .user → i < t.n → (t.entries i).Idle → (t.entries i).user = true →
      t.ht.removeFromHash (t.entries i).page (t.entries i).pid = .ok ht →
      TableMove F t ({ t with
        entries := Function.update t.entries i ((t.entries i).kmalloc t.cur true)
        ht := ht }.play (.evicting i))
  | grant : t.role t.cur = .evicting i →
      TableMove F t ({ t with
        entries := Function.update t.entries i ((t.entries i).setIo false)
        contiguous := Function.update t.contiguous i 1 }.play .user)
  | free : t.contiguous i = 1 →
      TableMove F t { t with
        entries := Function.update t.entries i { t.entries i with
          page := 0, ctrl := { (t.entries i).ctrl with validity := false } }
        contiguous := Function.update t.contiguous i (-1) }
  | leave : t.role t.cur = .user → TableMove F t (t.play .leaving)
  | release : t.role t.cur = .leaving → i < t.n → (t.entries i).pid = t.cur →
      (t.entries i).user = true → t.ht.removeFromHash (t.entries i).page t.cur = .ok ht →
      TableMove F t { t with
        entries := Function.update t.entries i ⟨0, 0, .zero⟩
        ht := ht }
  | left : t.role t.cur = .leaving →
      (∀ i < t.n, (t.entries i).user = true → (t.entries i).pid ≠ t.cur) →
      TableMove F t (t.play .exiting)
  | die : t.role t.cur = .exiting → TableMove F t (t.play .zombie)
  | fork : t.role t.cur = .user → t.hasAs t.cur = true → t.sem = true →
      t.role child = .absent → PidOk child →
      TableMove F t ({ t with
        entries := marked t.n t.entries t.cur true
        role := Function.update t.role child .embryo
        hasAs := Function.update t.hasAs child true
        sem := false }.play (.forking child 0))
  | skip : t.role t.cur = .forking child i → TableMove F t (t.play (.forking child (i + 1)))
  | copy : t.role t.cur = .forking child i → i < t.n → (t.entries i).pid = t.cur →
      (t.entries i).user = true → j < t.n → (t.entries j).isSpace = true →
      t.ht.addInHash (t.entries i).page child j = .ok ht →
      TableMove F t ({ t with
        entries := Function.update t.entries j ((t.entries j).copyOf (t.entries i) child)
        ht := ht }.play (.forking child (i + 1)))
  | unfork : t.role t.cur = .forking child i →
      TableMove F t ({ t with
        entries := marked t.n t.entries t.cur false
        role := Function.update t.role child .user
        sem := true }.play .user)
  | spawn : t.role t.cur = .user → t.role q = .absent → PidOk q →
      TableMove F t { t with
        role := Function.update t.role q .user
        hasAs := Function.update t.hasAs q false }
  | exec : t.role t.cur = .user → t.hasAs t.cur = false → t.mmu.previousPid = t.cur →
      (F → ∀ k < numTlb, t.mmu.slots k = none) →
      TableMove F t { t with hasAs := Function.update t.hasAs t.cur true }
  | reap : t.role t.cur = .user → t.role q = .zombie →
      TableMove F t { t with
        role := Function.update t.role q .absent
        hasAs := Function.update t.hasAs q false }
  | invalidate : k < numTlb → t.mmu.slots k = some x →
      TlbCleared t.n t.entries x.vpage t.mmu.previousPid E →
      TableMove F t { t with entries := E, mmu := t.mmu.write k none }
  | turn : t.role q ≠ .embryo → (∀ k < numTlb, t.mmu.slots k = none) →
      TableMove F t { t with mmu := { t.mmu with previousPid := q }, cur := q }
  | dispatch : (t.hasAs q = true → t.mmu.previousPid = q) → TableMove F t { t with cur := q }

end Clape
