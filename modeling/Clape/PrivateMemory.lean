import Clape.Holdings
import Clape.InFlightStores
import Clape.Memories
import Clape.PageContents
import Clape.TlbRuns

namespace Clape
set_option autoImplicit true

/-- The contents of a page. -/
abbrev Page : Type := Fin pageSize → UInt8

def pageAt (m : Nat → UInt8) (a : Nat) : Page := fun o => m (a + o)

/-- Where the contents of a page can be: in a frame, in a frame that `store_swap` writes to the
swap file, or in a cell. -/
inductive Place where
  | frame (i : Nat)
  | outgoing (i : Nat)
  | cell (c : Nat)
  deriving DecidableEq, Repr

def Sys.bytes (s : Sys) : Place → Page
  | .frame i | .outgoing i => pageAt s.mem (i * pageSize)
  | .cell c => pageAt s.disk (s.swap.offset c)

/-- The frame that a thread fills with a page. -/
def Pc.fills : Pc → Option Nat
  | .storeSwap (.victim _) i _ _ | .storing (.victim _) i _ | .stored (.victim _) i
  | .loadPage _ i | .cell (.load _ i) _ | .cellWait (.load _ i) _ _ | .reading _ i _
  | .elfReading _ i => some i
  | _ => Option.none

/-- What `store_swap` writes: a page, and from then on what the cell is for. -/
inductive Parcel where
  | page (p v : Nat)
  | cell (c : Nat)
  deriving DecidableEq, Repr

/-- The frame that `store_swap` writes. -/
def Pc.sends : Pc → Option (Nat × Parcel)
  | .storeSwap _ i v p => some (i, .page p v)
  | .storing _ i c => some (i, .cell c)
  | _ => Option.none

/-- The frame of the process itself that it copies by a call of `store_swap`. -/
def Pc.copies : Pc → Option Nat
  | .storeSwap (.fork _) i _ _ | .storing (.fork _) i _ => some i
  | _ => Option.none

/-- How far the copy for a child has come: the first entry of the page table that is left, and the
list and the cell where `copy_swap_pages` stands. -/
def Pc.copying : Pc → Option (Nat × Nat × Option (Segment × Option Nat))
  | .copySwap child sg e => some (child, 0, some (sg, e))
  | .cell (.copy child sg _) c | .cellWait (.copy child sg _) c _ | .copyReading child sg c _
  | .copyWriting child sg c _ => some (child, 0, some (sg, some c))
  | .copyPt child k => some (child, k, Option.none)
  | .storeSwap (.fork child) k _ _ | .storing (.fork child) k _ | .stored (.fork child) k =>
    some (child, k + 1, Option.none)
  | _ => Option.none

namespace Sys

/-- The pages that a parcel is. -/
def Means (s : Sys) (L : SwapList → List Nat) : Parcel → Nat × Nat → Prop
  | .page p v, k => k = (p, v)
  | .cell c, k => s.cells.Tagged L c k.1 k.2

/-- The page of a process is in the frame, and is not being loaded. -/
def InFrame (s : Sys) (i : Nat) (k : Nat × Nat) : Prop :=
  Key s.ipt.pt.nEntry s.ipt.pt.entries i k.2 k.1 ∧ ∀ q, (s.pc q).fills ≠ some i

/-- The contents of the page `k.2` of process `k.1` are in the place. -/
def Keeps (s : Sys) (L : SwapList → List Nat) : Place → Nat × Nat → Prop
  | .frame i, k => s.InFrame i k
  | .outgoing i, k => ∃ q x, (s.pc q).sends = some (i, x) ∧ s.Means L x k
  | .cell c, k => s.cells.Tagged L c k.1 k.2 ∧ s.swap.store c = false

/-- The cells that `copy_swap_pages` has not met yet. -/
def Rest (s : Sys) (q : Nat) : Option (Segment × Option Nat) → Nat → Prop
  | some (sg, e), d => (∃ R, Chain s.swap.lists.next e R ∧ d ∈ R) ∨
      ∃ sg' R, sg.rank < sg'.rank ∧ Chain s.swap.lists.next (s.swap.lists.head (.seg sg' q)) R ∧ d ∈ R
  | none, _ => False

/-- The page is still to be copied for the child. -/
def Todo (s : Sys) (q k : Nat) (w : Option (Segment × Option Nat)) (v : Nat) : Prop :=
  (∃ i, k ≤ i ∧ Key s.ipt.pt.nEntry s.ipt.pt.entries i v q) ∨ ∃ d, s.Rest q w d ∧ s.swap.vaddr d = v

/-- A page of an executable is read into no other frame. -/
def Contained (s : Sys) : Action → Prop
  | .advance =>
    match s.pc s.cur with
    | .elfReading v _ => ∀ A, s.as s.cur = some A → (A.loadPlan v).Inside
    | _ => True
  | _ => True

theorem Contained.inside (h : Contained s .advance) (hpc : s.pc s.cur = .elfReading v i)
    (has : s.as s.cur = some A) : (A.loadPlan v).Inside := by
  unfold Contained at h
  rw [hpc] at h
  exact h A has

/-- The executable has the page, and the frame that a part of it goes to is zero. -/
def Zeroed (s : Sys) (q v i : Nat) : Prop :=
  ∃ A bz offset dst len, s.as q = some A ∧ A.loadPlan v = .read bz offset dst len ∧
    (bz = true → s.bytes (.frame i) = fun _ => 0)

/-- What the operation of a process relies on. -/
structure Prepared (s : Sys) (m : Nat × Nat → Option Page) (q : Nat) : Prop where
  fresh : s.pc q = .elfReading v i → m (q, v) = none ∧ s.Zeroed q v i
  buffer : s.pc q = .copyWriting r sg c f → m (q, s.swap.vaddr c) = some (pageAt s.kbuf 0)
  aside : (s.pc q).files = some (v, p) → (s.pc p).role.forks = false
  source : (s.pc q).copies = some i → i < s.ipt.pt.nEntry ∧
    (s.ipt.pt.entries i).user = true ∧ (s.ipt.pt.entries i).pid = q

/-- A fork has copied the pages that are not to be copied any more. -/
structure Doing (s : Sys) (m : Nat × Nat → Option Page) (q : Nat) : Prop extends s.Prepared m q where
  done : (s.pc q).copying = some (r, k, w) → ¬ s.Todo q k w v → m (r, v) = m (q, v)
  todo : (s.pc q).copying = some (r, k, w) → s.Todo q k w v → m (r, v) = none

/-- The contents `m` of the pages of all processes are in frames and cells. -/
structure Paged (s : Sys) (L : SwapList → List Nat) (m : Nat × Nat → Option Page) : Prop where
  order : s.InOrder L
  cached : s.table.Cached
  shows : Shows (s.Keeps L) s.bytes m
  doing : ∀ q, s.Doing m q

end Sys

/-- What a step is to the processes in user mode. -/
def Sys.seen (s : Sys) (a : Action) (u : Sys) : MemoryEvent Nat Nat Page :=
  match a with
  | .write k off b =>
    match s.mmu.slots k with
    | some e => .change s.cur e.vpage fun c o => if o.val = off then b else c o
    | none => .idle
  | _ =>
    match s.pc s.cur, u.pc s.cur with
    | .run, .removeSwap _ _ | .loadPage _ _, .removeSwap _ _ => .exit s.cur
    | .loadPage v i, .loaded _ _ | .elfReading v i, .loaded _ _ => .touch s.cur v (u.bytes (.frame i))
    | .copyPt child _, .run => .fork s.cur child
    | _, _ => .idle

/-- The pages that the processes have: a child that does not run yet and a process that exits have none. -/
def Sys.visible (s : Sys) (m : Nat × Nat → Option Page) (p v : Nat) : Option Page :=
  if (s.pc p).role.active then m (p, v) else none

/-- What is told of a thread by its program counter, and does not change while others run. -/
structure Pc.Steady (f : Pc → Option α) : Prop where
  wakePt : ∀ c, f c.wakePt = f c
  wakeCell : ∀ d c, f (c.wakeCell d) = f c
  none : f .none = Option.none
  embryo : f .embryo = Option.none
  run : f .run = Option.none
  zombie : f .zombie = Option.none

theorem Pc.steady_fills : Steady fills := by
  constructor
  · intro c
    cases c <;> rfl
  · intro d c
    cases c with
    | cellWait k e w => cases k <;> rfl
    | _ => rfl
  · rfl
  · rfl
  · rfl
  · rfl

theorem Pc.steady_sends : Steady sends := by
  constructor
  · intro c
    cases c <;> rfl
  · intro d c
    cases c <;> rfl
  · rfl
  · rfl
  · rfl
  · rfl

theorem Pc.steady_copies : Steady copies := by
  constructor
  · intro c
    cases c <;> rfl
  · intro d c
    cases c <;> rfl
  · rfl
  · rfl
  · rfl
  · rfl

theorem Pc.steady_copying : Steady copying := by
  constructor
  · intro c
    cases c <;> rfl
  · intro d c
    cases c with
    | cellWait k e w => cases k <;> rfl
    | _ => rfl
  · rfl
  · rfl
  · rfl
  · rfl

theorem Pc.eq_embryo {c : Pc} (h : c.role = .embryo) : c = .embryo := by
  cases c with
  | embryo => rfl
  | storeSwap k _ _ _ => cases k <;> cases h
  | storing k _ _ => cases k <;> cases h
  | stored k _ => cases k <;> cases h
  | cell k _ => cases k <;> cases h
  | cellWait k _ _ => cases k <;> cases h
  | _ => cases h

theorem Move.steady {s u : Sys} {f : Pc → Option α} (hm : Move s a u) (ho : s.table.Own)
    (hf : Pc.Steady f) (hq : q ≠ s.cur) : f (u.pc q) = f (s.pc q) := by
  rcases hm.pc_other hq with h | h | ⟨c, h⟩ | ⟨hold, hnew⟩
  · rw [h]
  · rw [h, hf.wakePt]
  · rw [h, hf.wakeCell]
  · have hs : f (s.pc q) = Option.none := by
      rcases hold with ⟨h, -⟩ | h | ⟨i, h⟩
      · rw [h, hf.none]
      · rw [h, hf.zombie]
      · have hr : s.table.role s.cur = .forking q i := by
          rw [show s.table.role s.cur = (s.pc s.cur).role from rfl, h]
          rfl
        rw [Pc.eq_embryo (ho.apart.embryo hr), hf.embryo]
    rcases hnew with h | h | h
    · rw [h, hf.embryo, hs]
    · rw [h, hf.run, hs]
    · rw [h, hf.none, hs]

theorem Cells.Kept.tagged_unique {t : Cells} (h : t.Kept L) (hc : t.Tagged L c q v)
    (hd : t.Tagged L c r w) : q = r ∧ v = w := by
  rcases hc with ⟨⟨sg, hm⟩, hv, -⟩ | hl
  · rcases hd with ⟨⟨sg', hm'⟩, hw, -⟩ | hl'
    · cases h.rep.disjoint _ _ c hm hm'
      exact ⟨rfl, hv.symm.trans hw⟩
    · exact (h.load_off hl' _ hm).elim
  · rcases hd with ⟨⟨sg', hm'⟩, -, -⟩ | hl'
    · exact (h.load_off hl _ hm').elim
    · have hqr : q = r := h.apart (claim_of_load hl) (claim_of_load hl')
      subst hqr
      rw [hl] at hl'
      cases hl'
      exact ⟨rfl, rfl⟩

theorem Pc.hold_of_fills {c : Pc} (h : c.fills = some i) : ∃ v, c.role.hold = some (i, some v) := by
  cases c with
  | storeSwap k _ _ _ => cases k <;> cases h <;> exact ⟨_, rfl⟩
  | storing k _ _ => cases k <;> cases h <;> exact ⟨_, rfl⟩
  | stored k _ => cases k <;> cases h <;> exact ⟨_, rfl⟩
  | cell k _ => cases k <;> cases h <;> exact ⟨_, rfl⟩
  | cellWait k _ _ => cases k <;> cases h <;> exact ⟨_, rfl⟩
  | loadPage v j => cases h; exact ⟨v, rfl⟩
  | reading v j d => cases h; exact ⟨v, rfl⟩
  | elfReading v j => cases h; exact ⟨v, rfl⟩
  | _ => cases h

theorem Pc.hold_of_sends {c : Pc} (h : c.sends = some (i, x)) :
    (∃ o, c.role.hold = some (i, o)) ∧ (∀ v, c.role ≠ .loading v i) ∨ c.copies = some i := by
  cases c with
  | storeSwap k j v p =>
    cases h
    cases k with
    | victim w => exact .inl ⟨⟨_, rfl⟩, by simp [role]⟩
    | alloc => exact .inl ⟨⟨_, rfl⟩, by simp [role]⟩
    | fork r => exact .inr rfl
  | storing k j d =>
    cases h
    cases k with
    | victim w => exact .inl ⟨⟨_, rfl⟩, by simp [role]⟩
    | alloc => exact .inl ⟨⟨_, rfl⟩, by simp [role]⟩
    | fork r => exact .inr rfl
  | _ => cases h

theorem Pc.forks_of_copies {c : Pc} (h : c.copies = some i) : ∃ r, c.role = .forking r i := by
  cases c with
  | storeSwap k j v p =>
    cases k <;> cases h
    exact ⟨_, rfl⟩
  | storing k j d =>
    cases k <;> cases h
    exact ⟨_, rfl⟩
  | _ => cases h

namespace Sys
variable {s u : Sys}

/-- What the places keep, for a step that changes neither the keys of the frames nor what the running
thread does to frames and cells. -/
theorem Keeps.congr (hkey : ∀ i k, u.InFrame i k ↔ s.InFrame i k)
    (hsend : ∀ q, (u.pc q).sends = (s.pc q).sends)
    (htag : ∀ d q v, u.cells.Tagged M d q v ↔ s.cells.Tagged L d q v)
    (hst : u.swap.store = s.swap.store) (x : Place) (k : Nat × Nat) :
    u.Keeps M x k ↔ s.Keeps L x k := by
  have hmeans : ∀ y, u.Means M y k ↔ s.Means L y k := by
    intro y
    cases y with
    | page p v => rfl
    | cell c => exact htag c k.1 k.2
  cases x with
  | frame i => exact hkey i k
  | outgoing i =>
    unfold Keeps
    simp only [hsend, hmeans]
  | cell c =>
    unfold Keeps
    simp only [htag, hst]

end Sys

end Clape
