import Clape.KernelRequests

namespace Clape
set_option autoImplicit true

/-- A request for `nPages` pages that is asleep in the `store_swap` of the marking loop of the
second search: the block goes from frame `firstPos` to frame `i`, and the page of frame `j` is
being stored. -/
structure Marking where
  pid : Nat
  nPages : Nat
  firstPos : Nat
  i : Nat
  j : Nat
  deriving DecidableEq

/-- The page table together with the blocks that `alloc_kpages` returned and that are not freed
yet, each by its first frame and its length, the requests asleep in the marking loop and the
faults asleep in `find_victim`. -/
structure Kernel where
  ipt : Ipt
  blocks : List (Nat × Nat)
  markings : List Marking
  victims : List Victim

/-- The steps between two sleeps. -/
inductive KernelOp where
  | allocKpages (p n : Nat)
  | resumeKpages (p n : Nat)
  | kpageStored (m : Marking)
  | freeKpages (f : Nat)
  | user (op : UserOp)

/-- A request returns the block of `n` frames at `f`. -/
def Kernel.returned (k : Kernel) (n f : Nat) (t : Ipt) : Kernel :=
  { k with
    ipt := { t with pt := { t.pt with contiguous := Function.update t.pt.contiguous f n } }
    blocks := (f, n) :: k.blocks }

/-- The marking loop of the block from `f` to `i` is asleep at a frame, or it is done. -/
def Kernel.marked (k : Kernel) (p n f i : Nat) : Ipt × Option Nat → Kernel
  | (t, some j) => { k with ipt := t, markings := ⟨p, n, f, i, j⟩ :: k.markings }
  | (t, none) =>
    k.returned n f { t with pt := { t.pt with lastIndex := (i + 1) % t.pt.nEntry } }

/-- The marking loop of the second search from frame `j` on. -/
def Kernel.mark (k : Kernel) (p n f i j : Nat) : Except Fault Kernel :=
  k.marked p n f i <$> Ipt.markLoop p (List.range' j (i + 1 - j)) k.ipt

/-- The second search up to the place where it first sleeps, which is the wait on `pt_cv` when it
finds nothing. -/
def Kernel.chanceRun (k : Kernel) (p n : Nat) (fp : Option Nat) : Except Fault Kernel :=
  match k.ipt.pt.chanceSearch n fp with
  | (E, none) =>
    .ok { k with ipt := { k.ipt with pt := { k.ipt.pt with entries := E, lastIndex := 0 } } }
  | (E, some (f, i)) =>
    Kernel.mark { k with ipt := { k.ipt with pt := { k.ipt.pt with entries := E } } } p n f i f

/-- `get_contiguous_pages` up to the place where it first sleeps. -/
def Kernel.getContiguousPages (k : Kernel) (p n : Nat) : Except Fault Kernel := do
  if k.ipt.pt.nEntry < n then .error (.panic .getContiguousPages)
  else
    match freeRun k.ipt.pt.entries n (List.range k.ipt.pt.nEntry) none with
    | .inr (f, i) =>
      let pt ← (List.range' f (i + 1 - f)).foldlM (fun pt j => pt.markFree p i j) k.ipt.pt
      return k.returned n f { k.ipt with pt := pt }
    | .inl fp => k.chanceRun p n fp

/-- `store_swap` returns to a request. -/
def Kernel.pageStored (k : Kernel) (m : Marking) : Kernel :=
  { k with ipt := k.ipt.pageStored m.j, markings := k.markings.filter (· != m) }

/-- The block at `f` is free again. -/
def Kernel.freed (k : Kernel) (f : Nat) (pt : PageTable) : Kernel :=
  { k with ipt := { k.ipt with pt := pt }, blocks := k.blocks.filter fun b => b.1 != f }

def KernelOp.exec (k : Kernel) : KernelOp → Except Fault Kernel
  | .allocKpages p n => k.getContiguousPages p n
  | .resumeKpages p n => k.chanceRun p n none
  | .kpageStored m => (k.pageStored m).mark m.pid m.nPages m.firstPos m.i (m.j + 1)
  | .freeKpages f => k.freed f <$> k.ipt.pt.freeContiguousPages f
  | .user op => (fun r => { k with ipt := r.1, victims := r.2 }) <$> op.exec k.ipt k.victims

/-- What the callers provide: at least one page and at most as many as there are frames; a store
that a request sleeps in; only blocks that are in use are freed. -/
def KernelOp.Pre (k : Kernel) : KernelOp → Prop
  | .allocKpages _ n | .resumeKpages _ n => 1 ≤ n ∧ n ≤ k.ipt.pt.nEntry
  | .kpageStored m => m ∈ k.markings
  | .freeKpages f => ∃ n, (f, n) ∈ k.blocks
  | .user op => op.Pre k.ipt k.victims

/-- The requests that `get_contiguous_pages` serves: one page, or more while the first search sees
no free block of that size and the second one is straight. -/
def Servable (pt : PageTable) (n : Nat) : Prop :=
  n = 1 ∨ (¬ ∃ f, f + n ≤ pt.nEntry ∧ FreeBlock pt.entries n f) ∧
    ∀ fp, LeftOver pt.entries pt.nEntry fp → pt.Straight n fp

/-- The steps that the code gets right: a request is served, one that waited searches straight on,
and while a page was stored nobody took the frames that the marking loop comes to next. -/
def KernelOp.Fits (k : Kernel) : KernelOp → Prop
  | .allocKpages _ n => Servable k.ipt.pt n
  | .resumeKpages _ n => k.ipt.pt.Straight n none
  | .kpageStored m => Ready k.ipt.pt.entries (m.j + 1) (m.i + 1)
  | .freeKpages _ | .user _ => True

def KernelStep (k : Kernel) (op : KernelOp) (k' : Kernel) : Prop :=
  op.Pre k ∧ op.Fits k ∧ op.exec k = .ok k'

/-- A frame of the kernel, whose old page is being stored when `io` is set. -/
def KernelPage (e : PtEntry) (io : Bool) : Prop :=
  e.page = kmallocPage ∧ e.ctrl.validity = true ∧ e.ctrl.io = io ∧ e.ctrl.tlb = false ∧
    e.ctrl.swap = false

theorem KernelPage.sameButRef (h : KernelPage e io) (hs : SameButRef e e') : KernelPage e' io := by
  obtain ⟨b, rfl⟩ := hs
  exact h

/-- The frames from `a` to `b` were handed to the kernel: what was in them is stored once each
and no longer hashed, and the other entries changed in their reference bits at most. -/
structure Takes (s t : Ipt) (a b : Nat) (io : Bool) : Prop where
  before : ∀ j, a ≤ j → j < b → (s.pt.entries j).eligible = true
  taken : ∀ j, a ≤ j → j < b → KernelPage (t.pt.entries j) (io && j + 1 == b)
  rest : ∀ j, ¬ (a ≤ j ∧ j < b) → SameButRef (s.pt.entries j) (t.pt.entries j)
  stored : t.stores = s.stores ++ (List.range' a (b - a)).flatMap fun j => (s.pt.entries j).evicted j
  gone : ∀ j, a ≤ j → j < b → (s.pt.entries j).user = true →
    t.ht.getIndexFromHash (s.pt.entries j).page (s.pt.entries j).pid = .ok none

theorem MarkedFrames.gone {l : List Nat} (h : Ipt.Inv N (s.hide l)) (ht : Ipt.Inv N (t.hide l))
    (hm : MarkedFrames s t p a b io) (hio : ∀ i ∈ l, (s.pt.entries i).ctrl.io = true) (hb : b ≤ N)
    (hj : a ≤ j) (hj' : j < b) (hu : (s.pt.entries j).user = true) :
    t.ht.getIndexFromHash (s.pt.entries j).page (s.pt.entries j).pid = .ok none := by
  obtain ⟨L, hL⟩ := ht.rep
  apply hL.getIndexFromHash_none
  intro i hi
  obtain ⟨hin, hui, hpg, hpid⟩ := PageTable.keys_some.1 hi
  have hil : i ∉ l := by
    intro hil
    simp [Ipt.hide, hil, PtEntry.user, PtEntry.hidden] at hui
  have hjl : j ∉ l := by
    intro hjl
    have hj0 := hio j hjl
    rw [(hm.spent j hj hj').bits.2.1] at hj0
    cases hj0
  rw [t.hide_entries hil, hm.pt] at hui hpg hpid
  simp only at hui hpg hpid
  split at hui
  · simp [PtEntry.user, PtEntry.kmalloc] at hui
  · rename_i hout
    rw [if_neg hout] at hpg hpid
    obtain ⟨L₀, hL₀⟩ := h.rep
    have hN : (s.hide l).pt.nEntry = N := h.nEntry
    have hiN : i < (s.hide l).pt.nEntry := by
      rw [hN, ← ht.nEntry]
      exact hin
    have hjN : j < (s.hide l).pt.nEntry := by omega
    have huj : ((s.hide l).pt.entries j).user = true := by rwa [s.hide_entries hjl]
    have hkj := PageTable.keys_of_user hjN huj
    rw [s.hide_entries hjl] at hkj
    have hki : (s.hide l).pt.keys i = some ((s.pt.entries j).page, (s.pt.entries j).pid) := by
      rw [PageTable.keys_some, s.hide_entries hil]
      exact ⟨hiN, hui, hpg, hpid⟩
    have hij := hL₀.keys i j _ hki hkj
    exact hout ⟨by omega, by omega⟩

theorem MarkedFrames.takes (h : Faulting N s ws) (ht : Ipt.Inv N (t.hide (ws.map (·.index))))
    (hm : MarkedFrames s t p a b io) (hb : b ≤ N) : Takes s t a b io where
  before j hj hj' := (hm.spent j hj hj').1
  taken j hj hj' := by
    obtain ⟨htlb, -, -, hsw, -⟩ := (hm.spent j hj hj').bits
    rw [hm.pt]
    simp only [hj, hj', and_self, if_true]
    exact ⟨rfl, rfl, rfl, htlb, hsw⟩
  rest j hj := by
    rw [hm.pt]
    simp only [hj, if_false]
    exact .refl _
  stored := hm.stores
  gone j hj hj' hu := by
    refine hm.gone h.inv ht (fun i hi => ?_) hb hj hj' hu
    obtain ⟨w, -, hw⟩ := h.io hi
    exact hw.2.2.2.1

theorem Takes.of_search {s s' : Ipt} (h : Takes s' t a b io)
    (hs : ∀ j, SameButRef (s.pt.entries j) (s'.pt.entries j)) (hst : s'.stores = s.stores) :
    Takes s t a b io where
  before j hj hj' := by
    have hel := h.before j hj hj'
    obtain ⟨c, hc⟩ := hs j
    rw [hc] at hel
    exact hel
  taken := h.taken
  rest j hj := (hs j).trans (h.rest j hj)
  stored := by
    rw [h.stored, hst]
    congr 1
    apply List.flatMap_congr
    intro j _
    obtain ⟨c, hc⟩ := hs j
    rw [hc]
    rfl
  gone j hj hj' hu := by
    obtain ⟨c, hc⟩ := hs j
    have hgone := h.gone j hj hj'
    rw [hc] at hgone
    exact hgone hu

/-- The marking loop of a request for the block of `n` frames at `f`, from frame `a` on: up to a
frame whose page it stores, or to the end of the block. -/
def Goes (k : Kernel) (p n f a : Nat) (k' : Kernel) : Prop :=
  (∃ j t, a ≤ j ∧ j < f + n ∧ Takes k.ipt t a (j + 1) true ∧
    t.pt.contiguous = k.ipt.pt.contiguous ∧
    k' = { k with ipt := t, markings := ⟨p, n, f, f + n - 1, j⟩ :: k.markings }) ∨
  ∃ t, Takes k.ipt t a (f + n) false ∧
    t.pt.contiguous = Function.update k.ipt.pt.contiguous f n ∧
    (∀ j, f ≤ j → j < f + n → KernelFrame (t.pt.entries j) ∧
      ∀ g m, (g, m) ∈ k.blocks → ¬ (g ≤ j ∧ j < g + m)) ∧
    k' = { k with ipt := t, blocks := (f, n) :: k.blocks }

/-- The frames of a block in use, or those that a sleeping request has taken so far. -/
inductive Region where
  | block (f n : Nat)
  | marking (m : Marking)

def Region.first : Region → Nat
  | .block f _ => f
  | .marking m => m.firstPos

def Region.stop : Region → Nat
  | .block f n => f + n
  | .marking m => m.j + 1

def Region.Has (r : Region) (j : Nat) : Prop := r.first ≤ j ∧ j < r.stop

/-- The page of the frame is being stored. -/
def Region.busy : Region → Nat → Bool
  | .block _ _, _ => false
  | .marking m, j => j == m.j

def Kernel.Holds (k : Kernel) : Region → Prop
  | .block f n => (f, n) ∈ k.blocks
  | .marking m => m ∈ k.markings

/-- The regions are not empty, lie in the table apart from each other and consist of kernel
frames. -/
structure Parted (N : Nat) (E : Nat → PtEntry) (A : Region → Prop) : Prop where
  frames : ∀ r, A r → r.first < r.stop ∧ r.stop ≤ N ∧ ∀ j, r.Has j → KernelPage (E j) (r.busy j)
  apart : ∀ r r' j, A r → A r' → r.Has j → r'.Has j → r = r'

namespace Parted

theorem keeps (h : Parted N E A) (hA : ∀ r, A' r → A r)
    (hE : ∀ r j, A' r → r.Has j → SameButRef (E j) (E' j)) : Parted N E' A' where
  frames r hr := by
    obtain ⟨h1, h2, h3⟩ := h.frames r (hA r hr)
    exact ⟨h1, h2, fun j hj => (h3 j hj).sameButRef (hE r j hr hj)⟩
  apart r r' j hr hr' := h.apart r r' j (hA r hr) (hA r' hr')

theorem add {q : Region} (h : Parted N E A) (hA : ∀ r, A' r ↔ r = q ∨ A r)
    (hlt : q.first < q.stop) (hN : q.stop ≤ N)
    (hf : ∀ j, q.Has j → KernelPage (E j) (q.busy j))
    (hout : ∀ r j, A r → r.Has j → ¬ q.Has j) : Parted N E A' where
  frames r hr := by
    obtain rfl | hr := (hA r).1 hr
    · exact ⟨hlt, hN, hf⟩
    · exact h.frames r hr
  apart r r' j hr hr' hj hj' := by
    obtain rfl | hr := (hA r).1 hr
    · obtain rfl | hr' := (hA r').1 hr'
      · rfl
      · exact (hout r' j hr' hj' hj).elim
    · obtain rfl | hr' := (hA r').1 hr'
      · exact (hout r j hr hj hj').elim
      · exact h.apart r r' j hr hr' hj hj'

theorem not_eligible (h : Parted N E A) (hr : A r) (hj : r.Has j) : (E j).eligible = false := by
  obtain ⟨-, -, hf⟩ := h.frames r hr
  simp [PtEntry.eligible, (hf j hj).1]

end Parted

structure Kernel.Inv (N : Nat) (k : Kernel) : Prop where
  faults : Faulting N k.ipt k.victims
  loops : ∀ m ∈ k.markings, m.i + 1 = m.firstPos + m.nPages ∧ m.j ≤ m.i ∧ m.i < N
  parted : Parted N k.ipt.pt.entries k.Holds
  first : ∀ f n, (f, n) ∈ k.blocks → k.ipt.pt.contiguous f = n
  other : ∀ f, (∀ n, (f, n) ∉ k.blocks) → k.ipt.pt.contiguous f = -1

namespace Kernel.Inv

theorem keeps (h : Inv N k) (ht : Faulting N t ws) (hk : KeepsKernel k.ipt t) :
    Inv N { k with ipt := t, victims := ws } where
  faults := ht
  loops := h.loops
  parted := h.parted.keeps (fun _ hr => hr) fun r j hr hj =>
    hk.2 j ((h.parted.frames r hr).2.2 j hj).1
  first f n hb := by
    simp only [hk.1]
    exact h.first f n hb
  other f hf := by
    simp only [hk.1]
    exact h.other f hf

theorem sameButRef {t : Ipt} (h : Inv N k) (hn : t.pt.nEntry = k.ipt.pt.nEntry)
    (hht : t.ht = k.ipt.ht) (hc : t.pt.contiguous = k.ipt.pt.contiguous)
    (hE : ∀ j, SameButRef (k.ipt.pt.entries j) (t.pt.entries j)) : Inv N { k with ipt := t } :=
  h.keeps (h.faults.sameButRef hn hht hE) ⟨hc, fun j _ => hE j⟩

theorem block (h : Inv N k) (hb : (f, n) ∈ k.blocks) : 1 ≤ n ∧ f + n ≤ N ∧
    ∀ j, f ≤ j → j < f + n → KernelFrame (k.ipt.pt.entries j) := by
  obtain ⟨h1, h2, h3⟩ := h.parted.frames (.block f n) hb
  simp only [Region.first, Region.stop] at h1 h2
  exact ⟨by omega, h2, fun j hj hj' => h3 j ⟨hj, hj'⟩⟩

theorem grant {C : Nat → Int} (h : Inv N k) (ht : Faulting N t ws)
    (hp : Parted N t.pt.entries fun r => r = .block f n ∨ k.Holds r)
    (hC : C = Function.update k.ipt.pt.contiguous f n) (htC : t.pt.contiguous = C)
    (hnew : ∀ m, (f, m) ∉ k.blocks) :
    Inv N { k with ipt := t, blocks := (f, n) :: k.blocks, victims := ws } where
  faults := ht
  loops := h.loops
  parted := by
    refine hp.keeps (fun r hr => ?_) fun _ _ _ _ => .refl _
    cases r with
    | marking m => exact .inr hr
    | block g m =>
      cases List.mem_cons.1 hr with
      | inl hr => cases hr; exact .inl rfl
      | inr hr => exact .inr hr
  first g m hb := by
    simp only [htC, hC]
    cases List.mem_cons.1 hb with
    | inl hb =>
      cases hb
      rw [Function.update_self]
    | inr hb =>
      have hgf : g ≠ f := fun he => hnew m (he ▸ hb)
      rw [Function.update_of_ne hgf]
      exact h.first g m hb
  other g hg := by
    have hgf : g ≠ f := by
      intro he
      exact hg n (by rw [he]; exact List.mem_cons_self)
    simp only [htC, hC, Function.update_of_ne hgf]
    exact h.other g fun m hb => hg m (List.mem_cons_of_mem _ hb)

theorem not_held_of_eligible (h : Inv N k) (hel : (k.ipt.pt.entries j).eligible = true)
    (hr : k.Holds r) : ¬ r.Has j := by
  intro hj
  rw [h.parted.not_eligible hr hj] at hel
  cases hel

theorem marked_parted (h : Inv N k) (hm : MarkedFrames k.ipt t p a b io) :
    Parted N t.pt.entries k.Holds := by
  refine h.parted.keeps (fun _ hr => hr) fun r j hr hj => ?_
  have hout : ¬ (a ≤ j ∧ j < b) :=
    fun hin => h.not_held_of_eligible (hm.spent j hin.1 hin.2).1 hr hj
  rw [hm.pt]
  simp only [hout, if_false]
  exact .refl _

theorem marked_faults (h : Inv N k) (hm : MarkedFrames k.ipt t p a b io)
    (ht : Ipt.Inv N (t.hide (k.victims.map (·.index)))) : Faulting N t k.victims := by
  refine h.faults.keeps ht fun i hi => ?_
  have hout : ¬ (a ≤ i ∧ i < b) := by
    intro hin
    obtain ⟨w, -, hw⟩ := h.faults.io hi
    have hio := hw.2.2.2.1
    rw [(hm.spent i hin.1 hin.2).bits.2.1] at hio
    cases hio
  rw [hm.pt]
  simp only [hout, if_false]
  exact .refl _

section MarkingLoop
variable {k : Kernel} {t : Ipt} {f j b : Nat} {io : Bool}

/-- The frames of the block so far: those taken before and those that the step took. -/
theorem block_frames (h : Inv N k) (hm : MarkedFrames k.ipt t p j b io) (hjb : io = true → j < b)
    (hold : ∀ x, f ≤ x → x < j → KernelFrame (k.ipt.pt.entries x) ∧ ∀ r, k.Holds r → ¬ r.Has x)
    (hf : f ≤ x) (hb : x < b) :
    KernelPage (t.pt.entries x) (io && x + 1 == b) ∧ ∀ r, k.Holds r → ¬ r.Has x := by
  by_cases hxj : x < j
  · obtain ⟨hk, hno⟩ := hold x hf hxj
    have hout : ¬ (j ≤ x ∧ x < b) := by omega
    have hbusy : (io && x + 1 == b) = false := by
      cases io with
      | false => rfl
      | true =>
        have := hjb rfl
        simp only [Bool.true_and, beq_eq_false_iff_ne]
        omega
    rw [hm.pt, hbusy]
    simp only [hout, if_false]
    exact ⟨hk, hno⟩
  · have hsp := hm.spent x (by omega) hb
    obtain ⟨htlb, -, -, hsw, -⟩ := hsp.bits
    have hin : j ≤ x ∧ x < b := by omega
    apply And.intro
    · rw [hm.pt]
      simp only [hin, and_self, if_true]
      exact ⟨rfl, rfl, rfl, htlb, hsw⟩
    · exact fun r hr => h.not_held_of_eligible hsp.1 hr

/-- The request goes to sleep with the frames it has taken. -/
theorem asleep (h : Inv N k) (ht : Ipt.Inv N (t.hide (k.victims.map (·.index))))
    (hm : MarkedFrames k.ipt t p j (b + 1) true) (hjb : j ≤ b) (hfj : f ≤ j) (hb : b < f + n)
    (hN : f + n ≤ N) (hold : ∀ x, f ≤ x → x < j → KernelFrame (k.ipt.pt.entries x) ∧
      ∀ r, k.Holds r → ¬ r.Has x) :
    Inv N { k with ipt := t, markings := ⟨p, n, f, f + n - 1, b⟩ :: k.markings } := by
  have hcont : t.pt.contiguous = k.ipt.pt.contiguous := by rw [hm.pt]
  have hframe := fun x => h.block_frames (x := x) hm (fun _ => Nat.lt_succ_of_le hjb) hold
  refine ⟨h.marked_faults hm ht, ?_, ?_, ?_, ?_⟩
  · intro m hm'
    cases List.mem_cons.1 hm' with
    | inl hm' =>
      subst hm'
      simp only
      omega
    | inr hm' => exact h.loops m hm'
  · refine (h.marked_parted hm).add (q := .marking ⟨p, n, f, f + n - 1, b⟩) ?_ ?_ ?_ ?_ ?_
    · intro r
      cases r with
      | block g m => simp [Kernel.Holds]
      | marking m => simp [Kernel.Holds]
    · simp only [Region.first, Region.stop]
      omega
    · simp only [Region.stop]
      omega
    · intro x hx
      simp only [Region.Has, Region.first, Region.stop] at hx
      have hk := (hframe x hx.1 hx.2).1
      have hbusy : (x + 1 == b + 1) = (x == b) := by
        rw [Bool.eq_iff_iff, beq_iff_eq, beq_iff_eq]
        omega
      rw [Bool.true_and, hbusy] at hk
      exact hk
    · intro r x hr hrx hx
      exact (hframe x hx.1 hx.2).2 r hr hrx
  · simp only [hcont]
    exact h.first
  · simp only [hcont]
    exact h.other

theorem returned (h : Inv N k) (ht : Ipt.Inv N (t.hide (k.victims.map (·.index))))
    (hm : MarkedFrames k.ipt t p j (f + n) false) (hn : 1 ≤ n) (hN : f + n ≤ N)
    (hold : ∀ x, f ≤ x → x < j → KernelFrame (k.ipt.pt.entries x) ∧ ∀ r, k.Holds r → ¬ r.Has x)
    (last : Nat) (hu : u = { t with pt := { t.pt with lastIndex := last } }) :
    Inv N (k.returned n f u) ∧ Goes k p n f j (k.returned n f u) := by
  subst hu
  have hcont : t.pt.contiguous = k.ipt.pt.contiguous := by rw [hm.pt]
  have hframe : ∀ x, f ≤ x → x < f + n → KernelFrame (t.pt.entries x) ∧
      ∀ r, k.Holds r → ¬ r.Has x :=
    fun x hx hx' => h.block_frames hm (fun hf => by cases hf) hold hx hx'
  have hfaults := h.marked_faults hm ht
  have htakes := hm.takes h.faults ht hN
  apply And.intro
  · refine h.grant (C := Function.update k.ipt.pt.contiguous f n)
      (hfaults.sameButRef rfl rfl fun _ => .refl _) ?_ rfl ?_ ?_
    · refine (h.marked_parted hm).add (q := .block f n) (fun r => Iff.rfl) ?_ ?_ ?_ ?_
      · simp only [Region.first, Region.stop]
        omega
      · simpa only [Region.stop] using hN
      · exact fun x hx => (hframe x hx.1 hx.2).1
      · exact fun r x hr hrx hx => (hframe x hx.1 hx.2).2 r hr hrx
    · simp only [hcont]
    · intro m hb
      have hm1 := (h.block hb).1
      exact (hframe f (Nat.le_refl f) (by omega)).2 (.block f m) hb
        ⟨Nat.le_refl f, by simp only [Region.stop]; omega⟩
  · refine .inr ⟨(k.returned n f { t with pt := { t.pt with lastIndex := last } }).ipt,
      ⟨htakes.before, htakes.taken, htakes.rest, htakes.stored, htakes.gone⟩, ?_, ?_, rfl⟩
    · simp only [Kernel.returned, hcont]
    · intro x hx hx'
      obtain ⟨hk, hno⟩ := hframe x hx hx'
      exact ⟨hk, fun g m hb hin => hno (.block g m) hb hin⟩

/-- The marking loop over frames that are ready for it, after the frames it has taken. -/
theorem mark (h : Inv N k) (hn : 1 ≤ n) (hlen : i + 1 = f + n) (hi : i < N) (hfj : f ≤ j)
    (hji : j ≤ i + 1) (hold : ∀ x, f ≤ x → x < j → KernelFrame (k.ipt.pt.entries x) ∧
      ∀ r, k.Holds r → ¬ r.Has x) (hr : Ready k.ipt.pt.entries j (i + 1)) (p : Nat) :
    ∃ k', k.mark p n f i j = .ok k' ∧ Inv N k' ∧ Goes k p n f j k' := by
  have hlast : j + (i + 1 - j) = i + 1 := by omega
  obtain ⟨t, b, io, hx, ht, hm, hb, hio⟩ := markLoop_ready (m := i + 1 - j) h.faults.inv
    (fun x hxl => by
      obtain ⟨w, -, hw⟩ := h.faults.io hxl
      exact hw.2.2.2.1) (hlast.symm ▸ hr) (by omega) p
  rw [hlast] at hb hio
  have hi' : i = f + n - 1 := by omega
  rw [Kernel.mark, hx]
  refine ⟨_, rfl, ?_⟩
  cases io with
  | true =>
    obtain ⟨b, rfl⟩ : ∃ b', b = b' + 1 := ⟨b - 1, by have : j < b := hio; omega⟩
    have hjb : j < b + 1 := hio
    simp only [Kernel.marked, if_true, Nat.add_sub_cancel, hi']
    apply And.intro
    · exact h.asleep ht hm (by omega) hfj (by omega) (by omega) hold
    · refine .inl ⟨b, t, by omega, by omega, hm.takes h.faults ht (by omega), ?_, rfl⟩
      rw [hm.pt]
  | false =>
    have hbi : b = f + n := hio.trans hlen
    exact h.returned ht (hbi ▸ hm) hn (by omega) hold ((i + 1) % t.pt.nEntry) rfl

end MarkingLoop

theorem pageStored (h : Inv N k) (hm : m ∈ k.markings) :
    Inv N (k.pageStored m) ∧ ∀ x, m.firstPos ≤ x → x < m.j + 1 →
      KernelFrame ((k.pageStored m).ipt.pt.entries x) ∧
        ∀ r, (k.pageStored m).Holds r → ¬ r.Has x := by
  obtain ⟨hlt, hN, hf⟩ := h.parted.frames (.marking m) hm
  simp only [Region.first, Region.stop] at hlt hN
  have hholds : ∀ r, (k.pageStored m).Holds r → k.Holds r ∧ r ≠ .marking m := by
    intro r hr
    cases r with
    | block f n => exact ⟨hr, by simp⟩
    | marking m' => simpa [Kernel.Holds, Kernel.pageStored] using hr
  have hout : ∀ r x, k.Holds r → r ≠ .marking m → r.Has x → ¬ (m.firstPos ≤ x ∧ x < m.j + 1) :=
    fun r x hr hne hx hin => hne (h.parted.apart r (.marking m) x hr hm hx hin)
  have hmj : (Region.marking m).Has m.j := ⟨by simp only [Region.first]; omega, Nat.lt_succ_self _⟩
  have hpage := hf m.j hmj
  refine ⟨⟨?_, ?_, ?_, h.first, h.other⟩, ?_⟩
  · exact h.faults.set (e := (k.ipt.pt.entries m.j).setIo false) (h.faults.not_kernel hpage.1)
      ⟨rfl, fun _ => ⟨rfl, rfl⟩⟩ k.ipt.stores
  · exact fun m' hm' => h.loops m' (List.mem_filter.1 hm').1
  · refine h.parted.keeps (fun r hr => (hholds r hr).1) fun r x hr hx => ?_
    have hxj : x ≠ m.j := by
      intro hxj
      exact hout r x (hholds r hr).1 (hholds r hr).2 hx (by omega)
    simp only [Kernel.pageStored, Ipt.pageStored, PageTable.set, Function.update_of_ne hxj]
    exact .refl _
  · intro x hx hx'
    apply And.intro
    · by_cases hxj : x = m.j
      · subst hxj
        simp only [Kernel.pageStored, Ipt.pageStored, PageTable.set, Function.update_self]
        exact ⟨hpage.1, hpage.2.1, rfl, hpage.2.2.2⟩
      · have hk := hf x ⟨hx, hx'⟩
        have hbusy : (Region.marking m).busy x = false := by simpa [Region.busy] using hxj
        rw [hbusy] at hk
        simp only [Kernel.pageStored, Ipt.pageStored, PageTable.set, Function.update_of_ne hxj]
        exact hk
    · intro r hr hrx
      exact hout r x (hholds r hr).1 (hholds r hr).2 hrx ⟨hx, hx'⟩

theorem freed (h : Inv N k) (hb : (f, n) ∈ k.blocks) (hf : Frees k.ipt.pt n f pt) :
    Inv N (k.freed f pt) := by
  obtain ⟨hn, hN, hk⟩ := h.block hb
  have hholds : ∀ r, (k.freed f pt).Holds r → k.Holds r ∧ r ≠ .block f n := by
    intro r hr
    cases r with
    | block g m =>
      simp only [Kernel.Holds, Kernel.freed, List.mem_filter, bne_iff_ne] at hr
      refine ⟨hr.1, ?_⟩
      intro he
      cases he
      exact hr.2 rfl
    | marking m => exact ⟨hr, by simp⟩
  refine ⟨?_, h.loops, ?_, ?_, ?_⟩
  · apply h.faults.keeps
    · refine h.faults.inv.hide_sameKey (t := { k.ipt with pt := pt }) hf.nEntry rfl fun i _ => ?_
      by_cases hin : f ≤ i ∧ i < f + n
      · have hu : (k.ipt.pt.entries i).user = false := by simp [PtEntry.user, (hk i hin.1 hin.2).1]
        have hu' := PtEntry.not_user_of_isFree (hf.free i hin.1 hin.2)
        exact ⟨hu'.trans hu.symm, fun ht => by rw [hu] at ht; cases ht⟩
      · rw [hf.rest i hin]
        exact .refl _
    · intro i hi
      have hin : ¬ (f ≤ i ∧ i < f + n) := fun hin => h.faults.not_kernel (hk i hin.1 hin.2).1 hi
      simp only [Kernel.freed, hf.rest i hin]
      exact .refl _
  · refine h.parted.keeps (fun r hr => (hholds r hr).1) fun r x hr hx => ?_
    obtain ⟨hkr, hne⟩ := hholds r hr
    have hout : ¬ (f ≤ x ∧ x < f + n) :=
      fun hin => hne (h.parted.apart r (.block f n) x hkr hb hx hin)
    simp only [Kernel.freed, hf.rest x hout]
    exact .refl _
  · intro g m hg
    simp only [Kernel.freed, List.mem_filter, bne_iff_ne] at hg
    simp only [Kernel.freed, hf.contiguous, Function.update_of_ne hg.2]
    exact h.first g m hg.1
  · intro g hg
    simp only [Kernel.freed, hf.contiguous]
    by_cases hgf : g = f
    · rw [hgf, Function.update_self]
    · rw [Function.update_of_ne hgf]
      apply h.other g
      intro m hgm
      exact hg m (by simp [Kernel.freed, hgm, hgf])

end Kernel.Inv

/-- A request waits on `pt_cv` only if no block of eligible frames is there; otherwise its marking
loop goes through a block. -/
def Served (k : Kernel) (p n : Nat) (k' : Kernel) : Prop :=
  (∃ t, (∀ j, SameButRef (k.ipt.pt.entries j) (t.pt.entries j)) ∧ t.ht = k.ipt.ht ∧
    t.stores = k.ipt.stores ∧ t.pt.contiguous = k.ipt.pt.contiguous ∧
    (¬ ∃ a, EligibleRun k.ipt.pt.entries k.ipt.pt.nEntry n a) ∧ k' = { k with ipt := t }) ∨
  ∃ f, f + n ≤ k.ipt.pt.nEntry ∧ Goes k p n f f k'

/-- What a step that fits does. -/
def KernelOp.Does (k : Kernel) : KernelOp → Kernel → Prop
  | .allocKpages p n, k' | .resumeKpages p n, k' => Served k p n k'
  | .kpageStored m, k' => Goes (k.pageStored m) m.pid m.nPages m.firstPos (m.j + 1) k'
  | .freeKpages f, k' => ∃ n pt, (f, n) ∈ k.blocks ∧ Frees k.ipt.pt n f pt ∧ k' = k.freed f pt
  | .user _, k' => KeepsKernel k.ipt k'.ipt ∧ k'.blocks = k.blocks ∧ k'.markings = k.markings

namespace Kernel.Inv

theorem chanceRun (h : Inv N k) (hn : 1 ≤ n) (hst : k.ipt.pt.Straight n fp) (p : Nat) :
    ∃ k', k.chanceRun p n fp = .ok k' ∧ Inv N k' ∧ Served k p n k' := by
  have href := k.ipt.pt.chanceSearch_sameButRef n fp
  have hlt := fun f i => @PageTable.chanceSearch_lt n fp f i k.ipt.pt
  unfold Kernel.chanceRun
  cases hc : k.ipt.pt.chanceSearch n fp with
  | mk E o =>
    rw [hc] at href hlt
    cases o with
    | none =>
      let t : Ipt := { k.ipt with pt := { k.ipt.pt with entries := E, lastIndex := 0 } }
      refine ⟨_, rfl, h.sameButRef (t := t) rfl rfl rfl href, .inl ⟨t, href, rfl, rfl, rfl, ?_, rfl⟩⟩
      exact PageTable.chanceSearch_none hn hc
    | some r =>
      obtain ⟨f, i⟩ := r
      have hlen := PageTable.chanceSearch_length hc
      have hi := hlt f i rfl
      have hE := h.sameButRef (t := { k.ipt with pt := { k.ipt.pt with entries := E } }) rfl rfl rfl
        href
      obtain ⟨k', hx, hinv, hgoes⟩ := hE.mark hn hlen (h.faults.nEntry ▸ hi) (Nat.le_refl f)
        (by omega) (fun x hx hx' => by omega) (hlen ▸ hst.ready hc) p
      refine ⟨k', hx, hinv, .inr ⟨f, by omega, ?_⟩⟩
      obtain ⟨j, t, hj, hj', ht, hcont, rfl⟩ | ⟨t, ht, hcont, hclear, rfl⟩ := hgoes
      · exact .inl ⟨j, t, hj, hj', ht.of_search href rfl, hcont, rfl⟩
      · exact .inr ⟨t, ht.of_search href rfl, hcont, hclear, rfl⟩

theorem markFree (h : Inv N k) (hi : i < N) (hfree : (k.ipt.pt.entries i).isFree = true) (p : Nat) :
    ∃ pt, k.ipt.pt.markFree p i i = .ok pt ∧
      Inv N (k.returned 1 i { k.ipt with pt := pt }) ∧
      Goes k p 1 i i (k.returned 1 i { k.ipt with pt := pt }) := by
  have hsp := PtEntry.Spent.of_isFree hfree
  have hu := PtEntry.not_user_of_isFree hfree
  have hm := (MarkedFrames.nil { k.ipt with
    pt := k.ipt.pt.set i ((k.ipt.pt.entries i).kmalloc p false) } p (i + 1)).cons hsp
    (hsp.user.symm.trans hu) (Nat.le_refl _) (fun hf => by cases hf)
  have ht := (h.faults.set (e := (k.ipt.pt.entries i).kmalloc p false)
    (h.faults.not_hidden hsp.bits.2.1) ⟨by rw [hu]; simp [PtEntry.user, PtEntry.kmalloc], fun hf => by
      rw [hu] at hf
      cases hf⟩ k.ipt.stores).inv
  exact ⟨_, markFree_ok hfree p, h.returned ht hm (Nat.le_refl 1) (by omega)
    (fun x hx hx' => by omega) k.ipt.pt.lastIndex rfl⟩

theorem getContiguousPages (h : Inv N k) (hn : 1 ≤ n) (hN : n ≤ N) (hs : Servable k.ipt.pt n)
    (p : Nat) : ∃ k', k.getContiguousPages p n = .ok k' ∧ Inv N k' ∧ Served k p n k' := by
  have hnN := h.faults.nEntry
  have hnot : ¬ k.ipt.pt.nEntry < n := by omega
  have hstart : LastStart k.ipt.pt.entries 0 none := by
    intro f hf
    cases hf
  have hinr := (freeRun_spec (n := n) (m := k.ipt.pt.nEntry) hstart).1
  rw [← List.range_eq_range'] at hinr
  unfold Kernel.getContiguousPages
  rw [if_neg hnot]
  cases hr : freeRun k.ipt.pt.entries n (List.range k.ipt.pt.nEntry) none with
  | inl fp =>
    have hleft := freeRun_leftOver hr
    apply h.chanceRun hn _ p
    obtain rfl | ⟨-, hst⟩ := hs
    · exact .of_le hleft.spent (by omega)
    · exact hst fp hleft
  | inr r =>
    obtain ⟨f, i⟩ := r
    obtain ⟨hi, hfree, hlen⟩ := freeRun_inr hr
    rw [List.mem_range] at hi
    obtain rfl | ⟨hno, -⟩ := hs
    · have hfi : i = f := by omega
      subst hfi
      obtain ⟨pt, hx, hinv, hgoes⟩ := h.markFree (hnN ▸ hi) hfree p
      simp only [Nat.add_sub_cancel_left, List.range'_one, List.foldlM_cons, List.foldlM_nil,
        hx]
      exact ⟨_, rfl, hinv, .inr ⟨i, by omega, hgoes⟩⟩
    · exact (hno ⟨f, by omega, hinr f i hr⟩).elim

/-- A step that fits does what it should; the operations of the processes may stop for reasons of
their own. -/
theorem exec (h : Inv N k) (op : KernelOp) (hpre : op.Pre k) (hfit : op.Fits k) :
    (∃ k', op.exec k = .ok k' ∧ Inv N k' ∧ op.Does k k') ∨
      ∃ e uop, op = .user uop ∧ op.exec k = .error e := by
  cases op with
  | allocKpages p n =>
    exact .inl (h.getContiguousPages hpre.1 (h.faults.nEntry ▸ hpre.2) hfit p)
  | resumeKpages p n => exact .inl (h.chanceRun hpre.1 hfit p)
  | kpageStored m =>
    obtain ⟨hlen, hji, hi⟩ := h.loops m hpre
    obtain ⟨hinv, hold⟩ := h.pageStored hpre
    have hlt := (h.parted.frames (.marking m) hpre).1
    simp only [Region.first, Region.stop] at hlt
    have hready : Ready (k.pageStored m).ipt.pt.entries (m.j + 1) (m.i + 1) := by
      refine hfit.congr fun x hx _ => ?_
      have hxj : x ≠ m.j := by omega
      simp only [Kernel.pageStored, Ipt.pageStored, PageTable.set, Function.update_of_ne hxj]
    exact .inl (hinv.mark (by omega) hlen hi (by omega) (by omega) hold hready m.pid)
  | freeKpages f =>
    obtain ⟨n, hb⟩ := hpre
    obtain ⟨pt, hx, hf⟩ := freeContiguousPages_frees (h.first f n hb) (h.block hb).2.2
    refine .inl ⟨k.freed f pt, ?_, h.freed hb hf, n, pt, hb, hf, rfl⟩
    rw [KernelOp.exec, hx]
    rfl
  | user op =>
    rw [KernelOp.exec]
    cases hx : op.exec k.ipt k.victims with
    | error e => exact .inr ⟨e, op, rfl, rfl⟩
    | ok r =>
      obtain ⟨t, ws⟩ := r
      obtain ⟨hfaults, hkeep⟩ := op.exec_faulting h.faults hpre hx
      exact .inl ⟨_, rfl, h.keeps hfaults hkeep, hkeep, rfl, rfl⟩

end Kernel.Inv

def Kernel.boot (N f : Nat) (ram : Nat → PtEntry) : Kernel := ⟨Ipt.boot N f ram, [], [], []⟩

theorem Kernel.boot_inv (N f : Nat) (ram : Nat → PtEntry) : Kernel.Inv N (Kernel.boot N f ram) where
  faults := ⟨(Ipt.boot_inv N f ram).congr rfl (by funext i; simp [Ipt.hide, boot]) rfl, by simp [boot],
    by simp [boot]⟩
  loops := by simp [boot]
  parted := ⟨fun r hr => by cases r <;> simp [Holds, boot] at hr,
    fun r r' j hr => by cases r <;> simp [Holds, boot] at hr⟩
  first := by simp [boot]
  other _ _ := rfl

theorem Kernel.Inv.run (h : Run KernelStep (Kernel.boot N f ram) ops k) : Kernel.Inv N k := by
  refine h.invariant (Kernel.boot_inv N f ram) fun k op k' hk hs => ?_
  obtain ⟨hpre, hfit, hx⟩ := hs
  obtain ⟨u, hu, hinv, -⟩ | ⟨e, -, -, he⟩ := hk.exec op hpre hfit
  · rw [hx] at hu
    cases hu
    exact hinv
  · rw [hx] at he
    cases he

/-- What holds of the blocks in use: `contiguous` has their lengths at their first frames, and they
consist of kernel frames with no operation on them, apart from each other. -/
structure Kernel.Sound (N : Nat) (k : Kernel) : Prop where
  contiguous : ∀ i, (∃ n, (i, n) ∈ k.blocks ∧ k.ipt.pt.contiguous i = n) ∨
    ((∀ n, (i, n) ∉ k.blocks) ∧ k.ipt.pt.contiguous i = -1)
  frames : ∀ f n, (f, n) ∈ k.blocks → 1 ≤ n ∧ f + n ≤ N ∧
    ∀ j, f ≤ j → j < f + n → KernelFrame (k.ipt.pt.entries j)
  apart : ∀ f n g m j, (f, n) ∈ k.blocks → (g, m) ∈ k.blocks → f ≤ j → j < f + n → g ≤ j →
    j < g + m → f = g ∧ n = m

theorem Kernel.Inv.sound (h : Kernel.Inv N k) : k.Sound N where
  contiguous i := by
    by_cases hi : ∃ n, (i, n) ∈ k.blocks
    · obtain ⟨n, hn⟩ := hi
      exact .inl ⟨n, hn, h.first i n hn⟩
    · have hi' : ∀ n, (i, n) ∉ k.blocks := fun n hn => hi ⟨n, hn⟩
      exact .inr ⟨hi', h.other i hi'⟩
  frames f n hb := h.block hb
  apart f n g m j hf hg h1 h2 h3 h4 := by
    cases h.parted.apart (.block f n) (.block g m) j hf hg ⟨h1, h2⟩ ⟨h3, h4⟩
    exact ⟨rfl, rfl⟩

/-- In every run whose steps fit, the blocks in use are sound, and every further step that fits does
what it should: a request is granted frames apart from the blocks in use, one page after the other
stored once, or it waits while there are not enough eligible frames in a row; a free makes exactly
the frames of its block available; and the processes leave the frames of the kernel alone. -/
theorem kernelPages_sound (h : Run KernelStep (Kernel.boot N f ram) ops k) :
    k.Sound N ∧ ∀ op : KernelOp, op.Pre k → op.Fits k →
      (∃ k', op.exec k = .ok k' ∧ op.Does k k') ∨ ∃ e uop, op = .user uop ∧ op.exec k = .error e := by
  have hinv := Kernel.Inv.run h
  refine ⟨hinv.sound, fun op hpre hfit => ?_⟩
  obtain ⟨k', hx, -, hdoes⟩ | he := hinv.exec op hpre hfit
  · exact .inl ⟨k', hx, hdoes⟩
  · exact .inr he

instance (e : PtEntry) : Decidable e.Spent := inferInstanceAs (Decidable (_ ∧ _))

instance (E : Nat → PtEntry) (a b : Nat) : Decidable (Ready E a b) :=
  decidable_of_iff (∀ j < b, a ≤ j → (∀ i < j, a ≤ i → (E i).ctrl.validity = false) → (E j).Spent) <| by
    constructor
    · exact fun h j hj hj' hv => h j hj' hj fun i hi hi' => hv i hi' hi
    · exact fun h j hj' hj hv => h j hj hj' fun i hi hi' => hv i hi' hi

instance (E : Nat → PtEntry) (n f : Nat) : Decidable (FreeBlock E n f) :=
  decidable_of_iff ((E f).isFree = true ∧ startsRun E f = true ∧ (E (f + n - 1)).isFree = true ∧
      ∀ j < f + n, f < j → ¬ ((E j).isFree = true ∧ startsRun E j = true)) <| by
    constructor
    · exact fun ⟨h1, h2, h3, h4⟩ => ⟨h1, h2, h3, fun j hj hj' => h4 j hj' hj⟩
    · exact fun ⟨h1, h2, h3, h4⟩ => ⟨h1, h2, h3, fun j hj hj' => h4 j hj' hj⟩

instance (s : Ipt) (ws : List Victim) (op : UserOp) : Decidable (op.Pre s ws) :=
  match op with
  | .beginPage _ _ | .victimStored _ => inferInstanceAs (Decidable (_ ∧ _))
  | .resumeVictim _ _ _ | .pageLoaded _ => inferInstanceAs (Decidable (_ ∧ _ ∧ _))
  | .copyPage _ _ _ => inferInstanceAs (Decidable (_ ∧ _ ∧ _ ∧ _))
  | .freePages _ | .updateTlbBit _ _ | .prepareCopyPt _ | .endCopyPt _ => .isTrue trivial

instance (k : Kernel) (op : KernelOp) : Decidable (op.Pre k) :=
  match op with
  | .allocKpages _ _ | .resumeKpages _ _ => inferInstanceAs (Decidable (_ ∧ _))
  | .kpageStored _ => inferInstanceAs (Decidable (_ ∈ _))
  | .freeKpages f => decidable_of_iff (∃ b ∈ k.blocks, b.1 = f) (by simp [KernelOp.Pre])
  | .user op => inferInstanceAs (Decidable (op.Pre _ _))

/-- The tests that a step for at most three pages fits. -/
def KernelOp.Small (k : Kernel) : KernelOp → Prop
  | .allocKpages _ n => n ≤ 3 ∧ (n = 1 ∨
    ¬ ∃ f < k.ipt.pt.nEntry + 1, f + n ≤ k.ipt.pt.nEntry ∧ FreeBlock k.ipt.pt.entries n f)
  | .resumeKpages _ n => n ≤ 3
  | .kpageStored m => Ready k.ipt.pt.entries (m.j + 1) (m.i + 1)
  | .freeKpages _ | .user _ => True

theorem KernelOp.Small.fits {op : KernelOp} (h : op.Small k) : op.Fits k := by
  cases op with
  | allocKpages p n =>
    obtain ⟨hn, h1 | hno⟩ := h
    · exact .inl h1
    · refine .inr ⟨fun hf => ?_, fun fp hfp => .of_le hfp.spent hn⟩
      obtain ⟨f, hf, hb⟩ := hf
      exact hno ⟨f, by omega, hf, hb⟩
  | resumeKpages p n => exact .of_le (by simp) h
  | kpageStored m => exact h
  | freeKpages f => trivial
  | user op => trivial

instance (k : Kernel) (op : KernelOp) : Decidable (op.Small k) :=
  match op with
  | .allocKpages _ _ => inferInstanceAs (Decidable (_ ∧ (_ ∨ _)))
  | .resumeKpages _ _ => inferInstanceAs (Decidable (_ ≤ _))
  | .kpageStored _ => inferInstanceAs (Decidable (Ready _ _ _))
  | .freeKpages _ | .user _ => .isTrue trivial

/-- The step, when it is tested to be one for at most three pages that fits. -/
def KernelOp.next (k : Kernel) (op : KernelOp) : Option Kernel :=
  if op.Pre k ∧ op.Small k then (op.exec k).toOption else none

theorem KernelOp.next_step {op : KernelOp} (h : op.next k = some k') : KernelStep k op k' := by
  unfold KernelOp.next at h
  split at h
  · rename_i hc
    refine ⟨hc.1, hc.2.fits, ?_⟩
    cases hx : op.exec k with
    | error e =>
      rw [hx] at h
      cases h
    | ok u =>
      rw [hx] at h
      cases h
      rfl
  · cases h

theorem KernelOp.run_next (k : Kernel) (l : List KernelOp) {p : Kernel → Bool}
    (h : (l.foldlM KernelOp.next k).any p = true) : ∃ k', Run KernelStep k l k' ∧ p k' = true :=
  Run.of_any (fun _ _ _ => KernelOp.next_step) h

/-- Process 2 fills both frames and loses its TLB entries; the kernel asks for two pages. -/
def twoPages : List KernelOp :=
  [.user (.beginPage 4096 2), .user (.pageLoaded 0), .user (.beginPage 8192 2),
    .user (.pageLoaded 1), .user (.updateTlbBit 4096 2), .user (.updateTlbBit 8192 2),
    .allocKpages 1 2]

/-- The request sleeps while the page of frame 0 is stored, then while that of frame 1 is; it
returns the block, which is freed. -/
theorem kernelPages_sound_twoPages : ∃ k k₁ k₂,
    Run KernelStep (Kernel.boot 2 0 fun _ => ⟨0, 0, .zero⟩) (twoPages ++ [.kpageStored ⟨1, 2, 0, 1, 0⟩]) k ∧
    k.ipt.stores = [⟨4096, 2, 0⟩, ⟨8192, 2, 1⟩] ∧
    Goes (k.pageStored ⟨1, 2, 0, 1, 1⟩) 1 2 0 2 k₁ ∧ k₁.blocks = [(0, 2)] ∧ k₁.Sound 2 ∧
    (KernelOp.freeKpages 0).exec k₁ = .ok k₂ ∧ Frees k₁.ipt.pt 2 0 k₂.ipt.pt := by
  obtain ⟨k, hrun, hk⟩ := KernelOp.run_next (Kernel.boot 2 0 fun _ => ⟨0, 0, .zero⟩)
    (twoPages ++ [.kpageStored ⟨1, 2, 0, 1, 0⟩])
    (p := fun k => decide (k.ipt.stores = [⟨4096, 2, 0⟩, ⟨8192, 2, 1⟩] ∧ k.blocks = [] ∧
      k.markings = [⟨1, 2, 0, 1, 1⟩] ∧ KernelOp.Small k (.kpageStored ⟨1, 2, 0, 1, 1⟩)))
    (by decide +kernel)
  obtain ⟨hst, hb, hm, hsmall⟩ := of_decide_eq_true hk
  have hpre : KernelOp.Pre k (.kpageStored ⟨1, 2, 0, 1, 1⟩) := by
    rw [KernelOp.Pre, hm]
    exact List.mem_singleton_self _
  obtain ⟨k₁, hx, hgoes⟩ | ⟨e, uop, he, -⟩ := (kernelPages_sound hrun).2 _ hpre hsmall.fits
  · have hb₁ : k₁.blocks = [(0, 2)] := by
      obtain ⟨j, t, hj, hj', -⟩ | ⟨t, -, -, -, rfl⟩ := hgoes
      · simp only at hj hj'
        omega
      · simp [Kernel.pageStored, hb]
    have hrun₁ := Run.snoc hrun ⟨hpre, hsmall.fits, hx⟩
    obtain ⟨hsound, hnext⟩ := kernelPages_sound hrun₁
    obtain ⟨k₂, hx₂, n, pt, hn, hf, rfl⟩ | ⟨e, uop, he, -⟩ := hnext (.freeKpages 0)
      ⟨2, by rw [hb₁]; exact List.mem_singleton_self _⟩ trivial
    · rw [hb₁, List.mem_singleton] at hn
      cases hn
      exact ⟨k, k₁, _, hrun, hst, hgoes, hb₁, hsound, hx₂, hf⟩
    · cases he
  · cases he

/-- A request for two pages on an empty table: the marking loop of the first search writes the last
entry of the block first and then stops at it. And with both frames full, the request sleeps while
the page of frame 0 is stored; when process 2 uses its other page meanwhile, the marking loop of the
second search stops at frame 1. -/
theorem kernelPages_two :
    (KernelOp.allocKpages 1 2).exec (Kernel.boot 2 0 fun _ => ⟨0, 0, .zero⟩) =
      .error (.kassert .getContiguousPages .kmalloc) ∧
    ∃ k, Run KernelStep (Kernel.boot 2 0 fun _ => ⟨0, 0, .zero⟩)
      (twoPages ++ [.user (.beginPage 8192 2)]) k ∧ ⟨1, 2, 0, 1, 0⟩ ∈ k.markings ∧
      (KernelOp.kpageStored ⟨1, 2, 0, 1, 0⟩).exec k =
        .error (.kassert .getContiguousPages .tlb) := by
  refine ⟨rfl, ?_⟩
  obtain ⟨k, hrun, hk⟩ := KernelOp.run_next (Kernel.boot 2 0 fun _ => ⟨0, 0, .zero⟩)
    (twoPages ++ [.user (.beginPage 8192 2)])
    (p := fun k => decide (k.markings = [⟨1, 2, 0, 1, 0⟩]) &&
      match (KernelOp.kpageStored ⟨1, 2, 0, 1, 0⟩).exec k with
      | .error e => decide (e = .kassert .getContiguousPages .tlb)
      | .ok _ => false)
    (by decide +kernel)
  rw [Bool.and_eq_true, decide_eq_true_eq] at hk
  obtain ⟨hm, hx⟩ := hk
  refine ⟨k, hrun, by rw [hm]; exact List.mem_singleton_self _, ?_⟩
  split at hx
  · rename_i e he
    rw [he, of_decide_eq_true hx]
  · cases hx

end Clape
