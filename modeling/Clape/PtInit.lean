import Clape.PageTable
import Clape.BootHeap

namespace Clape
set_option autoImplicit true

/-- The loop of `pt_init` sets the flags, clears the control bytes and leaves the other words of the
entries, where the two arrays are apart. -/
theorem clear_loop (mem : Nat → Nat) (hap : e + sizeofPtEntry * m ≤ c ∨ c + 4 * m ≤ e) (hj : j ≤ m) :
    (∀ i < j, (List.range j).foldl (clearEntry e c) mem (c + 4 * i) = 0xffffffff) ∧
    (∀ i < j, (List.range j).foldl (clearEntry e c) mem (e + sizeofPtEntry * i + 8) < 16777216) ∧
    ∀ i < m, (List.range j).foldl (clearEntry e c) mem (e + sizeofPtEntry * i) = mem (e + sizeofPtEntry * i) := by
  unfold sizeofPtEntry at *
  induction j with
  | zero => exact ⟨nofun, nofun, fun i hi => rfl⟩
  | succ j ih =>
    obtain ⟨hflag, hctrl, hpage⟩ := ih (by omega)
    rw [List.range_succ, List.foldl_append]
    generalize (List.range j).foldl (clearEntry e c) mem = mem' at *
    -- the two stores are to words of their own
    have hout : ∀ x, x ≠ e + 12 * j + 8 → x ≠ c + 4 * j → [j].foldl (clearEntry e c) mem' x = mem' x := by
      intro x h1 h2
      show Function.update (Function.update mem' (e + 12 * j + 8) _) (c + 4 * j) 0xffffffff x = mem' x
      rw [Function.update_of_ne h2, Function.update_of_ne h1]
    refine ⟨?_, ?_, ?_⟩
    · intro i hi
      by_cases hij : i = j
      · subst hij
        exact Function.update_self ..
      · rw [hout _ (by omega) (by omega)]
        exact hflag i (by omega)
    · intro i hi
      by_cases hij : i = j
      · subst hij
        show Function.update (Function.update mem' (e + 12 * i + 8) _) (c + 4 * i) 0xffffffff _ < _
        rw [Function.update_of_ne (by omega), Function.update_self]
        exact Nat.mod_lt _ (by decide)
      · rw [hout _ (by omega) (by omega)]
        exact hctrl i (by omega)
    · intro i hi
      rw [hout _ (by omega) (by omega)]
      exact hpage i hi

namespace Boot

/-- The table is empty: `findspace` takes every index, every flag is -1, and the frames are pages of
the RAM apart from each other and from all that `ram_stealmem` has handed out, where the two
arrays lie. -/
structure EmptyTable (s s' : Boot n) (pt : PtInfo) : Prop where
  space : ∀ i < (s'.pageTable pt).nEntry, ((s'.pageTable pt).entries i).isSpace = true
  contiguous : ∀ i < (s'.pageTable pt).nEntry, (s'.pageTable pt).contiguous i = -1
  inside : ∀ i < (s'.pageTable pt).nEntry, (s'.pageTable pt).frame i + pageSize ≤ mainbusRamsize s.ramsize
  apart : ∀ i < (s'.pageTable pt).nEntry, ∀ j < (s'.pageTable pt).nEntry, i ≠ j →
    (s'.pageTable pt).frame i + pageSize ≤ (s'.pageTable pt).frame j ∨
    (s'.pageTable pt).frame j + pageSize ≤ (s'.pageTable pt).frame i
  kept : ∀ x ∈ s.stolen, x ∈ s'.stolen
  stolen : ∀ i < (s'.pageTable pt).nEntry, ∀ x ∈ s'.stolen,
    x.1 + x.2 * pageSize ≤ (s'.pageTable pt).frame i ∨ (s'.pageTable pt).frame i + pageSize ≤ x.1
  entries : ∃ x ∈ s'.stolen, paddrToKvaddr x.1 ≤ pt.entries ∧
    pt.entries + sizeofPtEntry * s.frames ≤ paddrToKvaddr (x.1 + x.2 * pageSize)
  flags : ∃ x ∈ s'.stolen, paddrToKvaddr x.1 ≤ pt.contiguous ∧
    pt.contiguous + 4 * s.frames ≤ paddrToKvaddr (x.1 + x.2 * pageSize)

/-- The allocations of `pt_init` with the lock free, and the first block. -/
def allocations (s : Boot n) (t : Fin n) : Except BootStop (Boot n × Option Nat) := do
  let numFrames := s.frames
  let (s, entries) ← s.kmalloc t (numFrames * sizeofPtEntry)
  let (s, _) ← s.lockCreate t
  let (s, _) ← s.cvCreate t
  let (s, _) ← s.kmalloc t (numFrames * 4)
  return (s, entries)

/-- When the entries are allocated, the heap has free blocks for the lock and the condition
variable, three of 16 and three of 32 bytes; and none of the words that become the `page` of a
frame holds the mark of a page of the kernel heap. -/
def Ready (s : Boot n) (t : Fin n) : Prop :=
  (∀ s₁ e, s.kmalloc t (s.frames * sizeofPtEntry) = .ok (s₁, e) →
    3 ≤ s₁.heap.freeBlocks 0 ∧ 3 ≤ s₁.heap.freeBlocks 1) ∧
  ∀ s₄ e, s.allocations t = .ok (s₄, some e) → ∀ i, i + 1 < s₄.frames →
    s₄.heap.mem (e + sizeofPtEntry * i) ≠ kmallocPage

variable {n : Nat} {s s' : Boot n} {v : HeapView}

theorem Inv.live_stolen (h : s.Inv v) (hp : s.heap.live p = some b) :
    ∃ x ∈ s.stolen, paddrToKvaddr x.1 ≤ p ∧ p + b.sz ≤ paddrToKvaddr (x.1 + x.2 * pageSize) := by
  have hsz := (h.heap.blocks p b hp).1
  obtain ⟨pr, hpr, hblk, hsize⟩ | ⟨m, hm, -, hsize⟩ := h.heap.live_cell hp
  · have hbd := hblk.bounds (h.heap.pages.page pr hpr).type
    obtain ⟨q, hq, haddr⟩ := h.runs _ _ (h.heap.pageRun hpr)
    refine ⟨_, hq, ?_⟩
    unfold paddrToKvaddr at *
    omega
  · obtain ⟨q, hq, haddr⟩ := h.runs _ _ hm
    refine ⟨_, hq, ?_⟩
    unfold paddrToKvaddr at *
    dsimp only
    omega

theorem ramStealmem_snd (s : Boot n) (m : Nat) : (s.ramStealmem m).2 = if s.lacks m then 0 else s.firstpaddr := by
  unfold ramStealmem
  split <;> rfl

theorem ram_congr (s s' : Boot n) (h1 : s'.ramsize = s.ramsize) (h2 : s'.firstpaddr = s.firstpaddr)
    (h3 : s'.lastpaddr = s.lastpaddr) :
    s'.frames = s.frames ∧ (s'.ramStealmem 0).2 = (s.ramStealmem 0).2 := by
  have hsnd : (s'.ramStealmem 0).2 = (s.ramStealmem 0).2 := by
    rw [ramStealmem_snd, ramStealmem_snd]
    unfold lacks
    rw [h2, h3]
  refine ⟨?_, hsnd⟩
  unfold frames
  rw [h1, hsnd]

theorem toInt32_pred (hf : f < 2147483648) : (toInt32 (u32Sub f 1)).toNat = f - 1 := by
  cases f with
  | zero => decide
  | succ f =>
    unfold toInt32 u32Sub
    have hmod : (f + 1 + 4294967296 - 1 % 4294967296) % 4294967296 = f := by omega
    rw [hmod, Nat.mod_eq_of_lt (by omega), if_pos (by omega)]
    omega

theorem ctrlOf_zero : ctrlOf 0 = .zero := rfl

theorem fillTable_stolen (s : Boot n) (m e c : Nat) : (s.fillTable m e c).1.stolen = s.stolen := rfl

theorem fillTable_entries (s : Boot n) (m e c : Nat) : (s.fillTable m e c).2.entries = e := rfl

theorem fillTable_contiguous (s : Boot n) (m e c : Nat) : (s.fillTable m e c).2.contiguous = c := rfl

theorem fillTable_table (s : Boot n) (m e c : Nat) :
    (s.fillTable m e c).1.pageTable (s.fillTable m e c).2 = {
      entries := fun i => {
        page := (List.range m).foldl (clearEntry e c) s.heap.mem (e + sizeofPtEntry * i)
        pid := (List.range m).foldl (clearEntry e c) s.heap.mem (e + sizeofPtEntry * i + 4)
        ctrl := ctrlOf ((List.range m).foldl (clearEntry e c) s.heap.mem (e + sizeofPtEntry * i + 8) / 16777216) }
      nEntry := (toInt32 (u32Sub s.frames 1)).toNat
      firstFreePaddr := (s.ramStealmem 0).2
      contiguous := fun i => toInt32 ((List.range m).foldl (clearEntry e c) s.heap.mem (c + 4 * i))
      lastIndex := 0 } := by
  obtain ⟨hframes, hsteal⟩ := ram_congr s { s with heap := { s.heap with
    mem := (List.range m).foldl (clearEntry e c) s.heap.mem } } rfl rfl rfl
  unfold fillTable pageTable release
  dsimp only
  rw [hframes, hsteal]

/-- The last part of `pt_init` leaves an empty table when no stale word marks a frame. -/
theorem Inv.fillTable (h : s'.Inv v) (h₀ : s.Inv v₀) (hsize : s'.ramsize = s.ramsize)
    (hfirst : s.firstpaddr ≤ s'.firstpaddr) (hkept : ∀ x ∈ s.stolen, x ∈ s'.stolen)
    (he : s'.heap.live e = some ⟨s.frames * sizeofPtEntry, m⟩)
    (hc : s'.heap.live c = some ⟨s.frames * 4, k⟩) (hne : e ≠ c) :
    s.EmptyTable (s'.fillTable s.frames e c).1 (s'.fillTable s.frames e c).2 ↔
      ∀ i, i + 1 < s'.frames → s'.heap.mem (e + sizeofPtEntry * i) ≠ kmallocPage := by
  have hap : e + sizeofPtEntry * s.frames ≤ c ∨ c + 4 * s.frames ≤ e := by
    have hcells := h.heap.cells_apart (h.heap.live_cell he) (h.heap.live_cell hc) hne
    have h1 := (h.heap.blocks _ _ he).1
    have h2 := (h.heap.blocks _ _ hc).1
    dsimp only at *
    rw [Nat.mul_comm sizeofPtEntry, Nat.mul_comm 4]
    omega
  obtain ⟨hflag, hctrl, hpage⟩ := clear_loop s'.heap.mem hap (Nat.le_refl _)
  have hlast : s'.lastpaddr = s.lastpaddr := by rw [h.size, h₀.size, hsize]
  have hfr := h.frames_eq
  have hfr₀ := h₀.frames_eq
  have htop := h.top
  have hle : s'.frames ≤ s.frames := by
    rw [hfr, hfr₀, hlast]
    exact Nat.div_le_div_right (by omega)
  -- the table that the end of `pt_init` leaves
  have hT := fillTable_table s' s.frames e c
  obtain ⟨T, hdef⟩ : ∃ T, (s'.fillTable s.frames e c).1.pageTable (s'.fillTable s.frames e c).2 = T := ⟨_, rfl⟩
  rw [hdef] at hT
  generalize (List.range s.frames).foldl (clearEntry e c) s'.heap.mem = mem at hT hflag hctrl hpage
  have hn : T.nEntry = s'.frames - 1 := by
    have hlt : s'.frames < 2147483648 := by
      rw [hfr]
      exact Nat.lt_of_le_of_lt (Nat.div_le_self ..) (by omega)
    rw [hT]
    dsimp only
    rw [toInt32_pred hlt]
  have hfree : T.firstFreePaddr = s'.firstpaddr := by
    rw [hT]
    dsimp only
    rw [h.ramStealmem_zero]
  have hentry : ∀ i < T.nEntry, T.entries i =
      ⟨s'.heap.mem (e + sizeofPtEntry * i), mem (e + sizeofPtEntry * i + 4), .zero⟩ := by
    intro i hi
    have hz : mem (e + sizeofPtEntry * i + 8) / 16777216 = 0 := Nat.div_eq_of_lt (hctrl i (by omega))
    rw [hT]
    dsimp only
    rw [hz, hpage i (by omega), ctrlOf_zero]
  have hcontig : ∀ i < T.nEntry, T.contiguous i = -1 := by
    intro i hi
    have hw := hflag i (by omega)
    rw [hT]
    dsimp only
    rw [hw]
    decide
  have hframe : ∀ i, T.frame i = i * 4096 + s'.firstpaddr := by
    intro i
    unfold PageTable.frame
    rw [hfree]
    rfl
  have hspace : (∀ i < T.nEntry, (T.entries i).isSpace = true) ↔
      ∀ i, i + 1 < s'.frames → s'.heap.mem (e + sizeofPtEntry * i) ≠ kmallocPage := by
    have hiff : ∀ i < T.nEntry, (T.entries i).isSpace = true ↔
        s'.heap.mem (e + sizeofPtEntry * i) ≠ kmallocPage := by
      intro i hi
      rw [hentry i hi]
      simp [PtEntry.isSpace, Ctrl.zero]
    constructor
    · intro hall i hi
      exact (hiff i (by omega)).1 (hall i (by omega))
    · intro hall i hi
      exact (hiff i hi).2 (hall i (by omega))
  have hin : ∀ i < T.nEntry, T.frame i + 4096 ≤ s'.lastpaddr := by
    intro i hi
    have hroom := h.room
    rw [hframe]
    rw [hn, hfr] at hi
    unfold pageSize at hi
    omega
  constructor
  · intro hE
    have hall := hE.space
    rw [hdef] at hall
    exact hspace.1 hall
  · intro hok
    constructor
    · rw [hdef]
      exact hspace.2 hok
    · rw [hdef]
      exact hcontig
    · rw [hdef, ← h₀.size, ← hlast]
      exact hin
    · rw [hdef]
      intro i _ j _ hij
      rw [hframe, hframe]
      unfold pageSize
      omega
    · rw [fillTable_stolen]
      exact hkept
    · rw [hdef, fillTable_stolen]
      intro i _ x hx
      have hx' := h.stolen x.1 x.2 hx
      rw [hframe]
      exact .inl (by omega)
    · rw [fillTable_stolen, fillTable_entries, Nat.mul_comm sizeofPtEntry]
      exact h.live_stolen he
    · rw [fillTable_stolen, fillTable_contiguous, Nat.mul_comm 4]
      exact h.live_stolen hc

theorem acquire_ok (hheld : s.held = false) : s.acquire = .ok { s with held := true } := by
  unfold acquire
  rw [hheld]
  rfl

theorem release_eq (hheld : s.held = false) : release { s with held := true } = s := by
  unfold release
  rw [← hheld]

theorem Inv.ptInit_eq (h : s.Inv v) (hheld : s.held = false) (t : Fin n) :
    s.ptInit t = s.kmalloc t (s.frames * sizeofPtEntry) >>= fun x => x.1.acquire >>= fun s₁ =>
      match x.2 with
      | none => .error .ptInit
      | some e => s₁.createLocks t >>= fun s₂ => s₂.createFlags t s.frames e := by
  have hframes : ({ s with held := true } : Boot n).frames = s.frames := by
    rw [(h.setHeld true).frames_eq, h.frames_eq]
  unfold Boot.ptInit
  rw [acquire_ok hheld, KernelHeap.ok_bind]
  dsimp only
  rw [hframes]
  have hrel := release_eq hheld
  generalize release { s with held := true } = r at hrel ⊢
  subst hrel
  rfl

theorem Inv.small (h : s.Inv v) (hk : k ≤ sizeofPtEntry) (hf : f ≤ s.frames) (hs : s'.Inv v') :
    s'.firstpaddr + f * k + pageSize < 4294967296 := by
  have htop := h.top
  have htop' := hs.top
  have hfr := h.frames_eq
  have hle : f * k ≤ s.frames * sizeofPtEntry := Nat.mul_le_mul hf hk
  unfold pageSize sizeofPtEntry at *
  omega

theorem count_two {f : Nat → Nat} (hk : k ≤ 1) (hi : f i < [k, 0, 1].count i) :
    f 0 < [k, 0, 1].count 0 ∨ f 1 < [k, 0, 1].count 1 := by
  match i, hi with
  | 0, hi => exact .inl hi
  | 1, hi => exact .inr hi
  | i + 2, hi =>
    have hz : [k, 0, 1].count (i + 2) = 0 := by
      apply List.count_eq_zero.2
      simp
      omega
    omega

/-- The lock and the condition variable are created from three blocks of each of the two smallest
sizes, or a page is wanted while the lock is held. -/
theorem createLocks_cases {u : KernelHeap n} (h : u.Inv v) (hbusy : u.Busy v) (hpc : u.pc t = .idle) :
    (3 ≤ u.freeBlocks 0 ∧ 3 ≤ u.freeBlocks 1 ∧ ∃ u' p q, Served u u' [1, 0, 1, 0, 0, 1] ∧
      (∀ s : Boot n, s.heap = u → s.createLocks t = .ok (release { s with heap := u' })) ∧
      ∀ s : Boot n, s.heap = u → ∃ s₁, s.lockCreate t = .ok (s₁, some p) ∧
        s₁.cvCreate t = .ok ({ s with heap := u' }, some q)) ∨
    ¬ (3 ≤ u.freeBlocks 0 ∧ 3 ≤ u.freeBlocks 1) ∧
      ∀ s : Boot n, s.heap = u → s.held = true → s.createLocks t = .error .deadlock := by
  obtain ⟨u₁, p, hs₁, hr₁⟩ | ⟨⟨i, hi⟩, hdead⟩ := create_cases 20 8 (k := 1) (j := 0) h hbusy hpc
    (by decide) rfl (by decide) rfl
  · obtain ⟨w₁, hinv₁, hbusy₁⟩ := hs₁.inv
    have hpc₁ : u₁.pc t = .idle := by
      rw [hs₁.keeps.pc]
      exact hpc
    have h0 : u₁.freeBlocks 0 + 1 = u.freeBlocks 0 := hs₁.free 0
    have h1 : u₁.freeBlocks 1 + 2 = u.freeBlocks 1 := hs₁.free 1
    obtain ⟨u₂, q, hs₂, hr₂⟩ | ⟨⟨i, hi⟩, hdead⟩ := create_cases 16 6 (k := 0) (j := 0)
      hinv₁ hbusy₁ hpc₁ (by decide) rfl (by decide) rfl
    · have h0' : u₂.freeBlocks 0 + 2 = u₁.freeBlocks 0 := hs₂.free 0
      have h1' : u₂.freeBlocks 1 + 1 = u₁.freeBlocks 1 := hs₂.free 1
      refine .inl ⟨by omega, by omega, u₂, p, q, hs₁.append hs₂, ?_, ?_⟩
      · intro s hs
        unfold createLocks lockCreate cvCreate
        rw [hr₁ s hs, KernelHeap.ok_bind]
        dsimp only
        rw [hr₂ _ rfl, KernelHeap.ok_bind]
        rfl
      · intro s hs
        exact ⟨_, hr₁ s hs, hr₂ _ rfl⟩
    · refine .inr ⟨?_, ?_⟩
      · cases count_two (by decide) hi with
        | inl hi =>
          have hi' : u₁.freeBlocks 0 < 2 := hi
          omega
        | inr hi =>
          have hi' : u₁.freeBlocks 1 < 1 := hi
          omega
      · intro s hs hheld
        unfold createLocks lockCreate cvCreate
        rw [hr₁ s hs, KernelHeap.ok_bind]
        dsimp only
        rw [hdead { s with heap := u₁ } rfl hheld]
        rfl
  · refine .inr ⟨?_, ?_⟩
    · cases count_two (by decide) hi with
      | inl hi =>
        have hi' : u.freeBlocks 0 < 1 := hi
        omega
      | inr hi =>
        have hi' : u.freeBlocks 1 < 2 := hi
        omega
    · intro s hs hheld
      unfold createLocks lockCreate
      rw [hdead s hs hheld]
      rfl

/-- `pt_init` where the allocations find memory. -/
theorem Inv.ptInit (h : s.Inv v) (hn : n < 256) (hpc : s.heap.pc t = .idle) (hheld : s.held = false)
    (hmem : ∀ e, s.ptInit t = .error e → e.short = false) :
    (∃ s' pt, s.ptInit t = .ok (s', pt) ∧ s.EmptyTable s' pt) ↔ s.Ready t := by
  have heq := h.ptInit_eq hheld t
  obtain hlack | ⟨s₁, v₁, p, hk₁, hI₁, hret₁⟩ := h.kmalloc hn hpc hheld (h.small (Nat.le_refl _) (Nat.le_refl _) h)
  · -- no memory for the entries
    rw [hlack] at heq
    cases hmem _ heq
  have hheld₁ : s₁.held = false := hret₁.held.trans hheld
  rw [hk₁, KernelHeap.ok_bind] at heq
  dsimp only at heq
  rw [acquire_ok hheld₁, KernelHeap.ok_bind] at heq
  cases p with
  | none => cases hmem _ heq
  | some e =>
    dsimp only at heq
    obtain ⟨h0, h1, u, p, q, hserved, hlocks, hcreate⟩ | ⟨hfew, hdead⟩ :=
      createLocks_cases hI₁.heap hI₁.busy hret₁.idle
    · have hrel : release { ({ s₁ with held := true } : Boot n) with heap := u } = { s₁ with heap := u } :=
        release_eq (s := { s₁ with heap := u }) hheld₁
      obtain ⟨v₂, hinv₂, hbusy₂⟩ := hserved.inv
      have hI₂ : ({ s₁ with heap := u } : Boot n).Inv v₂ :=
        hI₁.setHeap hinv₂ hbusy₂ fun a m hr => hserved.keeps.runs ▸ hr
      have hpc₂ : u.pc t = .idle := by
        rw [hserved.keeps.pc]
        exact hret₁.idle
      rw [hlocks { s₁ with held := true } rfl, KernelHeap.ok_bind, hrel] at heq
      unfold createFlags at heq
      obtain hlack | ⟨s₃, v₃, r, hk₃, hI₃, hret₃⟩ := hI₂.kmalloc hn hpc₂ hheld₁
        (h.small (k := 4) (by decide) (Nat.le_refl s.frames) hI₂)
      · -- no memory for the flags
        rw [hlack] at heq
        cases hmem _ heq
      have hheld₃ : s₃.held = false := hret₃.held.trans hheld₁
      rw [hk₃, KernelHeap.ok_bind] at heq
      dsimp only at heq
      rw [acquire_ok hheld₃, KernelHeap.ok_bind] at heq
      cases r with
      | none => cases hmem _ heq
      | some c =>
        have hgives₁ := hret₁.gives e rfl
        have hgives₃ := hret₃.gives c rfl
        obtain ⟨m, hm⟩ := hgives₁.given
        obtain ⟨k, hk⟩ := hgives₃.given
        have hlive : u.live e = some ⟨s.frames * sizeofPtEntry, m⟩ := hserved.live e _ hm
        have hne : e ≠ c := by
          intro hec
          rw [hec, hgives₃.fresh] at hlive
          cases hlive
        have hfill := (hI₃.setHeld true).fillTable h (hret₃.ramsize.trans hret₁.ramsize)
          (Nat.le_trans hret₁.firstpaddr hret₃.firstpaddr) (fun x hx => hret₃.stolen x (hret₁.stolen x hx))
          (hgives₃.keeps hlive) hk hne
        have hframes : ({ s₃ with held := true } : Boot n).frames = s₃.frames := by
          rw [(hI₃.setHeld true).frames_eq, hI₃.frames_eq]
        rw [hframes] at hfill
        have halloc : s.allocations t = .ok (s₃, some e) := by
          obtain ⟨s₂, hl, hc⟩ := hcreate s₁ rfl
          unfold allocations
          dsimp only
          rw [hk₁, KernelHeap.ok_bind]
          dsimp only
          rw [hl, KernelHeap.ok_bind]
          dsimp only
          rw [hc, KernelHeap.ok_bind]
          dsimp only
          rw [hk₃]
          rfl
        constructor
        · intro hok
          obtain ⟨s', pt, hok, htable⟩ := hok
          rw [heq] at hok
          cases hok
          refine ⟨?_, ?_⟩
          · intro s₁' e' hk'
            rw [hk₁] at hk'
            cases hk'
            exact ⟨h0, h1⟩
          · intro s₄ e' halloc'
            rw [halloc] at halloc'
            cases halloc'
            exact hfill.1 htable
        · intro hready
          exact ⟨_, _, heq, hfill.2 (hready.2 s₃ e halloc)⟩
    · -- the lock is taken a second time
      rw [hdead { s₁ with held := true } rfl rfl] at heq
      constructor
      · intro hok
        obtain ⟨s', pt, hok, -⟩ := hok
        rw [heq] at hok
        cases hok
      · intro hready
        exact absurd (hready.1 s₁ _ hk₁) hfew

theorem gotPage_runs {u u' : KernelHeap n} (hw : (u.pc t).wants = some m) (hr : u.gotPage t a = .ok u') :
    u'.runs = Function.update u.runs a (some m) := by
  unfold KernelHeap.gotPage at hr
  cases hpc : u.pc t with
  | wantBig sz npages =>
    rw [hpc] at hr hw
    obtain ⟨-, -, hr⟩ := bind_ok.1 hr
    cases hr
    cases hw
    rfl
  | wantPage sz k =>
    rw [hpc] at hr hw
    obtain ⟨-, -, hr⟩ := bind_ok.1 hr
    cases hr
    cases hw
    rfl
  | wantRefs sz k b r j =>
    rw [hpc] at hr hw
    cases hr
    cases hw
    rfl
  | _ =>
    rw [hpc] at hw
    cases hw

theorem Inv.step (h : s.Inv v) (hn : n < 256) (hheld : s.held = false) (hstep : BootStep s act s') :
    s'.held = false ∧ ∃ v', s'.Inv v' := by
  cases hstep with
  | heap hact hstep =>
    obtain ⟨u, w, hu, hinv, hbusy, -⟩ := h.heap.exec h.busy hn hstep.1
    have he : Except.ok u = Except.ok _ := hu.symm.trans hstep.2
    cases he
    exact ⟨hheld, w, h.setHeap hinv hbusy fun _ _ => KernelHeap.exec_runs hact hu⟩
  | page hw hbound halloc hgot =>
    obtain hlack | ⟨hfits, hle⟩ := h.allocKpages hheld hbound
    · rw [hlack] at halloc
      cases halloc
    · rw [hfits] at halloc
      cases halloc
      obtain ⟨u, w, hu, hinv, hbusy, -⟩ := h.heap.gotPage h.busy hw (h.fresh hle)
      have he : Except.ok u = Except.ok _ := hu.symm.trans hgot
      cases he
      exact ⟨hheld, w, h.gotPage hle hinv hbusy (gotPage_runs hw hu)⟩

theorem bootstrap_inv {refs : Nat → PageRef} {mem : Nat → Nat} {ramsize : Nat} (halign : firstfree % pageSize = 0)
    (hlow : userStack < firstfree) (hfits : firstfree ≤ userStack + mainbusRamsize ramsize) :
    (ramBootstrap (KernelHeap.boot n refs mem) ramsize firstfree).Inv
      ⟨[], fun _ => [], fun _ => [], fun _ => (0, 0)⟩ := by
  have hle := mainbusRamsize_le ramsize
  have hlast : (ramBootstrap (KernelHeap.boot n refs mem) ramsize firstfree).lastpaddr = mainbusRamsize ramsize :=
    if_neg (by omega)
  have hfirst : (ramBootstrap (KernelHeap.boot n refs mem) ramsize firstfree).firstpaddr = firstfree - userStack := by
    show u32Sub firstfree userStack = _
    unfold u32Sub userStack at *
    omega
  constructor
  · exact KernelHeap.boot_inv n refs mem
  · nofun
  · rw [hfirst]
    unfold pageSize userStack at *
    omega
  · rw [hfirst]
    omega
  · rw [hfirst, hlast]
    omega
  · exact hlast
  · nofun
  · nofun

theorem run_inv {refs : Nat → PageRef} {mem : Nat → Nat} {ramsize : Nat} (hn : n < 256)
    (halign : firstfree % pageSize = 0) (hlow : userStack < firstfree) (hfits : firstfree ≤ userStack + mainbusRamsize ramsize)
    (hrun : Run BootStep (ramBootstrap (KernelHeap.boot n refs mem) ramsize firstfree) tr s) :
    s.held = false ∧ ∃ v, s.Inv v := by
  apply hrun.invariant (P := fun s => s.held = false ∧ ∃ v, s.Inv v)
  · exact ⟨rfl, _, bootstrap_inv halign hlow hfits⟩
  · intro u act w hu hstep
    obtain ⟨hheld, v, hinv⟩ := hu
    exact hinv.step hn hheld hstep

end Boot

/-- The thread that boots the kernel is the only one when it calls `pt_init`. Whatever it has
allocated and freed before, where the allocations of `pt_init` find memory it leaves an empty table
if and only if the heap has the blocks for the lock and the condition variable and no stale word
marks a frame. -/
theorem pt_init_empty_table {s : Boot 1} {refs : Nat → PageRef} {mem : Nat → Nat}
    (halign : firstfree % pageSize = 0) (hlow : userStack < firstfree)
    (hfits : firstfree ≤ userStack + mainbusRamsize ramsize)
    (hrun : Run BootStep (Boot.ramBootstrap (KernelHeap.boot 1 refs mem) ramsize firstfree) tr s)
    (hpc : s.heap.pc 0 = .idle) (hmem : ∀ e, s.ptInit 0 = .error e → e.short = false) :
    (∃ s' pt, s.ptInit 0 = .ok (s', pt) ∧ s.EmptyTable s' pt) ↔ s.Ready 0 := by
  obtain ⟨hheld, v, hinv⟩ := Boot.run_inv (by decide) halign hlow hfits hrun
  exact hinv.ptInit (by decide) hpc hheld hmem

/-- A megabyte of RAM, of which the kernel has the first 192 kilobytes. -/
def smallBoot (mem : Nat → Nat) : Boot 1 :=
  Boot.ramBootstrap (KernelHeap.boot 1 (fun _ => ⟨0, 0, 0⟩) mem) 0x100000 0x80030000

/-- Calls of `kmalloc` with the given sizes. -/
def Boot.kmallocs (s : Boot n) (t : Fin n) : List Nat → Except BootStop (Boot n)
  | [] => .ok s
  | sz :: l => do
    let (s, _) ← s.kmalloc t sz
    s.kmallocs t l

theorem Boot.lift_eq_ok {x : Except HeapStop α} (h : Boot.lift x = .ok y) : x = .ok y := by
  cases x with
  | ok x =>
    cases h
    rfl
  | error e => cases h

theorem BootStep.resume {s : Boot n} {u : KernelHeap n} (h : s.heap.resume t = .ok u) :
    BootStep s (.heap (.resume t)) { s with heap := u } :=
  .heap (fun _ _ he => nomatch he) ⟨trivial, h⟩

theorem BootStep.kmalloc {s : Boot n} {u : KernelHeap n} (hpre : (HeapAct.kmalloc t sz).Pre s.heap)
    (h : s.heap.kmalloc t sz = .ok u) : BootStep s (.heap (.kmalloc t sz)) { s with heap := u } :=
  .heap (fun _ _ he => nomatch he) ⟨hpre, h⟩

namespace Boot
variable {n : Nat} {s s' : Boot n} {v : HeapView}

theorem newPage_run {u : KernelHeap n} (hheld : s.held = false) (hgot : s.heap.gotPage t a = .ok u)
    (hbound : s.firstpaddr + pageSize < 4294967296) (hr : s.newPage t k a = .ok (s', p)) :
    ∃ tr, Run BootStep { s with heap := u } tr s' := by
  unfold newPage at hr
  rw [hgot, lift_ok, KernelHeap.ok_bind] at hr
  obtain ⟨u₁, hres, hr⟩ := bind_ok.1 hr
  have hrun := Run.single (BootStep.resume (s := { s with heap := u }) (lift_eq_ok hres))
  split at hr
  · rename_i sz k' b r j hpc
    obtain ⟨⟨s₁, va⟩, halloc, hr⟩ := bind_ok.1 hr
    obtain ⟨u₂, hgot₂, hr⟩ := bind_ok.1 hr
    obtain ⟨u₃, hres₂, hr⟩ := bind_ok.1 hr
    cases hr
    have hwants : (u₁.pc t).wants = some 1 := congrArg HeapPc.wants hpc
    have hone : s.firstpaddr + 1 * pageSize < 4294967296 := by omega
    have hpage := hrun.snoc (.page hwants hone halloc (lift_eq_ok hgot₂))
    exact ⟨_, hpage.snoc (.resume (lift_eq_ok hres₂))⟩
  · obtain ⟨s₁, hfree, hr⟩ := bind_ok.1 hr
    obtain ⟨u₂, hres₂, hr⟩ := bind_ok.1 hr
    cases hr
    have hs₁ : s₁ = { s with heap := u₁ } := by
      unfold freeKpages at hfree
      rw [acquire_ok (s := { s with heap := u₁ }) hheld, KernelHeap.ok_bind] at hfree
      cases hfree
      exact release_eq (s := { s with heap := u₁ }) hheld
    subst hs₁
    exact ⟨_, hrun.snoc (.resume (lift_eq_ok hres₂))⟩
  · cases hr
    exact ⟨_, hrun⟩

theorem Inv.kmalloc_run (h : s.Inv v) (hpc : s.heap.pc t = .idle) (hheld : s.held = false)
    (hsmall : sz < largestSubpageSize) (hr : s.kmalloc t sz = .ok (s', p)) : ∃ tr, Run BootStep s tr s' := by
  have htop := h.top
  have hpre : (HeapAct.kmalloc t sz).Pre s.heap := by
    refine ⟨hpc, ?_⟩
    unfold largestSubpageSize at hsmall
    unfold pageSize
    omega
  obtain ⟨k, hk, -, -⟩ := KernelHeap.blocktype_ok (Nat.le_of_lt hsmall)
  cases Nat.eq_zero_or_pos (s.heap.freeBlocks k) with
  | inr hfree =>
    obtain ⟨u, w, b, hu, -, -, -, hkeeps, -, -⟩ := h.heap.kmalloc_free h.busy hpc hsmall hk hfree
    rw [kmalloc_eq hu (by rw [hkeeps.pc, hpc]) hk] at hr
    cases hr
    exact ⟨_, .single (.kmalloc hpre hu)⟩
  | inl hfree =>
    have hkm := h.heap.kmalloc_full (t := t) hsmall hk hfree
    have hpc' : (s.heap.goto t (.wantPage sz k)).pc t = .wantPage sz k := Function.update_self ..
    have hrun := Run.single (BootStep.kmalloc hpre hkm)
    unfold Boot.kmalloc at hr
    rw [hkm, lift_ok, KernelHeap.ok_bind, hpc'] at hr
    obtain ⟨⟨s₁, a⟩, halloc, hr⟩ := bind_ok.1 hr
    have hone : s.firstpaddr + 1 * pageSize < 4294967296 := by
      unfold pageSize
      omega
    obtain ⟨u, w, hu, hinv, hbusy, -⟩ := h.heap.kmalloc h.busy hpc sz
    rw [hkm] at hu
    cases hu
    have hI : ({ s with heap := s.heap.goto t (.wantPage sz k) } : Boot n).Inv w :=
      h.setHeap hinv hbusy fun _ _ hr => hr
    obtain hlack | ⟨hfits, hle⟩ := hI.allocKpages hheld hone
    · rw [hlack] at halloc
      cases halloc
    · rw [hfits] at halloc
      cases halloc
      have hgot := hr
      unfold newPage at hgot
      obtain ⟨u, hgot, -⟩ := bind_ok.1 hgot
      have hgot := lift_eq_ok hgot
      have hpage := hrun.snoc (.page (congrArg HeapPc.wants hpc') hone hfits hgot)
      obtain ⟨tr, hrest⟩ := newPage_run
        (s := Boot.stole { s with heap := s.heap.goto t (.wantPage sz k) } 1) hheld hgot (by
        show s.firstpaddr + 1 * pageSize + pageSize < 4294967296
        unfold pageSize
        omega) hr
      exact ⟨_, hpage.append hrest⟩

theorem Inv.kmallocs_run (h : s.Inv v) (hn : n < 256) (hpc : s.heap.pc t = .idle) (hheld : s.held = false)
    (hsmall : ∀ sz ∈ l, sz < largestSubpageSize) (hr : s.kmallocs t l = .ok s') :
    s'.heap.pc t = .idle ∧ ∃ tr, Run BootStep s tr s' := by
  induction l generalizing s v with
  | nil =>
    cases hr
    exact ⟨hpc, [], .nil _⟩
  | cons sz l ih =>
    have hsz := hsmall sz List.mem_cons_self
    have htop := h.top
    unfold kmallocs at hr
    obtain ⟨⟨s₁, p⟩, hk, hr⟩ := bind_ok.1 hr
    obtain ⟨tr, hrun⟩ := h.kmalloc_run hpc hheld hsz hk
    have hfit : s.firstpaddr + sz + pageSize < 4294967296 := by
      unfold largestSubpageSize at hsz
      unfold pageSize
      omega
    obtain hlack | ⟨s₂, v₂, q, hk₂, hI, hret⟩ := h.kmalloc hn hpc hheld hfit
    · rw [hlack] at hk
      cases hk
    · rw [hk₂] at hk
      cases hk
      obtain ⟨hidle, tr', hrest⟩ := ih hI hret.idle (hret.held.trans hheld)
        (fun x hx => hsmall x (List.mem_cons_of_mem sz hx)) hr
      exact ⟨hidle, _, hrun.append hrest⟩

end Boot

def Boot.readyTest (s : Boot n) (t : Fin n) : Bool :=
  (match s.kmalloc t (s.frames * sizeofPtEntry) with
  | .ok x => decide (3 ≤ x.1.heap.freeBlocks 0 ∧ 3 ≤ x.1.heap.freeBlocks 1)
  | .error _ => true) &&
  match s.allocations t with
  | .ok (s₄, some e) =>
    (List.range (s₄.frames - 1)).all fun i => s₄.heap.mem (e + sizeofPtEntry * i) != kmallocPage
  | _ => true

theorem Boot.ready_of_test {s : Boot n} (h : s.readyTest t = true) : s.Ready t := by
  unfold readyTest at h
  rw [Bool.and_eq_true] at h
  constructor
  · intro s₁ e hk
    have htest := h.1
    rw [hk] at htest
    exact of_decide_eq_true htest
  · intro s₄ e halloc i hi
    have htest := h.2
    rw [halloc] at htest
    have hone := List.all_eq_true.1 htest i (List.mem_range.2 (by omega))
    exact bne_iff_ne.1 hone

theorem smallBoot_run {s : Boot 1} {mem : Nat → Nat} (hsmall : ∀ sz ∈ l, sz < largestSubpageSize)
    (hk : (smallBoot mem).kmallocs 0 l = .ok s) :
    s.heap.pc 0 = .idle ∧ ∃ tr, Run BootStep (smallBoot mem) tr s := by
  have hinv : (smallBoot mem).Inv _ := Boot.bootstrap_inv (by decide) (by decide) (by decide)
  exact hinv.kmallocs_run (by decide) rfl rfl hsmall hk

/-- Two small blocks before `pt_init`, over RAM that holds zeros. -/
theorem pt_init_empty_table_small : ∃ s tr, Run BootStep (smallBoot fun _ => 0) tr s ∧ s.Ready 0 ∧
    ∃ s' pt, s.ptInit 0 = .ok (s', pt) ∧ s.EmptyTable s' pt := by
  have htest : (match (smallBoot fun _ => 0).kmallocs 0 [16, 32] with
      | .ok s => s.readyTest 0 && (s.ptInit 0).isOk
      | .error _ => false) = true := by decide +kernel
  cases hk : (smallBoot fun _ => 0).kmallocs 0 [16, 32] with
  | error e =>
    rw [hk] at htest
    cases htest
  | ok s =>
    rw [hk] at htest
    obtain ⟨hready, hok⟩ := (Bool.and_eq_true ..).mp htest
    obtain ⟨hpc, tr, hrun⟩ := smallBoot_run (by decide) hk
    have hready := Boot.ready_of_test hready
    refine ⟨s, tr, hrun, hready, ?_⟩
    refine (pt_init_empty_table (by decide) (by decide) (by decide) hrun hpc ?_).2 hready
    intro e he
    rw [he] at hok
    cases hok

/-- With one block of 16 bytes before it, `pt_init` takes `stealmem_lock` twice; over RAM that holds
ones, `findspace` does not take the first frame of its table. -/
theorem pt_init_table_unusable :
    (∃ s tr, Run BootStep (smallBoot fun _ => 0) tr s ∧ s.heap.pc 0 = .idle ∧
      s.ptInit 0 = .error .deadlock) ∧
    ∃ s tr, Run BootStep (smallBoot fun _ => 1) tr s ∧ s.heap.pc 0 = .idle ∧
      ∃ s' pt, s.ptInit 0 = .ok (s', pt) ∧ ((s'.pageTable pt).entries 0).isSpace = false ∧
        ¬ s.EmptyTable s' pt := by
  constructor
  · have htest : (match (smallBoot fun _ => 0).kmallocs 0 [16] with
        | .ok s => (match s.ptInit 0 with | .error e => e == .deadlock | .ok _ => false)
        | .error _ => false) = true := by decide +kernel
    cases hk : (smallBoot fun _ => 0).kmallocs 0 [16] with
    | error e =>
      rw [hk] at htest
      cases htest
    | ok s =>
      rw [hk] at htest
      obtain ⟨hpc, tr, hrun⟩ := smallBoot_run (by decide) hk
      refine ⟨s, tr, hrun, hpc, ?_⟩
      dsimp only at htest
      split at htest
      · rename_i e he
        rw [he, beq_iff_eq.1 htest]
      · cases htest
  · have htest : (match (smallBoot fun _ => 1).kmallocs 0 [16, 32] with
        | .ok s => (match s.ptInit 0 with
          | .ok (s', pt) => !((s'.pageTable pt).entries 0).isSpace && decide (0 < (s'.pageTable pt).nEntry)
          | .error _ => false)
        | .error _ => false) = true := by decide +kernel
    cases hk : (smallBoot fun _ => 1).kmallocs 0 [16, 32] with
    | error e =>
      rw [hk] at htest
      cases htest
    | ok s =>
      rw [hk] at htest
      obtain ⟨hpc, tr, hrun⟩ := smallBoot_run (by decide) hk
      refine ⟨s, tr, hrun, hpc, ?_⟩
      dsimp only at htest
      split at htest
      · rename_i s' pt hok
        obtain ⟨hno, hpos⟩ := (Bool.and_eq_true ..).mp htest
        rw [Bool.not_eq_true'] at hno
        refine ⟨s', pt, hok, hno, ?_⟩
        intro htable
        have hspace := htable.space 0 (of_decide_eq_true hpos)
        rw [hno] at hspace
        cases hspace
      · cases htest

end Clape
