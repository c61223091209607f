import Clape.KernelHeapInvariant

namespace Clape
set_option autoImplicit true

namespace KernelHeap
variable {n : Nat} {s : KernelHeap n} {v : HeapView}

theorem place_page (hpr : pr ∈ v.all) : s.place v (.page pr) = some (s.refs pr).pageaddr := if_pos hpr

theorem slots_page (hpr : pr ∈ v.all) : s.slots v (.page pr) = some (v.slot pr) := if_pos hpr

/-- A block of a page of the heap, free or in use, or a block of whole pages. -/
def Cell (s : KernelHeap n) (v : HeapView) (x m : Nat) : Prop :=
  (∃ pr ∈ v.all, IsBlock (s.refs pr).pageaddr (s.refs pr).blocktype x ∧
    m = blockSize (s.refs pr).blocktype) ∨
  ∃ k, s.runs x = some k ∧ s.place v (.big x) = some x ∧ m = k * pageSize

namespace Inv

theorem pageRun (h : s.Inv v) (hpr : pr ∈ v.all) : s.runs (s.refs pr).pageaddr = some 1 :=
  h.runs.single (.page pr) _ trivial (place_page hpr)

theorem pages_apart (h : s.Inv v) (hp : pr ∈ v.all) (hq : qr ∈ v.all) (hne : pr ≠ qr) :
    (s.refs pr).pageaddr + pageSize ≤ (s.refs qr).pageaddr ∨
      (s.refs qr).pageaddr + pageSize ≤ (s.refs pr).pageaddr := by
  have hpq : (s.refs pr).pageaddr ≠ (s.refs qr).pageaddr := by
    apply h.runs.owned.ne (place_page hp) (place_page hq)
    intro he
    cases he
    exact hne rfl
  have hap := h.runs.apart _ _ _ _ (h.pageRun hp) (h.pageRun hq) hpq
  rwa [Nat.one_mul] at hap

theorem page_unique (h : s.Inv v) (hp : pr ∈ v.all) (hq : qr ∈ v.all)
    (hx : (s.refs pr).pageaddr ≤ x ∧ x < (s.refs pr).pageaddr + pageSize)
    (hx' : (s.refs qr).pageaddr ≤ x ∧ x < (s.refs qr).pageaddr + pageSize) : pr = qr := by
  by_contra hne
  have := h.pages_apart hp hq hne
  omega

theorem page_big_apart (h : s.Inv v) (hp : pr ∈ v.all) (hr : s.runs x = some k)
    (hb : s.place v (.big x) = some x) :
    (s.refs pr).pageaddr + pageSize ≤ x ∨ x + k * pageSize ≤ (s.refs pr).pageaddr := by
  have hne : (s.refs pr).pageaddr ≠ x := h.runs.owned.ne (place_page hp) hb nofun
  have hap := h.runs.apart _ _ _ _ (h.pageRun hp) hr hne
  rwa [Nat.one_mul] at hap

theorem cells_apart (h : s.Inv v) (hx : s.Cell v x m) (hy : s.Cell v y k) (hne : x ≠ y) :
    x + m ≤ y ∨ y + k ≤ x := by
  obtain ⟨pr, hp, hbx, rfl⟩ | ⟨i, hrx, hox, rfl⟩ := hx
  · have hix := hbx.bounds (h.pages.page pr hp).type
    obtain ⟨qr, hq, hby, rfl⟩ | ⟨j, hry, hoy, rfl⟩ := hy
    · have hiy := hby.bounds (h.pages.page qr hq).type
      by_cases hpq : pr = qr
      · subst hpq
        exact hbx.apart hby hne
      · have := h.pages_apart hp hq hpq
        omega
    · have := h.page_big_apart hp hry hoy
      omega
  · obtain ⟨qr, hq, hby, rfl⟩ | ⟨j, hry, hoy, rfl⟩ := hy
    · have hiy := hby.bounds (h.pages.page qr hq).type
      have := h.page_big_apart hq hrx hox
      omega
    · exact h.runs.apart _ _ _ _ hrx hry hne

theorem live_cell (h : s.Inv v) (hp : s.live p = some b) : s.Cell v p b.size := by
  obtain ⟨-, hsub | ⟨m, hm, hpos, hsize⟩⟩ := h.blocks p b hp
  · exact .inl hsub
  · refine .inr ⟨m, hm, ?_, hsize⟩
    have hle : pageSize ≤ b.size := by
      rw [hsize]
      exact Nat.le_mul_of_pos_left _ hpos
    show bigRun s.live p = some p
    unfold bigRun
    rw [hp]
    exact if_pos hle

theorem live_size (h : s.Inv v) (hp : s.live p = some b) : 0 < b.size := by
  obtain ⟨-, ⟨pr, hpr, -, hsize⟩ | ⟨m, -, hpos, hsize⟩⟩ := h.blocks p b hp
  · have := (blockSize_facts (h.pages.page pr hpr).type).1
    omega
  · rw [hsize]
    exact Nat.mul_pos hpos (by decide)

theorem free_cell (h : s.Inv v) (hp : pr ∈ v.all) (hb : b ∈ v.free pr) :
    s.Cell v b (blockSize (s.refs pr).blocktype) :=
  .inl ⟨pr, hp, (h.pages.page pr hp).block b hb, rfl⟩

/-- The users of the blocks do not write to a free block. -/
theorem free_not_inLive (h : s.Inv v) (hp : pr ∈ v.all) (hb : b ∈ v.free pr) : ¬ s.InLive b := by
  rintro ⟨p, blk, hlive, hle, hlt⟩
  by_cases hpb : p = b
  · subst hpb
    rw [(h.pages.page pr hp).free p hb] at hlive
    cases hlive
  · have hpos := (blockSize_facts (h.pages.page pr hp).type).1
    have := h.cells_apart (h.live_cell hlive) (h.free_cell hp hb) hpb
    omega

theorem free_inRun (h : s.Inv v) (hp : pr ∈ v.all) (hb : b ∈ v.free pr) : s.InRun b := by
  have hok := h.pages.page pr hp
  have hbd := (hok.block b hb).bounds hok.type
  have hpos := (blockSize_facts hok.type).1
  exact ⟨_, 1, h.pageRun hp, hbd.1, by omega⟩

end Inv

end KernelHeap

theorem PageOk.congr {ref : PageRef} (h : PageOk ref mem live F) (hm : ∀ b ∈ F, mem' b = mem b)
    (hl : ∀ b, IsBlock ref.pageaddr ref.blocktype b → live' b = live b) : PageOk ref mem' live' F where
  type := h.type
  chain := by
    apply h.chain.congr
    intro b hb
    unfold link
    rw [hm b hb]
  nodup := h.nodup
  count := h.count
  block := h.block
  free b hb := (hl b (h.block b hb)).trans (h.free b hb)
  used b hb hF := by
    rw [hl b hb]
    exact h.used b hb hF

theorem HeapPages.change {refs : Nat → PageRef} (h : HeapPages refs l z mem live v)
    (hpab : ref.pab = (refs pr).pab) (hok : PageOk ref mem' live' F)
    (ho : ∀ qr ∈ v.all, qr ≠ pr → PageOk (refs qr) mem' live' (v.free qr)) :
    HeapPages (Function.update refs pr ref) l z mem' live'
      { v with free := Function.update v.free pr F } where
  all := h.all
  sized := h.sized
  typed k qr := by
    have htype : (Function.update refs pr ref qr).blocktype = (refs qr).blocktype := by
      by_cases hq : qr = pr
      · subst hq
        rw [Function.update_self]
        unfold PageRef.blocktype
        rw [hpab]
      · rw [Function.update_of_ne hq]
    rw [htype]
    exact h.typed k qr
  page qr hqr := by
    by_cases hq : qr = pr
    · subst hq
      simp only [Function.update_self]
      exact hok
    · simp only [Function.update_of_ne hq]
      exact ho qr hqr hq

namespace KernelHeap
variable {n : Nat} {s : KernelHeap n} {v : HeapView}

theorem pab_update {refs : Nat → PageRef} (hpab : ref.pab = (refs pr).pab) (qr : Nat) :
    (Function.update refs pr ref qr).pageaddr = (refs qr).pageaddr ∧
      (Function.update refs pr ref qr).blocktype = (refs qr).blocktype := by
  unfold PageRef.pageaddr PageRef.blocktype
  by_cases hq : qr = pr
  · subst hq
    rw [Function.update_self, hpab]
    exact ⟨rfl, rfl⟩
  · rw [Function.update_of_ne hq]
    exact ⟨rfl, rfl⟩

theorem Inv.change (h : s.Inv v) (hpab : ref.pab = (s.refs pr).pab) (hok : PageOk ref mem' live' F)
    (ho : ∀ qr ∈ v.all, qr ≠ pr → PageOk (s.refs qr) mem' live' (v.free qr))
    (hbig : ∀ p, bigRun live' p = bigRun s.live p)
    (hblocks : ∀ p b, live' p = some b → s.live p = some b ∨ pr ∈ v.all ∧ b.sz ≤ b.size ∧
      IsBlock (s.refs pr).pageaddr (s.refs pr).blocktype p ∧ b.size = blockSize (s.refs pr).blocktype) :
    ({ s with refs := Function.update s.refs pr ref, mem := mem', live := live' } : KernelHeap n).Inv
      { v with free := Function.update v.free pr F } where
  pages := h.pages.change hpab hok ho
  runs := by
    have hplace : place { s with refs := Function.update s.refs pr ref, mem := mem', live := live' }
        { v with free := Function.update v.free pr F } = s.place v := by
      funext o
      cases o with
      | page qr =>
        show (if qr ∈ v.all then some (Function.update s.refs pr ref qr).pageaddr else none) = _
        rw [(pab_update hpab qr).1]
        rfl
      | big p => exact hbig p
      | _ => rfl
    rw [hplace]
    exact h.runs
  marks := h.marks
  located := h.located
  blocks p b hp := by
    have hlive := hblocks p b hp
    simp only [(pab_update hpab _).1, (pab_update hpab _).2]
    cases hlive with
    | inl hlive => exact h.blocks p b hlive
    | inr hlive =>
      obtain ⟨hpr, hsz, hblk, hsize⟩ := hlive
      exact ⟨hsz, .inl ⟨pr, hpr, hblk, hsize⟩⟩
  threads := h.threads

theorem nextOffset_ok {ref : PageRef} {mem : Nat → Nat} {live : Nat → Option HeapBlock}
    (h : PageOk ref mem live (b :: F)) (ha : 0 < ref.pageaddr)
    (hb : ref.pageaddr + pageSize < 4294967296) :
    ∃ offset, nextOffset ref.pageaddr (mem b) F.length = .ok offset ∧
      ({ ref with freelistOffset := offset, nfree := m } : PageRef).first = link mem b := by
  have hchain := h.chain.2
  cases F with
  | nil =>
    have hz : mem b = 0 := by
      by_contra hne
      unfold link at hchain
      rw [if_neg hne] at hchain
      cases hchain
    refine ⟨invalidOffset, ?_, ?_⟩
    · rw [hz]
      rfl
    · unfold link
      rw [if_pos hz]
      rfl
  | cons c F =>
    have hbd := (h.block c (by simp)).bounds h.type
    have hpos := (blockSize_facts h.type).1
    obtain ⟨hne, hc⟩ : mem b ≠ 0 ∧ mem b = c := by
      have hlink := hchain.1
      unfold link at hlink
      split at hlink
      · cases hlink
      · rename_i hne
        exact ⟨hne, Option.some.inj hlink⟩
    have hsub : u32Sub (mem b) ref.pageaddr = c - ref.pageaddr := by
      unfold u32Sub
      rw [hc]
      omega
    refine ⟨c - ref.pageaddr, ?_, ?_⟩
    · unfold nextOffset
      rw [if_pos hne, hsub]
      have h1 : decide (0 < (c :: F).length) = true := by simp
      have h2 : decide (c - ref.pageaddr < pageSize) = true := decide_eq_true (by omega)
      rw [h1, h2]
      rfl
    · rw [hchain.1]
      have hval : c - ref.pageaddr ≠ invalidOffset := by
        unfold invalidOffset
        unfold pageSize at hbd
        omega
      have hadd : ref.pageaddr + (c - ref.pageaddr) = c := by omega
      unfold PageRef.first
      rw [if_neg hval]
      exact congrArg some hadd

/-- A block is handed out: it was not in use and is so now, and nothing else of this changes. -/
structure Gives (s s' : KernelHeap n) (sz b : Nat) : Prop where
  fresh : s.live b = none
  live : ∃ m, s'.live = Function.update s.live b (some ⟨sz, m⟩)

theorem Gives.keeps (h : Gives s s' sz b) (hp : s.live p = some c) : s'.live p = some c := by
  obtain ⟨m, hm⟩ := h.live
  have hne : p ≠ b := by
    intro he
    rw [he, h.fresh] at hp
    cases hp
  rw [hm, Function.update_of_ne hne]
  exact hp

theorem Gives.given (h : Gives s s' sz b) : ∃ m, s'.live b = some ⟨sz, m⟩ := by
  obtain ⟨m, hm⟩ := h.live
  exact ⟨m, by rw [hm, Function.update_self]⟩

/-- A thread has got a block, and its call ends. -/
structure Hands (s s' : KernelHeap n) (t : Fin n) (sz : Nat) : Prop where
  gives : ∃ b, Gives s s' sz b
  runs : s'.runs = s.runs
  pc : s'.pc = Function.update s.pc t .idle

/-- A part of `kmalloc`: the thread gets a block, goes on, or has found all pagerefs in use. -/
def Allocates (s s' : KernelHeap n) (t : Fin n) (sz : Nat) : Prop :=
  (∃ b, Gives s s' sz b) ∧ s'.pc = Function.update s.pc t .idle ∨
    s'.live = s.live ∧ ∃ pc, s'.pc = Function.update s.pc t pc ∧ (pc.asked = some sz ∨ ∃ a, pc = .noRef a)

theorem Hands.of_goto {u s' : KernelHeap n} {c : HeapPc} (h : Hands (u.goto t c) s' t sz) (hl : u.live = s.live)
    (hr : u.runs = s.runs) (hp : u.pc = s.pc) : Hands s s' t sz := by
  obtain ⟨⟨b, hfresh, m, hm⟩, hruns, hpc⟩ := h
  refine ⟨⟨b, hl ▸ hfresh, m, hl ▸ hm⟩, hruns.trans hr, ?_⟩
  rw [hpc, ← hp]
  exact Function.update_idem ..

theorem Hands.allocates (h : Hands s s' t sz) : Allocates s s' t sz := .inl ⟨h.gives, h.pc⟩

/-- `doalloc` takes the first free block of a page. -/
theorem Inv.doalloc (h : s.Inv v) (hpr : pr ∈ v.all) (hF : v.free pr = b :: F) (ht : s.pc t = .idle)
    (hsz : sz ≤ blockSize (s.refs pr).blocktype)
    (hbusy : ∀ qr ∈ v.all, qr ≠ pr → (v.free qr).length < blocksPerPage (s.refs qr).blocktype) :
    ∃ s' v', s.doalloc t sz pr = .ok s' ∧ s'.Inv v' ∧ s'.Busy v' ∧ Hands s s' t sz := by
  have hok := h.pages.page pr hpr
  rw [hF] at hok
  have hrun := h.pageRun hpr
  obtain ⟨-, ha, htop⟩ := h.runs.bounds _ _ hrun
  rw [Nat.one_mul] at htop
  have hbd := (hok.block b List.mem_cons_self).bounds hok.type
  have hfacts := blockSize_facts hok.type
  have hlen : (b :: F).length ≤ blocksPerPage (s.refs pr).blocktype :=
    (blocks_length hok.nodup hok.block).1
  have hper : blocksPerPage (s.refs pr).blocktype ≤ pageSize := Nat.div_le_self ..
  have hcount := hok.count
  rw [List.length_cons] at hcount hlen
  -- the first free block and its offset
  obtain ⟨hvalid, hb⟩ : (s.refs pr).freelistOffset ≠ invalidOffset ∧
      b = (s.refs pr).pageaddr + (s.refs pr).freelistOffset := by
    have hfirst := hok.chain.1
    unfold PageRef.first at hfirst
    split at hfirst
    · cases hfirst
    · rename_i hne
      exact ⟨hne, (Option.some.inj hfirst).symm⟩
  have hnfree : ((s.refs pr).nfree + 65535) % 65536 = F.length := by
    unfold pageSize at hper
    omega
  obtain ⟨offset, hoff, hfirst⟩ := nextOffset_ok (m := F.length) hok ha htop
  have hnot := List.nodup_cons.1 hok.nodup
  refine ⟨{ s with
    refs := Function.update s.refs pr { s.refs pr with freelistOffset := offset, nfree := F.length }
    live := Function.update s.live b (some ⟨sz, blockSize (s.refs pr).blocktype⟩)
    pc := Function.update s.pc t .idle }, { v with free := Function.update v.free pr F }, ?_, ?_, ?_,
    ⟨b, hok.free b List.mem_cons_self, _, rfl⟩, rfl, rfl⟩
  · unfold KernelHeap.doalloc
    have hlt : decide ((s.refs pr).freelistOffset < pageSize) = true := decide_eq_true (by omega)
    dsimp only
    rw [hlt, ← hb, hnfree]
    simp only [kassert, if_true, bind, Except.bind, hoff]
    rfl
  · have hpc : Function.update s.pc t .idle = s.pc := by
      rw [← ht]
      exact Function.update_eq_self t s.pc
    rw [hpc]
    refine h.change rfl ?_ ?_ ?_ ?_
    · constructor
      · exact hok.type
      · rw [hfirst]
        exact hok.chain.2
      · exact hnot.2
      · rfl
      · exact fun c hc => hok.block c (List.mem_cons_of_mem b hc)
      · intro c hc
        have hne : c ≠ b := fun he => hnot.1 (he ▸ hc)
        rw [Function.update_of_ne hne]
        exact hok.free c (List.mem_cons_of_mem b hc)
      · intro c hc hcF
        by_cases hcb : c = b
        · rw [hcb, Function.update_self]
          exact ⟨sz, rfl⟩
        · rw [Function.update_of_ne hcb]
          exact hok.used c hc fun hm => (List.mem_cons.1 hm).elim hcb hcF
    · intro qr hqr hne
      apply (h.pages.page qr hqr).congr (fun _ _ => rfl)
      intro c hc
      apply Function.update_of_ne
      intro he
      subst he
      have hcd := hc.bounds (h.pages.page qr hqr).type
      have hpos := (blockSize_facts (h.pages.page qr hqr).type).1
      exact hne (h.page_unique hqr hpr ⟨hcd.1, by omega⟩ ⟨hbd.1, by omega⟩)
    · intro p
      unfold bigRun
      by_cases hp : p = b
      · subst hp
        rw [Function.update_self, hok.free p List.mem_cons_self]
        have hle : ¬ pageSize ≤ blockSize (s.refs pr).blocktype := by
          unfold pageSize
          omega
        exact if_neg hle
      · rw [Function.update_of_ne hp]
    · intro p blk hlive
      by_cases hp : p = b
      · subst hp
        rw [Function.update_self] at hlive
        cases hlive
        exact .inr ⟨hpr, hsz, hok.block p List.mem_cons_self, rfl⟩
      · rw [Function.update_of_ne hp] at hlive
        exact .inl hlive
  · intro qr hqr
    have hpab : ({ s.refs pr with freelistOffset := offset, nfree := F.length } : PageRef).pab =
        (s.refs pr).pab := rfl
    show (Function.update v.free pr F qr).length < _
    rw [(pab_update hpab qr).2]
    by_cases hq : qr = pr
    · rw [hq, Function.update_self]
      exact hlen
    · rw [Function.update_of_ne hq]
      exact hbusy qr hqr hq

/-- The loop that links the blocks of a new page leaves its free list, last block first. -/
theorem linkLoop (mem : Nat → Nat) (hk : k < 8) (ha : 0 < a) (i : Nat) :
    ∃ m : Nat → Nat,
      (List.range' 1 i).foldlM (fun (m : (Nat → Nat) × Nat) i => do
        kassert (a + i * blockSize k != a + (i - 1) * blockSize k) .subpageKmalloc
        return (Function.update m.1 (a + i * blockSize k) (a + (i - 1) * blockSize k), a + i * blockSize k))
        (Function.update mem a 0, a) = .ok (m, a + i * blockSize k) ∧
      Chain (link m) (some (a + i * blockSize k))
        ((List.range (i + 1)).map fun j => a + j * blockSize k).reverse ∧
      ∀ x, (∀ j ≤ i, x ≠ a + j * blockSize k) → m x = mem x := by
  have hpos := (blockSize_facts hk).1
  induction i with
  | zero =>
    refine ⟨Function.update mem a 0, ?_, ?_, ?_⟩
    · rw [Nat.zero_mul]
      rfl
    · refine ⟨by simp, ?_⟩
      show link (Function.update mem a 0) (a + 0 * blockSize k) = none
      simp [link]
    · intro x hx
      apply Function.update_of_ne
      simpa using hx 0 (Nat.le_refl 0)
  | succ i ih =>
    obtain ⟨m, hm, hchain, hout⟩ := ih
    have hmul : (i + 1) * blockSize k = i * blockSize k + blockSize k := Nat.succ_mul ..
    refine ⟨Function.update m (a + (i + 1) * blockSize k) (a + i * blockSize k), ?_, ?_, ?_⟩
    · rw [List.range'_1_concat, List.foldlM_append, hm, Nat.add_comm 1 i]
      have hne : (a + (i + 1) * blockSize k != a + i * blockSize k) = true := by
        rw [bne_iff_ne]
        omega
      simp only [bind, Except.bind, List.foldlM_cons, List.foldlM_nil, Nat.add_sub_cancel, hne,
        kassert, if_true]
      rfl
    · rw [List.range_succ, List.map_append, List.reverse_append]
      refine ⟨rfl, ?_⟩
      have hlink : link (Function.update m (a + (i + 1) * blockSize k) (a + i * blockSize k))
          (a + (i + 1) * blockSize k) = some (a + i * blockSize k) := by
        unfold link
        rw [Function.update_self, if_neg (by omega)]
      rw [hlink]
      apply hchain.congr
      intro c hc
      unfold link
      rw [Function.update_of_ne]
      intro he
      rw [List.mem_reverse, List.mem_map] at hc
      obtain ⟨j, hj, rfl⟩ := hc
      have hle : j * blockSize k ≤ i * blockSize k :=
        Nat.mul_le_mul_right _ (Nat.le_of_lt_succ (List.mem_range.1 hj))
      omega
    · intro x hx
      rw [Function.update_of_ne (hx (i + 1) (Nat.le_refl _))]
      exact hout x fun j hj => hx j (Nat.le_succ_of_le hj)

theorem linkBlocks_ok (mem : Nat → Nat) (hk : k < 8) (ha : 0 < a) :
    ∃ m, linkBlocks mem a k = .ok (m, a + (blocksPerPage k - 1) * blockSize k) ∧
      Chain (link m) (some (a + (blocksPerPage k - 1) * blockSize k)) (pageBlocks a k).reverse ∧
      ∀ x, ¬ IsBlock a k x → m x = mem x := by
  obtain ⟨m, hm, hchain, hout⟩ := linkLoop mem hk ha (blocksPerPage k - 1)
  have htwo := (blockSize_facts hk).2.2.2
  have hsucc : blocksPerPage k - 1 + 1 = blocksPerPage k := by omega
  rw [hsucc] at hchain
  refine ⟨m, hm, hchain, ?_⟩
  intro x hx
  apply hout
  intro j hj he
  exact hx ⟨j, by omega, he⟩

@[simp] theorem idle_page : HeapPc.idle.page = none := rfl

@[simp] theorem idle_spare : HeapPc.idle.spare = none := rfl

@[simp] theorem idle_given : HeapPc.idle.given = none := rfl

@[simp] theorem idle_slot : HeapPc.idle.slot = none := rfl

theorem place_goto (s : KernelHeap n) (v : HeapView) (t : Fin n) (pc : HeapPc) (o : HeapOwner n) :
    (s.goto t pc).place v o =
      if o = .thread t then pc.page else if o = .spare t then pc.spare
      else if o = .given t then pc.given else s.place v o := by
  cases o with
  | thread u =>
    by_cases hu : u = t
    · subst hu
      simp [place, goto]
    · simp [place, goto, hu]
  | spare u =>
    by_cases hu : u = t
    · subst hu
      simp [place, goto]
    · simp [place, goto, hu]
  | given u =>
    by_cases hu : u = t
    · subst hu
      simp [place, goto]
    · simp [place, goto, hu]
  | _ => rfl

theorem slots_goto (s : KernelHeap n) (v : HeapView) (t : Fin n) (pc : HeapPc) (o : RefOwner n) :
    (s.goto t pc).slots v o = if o = .thread t then pc.slot else s.slots v o := by
  cases o with
  | thread u =>
    by_cases hu : u = t
    · subst hu
      simp [slots, goto]
    · simp [slots, goto, hu]
  | page pr => rfl

theorem threads_goto {roots : Nat → KheapRoot} (s : KernelHeap n) (t : Fin n) {pc : HeapPc}
    (h : ∀ u, u ≠ t → (s.pc u).Ok roots) (hpc : pc.Ok roots) (u : Fin n) :
    ((s.goto t pc).pc u).Ok roots := by
  by_cases hu : u = t
  · subst hu
    show (Function.update s.pc u pc u).Ok roots
    rw [Function.update_self]
    exact hpc
  · show (Function.update s.pc t pc u).Ok roots
    rw [Function.update_of_ne hu]
    exact h u hu

theorem Inv.goto {pc pc' : HeapPc} (h : s.Inv v) (hpc : s.pc t = pc') (hpage : pc.page = pc'.page)
    (hspare : pc.spare = pc'.spare) (hgiven : pc.given = pc'.given) (hslot : pc.slot = pc'.slot)
    (hok : pc.Ok s.roots) : (s.goto t pc).Inv v where
  pages := h.pages
  runs := by
    have hplace : (s.goto t pc).place v = s.place v := by
      funext o
      rw [place_goto, hpage, hspare, hgiven, ← hpc]
      split
      · subst o
        rfl
      · split
        · subst o
          rfl
        · split
          · subst o
            rfl
          · rfl
    rw [hplace]
    exact h.runs
  marks := by
    have hslots : (s.goto t pc).slots v = s.slots v := by
      funext o
      rw [slots_goto, hslot, ← hpc]
      split
      · subst o
        rfl
      · rfl
    rw [hslots]
    exact h.marks
  located := h.located
  blocks := h.blocks
  threads := threads_goto s t (fun u _ => h.threads u) hok

theorem Inv.rootRun (h : s.Inv v) (hr : r < numPagerefpages) (hpg : (s.roots r).page = some pg) :
    s.place v (.refs r) = some pg ∧ s.runs pg = some 1 := by
  have hplace : s.place v (.refs r) = some pg := (if_pos hr).trans hpg
  exact ⟨hplace, h.runs.single (.refs r) pg trivial hplace⟩

theorem Inv.slot_bounds (h : s.Inv v) (hx : s.slots v o = some (r, j)) :
    r < numPagerefpages ∧ j < npagerefsPerPage ∧ (s.roots r).marked j = true := by
  obtain ⟨hr, hj⟩ := h.marks.owned.marked_of hx
  rw [KheapRoot.marks, Finset.mem_filter, Finset.mem_range] at hj
  exact ⟨hr, hj.1, hj.2⟩

theorem Inv.refAddr_inj (h : s.Inv v) (hr : r < numPagerefpages) (hpg : (s.roots r).page = some pg)
    (hj : j < npagerefsPerPage) (hr' : r' < numPagerefpages) (hpg' : (s.roots r').page = some pg')
    (hj' : j' < npagerefsPerPage) (he : refAddr pg j = refAddr pg' j') : r = r' ∧ j = j' := by
  obtain ⟨hp, hrun⟩ := h.rootRun hr hpg
  obtain ⟨hp', hrun'⟩ := h.rootRun hr' hpg'
  unfold refAddr at he
  unfold npagerefsPerPage at hj hj'
  have hpp : pg = pg' := by
    by_contra hne
    have hap := h.runs.apart _ _ _ _ hrun hrun' hne
    unfold pageSize at hap
    omega
  subst hpp
  have hrr : (HeapOwner.refs r : HeapOwner n) = .refs r' := h.runs.owned.inj hp hp'
  cases hrr
  exact ⟨rfl, by omega⟩

theorem Inv.ref_fresh (h : s.Inv v) (hslot : (s.pc t).slot = some (r, j))
    (hpg : (s.roots r).page = some pg) : refAddr pg j ∉ v.all := by
  intro hmem
  have hthread : s.slots v (.thread t) = some (r, j) := hslot
  obtain ⟨hr, hj, -⟩ := h.slot_bounds hthread
  have hpage := slots_page (s := s) hmem
  obtain ⟨hr', hj', -⟩ := h.slot_bounds (r := (v.slot (refAddr pg j)).1) (j := (v.slot (refAddr pg j)).2) hpage
  obtain ⟨pg', hpg', he⟩ := h.located _ hmem
  obtain ⟨h1, h2⟩ := h.refAddr_inj hr hpg hj hr' hpg' hj' he
  have hsame : v.slot (refAddr pg j) = (r, j) := Prod.ext h1.symm h2.symm
  rw [hsame] at hpage
  cases h.marks.owned.inj hpage hthread

theorem Inv.thread_apart (h : s.Inv v) (ho : (s.pc t).page = some a) (hlive : s.live p = some b) :
    p + b.size ≤ a ∨ a + pageSize ≤ p := by
  have hplace : s.place v (.thread t) = some a := ho
  have hrun := h.runs.single (.thread t) a trivial hplace
  obtain ⟨pr, hpr, hblk, hsize⟩ | ⟨k, hk, hbig, hsize⟩ := h.live_cell hlive
  · have hne : a ≠ (s.refs pr).pageaddr := h.runs.owned.ne hplace (place_page hpr) nofun
    have hap := h.runs.apart _ _ _ _ hrun (h.pageRun hpr) hne
    have hbd := hblk.bounds (h.pages.page pr hpr).type
    omega
  · have hne : a ≠ p := h.runs.owned.ne hplace hbig nofun
    have hap := h.runs.apart _ _ _ _ hrun hk hne
    omega

theorem doalloc_goto (s : KernelHeap n) (t : Fin n) (pc : HeapPc) (sz pr : Nat) :
    (s.goto t pc).doalloc t sz pr = s.doalloc t sz pr := by
  unfold KernelHeap.doalloc goto
  simp only [Function.update_idem]

end KernelHeap

/-- A new page at the head of its lists. -/
def HeapView.push (v : HeapView) (k pr : Nat) (F : List Nat) (x : Nat × Nat) : HeapView where
  all := pr :: v.all
  sized := Function.update v.sized k (pr :: v.sized k)
  free := Function.update v.free pr F
  slot := Function.update v.slot pr x

theorem HeapPages.push {refs : Nat → PageRef} (h : HeapPages refs l z mem live v) (hpr : pr ∉ v.all)
    (hk : ref.blocktype = k) (hok : PageOk ref mem' live F)
    (ho : ∀ qr ∈ v.all, PageOk (refs qr) mem' live (v.free qr)) :
    HeapPages (Function.update refs pr ref) (l.push () pr) (z.push k pr) mem' live (v.push k pr F x) where
  all := by
    have hpush := h.all.push (k := ()) (c := pr) (fun _ => hpr)
    have hsame : Function.update (fun _ => v.all) () (pr :: v.all) = fun _ : Unit => pr :: v.all := by
      funext u
      exact Function.update_self ..
    rw [hsame] at hpush
    exact hpush
  sized := h.sized.push fun k' hm => hpr ((h.typed k' pr).1 hm).1
  typed k' qr := by
    show qr ∈ Function.update v.sized k (pr :: v.sized k) k' ↔ qr ∈ pr :: v.all ∧ _
    by_cases hq : qr = pr
    · subst hq
      rw [Function.update_self, hk]
      by_cases hkk : k' = k
      · subst hkk
        rw [Function.update_self]
        simp
      · rw [Function.update_of_ne hkk, h.typed]
        simp only [List.mem_cons, true_or, true_and]
        exact iff_of_false (fun hm => hpr hm.1) fun he => hkk he.symm
    · rw [Function.update_of_ne hq, List.mem_cons, or_iff_right hq, ← h.typed]
      by_cases hkk : k' = k
      · subst hkk
        rw [Function.update_self, List.mem_cons, or_iff_right hq]
      · rw [Function.update_of_ne hkk]
  page qr hqr := by
    show PageOk (Function.update refs pr ref qr) mem' live (Function.update v.free pr F qr)
    by_cases hq : qr = pr
    · subst hq
      rw [Function.update_self, Function.update_self]
      exact hok
    · rw [Function.update_of_ne hq, Function.update_of_ne hq]
      exact ho qr ((List.mem_cons.1 hqr).resolve_left hq)

namespace KernelHeap
variable {n : Nat} {s : KernelHeap n} {v : HeapView}

/-- A page of a thread becomes a page of the heap with all its blocks free. -/
theorem Inv.newPage {ref : PageRef} (h : s.Inv v) (hpage : (s.pc t).page = some a)
    (hspare : (s.pc t).spare = none) (hgiven : (s.pc t).given = none)
    (hslot : (s.pc t).slot = some (r, j)) (hpg : (s.roots r).page = some pg)
    (ha : ref.pageaddr = a) (hb : ref.blocktype = k) (hok : PageOk ref m s.live F)
    (hm : ∀ x, x < a ∨ a + pageSize ≤ x → m x = s.mem x) :
    (KernelHeap.goto { s with
      mem := m
      refs := Function.update s.refs (refAddr pg j) ref
      sized := s.sized.push k (refAddr pg j)
      all := s.all.push () (refAddr pg j) } t .idle).Inv (v.push k (refAddr pg j) F (r, j)) := by
  have hfresh := h.ref_fresh hslot hpg
  have hplace : s.place v (.thread t) = some a := hpage
  have hrun := h.runs.single (.thread t) a trivial hplace
  generalize hpr : refAddr pg j = pr at hfresh ⊢
  have hother : ∀ qr ∈ v.all, Function.update s.refs pr ref qr = s.refs qr := by
    intro qr hqr
    apply Function.update_of_ne
    intro he
    exact hfresh (he ▸ hqr)
  have hnone : s.place v (.page pr) = none := if_neg hfresh
  -- the owners after the step
  have hplaces : ∀ o, (KernelHeap.goto { s with
      mem := m
      refs := Function.update s.refs pr ref
      sized := s.sized.push k pr
      all := s.all.push () pr } t .idle).place (v.push k pr F (r, j)) o =
      if o = .thread t then none else if o = .page pr then some a else s.place v o := by
    intro o
    rw [place_goto]
    cases o with
    | page qr =>
      by_cases hq : qr = pr
      · subst hq
        simp [place, HeapView.push, ha]
      · simp [place, HeapView.push, hq]
    | thread u => by_cases hu : u = t <;> simp [hu, place]
    | spare u =>
      by_cases hu : u = t
      · subst hu
        simp [place, hspare]
      · simp [hu, place]
    | given u =>
      by_cases hu : u = t
      · subst hu
        simp [place, hgiven]
      · simp [hu, place]
    | refs r' => simp [place]
    | big p => simp [place]
  constructor
  · refine h.pages.push hfresh hb hok ?_
    intro qr hqr
    have hqok := h.pages.page qr hqr
    apply hqok.congr _ fun _ _ => rfl
    intro b hbm
    have hbd := (hqok.block b hbm).bounds hqok.type
    have hpos := (blockSize_facts hqok.type).1
    have hne : a ≠ (s.refs qr).pageaddr := h.runs.owned.ne hplace (place_page hqr) nofun
    have hap := h.runs.apart _ _ _ _ hrun (h.pageRun hqr) hne
    apply hm
    omega
  · exact h.runs.move hplace hnone (fun _ => hrun) hplaces
  · constructor
    · have hthread : s.slots v (.thread t) = some (r, j) := hslot
      have hnone' : s.slots v (.page pr) = none := if_neg hfresh
      apply h.marks.owned.move hthread hnone'
      intro o
      rw [slots_goto]
      cases o with
      | page qr =>
        by_cases hq : qr = pr
        · subst hq
          simp [slots, HeapView.push]
        · simp [slots, HeapView.push, hq]
      | thread u => by_cases hu : u = t <;> simp [hu, slots]
    · exact h.marks.count
    · exact h.marks.order
  · intro qr hqr
    by_cases hq : qr = pr
    · subst hq
      refine ⟨pg, ?_, ?_⟩
      · show (s.roots (Function.update v.slot qr (r, j) qr).1).page = some pg
        rw [Function.update_self]
        exact hpg
      · show qr = refAddr pg (Function.update v.slot qr (r, j) qr).2
        rw [Function.update_self]
        exact hpr.symm
    · obtain ⟨page, h1, h2⟩ := h.located qr ((List.mem_cons.1 hqr).resolve_left hq)
      refine ⟨page, ?_, ?_⟩
      · show (s.roots (Function.update v.slot pr (r, j) qr).1).page = some page
        rw [Function.update_of_ne hq]
        exact h1
      · show qr = refAddr page (Function.update v.slot pr (r, j) qr).2
        rw [Function.update_of_ne hq]
        exact h2
  · intro p b hlive
    obtain ⟨hsz, hsub | hbig⟩ := h.blocks p b hlive
    · obtain ⟨qr, hqr, hblk⟩ := hsub
      refine ⟨hsz, .inl ⟨qr, List.mem_cons_of_mem _ hqr, ?_⟩⟩
      show IsBlock (Function.update s.refs pr ref qr).pageaddr
        (Function.update s.refs pr ref qr).blocktype p ∧
        b.size = blockSize (Function.update s.refs pr ref qr).blocktype
      rw [hother qr hqr]
      exact hblk
    · exact ⟨hsz, .inr hbig⟩
  · exact threads_goto _ t (fun u _ => h.threads u) trivial

theorem mkPab_facts (ha : a % pageSize = 0) (hk : k < 8) (offset nfree : Nat) :
    (⟨mkPab a k, offset, nfree⟩ : PageRef).pageaddr = a ∧
      (⟨mkPab a k, offset, nfree⟩ : PageRef).blocktype = k := by
  unfold PageRef.pageaddr PageRef.blocktype mkPab
  unfold pageSize at *
  dsimp only
  omega

theorem addPage_goto (s : KernelHeap n) (t : Fin n) (pc : HeapPc) (sz k a pr : Nat) :
    (s.goto t pc).addPage t sz k a pr = s.addPage t sz k a pr := by
  unfold KernelHeap.addPage
  show (linkBlocks s.mem a k >>= fun m => kassert _ _ >>= fun _ =>
    (KernelHeap.goto { s with
      mem := m.1
      refs := Function.update s.refs pr ⟨mkPab a k, m.2 - a, blocksPerPage k⟩
      sized := s.sized.push k pr
      all := s.all.push () pr } t pc).doalloc t sz pr) = _
  simp only [doalloc_goto]

/-- A thread with a page and a pageref adds the page to the heap and takes its first block. -/
theorem Inv.addPage {pc : HeapPc} (h : s.Inv v) (hbusy : s.Busy v) (hpc : s.pc t = pc)
    (hpage : pc.page = some a) (hspare : pc.spare = none) (hgiven : pc.given = none)
    (hslot : pc.slot = some (r, j)) (hpg : (s.roots r).page = some pg) (hk : k < 8)
    (hsz : sz ≤ blockSize k) :
    ∃ s' v', s.addPage t sz k a (refAddr pg j) = .ok s' ∧ s'.Inv v' ∧ s'.Busy v' ∧ Hands s s' t sz := by
  subst hpc
  have hfresh := h.ref_fresh hslot hpg
  have hrun := h.runs.single (.thread t) a trivial hpage
  obtain ⟨halign, hpos, -⟩ := h.runs.bounds _ _ hrun
  obtain ⟨m, hm, hchain, hout⟩ := linkBlocks_ok s.mem hk hpos
  have hfacts := blockSize_facts hk
  obtain ⟨haddr, htype⟩ := mkPab_facts halign hk (a + (blocksPerPage k - 1) * blockSize k - a) (blocksPerPage k)
  have hlast : a + (blocksPerPage k - 1) * blockSize k - a = (blocksPerPage k - 1) * blockSize k := by
    omega
  -- the page with all its blocks free
  have hok : PageOk ⟨mkPab a k, a + (blocksPerPage k - 1) * blockSize k - a, blocksPerPage k⟩ m s.live
      (pageBlocks a k).reverse := by
    constructor
    · rw [htype]
      exact hk
    · have hle : (blocksPerPage k - 1) * blockSize k ≤ pageSize := by
        rw [← hfacts.2.2.1]
        exact Nat.mul_le_mul_right _ (Nat.sub_le ..)
      have hvalid : a + (blocksPerPage k - 1) * blockSize k - a ≠ invalidOffset := by
        unfold invalidOffset
        unfold pageSize at hle
        omega
      unfold PageRef.first
      rw [haddr, if_neg hvalid, hlast]
      exact hchain
    · exact List.nodup_reverse.2 (pageBlocks_nodup hk)
    · rw [List.length_reverse, pageBlocks_length]
    · intro b hb
      rw [haddr, htype]
      exact mem_pageBlocks.1 (List.mem_reverse.1 hb)
    · intro b hb
      have hbd := (mem_pageBlocks.1 (List.mem_reverse.1 hb)).bounds hk
      cases hlive : s.live b with
      | none => rfl
      | some blk =>
        have hap := h.thread_apart hpage hlive
        have hcell := h.blocks b blk hlive
        have hsize : 0 < blk.size := h.live_size hlive
        omega
    · intro b hb hF
      rw [haddr, htype] at hb
      exact absurd (List.mem_reverse.2 (mem_pageBlocks.2 hb)) hF
  have hinv := h.newPage hpage hspare hgiven hslot hpg haddr htype hok (by
    intro x hx
    apply hout
    intro hblk
    have hbd := hblk.bounds hk
    omega)
  -- it has a free block
  obtain ⟨b, F, hF⟩ : ∃ b F, (pageBlocks a k).reverse = b :: F := by
    apply List.exists_cons_of_length_pos
    rw [List.length_reverse, pageBlocks_length]
    omega
  have hnew : (v.push k (refAddr pg j) (pageBlocks a k).reverse (r, j)).free (refAddr pg j) = b :: F := by
    show Function.update v.free (refAddr pg j) (pageBlocks a k).reverse (refAddr pg j) = b :: F
    rw [Function.update_self]
    exact hF
  have hfit : sz ≤ blockSize (Function.update s.refs (refAddr pg j)
      ⟨mkPab a k, a + (blocksPerPage k - 1) * blockSize k - a, blocksPerPage k⟩ (refAddr pg j)).blocktype := by
    rw [Function.update_self, htype]
    exact hsz
  have hrest : ∀ qr ∈ refAddr pg j :: v.all, qr ≠ refAddr pg j →
      (Function.update v.free (refAddr pg j) (pageBlocks a k).reverse qr).length <
        blocksPerPage (Function.update s.refs (refAddr pg j)
          ⟨mkPab a k, a + (blocksPerPage k - 1) * blockSize k - a, blocksPerPage k⟩ qr).blocktype := by
    intro qr hqr hne
    rw [Function.update_of_ne hne, Function.update_of_ne hne]
    exact hbusy qr ((List.mem_cons.1 hqr).resolve_left hne)
  obtain ⟨s', v', hs', hinv', hbusy', hhands⟩ := hinv.doalloc (t := t) List.mem_cons_self hnew
    (Function.update_self ..) hfit hrest
  refine ⟨s', v', ?_, hinv', hbusy', hhands.of_goto rfl rfl rfl⟩
  have heq : (a + (blocksPerPage k - 1) * blockSize k - a == (blocksPerPage k - 1) * blockSize k) = true := by
    rw [hlast]
    exact beq_self_eq_true _
  rw [doalloc_goto] at hs'
  unfold KernelHeap.addPage
  simp only [hm, bind, Except.bind, heq, kassert, if_true]
  exact hs'

end KernelHeap
end Clape
