import Clape.KernelHeapRuns

namespace Clape
set_option autoImplicit true

namespace KernelHeap
variable {n : Nat} {s : KernelHeap n} {v : HeapView}

/-- The free list of a page: as many different blocks of it as `nfree` says, none of them in use and
not all that it has; the other blocks of the page are in use. -/
def FreeList (s : KernelHeap n) (pr : Nat) : Prop :=
  (s.refs pr).blocktype < sizes.length ∧
  ∃ F, Chain (link s.mem) (s.refs pr).first F ∧ F.Nodup ∧ F.length = (s.refs pr).nfree ∧
    F.length < blocksPerPage (s.refs pr).blocktype ∧
    (∀ b ∈ F, IsBlock (s.refs pr).pageaddr (s.refs pr).blocktype b ∧ ¬ s.InLive b) ∧
    ∀ b, IsBlock (s.refs pr).pageaddr (s.refs pr).blocktype b → b ∉ F →
      ∃ c, s.live b = some c ∧ c.size = blockSize (s.refs pr).blocktype

/-- A pageref is number `j` in the page of the root `r`. -/
def IsRef (s : KernelHeap n) (r j pr : Nat) : Prop :=
  ∃ pg, (s.roots r).page = some pg ∧ pr = refAddr pg j

/-- The heap is sound, with the pagerefs on its lists. -/
structure Sound (s : KernelHeap n) (all : List Nat) (sized : Nat → List Nat) : Prop where
  large : ∀ p b, s.live p = some b → b.sz ≤ b.size
  apart : ∀ p q b c, s.live p = some b → s.live q = some c → p ≠ q → p + b.size ≤ q ∨ q + c.size ≤ p
  allbase : Chain s.all.next (s.all.head ()) all ∧ all.Nodup
  sizebases : ∀ k, Chain s.sized.next (s.sized.head k) (sized k) ∧ (sized k).Nodup
  typed : ∀ k pr, pr ∈ sized k ↔ pr ∈ all ∧ (s.refs pr).blocktype = k
  free : ∀ pr ∈ all, s.FreeList pr
  located : ∀ pr ∈ all, ∃! x : Nat × Nat, x.1 < numPagerefpages ∧ x.2 < npagerefsPerPage ∧
    s.IsRef x.1 x.2 pr
  marked : ∀ r < numPagerefpages, ∀ j < npagerefsPerPage, (s.roots r).marked j = true ↔
    (∃ pr ∈ all, s.IsRef r j pr) ∨ ∃ t, (s.pc t).slot = some (r, j)
  given : ∀ t a, (s.pc t).given = some a → (s.runs a).isSome = true ∧
    (∀ pr ∈ all, (s.refs pr).pageaddr ≠ a) ∧ ∀ u, (s.pc u).given = some a → u = t
  owned : ∀ a, (s.runs a).isSome = true ↔ (∃ pr ∈ all, (s.refs pr).pageaddr = a) ∨
    (∃ r < numPagerefpages, (s.roots r).page = some a) ∨
    (∃ b, s.live a = some b ∧ pageSize ≤ b.size) ∨
    ∃ t, (s.pc t).page = some a ∨ (s.pc t).spare = some a ∨ (s.pc t).given = some a

theorem Inv.isRef_slot (h : s.Inv v) (hpr : pr ∈ v.all) (hr : r < numPagerefpages)
    (hj : j < npagerefsPerPage) (hx : s.IsRef r j pr) : v.slot pr = (r, j) := by
  obtain ⟨hr', hj', -⟩ := h.slot_bounds (r := (v.slot pr).1) (j := (v.slot pr).2) (slots_page hpr)
  obtain ⟨pg', hpg', he'⟩ := h.located pr hpr
  obtain ⟨pg, hpg, he⟩ := hx
  obtain ⟨h1, h2⟩ := h.refAddr_inj hr' hpg' hj' hr hpg hj (he'.symm.trans he)
  exact Prod.ext h1 h2

theorem Inv.freeList (h : s.Inv v) (hbusy : s.Busy v) (hpr : pr ∈ v.all) : s.FreeList pr := by
  have hok := h.pages.page pr hpr
  refine ⟨hok.type, v.free pr, hok.chain, hok.nodup, hok.count.symm, hbusy pr hpr, ?_, ?_⟩
  · intro b hb
    exact ⟨hok.block b hb, h.free_not_inLive hpr hb⟩
  · intro b hb hF
    obtain ⟨sz, hlive⟩ := hok.used b hb hF
    exact ⟨_, hlive, rfl⟩

theorem Inv.marked_iff (h : s.Inv v) (hr : r < numPagerefpages) (hj : j < npagerefsPerPage) :
    (s.roots r).marked j = true ↔
      (∃ pr ∈ v.all, s.IsRef r j pr) ∨ ∃ t, (s.pc t).slot = some (r, j) := by
  constructor
  · intro hm
    obtain ⟨o, ho⟩ := (h.marks.owned.marks (r, j)).1 ⟨hr, KheapRoot.mem_marks.2 ⟨hj, hm⟩⟩
    cases o with
    | thread t => exact .inr ⟨t, ho⟩
    | page pr =>
      by_cases hpr : pr ∈ v.all
      · rw [slots_page hpr] at ho
        have hslot : v.slot pr = (r, j) := Option.some.inj ho
        have hloc := h.located pr hpr
        rw [hslot] at hloc
        exact .inl ⟨pr, hpr, hloc⟩
      · have hno : s.slots v (.page pr) = none := if_neg hpr
        rw [hno] at ho
        cases ho
  · rintro (⟨pr, hpr, hx⟩ | ⟨t, ht⟩)
    · have hslot := slots_page (s := s) hpr
      rw [h.isRef_slot hpr hr hj hx] at hslot
      exact (h.slot_bounds hslot).2.2
    · exact (h.slot_bounds (o := .thread t) ht).2.2

theorem Inv.owned_iff (h : s.Inv v) (a : Nat) :
    (s.runs a).isSome = true ↔ (∃ pr ∈ v.all, (s.refs pr).pageaddr = a) ∨
      (∃ r < numPagerefpages, (s.roots r).page = some a) ∨
      (∃ b, s.live a = some b ∧ pageSize ≤ b.size) ∨
      ∃ t, (s.pc t).page = some a ∨ (s.pc t).spare = some a ∨ (s.pc t).given = some a := by
  rw [h.runs.owned.marks a]
  constructor
  · rintro ⟨o, ho⟩
    cases o with
    | page pr =>
      by_cases hpr : pr ∈ v.all
      · rw [place_page hpr] at ho
        exact .inl ⟨pr, hpr, Option.some.inj ho⟩
      · have hno : s.place v (.page pr) = none := if_neg hpr
        rw [hno] at ho
        cases ho
    | refs r =>
      by_cases hr : r < numPagerefpages
      · exact .inr (.inl ⟨r, hr, (if_pos hr).symm.trans ho⟩)
      · have hno : s.place v (.refs r) = none := if_neg hr
        rw [hno] at ho
        cases ho
    | big p =>
      change bigRun s.live p = some a at ho
      unfold bigRun at ho
      split at ho
      · rename_i b hb
        split at ho
        · rename_i hle
          cases ho
          exact .inr (.inr (.inl ⟨b, hb, hle⟩))
        · cases ho
      · cases ho
    | thread t => exact .inr (.inr (.inr ⟨t, .inl ho⟩))
    | spare t => exact .inr (.inr (.inr ⟨t, .inr (.inl ho)⟩))
    | given t => exact .inr (.inr (.inr ⟨t, .inr (.inr ho)⟩))
  · rintro (⟨pr, hpr, rfl⟩ | ⟨r, hr, hpg⟩ | ⟨b, hb, hle⟩ | ⟨t, ht | ht | ht⟩)
    · exact ⟨.page pr, place_page hpr⟩
    · exact ⟨.refs r, (if_pos hr).trans hpg⟩
    · refine ⟨.big a, ?_⟩
      show bigRun s.live a = some a
      unfold bigRun
      rw [hb]
      exact if_pos hle
    · exact ⟨.thread t, ht⟩
    · exact ⟨.spare t, ht⟩
    · exact ⟨.given t, ht⟩

theorem Inv.sound (h : s.Inv v) (hbusy : s.Busy v) : s.Sound v.all v.sized where
  large p b hp := (h.blocks p b hp).1
  apart p q b c hp hq hne := h.cells_apart (h.live_cell hp) (h.live_cell hq) hne
  allbase := ⟨h.pages.all.chain (), h.pages.all.nodup ()⟩
  sizebases k := ⟨h.pages.sized.chain k, h.pages.sized.nodup k⟩
  typed := h.pages.typed
  free pr hpr := h.freeList hbusy hpr
  located pr hpr := by
    obtain ⟨hr, hj, -⟩ := h.slot_bounds (r := (v.slot pr).1) (j := (v.slot pr).2) (slots_page hpr)
    refine ⟨v.slot pr, ⟨hr, hj, h.located pr hpr⟩, ?_⟩
    intro x hx
    exact (h.isRef_slot hpr hx.1 hx.2.1 hx.2.2).symm
  marked r hr j hj := h.marked_iff hr hj
  given t a ht := by
    have hplace : s.place v (.given t) = some a := ht
    refine ⟨h.runs.owned.marked_of hplace, ?_, ?_⟩
    · intro pr hpr
      exact h.runs.owned.ne (place_page hpr) hplace nofun
    · intro u hu
      have hsame : (HeapOwner.given u : HeapOwner n) = .given t :=
        h.runs.owned.inj (show s.place v (.given u) = some a from hu) hplace
      cases hsame
      rfl
  owned := h.owned_iff

end KernelHeap

/-- In every run of fewer threads than a page has pagerefs the heap is sound, and no step that the
callers may take stops at an assertion or a panic: it hands out blocks that were not in use, and takes
back those that are freed. -/
theorem kernelHeap_sound {s : KernelHeap n} (hn : n < npagerefsPerPage)
    (hrun : Run HeapStep (KernelHeap.boot n refs mem) tr s) :
    (∃ all sized, s.Sound all sized) ∧ ∀ act, HeapAct.Pre s act →
      ∃ s' all sized, s.exec act = .ok s' ∧ s'.Sound all sized ∧ s.Does s' all act := by
  obtain ⟨v, hinv, hbusy⟩ := KernelHeap.run_inv hn hrun
  refine ⟨⟨v.all, v.sized, hinv.sound hbusy⟩, ?_⟩
  intro act hpre
  obtain ⟨s', v', hs', hinv', hbusy', hdoes⟩ := hinv.exec hbusy hn hpre
  exact ⟨s', v'.all, v'.sized, hs', hinv'.sound hbusy', hdoes⟩

theorem apart_update {runs : Nat → Option Nat} (h : ∀ b k, runs b = some k → x ≤ b ∨ b + k * pageSize ≤ a)
    (h' : x ≤ c ∨ c + m * pageSize ≤ a) (b k : Nat) (hb : Function.update runs c (some m) b = some k) :
    x ≤ b ∨ b + k * pageSize ≤ a := by
  by_cases hbc : b = c
  · rw [hbc, Function.update_self] at hb
    cases hb
    exact hbc ▸ h'
  · rw [Function.update_of_ne hbc] at hb
    exact h b k hb

def heapStart : KernelHeap 1 := KernelHeap.boot 1 (fun _ => ⟨0, 0, 0⟩) fun _ => 0

/-- Two blocks of 128 bytes from a new page, and one of two pages. -/
def threeBlocks : List (HeapAct 1) :=
  [.kmalloc 0 100, .page 0 0x80001000, .resume 0, .page 0 0x80002000, .resume 0, .kmalloc 0 100,
    .kmalloc 0 5000, .page 0 0x80003000]

theorem threeBlocks_run : ∃ s s₁ s₂ : KernelHeap 1, Run HeapStep heapStart threeBlocks s ∧
    HeapStep s (.kfree 0 0x80001f80) s₁ ∧ HeapStep s₁ (.kfree 0 0x80001f00) s₂ ∧
    s.live 0x80001f80 = some ⟨100, 128⟩ ∧ s.live 0x80001f00 = some ⟨100, 128⟩ ∧
    s.live 0x80003000 = some ⟨5000, 8192⟩ ∧ s₁.pc 0 = .idle ∧ s₂.pc 0 = .freePage 0x80001000 ∧
    s₂.live 0x80003000 = some ⟨5000, 8192⟩ := by
  have hnone : ∀ {x a : Nat} (b k : Nat), (fun _ : Nat => (none : Option Nat)) b = some k →
      x ≤ b ∨ b + k * pageSize ≤ a := by
    intro x a b k hb
    cases hb
  have step : ∀ {tr : List (HeapAct 1)} {s s' : KernelHeap 1}, Run HeapStep heapStart tr s →
      ∀ act, HeapAct.Pre s act → s.exec act = .ok s' → Run HeapStep heapStart (tr ++ [act]) s' :=
    fun h _ hp hs => h.snoc ⟨hp, hs⟩
  have hrun := step (.nil _) (.kmalloc 0 100) ⟨rfl, by decide⟩ rfl
  have hrun := step hrun (.page 0 0x80001000) ⟨1, rfl, by decide, by decide, by decide, hnone⟩ rfl
  have hrun := step hrun (.resume 0) trivial rfl
  have hrun := step hrun (.page 0 0x80002000)
    ⟨1, rfl, by decide, by decide, by decide, apart_update hnone (by decide)⟩ rfl
  have hrun := step hrun (.resume 0) trivial rfl
  have hrun := step hrun (.kmalloc 0 100) ⟨rfl, by decide⟩ rfl
  have hrun := step hrun (.kmalloc 0 5000) ⟨rfl, by decide⟩ rfl
  have hrun := step hrun (.page 0 0x80003000)
    ⟨2, rfl, by decide, by decide, by decide, apart_update (apart_update hnone (by decide)) (by decide)⟩ rfl
  exact ⟨_, _, _, hrun, ⟨⟨rfl, .inr rfl⟩, rfl⟩, ⟨⟨rfl, .inr rfl⟩, rfl⟩, rfl, rfl, rfl, rfl, rfl, rfl⟩

/-- The first small block goes to the free list of its page, and with the second one the page is given
back; the block of two pages stays. -/
theorem kernelHeap_sound_threeBlocks : ∃ s s₁ s₂ s₃ : KernelHeap 1, Run HeapStep heapStart threeBlocks s ∧
    HeapStep s (.kfree 0 0x80001f80) s₁ ∧ HeapStep s₁ (.kfree 0 0x80001f00) s₂ ∧ HeapStep s₂ (.resume 0) s₃ ∧
    (∃ all sized, s₁.Sound all sized ∧ s.Freed s₁ all 0 0x80001f80) ∧
    (∃ all sized, s₂.Sound all sized ∧ s₁.Freed s₂ all 0 0x80001f00 ∧
      ∀ pr ∈ all, (s₂.refs pr).pageaddr ≠ 0x80001000) ∧
    s₃.runs 0x80001000 = none ∧ s₃.live 0x80003000 = some ⟨5000, 8192⟩ ∧ ∃ all sized, s₃.Sound all sized := by
  have hn : 1 < npagerefsPerPage := by decide
  obtain ⟨s, s₁, s₂, hrun, h₁, h₂, hlive, hlive', hbig, hidle, hpc, hbig'⟩ := threeBlocks_run
  have hrun₁ := hrun.snoc h₁
  have hrun₂ := hrun₁.snoc h₂
  obtain ⟨u₁, all₁, sized₁, hu₁, hsound₁, hdoes₁⟩ := (kernelHeap_sound hn hrun).2 _ h₁.1
  cases hu₁.symm.trans h₁.2
  obtain ⟨u₂, all₂, sized₂, hu₂, hsound₂, hdoes₂⟩ := (kernelHeap_sound hn hrun₁).2 _ h₂.1
  cases hu₂.symm.trans h₂.2
  obtain ⟨s₃, all₃, sized₃, hs₃, hsound₃, hres⟩ := (kernelHeap_sound hn hrun₂).2 (.resume 0) trivial
  have hfreed₁ := hdoes₁.resolve_left fun h => absurd h.1 (by decide)
  have hfreed₂ := hdoes₂.resolve_left fun h => absurd h.1 (by decide)
  have hgiven := hsound₂.given 0 0x80001000 (by rw [hpc]; rfl)
  have hruns := hres.runs
  have hdone := hres.done (by rw [hpc]; rfl)
  rw [hpc] at hruns
  refine ⟨s, s₁, s₂, s₃, hrun, h₁, h₂, ⟨trivial, hs₃⟩, ⟨_, _, hsound₁, hfreed₁⟩,
    ⟨_, _, hsound₂, hfreed₂, hgiven.2.1⟩, ?_, ?_, _, _, hsound₃⟩
  · rw [hruns]
    exact Function.update_self ..
  · rw [hdone.1]
    exact hbig'

end Clape
