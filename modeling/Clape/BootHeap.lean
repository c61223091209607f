import Mathlib.Algebra.GroupWithZero.Nat
import Clape.BootMemory

namespace Clape
set_option autoImplicit true

namespace KernelHeap
variable {n : Nat} {s s' : KernelHeap n} {v : HeapView}

/-- The free blocks that the pagerefs of a list count. -/
def freeIn (s : KernelHeap n) (L : List Nat) : Nat := (L.map fun pr => (s.refs pr).nfree).sum

/-- The walk over a list of pagerefs that adds up their counts of free blocks. -/
def countFree (s : KernelHeap n) : Nat → Option Nat → Nat
  | 0, _ => 0
  | _ + 1, none => 0
  | f + 1, some pr => (s.refs pr).nfree + countFree s f (s.sized.next pr)

/-- The free blocks of a block type. -/
def freeBlocks (s : KernelHeap n) (k : Nat) : Nat := s.countFree totalPagerefs (s.sized.head k)

theorem countFree_eq (h : Chain s.sized.next a L) (hf : L.length ≤ f) : s.countFree f a = s.freeIn L := by
  induction L generalizing a f with
  | nil =>
    cases h
    cases f <;> rfl
  | cons pr L ih =>
    obtain ⟨rfl, hrest⟩ := h
    cases f with
    | zero => cases hf
    | succ f =>
      have hrec := ih hrest (Nat.le_of_succ_le_succ hf)
      unfold countFree freeIn
      rw [List.map_cons, List.sum_cons, hrec]
      rfl

theorem Inv.freeBlocks_eq (h : s.Inv v) (k : Nat) : s.freeBlocks k = s.freeIn (v.sized k) :=
  countFree_eq (h.pages.sized.chain k) (h.sized_length_le k)

theorem Inv.sized_unique (h : s.Inv v) (h' : s'.Inv v') (hs : s'.sized = s.sized) : v'.sized = v.sized := by
  funext k
  have hchain := h'.pages.sized.chain k
  rw [hs] at hchain
  exact hchain.unique (h.pages.sized.chain k)

theorem doalloc_eq (hr : s.doalloc t sz pr = .ok s') :
    ∃ offset, s' = { s with
      refs := Function.update s.refs pr
        { s.refs pr with freelistOffset := offset, nfree := ((s.refs pr).nfree + 65535) % 65536 }
      live := Function.update s.live ((s.refs pr).pageaddr + (s.refs pr).freelistOffset)
        (some ⟨sz, blockSize (s.refs pr).blocktype⟩)
      pc := Function.update s.pc t .idle } := by
  unfold doalloc at hr
  obtain ⟨-, -, hr⟩ := bind_ok.1 hr
  obtain ⟨offset, -, hr⟩ := bind_ok.1 hr
  cases hr
  exact ⟨offset, rfl⟩

theorem freeIn_update (hn : L.Nodup) (hpr : pr ∈ L) (hs : s'.refs = Function.update s.refs pr ref)
    (hc : ref.nfree + 1 = (s.refs pr).nfree) : s'.freeIn L + 1 = s.freeIn L := by
  unfold freeIn
  rw [hs]
  induction L with
  | nil => cases hpr
  | cons q L ih =>
    have hnd := List.nodup_cons.1 hn
    rw [List.map_cons, List.map_cons, List.sum_cons, List.sum_cons]
    cases List.mem_cons.1 hpr with
    | inl he =>
      subst he
      have hrest : (L.map fun p => (Function.update s.refs pr ref p).nfree) = L.map fun p => (s.refs p).nfree := by
        apply List.map_congr_left
        intro p hp
        rw [Function.update_of_ne]
        exact fun he => hnd.1 (he ▸ hp)
      rw [hrest, Function.update_self]
      omega
    | inr hmem =>
      have hne : q ≠ pr := fun he => hnd.1 (he ▸ hmem)
      have hrec := ih hnd.2 hmem
      rw [Function.update_of_ne hne]
      omega

theorem freeIn_congr (hs : s'.refs = Function.update s.refs pr ref) (hpr : pr ∉ L) : s'.freeIn L = s.freeIn L := by
  unfold freeIn
  rw [hs]
  congr 1
  apply List.map_congr_left
  intro p hp
  rw [Function.update_of_ne]
  exact fun he => hpr (he ▸ hp)

theorem freeIn_eq_zero : s.freeIn L = 0 ↔ ∀ pr ∈ L, (s.refs pr).nfree = 0 := by
  induction L with
  | nil => exact iff_of_true rfl nofun
  | cons q L ih =>
    have hsum : s.freeIn (q :: L) = (s.refs q).nfree + s.freeIn L := by
      unfold freeIn
      rw [List.map_cons, List.sum_cons]
    rw [hsum, Nat.add_eq_zero_iff, ih]
    simp

/-- What an allocation from a page of the heap leaves alone. -/
structure Keeps (s s' : KernelHeap n) : Prop where
  roots : s'.roots = s.roots
  mem : s'.mem = s.mem
  runs : s'.runs = s.runs
  sized : s'.sized = s.sized
  pc : s'.pc = s.pc

/-- `kmalloc` of a block type with a free block takes the first. -/
theorem Inv.kmalloc_free (h : s.Inv v) (hbusy : s.Busy v) (hpc : s.pc t = .idle)
    (hsmall : sz < largestSubpageSize) (hk : blocktype sz = .ok k) (hfree : 0 < s.freeBlocks k) :
    ∃ s' v' b, s.kmalloc t sz = .ok s' ∧ s'.Inv v' ∧ s'.Busy v' ∧ Boot.firstFree s k = some b ∧
      Keeps s s' ∧ Gives s s' sz b ∧
      ∀ j, s'.freeBlocks j + (if j = k then 1 else 0) = s.freeBlocks j := by
  obtain ⟨k', hk', hlt, hsz⟩ := blocktype_ok (Nat.le_of_lt hsmall)
  rw [hk] at hk'
  cases hk'
  unfold KernelHeap.kmalloc Boot.firstFree
  rw [if_neg (Nat.not_le.2 hsmall), hk, ok_bind]
  obtain ⟨A, pr, B, hL, -, hpr, hfound⟩ | ⟨hall, -⟩ := search_spec (f := totalPagerefs)
    (p := fun pr => (s.refs pr).blocktype != k || decide (0 < (s.refs pr).nfree))
    (h.pages.sized.chain k) (h.sized_length_le k) none
  · have hmem : pr ∈ v.sized k := by
      rw [hL]
      exact List.mem_append_right _ List.mem_cons_self
    obtain ⟨hin, htype⟩ := (h.pages.typed k pr).1 hmem
    have hok := h.pages.page pr hin
    rw [htype, bne_self_eq_false, Bool.false_or, decide_eq_true_eq] at hpr
    obtain ⟨b, F, hF⟩ : ∃ b F, v.free pr = b :: F := by
      apply List.exists_cons_of_length_pos
      rw [← hok.count]
      exact hpr
    obtain ⟨s', v', hs', hinv, hbusy', -⟩ := h.doalloc hin hF hpc (htype ▸ hsz) fun qr hqr _ => hbusy qr hqr
    rw [hfound]
    dsimp only
    rw [htype, beq_self_eq_true, kassert_true, ok_bind]
    obtain ⟨offset, heq⟩ := doalloc_eq hs'
    have hfirst : b = (s.refs pr).pageaddr + (s.refs pr).freelistOffset := by
      have hchain := hok.chain
      rw [hF] at hchain
      have hhead := hchain.1
      unfold PageRef.first at hhead
      split at hhead
      · cases hhead
      · exact (Option.some.inj hhead).symm
    have hkeeps : Keeps s s' := by
      subst heq
      refine ⟨rfl, rfl, rfl, rfl, ?_⟩
      show Function.update s.pc t .idle = s.pc
      rw [← hpc]
      exact Function.update_eq_self t s.pc
    refine ⟨s', v', b, hs', hinv, hbusy', by rw [hfirst], hkeeps, ⟨?_, ?_⟩, ?_⟩
    · exact hok.free b (by rw [hF]; exact List.mem_cons_self)
    · rw [heq, hfirst]
      exact ⟨_, rfl⟩
    · intro j
      have hsame := h.sized_unique hinv hkeeps.sized
      have hrefs : s'.refs = Function.update s.refs pr
          { s.refs pr with freelistOffset := offset, nfree := ((s.refs pr).nfree + 65535) % 65536 } := by
        rw [heq]
      rw [hinv.freeBlocks_eq, h.freeBlocks_eq, hsame]
      by_cases hj : j = k
      · rw [if_pos hj, hj]
        apply freeIn_update (h.pages.sized.nodup k) hmem hrefs
        have hle := (blocks_length hok.nodup hok.block).1
        have hper : blocksPerPage (s.refs pr).blocktype ≤ pageSize := Nat.div_le_self ..
        rw [← hok.count] at hle
        unfold pageSize at hper
        dsimp only
        omega
      · rw [if_neg hj]
        apply freeIn_congr hrefs
        intro hmem'
        exact hj (((h.pages.typed j pr).1 hmem').2.symm.trans htype)
  · exfalso
    rw [h.freeBlocks_eq] at hfree
    have hz : s.freeIn (v.sized k) = 0 := by
      rw [freeIn_eq_zero]
      intro pr hpr
      have hno := hall pr hpr
      rw [Bool.or_eq_false_iff, decide_eq_false_iff_not] at hno
      exact Nat.eq_zero_of_not_pos hno.2
    omega

theorem Inv.kmalloc_full (h : s.Inv v) (hsmall : sz < largestSubpageSize) (hk : blocktype sz = .ok k)
    (hfree : s.freeBlocks k = 0) : s.kmalloc t sz = .ok (s.goto t (.wantPage sz k)) := by
  unfold KernelHeap.kmalloc
  rw [if_neg (Nat.not_le.2 hsmall), hk, ok_bind]
  rw [h.freeBlocks_eq, freeIn_eq_zero] at hfree
  obtain ⟨A, pr, B, hL, -, hpr, -⟩ | ⟨-, hmissing⟩ := search_spec (f := totalPagerefs)
    (p := fun pr => (s.refs pr).blocktype != k || decide (0 < (s.refs pr).nfree))
    (h.pages.sized.chain k) (h.sized_length_le k) none
  · have hmem : pr ∈ v.sized k := by
      rw [hL]
      exact List.mem_append_right _ List.mem_cons_self
    rw [((h.pages.typed k pr).1 hmem).2, hfree pr hmem] at hpr
    simp at hpr
  · rw [hmissing]
    rfl

theorem addPage_gives (ha : a % pageSize = 0) (hpos : 0 < a) (hk : k < 8)
    (hr : s.addPage t sz k a pr = .ok s') : s'.runs = s.runs ∧ s'.pc = Function.update s.pc t .idle ∧
      s'.live = Function.update s.live (Boot.lastBlock a k) (some ⟨sz, blockSize k⟩) := by
  obtain ⟨m, hm, -, -⟩ := linkBlocks_ok s.mem hk hpos
  unfold addPage at hr
  rw [hm, ok_bind] at hr
  obtain ⟨-, -, hr⟩ := bind_ok.1 hr
  obtain ⟨offset, rfl⟩ := doalloc_eq hr
  obtain ⟨haddr, htype⟩ := mkPab_facts ha hk (a + (blocksPerPage k - 1) * blockSize k - a) (blocksPerPage k)
  refine ⟨rfl, rfl, ?_⟩
  dsimp only
  rw [Function.update_self, haddr, htype, Nat.add_sub_cancel_left]
  rfl

theorem addPage_runs (hr : s.addPage t sz k a pr = .ok s') : s'.runs = s.runs := by
  unfold addPage at hr
  obtain ⟨m, -, hr⟩ := bind_ok.1 hr
  obtain ⟨-, -, hr⟩ := bind_ok.1 hr
  obtain ⟨offset, rfl⟩ := doalloc_eq hr
  rfl

theorem takePage_cases (hr : s.takePage t sz k a = .ok s') :
    s' = s.goto t (.noRef a) ∨ ∃ r j, (∃ pg, addPage { s with
        roots := Function.update s.roots r ((s.roots r).mark j) } t sz k a (refAddr pg j) = .ok s') ∨
      (s.roots r).page = none ∧ s' = KernelHeap.goto { s with
        roots := Function.update s.roots r ((s.roots r).mark j) } t (.wantRefs sz k a r j) := by
  unfold takePage at hr
  obtain ⟨o, -, hr⟩ := bind_ok.1 hr
  cases o with
  | none =>
    cases hr
    exact .inl rfl
  | some x =>
    obtain ⟨r, j⟩ := x
    refine .inr ⟨r, j, ?_⟩
    dsimp only at hr
    cases hpg : (s.roots r).page with
    | some pg =>
      rw [hpg] at hr
      exact .inl ⟨pg, hr⟩
    | none =>
      rw [hpg] at hr
      cases hr
      exact .inr ⟨rfl, rfl⟩

theorem freeKpages_runs (hr : s.freeKpages a = .ok s') (hb : s'.runs b = some m) : s.runs b = some m := by
  unfold freeKpages at hr
  split at hr
  · cases hr
  · cases hr
    by_cases hba : b = a
    · rw [hba] at hb
      simp at hb
    · rw [← hb]
      exact (Function.update_of_ne hba ..).symm

/-- No step but the return of `alloc_kpages` adds a run. -/
theorem resume_runs (hr : s.resume t = .ok s') (hb : s'.runs b = some m) : s.runs b = some m := by
  unfold resume at hr
  cases hpc : s.pc t with
  | hasPage sz k a =>
    rw [hpc] at hr
    obtain rfl | ⟨r, j, ⟨pg, hadd⟩ | ⟨-, rfl⟩⟩ := takePage_cases hr
    · exact hb
    · rw [addPage_runs hadd] at hb
      exact hb
    · exact hb
  | noRef a =>
    rw [hpc] at hr
    obtain ⟨u, hu, hr⟩ := bind_ok.1 hr
    cases hr
    exact freeKpages_runs hu hb
  | hasRefs sz k a r j va =>
    rw [hpc] at hr
    unfold takeRefs at hr
    obtain ⟨-, -, hr⟩ := bind_ok.1 hr
    split at hr
    · cases hr
      exact hb
    · rw [addPage_runs hr] at hb
      exact hb
  | dropRefs sz k a r j va =>
    rw [hpc] at hr
    obtain ⟨u, hu, hr⟩ := bind_ok.1 hr
    cases hr
    exact freeKpages_runs hu hb
  | retake sz k a r j =>
    rw [hpc] at hr
    change s.retakeRefs t sz k a r j = .ok s' at hr
    unfold retakeRefs at hr
    split at hr
    · cases hr
    · rw [addPage_runs hr] at hb
      exact hb
  | freePage a =>
    rw [hpc] at hr
    obtain ⟨u, hu, hr⟩ := bind_ok.1 hr
    cases hr
    exact freeKpages_runs hu hb
  | _ =>
    rw [hpc] at hr
    cases hr
    exact hb

theorem kmalloc_runs (hr : s.kmalloc t sz = .ok s') : s'.runs = s.runs := by
  unfold kmalloc at hr
  split at hr
  · cases hr
    rfl
  · obtain ⟨k, -, hr⟩ := bind_ok.1 hr
    split at hr
    · obtain ⟨-, -, hr⟩ := bind_ok.1 hr
      obtain ⟨offset, rfl⟩ := doalloc_eq hr
      rfl
    · cases hr
      rfl
    · cases hr

theorem dropPage_runs (hr : s.dropPage t pr = .ok s') : s'.runs = s.runs := by
  unfold dropPage at hr
  dsimp only at hr
  split at hr
  · obtain ⟨z, -, hr⟩ := bind_ok.1 hr
    obtain ⟨l, -, hr⟩ := bind_ok.1 hr
    obtain ⟨r, -, hr⟩ := bind_ok.1 hr
    cases hr
    rfl
  · cases hr
    rfl

theorem pushFree_runs (hr : s.pushFree p pr = .ok s') : s'.runs = s.runs := by
  unfold pushFree at hr
  dsimp only at hr
  split at hr
  · cases hr
  · obtain ⟨-, -, hr⟩ := bind_ok.1 hr
    obtain ⟨-, -, hr⟩ := bind_ok.1 hr
    cases hr
    rfl

theorem kfree_runs (hr : s.kfree t p = .ok s') : s'.runs = s.runs := by
  unfold kfree at hr
  split at hr
  · cases hr
    rfl
  · dsimp only at hr
    split at hr
    · obtain ⟨-, -, hr⟩ := bind_ok.1 hr
      obtain ⟨u, hu, hr⟩ := bind_ok.1 hr
      rw [dropPage_runs hr, pushFree_runs hu]
    · obtain ⟨-, -, hr⟩ := bind_ok.1 hr
      cases hr
      rfl
    · cases hr

theorem exec_runs (hact : ∀ t a, act ≠ .page t a) (hr : s.exec act = .ok s') (hb : s'.runs b = some m) :
    s.runs b = some m := by
  cases act with
  | kmalloc t sz => exact kmalloc_runs hr ▸ hb
  | kfree t p => exact kfree_runs hr ▸ hb
  | page t a => exact absurd rfl (hact t a)
  | resume t => exact resume_runs hr hb
  | write mem =>
    cases hr
    exact hb

end KernelHeap

theorem mainbusRamsize_le (r : Nat) : mainbusRamsize r ≤ 532676608 := by
  unfold mainbusRamsize
  split <;> omega

namespace Boot
variable {n : Nat} {s s' : Boot n} {v : HeapView}

/-- What holds through the boot while nobody has `stealmem_lock`: the heap is sound, its runs are
pages that `ram_stealmem` handed out, and those end where the free memory starts. -/
structure Inv (s : Boot n) (v : HeapView) : Prop where
  heap : s.heap.Inv v
  busy : s.heap.Busy v
  aligned : s.firstpaddr % pageSize = 0
  pos : 0 < s.firstpaddr
  room : s.firstpaddr ≤ s.lastpaddr
  size : s.lastpaddr = mainbusRamsize s.ramsize
  runs : ∀ a m, s.heap.runs a = some m → ∃ p, (p, m) ∈ s.stolen ∧ a = paddrToKvaddr p
  stolen : ∀ p m, (p, m) ∈ s.stolen → p + m * pageSize ≤ s.firstpaddr

theorem Inv.top (h : s.Inv v) : s.firstpaddr ≤ 532676608 ∧ s.lastpaddr ≤ 532676608 := by
  have hle := mainbusRamsize_le s.ramsize
  have hroom := h.room
  rw [← h.size] at hle
  omega

theorem Inv.setHeap {u : KernelHeap n} (h : s.Inv v) (hu : u.Inv v') (hb : u.Busy v')
    (hr : ∀ a m, u.runs a = some m → s.heap.runs a = some m) : ({ s with heap := u } : Boot n).Inv v' :=
  { h with
    heap := hu
    busy := hb
    runs := fun a m ha => h.runs a m (hr a m ha) }

/-- The state after `ram_stealmem` has handed out pages. -/
def stole (s : Boot n) (m : Nat) : Boot n :=
  { s with firstpaddr := s.firstpaddr + m * pageSize, stolen := s.stolen ++ [(s.firstpaddr, m)] }

theorem Inv.ramStealmem_zero (h : s.Inv v) : (s.ramStealmem 0).2 = s.firstpaddr := by
  have htop := h.top
  have hroom := h.room
  have hno : s.lacks 0 = false := by
    unfold lacks u32
    rw [decide_eq_false_iff_not]
    omega
  unfold ramStealmem
  rw [hno]
  rfl

theorem Inv.frames_eq (h : s.Inv v) : s.frames = (s.lastpaddr - s.firstpaddr) / pageSize := by
  have htop := h.top
  have hroom := h.room
  unfold frames
  rw [h.ramStealmem_zero, ← h.size]
  congr 1
  unfold u32Sub
  omega

theorem Inv.setHeld (h : s.Inv v) (b : Bool) : ({ s with held := b } : Boot n).Inv v :=
  ⟨h.heap, h.busy, h.aligned, h.pos, h.room, h.size, h.runs, h.stolen⟩

theorem ramStealmem_cases (hm : s.firstpaddr + m * pageSize < 4294967296) :
    s.ramStealmem m = (s, 0) ∨
      s.ramStealmem m = (s.stole m, s.firstpaddr) ∧ s.firstpaddr + m * pageSize ≤ s.lastpaddr := by
  have hsmall : u32 (m * pageSize) = m * pageSize := Nat.mod_eq_of_lt (by omega)
  have hsum : u32 (s.firstpaddr + m * pageSize) = s.firstpaddr + m * pageSize := Nat.mod_eq_of_lt hm
  unfold Boot.ramStealmem lacks Boot.stole
  rw [hsmall, hsum]
  by_cases hlack : s.lastpaddr < s.firstpaddr + m * pageSize
  · rw [decide_eq_true hlack]
    exact .inl rfl
  · rw [decide_eq_false hlack]
    exact .inr ⟨rfl, Nat.not_lt.1 hlack⟩

/-- `alloc_kpages` stops for want of memory or hands out the first free pages. -/
theorem Inv.allocKpages (h : s.Inv v) (hheld : s.held = false) (hm : s.firstpaddr + m * pageSize < 4294967296) :
    s.allocKpages m = .error .allocKpages ∨
      s.allocKpages m = .ok (s.stole m, paddrToKvaddr s.firstpaddr) ∧
      s.firstpaddr + m * pageSize ≤ s.lastpaddr := by
  have htop := h.top
  have hpos := h.pos
  have hacq : s.acquire = .ok { s with held := true } := by
    unfold acquire
    rw [hheld]
    rfl
  unfold Boot.allocKpages
  rw [hacq, KernelHeap.ok_bind]
  obtain hlack | ⟨hfits, hle⟩ := ramStealmem_cases (s := { s with held := true }) hm
  · rw [hlack]
    exact .inl rfl
  · refine .inr ⟨?_, hle⟩
    rw [hfits]
    have hrange : userStack < paddrToKvaddr s.firstpaddr ∧ paddrToKvaddr s.firstpaddr ≤ 0x9FFFFFFF := by
      unfold paddrToKvaddr userStack
      omega
    dsimp only
    rw [if_pos hrange]
    unfold Boot.stole release
    rw [← hheld]
    rfl

theorem Inv.stole (h : s.Inv v) (hm : s.firstpaddr + m * pageSize ≤ s.lastpaddr) : (s.stole m).Inv v where
  heap := h.heap
  busy := h.busy
  aligned := by
    have hal := h.aligned
    show (s.firstpaddr + m * pageSize) % pageSize = 0
    rw [Nat.add_mul_mod_self_right]
    exact hal
  pos := Nat.lt_of_lt_of_le h.pos (Nat.le_add_right ..)
  room := hm
  size := h.size
  runs a k ha := by
    obtain ⟨p, hp, hap⟩ := h.runs a k ha
    exact ⟨p, List.mem_append_left _ hp, hap⟩
  stolen p k hp := by
    show p + k * pageSize ≤ s.firstpaddr + m * pageSize
    cases List.mem_append.1 hp with
    | inl hp =>
      have hle := h.stolen p k hp
      omega
    | inr hp =>
      cases List.mem_singleton.1 hp
      exact Nat.le_refl _

theorem Inv.fresh (h : s.Inv v) (hm : s.firstpaddr + m * pageSize ≤ s.lastpaddr) :
    s.heap.FreshRun (paddrToKvaddr s.firstpaddr) m := by
  have htop := h.top
  have hal := h.aligned
  unfold pageSize at hal hm
  refine ⟨?_, ?_, ?_, ?_⟩
  · unfold paddrToKvaddr userStack pageSize
    omega
  · unfold paddrToKvaddr userStack
    omega
  · unfold paddrToKvaddr userStack pageSize
    omega
  · intro b k hb
    obtain ⟨p, hp, rfl⟩ := h.runs b k hb
    have hle := h.stolen p k hp
    unfold paddrToKvaddr
    omega

theorem Inv.gotPage {u : KernelHeap n} (h : s.Inv v) (hm : s.firstpaddr + m * pageSize ≤ s.lastpaddr)
    (hu : u.Inv v') (hb : u.Busy v')
    (hr : u.runs = Function.update s.heap.runs (paddrToKvaddr s.firstpaddr) (some m)) :
    ({ s.stole m with heap := u } : Boot n).Inv v' :=
  { h.stole hm with
    heap := hu
    busy := hb
    runs := by
      intro a k ha
      change u.runs a = some k at ha
      rw [hr] at ha
      by_cases hne : a = paddrToKvaddr s.firstpaddr
      · rw [hne, Function.update_self] at ha
        cases ha
        exact ⟨s.firstpaddr, List.mem_append_right _ (List.mem_singleton.2 rfl), hne⟩
      · rw [Function.update_of_ne hne] at ha
        exact (h.stole hm).runs a k ha }

theorem lift_ok (x : α) : lift (.ok x) = .ok x := rfl

/-- A call of `kmalloc` by the thread `t` that has returned, with its result. -/
structure Returns (t : Fin n) (s s' : Boot n) (sz : Nat) (p : Option Nat) : Prop where
  held : s'.held = s.held
  ramsize : s'.ramsize = s.ramsize
  lastpaddr : s'.lastpaddr = s.lastpaddr
  firstpaddr : s.firstpaddr ≤ s'.firstpaddr
  idle : s'.heap.pc t = .idle
  stolen : ∀ x ∈ s.stolen, x ∈ s'.stolen
  gives : ∀ b, p = some b → s.heap.Gives s'.heap sz b

theorem Inv.kmalloc_big (h : s.Inv v) (hpc : s.heap.pc t = .idle) (hheld : s.held = false)
    (hbig : largestSubpageSize ≤ sz) (hsz : s.firstpaddr + sz + pageSize < 4294967296) :
    s.kmalloc t sz = .error .allocKpages ∨
      ∃ s' v' b, s.kmalloc t sz = .ok (s', some b) ∧ s'.Inv v' ∧ Returns t s s' sz (some b) := by
  have hk : s.heap.kmalloc t sz = .ok (s.heap.goto t (.wantBig sz ((sz + pageSize - 1) / pageSize))) :=
    if_pos hbig
  obtain ⟨u, w, hu, hinv, hbusy, -⟩ := h.heap.kmalloc h.busy hpc sz
  rw [hk] at hu
  cases hu
  generalize hm : (sz + pageSize - 1) / pageSize = m at hk hinv hbusy
  have hbound : s.firstpaddr + m * pageSize < 4294967296 := by
    unfold pageSize at *
    omega
  have hpc' : (s.heap.goto t (.wantBig sz m)).pc t = .wantBig sz m := Function.update_self ..
  have hI : ({ s with heap := s.heap.goto t (.wantBig sz m) } : Boot n).Inv w :=
    h.setHeap hinv hbusy fun _ _ hr => hr
  unfold Boot.kmalloc
  rw [hk, lift_ok, KernelHeap.ok_bind, hpc']
  dsimp only
  obtain hlack | ⟨hfits, hle⟩ := hI.allocKpages hheld hbound
  · rw [hlack]
    exact .inl rfl
  · right
    have hfresh := hI.fresh hle
    have hassert : (paddrToKvaddr s.firstpaddr % pageSize == 0) = true := by
      rw [hfresh.1]
      rfl
    have hgot : (s.heap.goto t (.wantBig sz m)).gotPage t (paddrToKvaddr s.firstpaddr) =
        .ok (KernelHeap.goto { s.heap.goto t (.wantBig sz m) with
          runs := Function.update s.heap.runs (paddrToKvaddr s.firstpaddr) (some m)
          live := Function.update s.heap.live (paddrToKvaddr s.firstpaddr)
            (some ⟨sz, m * pageSize⟩) } t .idle) := by
      unfold KernelHeap.gotPage
      rw [hpc']
      dsimp only
      rw [hassert]
      rfl
    have hok := hinv.bigBlock hfresh hpc'
    have hmpos : 0 < m := by
      unfold largestSubpageSize at hbig
      unfold pageSize at hm
      omega
    have hnone := (hinv.fresh_none hfresh hmpos).2
    have hI' := hI.gotPage hle hok hbusy rfl
    refine ⟨_, w, paddrToKvaddr s.firstpaddr, ?_, hI', ?_⟩
    · rw [hfits, KernelHeap.ok_bind]
      show (lift ((s.heap.goto t (.wantBig sz m)).gotPage t (paddrToKvaddr s.firstpaddr)) >>= _) = _
      rw [hgot]
      rfl
    · constructor
      · rfl
      · rfl
      · rfl
      · exact Nat.le_add_right ..
      · exact Function.update_self ..
      · exact fun x hx => List.mem_append_left _ hx
      · intro b hb
        cases hb
        exact ⟨hnone, _, rfl⟩

theorem kmalloc_eq {u : KernelHeap n} (hk : s.heap.kmalloc t sz = .ok u) (hpc : u.pc t = .idle)
    (htype : KernelHeap.blocktype sz = .ok k) :
    s.kmalloc t sz = .ok ({ s with heap := u }, firstFree s.heap k) := by
  unfold Boot.kmalloc
  rw [hk, lift_ok, KernelHeap.ok_bind, hpc]
  dsimp only
  rw [htype]
  rfl

theorem lastBlock_fresh {u : KernelHeap n} (h : u.Inv v) (hpage : (u.pc t).page = some a) (hk : k < 8) :
    u.live (lastBlock a k) = none := by
  have hfacts := blockSize_facts hk
  have hblk : IsBlock a k (lastBlock a k) := ⟨blocksPerPage k - 1, by omega, rfl⟩
  have hbd := hblk.bounds hk
  cases hlive : u.live (lastBlock a k) with
  | none => rfl
  | some b =>
    have hap := h.thread_apart hpage hlive
    have hpos := h.live_size hlive
    omega

theorem addPage_returns {u w : KernelHeap n} (h : u.Inv v) (hpage : (u.pc t).page = some a) (hk : k < 8)
    (hroots : ∃ roots, w = { u with roots := roots }) (hr : w.addPage t sz k a pr = .ok u') :
    u'.pc t = .idle ∧ u'.runs = u.runs ∧ u.Gives u' sz (lastBlock a k) := by
  obtain ⟨roots, rfl⟩ := hroots
  have hrun := h.runs.single (.thread t) a trivial hpage
  obtain ⟨halign, hpos, -⟩ := h.runs.bounds _ _ hrun
  obtain ⟨hruns, hpc, hlive⟩ := KernelHeap.addPage_gives halign hpos hk hr
  refine ⟨?_, hruns, ⟨lastBlock_fresh h hpage hk, _, hlive⟩⟩
  rw [hpc, Function.update_self]

/-- `subpage_kmalloc` with a page for its pagerefs, where no other thread brings one. -/
theorem Inv.takeRefs (h : s.Inv v) (hheld : s.held = false)
    (hpc : s.heap.pc t = .wantRefs sz k a r j) (hroot : (s.heap.roots r).page = none) :
    s.allocKpages 1 = .error .allocKpages ∨ ∃ va u u' v', s.allocKpages 1 = .ok (s.stole 1, va) ∧
      s.heap.gotPage t va = .ok u ∧ u.resume t = .ok u' ∧ ({ s.stole 1 with heap := u' } : Boot n).Inv v' ∧
      u'.pc t = .idle ∧ s.heap.Gives u' sz (lastBlock a k) := by
  have htop := h.top
  have hbound : s.firstpaddr + 1 * pageSize < 4294967296 := by
    unfold pageSize
    omega
  obtain hlack | ⟨hfits, hle⟩ := h.allocKpages hheld hbound
  · exact .inl hlack
  · right
    have hfresh := h.fresh hle
    have hwants : (s.heap.pc t).wants = some 1 := congrArg HeapPc.wants hpc
    obtain ⟨u, w, hu, hinv, hbusy, -⟩ := h.heap.gotPage h.busy hwants hfresh
    have hgot : s.heap.gotPage t (paddrToKvaddr s.firstpaddr) = .ok (KernelHeap.goto { s.heap with
        runs := Function.update s.heap.runs (paddrToKvaddr s.firstpaddr) (some 1) } t
        (.hasRefs sz k a r j (paddrToKvaddr s.firstpaddr))) := by
      unfold KernelHeap.gotPage
      rw [hpc]
      rfl
    rw [hgot] at hu
    cases hu
    have hpcu : (KernelHeap.goto { s.heap with
        runs := Function.update s.heap.runs (paddrToKvaddr s.firstpaddr) (some 1) } t
        (.hasRefs sz k a r j (paddrToKvaddr s.firstpaddr))).pc t =
        .hasRefs sz k a r j (paddrToKvaddr s.firstpaddr) := Function.update_self ..
    have hok := hinv.threads t
    rw [hpcu] at hok
    obtain ⟨u', w', hu', hinv', hbusy', -⟩ := hinv.takeRefs hbusy hpcu
    have hadd := hu'
    unfold KernelHeap.takeRefs at hadd
    obtain ⟨-, -, hadd⟩ := bind_ok.1 hadd
    split at hadd
    · rename_i hsome
      have hnone := hroot.symm.trans hsome
      cases hnone
    obtain ⟨hidle, hruns, hgives⟩ := addPage_returns hinv (congrArg HeapPc.page hpcu) hok.1 ⟨_, rfl⟩ hadd
    have hI := h.gotPage hle hinv' hbusy' hruns
    refine ⟨_, _, u', w', hfits, hgot, ?_, hI, hidle, ⟨hgives.fresh, hgives.live⟩⟩
    unfold KernelHeap.resume
    rw [hpcu]
    exact hu'

/-- `subpage_kmalloc` once it has its page. -/
theorem Inv.takePage (h : s.Inv v) (hn : n < 256) (hpc : s.heap.pc t = .hasPage sz k a) :
    ∃ u, s.heap.resume t = .ok u ∧
      ((∃ w, ({ s with heap := u } : Boot n).Inv w ∧ u.pc t = .idle ∧ s.heap.Gives u sz (lastBlock a k)) ∨
      (∃ w r j, ({ s with heap := u } : Boot n).Inv w ∧ u.pc t = .wantRefs sz k a r j ∧
        (u.roots r).page = none ∧ u.live = s.heap.live) ∨
      (∃ b, u.pc t = .noRef b) ∧ ∃ w u', ({ s with heap := u' } : Boot n).Inv w ∧ u'.pc t = .idle ∧
        u.resume t = .ok u') := by
  obtain ⟨u, w, hu, hinv, hbusy, -⟩ := h.heap.takePage h.busy hn hpc
  have hok := h.heap.threads t
  rw [hpc] at hok
  have hres : s.heap.resume t = .ok u := by
    unfold KernelHeap.resume
    rw [hpc]
    exact hu
  have hI : ({ s with heap := u } : Boot n).Inv w :=
    h.setHeap hinv hbusy fun _ _ => KernelHeap.resume_runs hres
  refine ⟨u, hres, ?_⟩
  obtain rfl | ⟨r, j, ⟨pg, hadd⟩ | ⟨hnone, rfl⟩⟩ := KernelHeap.takePage_cases hu
  · have hpc' : (s.heap.goto t (.noRef a)).pc t = .noRef a := Function.update_self ..
    obtain ⟨u', w', hu', hinv', hbusy', -⟩ := hinv.resume hbusy hn t
    refine .inr (.inr ⟨⟨a, hpc'⟩, w', u', ?_, ?_, hu'⟩)
    · exact hI.setHeap hinv' hbusy' fun _ _ => KernelHeap.resume_runs hu'
    · unfold KernelHeap.resume at hu'
      rw [hpc'] at hu'
      obtain ⟨x, -, hx⟩ := bind_ok.1 hu'
      cases hx
      exact Function.update_self ..
  · obtain ⟨hidle, -, hgives⟩ := addPage_returns h.heap (congrArg HeapPc.page hpc) hok.1 ⟨_, rfl⟩ hadd
    exact .inl ⟨w, hI, hidle, hgives⟩
  · refine .inr (.inl ⟨w, r, j, hI, Function.update_self .., ?_, rfl⟩)
    show (Function.update s.heap.roots r ((s.heap.roots r).mark j) r).page = none
    rw [Function.update_self]
    exact hnone

theorem newPage_returns {u : KernelHeap n} (hI : ({ s with heap := u } : Boot n).Inv v) (hn : n < 256)
    (hgot : s.heap.gotPage t a = .ok u) (hpc : u.pc t = .hasPage sz k a) (hheld : s.held = false) :
    s.newPage t k a = .error .allocKpages ∨
      ∃ s' v' p, s.newPage t k a = .ok (s', p) ∧ s'.Inv v' ∧ Returns t { s with heap := u } s' sz p := by
  obtain ⟨u₁, hres, hcases⟩ := hI.takePage hn hpc
  change u.resume t = .ok u₁ at hres
  unfold Boot.newPage
  rw [hgot, lift_ok, KernelHeap.ok_bind, hres, lift_ok, KernelHeap.ok_bind]
  obtain ⟨w, hI₁, hidle, hgives⟩ | ⟨w, r, j, hI₁, hpc₁, hroot, hlive⟩ | ⟨⟨b, hpc₁⟩, w, u₂, hI₂, hidle, hres₂⟩ :=
    hcases
  · rw [hidle]
    exact .inr ⟨_, w, _, rfl, hI₁, rfl, rfl, rfl, Nat.le_refl _, hidle, fun _ hx => hx,
      fun b hb => Option.some.inj hb ▸ hgives⟩
  · rw [hpc₁]
    dsimp only
    obtain hlack | ⟨va, u₂, u₃, w', hfits, hgot₂, hres₂, hI₃, hidle, hgives⟩ := hI₁.takeRefs hheld hpc₁ hroot
    · rw [hlack]
      exact .inl rfl
    · right
      rw [hfits, KernelHeap.ok_bind]
      change u₁.gotPage t va = .ok u₂ at hgot₂
      refine ⟨_, w', some (lastBlock a k), ?_, hI₃, rfl, rfl, rfl, Nat.le_add_right .., hidle,
        fun x hx => List.mem_append_left _ hx, ?_⟩
      · show (lift (u₁.gotPage t va) >>= _) = _
        rw [hgot₂, lift_ok, KernelHeap.ok_bind, hres₂]
        rfl
      · intro b hb
        cases hb
        refine ⟨?_, ?_⟩
        · rw [← hlive]
          exact hgives.fresh
        · rw [← hlive]
          exact hgives.live
  · right
    rw [hpc₁]
    have hfree : freeKpages ({ s with heap := u₁ } : Boot n) = .ok { s with heap := u₁ } := by
      unfold freeKpages acquire release
      dsimp only
      rw [hheld]
      rfl
    dsimp only
    rw [hfree, KernelHeap.ok_bind]
    dsimp only
    rw [hres₂]
    exact ⟨_, w, none, rfl, hI₂, rfl, rfl, rfl, Nat.le_refl _, hidle, fun _ hx => hx, nofun⟩

/-- `kmalloc` of a block type without a free block. -/
theorem Inv.kmalloc_newPage (h : s.Inv v) (hn : n < 256) (hpc : s.heap.pc t = .idle) (hheld : s.held = false)
    (hsmall : sz < largestSubpageSize) (hk : KernelHeap.blocktype sz = .ok k)
    (hfree : s.heap.freeBlocks k = 0) :
    s.kmalloc t sz = .error .allocKpages ∨
      ∃ s' v' p, s.kmalloc t sz = .ok (s', p) ∧ s'.Inv v' ∧ Returns t s s' sz p := by
  have htop := h.top
  have hkm := h.heap.kmalloc_full (t := t) hsmall hk hfree
  obtain ⟨u, w, hu, hinv, hbusy, -⟩ := h.heap.kmalloc h.busy hpc sz
  rw [hkm] at hu
  cases hu
  have hpc' : (s.heap.goto t (.wantPage sz k)).pc t = .wantPage sz k := Function.update_self ..
  have hI : ({ s with heap := s.heap.goto t (.wantPage sz k) } : Boot n).Inv w :=
    h.setHeap hinv hbusy fun _ _ hr => hr
  have hbound : s.firstpaddr + 1 * pageSize < 4294967296 := by
    unfold pageSize
    omega
  unfold Boot.kmalloc
  rw [hkm, lift_ok, KernelHeap.ok_bind, hpc']
  dsimp only
  obtain hlack | ⟨hfits, hle⟩ := hI.allocKpages hheld hbound
  · rw [hlack]
    exact .inl rfl
  · have hfresh := hI.fresh hle
    have hassert : (paddrToKvaddr s.firstpaddr % pageSize == 0) = true := by
      rw [hfresh.1]
      rfl
    -- the heap with the new page
    obtain ⟨u₁, w₁, hu₁, hinv₁, hbusy₁, -⟩ := hinv.gotPage hbusy (congrArg HeapPc.wants hpc') hfresh
    have hgot : (s.heap.goto t (.wantPage sz k)).gotPage t (paddrToKvaddr s.firstpaddr) =
        .ok (KernelHeap.goto { s.heap.goto t (.wantPage sz k) with
          runs := Function.update s.heap.runs (paddrToKvaddr s.firstpaddr) (some 1) } t
          (.hasPage sz k (paddrToKvaddr s.firstpaddr))) := by
      unfold KernelHeap.gotPage
      rw [hpc']
      dsimp only
      rw [hassert]
      rfl
    rw [hgot] at hu₁
    have he := Except.ok.inj hu₁
    have hpc₁ : u₁.pc t = .hasPage sz k (paddrToKvaddr s.firstpaddr) := by
      rw [← he]
      exact Function.update_self ..
    have hlive₁ : u₁.live = s.heap.live := by
      rw [← he]
      rfl
    have hI₁ : ({ s.stole 1 with heap := u₁ } : Boot n).Inv w₁ := by
      refine hI.gotPage hle hinv₁ hbusy₁ ?_
      rw [← he]
      rfl
    rw [hfits, KernelHeap.ok_bind]
    dsimp only
    obtain hlack | ⟨s', v', p, hnew, hI', hret⟩ := newPage_returns
      (s := Boot.stole { s with heap := s.heap.goto t (.wantPage sz k) } 1) hI₁ hn (hgot.trans hu₁) hpc₁ hheld
    · exact .inl hlack
    · refine .inr ⟨s', v', p, hnew, hI', hret.held, hret.ramsize, hret.lastpaddr, ?_, hret.idle, ?_, ?_⟩
      · exact Nat.le_trans (Nat.le_add_right ..) hret.firstpaddr
      · exact fun x hx => hret.stolen x (List.mem_append_left _ hx)
      · intro b hb
        have hgives := hret.gives b hb
        refine ⟨?_, ?_⟩
        · rw [← hlive₁]
          exact hgives.fresh
        · rw [← hlive₁]
          exact hgives.live

/-- `kmalloc` with the lock free stops for want of memory or returns. -/
theorem Inv.kmalloc (h : s.Inv v) (hn : n < 256) (hpc : s.heap.pc t = .idle) (hheld : s.held = false)
    (hsz : s.firstpaddr + sz + pageSize < 4294967296) :
    s.kmalloc t sz = .error .allocKpages ∨
      ∃ s' v' p, s.kmalloc t sz = .ok (s', p) ∧ s'.Inv v' ∧ Returns t s s' sz p := by
  by_cases hbig : largestSubpageSize ≤ sz
  · obtain hlack | ⟨s', v', b, hrest⟩ := h.kmalloc_big hpc hheld hbig hsz
    · exact .inl hlack
    · exact .inr ⟨s', v', some b, hrest⟩
  · have hsmall := Nat.not_le.1 hbig
    obtain ⟨k, hk, -, -⟩ := KernelHeap.blocktype_ok (Nat.le_of_lt hsmall)
    cases Nat.eq_zero_or_pos (s.heap.freeBlocks k) with
    | inl hfree => exact h.kmalloc_newPage hn hpc hheld hsmall hk hfree
    | inr hfree =>
      obtain ⟨u, w, b, hu, hinv, hbusy, hfirst, hkeeps, hgives, -⟩ :=
        h.heap.kmalloc_free h.busy hpc hsmall hk hfree
      have hidle : u.pc t = .idle := by
        rw [hkeeps.pc]
        exact hpc
      have hI : ({ s with heap := u } : Boot n).Inv w :=
        h.setHeap hinv hbusy fun a m hr => hkeeps.runs ▸ hr
      refine .inr ⟨_, w, some b, ?_, hI, rfl, rfl, rfl, Nat.le_refl _, hidle, fun _ hx => hx, ?_⟩
      · rw [kmalloc_eq hu hidle hk, hfirst]
      · intro c hc
        cases hc
        exact hgives

/-- Blocks of the given block types have been taken from the pages of the heap. -/
structure Served (u u' : KernelHeap n) (ks : List Nat) : Prop where
  inv : ∃ v, u'.Inv v ∧ u'.Busy v
  keeps : u.Keeps u'
  live : ∀ p c, u.live p = some c → u'.live p = some c
  free : ∀ j, u'.freeBlocks j + ks.count j = u.freeBlocks j

theorem Served.append {u u₁ u₂ : KernelHeap n} (h : Served u u₁ ks) (h' : Served u₁ u₂ ks') :
    Served u u₂ (ks ++ ks') where
  inv := h'.inv
  keeps := {
    roots := h'.keeps.roots.trans h.keeps.roots
    mem := h'.keeps.mem.trans h.keeps.mem
    runs := h'.keeps.runs.trans h.keeps.runs
    sized := h'.keeps.sized.trans h.keeps.sized
    pc := h'.keeps.pc.trans h.keeps.pc }
  live p c hp := h'.live p c (h.live p c hp)
  free j := by
    have h1 := h.free j
    have h2 := h'.free j
    rw [List.count_append]
    omega

/-- A small `kmalloc` is served from the heap whoever has the lock, or needs a page and meets the
lock if it is held. -/
theorem kmalloc_small {u : KernelHeap n} (h : u.Inv v) (hbusy : u.Busy v) (hpc : u.pc t = .idle)
    (hsmall : sz < largestSubpageSize) (hk : KernelHeap.blocktype sz = .ok k) :
    (∃ u' b, Served u u' [k] ∧
      ∀ s : Boot n, s.heap = u → s.kmalloc t sz = .ok ({ s with heap := u' }, some b)) ∨
    u.freeBlocks k = 0 ∧ ∀ s : Boot n, s.heap = u → s.held = true → s.kmalloc t sz = .error .deadlock := by
  cases Nat.eq_zero_or_pos (u.freeBlocks k) with
  | inr hfree =>
    obtain ⟨u', w, b, hu, hinv, hbusy', hfirst, hkeeps, hgives, hcount⟩ :=
      h.kmalloc_free hbusy hpc hsmall hk hfree
    refine .inl ⟨u', b, ⟨⟨w, hinv, hbusy'⟩, hkeeps, fun p c => hgives.keeps, ?_⟩, ?_⟩
    · intro j
      rw [List.count_singleton, ← hcount j]
      by_cases hj : j = k
      · rw [hj, if_pos (beq_self_eq_true k), if_pos rfl]
      · rw [if_neg hj, if_neg]
        rw [beq_iff_eq]
        exact Ne.symm hj
    · intro s hs
      subst hs
      have hidle : u'.pc t = .idle := by
        rw [hkeeps.pc]
        exact hpc
      rw [kmalloc_eq hu hidle hk, hfirst]
  | inl hfree =>
    refine .inr ⟨hfree, ?_⟩
    intro s hs hheld
    subst hs
    have hpc' : (s.heap.goto t (.wantPage sz k)).pc t = .wantPage sz k := Function.update_self ..
    unfold Boot.kmalloc
    rw [h.kmalloc_full hsmall hk hfree, lift_ok, KernelHeap.ok_bind, hpc']
    dsimp only
    unfold Boot.allocKpages acquire
    dsimp only
    rw [hheld]
    rfl

/-- `lock_create` and `cv_create` are served from the heap, or meet the lock if it is held. -/
theorem create_cases (sz len : Nat) {u : KernelHeap n} (h : u.Inv v) (hbusy : u.Busy v) (hpc : u.pc t = .idle)
    (hsz : sz < largestSubpageSize) (hk : KernelHeap.blocktype sz = .ok k)
    (hlen : len < largestSubpageSize) (hj : KernelHeap.blocktype len = .ok j) :
    (∃ u' p, Served u u' [k, j, 1] ∧
      ∀ s : Boot n, s.heap = u → s.create t sz len = .ok ({ s with heap := u' }, some p)) ∨
    (∃ i, u.freeBlocks i < [k, j, 1].count i) ∧
      ∀ s : Boot n, s.heap = u → s.held = true → s.create t sz len = .error .deadlock := by
  obtain ⟨u₁, p, hs₁, hr₁⟩ | ⟨hz, hdead⟩ := kmalloc_small h hbusy hpc hsz hk
  · obtain ⟨w₁, hinv₁, hbusy₁⟩ := hs₁.inv
    have hpc₁ : u₁.pc t = .idle := by
      rw [hs₁.keeps.pc]
      exact hpc
    obtain ⟨u₂, q, hs₂, hr₂⟩ | ⟨hz, hdead⟩ := kmalloc_small hinv₁ hbusy₁ hpc₁ hlen hj
    · obtain ⟨w₂, hinv₂, hbusy₂⟩ := hs₂.inv
      have hpc₂ : u₂.pc t = .idle := by
        rw [hs₂.keeps.pc]
        exact hpc₁
      obtain ⟨u₃, w, hs₃, hr₃⟩ | ⟨hz, hdead⟩ := kmalloc_small (k := 1) hinv₂ hbusy₂ hpc₂
        (show sizeofWchan < largestSubpageSize by decide) rfl
      · refine .inl ⟨u₃, p, hs₁.append (hs₂.append hs₃), ?_⟩
        intro s hs
        unfold create
        rw [hr₁ s hs, KernelHeap.ok_bind]
        dsimp only
        rw [hr₂ _ rfl, KernelHeap.ok_bind]
        dsimp only
        rw [hr₃ _ rfl]
        rfl
      · refine .inr ⟨⟨1, ?_⟩, ?_⟩
        · have h1 := hs₁.free 1
          have h2 := hs₂.free 1
          rw [List.count_cons, List.count_cons]
          rw [List.count_singleton] at h1 h2
          simp only [List.count_singleton_self]
          omega
        · intro s hs hheld
          unfold create
          rw [hr₁ s hs, KernelHeap.ok_bind]
          dsimp only
          rw [hr₂ _ rfl, KernelHeap.ok_bind]
          dsimp only
          rw [hdead { s with heap := u₂ } rfl hheld]
          rfl
    · refine .inr ⟨⟨j, ?_⟩, ?_⟩
      · have h1 := hs₁.free j
        rw [List.count_cons, List.count_cons_self]
        rw [List.count_singleton] at h1
        omega
      · intro s hs hheld
        unfold create
        rw [hr₁ s hs, KernelHeap.ok_bind]
        dsimp only
        rw [hdead { s with heap := u₁ } rfl hheld]
        rfl
  · refine .inr ⟨⟨k, ?_⟩, ?_⟩
    · rw [hz, List.count_cons_self]
      exact Nat.succ_pos _
    · intro s hs hheld
      unfold create
      rw [hdead s hs hheld]
      rfl

end Boot
end Clape
