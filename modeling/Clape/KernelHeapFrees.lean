import Clape.KernelHeapMarks

namespace Clape
set_option autoImplicit true

namespace KernelHeap
variable {n : Nat} {s : KernelHeap n} {v : HeapView}

theorem kassert_true (f : HeapFn) : kassert true f = .ok () := rfl

theorem ok_bind (x : α) (f : α → Except ε β) : (Except.ok x >>= f) = f x := rfl

theorem Inv.length_le (h : s.Inv v) : v.all.length ≤ totalPagerefs := by
  have hnodup : (v.all.map fun pr => (v.slot pr).1 * 256 + (v.slot pr).2).Nodup := by
    apply List.Nodup.map_on _ (h.pages.all.nodup ())
    intro pr hpr qr hqr he
    obtain ⟨-, hj, -⟩ := h.slot_bounds (r := (v.slot pr).1) (j := (v.slot pr).2) (slots_page hpr)
    obtain ⟨-, hi, -⟩ := h.slot_bounds (r := (v.slot qr).1) (j := (v.slot qr).2) (slots_page hqr)
    unfold npagerefsPerPage at hi hj
    have hslot : v.slot pr = v.slot qr := Prod.ext (by omega) (by omega)
    have hp := slots_page (s := s) hpr
    rw [hslot] at hp
    have hsame := h.marks.owned.inj hp (slots_page hqr)
    cases hsame
    rfl
  have hsub : (v.all.map fun pr => (v.slot pr).1 * 256 + (v.slot pr).2) ⊆ List.range totalPagerefs := by
    intro x hx
    obtain ⟨pr, hpr, rfl⟩ := List.mem_map.1 hx
    obtain ⟨hr, hj, -⟩ := h.slot_bounds (r := (v.slot pr).1) (j := (v.slot pr).2) (slots_page hpr)
    rw [List.mem_range]
    unfold totalPagerefs
    unfold numPagerefpages npagerefsPerPage at *
    omega
  have hle := (hnodup.subperm hsub).length_le
  rwa [List.length_map, List.length_range] at hle

theorem Inv.sized_length_le (h : s.Inv v) (k : Nat) : (v.sized k).length ≤ totalPagerefs := by
  have hsub : v.sized k ⊆ v.all := fun pr hpr => ((h.pages.typed k pr).1 hpr).1
  exact ((h.pages.sized.nodup k).subperm hsub).length_le.trans h.length_le

theorem removeFrom_ok [DecidableEq κ] {l : Lists κ Nat} {L : κ → List Nat} (h : l.Rep L)
    (hpr : pr ∈ L k) (hlen : (L k).length ≤ totalPagerefs) :
    ∃ l' L', removeFrom l k pr = .ok l' ∧ l'.Rep L' ∧ ∀ k' d, d ∈ L' k' ↔ d ≠ pr ∧ d ∈ L k' := by
  obtain ⟨A, c, B, hL, -, hc, hfound⟩ | ⟨hnone, -⟩ :=
    search_spec (p := (· == pr)) (h.chain k) hlen none
  · have hcp : c = pr := eq_of_beq hc
    subst hcp
    obtain ⟨L', hrep, hmem⟩ := h.unlink_mem hL
    refine ⟨_, L', ?_, hrep, hmem⟩
    unfold removeFrom
    rw [hfound, Option.or_none]
  · have hp := hnone pr hpr
    rw [beq_self_eq_true] at hp
    cases hp

end KernelHeap

theorem PageOk.push {ref : PageRef} (h : PageOk ref mem live F) (hblk : IsBlock ref.pageaddr ref.blocktype p)
    (hF : p ∉ F) (hp : link mem' p = ref.first)
    (hout : ∀ x, x < p ∨ p + blockSize ref.blocktype ≤ x → mem' x = mem x) :
    PageOk { ref with freelistOffset := p - ref.pageaddr, nfree := ref.nfree + 1 } mem'
      (Function.update live p none) (p :: F) := by
  have hbd := hblk.bounds h.type
  have hpos := (blockSize_facts h.type).1
  constructor
  · exact h.type
  · have hvalid : p - ref.pageaddr ≠ invalidOffset := by
      unfold invalidOffset
      unfold pageSize at hbd
      omega
    have hadd : ref.pageaddr + (p - ref.pageaddr) = p := by omega
    constructor
    · unfold PageRef.first
      rw [if_neg hvalid]
      exact congrArg some hadd
    · rw [hp]
      apply h.chain.congr
      intro c hc
      have hne : c ≠ p := fun he => hF (he ▸ hc)
      unfold link
      rw [hout c ((h.block c hc).apart hblk hne |>.imp (by omega) id)]
  · exact List.nodup_cons.2 ⟨hF, h.nodup⟩
  · show ref.nfree + 1 = (p :: F).length
    rw [List.length_cons, h.count]
  · intro c hc
    cases List.mem_cons.1 hc with
    | inl he =>
      rw [he]
      exact hblk
    | inr hc => exact h.block c hc
  · intro c hc
    by_cases hcp : c = p
    · rw [hcp, Function.update_self]
    · rw [Function.update_of_ne hcp]
      exact h.free c ((List.mem_cons.1 hc).resolve_left hcp)
  · intro c hc hcF
    rw [List.mem_cons, not_or] at hcF
    rw [Function.update_of_ne hcF.1]
    exact h.used c hc hcF.2

namespace KernelHeap
variable {n : Nat} {s : KernelHeap n} {v : HeapView}

/-- The words of the memory when `subpage_kfree` has filled a block and linked it. -/
def fillBlock (m : Nat → Nat) (p size next : Nat) : Nat → Nat :=
  Function.update (fun x => if p ≤ x ∧ x < p + size then 0xdeadbeef else m x) p next

theorem fillBlock_out (hpos : 0 < size) (hx : x < p ∨ p + size ≤ x) : fillBlock m p size next x = m x := by
  unfold fillBlock
  rw [Function.update_of_ne (by omega), if_neg (by omega)]

/-- `subpage_kfree` puts a block in use on the free list of its page. -/
theorem Inv.pushFree (h : s.Inv v) (hpr : pr ∈ v.all)
    (hblk : IsBlock (s.refs pr).pageaddr (s.refs pr).blocktype p) (hlive : s.live p = some b)
    (hsmall : b.size = blockSize (s.refs pr).blocktype) :
    ∃ m ref, KernelHeap.pushFree { s with live := Function.update s.live p none } p pr =
        .ok { s with refs := Function.update s.refs pr ref, mem := m, live := Function.update s.live p none } ∧
      ref.pab = (s.refs pr).pab ∧ ref.first = some p ∧
      KernelHeap.Inv { s with refs := Function.update s.refs pr ref, mem := m, live := Function.update s.live p none }
        { v with free := Function.update v.free pr (p :: v.free pr) } := by
  have hok := h.pages.page pr hpr
  have hfacts := blockSize_facts hok.type
  obtain ⟨-, hpos, htop⟩ := h.runs.bounds _ _ (h.pageRun hpr)
  rw [Nat.one_mul] at htop
  have hbd := hblk.bounds hok.type
  have hnot : p ∉ v.free pr := by
    intro hm
    rw [hok.free p hm] at hlive
    cases hlive
  -- the next free block
  obtain ⟨next, hnext, hfirst, hne⟩ : ∃ next, (if (s.refs pr).freelistOffset = invalidOffset then 0
      else (s.refs pr).pageaddr + (s.refs pr).freelistOffset) = next ∧
      (if next = 0 then none else some next) = (s.refs pr).first ∧ p ≠ next := by
    unfold PageRef.first
    split
    · exact ⟨0, rfl, rfl, by omega⟩
    · rename_i hvalid
      refine ⟨_, rfl, if_neg (by omega), ?_⟩
      have hchain := hok.chain
      unfold PageRef.first at hchain
      rw [if_neg hvalid] at hchain
      obtain ⟨F, hF, -⟩ := hchain.head_some
      intro he
      rw [hF, he] at hnot
      exact hnot List.mem_cons_self
  have hlink : link (fillBlock s.mem p (blockSize (s.refs pr).blocktype) next) p = (s.refs pr).first := by
    unfold link fillBlock
    rw [Function.update_self]
    exact hfirst
  have hpush := hok.push hblk hnot hlink fun x hx => fillBlock_out (by omega) hx
  have hlen := (blocks_length hpush.nodup hpush.block).1
  rw [← hpush.count] at hlen
  change (s.refs pr).nfree + 1 ≤ blocksPerPage (s.refs pr).blocktype at hlen
  refine ⟨fillBlock s.mem p (blockSize (s.refs pr).blocktype) next, { s.refs pr with
    freelistOffset := p - (s.refs pr).pageaddr, nfree := (s.refs pr).nfree + 1 }, ?_, rfl, hpush.chain.1, ?_⟩
  · have hper : blocksPerPage (s.refs pr).blocktype ≤ pageSize := Nat.div_le_self ..
    have hoffset : u32Sub p (s.refs pr).pageaddr = p - (s.refs pr).pageaddr := by
      unfold u32Sub
      omega
    have hnfree : ((s.refs pr).nfree + 1) % 65536 = (s.refs pr).nfree + 1 := by
      unfold pageSize at hper
      omega
    have hpanic : ¬ (pageSize ≤ p - (s.refs pr).pageaddr ∨
        (p - (s.refs pr).pageaddr) % blockSize (s.refs pr).blocktype ≠ 0) := by
      rw [not_or, not_not]
      refine ⟨by omega, ?_⟩
      obtain ⟨i, -, hi⟩ := hblk
      rw [hi, Nat.add_sub_cancel_left]
      exact Nat.mul_mod_left ..
    have h1 : (p != next) = true := bne_iff_ne.2 hne
    have h2 : decide ((s.refs pr).nfree + 1 ≤ blocksPerPage (s.refs pr).blocktype) = true :=
      decide_eq_true hlen
    unfold KernelHeap.pushFree
    dsimp only
    rw [hoffset, if_neg hpanic, hnext, hnfree, h1, h2]
    rfl
  · refine h.change rfl hpush ?_ ?_ ?_
    · intro qr hqr hqp
      have hqok := h.pages.page qr hqr
      have hpos' := (blockSize_facts hqok.type).1
      have hap := h.pages_apart hpr hqr (Ne.symm hqp)
      apply hqok.congr
      · intro c hc
        have hcd := (hqok.block c hc).bounds hqok.type
        apply fillBlock_out
        · omega
        · omega
      · intro c hc
        have hcd := hc.bounds hqok.type
        apply Function.update_of_ne
        omega
    · intro q
      unfold bigRun
      by_cases hq : q = p
      · subst hq
        have hle : ¬ pageSize ≤ b.size := by
          unfold pageSize
          omega
        rw [Function.update_self, hlive]
        exact (if_neg hle).symm
      · rw [Function.update_of_ne hq]
    · intro q c hc
      by_cases hq : q = p
      · rw [hq, Function.update_self] at hc
        cases hc
      · rw [Function.update_of_ne hq] at hc
        exact .inl hc

theorem unmark_page (roots : Nat → KheapRoot) (r j q : Nat) :
    (Function.update roots r ((roots r).unmark j) q).page = (roots q).page := by
  by_cases hq : q = r
  · rw [hq, Function.update_self]
    rfl
  · rw [Function.update_of_ne hq]

theorem marks_unmark {roots : Nat → KheapRoot} {slots slots' : RefOwner n → Option (Nat × Nat)}
    (h : HeapMarks roots slots) (ho : slots o = some (r, j))
    (hp : ∀ x, slots' x = if x = o then none else slots x) :
    HeapMarks (Function.update roots r ((roots r).unmark j)) slots' := by
  obtain ⟨hr, hj⟩ := h.owned.marked_of ho
  constructor
  · apply h.owned.free ho hp
    rintro ⟨q, i⟩
    by_cases hq : q = r
    · subst hq
      rw [Function.update_self, KheapRoot.marks_unmark, Finset.mem_erase]
      simp only [ne_eq, Prod.mk.injEq, true_and]
      tauto
    · rw [Function.update_of_ne hq]
      simp only [ne_eq, Prod.mk.injEq, hq, false_and, not_false_eq_true, true_and]
  · intro q hq
    by_cases hqr : q = r
    · subst hqr
      rw [Function.update_self, KheapRoot.marks_unmark, Finset.card_erase_of_mem hj, ← h.count q hq]
      rfl
    · rw [Function.update_of_ne hqr]
      exact h.count q hq
  · intro q q' hlt hq' hpage
    rw [unmark_page] at hpage
    have hzero := h.order q q' hlt hq' hpage
    by_cases hqr : q' = r
    · subst hqr
      rw [Function.update_self]
      show (roots q').numinuse - 1 = 0
      omega
    · rw [Function.update_of_ne hqr]
      exact hzero

/-- The end of `subpage_kfree`: a page with all its blocks free leaves the heap. -/
theorem Inv.dropPage (h : s.Inv v) (hpr : pr ∈ v.all) (hpc : s.pc t = .idle)
    (hbusy : ∀ qr ∈ v.all, qr ≠ pr → (v.free qr).length < blocksPerPage (s.refs qr).blocktype) :
    ∃ s' v', s.dropPage t pr = .ok s' ∧ s'.Inv v' ∧ s'.Busy v' ∧
      (pr ∈ v'.all ∧ s' = s ∨ s'.live = s.live ∧ s'.runs = s.runs ∧
        s'.pc = Function.update s.pc t (.freePage (s.refs pr).pageaddr)) := by
  have hok := h.pages.page pr hpr
  have hlen := blocks_length hok.nodup hok.block
  unfold KernelHeap.dropPage
  dsimp only
  by_cases hall : (s.refs pr).nfree = blocksPerPage (s.refs pr).blocktype
  · rw [if_pos hall]
    rw [hok.count] at hall
    have hmem : pr ∈ v.sized (s.refs pr).blocktype := (h.pages.typed _ pr).2 ⟨hpr, rfl⟩
    obtain ⟨z, Z, hz, hzrep, hzmem⟩ := removeFrom_ok h.pages.sized hmem (h.sized_length_le _)
    obtain ⟨l, L, hl, hlrep, hlmem⟩ := removeFrom_ok (k := ()) h.pages.all hpr h.length_le
    have hslot := slots_page (s := s) hpr
    have hplace := place_page (s := s) hpr
    have hin : ∀ qr, qr ∈ L () ↔ qr ≠ pr ∧ qr ∈ v.all := fun qr => hlmem () qr
    refine ⟨KernelHeap.goto { s with
      sized := z
      all := l
      roots := Function.update s.roots (v.slot pr).1 ((s.roots (v.slot pr).1).unmark (v.slot pr).2) }
      t (.freePage (s.refs pr).pageaddr), { v with all := L (), sized := Z }, ?_, ?_, ?_, .inr ⟨rfl, rfl, rfl⟩⟩
    · simp only [hz, hl, h.freepageref hpr, bind, Except.bind]
      rfl
    · constructor
      · exact {
          all := hlrep
          sized := hzrep
          typed := by
            intro k qr
            show qr ∈ Z k ↔ qr ∈ L () ∧ (s.refs qr).blocktype = k
            rw [hzmem, hin, h.pages.typed, and_assoc]
          page := fun qr hqr => h.pages.page qr ((hin qr).1 hqr).2 }
      · have hnone : s.place v (.given t) = none := congrArg HeapPc.given hpc
        apply h.runs.move hplace hnone (fun hs => hs.elim)
        intro o
        rw [place_goto]
        cases o with
        | page qr =>
          by_cases hq : qr = pr
          · subst hq
            simp [place, hin]
          · simp [place, hin, hq]
        | refs q =>
          show (if q < numPagerefpages then (Function.update s.roots _ _ q).page else none) = _
          rw [unmark_page]
          rfl
        | thread u =>
          by_cases hu : u = t
          · subst hu
            simp [place, hpc, HeapPc.page]
          · simp [place, hu]
        | spare u =>
          by_cases hu : u = t
          · subst hu
            simp [place, hpc, HeapPc.spare]
          · simp [place, hu]
        | given u => by_cases hu : u = t <;> simp [hu, HeapPc.given, place]
        | big p => simp [place]
      · apply marks_unmark h.marks hslot
        intro o
        rw [slots_goto]
        cases o with
        | page qr =>
          by_cases hq : qr = pr
          · subst hq
            simp [slots, hin]
          · simp [slots, hin, hq]
        | thread u =>
          by_cases hu : u = t
          · subst hu
            simp [slots, hpc, HeapPc.slot]
          · simp [slots, hu]
      · intro qr hqr
        show ∃ page, (Function.update s.roots _ _ (v.slot qr).1).page = some page ∧ _
        rw [unmark_page]
        exact h.located qr ((hin qr).1 hqr).2
      · intro p b hlive
        obtain ⟨hsz, ⟨qr, hqr, hblk, hsize⟩ | hbig⟩ := h.blocks p b hlive
        · refine ⟨hsz, .inl ⟨qr, (hin qr).2 ⟨?_, hqr⟩, hblk, hsize⟩⟩
          intro he
          subst he
          have hfree := hok.free p (hlen.2 hall p hblk)
          have hlive' : s.live p = some b := hlive
          rw [hfree] at hlive'
          cases hlive'
        · exact ⟨hsz, .inr hbig⟩
      · have hother : ∀ u, u ≠ t → (s.pc u).Ok (Function.update s.roots (v.slot pr).1
            ((s.roots (v.slot pr).1).unmark (v.slot pr).2)) := by
          intro u _
          apply ok_roots (h.threads u)
          intro q hq
          rwa [unmark_page]
        exact threads_goto _ t hother trivial
    · intro qr hqr
      obtain ⟨hne, hmem⟩ := (hin qr).1 hqr
      exact hbusy qr hmem hne
  · rw [if_neg hall]
    refine ⟨s, v, rfl, h, ?_, .inl ⟨hpr, rfl⟩⟩
    intro qr hqr
    by_cases hq : qr = pr
    · rw [hq]
      rw [hok.count] at hall
      exact Nat.lt_of_le_of_ne hlen.1 hall
    · exact hbusy qr hqr hq

/-- A block of whole pages is given up. -/
theorem Inv.freeBig (h : s.Inv v) (hpc : s.pc t = .idle) (hlive : s.live p = some b)
    (hout : ∀ pr ∈ v.all, p < (s.refs pr).pageaddr ∨ (s.refs pr).pageaddr + pageSize ≤ p) :
    (∃ m, s.runs p = some m ∧ 0 < m) ∧ p % pageSize = 0 ∧
    (KernelHeap.goto { s with live := Function.update s.live p none } t (.freePage p)).Inv v := by
  obtain ⟨-, ⟨qr, hqr, hblk, -⟩ | ⟨m, hm, hpos, hsize⟩⟩ := h.blocks p b hlive
  · have hbd := hblk.bounds (h.pages.page qr hqr).type
    have hsz := (blockSize_facts (h.pages.page qr hqr).type).1
    have := hout qr hqr
    omega
  · refine ⟨⟨m, hm, hpos⟩, (h.runs.bounds p m hm).1, ?_⟩
    have hle : pageSize ≤ b.size := by
      rw [hsize]
      exact Nat.le_mul_of_pos_left _ hpos
    have hbig : s.place v (.big p) = some p := by
      show bigRun s.live p = some p
      unfold bigRun
      rw [hlive]
      exact if_pos hle
    constructor
    · constructor
      · exact h.pages.all
      · exact h.pages.sized
      · exact h.pages.typed
      · intro qr hqr
        apply (h.pages.page qr hqr).congr (fun _ _ => rfl)
        intro c hc
        have hbd := hc.bounds (h.pages.page qr hqr).type
        have hsz := (blockSize_facts (h.pages.page qr hqr).type).1
        have hap := hout qr hqr
        apply Function.update_of_ne
        omega
    · have hnone : s.place v (.given t) = none := congrArg HeapPc.given hpc
      apply h.runs.move hbig hnone (fun hs => hs.elim)
      intro o
      rw [place_goto]
      cases o with
      | big q =>
        by_cases hq : q = p
        · subst hq
          simp [place, bigRun]
        · simp [place, bigRun, hq]
      | thread u =>
        by_cases hu : u = t
        · subst hu
          simp [place, hpc, HeapPc.page]
        · simp [place, hu]
      | spare u =>
        by_cases hu : u = t
        · subst hu
          simp [place, hpc, HeapPc.spare]
        · simp [place, hu]
      | given u => by_cases hu : u = t <;> simp [hu, HeapPc.given, place]
      | page qr => simp [place]
      | refs r => simp [place]
    · have hslots : (KernelHeap.goto { s with live := Function.update s.live p none } t (.freePage p)).slots v =
          s.slots v := by
        funext o
        rw [slots_goto]
        split
        · subst o
          exact (congrArg HeapPc.slot hpc).symm
        · rfl
      rw [hslots]
      exact h.marks
    · exact h.located
    · intro q c hc
      by_cases hq : q = p
      · have hc' : Function.update s.live p none q = some c := hc
        rw [hq, Function.update_self] at hc'
        cases hc'
      · have hc' : Function.update s.live p none q = some c := hc
        rw [Function.update_of_ne hq] at hc'
        exact h.blocks q c hc'
    · exact threads_goto _ t (fun u _ => h.threads u) trivial

/-- A block is no longer in use: it is the first free block of its page, or the thread gives back the
run that it lies in, where no block is in use. -/
structure Freed (s s' : KernelHeap n) (all : List Nat) (t : Fin n) (p : Nat) : Prop where
  live : s'.live = Function.update s.live p none
  runs : s'.runs = s.runs
  place : (∃ pr ∈ all, IsBlock (s'.refs pr).pageaddr (s'.refs pr).blocktype p ∧
      (s'.refs pr).first = some p ∧ s'.pc = s.pc) ∨
    ∃ a m, s.runs a = some m ∧ a ≤ p ∧ p < a + m * pageSize ∧
      (∀ x, a ≤ x → x < a + m * pageSize → ¬ s'.InLive x) ∧ s'.pc = Function.update s.pc t (.freePage a)

theorem Inv.given_not_inLive (h : s.Inv v) (hg : (s.pc t).given = some a) (hm : s.runs a = some m)
    (hle : a ≤ x) (hlt : x < a + m * pageSize) : ¬ s.InLive x := by
  rintro ⟨p, b, hlive, hp, hx⟩
  have hplace : s.place v (.given t) = some a := hg
  obtain ⟨pr, hpr, hblk, hsize⟩ | ⟨k, hk, hbig, hsize⟩ := h.live_cell hlive
  · have hne : a ≠ (s.refs pr).pageaddr := h.runs.owned.ne hplace (place_page hpr) nofun
    have hap := h.runs.apart _ _ _ _ hm (h.pageRun hpr) hne
    have hbd := hblk.bounds (h.pages.page pr hpr).type
    omega
  · have hne : a ≠ p := h.runs.owned.ne hplace hbig nofun
    have hap := h.runs.apart _ _ _ _ hm hk hne
    omega

theorem Inv.kfree (h : s.Inv v) (hbusy : s.Busy v) (hpc : s.pc t = .idle)
    (hp : p = 0 ∨ (s.live p).isSome = true) :
    ∃ s' v', s.kfree t p = .ok s' ∧ s'.Inv v' ∧ s'.Busy v' ∧ (p = 0 ∧ s' = s ∨ Freed s s' v'.all t p) := by
  unfold KernelHeap.kfree
  by_cases hzero : p = 0
  · rw [if_pos hzero]
    exact ⟨s, v, rfl, h, hbusy, .inl ⟨hzero, rfl⟩⟩
  · rw [if_neg hzero]
    obtain ⟨b, hlive⟩ := Option.isSome_iff_exists.1 (hp.resolve_left hzero)
    -- the test of the loop finds the page of the block
    have htest : ∀ pr ∈ v.all, (decide (sizes.length ≤ (s.refs pr).blocktype) ||
        (decide ((s.refs pr).pageaddr ≤ p) && decide (p < (s.refs pr).pageaddr + pageSize))) = true ↔
        (s.refs pr).pageaddr ≤ p ∧ p < (s.refs pr).pageaddr + pageSize := by
      intro pr hpr
      have htype := (h.pages.page pr hpr).type
      have hle : ¬ sizes.length ≤ (s.refs pr).blocktype := Nat.not_le.2 htype
      rw [decide_eq_false hle, Bool.false_or, Bool.and_eq_true, decide_eq_true_eq, decide_eq_true_eq]
    obtain ⟨A, pr, B, hL, -, hpr, hfound⟩ | ⟨hnone, hmissing⟩ := search_spec (f := totalPagerefs)
      (p := fun pr => decide (sizes.length ≤ (s.refs pr).blocktype) ||
        (decide ((s.refs pr).pageaddr ≤ p) && decide (p < (s.refs pr).pageaddr + pageSize)))
      (h.pages.all.chain ()) h.length_le none
    · have hmem : pr ∈ v.all := by
        rw [hL]
        exact List.mem_append_right _ List.mem_cons_self
      have hin := (htest pr hmem).1 hpr
      have hok := h.pages.page pr hmem
      obtain ⟨hblk, hsize⟩ : IsBlock (s.refs pr).pageaddr (s.refs pr).blocktype p ∧
          b.size = blockSize (s.refs pr).blocktype := by
        obtain ⟨qr, hqr, hblk, hsize⟩ | ⟨k, hk, hbig, hsize⟩ := h.live_cell hlive
        · have hbd := hblk.bounds (h.pages.page qr hqr).type
          have hsz := (blockSize_facts (h.pages.page qr hqr).type).1
          have hsame : pr = qr := h.page_unique hmem hqr hin ⟨hbd.1, by omega⟩
          rw [hsame]
          exact ⟨hblk, hsize⟩
        · have hap := h.page_big_apart hmem hk hbig
          have hpos := h.live_size hlive
          omega
      obtain ⟨m, ref, hpush, hpab, hfirst, hinv⟩ := h.pushFree hmem hblk hlive hsize
      have hrest : ∀ qr ∈ v.all, qr ≠ pr → (Function.update v.free pr (p :: v.free pr) qr).length <
          blocksPerPage (Function.update s.refs pr ref qr).blocktype := by
        intro qr hqr hne
        rw [Function.update_of_ne hne, Function.update_of_ne hne]
        exact hbusy qr hqr
      obtain ⟨s', v', hs', hinv', hbusy', hend⟩ := hinv.dropPage hmem hpc hrest
      have hfreed : Freed s s' v'.all t p := by
        obtain ⟨hpr', rfl⟩ | ⟨hl, hr, hpc'⟩ := hend
        · refine ⟨rfl, rfl, .inl ⟨pr, hpr', ?_, ?_, rfl⟩⟩
          · rw [(pab_update hpab pr).1, (pab_update hpab pr).2]
            exact hblk
          · show (Function.update s.refs pr ref pr).first = some p
            rw [Function.update_self]
            exact hfirst
        · change s'.pc = Function.update s.pc t (.freePage (Function.update s.refs pr ref pr).pageaddr) at hpc'
          rw [(pab_update hpab pr).1] at hpc'
          have hgiven : (s'.pc t).given = some (s.refs pr).pageaddr := by
            rw [hpc', Function.update_self]
            rfl
          have hrun : s'.runs (s.refs pr).pageaddr = some 1 := by
            rw [hr]
            exact h.pageRun hmem
          refine ⟨hl, hr, .inr ⟨(s.refs pr).pageaddr, 1, h.pageRun hmem, hin.1, ?_, ?_, hpc'⟩⟩
          · rw [Nat.one_mul]
            exact hin.2
          · intro x hle hlt
            exact hinv'.given_not_inLive hgiven hrun hle hlt
      refine ⟨s', v', ?_, hinv', hbusy', .inr hfreed⟩
      have h1 : decide ((s.refs pr).blocktype < sizes.length) = true := decide_eq_true hok.type
      rw [hfound]
      dsimp only
      rw [h1, kassert_true, ok_bind, hpush, ok_bind]
      exact hs'
    · have hout : ∀ pr ∈ v.all, p < (s.refs pr).pageaddr ∨ (s.refs pr).pageaddr + pageSize ≤ p := by
        intro pr hpr
        by_contra hin
        have htrue := (htest pr hpr).2 (by omega)
        rw [hnone pr hpr] at htrue
        cases htrue
      obtain ⟨⟨m, hm, hpos⟩, halign, hinv⟩ := h.freeBig hpc hlive hout
      have hgiven : ((KernelHeap.goto { s with live := Function.update s.live p none } t (.freePage p)).pc t).given =
          some p := by
        show (Function.update s.pc t (.freePage p) t).given = some p
        rw [Function.update_self]
        rfl
      have hbig : 0 < m * pageSize := Nat.mul_pos hpos (by decide)
      refine ⟨_, v, ?_, hinv, hbusy, .inr ⟨rfl, rfl, .inr ⟨p, m, hm, Nat.le_refl p, by omega, ?_, rfl⟩⟩⟩
      · rw [hmissing, halign]
        rfl
      · intro x hle hlt
        exact hinv.given_not_inLive hgiven hm hle hlt

end KernelHeap
end Clape
