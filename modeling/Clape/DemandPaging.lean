import Clape.PagingRefinement

namespace Clape
set_option autoImplicit true

theorem Sys.Settled.unique {s : Sys} (h : s.Settled L K) (h' : s.Settled M K) : L = M := by
  funext k
  exact (h.kept.rep.chain k).unique (h'.kept.rep.chain k)

theorem Pc.steady_load : Steady fun c => c.errand.load := by
  constructor
  · intro c
    cases c <;> rfl
  · intro d c
    cases c with
    | cellWait k e w => cases k <;> rfl
    | _ => rfl
  · rfl
  · rfl
  · rfl
  · rfl

/-- A thread gets a cell to load from by its call of `load_swap` alone. -/
theorem Move.load {s u : Sys} (hm : Move s a u) (hl : (u.pc s.cur).errand.load = some x) :
    (s.pc s.cur).errand.load = some x ∨
      a = .advance ∧ ∃ i, s.pc s.cur = .loadPage x.1 i := by
  have hgoto : ∀ {w : Sys} {c : Pc}, ((w.goto c).pc s.cur).errand.load = some x → w.cur = s.cur →
      c.errand.load = some x := by
    intro w c hl hcur
    rwa [← hcur, Sys.pc_goto_self] at hl
  have hno : ∀ {w : Sys} {c : Pc}, ((w.goto c).pc s.cur).errand.load = some x → w.cur = s.cur →
      c.errand.load ≠ none := by
    intro w c hl hcur
    rw [hgoto hl hcur]
    exact nofun
  cases hm with
  | dispatch => exact .inl hl
  | write => exact .inl hl
  | hit => exact .inl hl
  | allocFree => exact .inl hl
  | kfree => exact .inl ((Pc.steady_load.wakePt _).symm.trans hl)
  | @spawn q hpc hq =>
    rw [Sys.pc_update rfl] at hl
    by_cases hs : s.cur = q
    · rw [hs, Function.update_self] at hl
      cases hl
    · rw [Function.update_of_ne hs] at hl
      exact .inl hl
  | exec hpc =>
    rw [Sys.pc_update rfl, Function.update_self] at hl
    exact .inl hl
  | @reap q hpc hq =>
    rw [Sys.pc_update rfl] at hl
    by_cases hs : s.cur = q
    · rw [hs, Function.update_self] at hl
      cases hl
    · rw [Function.update_of_ne hs] at hl
      exact .inl hl
  | @loadFound v i as w c hpc has hb =>
    have hnew := Sys.pc_goto_self { s with swap := w } (.cell (.load v i) c)
    cases (congrArg (fun c : Pc => c.errand.load) hnew).symm.trans hl
    exact .inr ⟨rfl, i, hpc⟩
  | @cellSleep k c w hpc =>
    have hl := hgoto hl rfl
    rw [hpc]
    cases k <;> exact .inl hl
  | cellLoad hpc =>
    have hl := hgoto hl rfl
    rw [hpc]
    exact .inl hl
  | @cellWake k c hpc =>
    have hl := hgoto hl rfl
    rw [hpc]
    cases k <;> exact .inl hl
  | _ => exact (hno hl rfl rfl).elim

/-- The page that a thread is about to call `load_swap` for. -/
def Pc.asks : Pc → Option Nat
  | .loadPage v _ => some v
  | _ => Option.none

/-- The process does not exit, and does not call `load_swap` for the page. -/
def Sys.Leaves (q v : Nat) (s : Sys) : Action → Prop
  | .exit | .fault .readonly _ => s.cur ≠ q
  | .advance => s.cur = q → (s.pc q).asks ≠ some v
  | _ => True

instance (q v : Nat) (s : Sys) (a : Action) : Decidable (s.Leaves q v a) :=
  match a with
  | .exit | .fault .readonly _ => inferInstanceAs (Decidable (_ ≠ _))
  | .advance => inferInstanceAs (Decidable (_ → _ ≠ _))
  | .dispatch _ | .kfree _ | .reap _ | .write _ _ _ | .fault .read _ | .fault .write _ | .alloc
  | .fork _ | .spawn _ | .exec _ _ => .isTrue trivial

/-- A process that is not in user mode neither writes nor exits. -/
theorem SysStep.retains {s u : Sys} (hs : SysStep s a u) (hpc : s.pc p ≠ .run) : s.Retains p v a := by
  have hrun : s.pc s.cur = .run → s.cur ≠ p := by
    rintro h rfl
    exact hpc h
  cases a with
  | write k off x => exact fun hcur => (hrun hs.1.1 hcur).elim
  | exit => exact hrun hs.1
  | fault t x =>
    cases t with
    | readonly => exact hrun hs.1.1
    | _ => trivial
  | _ => trivial

namespace Sys.Paged
variable {s u : Sys}

/-- A cell with a page of a process that does not exit gets no other page before the process takes
it off its list. -/
theorem retag_ne (h : s.Paged L m) (ht : s.cells.Tagged L c q v) (hx : (s.pc q).role ≠ .exiting)
    (hload : (s.pc q).errand.load ≠ some (v, c)) (hr : s.retag a = some (d, o)) : d ≠ c := by
  rintro rfl
  have hserves := h.order.kept.serves s.cur
  change Serves _ _ _ _ (s.pc s.cur).errand at hserves
  cases a with
  | advance =>
    change (s.pc s.cur).retag s.swap = _ at hr
    cases hpc : s.pc s.cur with
    | storeSwap k i w p =>
      rw [hpc] at hr
      obtain ⟨c, hc, he⟩ := Option.map_eq_some_iff.1 hr
      cases he
      exact h.order.kept.not_tagged (h.order.head_free hc) ht
    | reading w i c =>
      rw [hpc] at hr
      cases hr
      have hcur : s.cells.Tagged L d s.cur w := .inr (by
        change (s.pc s.cur).errand.load = _
        rw [hpc]
        rfl)
      obtain ⟨rfl, rfl⟩ := h.order.kept.tagged_unique ht hcur
      exact hload (by rw [hpc]; rfl)
    | cell k c =>
      rw [hpc] at hr hserves
      cases k with
      | exit sg =>
        simp only [Pc.retag] at hr
        split at hr
        · cases hr
        · cases hr
          obtain ⟨hmem, -⟩ := hserves.1 _ rfl
          rcases ht with ⟨⟨sg', hmem'⟩, -, -⟩ | hl
          · cases h.order.kept.rep.disjoint _ _ d hmem hmem'
            exact hx (by rw [hpc]; rfl)
          · exact h.order.kept.load_off hl _ hmem
      | load w i => cases hr
      | copy r sg f => cases hr
    | copyWriting r sg c f =>
      rw [hpc] at hr hserves
      cases hr
      exact h.target_not_tagged (q := s.cur) (by rw [hpc]; rfl) hserves.2.1 q v ht
    | _ =>
      rw [hpc] at hr
      cases hr
  | _ => cases hr

/-- A cell with a page that its process leaves alone keeps the page, on the list of the process. -/
theorem tagged_stays (h : s.Paged L m) (hs : SysStep s a u) (hu : u.Paged M m')
    (hF : s.Filed a) (hl : s.Leaves q v a) (hx : (s.pc q).role ≠ .exiting)
    (ht : s.cells.Tagged L c q v) (hload : (s.pc q).errand.load ≠ some (v, c)) :
    u.cells.Tagged M c q v ∧ (u.pc q).errand.load ≠ some (v, c) := by
  obtain ⟨M', hM', htag⟩ := h.order.step hs.move hF
  have hM : M' = M := hM'.toSettled.unique hu.order.toSettled
  subst hM
  apply And.intro
  · cases hr : s.retag a with
    | none =>
      rw [hr] at htag
      exact (htag c q v).2 ht
    | some x =>
      rw [hr] at htag
      exact (htag.2 c (h.retag_ne ht hx hload hr).symm q v).2 ht
  · by_cases hq : q = s.cur
    · subst hq
      intro hnew
      rcases hs.move.load hnew with hold | ⟨ha, i, hpc⟩
      · exact hload hold
      · subst ha
        exact hl rfl (by rw [hpc]; rfl)
    · rwa [hs.move.steady h.order.good.1 Pc.steady_load hq]

/-- `store_swap` creates a cell for the page. -/
theorem creates (h : s.Paged L m) (hs : SysStep s .advance u) (hu : u.Paged M m')
    (hF : s.Filed .advance) (hpc : s.pc s.cur = .storeSwap k i v q) :
    ∃ c, u.pc s.cur = .storing k i c ∧ u.cells.Tagged M c q v ∧
      (u.pc q).errand.load ≠ some (v, c) := by
  have hx := hs.2
  simp only [micro, advance, hpc] at hx
  obtain ⟨⟨w, c⟩, hb, hx⟩ := bind_ok.1 hx
  cases hx
  have hnew := Sys.pc_goto_self { s with swap := w } (.storing k i c)
  obtain ⟨hhead, -⟩ := SwapFile.storeBegin_ok hb
  have hfree := h.order.head_free hhead
  obtain ⟨M', hM', htag⟩ := h.order.step hs.move hF
  have hM : M' = M := hM'.toSettled.unique hu.order.toSettled
  subst hM
  have hr : s.retag .advance = some (c, some (q, v)) := by
    change (s.pc s.cur).retag s.swap = _
    rw [hpc]
    simp only [Pc.retag, hhead, Option.map_some]
  rw [hr] at htag
  refine ⟨c, hnew, (htag.1 q v).2 rfl, ?_⟩
  by_cases hq : q = s.cur
  · rw [hq, hnew]
    intro he
    cases he
  · rw [hs.move.steady h.order.good.1 Pc.steady_load hq]
    exact fun hl => h.order.kept.load_off hl _ hfree

/-- A page in a cell is not mapped, so that its process does not write to it. -/
theorem leaves_retains (h : s.Paged L m) (hs : SysStep s a u) (ht : s.cells.Tagged L c q v)
    (hl : s.Leaves q v a) : s.Retains q v a := by
  cases a with
  | write k off x =>
    rintro rfl e he rfl
    obtain ⟨hpc, has, hk, -⟩ := hs.1
    have hframe : s.Keeps L (.frame e.frame) (s.cur, e.vpage) := h.slot_frame hpc has hk he
    rcases h.tagged_place ht with hc | ⟨p, i, -, hc⟩
    · cases h.shows.once hframe hc
    · cases h.shows.once hframe hc
  | exit => exact hl
  | fault t x =>
    cases t with
    | readonly => exact hl
    | _ => trivial
  | _ => trivial

theorem not_target (h : s.Paged L m) (hemb : (s.pc q).role ≠ .embryo) (hc : c ∈ L (.seg sg q)) :
    ¬ s.cells.Target c := by
  rintro ⟨p, r, hp⟩
  obtain ⟨sg', hmem⟩ := h.order.kept.target_mem hp
  cases h.order.kept.rep.disjoint _ _ c hc hmem
  obtain ⟨k, hrole⟩ := Pc.forking_of_target hp
  exact hemb (h.order.good.1.apart.embryo hrole)

/-- A process that has no errand finds the cell with its page. -/
theorem finds (h : s.Paged L m) (herr : (s.pc q).errand = .idle) (hemb : (s.pc q).role ≠ .embryo)
    (ht : s.cells.Tagged L c q v) :
    ∃ A w, s.as q = some A ∧ s.swap.loadBegin A v q = .ok (w, some c) := by
  obtain ⟨⟨sg, hc⟩, hv, htar⟩ | hload := ht
  · have hhome := (h.order.kept.filed hc).resolve_left htar trivial
    obtain ⟨A, has, hseg⟩ := Option.bind_eq_some_iff.1 hhome
    rw [hv] at hseg
    rcases h.order.search (q := q) (by rw [herr]; rfl) (fun c => s.swap.vaddr c == v) sg with
      ⟨B, d, R, hL, -, hd, hsearch⟩ | ⟨hall, -⟩
    · refine ⟨A, { s.swap with lists := s.swap.lists.unlink (.seg sg q) B.getLast? d }, has, ?_⟩
      have hdL : d ∈ L (.seg sg q) := by simp [hL]
      have hdt : s.cells.Tagged L d q v := .inl ⟨⟨sg, hdL⟩, beq_iff_eq.1 hd, h.not_target hemb hdL⟩
      rw [h.cell_unique (.inl ⟨⟨sg, hc⟩, hv, htar⟩) hdt]
      unfold SwapFile.loadBegin
      rw [hseg]
      simp only [hsearch]
    · have := hall c hc
      rw [show s.swap.vaddr c = v from hv] at this
      simp at this
  · change (s.pc q).errand.load = _ at hload
    rw [herr] at hload
    cases hload

end Sys.Paged

/-- In every careful run a page that is evicted from the frame of a process is found again by its next
fault on the page: `load_swap` finds the cell that `store_swap` created, and the frame of the fault
gets the bytes that the page had when it was evicted. -/
theorem evicted_page_comes_back (h : Run (StepWhen Sys.Careful) (Sys.boot m) tr s)
    (hpc : s.pc s.cur = .storeSwap k i v q) (hact : (s.pc q).role.active = true)
    (hs : StepWhen Sys.Careful s .advance s') :
    ∃ c, s'.pc s.cur = .storing k i c ∧
      ∀ tr' t, Run (StepWhen fun t a => t.Careful a ∧ t.Leaves q v a) s' tr' t →
        t.cur = q → t.pc q = .loadPage v j →
        (∃ A w, t.as q = some A ∧ t.swap.loadBegin A v q = .ok (w, some c)) ∧
        ∀ tr'' u, Run (StepWhen fun t a => t.Careful a ∧ t.pc q ≠ .run) t tr'' u →
          u.pc q = .loaded v j' → u.bytes (.frame j') = s.bytes (.frame i) := by
  obtain ⟨L, n, hp⟩ := Sys.run_paged h
  obtain ⟨⟨hF, hU, hC⟩, hs⟩ := hs
  obtain ⟨M, n', hp', hg⟩ := hp.step hs hF hU hC
  obtain ⟨c, hnew, htag, hload⟩ := hp.creates hs hp' hF hpc
  have hb : s.visible n q v = some (s.bytes (.frame i)) := by
    have hsent : s.Keeps L (.outgoing i) (q, v) := ⟨s.cur, .page q v, by rw [hpc]; rfl, rfl⟩
    rw [Sys.Paged.visible_of_active _ hact, hp.shows.of_holds hsent]
    rfl
  have hb' := hp.keep hs hg (p := q) (v := v) trivial hb
  refine ⟨c, hnew, fun tr' t h' hcur hpct => ?_⟩
  obtain ⟨L₁, n₁, hp₁, hb₁, htag₁, -⟩ := h'.invariant (P := fun t => ∃ L n, t.Paged L n ∧
      t.visible n q v = some (s.bytes (.frame i)) ∧ t.cells.Tagged L c q v ∧
        (t.pc q).errand.load ≠ some (v, c)) ⟨M, n', hp', hb', htag, hload⟩ (by
    intro t a u hP hstep
    obtain ⟨L, n, ht, hb, htag, hload⟩ := hP
    obtain ⟨⟨⟨hF, hU, hC⟩, hl⟩, hstep⟩ := hstep
    obtain ⟨M, n', hu, hg⟩ := ht.step hstep hF hU hC
    have hexit : (t.pc q).role ≠ .exiting := by
      intro hx
      rw [Sys.Paged.visible_of_not (by rw [hx]; exact Bool.false_ne_true)] at hb
      cases hb
    exact ⟨M, n', hu, ht.keep hstep hg (ht.leaves_retains hstep htag hl) hb,
      ht.tagged_stays hstep hu hF hl hexit htag hload⟩)
  subst hcur
  refine ⟨hp₁.finds (by rw [hpct]; rfl) (by rw [hpct]; exact Role.noConfusion) htag₁,
    fun tr'' u h'' hpcu => ?_⟩
  obtain ⟨L₂, n₂, hp₂, hb₂⟩ := h''.invariant (P := fun u => ∃ L n, u.Paged L n ∧
      u.visible n t.cur v = some (s.bytes (.frame i))) ⟨L₁, n₁, hp₁, hb₁⟩ (by
    intro t a u hP hstep
    obtain ⟨L, n, ht, hb⟩ := hP
    obtain ⟨⟨⟨hF, hU, hC⟩, hl⟩, hstep⟩ := hstep
    obtain ⟨M, n', hu, hg⟩ := ht.step hstep hF hU hC
    exact ⟨M, n', hu, ht.keep hstep hg (hstep.retains hl) hb⟩)
  have hrole : (u.pc t.cur).role = .loading v j' := by rw [hpcu]; rfl
  rw [Sys.Paged.visible_of_active _ (by rw [hrole]; rfl)] at hb₂
  have hframe : u.Keeps L₂ (.frame j') (t.cur, v) :=
    hp₂.inFrame_of_key (hp₂.loading_key hrole) (by rw [hpcu]; rfl)
  exact Option.some.inj ((hp₂.shows.of_holds hframe).symm.trans hb₂)

/-- Process 2 writes to its data page, which a program with other segments evicts. -/
def evictData (phs : List ElfPhdr) : List Action :=
  [.spawn 2, .spawn 3, .dispatch 2, .exec 0 (programHeaders 0x400000 4096 0x10000000 4096),
    .fault .read 0x10000000, .advance, .advance, .advance, .write 0 5 7, .dispatch 3, .exec 0 phs,
    .fault .read 0x10000000, .advance]

/-- The fault of the program ends, and process 2 faults on its page again. -/
def faultAgain : List Action :=
  List.replicate 5 .advance ++ [.dispatch 2, .fault .read 0x10000000] ++ List.replicate 4 .advance

/-- The other program has longer segments at the same addresses, and the page comes back. -/
theorem evicted_page_comes_back_data : ∃ s s' t u : Sys, ∃ c A w,
    Run (StepWhen Sys.Careful) (Sys.boot (.blank 1 4))
      (evictData (programHeaders 0x400000 8192 0x10000000 8192)) s ∧
    s.pc s.cur = .storeSwap (.victim 0x10000000) 0 0x10000000 2 ∧
    s.bytes (.frame 0) ⟨5, by decide⟩ = 7 ∧ SysStep s .advance s' ∧
    Run (StepWhen fun t a => t.Careful a ∧ t.Leaves 2 0x10000000 a) s' faultAgain t ∧
    t.swap.loadBegin A 0x10000000 2 = .ok (w, some c) ∧
    Run (StepWhen fun t a => t.Careful a ∧ t.pc 2 ≠ .run) t (List.replicate 3 .advance) u ∧
    u.pc 2 = .loaded 0x10000000 0 ∧ u.bytes (.frame 0) = s.bytes (.frame 0) := by
  obtain ⟨s, hrun, hs⟩ := Sys.run_of_follow (C := Sys.Careful) (s := .boot (.blank 1 4))
    (evictData (programHeaders 0x400000 8192 0x10000000 8192))
    (p := fun s : Sys => decide (s.pc s.cur = .storeSwap (.victim 0x10000000) 0 0x10000000 2 ∧
        (s.pc 2).role.active = true ∧ s.mem 5 = 7) &&
      (s.follow Sys.Careful [.advance]).any fun s' : Sys =>
        (s'.follow (fun (t : Sys) a => t.Careful a ∧ t.Leaves 2 0x10000000 a) faultAgain).any
          fun t : Sys => decide (t.cur = 2 ∧ t.pc 2 = .loadPage 0x10000000 0) &&
            (t.follow (fun (t : Sys) a => t.Careful a ∧ t.pc 2 ≠ .run) (List.replicate 3 .advance)).any
              fun u : Sys => decide (u.pc 2 = .loaded 0x10000000 0)) (by decide +kernel)
  obtain ⟨hs, ht⟩ := Bool.and_eq_true_iff.1 hs
  obtain ⟨hpc, hact, hmem⟩ := of_decide_eq_true hs
  obtain ⟨s', hstep, ht⟩ := Sys.run_of_follow _ ht
  obtain ⟨t, hrun', ht⟩ := Sys.run_of_follow _ ht
  obtain ⟨ht, hu⟩ := Bool.and_eq_true_iff.1 ht
  obtain ⟨hcur, hpct⟩ := of_decide_eq_true ht
  obtain ⟨u, hrun'', hu⟩ := Sys.run_of_follow _ hu
  have hpcu := of_decide_eq_true hu
  obtain ⟨c, -, hback⟩ := evicted_page_comes_back hrun hpc hact hstep.of_single
  obtain ⟨⟨A, w, -, hfind⟩, hbytes⟩ := hback _ t hrun' hcur hpct
  exact ⟨s, s', t, u, c, A, w, hrun, hpc, hmem, hstep.of_single.2, hrun', hfind, hrun'', hpcu,
    hbytes _ u hrun'' hpcu⟩

/-- The other program has its text segment where process 2 has its data segment. The cell goes to the
text list of process 2, whose `load_swap` does not find it, and the page is read from the executable
again. -/
theorem evicted_page_lost : ∃ s s' t u : Sys, ∃ A w,
    Run (StepWhen fun s a => s.Unseen a ∧ s.Contained a) (Sys.boot (.blank 1 4))
      (evictData (programHeaders 0x10000000 4096 0x20000000 4096)) s ∧
    s.pc s.cur = .storeSwap (.victim 0x10000000) 0 0x10000000 2 ∧ (s.pc 2).role.active = true ∧
    s.bytes (.frame 0) ⟨5, by decide⟩ = 7 ∧ SysStep s .advance s' ∧
    Run (StepWhen fun t a => (t.Unseen a ∧ t.Contained a) ∧ t.Leaves 2 0x10000000 a) s' faultAgain t ∧
    t.cur = 2 ∧ t.pc 2 = .loadPage 0x10000000 0 ∧ t.as 2 = some A ∧
    t.swap.loadBegin A 0x10000000 2 = .ok (w, none) ∧
    Run (StepWhen fun t a => (t.Unseen a ∧ t.Contained a) ∧ t.pc 2 ≠ .run) t
      (List.replicate 2 .advance) u ∧
    u.pc 2 = .loaded 0x10000000 0 ∧ u.bytes (.frame 0) ⟨5, by decide⟩ = 0 := by
  obtain ⟨s, hrun, hs⟩ := Sys.run_of_follow (C := fun s a => s.Unseen a ∧ s.Contained a)
    (s := .boot (.blank 1 4)) (evictData (programHeaders 0x10000000 4096 0x20000000 4096))
    (p := fun s : Sys => decide (s.pc s.cur = .storeSwap (.victim 0x10000000) 0 0x10000000 2 ∧
        (s.pc 2).role.active = true ∧ s.mem 5 = 7) &&
      (s.follow (fun (s : Sys) a => s.Unseen a ∧ s.Contained a) [.advance]).any fun s' : Sys =>
        (s'.follow (fun (t : Sys) a => (t.Unseen a ∧ t.Contained a) ∧ t.Leaves 2 0x10000000 a)
          faultAgain).any fun t : Sys => decide (t.cur = 2 ∧ t.pc 2 = .loadPage 0x10000000 0) &&
            (t.as 2).any (fun A =>
              (t.swap.loadBegin A 0x10000000 2).toOption.any fun r => r.2.isNone) &&
            (t.follow (fun (t : Sys) a => (t.Unseen a ∧ t.Contained a) ∧ t.pc 2 ≠ .run)
              (List.replicate 2 .advance)).any
                fun u : Sys => decide (u.pc 2 = .loaded 0x10000000 0 ∧ u.mem 5 = 0)) (by decide +kernel)
  obtain ⟨hs, ht⟩ := Bool.and_eq_true_iff.1 hs
  obtain ⟨hpc, hact, hmem⟩ := of_decide_eq_true hs
  obtain ⟨s', hstep, ht⟩ := Sys.run_of_follow _ ht
  obtain ⟨t, hrun', ht⟩ := Sys.run_of_follow _ ht
  obtain ⟨ht, hu⟩ := Bool.and_eq_true_iff.1 ht
  obtain ⟨ht, hfind⟩ := Bool.and_eq_true_iff.1 ht
  obtain ⟨hcur, hpct⟩ := of_decide_eq_true ht
  obtain ⟨A, has, hfind⟩ := (Option.any_eq_true _ _).1 hfind
  obtain ⟨u, hrun'', hu⟩ := Sys.run_of_follow _ hu
  obtain ⟨hpcu, hmemu⟩ := of_decide_eq_true hu
  obtain ⟨⟨w, r⟩, hw, hnone⟩ := (Option.any_eq_true _ _).1 hfind
  cases Option.isNone_iff_eq_none.1 hnone
  cases hload : t.swap.loadBegin A 0x10000000 2 with
  | error e =>
    rw [hload] at hw
    cases hw
  | ok r =>
    rw [hload] at hw
    cases hw
    exact ⟨s, s', t, u, A, w, hrun, hpc, hact, hmem, hstep.of_single.2, hrun', hcur, hpct, has, hload,
      hrun'', hpcu, hmemu⟩

end Clape
