import Clape.DemandPaging

namespace Clape
set_option autoImplicit true

/-- What a step of `as_copy` does for the child: it goes on, perhaps with a page in `swap->kbuf`; a page
goes to `store_swap`; a cell is taken for a cell of the parent, and gets its page; a frame is copied to a
free one; or the copy ends. -/
inductive Sys.CopyStep (s : Sys) (child : Nat) : Sys → Prop where
  | walk : c.copying = some (child, k, x) → (∀ i y, c.sends = some (i, y) → ∃ v, y = .page child v) →
      CopyStep s child ({ s with kbuf := b }.goto c)
  | store : s.pc s.cur = .storeSwap (.fork child) i v q →
      s.swap.storeBegin (s.as s.cur) v q = .ok (w, c) →
      CopyStep s child ({ s with swap := w }.goto (.storing (.fork child) i c))
  | stored : s.pc s.cur = .storing (.fork child) i c → s.swap.storeEnd s.cur c = .ok w →
      CopyStep s child (({ s with
        swap := w
        disk := writeAt s.disk (s.swap.offset c) pageSize (s.frame i)
        stats := st }.mapPc (Pc.wakeCell c)).goto (.stored (.fork child) i))
  | take : s.pc s.cur = .copySwap child sg (some c) → s.swap.copyBegin sg child = .ok (w, f) →
      CopyStep s child ({ s with swap := w }.goto (.cell (.copy child sg f) c))
  | write : s.pc s.cur = .copyWriting child sg c f →
      CopyStep s child ({ s with
        disk := writeAt s.disk (s.swap.offset f) pageSize s.kbuf
        swap := s.swap.copyEnd c f }.goto (.copySwap child sg (s.swap.lists.next c)))
  | space : s.pc s.cur = .copyPt child i → s.ipt.pt.findspace = some pos →
      s.ipt.copyEntry child i pos = .ok t →
      CopyStep s child ({ s with
        ipt := t
        mem := writeAt s.mem (pos * pageSize) pageSize (s.frame i) }.goto (.copyPt child (i + 1)))
  | finish : s.pc s.cur = .copyPt child i → ¬ i < s.ipt.pt.nEntry →
      s.ipt.pt.endCopyPt s.cur = .ok pt →
      CopyStep s child
        (((({ s with semFork := true }.setPt pt).mapPc Pc.wakePt).setPc child .run).goto .run)

theorem Move.copyStep {s u : Sys} (hm : Move s .advance u)
    (hc : (s.pc s.cur).copying = some (child, k, x)) : s.CopyStep child u := by
  have hno : ∀ {c : Pc}, s.pc s.cur = c → c.copying = none → False := by
    rintro c rfl h
    cases h.symm.trans hc
  have hwalk : ∀ {c : Pc} (b : Nat → UInt8), (∃ k x, c.copying = some (child, k, x)) →
      (∀ i y, c.sends = some (i, y) → ∃ v, y = .page child v) →
      s.CopyStep child ({ s with kbuf := b }.goto c) :=
    fun b ⟨_, _, hc⟩ hs => .walk hc hs
  cases hm with
  | exit hpc => exact (hno hpc rfl).elim
  | allocWait hpc =>
    rcases hpc with ⟨hpc, -⟩ | ⟨hpc, -⟩
    · exact (hno hpc rfl).elim
    · exact (hno hpc rfl).elim
  | allocTake hpc =>
    rcases hpc with ⟨hpc, -⟩ | ⟨hpc, -⟩
    · exact (hno hpc rfl).elim
    · exact (hno hpc rfl).elim
  | allocEvict hpc =>
    rcases hpc with ⟨hpc, -⟩ | ⟨hpc, -⟩
    · exact (hno hpc rfl).elim
    · exact (hno hpc rfl).elim
  | @store e i v q w c hpc hb =>
    cases e with
    | fork r =>
      rw [hpc] at hc
      cases hc
      exact .store hpc hb
    | victim v => exact (hno hpc rfl).elim
    | alloc => exact (hno hpc rfl).elim
  | @storing e i c w st hpc hb =>
    cases e with
    | fork r =>
      rw [hpc] at hc
      cases hc
      exact .stored hpc hb
    | victim v => exact (hno hpc rfl).elim
    | alloc => exact (hno hpc rfl).elim
  | storedFork hpc =>
    rw [hpc] at hc
    cases hc
    exact hwalk s.kbuf ⟨_, _, rfl⟩ (by simp [Pc.sends])
  | @cellSleep e c w hpc hb =>
    rw [(SwapFile.testStore_spec hb).1]
    cases e with
    | copy r sg f =>
      rw [hpc] at hc
      cases hc
      exact hwalk s.kbuf ⟨_, _, rfl⟩ (by simp [Pc.sends])
    | load v i => exact (hno hpc rfl).elim
    | exit sg => exact (hno hpc rfl).elim
  | cellCopy hpc hb =>
    rw [(SwapFile.testStore_spec hb).1]
    rw [hpc] at hc
    cases hc
    exact hwalk s.kbuf ⟨_, _, rfl⟩ (by simp [Pc.sends])
  | @cellWake e c hpc =>
    cases e with
    | copy r sg f =>
      rw [hpc] at hc
      cases hc
      exact hwalk s.kbuf ⟨_, _, rfl⟩ (by simp [Pc.sends])
    | load v i => exact (hno hpc rfl).elim
    | exit sg => exact (hno hpc rfl).elim
  | copyTake hpc hb =>
    rw [hpc] at hc
    cases hc
    exact .take hpc hb
  | copyNext hpc =>
    rw [hpc] at hc
    cases hc
    exact hwalk s.kbuf ⟨_, _, rfl⟩ (by simp [Pc.sends])
  | copyDone hpc =>
    rw [hpc] at hc
    cases hc
    exact hwalk s.kbuf ⟨_, _, rfl⟩ (by simp [Pc.sends])
  | @copyReading r sg c f hpc =>
    rw [hpc] at hc
    cases hc
    exact hwalk (s.cellBytes c) ⟨_, _, rfl⟩ (by simp [Pc.sends])
  | copyWriting hpc =>
    rw [hpc] at hc
    cases hc
    exact .write hpc
  | ptSkip hpc =>
    rw [hpc] at hc
    cases hc
    exact hwalk s.kbuf ⟨_, _, rfl⟩ (by simp [Pc.sends])
  | ptStore hpc =>
    rw [hpc] at hc
    cases hc
    exact hwalk s.kbuf ⟨_, _, rfl⟩ (by simp [Pc.sends])
  | ptSpace hpc _ _ _ hspace hcopy =>
    rw [hpc] at hc
    cases hc
    exact .space hpc hspace hcopy
  | ptEnd hpc hi hend =>
    rw [hpc] at hc
    cases hc
    exact .finish hpc hi hend
  | _ => exact (hno (by assumption) rfl).elim

/-- The copy is not over, or the step ends it. -/
theorem Sys.CopyStep.next {s u : Sys} (h : s.CopyStep child u) :
    ((∃ k x, (u.pc s.cur).copying = some (child, k, x)) ∧ ∀ i y, (u.pc s.cur).sends = some (i, y) →
      (∃ v, y = .page child v) ∨ ∃ e v q, s.pc s.cur = .storeSwap e i v q) ∨
    (∃ i, s.pc s.cur = .copyPt child i) ∧ u.cur = s.cur ∧ u.pc s.cur = .run ∧ u.pc child = .run := by
  have hgo : ∀ {w : Sys} {c : Pc}, w.cur = s.cur → (∃ k x, c.copying = some (child, k, x)) →
      (∀ i y, c.sends = some (i, y) → (∃ v, y = .page child v) ∨ ∃ e v q, s.pc s.cur = .storeSwap e i v q) →
      (∃ k x, ((w.goto c).pc s.cur).copying = some (child, k, x)) ∧
        ∀ i y, ((w.goto c).pc s.cur).sends = some (i, y) →
          (∃ v, y = .page child v) ∨ ∃ e v q, s.pc s.cur = .storeSwap e i v q := by
    intro w c hw hc hs
    rw [Sys.pc_goto, hw, Function.update_self]
    exact ⟨hc, hs⟩
  cases h with
  | walk hc hs => exact .inl (hgo rfl ⟨_, _, hc⟩ fun i y hy => .inl (hs i y hy))
  | @store i v q w c hpc =>
    refine .inl (hgo rfl ⟨_, _, rfl⟩ ?_)
    rintro j y hy
    cases hy
    exact .inr ⟨_, _, _, hpc⟩
  | stored => exact .inl (hgo rfl ⟨_, _, rfl⟩ (by simp [Pc.sends]))
  | take => exact .inl (hgo rfl ⟨_, _, rfl⟩ (by simp [Pc.sends]))
  | write => exact .inl (hgo rfl ⟨_, _, rfl⟩ (by simp [Pc.sends]))
  | space => exact .inl (hgo rfl ⟨_, _, rfl⟩ (by simp [Pc.sends]))
  | @finish i pt hpc =>
    refine .inr ⟨⟨_, hpc⟩, rfl, Sys.pc_goto_self _ _, ?_⟩
    rw [Sys.pc_goto, Sys.pc_setPc]
    by_cases hc : child = s.cur
    · rw [hc]
      exact Function.update_self ..
    · exact (Function.update_of_ne hc ..).trans (Function.update_self ..)

/-- The process has the cell on one of its lists, or has taken it off for a load. -/
def Sys.HasCell (s : Sys) (q c : Nat) : Prop :=
  (∃ sg l, s.Owns sg q l ∧ c ∈ l) ∨ ∃ v, (s.pc q).errand.load = some (v, c)

/-- A step for the child `r` of the running process changes, of the others, only the swap bits of that
process. -/
structure Sys.SparesBut (r : Nat) (s u : Sys) : Prop where
  entries : ∀ i, (s.ipt.pt.entries i).isSpace = false →
    ¬ ((s.ipt.pt.entries i).pid = s.cur ∧ (s.ipt.pt.entries i).user = true) →
    u.ipt.pt.entries i = s.ipt.pt.entries i
  frames : ∀ i, (s.ipt.pt.entries i).isSpace = false → u.bytes (.frame i) = s.bytes (.frame i)
  nodes : ∀ v q o, q ≠ r → (u.ipt.ht.Node v q o ↔ s.ipt.ht.Node v q o)
  lists : ∀ sg q l, q ≠ r → (u.Owns sg q l ↔ s.Owns sg q l)
  cells : ∀ q c, q ≠ r → s.HasCell q c → u.swap.vaddr c = s.swap.vaddr c ∧
    u.swap.store c = s.swap.store c ∧ u.bytes (.cell c) = s.bytes (.cell c)

theorem Sys.Settled.hasCell_off {s : Sys} (h : s.Settled L) (hc : s.HasCell q c) :
    c ∉ L .free ∧ ∀ sg r, q ≠ r → c ∉ L (.seg sg r) := by
  rcases hc with ⟨sg, l, hl, hc⟩ | ⟨v, hv⟩
  · rw [h.owns.1 hl] at hc
    constructor
    · intro hf
      cases h.kept.rep.disjoint _ _ c hc hf
    · intro sg' r hr hc'
      cases h.kept.rep.disjoint _ _ c hc hc'
      exact hr rfl
  · exact ⟨h.kept.load_off hv _, fun sg r _ => h.kept.load_off hv _⟩

theorem Sys.Settled.hasCell_tagged {s : Sys} (h : s.Settled L) (hc : s.HasCell q c)
    (ht : s.cells.Tagged L c r v) : q = r := by
  rcases ht with ⟨⟨sg, hr⟩, hv, htar⟩ | hload
  · by_contra hne
    exact (h.hasCell_off hc).2 sg r hne hr
  · rcases hc with ⟨sg, l, hl, hc⟩ | ⟨w, hw⟩
    · rw [h.owns.1 hl] at hc
      exact (h.kept.load_off hload _ hc).elim
    · exact (h.kept.tagged_unique (.inr hw) (.inr hload)).1

theorem Pc.walk_of_copying {c : Pc} (h : c.copying = some (r, k, x)) : c.errand.walk = Option.none :=
  Sys.Paged.walk_of_forks (Pc.forks_of_copying h)

theorem Pc.steady_walk : Steady fun c => c.errand.walk := by
  constructor
  · intro c
    cases c <;> rfl
  · intro d c
    cases c with
    | cellWait k e w => cases k <;> rfl
    | _ => rfl
  · rfl
  · rfl
  · rfl
  · rfl

/-- While a process copies its memory, `store_swap` is called for its child. -/
structure Sys.Copying (s : Sys) (L : SwapList → List Nat) (p r : Nat) : Prop where
  mid : ∃ k x, (s.pc p).copying = some (r, k, x)
  page : (s.pc p).sends = some (i, .page q v) → q = r
  cell : (s.pc p).sends = some (i, .cell c) → ∃ v, s.cells.Tagged L c r v

theorem PageTable.not_space {pt : PageTable} (hi : (pt.entries i).isSpace = false)
    (hs : pt.findspace = some pos) : i ≠ pos := by
  rintro rfl
  rw [(PageTable.findspace_some hs).2] at hi
  cases hi

namespace Sys.CopyStep
variable {s u : Sys}

theorem entries (h : s.CopyStep r u) (hi : (s.ipt.pt.entries i).isSpace = false)
    (hp : ¬ ((s.ipt.pt.entries i).pid = s.cur ∧ (s.ipt.pt.entries i).user = true)) :
    u.ipt.pt.entries i = s.ipt.pt.entries i := by
  cases h with
  | space hpc hs hc =>
    obtain ⟨-, hpt⟩ := copyEntry_ok hc
    refine (congrArg (fun pt : PageTable => pt.entries i) hpt).trans ?_
    exact Function.update_of_ne (PageTable.not_space hi hs) ..
  | finish hpc hn hend =>
    obtain ⟨-, rfl⟩ := (markCopy_spec ..).ok hend
    exact if_neg fun hc => hp hc.2
  | _ => rfl

theorem frames (h : s.CopyStep r u) (hi : (s.ipt.pt.entries i).isSpace = false) :
    u.bytes (.frame i) = s.bytes (.frame i) := by
  cases h with
  | space hpc hs hc => exact pageAt_writeAt_block s.mem _ (PageTable.not_space hi hs)
  | _ => rfl

theorem nodes (h : s.CopyStep r u) (hs : s.table.Hashed) (hu : u.table.Hashed) (hq : q ≠ r) :
    u.ipt.ht.Node v q o ↔ s.ipt.ht.Node v q o := by
  cases h with
  | @space i pos t hpc hspace hc =>
    obtain ⟨-, hpt⟩ := copyEntry_ok hc
    obtain ⟨-, hsp⟩ := PageTable.findspace_some hspace
    simp only [PtEntry.isSpace, Bool.and_eq_true, Bool.not_eq_true', bne_iff_ne] at hsp
    rw [Sys.node_iff hu, Sys.node_iff hs]
    apply exists_congr
    intro j
    apply and_congr_right
    rintro -
    apply and_congr
    · change Key t.pt.nEntry t.pt.entries j v q ↔ Key s.ipt.pt.nEntry s.ipt.pt.entries j v q
      rw [hpt]
      apply key_but (i := pos) rfl
      · intro d hd
        simp only [PageTable.set, Function.update_of_ne hd]
        exact .refl _
      · intro _ huser
        simp [PtEntry.user, hsp.1.1.1] at huser
      · intro _
        simp only [PageTable.set, Function.update_self]
        exact hq.symm
    · apply not_congr
      apply exists_congr
      intro p
      apply exists_congr
      intro w
      rw [Sys.table_goto]
      by_cases hp : p = s.cur
      · subst hp
        apply iff_of_false
        · intro hr
          cases (Function.update_self ..).symm.trans hr
        · intro hr
          rw [show s.table.role s.cur = (s.pc s.cur).role from rfl, hpc] at hr
          cases hr
      · exact iff_of_eq (congrArg (· = Role.claimed w j) (Function.update_of_ne hp ..))
  | _ => exact Iff.rfl

theorem heads (h : s.CopyStep r u) (hc : s.Copying L s.cur r) (hq : q ≠ r) (sg : Segment) :
    u.swap.lists.head (.seg sg q) = s.swap.lists.head (.seg sg q) := by
  cases h with
  | @store i v p w c hpc hb =>
    obtain ⟨-, -, A, -, -, rfl⟩ := SwapFile.storeBegin_ok hb
    refine (SwapFile.link_head_other ?_).trans (Lists.behead_head_of_ne _ _ (by simp))
    intro sg' he
    cases he
    exact hq (hc.page (i := i) (v := v) (by rw [hpc]; rfl))
  | stored hpc hb => rw [SwapFile.storeEnd_spec hb]; rfl
  | @take sg' c w f hpc hb =>
    obtain ⟨-, -, rfl⟩ := SwapFile.copyBegin_ok hb
    refine (Lists.push_head_of_ne _ _ ?_).trans (Lists.behead_head_of_ne _ _ (by simp))
    intro he
    cases he
    exact hq rfl
  | _ => rfl

theorem nexts (h : s.CopyStep r u) (hL : s.Settled L) (hd : d ∉ L .free) :
    u.swap.lists.next d = s.swap.lists.next d := by
  have hne : ∀ {c}, s.swap.lists.head .free = some c → d ≠ c := by
    rintro c hc rfl
    exact hd (hL.head_free hc)
  cases h with
  | @store i v p w c hpc hb =>
    obtain ⟨hc, -, A, -, -, rfl⟩ := SwapFile.storeBegin_ok hb
    exact (SwapFile.link_free _ _ p c).2 d (hne hc)
  | stored hpc hb => rw [SwapFile.storeEnd_spec hb]; rfl
  | @take sg' c w f hpc hb =>
    obtain ⟨hc, -, rfl⟩ := SwapFile.copyBegin_ok hb
    exact Lists.push_next_of_ne _ _ (hne hc)
  | _ => rfl

theorem cells (h : s.CopyStep r u) (hL : s.InOrder L) (hc : s.Copying L s.cur r)
    (hm : Move s .advance u) (hq : q ≠ r) (hcell : s.HasCell q d) :
    u.swap.vaddr d = s.swap.vaddr d ∧ u.swap.store d = s.swap.store d ∧
      u.bytes (.cell d) = s.bytes (.cell d) := by
  obtain ⟨hfree, hoff⟩ := hL.hasCell_off hcell
  have hbytes : ∀ {c b}, c ≠ d → u.disk = writeAt s.disk (s.swap.offset c) pageSize b →
      u.bytes (.cell d) = s.bytes (.cell d) := by
    intro c b hcd hu
    funext o
    exact hL.cellBytes_of_write hcd hm.offset.1 hu o o.2
  cases h with
  | @store i v p w c hpc hb =>
    obtain ⟨hhead, -, A, -, -, rfl⟩ := SwapFile.storeBegin_ok hb
    have hdc : d ≠ c := by
      rintro rfl
      exact hfree (hL.head_free hhead)
    exact ⟨Function.update_of_ne hdc .., Function.update_of_ne hdc .., rfl⟩
  | @stored i c w st hpc hb =>
    obtain rfl := SwapFile.storeEnd_spec hb
    obtain ⟨v, ht⟩ := hc.cell (i := i) (c := c) (by rw [hpc]; rfl)
    have hdc : d ≠ c := by
      rintro rfl
      exact hq (hL.hasCell_tagged hcell ht)
    exact ⟨rfl, Function.update_of_ne hdc .., hbytes hdc.symm rfl⟩
  | @take sg c w f hpc hb =>
    obtain ⟨-, -, rfl⟩ := SwapFile.copyBegin_ok hb
    exact ⟨rfl, rfl, rfl⟩
  | @write sg c f hpc =>
    have hserves := hL.kept.serves s.cur
    rw [show s.cells.errand s.cur = (s.pc s.cur).errand from rfl, hpc] at hserves
    have hdf : d ≠ f := by
      rintro rfl
      exact hoff _ _ hq hserves.2.1
    exact ⟨Function.update_of_ne hdf .., rfl, hbytes hdf.symm rfl⟩
  | _ => exact ⟨rfl, rfl, rfl⟩

/-- A step of the copy leaves the other processes alone. -/
theorem spares (h : s.CopyStep r u) (hL : s.InOrder L) (hc : s.Copying L s.cur r)
    (hm : Move s .advance u) (hu : u.table.Hashed) : s.SparesBut r u where
  entries _ := h.entries
  frames _ := h.frames
  nodes _ _ _ := h.nodes hL.good.2 hu
  lists sg q l hq := by
    have hwalk : (u.pc q).errand.walk = (s.pc q).errand.walk := by
      by_cases hqc : q = s.cur
      · subst hqc
        obtain ⟨k, x, hmid⟩ := hc.mid
        rw [Pc.walk_of_copying hmid]
        rcases h.next with ⟨⟨k, x, hnew⟩, -⟩ | ⟨-, hnew⟩
        · exact Pc.walk_of_copying hnew
        · rw [hnew.2.1]
          rfl
      · exact hm.steady hL.good.1 Pc.steady_walk hqc
    apply hL.owns_congr hwalk (h.heads hc hq)
    intro sg' d hd
    apply h.nexts hL.toSettled
    intro hf
    cases hL.kept.rep.disjoint _ _ d hd hf
  cells _ _ := h.cells hL hc hm

end Sys.CopyStep

/-- The call of `as_copy`, up to the first point where it can sleep. -/
theorem Move.begins {s u : Sys} (hm : Move s (.fork r) u) : s.pc s.cur = .run ∧ s.pc r = .none ∧
    ∃ pt, s.ipt.pt.prepareCopyPt s.cur = .ok pt ∧ u = ({ s with
        semFork := false
        procs := Function.update s.procs r ⟨s.as s.cur, .embryo⟩ }.setPt pt).goto
          (.copySwap r .text (s.swap.lists.head (.seg .text s.cur))) := by
  cases hm with
  | fork hpc _ _ hr _ hprep => exact ⟨hpc, hr, _, hprep, rfl⟩
  | exit _ ha =>
    rcases ha with ha | ⟨_, ha⟩
    · cases ha
    · cases ha
  | allocWait ha => rcases ha with ⟨-, ha⟩ | ⟨-, ha⟩ <;> cases ha
  | allocTake ha => rcases ha with ⟨-, ha⟩ | ⟨-, ha⟩ <;> cases ha
  | allocEvict ha => rcases ha with ⟨-, ha⟩ | ⟨-, ha⟩ <;> cases ha

theorem Move.begun {s u : Sys} (hm : Move s (.fork r) u) : u.cur = s.cur ∧
    u.pc s.cur = .copySwap r .text (s.swap.lists.head (.seg .text s.cur)) ∧
    u.as s.cur = s.as s.cur ∧ u.as r = s.as s.cur ∧ u.files = s.files := by
  obtain ⟨hrun, hr, pt, -, rfl⟩ := hm.begins
  have hne : s.cur ≠ r := by
    intro he
    rw [← he, hrun] at hr
    cases hr
  have hprocs : ∀ q, (Function.update s.procs r ⟨s.as s.cur, .embryo⟩ q).as =
      if q = r then s.as s.cur else s.as q := by
    intro q
    by_cases hq : q = r
    · rw [hq, Function.update_self, if_pos rfl]
    · rw [Function.update_of_ne hq, if_neg hq]
      rfl
  refine ⟨rfl, Sys.pc_goto_self _ _, ?_, ?_, rfl⟩
  · rw [Sys.as_goto]
    exact (hprocs s.cur).trans (if_neg hne)
  · rw [Sys.as_goto]
    exact (hprocs r).trans (if_pos rfl)

end Clape
