import Clape.ForkSteps

namespace Clape
set_option autoImplicit true

namespace Sys.Paged
variable {s u : Sys}

/-- What `load_swap` finds is the cell with the page. -/
theorem found (h : s.Paged L m) (herr : (s.pc p).errand = .idle) (hemb : (s.pc p).role ≠ .embryo)
    (hb : s.swap.loadBegin A v p = .ok (w, some c)) : s.cells.Tagged L c p v := by
  obtain ⟨sg, prev, -, hsearch, -⟩ := SwapFile.loadBegin_some hb
  rcases h.order.search (q := p) (by rw [herr]; rfl) (fun c => s.swap.vaddr c == v) sg with
    ⟨B, d, R, hL, -, hd, hfound⟩ | ⟨-, hmissing⟩
  · rw [hfound] at hsearch
    cases hsearch
    have hc : c ∈ L (.seg sg p) := by simp [hL]
    exact .inl ⟨⟨sg, hc⟩, beq_iff_eq.1 hd, h.not_target hemb hc⟩
  · rw [hmissing] at hsearch
    cases hsearch

/-- In user mode the hash table has the resident pages of a process. -/
theorem lookup (h : s.Paged L m) (hpc : s.pc p = .run) :
    (∃ i, s.ipt.ht.getIndexFromHash v p = .ok (some i) ∧ s.Keeps L (.frame i) (p, v)) ∨
      s.ipt.ht.getIndexFromHash v p = .ok none ∧ ∀ i, ¬ s.Keeps L (.frame i) (p, v) := by
  obtain ⟨o, ho⟩ := h.order.good.2.indexed.looks v p
  cases o with
  | some i =>
    have hk := (h.order.good.2.indexed.lookup_some ho).1
    exact .inl ⟨i, ho, h.inFrame_of_key hk (by rw [hpc]; rfl)⟩
  | none =>
    refine .inr ⟨ho, ?_⟩
    rintro i ⟨hk, -⟩
    obtain ⟨q, w, hq⟩ := h.order.good.2.indexed.lookup_none ho hk
    obtain ⟨-, -, -, -, hpid⟩ := (h.order.good.1.fits i).held (q := q) (o := some w) (by
      rw [hq]
      rfl)
    have hqp : q = p := hpid.symm.trans hk.2.2.2
    rw [hqp, show s.table.role p = (s.pc p).role from rfl, hpc] at hq
    cases hq

end Sys.Paged

/-- What is seen of a process that forks. -/
theorem Sys.seen_forks {s u : Sys} (hs : SysStep s a u) (hf : (s.pc s.cur).role.forks = true) :
    s.seen a u = .idle ∨ ∃ r, s.seen a u = .fork s.cur r := by
  have hpc : s.pc s.cur ≠ .run := by
    intro h
    rw [h] at hf
    cases hf
  unfold Sys.seen
  split
  · exact (hpc hs.1.1).elim
  · split
    · rename_i h _
      exact (hpc h).elim
    · rename_i h _
      rw [h] at hf
      cases hf
    · rename_i h _
      rw [h] at hf
      cases hf
    · rename_i h _
      rw [h] at hf
      cases hf
    · exact .inr ⟨_, rfl⟩
    · exact .inl rfl

/-- The memory of a process does not change while it forks. -/
theorem Sys.Ghost.forking {s u : Sys} (hg : s.Ghost a u m m') (hs : SysStep s a u) (ho : s.table.Own)
    (hf : (s.pc p).role.forks = true) (v : Nat) : m' (p, v) = m (p, v) := by
  have hother : ∀ {w o}, s.cur ≠ p → Function.update m (s.cur, w) o (p, v) = m (p, v) := by
    intro w o hne
    apply Function.update_of_ne
    intro he
    cases he
    exact hne rfl
  have hne : ∀ {e}, s.seen a u = e → e ≠ .idle → (∀ r, e ≠ .fork s.cur r) → s.cur ≠ p := by
    rintro e he hidle hfork rfl
    rcases Sys.seen_forks hs hf with h | ⟨r, h⟩
    · exact hidle (he.symm.trans h)
    · exact hfork r (he.symm.trans h)
  cases hg with
  | same => rfl
  | begin => rfl
  | fork => rfl
  | change _ _ _ hseen => exact hother (hne hseen (by simp) fun r => by simp)
  | touch _ _ _ hseen => exact hother (hne hseen (by simp) fun r => by simp)
  | @copy r k w x hseen hcopy =>
    apply Function.update_of_ne
    intro he
    cases he
    obtain ⟨j, hj⟩ := Pc.forking_of_copying hcopy
    have hemb := ho.apart.embryo (q := s.cur) hj
    rw [show s.table.role p = (s.pc p).role from rfl] at hemb
    rw [hemb] at hf
    cases hf
  | lose hx hor hrest =>
    apply hrest p v
    rintro rfl
    rcases hor with hseen | ⟨-, hrole⟩
    · exact hne hseen (by simp) (fun r => by simp) rfl
    · rw [hrole] at hf
      cases hf

theorem Move.files {s u : Sys} (hm : Move s a u) : u.files = s.files := by
  cases hm with
  | _ => rfl

theorem Move.as_cur {s u : Sys} (hm : Move s a u) (hpc : s.pc s.cur ≠ .run) : u.as s.cur = s.as s.cur := by
  cases hm with
  | dispatch => rfl
  | kfree => rfl
  | storing => exact congrFun ((Sys.as_goto ..).trans (Sys.as_mapPc ..)) _
  | ptEnd => exact congrFun ((Sys.as_goto ..).trans ((Sys.as_setPc ..).trans (Sys.as_mapPc ..))) _
  | write h => exact (hpc h).elim
  | hit h => exact (hpc h).elim
  | allocFree h => exact (hpc h).elim
  | fork h => exact (hpc h).elim
  | spawn h => exact (hpc h).elim
  | exec h => exact (hpc h).elim
  | reap h => exact (hpc h).elim
  | _ => exact congrFun (Sys.as_goto ..) _

namespace Sys.Paged
variable {s u : Sys}

/-- A cell that is stored for the child stays a cell of the child. -/
theorem tagged_child (h : s.Paged L m) (hs : SysStep s a u) (hu : u.Paged M m') (hF : s.Filed a)
    (hr : (s.pc r).role = .embryo) (ht : s.cells.Tagged L c r v) : u.cells.Tagged M c r v := by
  have hne : s.cur ≠ r := by
    rintro rfl
    exact hs.not_embryo hr
  have hl : s.Leaves r v a := by
    cases a with
    | exit => exact hne
    | fault t x =>
      cases t with
      | readonly => exact hne
      | _ => trivial
    | advance => exact fun hc => (hne hc).elim
    | _ => trivial
  refine (h.tagged_stays hs hu hF hl (by rw [hr]; exact Role.noConfusion) ht ?_).1
  rw [Pc.eq_embryo hr]
  intro he
  cases he

/-- A copy goes on, or the child has the memory of the process. -/
theorem copying_step (h : s.Paged L m) (hs : SysStep s a u) (hu : u.Paged M m') (hg : s.Ghost a u m m')
    (hF : s.Filed a) (hc : s.Copying L p r) :
    u.Copying M p r ∨ u.cur = p ∧ u.pc p = .run ∧ u.pc r = .run ∧ ∀ v, m' (r, v) = m (p, v) := by
  obtain ⟨k, x, hmid⟩ := hc.mid
  have hr := h.child_embryo hmid
  have hm := hs.move
  have hsame : (u.pc p).copying = (s.pc p).copying → (u.pc p).sends = (s.pc p).sends → u.Copying M p r := by
    intro hcop hsend
    refine ⟨⟨k, x, hcop.trans hmid⟩, fun hq => hc.page (hsend.symm.trans hq), fun hq => ?_⟩
    obtain ⟨v, ht⟩ := hc.cell (hsend.symm.trans hq)
    exact ⟨v, h.tagged_child hs hu hF hr ht⟩
  by_cases hp : p = s.cur
  · subst hp
    rcases hm.pc_cur (by rintro he; rw [he] at hmid; cases hmid) with he | he | rfl
    · exact .inl (hsame (by rw [he]) (by rw [he]))
    · exact .inl (hsame (by rw [he, Pc.steady_copying.wakePt]) (by rw [he, Pc.steady_sends.wakePt]))
    · have hstep := hm.copyStep hmid
      rcases hstep.next with ⟨hmid', hsend⟩ | ⟨⟨i, hpc⟩, hcur, hrun, hchild⟩
      · refine .inl ⟨hmid', fun hq => ?_, fun {i c} hq => ?_⟩
        · rcases hsend _ _ hq with ⟨v, he⟩ | ⟨e, v, q, hpc⟩
          · cases he
            rfl
          · obtain ⟨c, hnew, -⟩ := h.creates hs hu hF hpc
            rw [hnew] at hq
            cases hq
        · rcases hsend _ _ hq with ⟨v, he⟩ | ⟨e, v, q, hpc⟩
          · cases he
          · obtain ⟨d, hnew, ht, -⟩ := h.creates hs hu hF hpc
            rw [hnew] at hq
            cases hq
            have hq := hc.page (i := i) (v := v) (by rw [hpc]; rfl)
            exact ⟨v, hq ▸ ht⟩
      · refine .inr ⟨hcur, hrun, hchild, fun v => ?_⟩
        have hseen : s.seen .advance u = .fork s.cur r := by
          simp only [seen, hpc, hrun]
        have hstep := h.visible_step hs hg
        rw [hseen] at hstep
        obtain ⟨-, hmem⟩ := hstep
        have hv := congrFun (congrFun hmem r) v
        rw [Function.update_self, visible_of_active _ (by rw [hchild]; rfl),
          visible_of_active _ (by rw [hpc]; rfl)] at hv
        exact hv
  · exact .inl (hsame (hm.steady h.order.good.1 Pc.steady_copying hp)
      (hm.steady h.order.good.1 Pc.steady_sends hp))

end Sys.Paged

theorem Sys.Ghost.begins {s u : Sys} (hg : s.Ghost (.fork r) u m m') (hs : SysStep s (.fork r) u) :
    u.Copying M s.cur r ∧ ∀ v, m' (s.cur, v) = m (s.cur, v) := by
  obtain ⟨-, hnew, -⟩ := hs.move.begun
  have hrun := hs.move.begins.1
  constructor
  · refine ⟨⟨_, _, by rw [hnew]; rfl⟩, fun hq => ?_, fun hq => ?_⟩
    · rw [hnew] at hq
      cases hq
    · rw [hnew] at hq
      cases hq
  · apply hg.of_idle
    · simp only [seen, hrun, hnew]
    · rw [hnew]
      exact Role.noConfusion
    · intro k x hcop
      rw [hrun] at hcop
      cases hcop

/-- While the process of state `s` copies its memory, and when it is back in user mode, its pages and its
address space are what they were. -/
structure Sys.MidFork (s : Sys) (m : Nat × Nat → Option Page) (r : Nat) (t : Sys) (L : SwapList → List Nat)
    (n : Nat × Nat → Option Page) : Prop where
  paged : t.Paged L n
  memory : n (s.cur, v) = m (s.cur, v)
  space : t.as s.cur = s.as s.cur
  child : t.as r = s.as s.cur
  files : t.files = s.files
  phase : t.Copying L s.cur r ∨ t.cur = s.cur ∧ t.pc s.cur = .run ∧ t.pc r = .run ∧
    ∀ v, n (r, v) = n (s.cur, v)

namespace Sys.MidFork
variable {s t u : Sys}

theorem copying (h : s.MidFork m r t L n) (hf : (t.pc s.cur).role.forks = true) : t.Copying L s.cur r := by
  apply h.phase.resolve_right
  rintro ⟨-, hrun, -⟩
  rw [hrun] at hf
  cases hf

theorem step (h : s.MidFork m r t L n) (hs : StepWhen Sys.Careful t a u)
    (hf : (t.pc s.cur).role.forks = true) : ∃ M n', s.MidFork m r u M n' := by
  obtain ⟨⟨hF, hU, hC⟩, hs⟩ := hs
  obtain ⟨M, n', hu, hg⟩ := h.paged.step hs hF hU hC
  have hm := hs.move
  obtain ⟨k, x, hmid⟩ := (h.copying hf).mid
  have hr := h.paged.child_embryo hmid
  have hmem : ∀ v, n' (s.cur, v) = n (s.cur, v) := hg.forking hs h.paged.order.good.1 hf
  refine ⟨M, n', hu, fun {v} => (hmem v).trans h.memory, ?_, ?_, hm.files.trans h.files, ?_⟩
  · rw [← h.space]
    by_cases hcur : s.cur = t.cur
    · rw [hcur] at hf ⊢
      apply hm.as_cur
      intro hrun
      rw [hrun] at hf
      cases hf
    · apply hm.as_other hcur
      · intro hnone
        rw [hnone] at hf
        cases hf
      · intro hz
        rw [hz] at hf
        cases hf
  · rw [← h.child]
    apply hm.as_other
    · rintro rfl
      exact hs.not_embryo hr
    · intro hnone
      rw [hnone] at hr
      cases hr
    · intro hz
      rw [hz] at hr
      cases hr
  · rcases h.paged.copying_step hs hu hg hF (h.copying hf) with hc | ⟨hcur, hrun, hchild, hall⟩
    · exact .inl hc
    · exact .inr ⟨hcur, hrun, hchild, fun v => (hall v).trans (hmem v).symm⟩

end Sys.MidFork

end Clape
