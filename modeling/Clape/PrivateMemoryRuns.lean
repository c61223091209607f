import Clape.PrivateMemoryMoves

namespace Clape
set_option autoImplicit true

/-- The calls of `VOP_READ` and `VOP_WRITE` that rely on what is in memory. -/
def Pc.entered : Pc → Option Pc
  | .elfReading v i => some (.elfReading v i)
  | .copyWriting r sg c f => some (.copyWriting r sg c f)
  | _ => Option.none

theorem Pc.steady_entered : Steady entered := by
  constructor
  · intro c
    cases c <;> rfl
  · intro d c
    cases c <;> rfl
  · rfl
  · rfl
  · rfl
  · rfl

theorem Pc.eq_of_entered {c : Pc} (h : c.entered = some d) : c = d := by
  cases c with
  | elfReading v i => cases h; rfl
  | copyWriting r sg e f => cases h; rfl
  | _ => cases h

/-- The operation relies on nothing but the page table and the cells. -/
def Pc.plain : Pc → Bool
  | .elfReading _ _ | .copyWriting _ _ _ _ | .storeSwap _ _ _ _ | .storing (.fork _) _ _ => false
  | _ => true

namespace Sys.Ghost
variable {s u : Sys}

theorem of_ne (hg : s.Ghost a u m m') (hp : p ≠ s.cur)
    (hr : ∀ k w, (s.pc s.cur).copying ≠ some (p, k, w)) (v : Nat) : m' (p, v) = m (p, v) := by
  have hne : ∀ {w}, (p, v) ≠ (s.cur, w) := by
    intro w he
    cases he
    exact hp rfl
  cases hg with
  | change => exact Function.update_of_ne hne ..
  | touch => exact Function.update_of_ne hne ..
  | copy _ hc _ _ =>
    apply Function.update_of_ne
    intro he
    cases he
    exact hr _ _ hc
  | lose _ _ hother => exact hother p v hp
  | _ => rfl

theorem of_idle (hg : s.Ghost a u m m') (hseen : s.seen a u = .idle) (hu : (u.pc s.cur).role ≠ .exiting)
    (hr : ∀ k w, (s.pc s.cur).copying ≠ some (s.cur, k, w)) (v : Nat) : m' (s.cur, v) = m (s.cur, v) := by
  cases hg with
  | change _ _ _ hs _ =>
    rw [hseen] at hs
    cases hs
  | touch _ _ _ hs _ =>
    rw [hseen] at hs
    cases hs
  | copy _ hc _ _ =>
    apply Function.update_of_ne
    intro he
    cases he
    exact hr _ _ hc
  | lose hx _ _ => exact (hu hx).elim
  | _ => rfl

end Sys.Ghost

theorem Sys.Prepared.plain {u : Sys} (hu : u.pc q = c) (hc : c.plain = true) : u.Prepared m q where
  fresh hq := by
    rw [hu] at hq
    rw [hq] at hc
    cases hc
  buffer hq := by
    rw [hu] at hq
    rw [hq] at hc
    cases hc
  aside hq := by
    rw [hu] at hq
    cases c with
    | storeSwap => cases hc
    | _ => cases hq
  source hq := by
    rw [hu] at hq
    cases c with
    | storeSwap => cases hc
    | storing k i d =>
      cases k with
      | fork r => cases hc
      | _ => cases hq
    | _ => cases hq

namespace Sys.Paged
variable {s u : Sys}

theorem child_embryo (h : s.Paged L m) (hq : (s.pc q).copying = some (r, k, w)) :
    (s.pc r).role = .embryo := by
  obtain ⟨j, hj⟩ := Pc.forking_of_copying hq
  exact h.order.good.1.apart.embryo (q := q) hj

theorem not_child (h : s.Paged L m) (hp : (s.pc p).role ≠ .embryo) (k : Nat)
    (w : Option (Segment × Option Nat)) : (s.pc q).copying ≠ some (p, k, w) := fun hq =>
  hp (h.child_embryo hq)

/-- What the operation of a process relies on stays while others run. -/
theorem prepared_other (h : s.Paged L m) (hm : Move s a u) (hC : s.Contained a)
    (hg : s.Ghost a u m m') (hq : q ≠ s.cur) : u.Prepared m' q where
  fresh {v i} hpc := by
    have ho := h.order.good.1
    have hent := hm.steady ho Pc.steady_entered hq
    rw [hpc] at hent
    have hs : s.pc q = .elfReading v i := Pc.eq_of_entered hent.symm
    have hrole : (s.pc q).role = .loading v i := by rw [hs]; rfl
    obtain ⟨hno, A, bz, offset, dst, len, has, hplan, hz⟩ := (h.doing q).fresh hs
    constructor
    · rw [hg.of_ne hq (h.not_child (by rw [hrole]; simp))]
      exact hno
    · refine ⟨A, bz, offset, dst, len, ?_, hplan, ?_⟩
      · rw [hm.as_other hq (by rw [hs]; simp) (by rw [hs]; simp)]
        exact has
      · intro hbz
        rw [h.held_bytes hm hC hq (o := some v) (by rw [hrole]; rfl)]
        exact hz hbz
  buffer {r sg c f} hpc := by
    have ho := h.order.good.1
    have hent := hm.steady ho Pc.steady_entered hq
    rw [hpc] at hent
    have hs : s.pc q = .copyWriting r sg c f := Pc.eq_of_entered hent.symm
    have hrole : (s.pc q).role = .forking r 0 := by rw [hs]; rfl
    have hf : (s.pc q).role.forks = true := by rw [hrole]; rfl
    have hserves := h.order.kept.serves q
    rw [show s.cells.errand q = (s.pc q).errand from rfl, hs] at hserves
    have hbuf : u.kbuf = s.kbuf := by
      cases hm with
      | copyReading hcur => exact (hq (ho.apart.sole (q := q) (r := s.cur) hf (by
          rw [show s.table.role s.cur = (s.pc s.cur).role from rfl, hcur]
          rfl))).elim
      | _ => rfl
    rw [((h.walked hm hf sg).2 c hserves.1).2, hg.of_ne hq (h.not_child (by rw [hrole]; simp)), hbuf]
    exact (h.doing q).buffer hs
  aside {v p} hpc := by
    cases hc : u.pc q with
    | storeSwap k i v' p' => exact (hq (hm.calls h.order.filing hc).1).elim
    | _ =>
      rw [hc] at hpc
      cases hpc
  source {i} hpc := by
    rw [hm.steady h.order.good.1 Pc.steady_copies hq] at hpc
    obtain ⟨hi, hu, hpid⟩ := (h.doing q).source hpc
    obtain ⟨r, hr⟩ := Pc.forks_of_copies hpc
    obtain ⟨hi', hu', -, hpid'⟩ := (h.frozen hm (by rw [hr]; rfl) i _).2 ⟨hi, hu, rfl, hpid⟩
    exact ⟨hi', hu', hpid'⟩

/-- A thread that stays where it is, and does not sleep in a call of `store_swap`. -/
theorem prepared_stay (h : s.Paged L m) (hm : Move s a u) (hg : s.Ghost a u m m')
    (hseen : s.seen a u = .idle) (hrole : (u.pc s.cur).role = (s.pc s.cur).role)
    (hent : (u.pc s.cur).entered = (s.pc s.cur).entered) (hfiles : (u.pc s.cur).files = none)
    (hcopies : (u.pc s.cur).copies = (s.pc s.cur).copies) (has : u.as s.cur = s.as s.cur)
    (hmem : u.mem = s.mem) (hbuf : u.kbuf = s.kbuf) (hva : u.swap.vaddr = s.swap.vaddr) :
    u.Prepared m' s.cur where
  fresh {v i} hpc := by
    rw [hpc] at hent hrole
    have hs : s.pc s.cur = .elfReading v i := Pc.eq_of_entered hent.symm
    obtain ⟨hno, A, bz, offset, dst, len, hA, hplan, hz⟩ := (h.doing s.cur).fresh hs
    refine ⟨?_, A, bz, offset, dst, len, has.trans hA, hplan, ?_⟩
    · rw [hg.of_idle hseen (by rw [hpc, hrole, hs]; simp [Pc.role]) (h.not_child (by rw [hs]; simp [Pc.role]))]
      exact hno
    · intro hbz
      unfold bytes
      rw [hmem]
      exact hz hbz
  buffer {r sg c f} hpc := by
    rw [hpc] at hent hrole
    have hs : s.pc s.cur = .copyWriting r sg c f := Pc.eq_of_entered hent.symm
    rw [hg.of_idle hseen (by rw [hpc, hrole, hs]; simp [Pc.role]) (h.not_child (by rw [hs]; simp [Pc.role])), hva,
      hbuf]
    exact (h.doing s.cur).buffer hs
  aside hpc := by
    rw [hfiles] at hpc
    cases hpc
  source {i} hpc := by
    rw [hcopies] at hpc
    obtain ⟨hi, hu, hpid⟩ := (h.doing s.cur).source hpc
    obtain ⟨r, hr⟩ := Pc.forks_of_copies hpc
    obtain ⟨hi', hu', -, hpid'⟩ := (h.frozen hm (by rw [hr]; rfl) i _).2 ⟨hi, hu, rfl, hpid⟩
    exact ⟨hi', hu', hpid'⟩

/-- A process whose page `store_swap` is given does not fork. -/
theorem prepared_evict (h : s.Paged L m) {e : PtEntry} (hsame : SameButRef (s.ipt.pt.entries i) e)
    (hi : i < s.ipt.pt.nEntry) (he : e.Idle) (hu : e.user = true)
    (hpc : u.pc = Function.update s.pc s.cur (.storeSwap k i e.page e.pid)) (hk : ∀ r, k ≠ .fork r) :
    u.Prepared m' s.cur := by
  have hcur : u.pc s.cur = .storeSwap k i e.page e.pid := by rw [hpc, Function.update_self]
  obtain ⟨b, rfl⟩ := hsame
  have hno : (s.pc (s.ipt.pt.entries i).pid).role.forks = false := by
    cases hf : (s.pc (s.ipt.pt.entries i).pid).role.forks with
    | false => rfl
    | true =>
      have hsw := (h.order.good.1.fits i).frozen hf hi hu
      rw [show (s.table.entries i).ctrl.swap = false from he.2.1] at hsw
      cases hsw
  constructor
  · intro v j hq
    rw [hcur] at hq
    cases hq
  · intro r sg c f hq
    rw [hcur] at hq
    cases hq
  · intro v p hq
    rw [hcur] at hq
    cases hq
    rw [hpc]
    by_cases hp : ((s.ipt.pt.entries i).setReference b).pid = s.cur
    · rw [hp, Function.update_self]
      cases k with
      | fork r => exact (hk r rfl).elim
      | _ => rfl
    · rw [Function.update_of_ne hp]
      exact hno
  · intro j hq
    rw [hcur] at hq
    cases k with
    | fork r => exact (hk r rfl).elim
    | _ => cases hq

/-- The running thread prepares its next operation. -/
theorem prepared_own (h : s.Paged L m) (hs : SysStep s a u) (hg : s.Ghost a u m m') :
    u.Prepared m' s.cur := by
  have hm := hs.move
  have hm' := hm
  have hchild := h.not_child (q := s.cur) hs.not_embryo
  cases hm with
  | @dispatch q pt mmu st hsw hready hact =>
    apply h.prepared_stay hm' hg (seen_still (by simp) (.inl rfl)) rfl rfl _ rfl rfl rfl rfl rfl
    change (s.pc s.cur).files = none
    cases hc : s.pc s.cur with
    | storeSwap => rw [hc] at hsw; cases hsw
    | _ => rfl
  | @kfree i pt hsw hone hfree =>
    apply h.prepared_stay hm' hg (seen_still (by simp) (.inr rfl)) (Pc.role_wakePt _)
      (Pc.steady_entered.wakePt _) _ (Pc.steady_copies.wakePt _) rfl rfl rfl rfl
    change (s.pc s.cur).wakePt.files = none
    cases hc : s.pc s.cur with
    | storeSwap => rw [hc] at hsw; cases hsw
    | _ => rfl
  | write hpc => exact .plain hpc rfl
  | hit hpc => exact .plain hpc rfl
  | allocFree hpc => exact .plain hpc rfl
  | exec hpc =>
    apply Prepared.plain (c := .run) _ rfl
    rw [pc_update rfl, Function.update_self]
    exact hpc
  | @spawn q hpc hq =>
    have hne : s.cur ≠ q := by
      rintro rfl
      rw [hpc] at hq
      cases hq
    apply Prepared.plain (c := .run) _ rfl
    rw [pc_update rfl, Function.update_of_ne hne]
    exact hpc
  | @reap q hpc hq =>
    have hne : s.cur ≠ q := by
      rintro rfl
      rw [hpc] at hq
      cases hq
    apply Prepared.plain (c := .run) _ rfl
    rw [pc_update rfl, Function.update_of_ne hne]
    exact hpc
  | @evictVictim v start E i ipt ov op hpc hseek hclaim =>
    obtain ⟨hsame, hvic⟩ := victimSweep_spec s.ipt.pt.entries (s.ipt.pt.victimOrder start)
    rw [show victimSweep s.ipt.pt.entries (s.ipt.pt.victimOrder start) = _ from hseek] at hsame hvic
    have hi := PageTable.victimOrder_lt (hvic i rfl).1
    obtain ⟨he, hpt, ⟨hu, ho', -⟩ | ⟨_, ho', _⟩⟩ := claimVictim_ok hclaim
    · cases ho'
      exact h.prepared_evict (hsame i) hi he hu (pc_goto ..) (by simp)
    · cases ho'
  | @allocEvict a fp E f i ipt v p hpc hsearch hclaim =>
    have hsame := s.ipt.pt.chanceSearch_sameButRef 1 fp
    have hlt := @PageTable.chanceSearch_lt 1 fp f i s.ipt.pt
    rw [hsearch] at hsame hlt
    obtain ⟨he, ⟨hu, ho', hpt, -⟩ | ⟨_, ho', _⟩⟩ := claimKernel_ok hclaim
    · cases ho'
      exact h.prepared_evict (hsame i) (hlt rfl) he hu (pc_goto ..) (by simp)
    · cases ho'
  | @store k i v p w c hpc hb =>
    cases k with
    | fork r =>
      have hnew : ({ s with swap := w }.goto (.storing (.fork r) i c)).pc s.cur = .storing (.fork r) i c :=
        pc_goto_self _ _
      constructor
      · intro v' j hq
        rw [hnew] at hq
        cases hq
      · intro r' sg d f hq
        rw [hnew] at hq
        cases hq
      · intro v' p' hq
        rw [hnew] at hq
        cases hq
      · intro j hq
        rw [hnew] at hq
        cases hq
        exact (h.doing s.cur).source (by rw [hpc]; rfl)
    | _ => exact .plain (pc_goto_self _ _) rfl
  | @loadElf v i A w bz offset dst len st hpc has hb hplan =>
    have hnew := pc_goto_self { s with
        mem := if bz then bzero s.mem (i * pageSize) else s.mem
        stats := st } (.elfReading v i)
    have hno := h.absent hpc has hb
    constructor
    · intro v' j hq
      rw [show _ = _ from hnew] at hq
      cases hq
      refine ⟨?_, A, bz, offset, dst, len, (congrFun (as_goto ..) s.cur).trans has, hplan, ?_⟩
      · rw [hg.of_idle (by simp only [seen, hpc]; rw [show _ = _ from hnew])
          (by rw [show _ = _ from hnew]; simp [Pc.role]) hchild]
        exact hno
      · intro hbz
        change pageAt (if bz then bzero s.mem (i * pageSize) else s.mem) (i * pageSize) = _
        rw [if_pos hbz]
        exact pageAt_writeAt_self ..
    · intro r' sg d f hq
      rw [show _ = _ from hnew] at hq
      cases hq
    · intro v' p' hq
      rw [show _ = _ from hnew] at hq
      cases hq
    · intro j hq
      rw [show _ = _ from hnew] at hq
      cases hq
  | @copyReading r sg c f hpc =>
    have hnew := pc_goto_self { s with kbuf := s.cellBytes c } (.copyWriting r sg c f)
    have hserves := h.order.kept.serves s.cur
    rw [show s.cells.errand s.cur = (s.pc s.cur).errand from rfl, hpc] at hserves
    have hkeep : s.Keeps L (.cell c) (s.cur, s.swap.vaddr c) := by
      refine ⟨h.tagged_of_listed (by rw [hpc]; rfl) hserves.1, ?_⟩
      exact h.order.phase (q := s.cur) (Pc.waits_of_reads (by simp [hpc, Pc.reads]))
    constructor
    · intro v' j hq
      rw [show _ = _ from hnew] at hq
      cases hq
    · intro r' sg' d f' hq
      rw [show _ = _ from hnew] at hq
      cases hq
      refine (hg.of_idle (by simp only [seen, hpc]) (by rw [show _ = _ from hnew]; simp [Pc.role]) hchild _).trans ?_
      exact (h.shows.of_holds hkeep).trans (congrArg some (pageAt_readAt ..).symm)
    · intro v' p' hq
      rw [show _ = _ from hnew] at hq
      cases hq
    · intro j hq
      rw [show _ = _ from hnew] at hq
      cases hq
  | @ptStore r i hpc hi hpid hu hspace hok =>
    have hnew := pc_goto_self s (.storeSwap (.fork r) i (s.ipt.pt.entries i).page r)
    have hr : (s.pc r).role = .embryo := h.child_embryo (q := s.cur) (k := i) (w := none) (by rw [hpc]; rfl)
    have hne : r ≠ s.cur := by
      rintro rfl
      exact hs.not_embryo hr
    constructor
    · intro v' j hq
      rw [hnew] at hq
      cases hq
    · intro r' sg d f hq
      rw [hnew] at hq
      cases hq
    · intro v' p' hq
      rw [hnew] at hq
      cases hq
      rw [pc_goto, Function.update_of_ne hne, hr]
      rfl
    · intro j hq
      rw [hnew] at hq
      cases hq
      exact ⟨hi, hu, hpid⟩
  | _ => exact .plain (pc_goto_self _ _) rfl

/-- A process that is not there has no pages. -/
theorem absent_of_gone (h : s.Paged L m) (hp : s.pc p = .none) (hcur : (s.pc s.cur).sends = none) (v : Nat) :
    m (p, v) = none := by
  have htag : ∀ c, ¬ s.cells.Tagged L c p v := by
    rintro c (⟨⟨sg, hc⟩, -, -⟩ | hload)
    · have hs := h.order.kept.serves p
      rw [show s.cells.errand p = (s.pc p).errand from rfl, hp] at hs
      rw [hs sg] at hc
      cases hc
    · rw [show s.cells.errand p = (s.pc p).errand from rfl, hp] at hload
      cases hload
  rw [h.shows.none_iff]
  intro z hz
  cases z with
  | frame i =>
    apply h.order.good.2.no_key (p := p) _ i v hz.1
    rw [show s.table.role p = (s.pc p).role from rfl, hp]
    rfl
  | outgoing i =>
    obtain ⟨q, x, hq, hmean⟩ := hz
    cases x with
    | page r w =>
      rw [h.cur_of_sends hq, hcur] at hq
      cases hq
    | cell c => exact htag c hmean
  | cell c => exact htag c hz.1

/-- Everything is still to be copied when a fork begins. -/
theorem absent_of_done (h : s.Paged L m) (hcur : s.pc s.cur = .run) (hn : u.ipt.pt.nEntry = s.ipt.pt.nEntry)
    (hE : ∀ i, SameKey (s.ipt.pt.entries i) (u.ipt.pt.entries i)) (hswap : u.swap = s.swap)
    (hdone : ¬ u.Todo s.cur 0 (some (.text, s.swap.lists.head (.seg .text s.cur))) v) :
    m (s.cur, v) = none := by
  have hchain := h.list_chain (q := s.cur) (by rw [hcur]; rfl)
  have htag : ∀ c, ¬ s.cells.Tagged L c s.cur v := by
    rintro c (⟨⟨sg, hc⟩, hv, -⟩ | hload)
    · apply hdone
      refine .inr ⟨c, ?_, by rw [hswap]; exact hv⟩
      rw [rest_iff (L := L) (by rw [hswap]; exact hchain .text) (by rw [hswap]; exact hchain)]
      cases sg with
      | text => exact .inl hc
      | data => exact .inr ⟨.data, by decide, hc⟩
      | stack => exact .inr ⟨.stack, by decide, hc⟩
    · rw [show s.cells.errand s.cur = (s.pc s.cur).errand from rfl, hcur] at hload
      cases hload
  rw [h.shows.none_iff]
  intro z hz
  cases z with
  | frame i =>
    apply hdone
    refine .inl ⟨i, Nat.zero_le i, ?_⟩
    rw [hn]
    exact (key_congr hE).2 hz.1
  | outgoing i =>
    obtain ⟨q, x, hq, hmean⟩ := hz
    cases x with
    | page r w =>
      rw [h.cur_of_sends hq, hcur] at hq
      cases hq
    | cell c => exact htag c hmean
  | cell c => exact htag c hz.1

/-- What a fork by the running process has copied. -/
theorem copied_own (h : s.Paged L m) (hs : SysStep s a u) (hg : s.Ghost a u m m')
    (hu : (u.pc s.cur).copying = some (r, k, w)) :
    (¬ u.Todo s.cur k w v → m' (r, v) = m' (s.cur, v)) ∧ (u.Todo s.cur k w v → m' (r, v) = none) := by
  cases hg with
  | same hseen hcop =>
    obtain ⟨j, x, hsc, hT⟩ := hcop r k w hu
    simp only [hT v, not_false_eq_true, and_true]
    exact ⟨(h.doing s.cur).done hsc, (h.doing s.cur).todo hsc⟩
  | begin ha _ =>
    subst ha
    cases hs.move with
    | @fork A child pt hpc has hsem hchild hpid hprep =>
      obtain ⟨-, hpt⟩ := (markCopy_spec ..).ok hprep
      have hn : pt.nEntry = s.ipt.pt.nEntry := by rw [hpt]
      have hE : ∀ j, SameKey (s.ipt.pt.entries j) (pt.entries j) := by
        rw [hpt]
        exact sameKey_marked s.cur true
      rw [pc_goto] at hu
      have hu := (congrArg Pc.copying (Function.update_self ..)).symm.trans hu
      have hgone := h.absent_of_gone hchild (by rw [hpc]; rfl) v
      cases hu
      refine ⟨?_, fun _ => hgone⟩
      intro hdone
      rw [hgone]
      refine (h.absent_of_done hpc ?_ ?_ ?_ hdone).symm
      · exact hn
      · exact hE
      · rfl
    | exit _ ha =>
      rcases ha with ha | ⟨_, ha⟩
      · cases ha
      · cases ha
    | allocWait ha => rcases ha with ⟨-, ha⟩ | ⟨-, ha⟩ <;> cases ha
    | allocTake ha => rcases ha with ⟨-, ha⟩ | ⟨-, ha⟩ <;> cases ha
    | allocEvict ha => rcases ha with ⟨-, ha⟩ | ⟨-, ha⟩ <;> cases ha
  | fork _ _ hno _ _ =>
    rw [hno] at hu
    cases hu
  | change _ _ hno _ _ =>
    rw [hno] at hu
    cases hu
  | touch _ _ hno _ _ =>
    rw [hno] at hu
    cases hu
  | @copy r' j x v' hseen hsc htodo hcop =>
    obtain ⟨j', x', hsc', hT⟩ := hcop r k w hu
    rw [hsc] at hsc'
    cases hsc'
    have hne : r ≠ s.cur := by
      rintro rfl
      exact hs.not_embryo (h.child_embryo hsc)
    have hkeep : ∀ v, Function.update m (r, v') (m (s.cur, v')) (s.cur, v) = m (s.cur, v) := by
      intro v
      apply Function.update_of_ne
      intro he
      cases he
      exact hne rfl
    rw [hkeep, hT v]
    by_cases hv : v = v'
    · subst hv
      simp
    · rw [Function.update_of_ne (by simp [hv])]
      simp only [hv, not_false_eq_true, and_true]
      exact ⟨(h.doing s.cur).done hsc, (h.doing s.cur).todo hsc⟩
  | lose hx _ _ =>
    have hf := Pc.forks_of_copying hu
    rw [hx] at hf
    cases hf

theorem copied_other (h : s.Paged L m) (hs : SysStep s a u) (hg : s.Ghost a u m m') (hq : q ≠ s.cur)
    (hu : (u.pc q).copying = some (r, k, w)) :
    (¬ u.Todo q k w v → m' (r, v) = m' (q, v)) ∧ (u.Todo q k w v → m' (r, v) = none) := by
  have ho := h.order.good.1
  have hm := hs.move
  rw [hm.steady ho Pc.steady_copying hq] at hu
  have hf := Pc.forks_of_copying hu
  have hne : r ≠ s.cur := by
    rintro rfl
    exact hs.not_embryo (h.child_embryo hu)
  have hr : ∀ k w, (s.pc s.cur).copying ≠ some (r, k, w) := by
    intro k w hc
    exact hq (ho.apart.sole (q := q) (r := s.cur) hf (Pc.forks_of_copying hc))
  have hqr : ∀ k w, (s.pc s.cur).copying ≠ some (q, k, w) := by
    apply h.not_child
    intro he
    rw [he] at hf
    cases hf
  rw [hg.of_ne hne hr, hg.of_ne hq hqr, h.todo_iff hm hf (by
    rintro sg e rfl
    exact h.cursor hu)]
  exact ⟨(h.doing q).done hu, (h.doing q).todo hu⟩

theorem step (h : s.Paged L m) (hs : SysStep s a u) (hF : s.Filed a) (hU : s.Unseen a) (hC : s.Contained a) :
    ∃ M m', u.Paged M m' ∧ s.Ghost a u m m' := by
  obtain ⟨M, m', hM, hshow, hg⟩ := h.shows_step hs.move hF hC
  refine ⟨M, m', ⟨hM, Sys.step_cached h.order.good h.cached hU hs, hshow, ?_⟩, hg⟩
  intro q
  by_cases hq : q = s.cur
  · rw [hq]
    exact ⟨h.prepared_own hs hg, fun hu => (h.copied_own hs hg hu).1, fun hu => (h.copied_own hs hg hu).2⟩
  · exact ⟨h.prepared_other hs.move hC hg hq, fun hu => (h.copied_other hs hg hq hu).1,
      fun hu => (h.copied_other hs hg hq hu).2⟩

end Sys.Paged

end Clape
