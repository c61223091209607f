import Clape.FrameRuns
import Clape.CellSteps

namespace Clape
set_option autoImplicit true

/-- The page that `store_swap` is called for. -/
def Pc.files : Pc → Option (Nat × Nat)
  | .storeSwap _ _ v p => some (v, p)
  | _ => .none

/-- The process can get pages, and cells. -/
def Sys.Lives (s : Sys) (p : Nat) : Prop := (s.as p).isSome = true ∧ (s.pc p).role.owns = true

/-- `store_swap` is called for pages of live processes, by the thread that runs. -/
def Sys.Filing (s : Sys) : Prop :=
  ∀ q v p, (s.pc q).files = some (v, p) → q = s.cur ∧ s.Lives p

namespace Sys.Filing
variable {s u : Sys}

theorem quiet (h : ∀ q, (s.pc q).files = none) : s.Filing := by
  intro q v p hq
  rw [h q] at hq
  cases hq

theorem wakePt_files (c : Pc) : c.wakePt.files = c.files := by
  cases c <;> rfl

theorem wakeCell_files (d : Nat) (c : Pc) : (c.wakeCell d).files = c.files := by
  cases c <;> rfl

end Sys.Filing

theorem Sys.lives_of_key {s : Sys} (hh : s.table.Hashed) (hi : i < s.ipt.pt.nEntry)
    (hu : (s.ipt.pt.entries i).user = true) : s.Lives (s.ipt.pt.entries i).pid :=
  hh.peopled.live (key_of_user hi hu)

/-- The steps after which `store_swap` is called. -/
inductive Sys.Calls (s : Sys) (a : Action) : StoreFor → Nat → Nat → Nat → Prop where
  | alloc : (s.pc s.cur = .run ∧ a = .alloc) ∨ (s.pc s.cur = .alloc ∧ a = .advance) →
      (a = .alloc → freeRun s.ipt.pt.entries 1 (List.range s.ipt.pt.nEntry) none = .inl fp) →
      i < s.ipt.pt.nEntry → (s.ipt.pt.entries i).Idle → (s.ipt.pt.entries i).user = true →
      s.Calls a .alloc i (s.ipt.pt.entries i).page (s.ipt.pt.entries i).pid
  | victim : s.pc s.cur = .findVictim v start → a = .advance →
      i < s.ipt.pt.nEntry → (s.ipt.pt.entries i).Idle → (s.ipt.pt.entries i).user = true →
      s.Calls a (.victim v) i (s.ipt.pt.entries i).page (s.ipt.pt.entries i).pid
  | fork : s.pc s.cur = .copyPt r i → a = .advance → i < s.ipt.pt.nEntry →
      (s.ipt.pt.entries i).pid = s.cur → (s.ipt.pt.entries i).user = true →
      s.Calls a (.fork r) i (s.ipt.pt.entries i).page r

theorem Move.calls_cur {s u : Sys} (hm : Move s a u)
    (hq : u.pc s.cur = .storeSwap k i v p) : u.cur = s.cur ∧ u.as = s.as ∧
      u.pc = Function.update s.pc s.cur (.storeSwap k i v p) ∧ s.Calls a k i v p := by
  have hgo : ∀ {w : Sys} {c : Pc}, w.cur = s.cur → (w.goto c).pc s.cur = .storeSwap k i v p →
      c = .storeSwap k i v p := by
    intro w c hw hc
    rw [Sys.pc_goto, hw, Function.update_self] at hc
    exact hc
  cases hm with
  | dispatch hsw =>
    change s.pc s.cur = _ at hq
    rw [hq] at hsw
    cases hsw
  | write hpc =>
    change s.pc s.cur = _ at hq
    rw [hpc] at hq
    cases hq
  | hit hpc =>
    change s.pc s.cur = _ at hq
    rw [hpc] at hq
    cases hq
  | allocFree hpc =>
    change s.pc s.cur = _ at hq
    rw [hpc] at hq
    cases hq
  | kfree hsw =>
    change (s.pc s.cur).wakePt = _ at hq
    cases hc : s.pc s.cur with
    | storeSwap => rw [hc] at hsw; cases hsw
    | _ => rw [hc] at hq; cases hq
  | @spawn q hpc hn =>
    have hne : s.cur ≠ q := by
      intro he
      rw [← he, hpc] at hn
      cases hn
    change (Function.update s.procs _ _ s.cur).pc = _ at hq
    rw [Function.update_of_ne hne] at hq
    rw [show (s.procs s.cur).pc = s.pc s.cur from rfl, hpc] at hq
    cases hq
  | exec hpc =>
    change (Function.update s.procs s.cur _ s.cur).pc = _ at hq
    rw [Function.update_self] at hq
    change s.pc s.cur = _ at hq
    rw [hpc] at hq
    cases hq
  | @reap q hpc hn =>
    have hne : s.cur ≠ q := by
      intro he
      rw [← he, hpc] at hn
      cases hn
    change (Function.update s.procs _ _ s.cur).pc = _ at hq
    rw [Function.update_of_ne hne] at hq
    rw [show (s.procs s.cur).pc = s.pc s.cur from rfl, hpc] at hq
    cases hq
  | @allocEvict a fp E f i ipt v p hpc hsearch hclaim hfree =>
    have hsame := s.ipt.pt.chanceSearch_sameButRef 1 fp
    have hlt := @PageTable.chanceSearch_lt 1 fp f i s.ipt.pt
    rw [hsearch] at hsame hlt
    cases hgo rfl hq
    obtain ⟨he, ⟨hu, ho, -⟩ | ⟨-, ho, -⟩⟩ := claimKernel_ok hclaim
    · obtain ⟨b, hb⟩ := hsame i
      change E i = _ at hb
      simp only [hb] at he hu ho
      cases ho
      exact ⟨rfl, Sys.as_goto .., Sys.pc_goto .., .alloc hpc hfree (hlt rfl) he hu⟩
    · cases ho
  | @evictVictim v start E i ipt ov op hpc hseek hclaim =>
    obtain ⟨hsame, hvic⟩ := victimSweep_spec s.ipt.pt.entries (s.ipt.pt.victimOrder start)
    rw [show victimSweep s.ipt.pt.entries (s.ipt.pt.victimOrder start) = _ from hseek] at hsame hvic
    have hi := PageTable.victimOrder_lt (hvic i rfl).1
    cases hgo rfl hq
    obtain ⟨he, -, ⟨hu, ho, -⟩ | ⟨-, ho, -⟩⟩ := claimVictim_ok hclaim
    · obtain ⟨b, hb⟩ := hsame i
      change E i = _ at hb
      simp only [hb] at he hu ho
      cases ho
      exact ⟨rfl, Sys.as_goto .., Sys.pc_goto .., .victim hpc rfl hi he hu⟩
    · cases ho
  | ptStore hpc hi hpid hu =>
    cases hgo rfl hq
    exact ⟨rfl, Sys.as_goto .., Sys.pc_goto .., .fork hpc rfl hi hpid hu⟩
  | fork =>
    rw [Sys.pc_goto] at hq
    cases (Function.update_self ..).symm.trans hq
  | ptEnd =>
    rw [Sys.pc_goto] at hq
    cases (Function.update_self ..).symm.trans hq
  | storing =>
    rw [Sys.pc_goto] at hq
    cases (Function.update_self ..).symm.trans hq
  | _ => cases hgo rfl hq

theorem Move.calls {s u : Sys} (hm : Move s a u) (h : s.Filing)
    (hq : u.pc q = .storeSwap k i v p) : q = s.cur ∧ u.cur = s.cur ∧ u.as = s.as ∧
      u.pc = Function.update s.pc s.cur (.storeSwap k i v p) ∧ s.Calls a k i v p := by
  by_cases hqc : q = s.cur
  · subst hqc
    exact ⟨rfl, hm.calls_cur hq⟩
  · have hno : (s.pc q).files = none := by
      cases hf : (s.pc q).files with
      | none => rfl
      | some x => exact (hqc (h q x.1 x.2 hf).1).elim
    have hfiles : (u.pc q).files = some (v, p) := by
      rw [hq]
      rfl
    rcases hm.pc_other hqc with hpc | hpc | ⟨c, hpc⟩ | ⟨-, hpc | hpc | hpc⟩
    · rw [hpc, hno] at hfiles
      cases hfiles
    · rw [hpc, Sys.Filing.wakePt_files, hno] at hfiles
      cases hfiles
    · rw [hpc, Sys.Filing.wakeCell_files, hno] at hfiles
      cases hfiles
    · rw [hpc] at hfiles
      cases hfiles
    · rw [hpc] at hfiles
      cases hfiles
    · rw [hpc] at hfiles
      cases hfiles

/-- The child of a fork has the address space of its parent. -/
def Sys.Kin (s : Sys) : Prop := ∀ q c k, (s.pc q).role = .forking c k → s.as c = s.as q

theorem Sys.Filing.step {s u : Sys} (h : s.Filing) (hh : s.table.Hashed) (ho : s.table.Own)
    (hk : s.Kin) (hm : Move s a u) : u.Filing := by
  intro q v p hq
  have hst : ∃ k i, u.pc q = .storeSwap k i v p := by
    cases hc : u.pc q with
    | storeSwap k i v' p' =>
      rw [hc] at hq
      cases hq
      exact ⟨k, i, rfl⟩
    | _ =>
      rw [hc] at hq
      cases hq
  obtain ⟨k, i, hst⟩ := hst
  obtain ⟨rfl, hcur, has, hpc, hcalls⟩ := hm.calls h hst
  have hlives : s.Lives p := by
    cases hcalls with
    | alloc _ _ hi _ hu => exact lives_of_key hh hi hu
    | victim _ _ hi _ hu => exact lives_of_key hh hi hu
    | fork hpc' _ hi hpid hu =>
      have hrole : (s.pc s.cur).role = .forking p i := by
        rw [hpc']
        rfl
      refine ⟨?_, ?_⟩
      · rw [hk s.cur p i hrole, ← hpid]
        exact (lives_of_key hh hi hu).1
      · rw [show (s.pc p).role = .embryo from ho.apart.embryo hrole]
        rfl
  refine ⟨hcur.symm, ?_, ?_⟩
  · rw [has]
    exact hlives.1
  · rw [hpc]
    by_cases hp : p = s.cur
    · rw [hp, Function.update_self]
      cases k <;> rfl
    · rw [Function.update_of_ne hp]
      exact hlives.2

namespace Sys.Kin
variable {s u : Sys}

theorem congr (h : s.Kin) (hu : ∀ q c k, (u.pc q).role = .forking c k →
    ∃ k', (s.pc q).role = .forking c k') (has : u.as = s.as) : u.Kin := by
  intro q c k hq
  obtain ⟨k', hq⟩ := hu q c k hq
  rw [has]
  exact h q c k' hq

theorem goto (h : s.Kin) (hu : u.procs = s.procs) (hcur : u.cur = s.cur)
    (hc : ∀ d k, c.role = .forking d k → ∃ k', (s.pc s.cur).role = .forking d k') :
    (u.goto c).Kin := by
  apply h.congr
  · intro q d k hq
    rw [pc_goto, hcur] at hq
    by_cases hqc : q = s.cur
    · rw [hqc, Function.update_self] at hq
      rw [hqc]
      exact hc d k hq
    · rw [Function.update_of_ne hqc] at hq
      simp only [Sys.pc, hu] at hq
      exact ⟨k, hq⟩
  · rw [as_goto]
    unfold Sys.as
    rw [hu]

theorem update (h : s.Kin) (hu : u.procs = Function.update s.procs p x)
    (hx : ∀ d k, x.pc.role ≠ .forking d k) (hp : ∀ q k, (s.pc q).role ≠ .forking p k) : u.Kin := by
  intro q c k hq
  simp only [Sys.pc, Sys.as, hu] at hq ⊢
  by_cases hqp : q = p
  · rw [hqp, Function.update_self] at hq
    exact (hx c k hq).elim
  · rw [Function.update_of_ne hqp] at hq
    have hcp : c ≠ p := by
      rintro rfl
      exact hp q k hq
    rw [Function.update_of_ne hqp, Function.update_of_ne hcp]
    exact h q c k hq

theorem step (h : s.Kin) (ho : s.table.Own) (hm : Move s a u) : u.Kin := by
  have hsame : ∀ {c c' : Pc}, s.pc s.cur = c → c'.role = c.role →
      ∀ d k, c'.role = .forking d k → ∃ k', (s.pc s.cur).role = .forking d k' := by
    intro c c' hc he d k hr
    exact ⟨k, by rw [hc, ← he, hr]⟩
  -- a process that is not an embryo is nobody's child
  have hchild : ∀ {p}, (s.pc p).role ≠ .embryo → ∀ q k, (s.pc q).role ≠ .forking p k := by
    intro p hp q k hq
    exact hp (ho.apart.embryo hq)
  cases hm with
  | dispatch => exact h
  | write => exact h
  | hit => exact h
  | space => exact h.goto rfl rfl nofun
  | seek => exact h.goto rfl rfl nofun
  | exit => exact h.goto rfl rfl nofun
  | segv => exact h.goto rfl rfl nofun
  | allocFree => exact h
  | allocWait => exact h.goto rfl rfl nofun
  | allocTake => exact h.goto rfl rfl nofun
  | allocEvict => exact h.goto rfl rfl nofun
  | kfree =>
    refine h.congr (fun q c k hq => ?_) rfl
    rw [Sys.pc_mapPc] at hq
    simp only [Pc.role_wakePt] at hq
    exact ⟨k, hq⟩
  | @fork as child pt hpc has _ hchild' _ _ =>
    have hne : s.cur ≠ child := by
      intro he
      rw [← he, hpc] at hchild'
      cases hchild'
    intro q c k hq
    rw [Sys.pc_goto] at hq
    rw [Sys.as_goto]
    change (Function.update (Function.update s.procs child ⟨s.as s.cur, .embryo⟩ · |>.pc) s.cur
      (.copySwap child .text _) q).role = _ at hq
    change (Function.update s.procs child ⟨s.as s.cur, .embryo⟩ c).as =
      (Function.update s.procs child ⟨s.as s.cur, .embryo⟩ q).as
    by_cases hqc : q = s.cur
    · rw [hqc, Function.update_self] at hq
      cases hq
      rw [hqc, Function.update_self, Function.update_of_ne hne]
      rfl
    · rw [Function.update_of_ne hqc] at hq
      by_cases hqd : q = child
      · rw [hqd, Function.update_self] at hq
        cases hq
      · rw [Function.update_of_ne hqd] at hq ⊢
        have hcd : c ≠ child := by
          rintro rfl
          exact hchild (by rw [hchild']; exact nofun) q k hq
        rw [Function.update_of_ne hcd]
        exact h q c k hq
  | spawn hpc hq => exact h.update rfl nofun (hchild (by rw [hq]; exact nofun))
  | exec hpc =>
    refine h.update rfl ?_ (hchild (by rw [hpc]; exact nofun))
    intro d k hr
    change (s.pc s.cur).role = _ at hr
    rw [hpc] at hr
    cases hr
  | reap hpc hq => exact h.update rfl nofun (hchild (by rw [hq]; exact nofun))
  | noVictim => exact h.goto rfl rfl nofun
  | takeVictim => exact h.goto rfl rfl nofun
  | evictVictim => exact h.goto rfl rfl nofun
  | victimWake => exact h.goto rfl rfl nofun
  | @store k i v p w c hpc _ => exact h.goto rfl rfl (hsame hpc (Pc.role_storing k i c v p))
  | @storing k i c w st hpc _ =>
    have hb : Kin ({ s with
        swap := w
        disk := writeAt s.disk (s.swap.offset c) pageSize (s.frame i)
        stats := st }.mapPc (Pc.wakeCell c)) := by
      refine h.congr (fun q d k' hq => ?_) rfl
      rw [Sys.pc_mapPc] at hq
      simp only [Pc.role_wakeCell] at hq
      exact ⟨k', hq⟩
    apply hb.goto rfl rfl
    intro d k' hr
    refine ⟨k', ?_⟩
    rw [Sys.pc_mapPc]
    simp only [Pc.role_wakeCell]
    change (s.pc s.cur).role = _
    rw [hpc, ← Pc.role_stored k i c, hr]
  | storedVictim => exact h.goto rfl rfl nofun
  | storedAlloc => exact h.goto rfl rfl nofun
  | storedFork hpc =>
    apply h.goto rfl rfl
    intro d k hr
    cases hr
    exact ⟨_, by rw [hpc]; rfl⟩
  | loadFound => exact h.goto rfl rfl nofun
  | loadZero => exact h.goto rfl rfl nofun
  | loadElf => exact h.goto rfl rfl nofun
  | cellSleep hpc => exact h.goto rfl rfl (hsame hpc (Pc.role_cellWait ..))
  | cellLoad => exact h.goto rfl rfl nofun
  | cellExit => exact h.goto rfl rfl nofun
  | cellCopy hpc => exact h.goto rfl rfl (hsame hpc rfl)
  | cellWake hpc => exact h.goto rfl rfl (hsame hpc (Pc.role_cellWait ..).symm)
  | reading => exact h.goto rfl rfl nofun
  | elfReading => exact h.goto rfl rfl nofun
  | loaded => exact h.goto rfl rfl nofun
  | allocWake => exact h.goto rfl rfl nofun
  | removeCell => exact h.goto rfl rfl nofun
  | removeNext => exact h.goto rfl rfl nofun
  | removeDone => exact h.goto rfl rfl nofun
  | copyTake hpc => exact h.goto rfl rfl (hsame hpc rfl)
  | copyNext hpc => exact h.goto rfl rfl (hsame hpc rfl)
  | copyDone hpc => exact h.goto rfl rfl (hsame hpc rfl)
  | copyReading hpc => exact h.goto rfl rfl (hsame hpc rfl)
  | copyWriting hpc => exact h.goto rfl rfl (hsame hpc rfl)
  | ptSkip hpc =>
    apply h.goto rfl rfl
    intro d k hr
    cases hr
    exact ⟨_, by rw [hpc]; rfl⟩
  | ptStore hpc => exact h.goto rfl rfl (hsame hpc rfl)
  | ptSpace hpc =>
    apply h.goto rfl rfl
    intro d k hr
    cases hr
    exact ⟨_, by rw [hpc]; rfl⟩
  | @ptEnd child i pt hpc _ _ =>
    apply h.congr
    · intro q c k hq
      rw [Sys.pc_goto, Sys.pc_setPc, Sys.pc_mapPc] at hq
      change (Function.update (Function.update (fun q => (s.pc q).wakePt) child .run) s.cur .run
        q).role = _ at hq
      by_cases hqc : q = s.cur
      · rw [hqc, Function.update_self] at hq
        cases hq
      · rw [Function.update_of_ne hqc] at hq
        by_cases hqd : q = child
        · rw [hqd, Function.update_self] at hq
          cases hq
        · rw [Function.update_of_ne hqd, Pc.role_wakePt] at hq
          exact ⟨k, hq⟩
    · rw [Sys.as_goto, Sys.as_setPc, Sys.as_mapPc]
      rfl

end Sys.Kin

namespace Sys

theorem home_congr {s u : Sys} (h : u.as = s.as) (K : Prop) : u.home K = s.home K := by
  funext q v sg
  simp only [home, h]

theorem cells_setPc (s : Sys) (p : Nat) (c : Pc) :
    (s.setPc p c).cells K =
      { s.cells K with errand := Function.update (s.cells K).errand p c.errand } := by
  have herr : (fun q => ((s.setPc p c).pc q).errand) =
      Function.update (fun q => (s.pc q).errand) p c.errand := by
    rw [pc_setPc]
    funext q
    by_cases hq : q = p
    · subst hq
      simp
    · simp [hq]
  unfold cells
  rw [herr, home_congr (as_setPc ..)]
  rfl

theorem cells_goto (s : Sys) (c : Pc) : (s.goto c).cells K = (s.cells K).go c.errand :=
  s.cells_setPc s.cur c

theorem cells_goto_same (s : Sys) (hc : c.errand = (s.pc s.cur).errand) :
    (s.goto c).cells K = s.cells K := by
  rw [cells_goto]
  unfold Cells.go
  have : Function.update (s.cells K).errand (s.cells K).cur c.errand = (s.cells K).errand := by
    rw [hc]
    exact Function.update_eq_self ..
  rw [this]

theorem cells_update (s : Sys) (p : Nat) (x : Proc) :
    { s with procs := Function.update s.procs p x }.cells K = { s.cells K with
      errand := Function.update (s.cells K).errand p x.pc.errand
      home := Function.update (s.cells K).home p fun v sg =>
        K → x.as.bind (fun A => A.loadSeg v) = some sg } := by
  have herr : (fun q => (Function.update s.procs p x q).pc.errand) =
      Function.update (fun q => (s.procs q).pc.errand) p x.pc.errand := by
    funext q
    by_cases hq : q = p
    · subst hq
      simp
    · simp [hq]
  have hhome : home { s with procs := Function.update s.procs p x } K =
      Function.update (s.home K) p fun v sg =>
        K → x.as.bind (fun A => A.loadSeg v) = some sg := by
    funext q v sg
    simp only [home, as]
    by_cases hq : q = p
    · subst hq
      simp only [Function.update_self]
    · simp only [Function.update_of_ne hq]
      rfl
  simp only [cells, pc, hhome, herr]

theorem cells_mapPc (s : Sys) {f : Pc → Pc} (hf : ∀ c, (f c).errand = c.errand) :
    (s.mapPc f).cells K = s.cells K := by
  have herr : (fun q => ((s.mapPc f).pc q).errand) = fun q => (s.pc q).errand := by
    rw [pc_mapPc]
    funext q
    exact hf _
  unfold cells
  rw [herr, home_congr (as_mapPc ..)]
  rfl

end Sys

theorem Pc.errand_wakePt (c : Pc) : c.wakePt.errand = c.errand := by
  cases c <;> rfl

theorem Pc.errand_wakeCell (d : Nat) (c : Pc) : (c.wakeCell d).errand = c.errand.wake d := by
  cases c with
  | cellWait k e w =>
    have hp : ∀ ph, (k.errand e ph).waits = some (e, ph) := by
      intro ph
      cases k <;> rfl
    have hset : ∀ ph ph', (k.errand e ph).setPhase ph' = k.errand e ph' := by
      intro ph ph'
      cases k <;> rfl
    simp only [Pc.wakeCell, Pc.errand, Errand.wake, hp, hset]
    cases w with
    | true => simp
    | false =>
      by_cases he : e = d
      · simp [he]
      · simp [he]
  | cell k e =>
    cases k <;> simp [Pc.wakeCell, Pc.errand, WaitFor.errand, Errand.wake, Errand.waits]
  | removeSwap sg e =>
    cases e <;> simp [Pc.wakeCell, Pc.errand, Errand.wake, Errand.waits]
  | _ => simp [Pc.wakeCell, Pc.errand, Errand.wake, Errand.waits]

theorem Pc.alive_errand (c : Pc) : c.errand.alive = c.role.owns := by
  cases c with
  | storeSwap k _ _ _ => cases k <;> rfl
  | storing k _ _ => cases k <;> rfl
  | stored k _ => cases k <;> rfl
  | cell k _ => cases k <;> rfl
  | cellWait k _ _ => cases k <;> rfl
  | _ => rfl

theorem Pc.forking_of_target {c : Pc} (h : c.errand.target = some (r, f)) :
    ∃ k, c.role = .forking r k := by
  cases c with
  | cell k d =>
    cases k with
    | copy child sg g =>
      cases h
      exact ⟨0, rfl⟩
    | _ => cases h
  | cellWait k d w =>
    cases k with
    | copy child sg g =>
      cases h
      exact ⟨0, rfl⟩
    | _ => cases h
  | copyReading child sg d g =>
    cases h
    exact ⟨0, rfl⟩
  | copyWriting child sg d g =>
    cases h
    exact ⟨0, rfl⟩
  | _ => cases h

/-- The cell whose page changes with the next step of a thread, and the page it gets. -/
def Pc.retag (w : SwapFile) : Pc → Option (Nat × Option (Nat × Nat))
  | .storeSwap _ _ v p => (w.lists.head .free).map fun c => (c, some (p, v))
  | .reading _ _ c => some (c, .none)
  | .cell (.exit _) c => if w.store c then .none else some (c, .none)
  | .copyWriting child _ c f => some (f, some (child, w.vaddr c))
  | _ => .none

def Sys.retag (s : Sys) : Action → Option (Nat × Option (Nat × Nat))
  | .advance => (s.pc s.cur).retag s.swap
  | _ => none

/-- A page that is stored goes, on behalf of its owner, to the one list in which the owner
looks for it. -/
def Sys.Filed (s : Sys) : Action → Prop
  | .advance =>
    match s.pc s.cur with
    | .storeSwap _ _ v p => ∀ A, s.as s.cur = some A →
        (A.storeSegs v).length ≤ 1 ∧ (s.as p).bind (fun B => B.loadSeg v) = A.loadSeg v
    | _ => True
  | _ => True

/-- At most one range test accepts the address of a page that is stored. -/
def Sys.Linked (s : Sys) : Action → Prop
  | .advance =>
    match s.pc s.cur with
    | .storeSwap _ _ v _ => ∀ A, s.as s.cur = some A → (A.storeSegs v).length ≤ 1
    | _ => True
  | _ => True

theorem Sys.Filed.linked {s : Sys} (h : s.Filed a) : s.Linked a := by
  cases a with
  | advance =>
    unfold Sys.Linked
    unfold Sys.Filed at h
    simp only at h ⊢
    split
    · rename_i hpc
      rw [hpc] at h
      intro A hA
      exact (h A hA).1
    · trivial
  | _ => trivial

instance (s : Sys) (a : Action) : Decidable (s.Filed a) :=
  match a with
  | .advance =>
    match h : s.pc s.cur with
    | .storeSwap _ _ v p =>
      decidable_of_iff ((s.as s.cur).all (fun A => decide ((A.storeSegs v).length ≤ 1 ∧
        (s.as p).bind (fun B => B.loadSeg v) = A.loadSeg v)) = true) (by
          simp [Sys.Filed, h, Option.all_eq_true])
    | .none | .embryo | .run | .zombie | .findVictim _ _ | .victimWait _ _ _ | .storing _ _ _
    | .stored _ _ | .loadPage _ _ | .cell _ _ | .cellWait _ _ _ | .reading _ _ _
    | .elfReading _ _ | .loaded _ _ | .alloc | .allocWait _ | .removeSwap _ _ | .copySwap _ _ _
    | .copyReading _ _ _ _ | .copyWriting _ _ _ _ | .copyPt _ _ =>
      .isTrue (by simp [Sys.Filed, h])
  | .dispatch _ | .kfree _ | .reap _ | .write _ _ _ | .fault _ _ | .exit | .alloc | .fork _
  | .spawn _ | .exec _ _ => .isTrue trivial

theorem SwapFile.storeEnd_spec {w : SwapFile} (h : w.storeEnd q c = .ok w') :
    w' = { w with store := Function.update w.store c false } := by
  unfold storeEnd at h
  obtain ⟨w₁, hl, h⟩ := bind_ok.1 h
  unfold lockAcquire at hl
  split at hl
  · rename_i hn
    cases hl
    cases h
    simp only [lockRelease, Function.update_idem]
    rw [← hn, Function.update_eq_self]
  · cases hl

theorem SwapFile.testStore_spec {w : SwapFile} (h : w.testStore q c f = .ok (w', b)) :
    w' = w ∧ b = w.store c := by
  unfold testStore at h
  obtain ⟨w₁, hl, h⟩ := bind_ok.1 h
  unfold lockAcquire at hl
  split at hl
  · rename_i hn
    cases hl
    cases h
    simp only [lockRelease, Function.update_idem, and_true]
    rw [← hn, Function.update_eq_self]
  · cases hl

theorem SwapFile.loadBegin_some {w : SwapFile} (h : w.loadBegin A v p = .ok (w', some c)) :
    ∃ sg prev, A.loadSeg v = some sg ∧
      w.lists.search (fun c => w.vaddr c == v) w.size none (w.lists.head (.seg sg p)) =
        .found prev c ∧ w' = { w with lists := w.lists.unlink (.seg sg p) prev c } := by
  unfold loadBegin at h
  split at h
  · cases h
  · rename_i sg hsg
    split at h
    · rename_i prev d hs
      cases h
      exact ⟨sg, prev, hsg, hs, rfl⟩
    · cases h
    · cases h

theorem AddrSpace.storeSegs_single {A : AddrSpace} (hl : (A.storeSegs v).length ≤ 1)
    (hne : A.storeSegs v ≠ []) : ∃ sg, A.storeSegs v = [sg] ∧ A.loadSeg v = some sg := by
  unfold AddrSpace.loadSeg
  match hs : A.storeSegs v with
  | [] => exact (hne hs).elim
  | [sg] => exact ⟨sg, rfl, rfl⟩
  | a :: b :: r =>
    rw [hs] at hl
    simp at hl

section
variable {s u : Sys}

theorem CellMove.rest (hpc : s.pc s.cur = c) (hu : u.cells K = s.cells K)
    (hc : c'.errand = c.errand) :
    CellMove (s.cells K) none ((u.goto c').cells K) := by
  have hcur : u.cur = s.cur := congrArg Cells.cur hu
  have he : c'.errand = (u.pc u.cur).errand := by
    rw [hcur, hc, ← hpc]
    exact (congrFun (congrArg Cells.errand hu) s.cur).symm
  rw [u.cells_goto_same he, hu]
  exact .same

theorem Sys.retag_advance (hpc : s.pc s.cur = c) (hr : c.retag s.swap = r) :
    s.retag .advance = r := by
  rw [← hr, ← hpc]
  rfl

theorem CellMove.quiet (hpc : s.pc s.cur = c) (hr : c.retag s.swap = none)
    (hu : u.cells K = s.cells K) (hc : c'.errand = c.errand) :
    CellMove (s.cells K) (s.retag .advance) ((u.goto c').cells K) := by
  rw [Sys.retag_advance hpc hr]
  exact .rest hpc hu hc

/-- Every step is a move of the cells. -/
theorem Move.cells (hm : Move s a u) (ho : s.table.Own) (hf : s.Filing) (hk : s.Kin)
    (ha : s.Linked a) (hK : K → s.Filed a) : CellMove (s.cells K) (s.retag a) (u.cells K) := by
  have herr : (s.cells K).errand (s.cells K).cur = (s.pc s.cur).errand := rfl
  -- a process that is not an embryo is nobody's child
  have hun : (s.pc s.cur).role ≠ .embryo → (s.cells K).Uncopied (s.cells K).cur := by
    intro hne q f hq
    obtain ⟨k, hq⟩ := Pc.forking_of_target hq
    exact hne (ho.apart.embryo hq)
  cases hm with
  | @dispatch q => exact .turn q
  | write => exact .same
  | hit => exact .same
  | space hpc => exact .rest hpc rfl rfl
  | seek hpc => exact .rest hpc rfl rfl
  | @exit a ipt st hpc hact _ =>
    have hr : s.retag a = none := by
      rcases hact with rfl | ⟨x, rfl⟩ <;> rfl
    rw [hr, Sys.cells_goto]
    exact .leave (by rw [herr, hpc]; rfl) (hun (by rw [hpc]; exact nofun))
  | @segv v i as w ipt hpc _ _ _ _ =>
    rw [Sys.retag_advance hpc rfl, Sys.cells_goto]
    exact .leave (by rw [herr, hpc]; rfl) (hun (by rw [hpc]; exact nofun))
  | allocFree => exact .same
  | allocWait hpc =>
    rcases hpc with ⟨hpc, rfl⟩ | ⟨hpc, rfl⟩
    · exact .rest hpc rfl rfl
    · exact .quiet hpc rfl rfl rfl
  | allocTake hpc =>
    rcases hpc with ⟨hpc, rfl⟩ | ⟨hpc, rfl⟩
    · exact .rest hpc rfl rfl
    · exact .quiet hpc rfl rfl rfl
  | allocEvict hpc =>
    rcases hpc with ⟨hpc, rfl⟩ | ⟨hpc, rfl⟩
    · exact .rest hpc rfl rfl
    · exact .quiet hpc rfl rfl rfl
  | @kfree i pt =>
    rw [Sys.cells_mapPc _ Pc.errand_wakePt]
    exact .same
  | @fork as child pt hpc _ _ hchild _ _ =>
    rw [Sys.cells_goto]
    have hcells : Sys.cells ({ s with
        semFork := false
        procs := Function.update s.procs child ⟨s.as s.cur, .embryo⟩ }.setPt pt) K = { s.cells K with
          errand := Function.update (s.cells K).errand child .idle
          home := Function.update (s.cells K).home child ((s.cells K).home (s.cells K).cur) } :=
      s.cells_update child ⟨s.as s.cur, .embryo⟩
    rw [hcells]
    exact .fork (by rw [herr, hpc]; rfl)
      (show (s.pc child).errand = .gone by rw [hchild]; rfl)
  | @spawn q hpc hq _ =>
    rw [Sys.cells_update]
    exact .spawn (show (s.pc q).errand = .gone by rw [hq]; rfl)
  | @exec vn phs as pt mmu st hpc has _ _ =>
    have hcells := s.cells_update (K := K) s.cur { s.procs s.cur with as := some as }
    have hsame : Function.update (s.cells K).errand s.cur (s.procs s.cur).pc.errand = (s.cells K).errand :=
      Function.update_eq_self ..
    rw [hsame] at hcells
    have hmove : CellMove (s.cells K) none
        ({ s with procs := Function.update s.procs s.cur { s.procs s.cur with as := some as } }.cells K) := by
      rw [hcells]
      by_cases hk : K
      · apply CellMove.exec (by rw [herr, hpc]; rfl) (hun (by rw [hpc]; exact nofun))
        intro v sg hh
        have hh : (s.as s.cur).bind _ = some sg := hh hk
        rw [has] at hh
        cases hh
      · have hhome : (s.cells K).home = Function.update (s.cells K).home s.cur fun v sg =>
            K → (some as).bind (fun A => A.loadSeg v) = some sg := by
          funext q v sg
          by_cases hq : q = s.cur
          · rw [hq, Function.update_self]
            simp only [Sys.cells, Sys.home, hk, false_imp_iff]
          · rw [Function.update_of_ne hq]
        rw [← hhome]
        exact .same
    exact hmove
  | @reap q hpc hq =>
    have hcells := s.cells_update (K := K) q ⟨none, .none⟩
    have hsame : Function.update (s.cells K).errand q .gone = (s.cells K).errand := by
      rw [show Errand.gone = (s.cells K).errand q from (show (s.pc q).errand = .gone by rw [hq]; rfl).symm]
      exact Function.update_eq_self ..
    rw [hcells, show Pc.none.errand = .gone from rfl, hsame]
    exact .reap (show (s.pc q).errand = .gone by rw [hq]; rfl)
  | noVictim hpc => exact .quiet hpc rfl rfl rfl
  | takeVictim hpc => exact .quiet hpc rfl rfl rfl
  | evictVictim hpc => exact .quiet hpc rfl rfl rfl
  | victimWake hpc => exact .quiet hpc rfl rfl rfl
  | @store k i v p w c hpc hstore =>
    obtain ⟨hc, hs, A, hA, hne, rfl⟩ := SwapFile.storeBegin_ok hstore
    have hlen : (A.storeSegs v).length ≤ 1 := by
      simp only [Sys.Linked, hpc] at ha
      exact ha A hA
    obtain ⟨sg, hsegs, hseg⟩ := AddrSpace.storeSegs_single hlen hne
    have hlive := (hf s.cur v p (by rw [hpc]; rfl)).2.2
    have hr : (Pc.storeSwap k i v p).retag s.swap = some (c, some (p, v)) := by
      simp only [Pc.retag, hc, Option.map_some]
    rw [Sys.retag_advance hpc hr, Sys.cells_goto, hsegs]
    exact .file (by rw [herr, hpc]; rfl) hc hs
      (show (s.pc p).errand.alive = true by rw [Pc.alive_errand]; exact hlive)
      (fun hk => by
        have hfiled := hK hk
        simp only [Sys.Filed, hpc] at hfiled
        exact (hfiled A hA).2.trans hseg)
  | @storing k i c w st hpc hend =>
    rw [Sys.retag_advance hpc rfl, Sys.cells_goto, SwapFile.storeEnd_spec hend]
    have hcells : Sys.cells ({ s with
        swap := { s.swap with store := Function.update s.swap.store c false }
        disk := writeAt s.disk (s.swap.offset c) pageSize (s.frame i)
        stats := st }.mapPc (Pc.wakeCell c)) K = { s.cells K with
          store := Function.update (s.cells K).store c false
          errand := fun q => ((s.cells K).errand q).wake c } := by
      have hw : (fun q => ((s.pc q).wakeCell c).errand) = fun q => (s.pc q).errand.wake c := by
        funext q
        exact Pc.errand_wakeCell c _
      unfold Sys.cells
      rw [Sys.pc_mapPc]
      change Cells.mk _ _ _ _ _ (fun q => ((s.pc q).wakeCell c).errand) _ _ = _
      rw [hw]
      rfl
    rw [hcells]
    exact .written (by rw [herr, hpc]; rfl)
  | storedVictim hpc => exact .quiet hpc rfl rfl rfl
  | storedAlloc hpc => exact .quiet hpc rfl rfl rfl
  | storedFork hpc => exact .quiet hpc rfl rfl rfl
  | @loadFound v i as w c hpc has hload =>
    obtain ⟨sg, prev, hseg, hsearch, rfl⟩ := SwapFile.loadBegin_some hload
    rw [Sys.retag_advance hpc rfl, Sys.cells_goto]
    exact .find (by rw [herr, hpc]; rfl) (hun (by rw [hpc]; exact nofun)) hsearch
  | loadZero hpc => exact .quiet hpc rfl rfl rfl
  | loadElf hpc => exact .quiet hpc rfl rfl rfl
  | @cellSleep k c w hpc htest =>
    obtain ⟨rfl, hb⟩ := SwapFile.testStore_spec htest
    have hwait : ((s.cells K).errand (s.cells K).cur).waits = some (c, .test) := by
      rw [herr, hpc]
      cases k <;> rfl
    have hgo : (Pc.cellWait k c false).errand =
        ((s.cells K).errand (s.cells K).cur).setPhase .asleep := by
      rw [herr, hpc]
      cases k <;> rfl
    have hr : (Pc.cell k c).retag s.swap = none := by
      cases k with
      | exit sg =>
        simp only [Pc.retag, ← hb]
        rfl
      | _ => rfl
    rw [Sys.retag_advance hpc hr, Sys.cells_goto, hgo]
    exact .sleep hwait hb.symm
  | @cellLoad v i c w st hpc htest =>
    obtain ⟨rfl, hb⟩ := SwapFile.testStore_spec htest
    rw [Sys.retag_advance hpc rfl, Sys.cells_goto]
    have hm := CellMove.ready (t := s.cells K) (c := c) (by rw [herr, hpc]; rfl) hb.symm
    rw [herr, hpc] at hm
    exact hm
  | @cellExit sg c w hpc htest =>
    obtain ⟨rfl, hb⟩ := SwapFile.testStore_spec htest
    have hr : (Pc.cell (.exit sg) c).retag s.swap = some (c, none) := by
      simp only [Pc.retag, ← hb]
      rfl
    rw [Sys.retag_advance hpc hr, Sys.cells_goto]
    exact .release (by rw [herr, hpc]; rfl) hb.symm
  | @cellCopy child sg f c w hpc htest =>
    obtain ⟨rfl, hb⟩ := SwapFile.testStore_spec htest
    rw [Sys.retag_advance hpc rfl, Sys.cells_goto]
    have hm := CellMove.ready (t := s.cells K) (c := c) (by rw [herr, hpc]; rfl) hb.symm
    rw [herr, hpc] at hm
    exact hm
  | @cellWake k c hpc =>
    exact .quiet hpc rfl rfl rfl
  | @reading v i c st hpc =>
    rw [Sys.retag_advance hpc rfl, Sys.cells_goto]
    exact .give (v := v) (by rw [herr, hpc]; rfl)
  | elfReading hpc => exact .quiet hpc rfl rfl rfl
  | loaded hpc => exact .quiet hpc rfl rfl rfl
  | allocWake hpc => exact .quiet hpc rfl rfl rfl
  | removeCell hpc => exact .quiet hpc rfl rfl rfl
  | @removeNext sg sg' hpc hsg =>
    rw [Sys.retag_advance hpc rfl, Sys.cells_goto]
    have hne : SwapList.seg sg' s.cur ≠ .seg sg s.cur := by
      intro he
      cases he
      have := Segment.rank_next hsg
      omega
    have hhead : (s.swap.clearList sg s.cur).lists.head (.seg sg' s.cur) =
        s.swap.lists.head (.seg sg' s.cur) := Function.update_of_ne hne ..
    rw [hhead]
    exact .clear (by rw [herr, hpc]; rfl) hsg
  | removeDone hpc hsg =>
    rw [Sys.retag_advance hpc rfl, Sys.cells_goto]
    exact .die (by rw [herr, hpc]; rfl) hsg
  | @copyTake child sg c w f hpc hbegin =>
    obtain ⟨hf', hsf, rfl⟩ := SwapFile.copyBegin_ok hbegin
    have hrole : s.table.role s.cur = .forking child 0 := by
      rw [show s.table.role s.cur = (s.pc s.cur).role from rfl, hpc]
      rfl
    rw [Sys.retag_advance hpc rfl, Sys.cells_goto]
    refine .copyTake (by rw [herr, hpc]; rfl) hf' hsf ?_ ?_
    · change (s.pc child).errand.alive = true
      rw [Pc.alive_errand, show (s.pc child).role = .embryo from ho.apart.embryo hrole]
      rfl
    · intro q
      cases ht : ((s.cells K).errand q).target with
      | none => rfl
      | some x =>
        obtain ⟨k, hq⟩ := Pc.forking_of_target ht
        have hqc : q = s.cur := ho.apart.sole (by rw [show s.table.role q = _ from hq]; rfl)
          (by rw [hrole]; rfl)
        rw [hqc, show (s.cells K).errand s.cur = (s.pc s.cur).errand from rfl, hpc] at ht
        cases ht
  | copyNext hpc hsg =>
    rw [Sys.retag_advance hpc rfl, Sys.cells_goto]
    exact .copyNext (by rw [herr, hpc]; rfl) hsg
  | copyDone hpc hsg =>
    rw [Sys.retag_advance hpc rfl, Sys.cells_goto]
    exact .copyDone (by rw [herr, hpc]; rfl) hsg
  | copyReading hpc => exact .quiet hpc rfl rfl rfl
  | @copyWriting child sg c f hpc =>
    rw [Sys.retag_advance hpc rfl, Sys.cells_goto]
    refine .copyEnd (by rw [herr, hpc]; rfl) (hun (by rw [hpc]; exact nofun)) ?_
    have has := hk s.cur child 0 (by rw [hpc]; rfl)
    funext v sg
    simp only [Sys.cells, Sys.home, has]
  | ptSkip hpc => exact .quiet hpc rfl rfl rfl
  | ptStore hpc => exact .quiet hpc rfl rfl rfl
  | ptSpace hpc => exact .quiet hpc rfl rfl rfl
  | @ptEnd child i pt hpc _ _ =>
    have hrole : s.table.role s.cur = .forking child i := by
      rw [show s.table.role s.cur = (s.pc s.cur).role from rfl, hpc]
      rfl
    have hchild : (s.pc child).role = .embryo := ho.apart.embryo hrole
    have hce : (s.pc child).errand = .idle := by
      cases hc : s.pc child with
      | embryo => rfl
      | storeSwap k _ _ _ => rw [hc] at hchild; cases k <;> cases hchild
      | storing k _ _ => rw [hc] at hchild; cases k <;> cases hchild
      | stored k _ => rw [hc] at hchild; cases k <;> cases hchild
      | cell k _ => rw [hc] at hchild; cases k <;> cases hchild
      | cellWait k _ _ => rw [hc] at hchild; cases k <;> cases hchild
      | _ => rw [hc] at hchild; cases hchild
    have hcells : Sys.cells
        ((({ s with semFork := true }.setPt pt).mapPc Pc.wakePt).setPc child .run) K = s.cells K := by
      rw [Sys.cells_setPc, Sys.cells_mapPc _ Pc.errand_wakePt]
      have : Function.update (s.cells K).errand child Pc.run.errand = (s.cells K).errand := by
        rw [show Pc.run.errand = (s.cells K).errand child from hce.symm]
        exact Function.update_eq_self ..
      change { s.cells K with errand := Function.update (s.cells K).errand child Pc.run.errand } = _
      rw [this]
    exact .quiet hpc rfl hcells rfl

end

end Clape
