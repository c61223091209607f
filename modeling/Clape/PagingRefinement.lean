import Clape.PrivateMemoryRuns

namespace Clape
set_option autoImplicit true

/-- Where processes get a memory, and where they lose it. -/
theorem Move.active {s u : Sys} (hm : Move s a u) (ho : s.table.Own) (q : Nat) :
    (u.pc q).role.active = (s.pc q).role.active ∨ s.pc q = .none ∧ s.pc s.cur = .run ∨
      s.seen a u = .fork s.cur q ∨ q = s.cur ∧ s.seen a u = .exit s.cur ∧
        (a = .exit ∨ ∃ x, a = .fault .readonly x) := by
  have hother : ∀ {w : Sys} {c : Pc}, w.pc = s.pc → w.cur = s.cur →
      c.role.active = (s.pc s.cur).role.active →
      ((w.goto c).pc q).role.active = (s.pc q).role.active := by
    intro w c hpc hcur hc
    rw [Sys.pc_goto, hpc, hcur]
    by_cases hq : q = s.cur
    · rw [hq, Function.update_self, hc]
    · rw [Function.update_of_ne hq]
  have hstay : ∀ {w : Sys} {c c' : Pc}, w.pc = s.pc → w.cur = s.cur → s.pc s.cur = c →
      c'.role.active = c.role.active → ((w.goto c').pc q).role.active = (s.pc q).role.active := by
    intro w c c' hpc hcur hc hc'
    exact hother hpc hcur (by rw [hc, hc'])
  cases hm with
  | dispatch => exact .inl rfl
  | write => exact .inl rfl
  | hit => exact .inl rfl
  | allocFree => exact .inl rfl
  | kfree => exact .inl (congrArg Role.active (Pc.role_wakePt _))
  | space hpc => exact .inl (hstay rfl rfl hpc rfl)
  | seek hpc => exact .inl (hstay rfl rfl hpc rfl)
  | @exit a ipt st hpc ha hfree =>
    have hnew := Sys.pc_goto_self { s with ipt := ipt, stats := st }
      (.removeSwap .text (s.swap.lists.head (.seg .text s.cur)))
    by_cases hq : q = s.cur
    · refine .inr (.inr (.inr ⟨hq, ?_, ha⟩))
      rcases ha with rfl | ⟨x, rfl⟩
      · simp only [Sys.seen, hpc]
        rw [show _ = _ from hnew]
      · simp only [Sys.seen, hpc]
        rw [show _ = _ from hnew]
    · apply Or.inl
      rw [Sys.pc_goto]
      exact congrArg (fun c : Pc => c.role.active) (Function.update_of_ne hq ..)
  | @segv v i as w ipt hpc has _ _ hfree =>
    -- the frame claimed for the fault has its I/O bit set
    obtain ⟨hi, ⟨hval, hio, -⟩, hv, hpg, hpid⟩ := (ho.fits i).held (q := s.cur) (o := some v)
      (by rw [show s.table.role s.cur = (s.pc s.cur).role from rfl, hpc]; rfl)
    have := ((freePages_ok hfree).1 i hi hpid (PtEntry.user_iff.2 ⟨hval, hpg ▸ hv.ne_kmallocPage⟩)).1
    rw [show (s.ipt.pt.entries i).ctrl.io = true from hio] at this
    cases this
  | allocWait hpc =>
    rcases hpc with ⟨hpc, -⟩ | ⟨hpc, -⟩
    · exact .inl (hstay rfl rfl hpc rfl)
    · exact .inl (hstay rfl rfl hpc rfl)
  | allocTake hpc =>
    rcases hpc with ⟨hpc, -⟩ | ⟨hpc, -⟩
    · exact .inl (hstay rfl rfl hpc rfl)
    · exact .inl (hstay rfl rfl hpc rfl)
  | allocEvict hpc =>
    rcases hpc with ⟨hpc, -⟩ | ⟨hpc, -⟩
    · exact .inl (hstay rfl rfl hpc rfl)
    · exact .inl (hstay rfl rfl hpc rfl)
  | @fork as child pt hpc has hsem hchild =>
    by_cases hq : q = child
    · exact .inr (.inl ⟨hq ▸ hchild, hpc⟩)
    · apply Or.inl
      rw [Sys.pc_goto]
      by_cases hqc : q = s.cur
      · rw [hqc, hpc]
        refine (congrArg (fun c : Pc => c.role.active) (Function.update_self ..)).trans ?_
        rfl
      · refine congrArg (fun c : Pc => c.role.active) ((Function.update_of_ne hqc ..).trans ?_)
        change (Function.update s.procs child ⟨s.as s.cur, .embryo⟩ q).pc = _
        rw [Function.update_of_ne hq]
        rfl
  | @spawn p hpc hp =>
    by_cases hq : q = p
    · exact .inr (.inl ⟨hq ▸ hp, hpc⟩)
    · apply Or.inl
      rw [Sys.pc_update rfl, Function.update_of_ne hq]
  | exec hpc =>
    apply Or.inl
    rw [Sys.pc_update rfl]
    by_cases hq : q = s.cur
    · rw [hq, Function.update_self]
      rfl
    · rw [Function.update_of_ne hq]
  | @reap p hpc hp =>
    apply Or.inl
    rw [Sys.pc_update rfl]
    by_cases hq : q = p
    · rw [hq, Function.update_self, hp]
      rfl
    · rw [Function.update_of_ne hq]
  | noVictim hpc => exact .inl (hstay rfl rfl hpc rfl)
  | takeVictim hpc => exact .inl (hstay rfl rfl hpc rfl)
  | evictVictim hpc => exact .inl (hstay rfl rfl hpc rfl)
  | victimWake hpc => exact .inl (hstay rfl rfl hpc rfl)
  | @store k i v p w c hpc => exact .inl (hstay rfl rfl hpc (by cases k <;> rfl))
  | @storing k i c w st hpc hb =>
    apply Or.inl
    rw [Sys.pc_goto, Sys.pc_mapPc]
    by_cases hq : q = s.cur
    · rw [hq, hpc]
      refine (congrArg (fun c : Pc => c.role.active) (Function.update_self ..)).trans ?_
      cases k <;> rfl
    · refine (congrArg (fun c : Pc => c.role.active) (Function.update_of_ne hq ..)).trans ?_
      exact congrArg Role.active (Pc.role_wakeCell ..)
  | storedVictim hpc => exact .inl (hstay rfl rfl hpc rfl)
  | storedAlloc hpc => exact .inl (hstay rfl rfl hpc rfl)
  | storedFork hpc => exact .inl (hstay rfl rfl hpc rfl)
  | loadFound hpc => exact .inl (hstay rfl rfl hpc rfl)
  | loadZero hpc => exact .inl (hstay rfl rfl hpc rfl)
  | loadElf hpc => exact .inl (hstay rfl rfl hpc rfl)
  | @cellSleep k c w hpc => exact .inl (hstay rfl rfl hpc (by cases k <;> rfl))
  | cellLoad hpc => exact .inl (hstay rfl rfl hpc rfl)
  | cellExit hpc => exact .inl (hstay rfl rfl hpc rfl)
  | cellCopy hpc => exact .inl (hstay rfl rfl hpc rfl)
  | @cellWake k c hpc => exact .inl (hstay rfl rfl hpc (by cases k <;> rfl))
  | reading hpc => exact .inl (hstay rfl rfl hpc rfl)
  | elfReading hpc => exact .inl (hstay rfl rfl hpc rfl)
  | loaded hpc => exact .inl (hstay rfl rfl hpc rfl)
  | allocWake hpc => exact .inl (hstay rfl rfl hpc rfl)
  | removeCell hpc => exact .inl (hstay rfl rfl hpc rfl)
  | removeNext hpc => exact .inl (hstay rfl rfl hpc rfl)
  | removeDone hpc => exact .inl (hstay rfl rfl hpc rfl)
  | copyTake hpc => exact .inl (hstay rfl rfl hpc rfl)
  | copyNext hpc => exact .inl (hstay rfl rfl hpc rfl)
  | copyDone hpc => exact .inl (hstay rfl rfl hpc rfl)
  | copyReading hpc => exact .inl (hstay rfl rfl hpc rfl)
  | copyWriting hpc => exact .inl (hstay rfl rfl hpc rfl)
  | ptSkip hpc => exact .inl (hstay rfl rfl hpc rfl)
  | ptStore hpc => exact .inl (hstay rfl rfl hpc rfl)
  | ptSpace hpc => exact .inl (hstay rfl rfl hpc rfl)
  | @ptEnd child i pt hpc hi hend =>
    have hnew : (((({ s with semFork := true }.setPt pt).mapPc Pc.wakePt).setPc child .run).goto .run).pc
        s.cur = .run := Sys.pc_goto_self _ _
    by_cases hq : q = child
    · refine .inr (.inr (.inl ?_))
      simp only [Sys.seen, hpc, hnew, hq]
    · apply Or.inl
      rw [Sys.pc_goto, Sys.pc_setPc]
      by_cases hqc : q = s.cur
      · rw [hqc, hpc]
        refine (congrArg (fun c : Pc => c.role.active) (Function.update_self ..)).trans ?_
        rfl
      · refine congrArg Role.active (Eq.trans ?_ (Pc.role_wakePt (s.pc q)))
        exact congrArg Pc.role ((Function.update_of_ne hqc ..).trans (Function.update_of_ne hq ..))

namespace Sys.Paged
variable {s u : Sys}

theorem visible_other (h : s.Paged L m) (hm : Move s a u) (hkeep : ∀ v, m' (p, v) = m (p, v))
    (hfork : s.seen a u ≠ .fork s.cur p) (hexit : p = s.cur → s.seen a u ≠ .exit s.cur) :
    u.visible m' p = s.visible m p := by
  funext v
  unfold visible
  rw [hkeep]
  rcases hm.active h.order.good.1 p with hact | ⟨hp, hcur⟩ | hseen | ⟨hp, hseen, -⟩
  · rw [hact]
  · rw [h.absent_of_gone hp (by rw [hcur]; rfl) v, ite_self, ite_self]
  · exact (hfork hseen).elim
  · exact (hexit hp hseen).elim

theorem visible_of_active (m : Nat × Nat → Option Page) (h : (s.pc p).role.active = true) (v : Nat) :
    s.visible m p v = m (p, v) := if_pos h

theorem visible_of_not {m : Nat × Nat → Option Page} (h : (s.pc p).role.active ≠ true) (v : Nat) :
    s.visible m p v = none := if_neg h

theorem visible_update (h : s.Paged L m) (hm : Move s a u) (hact : (u.pc s.cur).role.active = true)
    (hs : (s.pc s.cur).role.active = true) (hfork : ∀ p, s.seen a u ≠ .fork s.cur p) (v : Nat)
    (o : Option Page) : u.visible (Function.update m (s.cur, v) o) =
      Function.update (s.visible m) s.cur (Function.update (s.visible m s.cur) v o) := by
  funext p
  by_cases hp : p = s.cur
  · subst hp
    rw [Function.update_self]
    funext w
    rw [visible_of_active _ hact]
    by_cases hw : w = v
    · rw [hw, Function.update_self, Function.update_self]
    · rw [Function.update_of_ne hw, Function.update_of_ne (by simp [hw]), visible_of_active _ hs]
  · rw [Function.update_of_ne hp]
    apply h.visible_other hm _ (hfork p) (fun he => (hp he).elim)
    intro w
    apply Function.update_of_ne
    intro he
    cases he
    exact hp rfl

/-- A step does to the memories of the processes what is seen of it. -/
theorem visible_step (h : s.Paged L m) (hs : SysStep s a u) (hg : s.Ghost a u m m') :
    (s.seen a u).Step (s.visible m) (u.visible m') := by
  have hm := hs.move
  cases hg with
  | same hseen _ =>
    rw [hseen]
    funext p
    exact h.visible_other hm (fun _ => rfl) (by simp [hseen]) (by simp [hseen])
  | begin _ hseen =>
    rw [hseen]
    funext p
    exact h.visible_other hm (fun _ => rfl) (by simp [hseen]) (by simp [hseen])
  | @fork r i hpc hi _ hact hseen =>
    rw [hseen]
    have hcopy : (s.pc s.cur).copying = some (r, i, none) := by rw [hpc]; rfl
    have hr := h.child_embryo hcopy
    have hcur : (s.pc s.cur).role.active = true := by rw [hpc]; rfl
    have hall : ∀ v, m (r, v) = m (s.cur, v) := by
      intro v
      apply (h.doing s.cur).done hcopy
      rintro (⟨j, hj, hk⟩ | ⟨d, hd, -⟩)
      · exact hi (Nat.lt_of_le_of_lt hj hk.1)
      · exact hd
    refine ⟨visible_of_not (by rw [hr]; simp [Role.active]), ?_⟩
    funext p
    by_cases hp : p = r
    · subst hp
      rw [Function.update_self]
      funext v
      rw [visible_of_active _ hcur, ← hall v]
      exact visible_of_active _ hact _
    · rw [Function.update_of_ne hp]
      apply h.visible_other hm (fun _ => rfl)
      · rw [hseen]
        intro he
        cases he
        exact hp rfl
      · simp [hseen]
  | change hact hu _ hseen hold =>
    rw [hseen]
    exact ⟨_, (visible_of_active _ hact _).trans hold,
      h.visible_update hm hu hact (by simp [hseen]) _ _⟩
  | touch hact hu _ hseen hold =>
    rw [hseen]
    exact ⟨(visible_of_active _ hact _).trans hold, h.visible_update hm hu hact (by simp [hseen]) _ _⟩
  | @copy r k w v hseen hcopy _ _ =>
    rw [hseen]
    funext p
    by_cases hp : p = r
    · subst hp
      have hr := h.child_embryo hcopy
      have hno : (s.pc p).role.active ≠ true := by rw [hr]; simp [Role.active]
      funext v'
      rw [visible_of_not hno]
      rcases hm.active h.order.good.1 p with hact | ⟨hp, -⟩ | hf | ⟨-, hx, -⟩
      · exact visible_of_not (by rw [hact]; exact hno) v'
      · rw [hp] at hr
        cases hr
      · rw [hseen] at hf
        cases hf
      · rw [hseen] at hx
        cases hx
    · apply h.visible_other hm _ (by simp [hseen]) (by simp [hseen])
      intro v'
      apply Function.update_of_ne
      intro he
      cases he
      exact hp rfl
  | lose hx hor hother =>
    have hno : (u.pc s.cur).role.active ≠ true := by rw [hx]; simp [Role.active]
    rcases hor with hseen | ⟨hseen, hrole⟩
    · rw [hseen]
      funext p
      by_cases hp : p = s.cur
      · subst hp
        rw [Function.update_self]
        funext v
        exact visible_of_not hno v
      · rw [Function.update_of_ne hp]
        exact h.visible_other hm (fun v => hother p v hp) (by simp [hseen]) (fun he => (hp he).elim)
    · rw [hseen]
      funext p
      by_cases hp : p = s.cur
      · subst hp
        funext v
        rw [visible_of_not hno, visible_of_not (by rw [hrole]; simp [Role.active])]
      · exact h.visible_other hm (fun v => hother p v hp) (by simp [hseen]) (fun he => (hp he).elim)

end Sys.Paged

theorem pageAt_writeAt_congr {m m' : Nat → UInt8} (h : pageAt m a = pageAt m' a) (x len : Nat)
    (b : Nat → UInt8) : pageAt (writeAt m x len b) a = pageAt (writeAt m' x len b) a := by
  funext o
  have ho := congrFun h o
  unfold pageAt at ho ⊢
  by_cases hin : x ≤ a + o ∧ a + o < x + len
  · rw [writeAt_in hin, writeAt_in hin]
  · rw [writeAt_out hin, writeAt_out hin, ho]

/-- The page that an executable gives: its bytes, and zeros around them. -/
def LoadPlan.page (f : File) : LoadPlan → Page
  | .read _ offset dst len => fun o =>
    if dst ≤ o.val ∧ o.val < dst + min len (f.size - offset) then f.bytes (offset + (o.val - dst)) else 0
  | .zero | .segv => fun _ => 0

/-- `load_page` makes that page in any frame, unless a part of the frame is left as it was. -/
theorem LoadPlan.pageAt_build {plan : LoadPlan} (h : plan.Covers f) (hb : plan.build f mem a = some mem') :
    pageAt mem' a = plan.page f := by
  funext o
  have hin : a ≤ a + o ∧ a + o < a + pageSize := ⟨Nat.le_add_right .., Nat.add_lt_add_left o.isLt a⟩
  cases plan with
  | segv => cases hb
  | zero =>
    cases hb
    exact bzero_in hin
  | read bz offset dst len =>
    cases hb
    change writeAt _ (a + dst) (min len (f.size - offset)) (readAt f.bytes offset) (a + o) =
      if dst ≤ o.val ∧ o.val < dst + min len (f.size - offset) then f.bytes (offset + (o.val - dst)) else 0
    by_cases hw : dst ≤ o.val ∧ o.val < dst + min len (f.size - offset)
    · rw [writeAt_in (by omega), if_pos hw, Nat.add_sub_add_left]
      rfl
    · rw [writeAt_out (by omega), if_neg hw]
      rcases h with rfl | ⟨rfl, hlen⟩
      · exact bzero_in hin
      · exact (hw ⟨Nat.zero_le _, by omega⟩).elim

/-- A page that a process touches for the first time is the one that its executable gives. -/
def Sys.Fills (s : Sys) : MemoryEvent Nat Nat Page → Prop
  | .touch p v b => ∃ A, s.as p = some A ∧ A.loadPlan v ≠ .segv ∧ b = (A.loadPlan v).page (s.files A.vnode)
  | _ => True

/-- No page is read whole from an executable that ends before it. -/
def Sys.Whole (s : Sys) : Action → Prop
  | .advance =>
    match s.pc s.cur with
    | .elfReading v _ => ∀ A, s.as s.cur = some A → ¬ A.ReadsPast (s.files A.vnode) v
    | _ => True
  | _ => True

theorem Sys.Whole.covers {s : Sys} (h : s.Whole .advance) (hpc : s.pc s.cur = .elfReading v i)
    (has : s.as s.cur = some A) : (A.loadPlan v).Covers (s.files A.vnode) := by
  unfold Whole at h
  rw [hpc] at h
  exact AddrSpace.covers_iff.2 (h A has)

theorem Sys.Paged.fills {s u : Sys} (h : s.Paged L m) (hs : SysStep s a u) (hw : s.Whole a) :
    s.Fills (s.seen a u) := by
  have hloaded : ∀ {v i v' i'}, (s.pc s.cur = .loadPage v i ∨ s.pc s.cur = .elfReading v i) →
      u.pc s.cur = .loaded v' i' → a = .advance := by
    intro v i v' i' hpc hu
    rcases hs.move.pc_cur (by rcases hpc with hpc | hpc <;> rw [hpc] <;> simp) with he | he | ha
    · rcases hpc with hpc | hpc
      · rw [he, hpc] at hu
        cases hu
      · rw [he, hpc] at hu
        cases hu
    · rcases hpc with hpc | hpc
      · rw [he, hpc] at hu
        cases hu
      · rw [he, hpc] at hu
        cases hu
    · exact ha
  have hu := hs.2
  unfold seen
  split
  · split
    · trivial
    · trivial
  · split
    · trivial
    · trivial
    · rename_i v i v' i' hpc hnew
      cases hloaded (.inl hpc) hnew
      simp only [micro, advance, hpc] at hu
      obtain ⟨_, -, hu⟩ := bind_ok.1 hu
      cases has : s.as s.cur with
      | none =>
        rw [has] at hu
        cases hu
      | some A =>
        rw [has] at hu
        obtain ⟨⟨w, o⟩, -, hu⟩ := bind_ok.1 hu
        cases o with
        | some c =>
          cases hu
          cases (pc_goto_self { s with swap := w } _).symm.trans hnew
        | none =>
          change s.loadElfPage A v i = .ok u at hu
          unfold loadElfPage at hu
          cases hplan : A.loadPlan v with
          | zero =>
            rw [hplan] at hu
            cases hu
            refine ⟨A, has, by simp [hplan], ?_⟩
            rw [hplan]
            have hb : LoadPlan.zero.build (s.files A.vnode) s.mem (i * pageSize) = some _ := rfl
            exact LoadPlan.pageAt_build trivial hb
          | read bz offset dst len =>
            rw [hplan] at hu
            cases hu
            cases (Sys.pc_goto_self _ _).symm.trans hnew
          | segv =>
            rw [hplan] at hu
            obtain ⟨ipt, -, hu⟩ := bind_ok.1 hu
            cases hu
            cases (Sys.pc_goto_self { s with ipt := ipt } _).symm.trans hnew
    · rename_i v i v' i' hpc hnew
      cases hloaded (.inr hpc) hnew
      obtain ⟨-, A, bz, offset, dst, len, has, hplan, hz⟩ := (h.doing s.cur).fresh hpc
      have hcov := hw.covers hpc has
      simp only [micro, advance, hpc, has, hplan] at hu
      cases hu
      refine ⟨A, has, by simp [hplan], ?_⟩
      rw [← LoadPlan.pageAt_build hcov (congrArg (LoadPlan.build _ s.mem (i * pageSize)) hplan)]
      change pageAt ((s.files A.vnode).readInto s.mem (i * pageSize + dst) offset len) (i * pageSize) = _
      apply pageAt_writeAt_congr
      cases bz with
      | false => rfl
      | true =>
        have hb := pageAt_writeAt_self s.mem (i * pageSize) fun _ => 0
        exact (hz rfl).trans hb.symm
    · trivial
    · trivial

/-- What the paging relies on. -/
def Sys.Careful (s : Sys) (a : Action) : Prop := s.Filed a ∧ s.Unseen a ∧ s.Contained a

instance (p : LoadPlan) : Decidable p.Inside :=
  match p with
  | .read _ _ dst len => inferInstanceAs (Decidable (dst + len ≤ pageSize))
  | .zero | .segv => .isTrue trivial

instance (s : Sys) (a : Action) : Decidable (s.Contained a) :=
  match a with
  | .advance =>
    match h : s.pc s.cur with
    | .elfReading v _ =>
      decidable_of_iff ((s.as s.cur).all (fun A => decide (A.loadPlan v).Inside) = true) (by
        simp [Sys.Contained, h, Option.all_eq_true])
    | .none | .embryo | .run | .zombie | .findVictim _ _ | .victimWait _ _ _ | .storeSwap _ _ _ _
    | .storing _ _ _ | .stored _ _ | .loadPage _ _ | .cell _ _ | .cellWait _ _ _ | .reading _ _ _
    | .loaded _ _ | .alloc | .allocWait _ | .removeSwap _ _ | .copySwap _ _ _
    | .copyReading _ _ _ _ | .copyWriting _ _ _ _ | .copyPt _ _ =>
      .isTrue (by simp [Sys.Contained, h])
  | .dispatch _ | .kfree _ | .reap _ | .write _ _ _ | .fault _ _ | .exit | .alloc | .fork _
  | .spawn _ | .exec _ _ => .isTrue trivial

instance (s : Sys) (a : Action) : Decidable (s.Careful a) :=
  inferInstanceAs (Decidable (_ ∧ _ ∧ _))

instance (ph : ElfPhdr) (base off : Nat) (f : File) (v : Nat) : Decidable (ph.ReadsPast base off f v) :=
  inferInstanceAs (Decidable ((¬ (off ≠ 0 ∧ u32Sub v base = 0) ∧
    0 ≤ toInt32 (ph.pFilesz + off) - toInt32 (u32Sub v base) ∧
    pageSize ≤ u32Sub (u32 (ph.pFilesz + off)) (u32Sub v base)) ∧ _))

instance (A : AddrSpace) (f : File) (v : Nat) : Decidable (A.ReadsPast f v) :=
  inferInstanceAs (Decidable (_ ∨ _))

instance (s : Sys) (a : Action) : Decidable (s.Whole a) :=
  match a with
  | .advance =>
    match h : s.pc s.cur with
    | .elfReading v _ =>
      decidable_of_iff ((s.as s.cur).all (fun A => decide (¬ A.ReadsPast (s.files A.vnode) v)) = true) (by
        simp [Sys.Whole, h, Option.all_eq_true])
    | .none | .embryo | .run | .zombie | .findVictim _ _ | .victimWait _ _ _ | .storeSwap _ _ _ _
    | .storing _ _ _ | .stored _ _ | .loadPage _ _ | .cell _ _ | .cellWait _ _ _ | .reading _ _ _
    | .loaded _ _ | .alloc | .allocWait _ | .removeSwap _ _ | .copySwap _ _ _
    | .copyReading _ _ _ _ | .copyWriting _ _ _ _ | .copyPt _ _ =>
      .isTrue (by simp [Sys.Whole, h])
  | .dispatch _ | .kfree _ | .reap _ | .write _ _ _ | .fault _ _ | .exit | .alloc | .fork _
  | .spawn _ | .exec _ _ => .isTrue trivial

theorem Sys.boot_paged (m : Hardware) : ∃ L, (Sys.boot m).Paged L fun _ => none := by
  obtain ⟨L, hL⟩ := Sys.boot_inOrder m
  obtain ⟨L₀, hrep, hmem⟩ := SwapFile.initLists_rep m.swapSize
  have hpc : ∀ q, (Sys.boot m).pc q = .run ∨ (Sys.boot m).pc q = .none := by
    intro q
    change (if q = 1 then Pc.run else .none) = .run ∨ (if q = 1 then Pc.run else .none) = .none
    by_cases hq : q = 1
    · exact .inl (if_pos hq)
    · exact .inr (if_neg hq)
  have hlist : ∀ sg q, L (.seg sg q) = [] := by
    intro sg q
    have hwalk : ((Sys.boot m).cells.errand q).walk = none := by
      change ((Sys.boot m).pc q).errand.walk = none
      rcases hpc q with h | h
      · rw [h]
        rfl
      · rw [h]
        rfl
    have hhead : (Sys.boot m).cells.view.head (.seg sg q) =
        (SwapFile.initLists m.swapSize).head (.seg sg q) := by
      simp only [Cells.view, Lists.seen, hwalk]
      rfl
    have hc := hL.kept.rep.chain (.seg sg q)
    rw [hhead] at hc
    rw [hc.unique (hrep.chain (.seg sg q))]
    apply List.eq_nil_iff_forall_not_mem.2
    intro c hc
    cases ((hmem _ c).1 hc).1
  have hno : ∀ x k, ¬ (Sys.boot m).Keeps L x k := by
    intro x k hx
    cases x with
    | frame i => exact Sys.boot_no_key m i _ _ hx.1
    | outgoing i =>
      obtain ⟨q, y, hq, -⟩ := hx
      rcases hpc q with h | h
      · rw [h] at hq
        cases hq
      · rw [h] at hq
        cases hq
    | cell c =>
      rcases hx.1 with ⟨⟨sg, hc⟩, -⟩ | hload
      · rw [hlist] at hc
        cases hc
      · change ((Sys.boot m).pc k.1).errand.load = _ at hload
        rcases hpc k.1 with h | h
        · rw [h] at hload
          cases hload
        · rw [h] at hload
          cases hload
  refine ⟨L, hL, Sys.boot_cached m, ⟨fun hx => (hno _ _ hx).elim, ?_⟩, ?_⟩
  · intro k c
    constructor
    · intro h
      cases h
    · rintro ⟨x, hx, -⟩
      exact (hno x k hx).elim
  · intro q
    refine ⟨?_, fun _ _ => rfl, fun _ _ => rfl⟩
    rcases hpc q with h | h
    · exact .plain h rfl
    · exact .plain h rfl

theorem Sys.run_paged (h : Run (StepWhen Sys.Careful) (Sys.boot m) tr s) : ∃ L n, s.Paged L n := by
  apply h.invariant (P := fun s => ∃ L n, s.Paged L n)
  · obtain ⟨L, hL⟩ := Sys.boot_paged m
    exact ⟨L, _, hL⟩
  · intro s a u hp hs
    obtain ⟨L, n, hp⟩ := hp
    obtain ⟨⟨hF, hU, hC⟩, hs⟩ := hs
    obtain ⟨M, n', hu, -⟩ := hp.step hs hF hU hC
    exact ⟨M, n', hu⟩

/-- The process is in user mode, and the TLB maps its page to the frame. -/
def Sys.Maps (s : Sys) (p v i : Nat) : Prop :=
  s.cur = p ∧ s.pc p = .run ∧ (s.as p).isSome = true ∧
    ∃ k < numTlb, ∃ d, s.mmu.slots k = some ⟨v, i, d⟩

theorem Sys.Paged.slot {s : Sys} (h : s.Paged L m) (hp : s.Maps p v i) :
    s.visible m p v = some (s.bytes (.frame i)) := by
  obtain ⟨rfl, hpc, has, k, hk, d, he⟩ := hp
  have hact : (s.pc s.cur).role.active = true := by
    rw [hpc]
    rfl
  rw [Paged.visible_of_active _ hact]
  exact h.shows.of_holds (h.slot_frame hpc has hk he)

/-- A program writes to a page and forks, and the child reads what it wrote. -/
def forkAndRead : List Action :=
  ([.spawn 2, .dispatch 2, .exec 0 (programHeaders 0x400000 4096 0x10000000 4096),
    .fault .read 0x10000000, .advance, .advance, .advance, .write 0 5 7, .fork 3] : List Action) ++
  List.replicate 8 .advance ++ [.dispatch 3, .fault .read 0x10000000] ++ List.replicate 8 .advance

/-- The process neither changes the page nor exits. -/
def Sys.Retains (p v : Nat) (s : Sys) : Action → Prop
  | .write k _ _ => s.cur = p → ∀ e, s.mmu.slots k = some e → e.vpage ≠ v
  | .exit | .fault .readonly _ => s.cur ≠ p
  | _ => True

theorem Sys.seen_change {s u : Sys} (h : s.seen a u = .change p v f) :
    p = s.cur ∧ ∃ k off x e, a = .write k off x ∧ s.mmu.slots k = some e ∧ v = e.vpage := by
  unfold seen at h
  split at h
  · split at h
    · rename_i e he
      cases h
      exact ⟨rfl, _, _, _, e, rfl, he, rfl⟩
    · cases h
  · split at h
    all_goals cases h

theorem Sys.Paged.seen_exit {s u : Sys} (h : s.Paged L m) (hm : Move s a u)
    (hseen : s.seen a u = .exit p) : p = s.cur ∧ (a = .exit ∨ ∃ x, a = .fault .readonly x) := by
  have hpc : p = s.cur ∧ (s.pc s.cur).role.active = true ∧ (u.pc s.cur).role.active = false := by
    have hseen := hseen
    unfold seen at hseen
    split at hseen
    · split at hseen
      · cases hseen
      · cases hseen
    · split at hseen
      · rename_i hpc hnew
        cases hseen
        rw [hpc, hnew]
        exact ⟨rfl, rfl, rfl⟩
      · rename_i hpc hnew
        cases hseen
        rw [hpc, hnew]
        exact ⟨rfl, rfl, rfl⟩
      all_goals cases hseen
  obtain ⟨rfl, hs, hu⟩ := hpc
  rcases hm.active h.order.good.1 s.cur with hact | ⟨hno, hrun⟩ | hfork | ⟨-, -, ha⟩
  · rw [hs, hu] at hact
    cases hact
  · rw [hno] at hrun
    cases hrun
  · rw [hseen] at hfork
    cases hfork
  · exact ⟨rfl, ha⟩

theorem Sys.Paged.keep {s u : Sys} (h : s.Paged L m) (hs : SysStep s a u) (hg : s.Ghost a u m m')
    (ha : s.Retains p v a) (hb : s.visible m p v = some b) : u.visible m' p v = some b := by
  apply (h.visible_step hs hg).keep hb
  · intro f hseen
    obtain ⟨hp, k, off, x, e, rfl, he, hv⟩ := Sys.seen_change hseen
    exact ha hp.symm e he hv.symm
  · intro hseen
    obtain ⟨hp, rfl | ⟨x, rfl⟩⟩ := h.seen_exit hs.move hseen
    · exact ha hp.symm
    · exact ha hp.symm

/-- In every careful run a process finds in a page what was there when it last saw the page, if it
has not written there since: whatever other processes do, and whether the page was evicted. -/
theorem page_kept_until_written (h : Run (StepWhen Sys.Careful) (Sys.boot m) tr s)
    (hs : s.Maps p v i) (h' : Run (StepWhen fun t a => t.Careful a ∧ t.Retains p v a) s tr' t)
    (ht : t.Maps p v j) : t.bytes (.frame j) = s.bytes (.frame i) := by
  obtain ⟨L, n, hp⟩ := Sys.run_paged h
  obtain ⟨M, n', hp', hb⟩ := h'.invariant (P := fun t => ∃ L n, t.Paged L n ∧
      t.visible n p v = some (s.bytes (.frame i))) ⟨L, n, hp, hp.slot hs⟩ (by
    intro t a u hP hstep
    obtain ⟨L, n, ht, hb⟩ := hP
    obtain ⟨⟨⟨hF, hU, hC⟩, hkeep⟩, hstep⟩ := hstep
    obtain ⟨M, n', hu, hg⟩ := ht.step hstep hF hU hC
    exact ⟨M, n', hu, ht.keep hstep hg hkeep hb⟩)
  rw [hp'.slot ht] at hb
  exact Option.some.inj hb

instance (p v : Nat) (s : Sys) (a : Action) : Decidable (s.Retains p v a) :=
  match a with
  | .write k _ _ =>
    decidable_of_iff (s.cur = p → (s.mmu.slots k).all (fun e => e.vpage != v) = true) (by
      simp [Sys.Retains, Option.all_eq_true])
  | .exit | .fault .readonly _ => inferInstanceAs (Decidable (_ ≠ _))
  | .dispatch _ | .kfree _ | .reap _ | .fault .read _ | .fault .write _ | .alloc | .fork _
  | .spawn _ | .exec _ _ | .advance => .isTrue trivial

/-- The child writes to its copy and the parent reads the page again. -/
def writeAndReturn : List Action :=
  [.write 0 5 9, .dispatch 2, .fault .read 0x10000000] ++ List.replicate 8 .advance

theorem page_kept_until_written_return : ∃ s t : Sys,
    Run (StepWhen Sys.Careful) (Sys.boot (.blank 1 4)) (forkAndRead.take 8) s ∧
      Run (StepWhen fun t a => t.Careful a ∧ t.Retains 2 0x10000000 a) s
        (forkAndRead.drop 8 ++ writeAndReturn) t ∧
      s.bytes (.frame 0) ⟨5, by decide⟩ = 7 ∧ t.bytes (.frame 0) = s.bytes (.frame 0) := by
  obtain ⟨s, hr, hs⟩ := Sys.run_of_follow (C := Sys.Careful) (s := .boot (.blank 1 4))
    (forkAndRead.take 8) (p := fun s : Sys => decide (s.cur = 2 ∧ s.pc 2 = .run ∧ (s.as 2).isSome = true ∧
      s.mmu.slots 0 = some ⟨0x10000000, 0, true⟩ ∧ s.mem 5 = 7) &&
      (s.follow (fun (t : Sys) a => t.Careful a ∧ t.Retains 2 0x10000000 a)
        (forkAndRead.drop 8 ++ writeAndReturn)).any fun t : Sys =>
          decide (t.cur = 2 ∧ t.pc 2 = .run ∧ (t.as 2).isSome = true ∧
            t.mmu.slots 0 = some ⟨0x10000000, 0, true⟩)) (by decide +kernel)
  obtain ⟨hs, ht⟩ := Bool.and_eq_true_iff.1 hs
  obtain ⟨hcur, hpc, has, hslot, hmem⟩ := of_decide_eq_true hs
  obtain ⟨t, hr', ht⟩ := Sys.run_of_follow _ ht
  obtain ⟨hcur', hpc', has', hslot'⟩ := of_decide_eq_true ht
  have hmap : s.Maps 2 0x10000000 0 := ⟨hcur, hpc, has, 0, by decide, _, hslot⟩
  have hmap' : t.Maps 2 0x10000000 0 := ⟨hcur', hpc', has', 0, by decide, _, hslot'⟩
  exact ⟨s, t, hr, hr', hmem, page_kept_until_written hr hmap hr' hmap'⟩

end Clape
