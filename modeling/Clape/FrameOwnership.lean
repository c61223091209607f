import Clape.FrameTable
import Clape.KernelFrames

namespace Clape
set_option autoImplicit true

/-- An entry that an operation in progress holds. -/
def PtEntry.Held (e : PtEntry) : Prop :=
  e.ctrl.validity = true ∧ e.ctrl.io = true ∧ e.ctrl.swap = false ∧ e.ctrl.tlb = false

/-- The entry carries the key of the page that process `q` loads, or is the kernel's. -/
def PtEntry.KeyOf (e : PtEntry) (q : Nat) : Option Nat → Prop
  | some v => UserAddr v ∧ e.page = v ∧ e.pid = q
  | none => e.page = kmallocPage

/-- Entry `i` is as the operations in progress require it; `g` says that the frame is
handed out to the kernel. -/
structure Fits (n : Nat) (role : Nat → Role) (g : Prop) (i : Nat) (e : PtEntry) : Prop where
  held : (role q).hold = some (i, o) → i < n ∧ e.Held ∧ e.KeyOf q o
  io : e.ctrl.io = true → ∃ q o, (role q).hold = some (i, o)
  clean : e.ctrl.validity = false →
    e.ctrl.io = false ∧ e.ctrl.swap = false ∧ e.ctrl.tlb = false
  kernel : e.page = kmallocPage → e.ctrl.swap = false ∧ e.ctrl.tlb = false
  swap : e.ctrl.swap = true → i < n ∧ (role e.pid).forks = true
  frozen : (role e.pid).forks = true → i < n → e.user = true → e.ctrl.swap = true
  granted : g → i < n ∧ KernelFrame e

/-- No frame is held twice, and one process at most forks, to a child that does not run. -/
structure Apart (role : Nat → Role) : Prop where
  addr : role q = .seeking v → UserAddr v
  single : (role q).hold = some (i, o) → (role r).hold = some (i, o') → q = r
  sole : (role q).forks = true → (role r).forks = true → q = r
  embryo : role q = .forking c k → role c = .embryo

structure Table.Own (t : Table) : Prop where
  fits : ∀ i, Fits t.n t.role (t.contiguous i = 1) i (t.entries i)
  apart : Apart t.role
  sem : t.sem = true → ∀ q, (t.role q).forks = false

theorem Role.not_forks_of_hold {r : Role} (h : r.hold = some x) : r.forks = false := by
  cases r <;> first | rfl | cases h

theorem forks_update {role : Nat → Role} (hf : r.forks = (role p).forks) (q : Nat) :
    (Function.update role p r q).forks = (role q).forks := by
  by_cases hq : q = p
  · subst hq
    simpa using hf
  · simp [hq]

theorem hold_update {role : Nat → Role} (hh : r.hold = (role p).hold) (q : Nat) :
    (Function.update role p r q).hold = (role q).hold := by
  by_cases hq : q = p
  · subst hq
    simpa using hh
  · simp [hq]

namespace Fits

theorem roles (h : Fits n role g i e)
    (hh : ∀ q o, (role' q).hold = some (i, o) ↔ (role q).hold = some (i, o))
    (hf : (role' e.pid).forks = (role e.pid).forks) : Fits n role' g i e where
  held hq := h.held ((hh _ _).1 hq)
  io hio := by
    obtain ⟨q, o, hq⟩ := h.io hio
    exact ⟨q, o, (hh q o).2 hq⟩
  clean := h.clean
  kernel := h.kernel
  swap hs := by
    rw [hf]
    exact h.swap hs
  frozen hq := by
    rw [hf] at hq
    exact h.frozen hq
  granted := h.granted

theorem not_held_of_io (h : Fits n role g i e) (hio : e.ctrl.io = false) (q : Nat)
    (o : Option Nat) : (role q).hold ≠ some (i, o) := by
  intro hq
  have := (h.held hq).2.1.2.1
  rw [hio] at this
  cases this

theorem not_forks_of_swap (h : Fits n role g i e) (hi : i < n) (hu : e.user = true)
    (hs : e.ctrl.swap = false) : (role e.pid).forks = false := by
  cases hf : (role e.pid).forks with
  | false => rfl
  | true =>
    have := h.frozen hf hi hu
    rw [hs] at this
    cases this

theorem bits (h : Fits n role g i e) (hpg : e'.page = e.page) (hpid : e'.pid = e.pid)
    (hv : e'.ctrl.validity = e.ctrl.validity) (hio : e'.ctrl.io = e.ctrl.io)
    (hsw : e'.ctrl.swap = e.ctrl.swap)
    (ht : e'.ctrl.tlb = true → e.ctrl.tlb = true ∨ e.user = true ∧ e.ctrl.io = false) :
    Fits n role g i e' := by
  have hoff : e.ctrl.tlb = false → e.user = false ∨ e.ctrl.io = true → e'.ctrl.tlb = false := by
    intro h0 h1
    cases ht' : e'.ctrl.tlb with
    | false => rfl
    | true => simp_all
  constructor
  · intro q o hq
    obtain ⟨hi, ⟨h1, h2, h3, h4⟩, hk⟩ := h.held hq
    refine ⟨hi, ⟨hv.trans h1, hio.trans h2, hsw.trans h3, hoff h4 (.inr h2)⟩, ?_⟩
    cases o with
    | some v => exact ⟨hk.1, hpg.trans hk.2.1, hpid.trans hk.2.2⟩
    | none => exact hpg.trans hk
  · intro he
    exact h.io (hio ▸ he)
  · intro he
    rw [hv] at he
    obtain ⟨h1, h2, h3⟩ := h.clean he
    exact ⟨hio.trans h1, hsw.trans h2, hoff h3 (.inl (by simp [PtEntry.user, he]))⟩
  · intro he
    rw [hpg] at he
    obtain ⟨h1, h2⟩ := h.kernel he
    exact ⟨hsw.trans h1, hoff h2 (.inl (by simp [PtEntry.user, he]))⟩
  · intro he
    rw [hpid]
    exact h.swap (hsw ▸ he)
  · intro hf hi hu
    rw [hpid] at hf
    rw [hsw]
    refine h.frozen hf hi ?_
    simpa [PtEntry.user, hv, hpg] using hu
  · intro hg
    obtain ⟨hi, h1, h2, h3, h4, h5⟩ := h.granted hg
    exact ⟨hi, hpg.trans h1, hv.trans h2, hio.trans h3,
      hoff h4 (.inl (by simp [PtEntry.user, h1])), hsw.trans h5⟩

theorem sameButRef (h : Fits n role g i e) (hs : SameButRef e e') : Fits n role g i e' := by
  obtain ⟨b, rfl⟩ := hs
  exact h.bits rfl rfl rfl rfl rfl .inl

theorem update (h : Fits n role g i e) (hp : ∀ o, (role p).hold ≠ some (i, o))
    (hr : ∀ o, r.hold ≠ some (i, o)) (hf : r.forks = (role p).forks) :
    Fits n (Function.update role p r) g i e := by
  apply h.roles
  · intro q o
    by_cases hq : q = p
    · subst hq
      simp [hp, hr]
    · simp [hq]
  · exact forks_update hf _

theorem mark (h : Fits n role g i e) (hi : i < n) (hu : e.user = true)
    (hfree : ∀ q o, (role q).hold ≠ some (i, o)) (hh : ∀ q, (role' q).hold = (role q).hold)
    (hf : (role' e.pid).forks = b) : Fits n role' g i (e.setSwap b) := by
  obtain ⟨hv, hk⟩ := PtEntry.user_iff.1 hu
  constructor
  · intro q o hq
    rw [hh] at hq
    exact (hfree q o hq).elim
  · intro hio
    obtain ⟨q, o, hq⟩ := h.io hio
    exact (hfree q o hq).elim
  · intro hv'
    exact absurd (hv.symm.trans hv') (by decide)
  · intro hk'
    exact (hk hk').elim
  · intro hs
    exact ⟨hi, hf.trans hs⟩
  · intro hf' _ _
    exact hf.symm.trans hf'
  · intro hg
    exact (hk (h.granted hg).2.1).elim

theorem set {E : Nat → PtEntry} {C : Nat → Int} (hi : Fits n role (C i = 1) i e)
    (hj : ∀ j ≠ i, Fits n role (C j = 1) j (E j)) :
    ∀ j, Fits n role (C j = 1) j (Function.update E i e j) := by
  intro j
  by_cases h : j = i
  · subst h
    simpa using hi
  · simpa [h] using hj j h

end Fits

namespace Apart

theorem not_forked (h : Apart role) (hp : role p ≠ .embryo) (q k : Nat) :
    role q ≠ .forking p k := fun hq => hp (h.embryo hq)

/-- The process takes on a role that holds and forks what no other process does. -/
theorem update (h : Apart role) (ha : ∀ v, r = .seeking v → UserAddr v)
    (hh : ∀ i o, r.hold = some (i, o) → ∀ q ≠ p, ∀ o', (role q).hold ≠ some (i, o'))
    (hf : r.forks = true → ∀ q ≠ p, (role q).forks = false)
    (hc : ∀ c k, r = .forking c k → c ≠ p ∧ role c = .embryo)
    (hp : ∀ q k, role q ≠ .forking p k) : Apart (Function.update role p r) := by
  constructor
  · intro q v hq
    by_cases hqp : q = p
    · subst hqp
      exact ha v (by simpa using hq)
    · exact h.addr (by simpa [hqp] using hq)
  · intro q i o q' o' h1 h2
    by_cases hq : q = p
    · by_cases hq' : q' = p
      · exact hq.trans hq'.symm
      · subst hq
        simp only [Function.update_self, Function.update_of_ne hq'] at h1 h2
        exact (hh i o h1 q' hq' o' h2).elim
    · by_cases hq' : q' = p
      · subst hq'
        simp only [Function.update_self, Function.update_of_ne hq] at h1 h2
        exact (hh i o' h2 q hq o h1).elim
      · simp only [Function.update_of_ne hq, Function.update_of_ne hq'] at h1 h2
        exact h.single h1 h2
  · intro q q' h1 h2
    by_cases hq : q = p
    · by_cases hq' : q' = p
      · exact hq.trans hq'.symm
      · subst hq
        simp only [Function.update_self, Function.update_of_ne hq'] at h1 h2
        rw [hf h1 q' hq'] at h2
        cases h2
    · by_cases hq' : q' = p
      · subst hq'
        simp only [Function.update_self, Function.update_of_ne hq] at h1 h2
        rw [hf h2 q hq] at h1
        cases h1
      · simp only [Function.update_of_ne hq, Function.update_of_ne hq'] at h1 h2
        exact h.sole h1 h2
  · intro q c k hq
    by_cases hqp : q = p
    · subst hqp
      obtain ⟨hcp, he⟩ := hc c k (by simpa using hq)
      simpa [hcp] using he
    · have hq' : role q = .forking c k := by simpa [hqp] using hq
      have hcp : c ≠ p := fun hcp => hp q k (hcp ▸ hq')
      simpa [hcp] using h.embryo hq'

theorem same (h : Apart role) (hh : r.hold = (role p).hold) (hf : r.forks = (role p).forks)
    (ha : ∀ v, r = .seeking v → UserAddr v)
    (hc : ∀ c k, r = .forking c k → ∃ k', role p = .forking c k') (hp : role p ≠ .embryo) :
    Apart (Function.update role p r) := by
  apply h.update ha
  · intro i o hr q hq o' hq'
    exact hq (h.single hq' (hh ▸ hr))
  · intro hr q hq
    cases hf' : (role q).forks with
    | false => rfl
    | true => exact (hq (h.sole hf' (hf ▸ hr))).elim
  · intro c k hr
    obtain ⟨k', hk⟩ := hc c k hr
    have he := h.embryo hk
    exact ⟨fun hcp => hp (hcp ▸ he), he⟩
  · exact h.not_forked hp

theorem holds (h : Apart role) (hr : r.hold = some (i, o))
    (hfree : ∀ q o, (role q).hold ≠ some (i, o)) (hp : role p ≠ .embryo) :
    Apart (Function.update role p r) := by
  apply h.update
  · intro v hv
    rw [hv] at hr
    cases hr
  · intro j o₁ hj q _ o'
    rw [hr] at hj
    cases hj
    exact hfree q o'
  · intro hf
    rw [Role.not_forks_of_hold hr] at hf
    cases hf
  · intro c k hk
    rw [hk] at hr
    cases hr
  · exact h.not_forked hp

theorem user (h : Apart role) (hp : ∀ q k, role q ≠ .forking p k) :
    Apart (Function.update role p .user) := by
  apply h.update
  · intro v hv
    cases hv
  · intro i o hi
    cases hi
  · intro hr
    cases hr
  · intro c k hk
    cases hk
  · exact hp

end Apart

namespace Table.Own
variable {t : Table}

theorem same (h : t.Own) (hh : r.hold = (t.role p).hold) (hf : r.forks = (t.role p).forks)
    (ha : ∀ v, r = .seeking v → UserAddr v)
    (hc : ∀ c k, r = .forking c k → ∃ k', t.role p = .forking c k') (hp : t.role p ≠ .embryo) :
    Own { t with role := Function.update t.role p r } := by
  refine ⟨fun i => ?_, h.apart.same hh hf ha hc hp, fun hs q => ?_⟩
  · apply (h.fits i).roles
    · intro q o
      rw [hold_update hh]
    · exact forks_update hf _
  · rw [forks_update hf]
    exact h.sem hs q

theorem holds (h : t.Own) (hc : (t.role t.cur).hold = none) (hf : (t.role t.cur).forks = false)
    (hp : t.role t.cur ≠ .embryo) (hi : i < t.n) (he : (t.entries i).Idle)
    (hr : r.hold = some (i, o)) (hheld : e.Held) (hkey : e.KeyOf t.cur o) (hpid : e.pid = t.cur) :
    Own ({ t with entries := Function.update t.entries i e }.play r) := by
  have hfree := (h.fits i).not_held_of_io he.1
  have hrf := Role.not_forks_of_hold hr
  refine ⟨Fits.set ?_ ?_, h.apart.holds hr hfree hp, ?_⟩
  · constructor
    · intro q o' hq
      by_cases hqc : q = t.cur
      · subst hqc
        simp only [play, Function.update_self, hr] at hq
        cases hq
        exact ⟨hi, hheld, hkey⟩
      · simp only [play, Function.update_of_ne hqc] at hq
        exact (hfree q o' hq).elim
    · intro _
      exact ⟨t.cur, o, by simpa [play] using hr⟩
    · intro hv
      rw [hheld.1] at hv
      cases hv
    · intro _
      exact hheld.2.2
    · intro hs
      rw [hheld.2.2.1] at hs
      cases hs
    · intro hfc
      simp [play, hpid, hrf] at hfc
    · intro hg
      exact (he.2.2.2 ((h.fits i).granted hg).2.1).elim
  · intro j hj
    apply (h.fits j).update
    · simp [hc]
    · intro o'
      simp [hr, Ne.symm hj]
    · exact hrf.trans hf.symm
  · intro hs q
    simp only [play]
    rw [forks_update (hrf.trans hf.symm)]
    exact h.sem hs q

theorem drops {C : Nat → Int} (h : t.Own) (hr : (t.role t.cur).hold = some (i, o))
    (hio : e.ctrl.io = false) (hsw : e.ctrl.swap = false) (hv : e.ctrl.validity = true)
    (hk : e.page = kmallocPage → e.ctrl.tlb = false) (hu : e.user = true → e.pid = t.cur)
    (hg : C i = 1 → KernelFrame e) (hC : ∀ j ≠ i, C j = t.contiguous j) :
    Own ({ t with entries := Function.update t.entries i e, contiguous := C }.play .user) := by
  have hf : Role.user.forks = (t.role t.cur).forks := (Role.not_forks_of_hold hr).symm
  have hi := ((h.fits i).held hr).1
  have hp : t.role t.cur ≠ .embryo := by
    intro he
    rw [he] at hr
    cases hr
  refine ⟨Fits.set ?_ ?_, h.apart.user (h.apart.not_forked hp), ?_⟩
  · constructor
    · intro q o' hq
      by_cases hqc : q = t.cur
      · subst hqc
        simp [play, Role.hold] at hq
      · simp only [play, Function.update_of_ne hqc] at hq
        exact (hqc (h.apart.single hq hr)).elim
    · intro he
      rw [hio] at he
      cases he
    · intro he
      rw [hv] at he
      cases he
    · intro he
      exact ⟨hsw, hk he⟩
    · intro hs
      rw [hsw] at hs
      cases hs
    · intro hfc _ hue
      simp [play, hu hue, Role.forks] at hfc
    · intro hgi
      exact ⟨hi, hg hgi⟩
  · intro j hj
    simp only [play, hC j hj]
    apply (h.fits j).update
    · intro o'
      rw [hr]
      simp [Ne.symm hj]
    · simp [Role.hold]
    · exact hf
  · intro hs q
    simp only [play]
    rw [forks_update hf]
    exact h.sem hs q

theorem set {C : Nat → Int} (h : t.Own) (hfree : ∀ q o, (t.role q).hold ≠ some (i, o))
    (hio : e.ctrl.io = false) (hsw : e.ctrl.swap = false)
    (ht : e.user = true ∨ e.ctrl.tlb = false)
    (hf : i < t.n → e.user = true → (t.role e.pid).forks = false)
    (hg : C i = 1 → i < t.n ∧ KernelFrame e) (hC : ∀ j ≠ i, C j = t.contiguous j) :
    Own { t with entries := Function.update t.entries i e, contiguous := C } := by
  have htlb : e.user = false → e.ctrl.tlb = false := by
    intro hu
    rcases ht with ht | ht
    · rw [hu] at ht
      cases ht
    · exact ht
  refine ⟨Fits.set ?_ ?_, h.apart, h.sem⟩
  · constructor
    · intro q o hq
      exact (hfree q o hq).elim
    · intro he
      rw [hio] at he
      cases he
    · intro hv
      exact ⟨hio, hsw, htlb (by simp [PtEntry.user, hv])⟩
    · intro hk
      exact ⟨hsw, htlb (by simp [PtEntry.user, hk])⟩
    · intro hs
      rw [hsw] at hs
      cases hs
    · intro hfc hi hu
      rw [hf hi hu] at hfc
      cases hfc
    · exact hg
  · intro j hj
    simp only [hC j hj]
    exact h.fits j

theorem not_held_of_user (h : t.Own) (hu : (t.entries i).user = true)
    (hp : (t.role (t.entries i).pid).hold = none) (q : Nat) (o : Option Nat) :
    (t.role q).hold ≠ some (i, o) := by
  intro hq
  have hk := ((h.fits i).held hq).2.2
  cases o with
  | none => exact (PtEntry.user_iff.1 hu).2 hk
  | some v =>
    rw [hk.2.2, hq] at hp
    cases hp

theorem user_of_swap (h : t.Own) (hs : (t.entries i).ctrl.swap = true) :
    (t.entries i).user = true := by
  rw [PtEntry.user_iff]
  constructor
  · cases hv : (t.entries i).ctrl.validity with
    | true => rfl
    | false =>
      rw [((h.fits i).clean hv).2.1] at hs
      cases hs
  · intro hk
    rw [((h.fits i).kernel hk).1] at hs
    cases hs

theorem prepare (h : t.Own) (hr : t.role t.cur = .user) (hs : t.sem = true)
    (hc : t.role child = .embryo) :
    Own ({ t with entries := marked t.n t.entries t.cur true, sem := false }.play
      (.forking child 0)) := by
  have hcur : child ≠ t.cur := by
    rintro rfl
    rw [hr] at hc
    cases hc
  have hcf : (t.role t.cur).forks = false := h.sem hs t.cur
  refine ⟨fun i => ?_, ?_, fun hs' => by cases hs'⟩
  · have hold : ∀ q, (Function.update t.role t.cur (.forking child 0) q).hold = (t.role q).hold :=
      hold_update (by rw [hr]; rfl)
    by_cases hm : i < t.n ∧ (t.entries i).pid = t.cur ∧ (t.entries i).user = true
    · have hfree := h.not_held_of_user hm.2.2 (by rw [hm.2.1, hr]; rfl)
      simp only [play, marked, if_pos hm]
      exact (h.fits i).mark hm.1 hm.2.2 hfree hold (by simp [hm.2.1, Role.forks])
    · simp only [play, marked, if_neg hm]
      by_cases hp : (t.entries i).pid = t.cur
      · constructor
        · intro q o hq
          rw [hold] at hq
          exact (h.fits i).held hq
        · intro hio
          simp only [hold]
          exact (h.fits i).io hio
        · exact (h.fits i).clean
        · exact (h.fits i).kernel
        · intro hsw
          have := ((h.fits i).swap hsw).2
          rw [hp, hcf] at this
          cases this
        · intro _ hi hu
          exact (hm ⟨hi, hp, hu⟩).elim
        · exact (h.fits i).granted
      · apply (h.fits i).roles
        · intro q o
          rw [hold]
        · simp [hp]
  · apply h.apart.update
    · intro v hv
      cases hv
    · intro i o hi
      cases hi
    · intro _ q _
      exact h.sem hs q
    · intro c k hk
      cases hk
      exact ⟨hcur, hc⟩
    · apply h.apart.not_forked
      rw [hr]
      exact nofun

theorem finish (h : t.Own) (hr : t.role t.cur = .forking child k) :
    Own ({ t with
      entries := marked t.n t.entries t.cur false
      role := Function.update t.role child .user
      sem := true }.play .user) := by
  have hc := h.apart.embryo hr
  have hcur : child ≠ t.cur := by
    rintro rfl
    rw [hr] at hc
    cases hc
  have hcf : (t.role t.cur).forks = true := by rw [hr]; rfl
  have hforks : ∀ q, (Function.update (Function.update t.role child .user) t.cur .user q).forks =
      false := by
    intro q
    by_cases hq : q = t.cur
    · simp [hq, Role.forks]
    · by_cases hqc : q = child
      · simp [hqc, hcur, Role.forks]
      · simp only [Function.update_of_ne hq, Function.update_of_ne hqc]
        cases hf : (t.role q).forks with
        | false => rfl
        | true => exact (hq (h.apart.sole hf hcf)).elim
  have hold : ∀ q, (Function.update (Function.update t.role child .user) t.cur .user q).hold =
      (t.role q).hold := by
    intro q
    rw [hold_update, hold_update]
    · rw [hc]
      rfl
    · rw [Function.update_of_ne (Ne.symm hcur), hr]
      rfl
  refine ⟨fun i => ?_, ?_, fun _ => hforks⟩
  · by_cases hm : i < t.n ∧ (t.entries i).pid = t.cur ∧ (t.entries i).user = true
    · have hfree := h.not_held_of_user hm.2.2 (by rw [hm.2.1, hr]; rfl)
      simp only [play, marked, if_pos hm]
      exact (h.fits i).mark hm.1 hm.2.2 hfree hold (hforks _)
    · simp only [play, marked, if_neg hm]
      constructor
      · intro q o hq
        rw [hold] at hq
        exact (h.fits i).held hq
      · intro hio
        simp only [hold]
        exact (h.fits i).io hio
      · exact (h.fits i).clean
      · exact (h.fits i).kernel
      · intro hs
        obtain ⟨hi, hf⟩ := (h.fits i).swap hs
        exact (hm ⟨hi, h.apart.sole hf hcf, h.user_of_swap hs⟩).elim
      · intro hf
        rw [hforks] at hf
        cases hf
      · exact (h.fits i).granted
  · simp only [play]
    rw [Function.update_comm hcur]
    apply Apart.user
    · apply h.apart.user
      apply h.apart.not_forked
      rw [hr]
      exact nofun
    · intro q k' hq
      by_cases hqt : q = t.cur
      · rw [hqt, Function.update_self] at hq
        cases hq
      · rw [Function.update_of_ne hqt] at hq
        exact hqt (h.apart.sole (by rw [hq]; rfl) hcf)

end Table.Own

end Clape
