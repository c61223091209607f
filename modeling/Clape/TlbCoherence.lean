import Clape.FrameSteps

namespace Clape
set_option autoImplicit true

/-- The roles of a process whose pages in memory the TLB may hold. -/
def Role.active : Role → Bool
  | .user | .seeking _ | .claimed _ _ | .loading _ _ | .evicting _ | .forking _ _ => true
  | _ => false

/-- Slot entry `x` translates a page of process `p` as the page table does. -/
def Backed (n : Nat) (E : Nat → PtEntry) (p : Nat) (x : TlbEntry) : Prop :=
  Key n E x.frame x.vpage p ∧ (E x.frame).ctrl.tlb = true

/-- The TLB against the page table. All slots are of the process `previousPid`; while it is
active (`act`) every slot is backed, and the slots a dead process leaves behind are for pages
that are in no frame. -/
structure Coherent (n : Nat) (E : Nat → PtEntry) (m : Mmu) (act : Prop) : Prop where
  victim : m.nextVictim < numTlb
  addr : k < numTlb → m.slots k = some x → x.vpage ≠ kmallocPage
  slot : (E i).ctrl.tlb = true →
    ∃ k < numTlb, ∃ x, m.slots k = some x ∧ x.frame = i ∧ Key n E i x.vpage m.previousPid
  distinct : k < numTlb → k' < numTlb → m.slots k = some x → m.slots k' = some x' →
    x.vpage = x'.vpage → k = k'
  entry : k < numTlb → m.slots k = some x →
    Backed n E m.previousPid x ∨ ∀ i, ¬ Key n E i x.vpage m.previousPid
  strict : act → k < numTlb → m.slots k = some x → Backed n E m.previousPid x

structure Table.Cached (t : Table) : Prop where
  coherent : Coherent t.n t.entries t.mmu
    (t.hasAs t.mmu.previousPid = true ∧ (t.role t.mmu.previousPid).active = true)
  embryo : t.role q = .embryo → q ≠ t.mmu.previousPid
  current : t.hasAs t.cur = true → t.mmu.previousPid = t.cur

theorem tlb_marked {E : Nat → PtEntry} (p : Nat) (b : Bool) (i : Nat) :
    (marked n E p b i).ctrl.tlb = (E i).ctrl.tlb := by
  unfold marked
  split <;> rfl

theorem previousPid_inserted (h : Inserted n E m p x E' m') : m'.previousPid = m.previousPid := by
  cases h <;> rfl

namespace Coherent

theorem mono (h : Coherent n E m act) (ha : act' → act) : Coherent n E m act' :=
  ⟨h.victim, h.addr, h.slot, h.distinct, h.entry, fun hact => h.strict (ha hact)⟩

theorem congr (h : Coherent n E m act) (hE : ∀ i, SameKey (E i) (E' i))
    (ht : ∀ i, (E' i).ctrl.tlb = (E i).ctrl.tlb) : Coherent n E' m act := by
  have hback : ∀ x, Backed n E m.previousPid x → Backed n E' m.previousPid x := by
    intro x hx
    exact ⟨(key_congr hE).2 hx.1, (ht _).trans hx.2⟩
  constructor
  · exact h.victim
  · exact h.addr
  · intro i hi
    obtain ⟨k, hk, x, hx, hf, hkey⟩ := h.slot ((ht i).symm.trans hi)
    exact ⟨k, hk, x, hx, hf, (key_congr hE).2 hkey⟩
  · exact h.distinct
  · intro k x hk hx
    rcases h.entry hk hx with hb | hn
    · exact .inl (hback x hb)
    · exact .inr fun i hi => hn i ((key_congr hE).1 hi)
  · intro k x hact hk hx
    exact hback x (h.strict hact hk hx)

/-- An entry that is not in the TLB changes; it may become a page of `previousPid` only if
that process is active. -/
theorem set (h : Coherent n E m act) (ht : (E i).ctrl.tlb = false) (he : e.ctrl.tlb = false)
    (hp : e.user = true → e.pid = m.previousPid → act) :
    Coherent n (Function.update E i e) m act := by
  have hne : ∀ j, (E j).ctrl.tlb = true → j ≠ i := by
    rintro j hj rfl
    rw [ht] at hj
    cases hj
  have hback : ∀ x, Backed n E m.previousPid x →
      Backed n (Function.update E i e) m.previousPid x := by
    intro x hx
    have hxi := hne _ hx.2
    exact ⟨key_set.2 (.inr ⟨hxi, hx.1⟩), by rw [Function.update_of_ne hxi, hx.2]⟩
  constructor
  · exact h.victim
  · exact h.addr
  · intro j hj
    have hji : j ≠ i := by
      rintro rfl
      rw [Function.update_self, he] at hj
      cases hj
    rw [Function.update_of_ne hji] at hj
    obtain ⟨k, hk, x, hx, hf, hkey⟩ := h.slot hj
    exact ⟨k, hk, x, hx, hf, key_set.2 (.inr ⟨hji, hkey⟩)⟩
  · exact h.distinct
  · intro k x hk hx
    rcases h.entry hk hx with hb | hn
    · exact .inl (hback x hb)
    · by_cases hact : act
      · exact .inl (hback x (h.strict hact hk hx))
      · apply Or.inr
        intro j hj
        rcases key_set.1 hj with ⟨-, -, hu, -, hpid⟩ | ⟨-, hj⟩
        · exact hact (hp hu hpid)
        · exact hn j hj
  · intro k x hact hk hx
    exact hback x (h.strict hact hk hx)

/-- `free_pages` takes a page of a process that is no longer active. -/
theorem release (h : Coherent n E m act) (hu : ∀ {i j v p}, Key n E i v p → Key n E j v p → i = j)
    (hact : (E i).pid = m.previousPid → ¬ act) :
    Coherent n (Function.update E i ⟨0, 0, .zero⟩) m act := by
  have hkey : ∀ j v p, Key n (Function.update E i ⟨0, 0, .zero⟩) j v p ↔ j ≠ i ∧ Key n E j v p := by
    intro j v p
    rw [key_set]
    simp [PtEntry.user, Ctrl.zero]
  have hback : ∀ x, Backed n E m.previousPid x → x.frame ≠ i →
      Backed n (Function.update E i ⟨0, 0, .zero⟩) m.previousPid x := by
    intro x hx hxi
    exact ⟨(hkey _ _ _).2 ⟨hxi, hx.1⟩, by rw [Function.update_of_ne hxi, hx.2]⟩
  constructor
  · exact h.victim
  · exact h.addr
  · intro j hj
    have hji : j ≠ i := by
      rintro rfl
      rw [Function.update_self] at hj
      cases hj
    rw [Function.update_of_ne hji] at hj
    obtain ⟨k, hk, x, hx, hf, hkj⟩ := h.slot hj
    exact ⟨k, hk, x, hx, hf, (hkey _ _ _).2 ⟨hji, hkj⟩⟩
  · exact h.distinct
  · intro k x hk hx
    rcases h.entry hk hx with hb | hn
    · by_cases hxi : x.frame = i
      · apply Or.inr
        intro j hj
        obtain ⟨hji, hj⟩ := (hkey _ _ _).1 hj
        exact hji ((hu hj hb.1).trans hxi)
      · exact .inl (hback x hb hxi)
    · exact .inr fun j hj => hn j ((hkey _ _ _).1 hj).2
  · intro k x ha hk hx
    have hb := h.strict ha hk hx
    apply hback x hb
    rintro rfl
    exact hact hb.1.2.2.2 ha

theorem invalidate (h : Coherent n E m act)
    (hu : ∀ {i j v p}, Key n E i v p → Key n E j v p → i = j) (hk : k < numTlb)
    (hx : m.slots k = some x) (hc : TlbCleared n E x.vpage m.previousPid E') :
    Coherent n E' (m.write k none) act := by
  -- an entry that keeps its bit is not the one of this slot
  have hbit : ∀ i, (E' i).ctrl.tlb = true → (E i).ctrl.tlb = true ∧ ¬ Key n E i x.vpage m.previousPid := by
    intro i hi
    rcases hc with ⟨rfl, hn⟩ | ⟨j, hj, hpid, hpg, hv, hval, -, rfl⟩
    · exact ⟨hi, fun hk => hn i hk.1 (PtEntry.user_iff.1 hk.2.1).1 hk.2.2.1 hk.2.2.2⟩
    · by_cases hij : i = j
      · subst hij
        rw [Function.update_self] at hi
        cases hi
      · rw [Function.update_of_ne hij] at hi
        refine ⟨hi, fun hk => hij (hu hk ⟨hj, ?_, hpg, hpid⟩)⟩
        exact PtEntry.user_iff.2 ⟨hval, hpg ▸ hv⟩
  have hkeep : ∀ i, (E i).ctrl.tlb = true → ¬ Key n E i x.vpage m.previousPid →
      (E' i).ctrl.tlb = true := by
    intro i hi hn
    rcases hc with ⟨rfl, -⟩ | ⟨j, hj, hpid, hpg, hv, hval, -, rfl⟩
    · exact hi
    · rw [Function.update_of_ne, hi]
      rintro rfl
      exact hn ⟨hj, PtEntry.user_iff.2 ⟨hval, hpg ▸ hv⟩, hpg, hpid⟩
  have hback : ∀ k' < numTlb, k' ≠ k → ∀ y, m.slots k' = some y → Backed n E m.previousPid y →
      Backed n E' m.previousPid y := by
    intro k' hk' hne y hy hb
    refine ⟨(key_congr (sameKey_cleared hc)).2 hb.1, hkeep _ hb.2 fun hyx => hne ?_⟩
    exact h.distinct hk' hk hy hx (hb.1.2.2.1.symm.trans hyx.2.2.1)
  have hslot : ∀ k' y, (m.write k none).slots k' = some y → k' ≠ k ∧ m.slots k' = some y := by
    intro k' y hy
    by_cases hne : k' = k
    · subst hne
      simp [Mmu.write] at hy
    · simpa [Mmu.write, hne] using hy
  constructor
  · exact h.victim
  · intro k' y hk' hy
    exact h.addr hk' (hslot k' y hy).2
  · intro i hi
    obtain ⟨hi', hn⟩ := hbit i hi
    obtain ⟨k', hk', y, hy, hf, hkey⟩ := h.slot hi'
    refine ⟨k', hk', y, ?_, hf, (key_congr (sameKey_cleared hc)).2 hkey⟩
    have hne : k' ≠ k := by
      rintro rfl
      rw [hx] at hy
      cases hy
      exact hn hkey
    simpa [Mmu.write, hne] using hy
  · intro k₁ k₂ y₁ y₂ h₁ h₂ hy₁ hy₂
    exact h.distinct h₁ h₂ (hslot _ _ hy₁).2 (hslot _ _ hy₂).2
  · intro k' y hk' hy
    obtain ⟨hne, hy⟩ := hslot k' y hy
    rcases h.entry hk' hy with hb | hn
    · exact .inl (hback k' hk' hne y hy hb)
    · exact .inr fun i hi => hn i ((key_congr (sameKey_cleared hc)).1 hi)
  · intro k' y hact hk' hy
    obtain ⟨hne, hy⟩ := hslot k' y hy
    exact hback k' hk' hne y hy (h.strict hact hk' hy)

theorem insert (h : Coherent n E m act) (hk : k < numTlb) (hx : m.slots k = none)
    (hkey : Key n E x.frame x.vpage m.previousPid) (he : SameKey (E x.frame) e)
    (ht : e.ctrl.tlb = true)
    (hmiss : ∀ k < numTlb, ∀ y, m.slots k = some y → y.vpage ≠ x.vpage) :
    Coherent n (Function.update E x.frame e) (m.write k (some x)) act := by
  have hkc : ∀ i v p, Key n (Function.update E x.frame e) i v p ↔ Key n E i v p :=
    fun i v p => key_congr (sameKey_set he)
  have hback : ∀ y, Backed n E m.previousPid y →
      Backed n (Function.update E x.frame e) m.previousPid y := by
    intro y hy
    refine ⟨(hkc _ _ _).2 hy.1, ?_⟩
    by_cases hf : y.frame = x.frame
    · rw [hf, Function.update_self, ht]
    · rw [Function.update_of_ne hf, hy.2]
  have hnew : Backed n (Function.update E x.frame e) m.previousPid x :=
    ⟨(hkc _ _ _).2 hkey, by rw [Function.update_self, ht]⟩
  have hslot : ∀ k' y, (m.write k (some x)).slots k' = some y →
      k' = k ∧ y = x ∨ k' ≠ k ∧ m.slots k' = some y := by
    intro k' y hy
    by_cases hne : k' = k
    · subst hne
      simp only [Mmu.write, Function.update_self, Option.some.injEq] at hy
      exact .inl ⟨rfl, hy.symm⟩
    · exact .inr ⟨hne, by simpa [Mmu.write, hne] using hy⟩
  constructor
  · exact h.victim
  · intro k' y hk' hy
    rcases hslot k' y hy with ⟨-, rfl⟩ | ⟨-, hy⟩
    · have := (PtEntry.user_iff.1 hkey.2.1).2
      rwa [hkey.2.2.1] at this
    · exact h.addr hk' hy
  · intro i hi
    by_cases hf : i = x.frame
    · subst hf
      exact ⟨k, hk, x, Function.update_self .., rfl, hnew.1⟩
    · rw [Function.update_of_ne hf] at hi
      obtain ⟨k', hk', y, hy, hyf, hkey'⟩ := h.slot hi
      have hne : k' ≠ k := by
        rintro rfl
        rw [hx] at hy
        cases hy
      exact ⟨k', hk', y, by simpa [Mmu.write, hne] using hy, hyf, (hkc _ _ _).2 hkey'⟩
  · intro k₁ k₂ y₁ y₂ h₁ h₂ hy₁ hy₂ hv
    rcases hslot k₁ y₁ hy₁ with ⟨rfl, rfl⟩ | ⟨-, hm₁⟩
    · rcases hslot k₂ y₂ hy₂ with ⟨rfl, -⟩ | ⟨-, hm₂⟩
      · rfl
      · exact (hmiss k₂ h₂ y₂ hm₂ hv.symm).elim
    · rcases hslot k₂ y₂ hy₂ with ⟨rfl, rfl⟩ | ⟨-, hm₂⟩
      · exact (hmiss k₁ h₁ y₁ hm₁ hv).elim
      · exact h.distinct h₁ h₂ hm₁ hm₂ hv
  · intro k' y hk' hy
    rcases hslot k' y hy with ⟨-, rfl⟩ | ⟨-, hy⟩
    · exact .inl hnew
    · rcases h.entry hk' hy with hb | hn
      · exact .inl (hback y hb)
      · exact .inr fun i hi => hn i ((hkc _ _ _).1 hi)
  · intro k' y hact hk' hy
    rcases hslot k' y hy with ⟨-, rfl⟩ | ⟨-, hy⟩
    · exact hnew
    · exact hback y (h.strict hact hk' hy)

theorem setVictim (h : Coherent n E m act) (hk : k < numTlb) :
    Coherent n E { m with nextVictim := k } act :=
  ⟨hk, h.addr, h.slot, h.distinct, h.entry, h.strict⟩

theorem inserted (h : Coherent n E m act)
    (hu : ∀ {i j v p}, Key n E i v p → Key n E j v p → i = j) (hact : act)
    (hkey : Key n E x.frame x.vpage m.previousPid) (he : SameKey (E x.frame) e)
    (ht : e.ctrl.tlb = true) (hmiss : ∀ k < numTlb, ∀ y, m.slots k = some y → y.vpage ≠ x.vpage)
    (hi : Inserted n (Function.update E x.frame e) m m.previousPid x E' m') :
    Coherent n E' m' act := by
  cases hi with
  | free hk hx => exact h.insert hk hx hkey he ht hmiss
  | beyond hk => exact absurd h.victim (Nat.not_lt.2 hk)
  | @replace y E' hy hc =>
    -- the page in the slot is another one: the two changes commute
    have hb := h.strict hact h.victim hy
    have hyx : y.frame ≠ x.frame := by
      intro hf
      have hky := hb.1
      rw [hf] at hky
      exact hmiss _ h.victim y hy (hky.2.2.1.symm.trans hkey.2.2.1)
    obtain ⟨hval, hk⟩ := PtEntry.user_iff.1 hb.1.2.1
    have hc' : TlbCleared n E y.vpage m.previousPid
        (Function.update E y.frame (((E y.frame).setTlb false).setReference true)) :=
      .inr ⟨y.frame, hb.1.1, hb.1.2.2.2, hb.1.2.2.1, hb.1.2.2.1 ▸ hk, hval, hb.2, rfl⟩
    have h₁ := h.invalidate hu h.victim hy hc'
    have hE' : E' = Function.update (Function.update E y.frame
        (((E y.frame).setTlb false).setReference true)) x.frame e := by
      rcases hc with ⟨-, hn⟩ | ⟨j, hj, hpid, hpg, hv, hval', -, rfl⟩
      · refine (hn y.frame hb.1.1 ?_ ?_ ?_).elim
        · rw [Function.update_of_ne hyx, hval]
        · rw [Function.update_of_ne hyx, hb.1.2.2.1]
        · rw [Function.update_of_ne hyx, hb.1.2.2.2]
      · have hkj : Key n (Function.update E x.frame e) j y.vpage m.previousPid :=
          ⟨hj, PtEntry.user_iff.2 ⟨hval', hpg ▸ hv⟩, hpg, hpid⟩
        rw [key_congr (sameKey_set he)] at hkj
        have hjy := hu hkj hb.1
        subst hjy
        rw [Function.update_of_ne hyx, Function.update_comm hyx]
    have hsame := sameKey_cleared hc'
    have h₂ := h₁.insert (k := m.nextVictim) (x := x) (e := e) h.victim (by simp [Mmu.write])
      ((key_congr hsame).2 hkey) (by rwa [Function.update_of_ne (Ne.symm hyx)]) ht (by
        intro k hk z hz
        by_cases hkv : k = m.nextVictim
        · subst hkv
          simp [Mmu.write] at hz
        · exact hmiss k hk z (by simpa [Mmu.write, hkv] using hz))
    rw [hE']
    have h₃ := h₂.setVictim (k := (m.nextVictim + 1) % numTlb) (Nat.mod_lt _ (by decide))
    simpa [Mmu.write] using h₃

end Coherent

namespace Table
variable {t t' : Table}

theorem Cached.act (h : t.Cached) (ha : t.hasAs t.cur = true)
    (hr : (t.role t.cur).active = true) :
    t.hasAs t.mmu.previousPid = true ∧ (t.role t.mmu.previousPid).active = true := by
  rw [h.current ha]
  exact ⟨ha, hr⟩

theorem Cached.update (h : t.Cached)
    (hr : p = t.mmu.previousPid → r.active = true → (t.role p).active = true)
    (he : r = .embryo → p ≠ t.mmu.previousPid) :
    Cached { t with role := Function.update t.role p r } := by
  refine ⟨h.coherent.mono fun hact => ⟨hact.1, ?_⟩, fun {q} hq => ?_, h.current⟩
  · have hact' := hact.2
    by_cases hp : t.mmu.previousPid = p
    · subst hp
      simp only [Function.update_self] at hact'
      exact hr rfl hact'
    · simpa only [Function.update_of_ne hp] using hact'
  · by_cases hqp : q = p
    · subst hqp
      exact he (by simpa using hq)
    · exact h.embryo (by simpa [hqp] using hq)

theorem Cached.congr (h : t.Cached) (hE : ∀ i, SameKey (t.entries i) (E i))
    (ht : ∀ i, (E i).ctrl.tlb = (t.entries i).ctrl.tlb) : Cached { t with entries := E } :=
  ⟨h.coherent.congr hE ht, h.embryo, h.current⟩

theorem Cached.set (h : t.Cached) (ht : (t.entries i).ctrl.tlb = false) (he : e.ctrl.tlb = false)
    (hp : e.user = true → e.pid = t.mmu.previousPid →
      t.hasAs t.mmu.previousPid = true ∧ (t.role t.mmu.previousPid).active = true) :
    Cached { t with entries := Function.update t.entries i e } :=
  ⟨h.coherent.set ht he hp, h.embryo, h.current⟩

theorem Cached.updateAs (h : t.Cached) (hp : b = true → p ≠ t.mmu.previousPid ∧ p ≠ t.cur) :
    Cached { t with hasAs := Function.update t.hasAs p b } := by
  refine ⟨h.coherent.mono fun hact => ⟨?_, hact.2⟩, h.embryo, fun ha => ?_⟩
  · have hact' := hact.1
    by_cases hpp : t.mmu.previousPid = p
    · subst hpp
      simp only [Function.update_self] at hact'
      exact ((hp hact').1 rfl).elim
    · simpa only [Function.update_of_ne hpp] using hact'
  · by_cases hpc : t.cur = p
    · subst hpc
      simp only [Function.update_self] at ha
      exact ((hp ha).2 rfl).elim
    · exact h.current (by simpa only [Function.update_of_ne hpc] using ha)

theorem Cached.inserted (hh : t.Hashed) (h : t.Cached) (ha : t.hasAs t.cur = true)
    (hr : (t.role t.cur).active = true) (hkey : Key t.n t.entries i v t.cur)
    (he : SameKey (t.entries i) e) (ht : e.ctrl.tlb = true)
    (hmiss : ∀ k < numTlb, ∀ y, t.mmu.slots k = some y → y.vpage ≠ v)
    (hi : Inserted t.n (Function.update t.entries i e) t.mmu t.cur ⟨v, i, d⟩ E m) :
    Cached { t with entries := E, mmu := m } := by
  have hprev := previousPid_inserted hi
  have hcur := h.current ha
  have hact := h.act ha hr
  rw [← hcur] at hkey hi
  have hc := h.coherent.inserted (x := ⟨v, i, d⟩) hh.peopled.unique hact hkey he ht hmiss hi
  refine ⟨?_, fun hq => ?_, fun ha' => hprev.trans (h.current ha')⟩
  · simp only [hprev]
    exact hc
  · simp only [hprev]
    exact h.embryo hq

theorem Cached.step (ho : t.Own) (hh : t.Hashed) (h : t.Cached) (hm : TableMove True t t') :
    t'.Cached := by
  cases hm with
  | @refs E hE =>
    refine h.congr (fun i => (hE i).sameKey) fun i => ?_
    obtain ⟨b, hb⟩ := hE i
    rw [hb]
    rfl
  | seek hr _ _ _ => exact h.update (fun _ _ => by rw [hr]; rfl) (by simp)
  | @claim v i hr hi he hv =>
    have hs : t.hasAs t.cur = true := hh.peopled.space (by rw [hr]; rfl)
    have h₁ := h.set (i := i) (e := (t.entries i).claim v t.cur) he.2.2.1 he.2.2.1
      (fun _ _ => h.act hs (by rw [hr]; rfl))
    exact h₁.update (fun _ _ => by simp only [hr]; rfl) (by simp)
  | @evict v i ht hr hi he hu _ =>
    have hs : t.hasAs t.cur = true := hh.peopled.space (by rw [hr]; rfl)
    have h₁ := h.set (i := i) (e := (t.entries i).claim v t.cur) he.2.2.1 he.2.2.1
      (fun _ _ => h.act hs (by rw [hr]; rfl))
    have h₂ := h₁.update (p := t.cur) (r := .claimed v i) (fun _ _ => by simp only [hr]; rfl) (by simp)
    exact ⟨h₂.coherent, h₂.embryo, h₂.current⟩
  | @hash v i ht hr _ =>
    have h₁ := h.update (p := t.cur) (r := .loading v i) (fun _ _ => by rw [hr]; rfl) (by simp)
    exact ⟨h₁.coherent, h₁.embryo, h₁.current⟩
  | @load v i d E m hr ha hins =>
    obtain ⟨hi, ⟨hval, -, -, htlb⟩, hv, hpg, hpid⟩ :=
      (ho.fits i).held (q := t.cur) (o := some v) (by rw [hr]; rfl)
    have hkey : Key t.n t.entries i v t.cur :=
      ⟨hi, PtEntry.user_iff.2 ⟨hval, hpg ▸ hv.ne_kmallocPage⟩, hpg, hpid⟩
    have hmiss : ∀ k < numTlb, ∀ y, t.mmu.slots k = some y → y.vpage ≠ v := by
      intro k hk y hy hyv
      obtain ⟨hky, hty⟩ := h.coherent.strict (h.act ha (by rw [hr]; rfl)) hk hy
      rw [hyv, h.current ha] at hky
      rw [hh.peopled.unique hky hkey, htlb] at hty
      cases hty
    have h₁ := h.inserted hh ha (by rw [hr]; rfl) hkey
      (e := ((t.entries i).setIo false).setTlb true) ⟨rfl, fun _ => ⟨rfl, rfl⟩⟩ rfl hmiss hins
    exact h₁.update (fun _ _ => by simp only [hr]; rfl) (by simp)
  | @hit v i d E m hr ha hv hmiss hl hio hins =>
    exact h.inserted hh ha (by rw [hr]; rfl) (hh.indexed.lookup_some hl).1
      (e := (t.entries i).setTlb true) ⟨rfl, fun _ => ⟨rfl, rfl⟩⟩ rfl hmiss hins
  | @take i hr hi he hv =>
    have h₁ := h.set (i := i) (e := (t.entries i).kmalloc t.cur false) he.2.2.1 he.2.2.1
      (fun hu => ((PtEntry.user_iff.1 hu).2 rfl).elim)
    exact ⟨h₁.coherent, h₁.embryo, h₁.current⟩
  | @steal i ht hr hi he hu _ =>
    have h₁ := h.set (i := i) (e := (t.entries i).kmalloc t.cur true) he.2.2.1 he.2.2.1
      (fun hu => ((PtEntry.user_iff.1 hu).2 rfl).elim)
    have h₂ := h₁.update (p := t.cur) (r := .evicting i) (fun _ _ => by simp only [hr]; rfl) (by simp)
    exact ⟨h₂.coherent, h₂.embryo, h₂.current⟩
  | @grant i hr =>
    have h₁ := h.congr (sameKey_set (i := i) (e := (t.entries i).setIo false)
      ⟨rfl, fun _ => ⟨rfl, rfl⟩⟩) (by
        intro j
        by_cases hj : j = i
        · subst hj
          rw [Function.update_self]
          rfl
        · rw [Function.update_of_ne hj])
    have h₂ := h₁.update (p := t.cur) (r := .user) (fun _ _ => by simp only [hr]; rfl) (by simp)
    exact ⟨h₂.coherent, h₂.embryo, h₂.current⟩
  | @free i hc =>
    obtain ⟨-, -, -, -, htlb, -⟩ := (ho.fits i).granted hc
    have h₁ := h.set (i := i) (e := { t.entries i with
        page := 0, ctrl := { (t.entries i).ctrl with validity := false } }) htlb htlb
      (fun hu => by cases (PtEntry.user_iff.1 hu).1)
    exact ⟨h₁.coherent, h₁.embryo, h₁.current⟩
  | leave hr => exact h.update (fun _ => by simp [Role.active]) (by simp)
  | @release i ht hr hi hpid hu _ =>
    refine ⟨h.coherent.release hh.peopled.unique ?_, h.embryo, h.current⟩
    intro hp hact
    have := hact.2
    rw [← hp, hpid, hr] at this
    cases this
  | left hr _ => exact h.update (fun _ => by simp [Role.active]) (by simp)
  | die hr => exact h.update (fun _ => by simp [Role.active]) (by simp)
  | @fork child hr ha hs hc _ =>
    have hcur : child ≠ t.cur := by
      rintro rfl
      rw [hr] at hc
      cases hc
    have hprev : child ≠ t.mmu.previousPid := by rwa [h.current ha]
    have h₁ := h.update (p := child) (r := .embryo) (fun _ => by simp [Role.active]) (fun _ => hprev)
    have h₂ := h₁.updateAs (p := child) (b := true) (fun _ => ⟨hprev, hcur⟩)
    have hr₂ : Function.update t.role child .embryo t.cur = .user := by
      rw [Function.update_of_ne (Ne.symm hcur), hr]
    have hmark : ∀ i, SameKey (t.entries i) (marked t.n t.entries t.cur true i) :=
      sameKey_marked t.cur true
    have h₃ := (h₂.congr hmark (tlb_marked t.cur true)).update (p := t.cur) (r := .forking child 0)
      (fun _ _ => by simp only [hr₂]; rfl) (by simp)
    exact ⟨h₃.coherent, h₃.embryo, h₃.current⟩
  | skip hr => exact h.update (fun _ _ => by rw [hr]; rfl) (by simp)
  | @copy child i j ht hr hi hpid hu hj hsp _ =>
    have hv : (t.entries j).ctrl.validity = false := by
      simp only [PtEntry.isSpace, Bool.and_eq_true, Bool.not_eq_true'] at hsp
      exact hsp.1.1.1
    have htlb := ((ho.fits j).clean hv).2.2
    have h₁ := h.set (i := j) (e := (t.entries j).copyOf (t.entries i) child) htlb htlb
      (fun _ hp => (h.embryo (ho.apart.embryo hr) hp).elim)
    have h₂ := h₁.update (p := t.cur) (r := .forking child (i + 1))
      (fun _ _ => by simp only [hr]; rfl) (by simp)
    exact ⟨h₂.coherent, h₂.embryo, h₂.current⟩
  | @unfork child i hr =>
    have hc := ho.apart.embryo hr
    have hcur : child ≠ t.cur := by
      rintro rfl
      rw [hr] at hc
      cases hc
    have h₁ := h.update (p := child) (r := .user) (fun hp => (h.embryo hc hp).elim) (by simp)
    have hr₁ : Function.update t.role child .user t.cur = .forking child i := by
      rw [Function.update_of_ne (Ne.symm hcur), hr]
    have hmark : ∀ i, SameKey (t.entries i) (marked t.n t.entries t.cur false i) :=
      sameKey_marked t.cur false
    have h₂ := (h₁.congr hmark (tlb_marked t.cur false)).update (p := t.cur) (r := .user)
      (fun _ _ => by simp only [hr₁]; rfl) (by simp)
    exact ⟨h₂.coherent, h₂.embryo, h₂.current⟩
  | @spawn q hr hq _ =>
    have h₁ := h.updateAs (p := q) (b := false) (by simp)
    refine ⟨?_, ?_, h₁.current⟩
    · refine h₁.coherent.mono fun hact => ⟨hact.1, ?_⟩
      by_cases hp : t.mmu.previousPid = q
      · subst hp
        simp at hact
      · simpa [hp] using hact.2
    · intro p hp
      by_cases hpq : p = q
      · subst hpq
        simp at hp
      · exact h.embryo (by simpa [hpq] using hp)
  | exec hr _ hprev hempty =>
    have hno := hempty trivial
    refine ⟨⟨h.coherent.victim, h.coherent.addr, h.coherent.slot, h.coherent.distinct,
      h.coherent.entry, ?_⟩, h.embryo, fun _ => hprev⟩
    intro k x _ hk hx
    rw [hno k hk] at hx
    cases hx
  | @reap q hr hq =>
    have h₁ := h.update (p := q) (r := .absent) (fun _ => by simp [Role.active]) (by simp)
    exact h₁.updateAs (by simp)
  | invalidate hk hx hc =>
    exact ⟨h.coherent.invalidate hh.peopled.unique hk hx hc, h.embryo, h.current⟩
  | @turn q hq hempty =>
    refine ⟨⟨h.coherent.victim, h.coherent.addr, ?_, h.coherent.distinct, ?_, ?_⟩, ?_, fun _ => rfl⟩
    · intro i hi
      obtain ⟨k, hk, x, hx, -⟩ := h.coherent.slot hi
      rw [hempty k hk] at hx
      cases hx
    · intro k x hk hx
      have hx' : t.mmu.slots k = some x := hx
      rw [hempty k hk] at hx'
      cases hx'
    · intro k x _ hk hx
      have hx' : t.mmu.slots k = some x := hx
      rw [hempty k hk] at hx'
      cases hx'
    · rintro p hp rfl
      exact hq hp
  | dispatch hd => exact ⟨h.coherent, h.embryo, hd⟩

end Table

end Clape
