import Clape.FrameHash

namespace Clape
set_option autoImplicit true

namespace Fits

theorem cleared {E : Nat → PtEntry} {G : Nat → Prop} (h : ∀ i, Fits n role (G i) i (E i))
    (hc : TlbCleared n E v p E') (i : Nat) : Fits n role (G i) i (E' i) := by
  rcases hc with ⟨rfl, -⟩ | ⟨j, -, -, -, -, -, -, rfl⟩
  · exact h i
  · by_cases hi : i = j
    · subst hi
      rw [Function.update_self]
      exact (h i).bits rfl rfl rfl rfl rfl (fun ht => by cases ht)
    · rw [Function.update_of_ne hi]
      exact h i

theorem inserted {E : Nat → PtEntry} {G : Nat → Prop} (h : ∀ i, Fits n role (G i) i (E i))
    (hi : Inserted n E m p x E' m') (i : Nat) : Fits n role (G i) i (E' i) := by
  cases hi with
  | free _ _ => exact h i
  | replace _ hc => exact cleared h hc i
  | beyond _ => exact h i

end Fits

namespace Table
variable {t t' : Table}

/-- The frames stay apart, whatever happens to the page table. -/
theorem Own.step (h : t.Own) (hh : t.Hashed) (hm : TableMove F t t') : t'.Own := by
  cases hm with
  | refs hE => exact ⟨fun i => (h.fits i).sameButRef (hE i), h.apart, h.sem⟩
  | seek hr _ hv _ =>
    apply h.same
    · rw [hr]
      rfl
    · rw [hr]
      rfl
    · intro w hw
      cases hw
      exact hv
    · intro c k hk
      cases hk
    · rw [hr]
      simp
  | claim hr hi he _ =>
    apply h.holds (o := some _) (by rw [hr]; rfl) (by rw [hr]; rfl) (by rw [hr]; simp) hi he
      rfl
    · exact ⟨rfl, rfl, he.2.1, he.2.2.1⟩
    · exact ⟨h.apart.addr hr, rfl, rfl⟩
    · rfl
  | evict hr hi he _ _ =>
    have h' := h.holds (r := .claimed _ _) (o := some _) (by rw [hr]; rfl) (by rw [hr]; rfl)
      (by rw [hr]; simp) hi he rfl (e := (t.entries _).claim _ t.cur)
      ⟨rfl, rfl, he.2.1, he.2.2.1⟩ ⟨h.apart.addr hr, rfl, rfl⟩ rfl
    exact ⟨h'.fits, h'.apart, h'.sem⟩
  | @hash v i ht hr _ =>
    have h' := h.same (p := t.cur) (r := .loading v i) (by rw [hr]; rfl) (by rw [hr]; rfl)
      (by simp) (by simp) (by rw [hr]; simp)
    exact ⟨h'.fits, h'.apart, h'.sem⟩
  | @load v i d E m hr _ hins =>
    obtain ⟨-, ⟨hv, -, hsw, -⟩, ha, hpg, hpid⟩ :=
      (h.fits i).held (q := t.cur) (o := some v) (by rw [hr]; rfl)
    have h' := h.drops (C := t.contiguous) (e := ((t.entries i).setIo false).setTlb true)
      (i := i) (o := some v) (by rw [hr]; rfl) rfl hsw hv
      (fun hk => (ha.ne_kmallocPage (hpg.symm.trans hk)).elim) (fun _ => hpid)
      (fun hg => (ha.ne_kmallocPage (hpg.symm.trans ((h.fits i).granted hg).2.1)).elim)
      (fun _ _ => rfl)
    exact ⟨Fits.inserted h'.fits hins, h'.apart, h'.sem⟩
  | @hit v i d E m hr _ hv _ hl hio hins =>
    obtain ⟨⟨-, hu, -, -⟩, -⟩ := hh.indexed.lookup_some hl
    have hE : ∀ j, Fits t.n t.role (t.contiguous j = 1) j
        (Function.update t.entries i ((t.entries i).setTlb true) j) := by
      apply Fits.set
      · exact (h.fits i).bits rfl rfl rfl rfl rfl (fun _ => .inr ⟨hu, hio⟩)
      · intro j _
        exact h.fits j
    exact ⟨Fits.inserted hE hins, h.apart, h.sem⟩
  | @take i hr hi he hv =>
    apply h.set ((h.fits i).not_held_of_io he.1)
    · rfl
    · exact he.2.1
    · exact .inr he.2.2.1
    · intro _ hu
      exact ((PtEntry.user_iff.1 hu).2 rfl).elim
    · intro _
      exact ⟨hi, rfl, rfl, rfl, he.2.2.1, he.2.1⟩
    · intro j hj
      exact Function.update_of_ne hj _ _
  | steal hr hi he _ _ =>
    have h' := h.holds (r := .evicting _) (o := none) (by rw [hr]; rfl) (by rw [hr]; rfl)
      (by rw [hr]; simp) hi he rfl (e := (t.entries _).kmalloc t.cur true)
      ⟨rfl, rfl, he.2.1, he.2.2.1⟩ rfl rfl
    exact ⟨h'.fits, h'.apart, h'.sem⟩
  | @grant i hr =>
    obtain ⟨-, ⟨hv, -, hsw, htlb⟩, hk⟩ :=
      (h.fits i).held (q := t.cur) (o := none) (by rw [hr]; rfl)
    apply h.drops (i := i) (o := none)
    · rw [hr]
      rfl
    · rfl
    · exact hsw
    · exact hv
    · intro _
      exact htlb
    · intro hu
      exact ((PtEntry.user_iff.1 hu).2 hk).elim
    · intro _
      exact ⟨hk, hv, rfl, htlb, hsw⟩
    · intro j hj
      exact Function.update_of_ne hj _ _
  | @free i hc =>
    obtain ⟨-, -, -, hio, htlb, hsw⟩ := (h.fits i).granted hc
    apply h.set ((h.fits i).not_held_of_io hio)
    · exact hio
    · exact hsw
    · exact .inr htlb
    · intro _ hu
      cases (PtEntry.user_iff.1 hu).1
    · intro hg
      rw [Function.update_self] at hg
      cases hg
    · intro j hj
      exact Function.update_of_ne hj _ _
  | leave hr => exact h.same (by rw [hr]; rfl) (by rw [hr]; rfl) (by simp) (by simp) (by rw [hr]; simp)
  | @release i ht hr hi hpid hu _ =>
    have h' := h.set (C := t.contiguous) (e := ⟨0, 0, .zero⟩)
      (h.not_held_of_user hu (by rw [hpid, hr]; rfl)) rfl rfl (.inr rfl)
      (fun _ hu => by cases (PtEntry.user_iff.1 hu).1)
      (fun hg => ((PtEntry.user_iff.1 hu).2 ((h.fits i).granted hg).2.1).elim) (fun _ _ => rfl)
    exact ⟨h'.fits, h'.apart, h'.sem⟩
  | left hr _ =>
    exact h.same (by rw [hr]; rfl) (by rw [hr]; rfl) (by simp) (by simp) (by rw [hr]; simp)
  | die hr => exact h.same (by rw [hr]; rfl) (by rw [hr]; rfl) (by simp) (by simp) (by rw [hr]; simp)
  | @fork child hr _ hs hc _ =>
    have hcur : t.cur ≠ child := by
      rintro rfl
      rw [hr] at hc
      cases hc
    have h₁ := h.same (p := child) (r := .embryo) (by rw [hc]; rfl) (by rw [hc]; rfl) (by simp) (by simp)
      (by rw [hc]; simp)
    have h' := h₁.prepare
      (show Function.update t.role child .embryo t.cur = .user by rw [Function.update_of_ne hcur, hr])
      hs (show Function.update t.role child .embryo child = .embryo from Function.update_self ..)
    exact ⟨h'.fits, h'.apart, h'.sem⟩
  | @skip child i hr =>
    apply h.same
    · rw [hr]
      rfl
    · rw [hr]
      rfl
    · simp
    · intro c k hk
      cases hk
      exact ⟨i, hr⟩
    · rw [hr]
      simp
  | @copy child i j ht hr hi hpid hu hj hsp _ =>
    obtain ⟨hv, hk⟩ : (t.entries j).ctrl.validity = false ∧ (t.entries j).page ≠ kmallocPage := by
      simp only [PtEntry.isSpace, Bool.and_eq_true, Bool.not_eq_true', bne_iff_ne] at hsp
      exact ⟨hsp.1.1.1, hsp.2⟩
    obtain ⟨hio, hsw, htlb⟩ := (h.fits j).clean hv
    have hc := h.apart.embryo hr
    have h₁ := h.set (C := t.contiguous) (e := (t.entries j).copyOf (t.entries i) child)
      ((h.fits j).not_held_of_io hio) hio hsw (.inr htlb)
      (fun _ _ => by simp [PtEntry.copyOf, hc, Role.forks])
      (fun hg => (hk ((h.fits j).granted hg).2.1).elim) (fun _ _ => rfl)
    have h' := h₁.same (p := t.cur) (r := .forking child (i + 1)) (by simp only [hr]; rfl)
      (by simp only [hr]; rfl) (by simp) (fun c k he => by cases he; exact ⟨i, hr⟩)
      (by simp only [hr]; simp)
    exact ⟨h'.fits, h'.apart, h'.sem⟩
  | unfork hr => exact h.finish hr
  | @spawn q _ hq _ =>
    have h' := h.same (p := q) (r := .user) (by rw [hq]; rfl) (by rw [hq]; rfl) (by simp) (by simp)
      (by rw [hq]; simp)
    exact ⟨h'.fits, h'.apart, h'.sem⟩
  | exec _ _ _ _ => exact ⟨h.fits, h.apart, h.sem⟩
  | @reap q _ hq =>
    have h' := h.same (p := q) (r := .absent) (by rw [hq]; rfl) (by rw [hq]; rfl) (by simp) (by simp)
      (by rw [hq]; simp)
    exact ⟨h'.fits, h'.apart, h'.sem⟩
  | invalidate _ _ hc => exact ⟨Fits.cleared h.fits hc, h.apart, h.sem⟩
  | turn _ _ => exact ⟨h.fits, h.apart, h.sem⟩
  | dispatch _ => exact ⟨h.fits, h.apart, h.sem⟩

theorem Hashed.update (h : t.Hashed) (hp : ∀ v i, t.role p ≠ .claimed v i)
    (hr : ∀ v i, r ≠ .claimed v i) (hpid : PidOk p)
    (ho : r.owns = true ∨ ∀ i v, ¬ Key t.n t.entries i v p)
    (he : r = .embryo → ∀ i v, ¬ Key t.n t.entries i v p)
    (hc : ∀ c k, t.role p = .forking c k → t.role c = .embryo → ∃ k', k ≤ k' ∧ r = .forking c k')
    (hf : ∀ v, r = .seeking v → ∀ i, ¬ Key t.n t.entries i v p)
    (hs : r.needs = true → t.hasAs p = true) :
    Hashed { t with role := Function.update t.role p r } :=
  ⟨h.indexed.congr (fun _ => .refl _) fun _ => pending_update hp hr,
    h.peopled.update hpid ho he hc hf hs⟩

theorem Hashed.sameKey (h : t.Hashed) (hE : ∀ i, SameKey (t.entries i) (E i)) :
    Hashed { t with entries := E } :=
  ⟨h.indexed.congr hE fun _ => .rfl, h.peopled.congr hE⟩

theorem Hashed.no_key (h : t.Hashed) (hp : (t.role p).owns = false) (i v : Nat) :
    ¬ Key t.n t.entries i v p := by
  intro hk
  rw [(h.peopled.live hk).2] at hp
  cases hp

theorem Own.not_forking_of_idle (h : t.Own) (he : (t.entries i).Idle)
    (hk : Key t.n t.entries i v p) (c k : Nat) : t.role p ≠ .forking c k := by
  intro hf
  have := (h.fits i).not_forks_of_swap hk.1 hk.2.1 he.2.1
  rw [hk.2.2.2, hf] at this
  cases this

theorem no_key_of_invalid (hv : (t.entries i).ctrl.validity = false) (v p : Nat) :
    ¬ Key t.n t.entries i v p := by
  intro hk
  rw [(PtEntry.user_iff.1 hk.2.1).1] at hv
  cases hv

theorem pending_claim (hr : ∀ w j, t.role t.cur ≠ .claimed w j) :
    Pending (Function.update t.role t.cur (.claimed v i)) j ↔ j = i ∨ Pending t.role j := by
  constructor
  · intro hp
    obtain ⟨q, w, hq⟩ := hp
    by_cases hqc : q = t.cur
    · subst hqc
      rw [Function.update_self] at hq
      cases hq
      exact .inl rfl
    · rw [Function.update_of_ne hqc] at hq
      exact .inr ⟨q, w, hq⟩
  · intro hp
    rcases hp with rfl | ⟨q, w, hq⟩
    · exact ⟨t.cur, v, Function.update_self ..⟩
    · refine ⟨q, w, ?_⟩
      rw [Function.update_of_ne, hq]
      rintro rfl
      exact hr w j hq

theorem pending_hash (ho : t.Own) (hr : t.role t.cur = .claimed v i) :
    Pending (Function.update t.role t.cur (.loading v i)) j ↔ j ≠ i ∧ Pending t.role j := by
  have hhold : (t.role t.cur).hold = some (i, some v) := by rw [hr]; rfl
  constructor
  · intro hp
    obtain ⟨q, w, hq⟩ := hp
    have hqc : q ≠ t.cur := by
      rintro rfl
      rw [Function.update_self] at hq
      cases hq
    rw [Function.update_of_ne hqc] at hq
    refine ⟨?_, q, w, hq⟩
    rintro rfl
    exact hqc (ho.apart.single (o := some w) (by rw [hq]; rfl) hhold)
  · intro hp
    obtain ⟨hj, q, w, hq⟩ := hp
    refine ⟨q, w, ?_⟩
    rw [Function.update_of_ne, hq]
    rintro rfl
    rw [hr] at hq
    cases hq
    exact hj rfl

theorem Hashed.claim (ho : t.Own) (h : t.Hashed) (hr : t.role t.cur = .seeking v)
    (he : (t.entries i).Idle) :
    Peopled t.n (Function.update t.entries i ((t.entries i).claim v t.cur))
      (Function.update t.role t.cur (.claimed v i)) t.hasAs := by
  have hv := ho.apart.addr hr
  have hp : PidOk t.cur := h.peopled.pids (by rw [hr]; simp)
  have ha : t.hasAs t.cur = true := h.peopled.space (by rw [hr]; rfl)
  have h₁ := h.peopled.update (r := .claimed v i) hp (.inl rfl) (by simp) (by rw [hr]; simp)
    (by simp) (fun _ => ha)
  have h₂ := h₁.erase (i := i) (e := ⟨0, 0, .zero⟩) rfl (by
    intro w p c k hk
    by_cases hpc : p = t.cur
    · rw [hpc, Function.update_self]
      simp
    · rw [Function.update_of_ne hpc]
      exact ho.not_forking_of_idle he hk c k)
  have h₃ := h₂.insert (i := i) (e := (t.entries i).claim v t.cur)
    (fun w p hk => by
      rcases key_set.1 hk with ⟨-, -, hu, -⟩ | ⟨hne, -⟩
      · cases hu
      · exact hne rfl)
    hv hp
    (fun j hk => by
      rcases key_set.1 hk with ⟨-, -, hu, -⟩ | ⟨-, hk⟩
      · cases hu
      · exact h.peopled.fresh hr hk)
    ha
    (by rw [PtEntry.claim, Function.update_self]; rfl)
    (fun hc => by rw [PtEntry.claim, Function.update_self] at hc; cases hc)
    (by rw [PtEntry.claim, Function.update_self]; simp)
  rwa [Function.update_idem] at h₃

theorem Hashed.not_copied (ho : t.Own) (h : t.Hashed) (hr : t.role t.cur = .forking child i)
    (hk : Key t.n t.entries i v t.cur) (j : Nat) : ¬ Key t.n t.entries j v child := by
  intro hj
  obtain ⟨q, k, l, hq, hl, hkl⟩ := h.peopled.child hj (ho.apart.embryo hr)
  have hqc : q = t.cur := ho.apart.sole (by rw [hq]; rfl) (by rw [hr]; rfl)
  subst hqc
  rw [hr] at hq
  cases hq
  have := h.peopled.unique hk hkl
  omega

theorem Hashed.step (ho : t.Own) (h : t.Hashed) (hm : TableMove F t t') : t'.Hashed := by
  have hpid : t.role t.cur ≠ .absent → PidOk t.cur := h.peopled.pids
  cases hm with
  | refs hE => exact h.sameKey fun i => (hE i).sameKey
  | @seek v hr ha hv hl =>
    apply h.update (p := t.cur) (r := .seeking v) (by rw [hr]; simp) (by simp)
      (hpid (by rw [hr]; simp)) (.inl rfl) (by simp) (by rw [hr]; simp)
    · intro w hw i hk
      cases hw
      have := ho.pending_key hk (h.indexed.lookup_none hl hk)
      rw [hr] at this
      cases this
    · intro _
      exact ha
  | @claim v i hr hi he hv =>
    refine ⟨h.indexed.iff fun j w q => ?_, h.claim ho hr he⟩
    simp only [play]
    rw [key_set, pending_claim (by rw [hr]; simp)]
    have hno := no_key_of_invalid hv
    by_cases hj : j = i
    · subst hj
      simp [hno]
    · simp [hj]
  | @evict v i ht hr hi he hu hrem =>
    have hE : ∀ j w q, Key t.n (Function.update t.entries i ((t.entries i).claim v t.cur)) j w q ∧
        ¬ Pending (Function.update t.role t.cur (.claimed v i)) j ↔
        j ≠ i ∧ Key t.n t.entries j w q ∧ ¬ Pending t.role j := by
      intro j w q
      rw [key_set, pending_claim (by rw [hr]; simp)]
      by_cases hj : j = i
      · simp [hj]
      · simp [hj]
    obtain ⟨ht', hrem', hidx⟩ :=
      h.indexed.remove (key_of_user hi hu) (ho.not_pending_of_io he.1) hE
    rw [hrem] at hrem'
    cases hrem'
    exact ⟨hidx, h.claim ho hr he⟩
  | @hash v i ht hr hadd =>
    obtain ⟨hi, ⟨hval, -⟩, hv, hpg, hpd⟩ :=
      (ho.fits i).held (q := t.cur) (o := some v) (by rw [hr]; rfl)
    have hk : Key t.n t.entries i v t.cur :=
      ⟨hi, PtEntry.user_iff.2 ⟨hval, hpg ▸ hv.ne_kmallocPage⟩, hpg, hpd⟩
    have hpend : Pending t.role i := ⟨t.cur, v, hr⟩
    have hE : ∀ j w q, Key t.n t.entries j w q ∧
        ¬ Pending (Function.update t.role t.cur (.loading v i)) j ↔
        j = i ∧ v = w ∧ t.cur = q ∨ j ≠ i ∧ Key t.n t.entries j w q ∧ ¬ Pending t.role j := by
      intro j w q
      rw [pending_hash ho hr]
      by_cases hj : j = i
      · subst hj
        simp [hk.iff]
      · simp [hj]
    obtain ⟨ht', hadd', hidx⟩ := h.indexed.add hi (fun _ _ _ => hpend)
      (fun j hj => h.peopled.unique hj hk ▸ hpend) hE
    rw [hadd] at hadd'
    cases hadd'
    refine ⟨hidx, h.peopled.update (hpid (by rw [hr]; simp)) (.inl rfl) (by simp)
      (by rw [hr]; simp) (by simp) fun _ => h.peopled.space (by rw [hr]; rfl)⟩
  | @load v i d E m hr ha hins =>
    have hE : ∀ j, SameKey (t.entries j) (E j) := fun j =>
      (sameKey_set (e := ((t.entries i).setIo false).setTlb true) ⟨rfl, fun _ => ⟨rfl, rfl⟩⟩ j).trans
        (sameKey_inserted hins j)
    have h' := (h.sameKey hE).update (p := t.cur) (r := .user) (by rw [hr]; simp) (by simp)
      (hpid (by rw [hr]; simp)) (.inl rfl) (by simp) (by rw [hr]; simp) (by simp) (by simp [Role.needs])
    exact ⟨h'.indexed, h'.peopled⟩
  | @hit v i d E m hr _ hv _ hl hio hins =>
    have hE : ∀ j, SameKey (t.entries j) (E j) := fun j =>
      (sameKey_set (e := (t.entries i).setTlb true) ⟨rfl, fun _ => ⟨rfl, rfl⟩⟩ j).trans
        (sameKey_inserted hins j)
    have h' := h.sameKey hE
    exact ⟨h'.indexed, h'.peopled⟩
  | @take i hr hi he hv =>
    have hE : SameKey (t.entries i) ((t.entries i).kmalloc t.cur false) := by
      simp [SameKey, PtEntry.user, PtEntry.kmalloc, hv]
    have h' := h.sameKey (sameKey_set hE)
    exact ⟨h'.indexed, h'.peopled⟩
  | @steal i ht hr hi he hu hrem =>
    have hrole : ∀ j, Pending (Function.update t.role t.cur (.evicting i)) j ↔ Pending t.role j :=
      fun j => pending_update (by rw [hr]; simp) (by simp)
    have hE : ∀ j w q, Key t.n (Function.update t.entries i ((t.entries i).kmalloc t.cur true)) j w q ∧
        ¬ Pending (Function.update t.role t.cur (.evicting i)) j ↔
        j ≠ i ∧ Key t.n t.entries j w q ∧ ¬ Pending t.role j := by
      intro j w q
      rw [key_set, hrole]
      simp [PtEntry.user, PtEntry.kmalloc, and_assoc]
    obtain ⟨ht', hrem', hidx⟩ :=
      h.indexed.remove (key_of_user hi hu) (ho.not_pending_of_io he.1) hE
    rw [hrem] at hrem'
    cases hrem'
    have hp := h.peopled.erase (i := i) (e := (t.entries i).kmalloc t.cur true)
      (by simp [PtEntry.user, PtEntry.kmalloc]) (fun v p c k hk => ho.not_forking_of_idle he hk c k)
    exact ⟨hidx, hp.update (hpid (by rw [hr]; simp)) (.inl rfl) (by simp)
      (by rw [hr]; simp) (by simp) (by simp [Role.needs])⟩
  | @grant i hr =>
    obtain ⟨-, -, hk⟩ := (ho.fits i).held (q := t.cur) (o := none) (by rw [hr]; rfl)
    have hE : SameKey (t.entries i) ((t.entries i).setIo false) := ⟨rfl, fun _ => ⟨rfl, rfl⟩⟩
    have h' := (h.sameKey (sameKey_set hE)).update (p := t.cur) (r := .user)
      (by rw [hr]; simp) (by simp) (hpid (by rw [hr]; simp)) (.inl rfl) (by simp)
      (by rw [hr]; simp) (by simp) (by simp [Role.needs])
    exact ⟨h'.indexed, h'.peopled⟩
  | @free i hc =>
    obtain ⟨-, hk, -⟩ := (ho.fits i).granted hc
    have hE : SameKey (t.entries i) { t.entries i with
        page := 0, ctrl := { (t.entries i).ctrl with validity := false } } := by
      simp [SameKey, PtEntry.user, hk]
    have h' := h.sameKey (sameKey_set hE)
    exact ⟨h'.indexed, h'.peopled⟩
  | leave hr =>
    exact h.update (by rw [hr]; simp) (by simp) (hpid (by rw [hr]; simp)) (.inl rfl) (by simp)
      (by rw [hr]; simp) (by simp) (by simp [Role.needs])
  | @release i ht hr hi hp hu hrem =>
    have hio : (t.entries i).ctrl.io = false := by
      cases hio : (t.entries i).ctrl.io with
      | false => rfl
      | true =>
        obtain ⟨q, o, hq⟩ := (ho.fits i).io hio
        exact (ho.not_held_of_user hu (by rw [hp, hr]; rfl) q o hq).elim
    have hk : Key t.n t.entries i (t.entries i).page t.cur := ⟨hi, hu, rfl, hp⟩
    have hE : ∀ j w q, Key t.n (Function.update t.entries i ⟨0, 0, .zero⟩) j w q ∧
        ¬ Pending t.role j ↔ j ≠ i ∧ Key t.n t.entries j w q ∧ ¬ Pending t.role j := by
      intro j w q
      rw [key_set]
      simp [PtEntry.user, Ctrl.zero, and_assoc]
    obtain ⟨ht', hrem', hidx⟩ := h.indexed.remove hk (ho.not_pending_of_io hio) hE
    rw [hrem] at hrem'
    cases hrem'
    refine ⟨hidx, h.peopled.erase rfl ?_⟩
    intro v q c k hk'
    rw [← hk'.2.2.2, hp, hr]
    simp
  | left hr hno =>
    have hkey : ∀ i v, ¬ Key t.n t.entries i v t.cur := fun i v hk => hno i hk.1 hk.2.1 hk.2.2.2
    exact h.update (by rw [hr]; simp) (by simp) (hpid (by rw [hr]; simp)) (.inr hkey)
      (by simp) (by rw [hr]; simp) (by simp) (by simp [Role.needs])
  | die hr =>
    exact h.update (by rw [hr]; simp) (by simp) (hpid (by rw [hr]; simp))
      (.inr (h.no_key (by rw [hr]; rfl))) (by simp) (by rw [hr]; simp) (by simp) (by simp [Role.needs])
  | @fork child hr ha hs hc hpc =>
    have hcur : t.cur ≠ child := by
      rintro rfl
      rw [hr] at hc
      cases hc
    have hno := h.no_key (p := child) (by rw [hc]; rfl)
    have h₀ : Hashed { t with hasAs := Function.update t.hasAs child true } :=
      ⟨h.indexed, h.peopled.updateAs (.inl rfl)⟩
    have h₁ := h₀.update (p := child) (r := .embryo) (by rw [hc]; simp) (by simp) hpc
      (.inl rfl) (fun _ => hno) (by rw [hc]; simp) (by simp) (fun _ => Function.update_self ..)
    have hr₁ : Function.update t.role child .embryo t.cur = .user := by
      rw [Function.update_of_ne hcur, hr]
    have hmark : ∀ i, SameKey (t.entries i) (marked t.n t.entries t.cur true i) :=
      sameKey_marked t.cur true
    have h₂ := (h₁.sameKey hmark).update (p := t.cur)
      (r := .forking child 0) (by simp only [hr₁]; simp) (by simp)
      (hpid (by rw [hr]; simp)) (.inl rfl) (by simp) (by simp only [hr₁]; simp) (by simp)
      (fun _ => by simp [hcur, ha])
    exact ⟨h₂.indexed, h₂.peopled⟩
  | @skip child i hr =>
    apply h.update (p := t.cur) (r := .forking child (i + 1)) (by rw [hr]; simp) (by simp)
      (hpid (by rw [hr]; simp)) (.inl rfl) (by simp)
    · intro c k hk _
      rw [hr] at hk
      cases hk
      exact ⟨i + 1, Nat.le_succ i, rfl⟩
    · simp
    · intro _
      exact h.peopled.space (by rw [hr]; rfl)
  | @copy child i j ht hr hi hp hu hj hsp hadd =>
    have hv : (t.entries j).ctrl.validity = false := by
      simp only [PtEntry.isSpace, Bool.and_eq_true, Bool.not_eq_true'] at hsp
      exact hsp.1.1.1
    have hno := no_key_of_invalid (t := t) hv
    have hk : Key t.n t.entries i (t.entries i).page t.cur := ⟨hi, hu, rfl, hp⟩
    have hc := ho.apart.embryo hr
    have hcur : child ≠ t.cur := by
      rintro rfl
      rw [hr] at hc
      cases hc
    have hnew := h.not_copied ho hr hk
    have hrole : ∀ l, Pending (Function.update t.role t.cur (.forking child (i + 1))) l ↔
        Pending t.role l := fun l => pending_update (by rw [hr]; simp) (by simp)
    have hpend : ¬ Pending t.role j := ho.not_pending_of_io ((ho.fits j).clean hv).1
    have hue : ((t.entries j).copyOf (t.entries i) child).user = true :=
      PtEntry.user_iff.2 ⟨rfl, (PtEntry.user_iff.1 hu).2⟩
    have hE : ∀ l w q, Key t.n (Function.update t.entries j
          ((t.entries j).copyOf (t.entries i) child)) l w q ∧
        ¬ Pending (Function.update t.role t.cur (.forking child (i + 1))) l ↔
        l = j ∧ (t.entries i).page = w ∧ child = q ∨
          l ≠ j ∧ Key t.n t.entries l w q ∧ ¬ Pending t.role l := by
      intro l w q
      rw [key_set, hrole]
      by_cases hl : l = j
      · subst hl
        simp only [hj, hue, hpend]
        simp [PtEntry.copyOf]
      · simp [hl]
    obtain ⟨ht', hadd', hidx⟩ := h.indexed.add hj (fun w q hkj => (hno w q hkj).elim)
      (fun l hl => (hnew l hl).elim) hE
    rw [hadd] at hadd'
    cases hadd'
    have h₁ := h.peopled.update (p := t.cur) (r := .forking child (i + 1))
      (hpid (by rw [hr]; simp)) (.inl rfl) (by simp)
      (fun c k he _ => by
        rw [hr] at he
        cases he
        exact ⟨i + 1, Nat.le_succ i, rfl⟩)
      (by simp) (fun _ => h.peopled.space (by rw [hr]; rfl))
    have hpidc : PidOk child := h.peopled.pids (by rw [hc]; simp)
    have hasc : t.hasAs child = true := h.peopled.space (by rw [hc]; rfl)
    have hc₁ : Function.update t.role t.cur (.forking child (i + 1)) child = .embryo := by
      rw [Function.update_of_ne hcur, hc]
    have h₂ := h₁.insert (i := j) (e := (t.entries j).copyOf (t.entries i) child) hno
      (h.peopled.user hk).1 hpidc hnew hasc (by simp only [PtEntry.copyOf, hc₁]; rfl)
      (fun _ => ⟨t.cur, i + 1, i, Function.update_self .., Nat.lt_succ_self i, hk⟩)
      (by simp only [PtEntry.copyOf, hc₁]; simp)
    exact ⟨hidx, h₂⟩
  | @unfork child i hr =>
    have hc := ho.apart.embryo hr
    have hcur : t.cur ≠ child := by
      rintro rfl
      rw [hr] at hc
      cases hc
    have h₁ := h.update (p := child) (r := .user) (by rw [hc]; simp) (by simp)
      (h.peopled.pids (by rw [hc]; simp)) (.inl rfl) (by simp) (by rw [hc]; simp) (by simp)
      (by simp [Role.needs])
    have hr₁ : Function.update t.role child .user t.cur = .forking child i := by
      rw [Function.update_of_ne hcur, hr]
    have hmark : ∀ i, SameKey (t.entries i) (marked t.n t.entries t.cur false i) :=
      sameKey_marked t.cur false
    have h₂ := (h₁.sameKey hmark).update (p := t.cur)
      (r := .user) (by simp only [hr₁]; simp) (by simp) (hpid (by rw [hr]; simp))
      (.inl rfl) (by simp) (by
        intro c k hk he
        simp only [hr₁] at hk
        cases hk
        simp at he) (by simp) (by simp [Role.needs])
    exact ⟨h₂.indexed, h₂.peopled⟩
  | @spawn q _ hq hp =>
    have hno := h.no_key (p := q) (by rw [hq]; rfl)
    have h₁ := h.update (p := q) (r := .user) (by rw [hq]; simp) (by simp) hp (.inl rfl) (by simp)
      (by rw [hq]; simp) (by simp) (by simp [Role.needs])
    exact ⟨h₁.indexed, h₁.peopled.updateAs (.inr ⟨by simp [Role.needs], hno⟩)⟩
  | exec _ _ _ _ => exact ⟨h.indexed, h.peopled.updateAs (.inl rfl)⟩
  | @reap q hr hq =>
    have hno := h.no_key (p := q) (by rw [hq]; rfl)
    have h₁ := h.update (p := q) (r := .absent) (by rw [hq]; simp) (by simp)
      (h.peopled.pids (by rw [hq]; simp)) (.inr hno) (by simp) (by rw [hq]; simp) (by simp)
      (by simp [Role.needs])
    exact ⟨h₁.indexed, h₁.peopled.updateAs (.inr ⟨by simp [Role.needs], hno⟩)⟩
  | invalidate _ _ hc =>
    have h' := h.sameKey (sameKey_cleared hc)
    exact ⟨h'.indexed, h'.peopled⟩
  | turn _ _ => exact ⟨h.indexed, h.peopled⟩
  | dispatch _ => exact ⟨h.indexed, h.peopled⟩

end Table

end Clape
