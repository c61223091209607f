import Clape.FrameOwnership

namespace Clape
set_option autoImplicit true

/-- The processes that can have pages in memory. -/
def Role.owns : Role → Bool
  | .absent | .zombie | .exiting => false
  | _ => true

/-- The roles that a process with an address space alone can have. -/
def Role.needs : Role → Bool
  | .embryo | .seeking _ | .claimed _ _ | .loading _ _ | .forking _ _ => true
  | _ => false

/-- Entry `i` holds page `v` of process `p`. -/
def Key (n : Nat) (E : Nat → PtEntry) (i v p : Nat) : Prop :=
  i < n ∧ (E i).user = true ∧ (E i).page = v ∧ (E i).pid = p

/-- The claim on the frame has not reached the hash table yet. -/
def Pending (role : Nat → Role) (i : Nat) : Prop := ∃ q v, role q = .claimed v i

/-- The hash table knows every page but those that are pending. -/
def Indexed (ht : HashTable) (n : Nat) (E : Nat → PtEntry) (role : Nat → Role) : Prop :=
  ht.pool = n ∧ ht.size = 2 * n ∧
    ∃ K L, ht.Rep K L ∧ ∀ i v p, K i = some (v, p) ↔ Key n E i v p ∧ ¬ Pending role i

/-- No page is in two frames, pages belong to live processes, and those of a child that
does not run yet are copies of its parent's. -/
structure Peopled (n : Nat) (E : Nat → PtEntry) (role : Nat → Role) (hasAs : Nat → Bool) :
    Prop where
  user : Key n E i v p → UserAddr v ∧ PidOk p
  unique : Key n E i v p → Key n E j v p → i = j
  live : Key n E i v p → hasAs p = true ∧ (role p).owns = true
  child : Key n E i v p → role p = .embryo →
    ∃ q k j, role q = .forking p k ∧ j < k ∧ Key n E j v q
  fresh : role q = .seeking v → ¬ Key n E i v q
  pids : role q ≠ .absent → PidOk q
  space : (role q).needs = true → hasAs q = true

structure Table.Hashed (t : Table) : Prop where
  indexed : Indexed t.ht t.n t.entries t.role
  peopled : Peopled t.n t.entries t.role t.hasAs

section Keys
variable {n : Nat} {E : Nat → PtEntry} {role : Nat → Role}

theorem key_of_user (hi : i < n) (hu : (E i).user = true) : Key n E i (E i).page (E i).pid :=
  ⟨hi, hu, rfl, rfl⟩

theorem Key.iff (h : Key n E i v p) : Key n E i w q ↔ v = w ∧ p = q := by
  obtain ⟨hi, hu, hv, hp⟩ := h
  simp [Key, hi, hu, hv, hp]

theorem key_congr (hE : ∀ i, SameKey (E i) (E' i)) : Key n E' i v p ↔ Key n E i v p := by
  obtain ⟨hu, hk⟩ := hE i
  unfold Key
  rw [hu]
  apply and_congr_right
  intro _
  apply and_congr_right
  intro hui
  rw [(hk hui).1, (hk hui).2]

theorem key_set : Key n (Function.update E i e) j v p ↔
    j = i ∧ i < n ∧ e.user = true ∧ e.page = v ∧ e.pid = p ∨ j ≠ i ∧ Key n E j v p := by
  by_cases hj : j = i
  · subst hj
    simp [Key]
  · simp [Key, hj]

theorem sameKey_set (he : SameKey (E i) e) (j : Nat) : SameKey (E j) (Function.update E i e j) := by
  by_cases hj : j = i
  · subst hj
    simpa using he
  · simpa [hj] using SameKey.refl (E j)

theorem sameKey_marked (p : Nat) (b : Bool) (i : Nat) : SameKey (E i) (marked n E p b i) := by
  unfold marked
  split
  · exact ⟨rfl, fun _ => ⟨rfl, rfl⟩⟩
  · exact .refl _

theorem sameKey_cleared (h : TlbCleared n E v p E') (i : Nat) : SameKey (E i) (E' i) := by
  rcases h with ⟨rfl, -⟩ | ⟨j, -, -, -, -, -, -, rfl⟩
  · exact .refl _
  · exact sameKey_set (e := ((E j).setTlb false).setReference true) ⟨rfl, fun _ => ⟨rfl, rfl⟩⟩ i

theorem sameKey_inserted (h : Inserted n E m p x E' m') (i : Nat) : SameKey (E i) (E' i) := by
  cases h with
  | free _ _ => exact .refl _
  | replace _ hc => exact sameKey_cleared hc i
  | beyond _ => exact .refl _

theorem pending_update (hp : ∀ v i, role p ≠ .claimed v i) (hr : ∀ v i, r ≠ .claimed v i) :
    Pending (Function.update role p r) i ↔ Pending role i := by
  have hq : ∀ q v, Function.update role p r q = .claimed v i ↔ role q = .claimed v i := by
    intro q v
    by_cases hqp : q = p
    · subst hqp
      simp [hp, hr]
    · simp [hqp]
  simp only [Pending, hq]

end Keys

theorem Table.Own.not_pending_of_io {t : Table} (h : t.Own)
    (hio : (t.entries i).ctrl.io = false) : ¬ Pending t.role i := by
  intro hp
  obtain ⟨q, v, hq⟩ := hp
  exact (h.fits i).not_held_of_io hio q (some v) (by rw [hq]; rfl)

theorem Table.Own.pending_key {t : Table} (h : t.Own) (hk : Key t.n t.entries i v p)
    (hp : Pending t.role i) : t.role p = .claimed v i := by
  obtain ⟨q, w, hq⟩ := hp
  obtain ⟨-, -, -, hpg, hpid⟩ := (h.fits i).held (q := q) (o := some w) (by rw [hq]; rfl)
  have hv : w = v := hpg.symm.trans hk.2.2.1
  have hp : q = p := hpid.symm.trans hk.2.2.2
  subst hv hp
  exact hq

namespace Indexed

theorem iff (h : Indexed ht n E role) (hE : ∀ i v p, Key n E' i v p ∧ ¬ Pending role' i ↔
    Key n E i v p ∧ ¬ Pending role i) : Indexed ht n E' role' := by
  obtain ⟨hpool, hsize, K, L, hL, hK⟩ := h
  exact ⟨hpool, hsize, K, L, hL, fun i v p => (hK i v p).trans (hE i v p).symm⟩

theorem congr (h : Indexed ht n E role) (hE : ∀ i, SameKey (E i) (E' i))
    (hr : ∀ i, Pending role' i ↔ Pending role i) : Indexed ht n E' role' :=
  h.iff fun i v p => by rw [key_congr hE, hr]

theorem lookup_some (h : Indexed ht n E role) (hl : ht.getIndexFromHash v p = .ok (some i)) :
    Key n E i v p ∧ ¬ Pending role i := by
  obtain ⟨-, -, K, L, hL, hK⟩ := h
  rcases hL.getIndexFromHash_iff.1 hl with ⟨j, hj, hk⟩ | ⟨hj, -⟩
  · cases hj
    exact (hK i v p).1 hk
  · cases hj

theorem lookup_none (h : Indexed ht n E role) (hl : ht.getIndexFromHash v p = .ok none)
    (hk : Key n E i v p) : Pending role i := by
  obtain ⟨-, -, K, L, hL, hK⟩ := h
  rcases hL.getIndexFromHash_iff.1 hl with ⟨j, hj, -⟩ | ⟨-, hn⟩
  · cases hj
  · by_contra hp
    exact hn i ((hK i v p).2 ⟨hk, hp⟩)

theorem remove (h : Indexed ht n E role) (hk : Key n E i v p) (hp : ¬ Pending role i)
    (hE : ∀ j w q, Key n E' j w q ∧ ¬ Pending role' j ↔
      j ≠ i ∧ Key n E j w q ∧ ¬ Pending role j) :
    ∃ ht', ht.removeFromHash v p = .ok ht' ∧ Indexed ht' n E' role' := by
  obtain ⟨hpool, hsize, K, L, hL, hK⟩ := h
  obtain ⟨ht', L', hht, hs, hpl, hL'⟩ := hL.removeFromHash ((hK i v p).2 ⟨hk, hp⟩)
  refine ⟨ht', hht, hpl.trans hpool, hs.trans hsize, _, L', hL', fun j w q => ?_⟩
  rw [hE]
  by_cases hj : j = i
  · subst hj
    simp
  · simp [hj, hK]

theorem removes (h : Indexed ht n E role) (hk : Key n E i v p) (hp : ¬ Pending role i) :
    ∃ ht', ht.removeFromHash v p = .ok ht' := by
  obtain ⟨-, -, K, L, hL, hK⟩ := h
  obtain ⟨ht', L', hht, -⟩ := hL.removeFromHash ((hK i v p).2 ⟨hk, hp⟩)
  exact ⟨ht', hht⟩

theorem looks (h : Indexed ht n E role) (v p : Nat) : ∃ o, ht.getIndexFromHash v p = .ok o := by
  obtain ⟨-, -, K, L, hL, hK⟩ := h
  by_cases hk : ∃ i, K i = some (v, p)
  · obtain ⟨i, hi⟩ := hk
    exact ⟨some i, hL.getIndexFromHash_some hi⟩
  · exact ⟨none, hL.getIndexFromHash_none fun i hi => hk ⟨i, hi⟩⟩

theorem adds (h : Indexed ht n E role) (hi : i < n) (hno : ∀ w q, Key n E i w q → Pending role i)
    (hnew : ∀ j, Key n E j v p → Pending role j) : ∃ ht', ht.addInHash v p i = .ok ht' := by
  obtain ⟨hpool, -, K, L, hL, hK⟩ := h
  have hKi : K i = none := by
    cases hk : K i with
    | none => rfl
    | some x =>
      obtain ⟨hk, hp⟩ := (hK i x.1 x.2).1 hk
      exact (hp (hno x.1 x.2 hk)).elim
  have hKn : ∀ j, K j ≠ some (v, p) := by
    intro j hj
    obtain ⟨hk, hp⟩ := (hK j v p).1 hj
    exact hp (hnew j hk)
  obtain ⟨ht', -, hht, -⟩ := hL.addInHash (hpool ▸ hi) hKi hKn
  exact ⟨ht', hht⟩

theorem add (h : Indexed ht n E role) (hi : i < n) (hno : ∀ w q, Key n E i w q → Pending role i)
    (hnew : ∀ j, Key n E j v p → Pending role j)
    (hE : ∀ j w q, Key n E' j w q ∧ ¬ Pending role' j ↔
      j = i ∧ v = w ∧ p = q ∨ j ≠ i ∧ Key n E j w q ∧ ¬ Pending role j) :
    ∃ ht', ht.addInHash v p i = .ok ht' ∧ Indexed ht' n E' role' := by
  obtain ⟨hpool, hsize, K, L, hL, hK⟩ := h
  have hKi : K i = none := by
    cases hk : K i with
    | none => rfl
    | some x =>
      obtain ⟨w, q⟩ := x
      obtain ⟨hk, hp⟩ := (hK i w q).1 hk
      exact (hp (hno w q hk)).elim
  have hKn : ∀ j, K j ≠ some (v, p) := by
    intro j hj
    obtain ⟨hk, hp⟩ := (hK j v p).1 hj
    exact hp (hnew j hk)
  obtain ⟨ht', L', hht, hs, hpl, hL'⟩ := hL.addInHash (hpool ▸ hi) hKi hKn
  refine ⟨ht', hht, hpl.trans hpool, hs.trans hsize, _, L', hL', fun j w q => ?_⟩
  rw [hE]
  by_cases hj : j = i
  · subst hj
    simp
  · simp [hj, hK]

end Indexed

namespace Peopled

theorem congr (h : Peopled n E role hasAs) (hE : ∀ i, SameKey (E i) (E' i)) :
    Peopled n E' role hasAs where
  user hk := h.user ((key_congr hE).1 hk)
  unique hk hk' := h.unique ((key_congr hE).1 hk) ((key_congr hE).1 hk')
  live hk := h.live ((key_congr hE).1 hk)
  child hk he := by
    obtain ⟨q, k, j, hq, hj, hk'⟩ := h.child ((key_congr hE).1 hk) he
    exact ⟨q, k, j, hq, hj, (key_congr hE).2 hk'⟩
  fresh hq hk := h.fresh hq ((key_congr hE).1 hk)
  pids := h.pids
  space := h.space

theorem update (h : Peopled n E role hasAs) (hp : PidOk p)
    (ho : r.owns = true ∨ ∀ i v, ¬ Key n E i v p)
    (he : r = .embryo → ∀ i v, ¬ Key n E i v p)
    (hc : ∀ c k, role p = .forking c k → role c = .embryo → ∃ k', k ≤ k' ∧ r = .forking c k')
    (hf : ∀ v, r = .seeking v → ∀ i, ¬ Key n E i v p) (hs : r.needs = true → hasAs p = true) :
    Peopled n E (Function.update role p r) hasAs where
  user := h.user
  unique := h.unique
  live {i v q} hk := by
    refine ⟨(h.live hk).1, ?_⟩
    by_cases hq : q = p
    · subst hq
      rw [Function.update_self]
      exact ho.resolve_right fun hn => hn i v hk
    · rw [Function.update_of_ne hq]
      exact (h.live hk).2
  child {i v q} hk hq := by
    by_cases hqp : q = p
    · subst hqp
      rw [Function.update_self] at hq
      exact (he hq i v hk).elim
    · rw [Function.update_of_ne hqp] at hq
      obtain ⟨q', k, j, hq', hj, hk'⟩ := h.child hk hq
      by_cases hqp' : q' = p
      · subst hqp'
        obtain ⟨k', hle, hr⟩ := hc q k hq' hq
        exact ⟨q', k', j, by rw [Function.update_self, hr], Nat.lt_of_lt_of_le hj hle, hk'⟩
      · exact ⟨q', k, j, by rw [Function.update_of_ne hqp', hq'], hj, hk'⟩
  fresh {q v i} hq := by
    by_cases hqp : q = p
    · subst hqp
      rw [Function.update_self] at hq
      exact hf v hq i
    · rw [Function.update_of_ne hqp] at hq
      exact h.fresh hq
  pids {q} hq := by
    by_cases hqp : q = p
    · exact hqp ▸ hp
    · rw [Function.update_of_ne hqp] at hq
      exact h.pids hq
  space {q} hq := by
    by_cases hqp : q = p
    · subst hqp
      rw [Function.update_self] at hq
      exact hs hq
    · rw [Function.update_of_ne hqp] at hq
      exact h.space hq

theorem updateAs (h : Peopled n E role hasAs)
    (hb : b = true ∨ (role p).needs = false ∧ ∀ i v, ¬ Key n E i v p) :
    Peopled n E role (Function.update hasAs p b) where
  user := h.user
  unique := h.unique
  live {i v q} hk := by
    refine ⟨?_, (h.live hk).2⟩
    by_cases hq : q = p
    · subst hq
      rw [Function.update_self]
      exact hb.resolve_right fun hn => hn.2 i v hk
    · rw [Function.update_of_ne hq]
      exact (h.live hk).1
  child := h.child
  fresh := h.fresh
  pids := h.pids
  space {q} hq := by
    by_cases hqp : q = p
    · subst hqp
      rw [Function.update_self]
      apply hb.resolve_right
      intro hn
      rw [hn.1] at hq
      cases hq
    · rw [Function.update_of_ne hqp]
      exact h.space hq

theorem insert (h : Peopled n E role hasAs) (hi : ∀ v p, ¬ Key n E i v p)
    (hv : UserAddr e.page) (hp : PidOk e.pid) (hnew : ∀ j, ¬ Key n E j e.page e.pid)
    (ha : hasAs e.pid = true) (ho : (role e.pid).owns = true)
    (hc : role e.pid = .embryo →
      ∃ q k j, role q = .forking e.pid k ∧ j < k ∧ Key n E j e.page q)
    (hf : role e.pid ≠ .seeking e.page) : Peopled n (Function.update E i e) role hasAs where
  user hk := by
    rcases key_set.1 hk with ⟨-, -, -, rfl, rfl⟩ | ⟨-, hk⟩
    · exact ⟨hv, hp⟩
    · exact h.user hk
  unique hk hk' := by
    rcases key_set.1 hk with ⟨rfl, -, -, rfl, rfl⟩ | ⟨-, h₁⟩
    · rcases key_set.1 hk' with ⟨rfl, -⟩ | ⟨-, h₂⟩
      · rfl
      · exact (hnew _ h₂).elim
    · rcases key_set.1 hk' with ⟨rfl, -, -, rfl, rfl⟩ | ⟨-, h₂⟩
      · exact (hnew _ h₁).elim
      · exact h.unique h₁ h₂
  live hk := by
    rcases key_set.1 hk with ⟨-, -, -, rfl, rfl⟩ | ⟨-, hk⟩
    · exact ⟨ha, ho⟩
    · exact h.live hk
  child hk hq := by
    have hkeep : ∀ j w q, Key n E j w q → Key n (Function.update E i e) j w q := by
      intro j w q hk
      exact key_set.2 (.inr ⟨fun hj => hi w q (hj ▸ hk), hk⟩)
    rcases key_set.1 hk with ⟨-, -, -, rfl, rfl⟩ | ⟨-, hk⟩
    · obtain ⟨q, k, j, hq', hj, hk'⟩ := hc hq
      exact ⟨q, k, j, hq', hj, hkeep _ _ _ hk'⟩
    · obtain ⟨q, k, j, hq', hj, hk'⟩ := h.child hk hq
      exact ⟨q, k, j, hq', hj, hkeep _ _ _ hk'⟩
  fresh hq hk := by
    rcases key_set.1 hk with ⟨-, -, -, rfl, rfl⟩ | ⟨-, hk⟩
    · exact hf hq
    · exact h.fresh hq hk
  pids := h.pids
  space := h.space

theorem erase (h : Peopled n E role hasAs) (hu : e.user = false)
    (hf : ∀ v p c k, Key n E i v p → role p ≠ .forking c k) :
    Peopled n (Function.update E i e) role hasAs := by
  have hkey : ∀ j w q, Key n (Function.update E i e) j w q ↔ j ≠ i ∧ Key n E j w q := by
    intro j w q
    rw [key_set]
    simp [hu]
  constructor
  · intro j v p hk
    exact h.user ((hkey _ _ _).1 hk).2
  · intro j v p j' hk hk'
    exact h.unique ((hkey _ _ _).1 hk).2 ((hkey _ _ _).1 hk').2
  · intro j v p hk
    exact h.live ((hkey _ _ _).1 hk).2
  · intro j v p hk hq
    obtain ⟨q, k, j', hq', hj, hk'⟩ := h.child ((hkey _ _ _).1 hk).2 hq
    refine ⟨q, k, j', hq', hj, (hkey _ _ _).2 ⟨?_, hk'⟩⟩
    rintro rfl
    exact hf v q p k hk' hq'
  · intro q v j hq hk
    exact h.fresh hq ((hkey _ _ _).1 hk).2
  · exact h.pids
  · exact h.space

end Peopled

end Clape
