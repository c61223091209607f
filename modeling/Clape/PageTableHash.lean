import Mathlib.Data.Set.Card
import Clape.Outcomes
import Clape.Runs
import Clape.PageTable

namespace Clape
set_option autoImplicit true

/-- The keys of the valid user entries. -/
def PageTable.keys (pt : PageTable) (i : Nat) : Option (Nat × Nat) :=
  if i < pt.nEntry ∧ (pt.entries i).user = true then some ((pt.entries i).page, (pt.entries i).pid)
  else none

theorem PageTable.keys_some {pt : PageTable} :
    pt.keys i = some (v, p) ↔
      i < pt.nEntry ∧ (pt.entries i).user = true ∧ (pt.entries i).page = v ∧
        (pt.entries i).pid = p := by
  unfold PageTable.keys
  split
  · rename_i h
    simp [h]
  · rename_i h
    simp only [reduceCtorEq, false_iff]
    tauto

theorem PageTable.keys_of_user {pt : PageTable} (hi : i < pt.nEntry)
    (hu : (pt.entries i).user = true) :
    pt.keys i = some ((pt.entries i).page, (pt.entries i).pid) := by
  rw [PageTable.keys, if_pos ⟨hi, hu⟩]

theorem PageTable.keys_of_not_user {pt : PageTable} (hu : (pt.entries i).user = false) :
    pt.keys i = none := by
  rw [PageTable.keys, if_neg (by simp [hu])]

/-- Entries that differ in other control bits have the same keys. -/
def SameKey (e e' : PtEntry) : Prop :=
  e'.user = e.user ∧ (e.user = true → e'.page = e.page ∧ e'.pid = e.pid)

theorem SameKey.refl (e : PtEntry) : SameKey e e := ⟨rfl, fun _ => ⟨rfl, rfl⟩⟩

theorem SameKey.trans (h : SameKey a b) (h' : SameKey b c) : SameKey a c := by
  refine ⟨h'.1.trans h.1, fun hu => ?_⟩
  obtain ⟨h1, h2⟩ := h.2 hu
  obtain ⟨h3, h4⟩ := h'.2 (h.1.trans hu)
  exact ⟨h3.trans h1, h4.trans h2⟩

theorem PageTable.keys_congr {pt pt' : PageTable} (hn : pt'.nEntry = pt.nEntry)
    (hs : ∀ i, SameKey (pt.entries i) (pt'.entries i)) : pt'.keys = pt.keys := by
  funext i
  obtain ⟨hu, hk⟩ := hs i
  unfold PageTable.keys
  rw [hn, hu]
  split
  · rename_i h
    rw [(hk h.2).1, (hk h.2).2]
  · rfl

theorem PageTable.keys_set {pt : PageTable} (hi : i < pt.nEntry) :
    (pt.set i e).keys =
      Function.update pt.keys i (if e.user then some (e.page, e.pid) else none) := by
  funext j
  by_cases hj : j = i
  · subst hj
    simp only [PageTable.keys, PageTable.set, Function.update_self, hi, true_and]
  · simp only [PageTable.keys, PageTable.set, Function.update_of_ne hj]

/-- An entry changed in its reference bit at most. -/
def SameButRef (e e' : PtEntry) : Prop := ∃ b, e' = e.setReference b

theorem SameButRef.refl (e : PtEntry) : SameButRef e e := ⟨e.ctrl.reference, rfl⟩

theorem SameButRef.trans (h : SameButRef a b) (h' : SameButRef b c) : SameButRef a c := by
  obtain ⟨x, rfl⟩ := h
  obtain ⟨y, rfl⟩ := h'
  exact ⟨y, rfl⟩

theorem SameButRef.sameKey (h : SameButRef e e') : SameKey e e' := by
  obtain ⟨b, rfl⟩ := h
  exact ⟨rfl, fun _ => ⟨rfl, rfl⟩⟩

theorem sameButRef_update {E F : Nat → PtEntry} (h : ∀ i, SameButRef (E i) (F i))
    (hj : SameButRef (E j) e) : ∀ i, SameButRef (E i) (Function.update F j e i) := by
  intro i
  by_cases hi : i = j
  · subst hi
    simpa using hj
  · simpa [hi] using h i

theorem victimSweep_spec (E : Nat → PtEntry) (l : List Nat) :
    (∀ i, SameButRef (E i) ((victimSweep E l).1 i)) ∧
    ∀ i, (victimSweep E l).2 = some i → i ∈ l ∧ ((victimSweep E l).1 i).eligible = true ∧
      ((victimSweep E l).1 i).ctrl.reference = false := by
  induction l generalizing E with
  | nil => exact ⟨fun i => .refl _, fun i h => by cases h⟩
  | cons j r ih =>
    rw [victimSweep]
    split
    · rename_i he
      split
      · obtain ⟨h1, h2⟩ := ih (Function.update E j ((E j).setReference false))
        refine ⟨fun i => ?_, fun i hi => ?_⟩
        · exact (sameButRef_update (fun i => .refl (E i)) ⟨false, rfl⟩ i).trans (h1 i)
        · obtain ⟨hm, hs⟩ := h2 i hi
          exact ⟨List.mem_cons_of_mem _ hm, hs⟩
      · rename_i hr
        refine ⟨fun i => .refl _, fun i hi => ?_⟩
        cases hi
        exact ⟨List.mem_cons_self, he, by simpa using hr⟩
    · obtain ⟨h1, h2⟩ := ih E
      refine ⟨h1, fun i hi => ?_⟩
      obtain ⟨hm, hs⟩ := h2 i hi
      exact ⟨List.mem_cons_of_mem _ hm, hs⟩

theorem PageTable.victimOrder_lt {pt : PageTable} (hi : i ∈ pt.victimOrder start) :
    i < pt.nEntry := by
  obtain ⟨k, hk, rfl⟩ := List.mem_map.1 hi
  exact Nat.mod_lt _ (by have := List.mem_range.1 hk; omega)

theorem chanceSweep_sameButRef (n : Nat) (E : Nat → PtEntry) (l : List Nat) (fp : Option Nat) :
    ∀ i, SameButRef (E i) ((chanceSweep n E l fp).1 i) := by
  induction l generalizing E fp with
  | nil => exact fun i => .refl _
  | cons j r ih =>
    intro i
    rw [chanceSweep]
    split
    · split
      · exact (sameButRef_update (fun i => .refl (E i)) ⟨false, rfl⟩ i).trans (ih _ _ i)
      · simp only
        split
        · split
          · exact .refl _
          · exact ih _ _ i
        · exact ih _ _ i
    · exact ih _ _ i

theorem PageTable.chanceSearch_sameButRef (pt : PageTable) (n : Nat) (fp : Option Nat) :
    ∀ i, SameButRef (pt.entries i) ((pt.chanceSearch n fp).1 i) := by
  intro i
  have h1 := chanceSweep_sameButRef n pt.entries
    (List.range' pt.lastIndex (pt.nEntry - pt.lastIndex)) fp i
  unfold PageTable.chanceSearch
  split
  · rename_i E r he
    rwa [he] at h1
  · rename_i E he
    rw [he] at h1
    have h2 := chanceSweep_sameButRef n E (List.range pt.nEntry) none i
    split
    · rename_i E' r he'
      rw [he'] at h2
      exact h1.trans h2
    · rename_i E' he'
      rw [he'] at h2
      exact (h1.trans h2).trans (chanceSweep_sameButRef n E' (List.range pt.nEntry) none i)

theorem UserAddr.ne_kmallocPage (h : UserAddr v) : v ≠ kmallocPage := by
  rintro rfl
  exact absurd h.1 (by decide)

theorem PtEntry.claim_user {e : PtEntry} (hv : UserAddr v) : (e.claim v p).user = true :=
  PtEntry.user_iff.2 ⟨rfl, hv.ne_kmallocPage⟩

/-- The invariant between two operations, for a table of `n` entries. -/
structure Ipt.Inv (n : Nat) (s : Ipt) : Prop where
  nEntry : s.pt.nEntry = n
  pool : s.ht.pool = n
  size : s.ht.size = 2 * n
  rep : ∃ L, s.ht.Rep s.pt.keys L
  user : ∀ i < n, (s.pt.entries i).user = true →
    UserAddr (s.pt.entries i).page ∧ PidOk (s.pt.entries i).pid

/-- The stops that are not failures of the hash table. -/
def NotHash (e : Fault) : Prop :=
  e ≠ .kassert .addInHash .pool ∧ e ≠ .panic .removeFromHash ∧
    e ≠ .endless .getIndexFromHash ∧ e ≠ .endless .removeFromHash

theorem sound_kassert {E : Fault → Prop} (h : E (.kassert f c)) :
    Sound E (fun _ => b = true) (kassert b f c) := by
  cases b with
  | true => rfl
  | false => exact h

namespace Ipt.Inv

theorem sameKeys {s : Ipt} {pt : PageTable} (h : Inv n s) (hn : pt.nEntry = s.pt.nEntry)
    (hs : ∀ i, SameKey (s.pt.entries i) (pt.entries i)) : Inv n { s with pt := pt } where
  nEntry := hn.trans h.nEntry
  pool := h.pool
  size := h.size
  rep := by
    simp only [PageTable.keys_congr hn hs]
    exact h.rep
  user i hi hu := by
    simp only at hu ⊢
    obtain ⟨hu', hk⟩ := hs i
    rw [hu] at hu'
    rw [(hk hu'.symm).1, (hk hu'.symm).2]
    exact h.user i hi hu'.symm

theorem set_sameKey {s : Ipt} (h : Inv n s) (he : SameKey (s.pt.entries i) e) :
    Inv n { s with pt := s.pt.set i e } := by
  refine h.sameKeys rfl fun j => ?_
  by_cases hj : j = i
  · subst hj
    simpa [PageTable.set] using he
  · simpa [PageTable.set, hj] using SameKey.refl _

theorem sameButRef {s : Ipt} {pt : PageTable} (h : Inv n s) (hn : pt.nEntry = s.pt.nEntry)
    (hs : ∀ i, SameButRef (s.pt.entries i) (pt.entries i)) : Inv n { s with pt := pt } :=
  h.sameKeys hn fun i => (hs i).sameKey

theorem stores {s : Ipt} (h : Inv n s) (l : List StoreCall) : Inv n { s with stores := l } :=
  ⟨h.nEntry, h.pool, h.size, h.rep, h.user⟩

theorem insert {s : Ipt} {ht : HashTable} (h : Inv n s) (hi : i < n)
    (hu : e.user = true) (hv : UserAddr e.page) (hp : PidOk e.pid) (hpool : ht.pool = s.ht.pool)
    (hsize : ht.size = s.ht.size)
    (hrep : ∃ L, ht.Rep (Function.update s.pt.keys i (some (e.page, e.pid))) L) :
    Inv n { s with pt := s.pt.set i e, ht := ht } where
  nEntry := h.nEntry
  pool := hpool.trans h.pool
  size := hsize.trans h.size
  rep := by
    simp only [PageTable.keys_set (h.nEntry ▸ hi : i < s.pt.nEntry), hu, if_true]
    exact hrep
  user j hj hju := by
    by_cases hji : j = i
    · subst hji
      simpa [PageTable.set] using ⟨hv, hp⟩
    · simp only [PageTable.set, Function.update_of_ne hji] at hju ⊢
      exact h.user j hj hju

theorem erase {s : Ipt} {ht : HashTable} (h : Inv n s) (hi : i < n) (hu : e.user = false)
    (hpool : ht.pool = s.ht.pool) (hsize : ht.size = s.ht.size)
    (hrep : ∃ L, ht.Rep (Function.update s.pt.keys i none) L) :
    Inv n { s with pt := s.pt.set i e, ht := ht } where
  nEntry := h.nEntry
  pool := hpool.trans h.pool
  size := hsize.trans h.size
  rep := by
    simp only [PageTable.keys_set (h.nEntry ▸ hi : i < s.pt.nEntry), hu, Bool.false_eq_true,
      if_false]
    exact hrep
  user j hj hju := by
    by_cases hji : j = i
    · subst hji
      simp [PageTable.set, hu] at hju
    · simp only [PageTable.set, Function.update_of_ne hji] at hju ⊢
      exact h.user j hj hju

end Ipt.Inv

section Operations
variable {n : Nat} {s : Ipt}

theorem removeFromHash_sound (h : Ipt.Inv n s) (hk : s.pt.keys i = some (v, p)) :
    Sound NotHash (fun ht => ht.pool = s.ht.pool ∧ ht.size = s.ht.size ∧
      ∃ L, ht.Rep (Function.update s.pt.keys i none) L) (s.ht.removeFromHash v p) := by
  obtain ⟨L, hL⟩ := h.rep
  obtain ⟨ht, L', he, hsize, hpool, hrep⟩ := hL.removeFromHash hk
  rw [he]
  exact ⟨hpool, hsize, L', hrep⟩

theorem claimVictim_sound (h : Ipt.Inv n s) (hi : i < n) (v p : Nat) :
    Sound NotHash (fun r => r.1.pt = s.pt.set i ((s.pt.entries i).claim v p) ∧
      r.1.ht.pool = s.ht.pool ∧ r.1.ht.size = s.ht.size ∧
      ∃ L, r.1.ht.Rep (Function.update s.pt.keys i none) L) (s.claimVictim v p i) := by
  unfold Ipt.claimVictim
  refine (sound_kassert (by simp [NotHash])).bind fun _ _ => ?_
  refine (sound_kassert (by simp [NotHash])).bind fun _ _ => ?_
  refine (sound_kassert (by simp [NotHash])).bind fun _ _ => ?_
  refine (sound_kassert (by simp [NotHash])).bind fun _ hkm => ?_
  have hk' : (s.pt.entries i).page ≠ kmallocPage := by simpa using hkm
  have hin : i < s.pt.nEntry := h.nEntry ▸ hi
  simp only
  split
  · rename_i hval
    have hu : (s.pt.entries i).user = true := PtEntry.user_iff.2 ⟨hval, hk'⟩
    refine (removeFromHash_sound h (PageTable.keys_of_user hin hu)).bind fun ht hht => ?_
    exact ⟨rfl, hht.1, hht.2.1, hht.2.2⟩
  · rename_i hval
    have hu : (s.pt.entries i).user = false := by simp [PtEntry.user, hval]
    obtain ⟨L, hL⟩ := h.rep
    refine ⟨rfl, rfl, rfl, L, ?_⟩
    rw [← PageTable.keys_of_not_user hu, Function.update_eq_self]
    exact hL

theorem addInHash_claimed (ht : HashTable) (h : Ipt.Inv n s) (hi : i < n) (hpool : ht.pool = s.ht.pool)
    (hrep : ∃ L, ht.Rep (Function.update s.pt.keys i none) L)
    (hnew : ∀ j, s.pt.keys j ≠ some (v, p)) :
    Sound NotHash (fun ht' => ht'.pool = ht.pool ∧ ht'.size = ht.size ∧
      ∃ L, ht'.Rep (Function.update s.pt.keys i (some (v, p))) L) (ht.addInHash v p i) := by
  obtain ⟨L, hL⟩ := hrep
  have hn : ∀ j, Function.update s.pt.keys i none j ≠ some (v, p) := by
    intro j
    by_cases hj : j = i
    · subst hj
      simp
    · simpa [hj] using hnew j
  obtain ⟨ht', L', he, hsize', hpool', hrep'⟩ := hL.addInHash
    (by rw [hpool, h.pool]; exact hi) (Function.update_self ..) hn
  rw [he]
  rw [Function.update_idem] at hrep'
  exact ⟨hpool', hsize', L', hrep'⟩

theorem findVictimFrom_sound (h : Ipt.Inv n s) (hv : UserAddr v) (hp : PidOk p)
    (hnew : ∀ j, s.pt.keys j ≠ some (v, p)) (start : Nat) :
    Sound NotHash (fun r => Ipt.Inv n r.1) (s.findVictimFrom start v p) := by
  obtain ⟨href, hvic⟩ := victimSweep_spec s.pt.entries (s.pt.victimOrder start)
  unfold Ipt.findVictimFrom PageTable.seekVictim
  generalize victimSweep s.pt.entries (s.pt.victimOrder start) = r at href hvic
  obtain ⟨E, o⟩ := r
  have hE : Ipt.Inv n { s with pt := { s.pt with entries := E } } := h.sameButRef rfl href
  have hkeys : ({ s.pt with entries := E } : PageTable).keys = s.pt.keys :=
    PageTable.keys_congr rfl fun i => (href i).sameKey
  cases o with
  | none => exact hE
  | some i =>
    have hi : i < n := h.nEntry ▸ PageTable.victimOrder_lt (hvic i rfl).1
    refine (claimVictim_sound hE hi v p).bind fun r hr => ?_
    obtain ⟨s₁, old⟩ := r
    obtain ⟨hpt, hpool, hsize, hrep⟩ := hr
    simp only at hpt hpool hsize hrep
    have hht : ∀ s₂ : Ipt, s₂.pt = s₁.pt → s₂.ht = s₁.ht →
        Sound NotHash (fun r => Ipt.Inv n r.1) (do
          let s₃ ← s₂.hashVictim v p i
          return (s₃, some i)) := by
      intro s₂ hpt₂ hht₂
      rw [← hht₂] at hpool hsize hrep
      have hadd := addInHash_claimed _ hE hi hpool hrep (by simpa [hkeys] using hnew)
      unfold Ipt.hashVictim
      refine Sound.bind (P := fun s₃ => Ipt.Inv n s₃) ?_ fun s₃ h₃ => h₃
      refine hadd.bind fun ht hadd => ?_
      obtain ⟨hpool', hsize', hrep'⟩ := hadd
      have hins := hE.insert (e := (E i).claim v p) hi (PtEntry.claim_user hv) hv hp
        (hpool'.trans hpool) (hsize'.trans hsize) hrep'
      rw [hpt₂, hpt]
      exact ⟨hins.nEntry, hins.pool, hins.size, hins.rep, hins.user⟩
    cases old with
    | none => exact hht s₁ rfl rfl
    | some o => exact hht _ rfl rfl

theorem getIndexFromHash_sound (h : Ipt.Inv n s) (v p : Nat) :
    Sound NotHash (fun r => (∃ i, r = some i ∧ s.pt.keys i = some (v, p)) ∨
      (r = none ∧ ∀ i, s.pt.keys i ≠ some (v, p))) (s.ht.getIndexFromHash v p) := by
  obtain ⟨L, hL⟩ := h.rep
  by_cases hk : ∃ i, s.pt.keys i = some (v, p)
  · obtain ⟨i, hi⟩ := hk
    rw [hL.getIndexFromHash_some hi]
    exact .inl ⟨i, rfl, hi⟩
  · have hn : ∀ i, s.pt.keys i ≠ some (v, p) := fun i hi => hk ⟨i, hi⟩
    rw [hL.getIndexFromHash_none hn]
    exact .inr ⟨rfl, hn⟩

theorem ptGetPaddr_sound (h : Ipt.Inv n s) (v p : Nat) :
    Sound NotHash (fun r => Ipt.Inv n r.1 ∧
      (r.2 = none → r.1 = s ∧ ∀ i, s.pt.keys i ≠ some (v, p))) (s.ptGetPaddr v p) := by
  unfold Ipt.ptGetPaddr
  refine (getIndexFromHash_sound h v p).bind fun r hr => ?_
  rcases hr with ⟨i, rfl, hi⟩ | ⟨rfl, hn⟩
  · refine (sound_kassert (by simp [NotHash])).bind fun _ _ => ?_
    refine (sound_kassert (by simp [NotHash])).bind fun _ _ => ?_
    refine (sound_kassert (by simp [NotHash])).bind fun _ _ => ?_
    refine (sound_kassert (by simp [NotHash])).bind fun _ _ => ?_
    refine (sound_kassert (by simp [NotHash])).bind fun _ _ => ?_
    exact ⟨h.set_sameKey ⟨rfl, fun _ => ⟨rfl, rfl⟩⟩, fun hf => by cases hf⟩
  · exact ⟨h, fun _ => ⟨rfl, hn⟩⟩

theorem PageTable.findspace_some {pt : PageTable} (h : pt.findspace = some i) :
    i < pt.nEntry ∧ (pt.entries i).isSpace = true := by
  refine ⟨List.mem_range.1 (List.mem_of_find?_eq_some h), ?_⟩
  exact List.find?_some (p := fun i => (pt.entries i).isSpace) h

theorem PtEntry.not_user_of_isSpace {e : PtEntry} (h : e.isSpace = true) : e.user = false := by
  simp only [PtEntry.isSpace, Bool.and_eq_true, Bool.not_eq_true'] at h
  simp [PtEntry.user, h.1.1.1]

theorem claimSpace_sound (h : Ipt.Inv n s) (hv : UserAddr v) (hp : PidOk p)
    (hnew : ∀ j, s.pt.keys j ≠ some (v, p)) (hi : s.pt.findspace = some i) :
    Sound NotHash (fun s' => Ipt.Inv n s') (s.claimSpace v p i) := by
  obtain ⟨hin, hsp⟩ := PageTable.findspace_some hi
  have hk : s.pt.keys i = none := PageTable.keys_of_not_user (PtEntry.not_user_of_isSpace hsp)
  obtain ⟨L, hL⟩ := h.rep
  refine (addInHash_claimed s.ht h (h.nEntry ▸ hin) rfl ⟨L, ?_⟩ hnew).bind fun ht hht => ?_
  · rw [← hk, Function.update_eq_self]
    exact hL
  · exact h.insert (h.nEntry ▸ hin) (PtEntry.claim_user hv) hv hp hht.1 hht.2.1 hht.2.2

theorem Ipt.Inv.pageLoaded (h : Ipt.Inv n s) (i : Nat) :
    Ipt.Inv n { s with pt := s.pt.pageLoaded i } :=
  h.set_sameKey ⟨rfl, fun _ => ⟨rfl, rfl⟩⟩

theorem getPage_sound (h : Ipt.Inv n s) (hv : UserAddr v) (hp : PidOk p) :
    Sound NotHash (fun r => Ipt.Inv n r.1) (s.getPage v p) := by
  unfold Ipt.getPage
  refine (ptGetPaddr_sound h v p).bind fun r hr => ?_
  obtain ⟨s₁, o⟩ := r
  cases o with
  | some i => exact hr.1
  | none =>
    obtain ⟨rfl, hnew⟩ := hr.2 rfl
    simp only
    split
    · rename_i i hi
      exact (claimSpace_sound h hv hp hnew hi).bind fun s₂ h₂ => h₂.pageLoaded i
    · refine (findVictimFrom_sound h hv hp hnew _).bind fun r hr => ?_
      obtain ⟨s₂, o⟩ := r
      cases o with
      | none => exact hr
      | some i => exact hr.pageLoaded i

theorem freePage_sound (h : Ipt.Inv n s) (hi : i < n) (p : Nat) :
    Sound NotHash (fun s' => Ipt.Inv n s') (s.freePage p i) := by
  unfold Ipt.freePage
  simp only
  split
  · rename_i hc
    simp only [Bool.and_eq_true, beq_iff_eq] at hc
    refine (sound_kassert (by simp [NotHash])).bind fun _ _ => ?_
    refine (sound_kassert (by simp [NotHash])).bind fun _ _ => ?_
    refine (sound_kassert (by simp [NotHash])).bind fun _ _ => ?_
    have hk := PageTable.keys_of_user (h.nEntry ▸ hi : i < s.pt.nEntry) hc.2
    rw [hc.1] at hk
    refine (removeFromHash_sound h hk).bind fun ht hht => ?_
    exact h.erase hi rfl hht.1 hht.2.1 hht.2.2
  · exact h

theorem freePages_sound (h : Ipt.Inv n s) (p : Nat) :
    Sound NotHash (fun s' => Ipt.Inv n s') (s.freePages p) := by
  refine Sound.foldlM h fun i hi s hs => ?_
  exact freePage_sound hs (h.nEntry ▸ List.mem_range.1 hi) p

theorem updateTlbBit_sound (h : Ipt.Inv n s) (v p : Nat) :
    Sound NotHash (fun pt => Ipt.Inv n { s with pt := pt }) (s.pt.updateTlbBit v p) := by
  unfold PageTable.updateTlbBit
  split
  · exact h
  · refine (sound_kassert (by simp [NotHash])).bind fun _ _ => ?_
    refine (sound_kassert (by simp [NotHash])).bind fun _ _ => ?_
    exact h.set_sameKey ⟨rfl, fun _ => ⟨rfl, rfl⟩⟩

theorem markCopy_sound (h : Ipt.Inv n s) (hf : NotHash (.kassert f c)) :
    Sound NotHash (fun pt => Ipt.Inv n { s with pt := pt }) (s.pt.markCopy p b f c ok) := by
  refine Sound.foldlM (P := fun pt => Ipt.Inv n { s with pt := pt }) h fun i _ pt hpt => ?_
  split
  · refine (sound_kassert hf).bind fun _ _ => ?_
    exact hpt.set_sameKey ⟨rfl, fun _ => ⟨rfl, rfl⟩⟩
  · exact hpt

theorem freeContiguousPages_sound (h : Ipt.Inv n s) (i : Nat) :
    Sound NotHash (fun pt => Ipt.Inv n { s with pt := pt }) (s.pt.freeContiguousPages i) := by
  unfold PageTable.freeContiguousPages
  refine Sound.bind (P := fun pt => Ipt.Inv n { s with pt := pt }) ?_ fun pt hpt => ?_
  · refine Sound.foldlM h fun j _ pt hpt => ?_
    refine (sound_kassert (by simp [NotHash])).bind fun _ hk => ?_
    have hk' : (pt.entries j).page = kmallocPage := by simpa using hk
    refine hpt.set_sameKey ⟨?_, fun hu => ?_⟩
    · simp [PtEntry.user, hk']
    · simp [PtEntry.user, hk'] at hu
  · exact ⟨hpt.nEntry, hpt.pool, hpt.size, hpt.rep, hpt.user⟩

theorem copyEntry_sound (h : Ipt.Inv n s) (hi : i < n) (hu : (s.pt.entries i).user = true)
    (hp : PidOk new) (hnew : ∀ j, s.pt.keys j ≠ some ((s.pt.entries i).page, new))
    (hpos : s.pt.findspace = some pos) :
    Sound NotHash (fun s' => Ipt.Inv n s' ∧
      s'.pt = s.pt.set pos ((s.pt.entries pos).copyOf (s.pt.entries i) new))
      (s.copyEntry new i pos) := by
  obtain ⟨hin, hsp⟩ := PageTable.findspace_some hpos
  have hk : s.pt.keys pos = none := PageTable.keys_of_not_user (PtEntry.not_user_of_isSpace hsp)
  obtain ⟨L, hL⟩ := h.rep
  unfold Ipt.copyEntry
  refine (addInHash_claimed s.ht h (h.nEntry ▸ hin) rfl ⟨L, ?_⟩ hnew).bind fun ht hht => ?_
  · rw [← hk, Function.update_eq_self]
    exact hL
  refine (sound_kassert (by simp [NotHash])).bind fun _ _ => ?_
  refine (sound_kassert (by simp [NotHash])).bind fun _ _ => ?_
  refine (sound_kassert (by simp [NotHash])).bind fun _ _ => ?_
  refine (sound_kassert (by simp [NotHash])).bind fun _ _ => ?_
  refine ⟨?_, rfl⟩
  have hcopy : ((s.pt.entries pos).copyOf (s.pt.entries i) new).user = true :=
    PtEntry.user_iff.2 ⟨rfl, (PtEntry.user_iff.1 hu).2⟩
  exact h.insert (h.nEntry ▸ hin) hcopy (h.user i hi hu).1 hp hht.1 hht.2.1 hht.2.2

/-- What holds inside the loop of `copy_pt_entries` once the entries in `done` are copied. -/
structure Ipt.Copied (n : Nat) (s₀ : Ipt) (old new : Nat) (done : List Nat) (s : Ipt) : Prop where
  inv : Ipt.Inv n s
  source : ∀ j < n, (s.pt.entries j).user = true → (s.pt.entries j).pid = old →
    (s₀.pt.entries j).user = true ∧ (s₀.pt.entries j).pid = old ∧
      (s₀.pt.entries j).page = (s.pt.entries j).page
  target : ∀ j v, s.pt.keys j = some (v, new) → ∃ i ∈ done, i < n ∧
    s₀.pt.keys i = some (v, old)

theorem copyPage_sound (h₀ : Ipt.Inv n s₀) (hp : PidOk new)
    (hown : ∀ j < n, (s₀.pt.entries j).user = true → (s₀.pt.entries j).pid ≠ new)
    (h : Ipt.Copied n s₀ old new done s) (hi : i < n) (hnot : i ∉ done) :
    Sound NotHash (Ipt.Copied n s₀ old new (done ++ [i])) (s.copyPage old new i) := by
  have hstay : ∀ s' : Ipt, s'.pt = s.pt → s'.ht = s.ht →
      Ipt.Copied n s₀ old new (done ++ [i]) s' := by
    intro s' hpt hht
    refine ⟨⟨?_, ?_, ?_, ?_, ?_⟩, ?_, ?_⟩
    · rw [hpt]; exact h.inv.nEntry
    · rw [hht]; exact h.inv.pool
    · rw [hht]; exact h.inv.size
    · rw [hpt, hht]; exact h.inv.rep
    · rw [hpt]; exact h.inv.user
    · rw [hpt]; exact h.source
    · intro j v hj
      rw [hpt] at hj
      obtain ⟨k, hk, hkn, hkey⟩ := h.target j v hj
      exact ⟨k, List.mem_append_left _ hk, hkn, hkey⟩
  unfold Ipt.copyPage
  simp only
  split
  · rename_i hc
    simp only [Bool.and_eq_true, beq_iff_eq] at hc
    obtain ⟨hu₀, hp₀, hpg₀⟩ := h.source i hi hc.2 hc.1
    have hkey₀ : s₀.pt.keys i = some ((s.pt.entries i).page, old) :=
      PageTable.keys_some.2 ⟨h₀.nEntry ▸ hi, hu₀, hpg₀, hp₀⟩
    split
    · unfold copyStoreAsserts
      refine Sound.bind (P := fun _ => True) ?_ fun _ _ => hstay _ rfl rfl
      refine (sound_kassert (by simp [NotHash])).bind fun _ _ => ?_
      refine (sound_kassert (by simp [NotHash])).bind fun _ _ => ?_
      exact (sound_kassert (by simp [NotHash])).mono fun _ _ => trivial
    · rename_i pos hpos
      have hnew : ∀ j, s.pt.keys j ≠ some ((s.pt.entries i).page, new) := by
        intro j hj
        obtain ⟨k, hk, _, hkey⟩ := h.target j _ hj
        obtain ⟨L, hL⟩ := h₀.rep
        have hki := hL.keys k i _ hkey hkey₀
        exact hnot (hki ▸ hk)
      refine (copyEntry_sound h.inv hi hc.2 hp hnew hpos).mono fun s' hs' => ?_
      obtain ⟨hinv, hpt⟩ := hs'
      obtain ⟨hposn, hsp⟩ := PageTable.findspace_some hpos
      refine ⟨hinv, ?_, ?_⟩
      · intro j hj hju hjp
        rw [hpt] at hju hjp ⊢
        by_cases hjpos : j = pos
        · subst hjpos
          simp only [PageTable.set, Function.update_self, PtEntry.copyOf] at hjp
          exact (hown i hi hu₀ (hp₀.trans hjp.symm)).elim
        · simp only [PageTable.set, Function.update_of_ne hjpos] at hju hjp ⊢
          exact h.source j hj hju hjp
      · intro j v hj
        by_cases hjpos : j = pos
        · subst hjpos
          rw [PageTable.keys_some, hpt] at hj
          simp only [PageTable.set, Function.update_self, PtEntry.copyOf] at hj
          rw [← hj.2.2.1]
          exact ⟨i, by simp, hi, hkey₀⟩
        · rw [hpt, PageTable.keys_set hposn, Function.update_of_ne hjpos] at hj
          obtain ⟨k, hk, hkn, hkey⟩ := h.target j v hj
          exact ⟨k, List.mem_append_left _ hk, hkn, hkey⟩
  · exact hstay _ rfl rfl

theorem copyPtEntries_sound (h : Ipt.Inv n s) (hp : PidOk new)
    (hown : ∀ j < n, (s.pt.entries j).user = true → (s.pt.entries j).pid ≠ new) (old : Nat) :
    Sound NotHash (fun s' => Ipt.Inv n s') (s.copyPtEntries old new) := by
  unfold Ipt.copyPtEntries
  refine Sound.mono (Q := Ipt.Copied n s old new (List.range s.pt.nEntry)) ?_ fun s' hs' => hs'.inv
  refine Sound.foldlM_prefix ⟨h, fun j _ hu hp => ⟨hu, hp, rfl⟩, ?_⟩ ?_
  · intro j v hj
    obtain ⟨hjn, hju, _, hjp⟩ := PageTable.keys_some.1 hj
    exact (hown j (h.nEntry ▸ hjn) hju hjp).elim
  · intro done i rest s₁ hl hs₁
    have hi : i < n := by
      rw [← h.nEntry, ← List.mem_range, hl]
      simp
    have hnd := List.nodup_range (n := s.pt.nEntry)
    rw [hl, List.nodup_middle, List.nodup_cons, List.mem_append, not_or] at hnd
    exact copyPage_sound h hp hown hs₁ hi hnd.1.1

theorem freeRun_inr {E : Nat → PtEntry} (h : freeRun E m l fp = .inr (f, i)) :
    i ∈ l ∧ (E i).isFree = true ∧ i + 1 = f + m := by
  induction l generalizing fp with
  | nil => cases h
  | cons j r ih =>
    rw [freeRun] at h
    split at h
    · rename_i g hg
      split at h
      · rename_i hc
        cases h
        simp only [Bool.and_eq_true, beq_iff_eq] at hc
        exact ⟨List.mem_cons_self, hc⟩
      · obtain ⟨hm, hs⟩ := ih h
        exact ⟨List.mem_cons_of_mem _ hm, hs⟩
    · obtain ⟨hm, hs⟩ := ih h
      exact ⟨List.mem_cons_of_mem _ hm, hs⟩

theorem PtEntry.not_user_of_isFree {e : PtEntry} (h : e.isFree = true) : e.user = false := by
  simp only [PtEntry.isFree, Bool.and_eq_true, Bool.not_eq_true'] at h
  simp [PtEntry.user, h.1.1.1.1]

theorem markFree_sound (h : Ipt.Inv n s) (hi : (s.pt.entries i).user = false) (p j : Nat) :
    Sound NotHash (fun pt => Ipt.Inv n { s with pt := pt } ∧ (pt.entries i).user = false)
      (s.pt.markFree p i j) := by
  unfold PageTable.markFree
  refine (sound_kassert (by simp [NotHash])).bind fun _ _ => ?_
  refine (sound_kassert (by simp [NotHash])).bind fun _ _ => ?_
  refine (sound_kassert (by simp [NotHash])).bind fun _ _ => ?_
  refine (sound_kassert (by simp [NotHash])).bind fun _ _ => ?_
  refine (sound_kassert (by simp [NotHash])).bind fun _ _ => ?_
  refine ⟨h.set_sameKey ⟨?_, fun hu => ?_⟩, ?_⟩
  · rw [hi]
    simp [PtEntry.user]
  · rw [hi] at hu
    cases hu
  · simp [PageTable.set, PtEntry.user]

theorem chanceSweep_mem {E : Nat → PtEntry} (h : (chanceSweep m E l fp).2 = some (f, i)) :
    i ∈ l := by
  induction l generalizing E fp with
  | nil => cases h
  | cons j r ih =>
    rw [chanceSweep] at h
    split at h
    · split at h
      · exact List.mem_cons_of_mem _ (ih h)
      · simp only at h
        split at h
        · split at h
          · cases h
            exact List.mem_cons_self
          · exact List.mem_cons_of_mem _ (ih h)
        · exact List.mem_cons_of_mem _ (ih h)
    · exact List.mem_cons_of_mem _ (ih h)

theorem PageTable.chanceSearch_lt {pt : PageTable} (h : (pt.chanceSearch m fp).2 = some (f, i)) :
    i < pt.nEntry := by
  unfold PageTable.chanceSearch at h
  split at h
  · rename_i E r he
    have hm := chanceSweep_mem (E := pt.entries) (f := f) (i := i) (by rw [he]; exact h)
    have := List.mem_range'_1.1 hm
    omega
  · rename_i E he
    split at h
    · rename_i E' r he'
      have hm := chanceSweep_mem (E := E) (f := f) (i := i) (by rw [he']; exact h)
      exact List.mem_range.1 hm
    · exact List.mem_range.1 (chanceSweep_mem h)

theorem claimKernel_sound (h : Ipt.Inv n s) (hj : j < n) (p : Nat) :
    Sound NotHash (fun r => Ipt.Inv n r.1 ∧ (r.1.pt.entries j).user = false)
      (s.claimKernel p j) := by
  have hkern : ∀ io, ((s.pt.entries j).kmalloc p io).user = false := by
    intro io
    simp [PtEntry.user, PtEntry.kmalloc]
  unfold Ipt.claimKernel
  refine (sound_kassert (by simp [NotHash])).bind fun _ hkm => ?_
  refine (sound_kassert (by simp [NotHash])).bind fun _ _ => ?_
  refine (sound_kassert (by simp [NotHash])).bind fun _ _ => ?_
  refine (sound_kassert (by simp [NotHash])).bind fun _ _ => ?_
  refine (sound_kassert (by simp [NotHash])).bind fun _ _ => ?_
  split
  · rename_i hval
    have hu : (s.pt.entries j).user = true := PtEntry.user_iff.2 ⟨hval, by simpa using hkm⟩
    have hk := PageTable.keys_of_user (h.nEntry ▸ hj : j < s.pt.nEntry) hu
    refine (removeFromHash_sound h hk).bind fun ht hht => ?_
    refine ⟨h.erase hj (hkern true) hht.1 hht.2.1 hht.2.2, ?_⟩
    simpa [PageTable.set] using hkern true
  · rename_i hval
    have hu : (s.pt.entries j).user = false := by simp [PtEntry.user, hval]
    refine ⟨h.set_sameKey ⟨(hkern _).trans hu.symm, fun hf => ?_⟩, ?_⟩
    · rw [hu] at hf
      cases hf
    · simpa [PageTable.set] using hkern _

theorem takeKernel_sound (h : Ipt.Inv n s) (hj : j < n) (p : Nat) :
    Sound NotHash (fun s' => Ipt.Inv n s') (s.takeKernel p j) := by
  unfold Ipt.takeKernel
  refine (claimKernel_sound h hj p).bind fun r hr => ?_
  obtain ⟨s₁, o⟩ := r
  cases o with
  | none => exact hr.1
  | some o =>
    obtain ⟨ov, op⟩ := o
    exact (hr.1.set_sameKey (i := j) (e := (s₁.pt.entries j).setIo false)
      ⟨rfl, fun _ => ⟨rfl, rfl⟩⟩).stores _

theorem chanceRun_sound (h : Ipt.Inv n s) (p m : Nat) (fp : Option Nat) :
    Sound NotHash (fun r => Ipt.Inv n r.1) (s.chanceRun p m fp) := by
  have href := s.pt.chanceSearch_sameButRef m fp
  have hlt := fun f i => @PageTable.chanceSearch_lt m fp f i s.pt
  unfold Ipt.chanceRun
  generalize s.pt.chanceSearch m fp = r at href hlt
  obtain ⟨E, o⟩ := r
  cases o with
  | none => exact h.sameButRef rfl href
  | some o =>
    obtain ⟨f, i⟩ := o
    have hi : i < n := h.nEntry ▸ hlt f i rfl
    refine Sound.bind (P := fun s' => Ipt.Inv n s') ?_ fun s₁ h₁ => ?_
    · refine Sound.foldlM (h.sameButRef rfl href) fun j hj s hs => ?_
      have := List.mem_range'_1.1 hj
      exact takeKernel_sound hs (by omega) p
    · exact ⟨h₁.nEntry, h₁.pool, h₁.size, h₁.rep, h₁.user⟩

theorem getContiguousPages_sound (h : Ipt.Inv n s) (p m : Nat) :
    Sound NotHash (fun r => Ipt.Inv n r.1) (s.getContiguousPages p m) := by
  unfold Ipt.getContiguousPages
  split
  · simp [Sound, NotHash]
  · split
    · rename_i f i hrun
      have hfree := PtEntry.not_user_of_isFree (freeRun_inr hrun).2.1
      refine Sound.bind (P := fun pt => Ipt.Inv n { s with pt := pt } ∧
        (pt.entries i).user = false) ?_ fun pt hpt => ?_
      · refine Sound.foldlM ⟨h, hfree⟩ fun j _ pt hpt => ?_
        exact markFree_sound hpt.1 hpt.2 p j
      · have h₁ := hpt.1
        exact ⟨h₁.nEntry, h₁.pool, h₁.size, h₁.rep, h₁.user⟩
    · exact chanceRun_sound h p m _

end Operations

end Clape
