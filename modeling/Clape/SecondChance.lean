import Clape.KernelFrames

namespace Clape
set_option autoImplicit true

/-- The index that `find_victim` looks at in step `k`. -/
def PageTable.turn (pt : PageTable) (k : Nat) : Nat := (pt.lastIndex + k) % pt.nEntry

/-- The indices that it looked at before step `k`. -/
def PageTable.turns (pt : PageTable) (k : Nat) : List Nat := (List.range k).map pt.turn

/-- The entries after the reference bits of the eligible ones among the given indices were
cleared. -/
def cleared (E : Nat → PtEntry) (l : List Nat) (i : Nat) : PtEntry :=
  if i ∈ l ∧ (E i).eligible = true then (E i).setReference false else E i

theorem cleared_eligible (E : Nat → PtEntry) (l : List Nat) (i : Nat) :
    (cleared E l i).eligible = (E i).eligible := by
  unfold cleared
  split
  · rfl
  · rfl

theorem cleared_cons (hj : j ∉ l) (he : (E j).eligible = true) :
    cleared (Function.update E j ((E j).setReference false)) l = cleared E (j :: l) := by
  funext i
  unfold cleared
  by_cases hi : i = j
  · subst hi
    rw [Function.update_self, if_neg fun h => hj h.1, if_pos ⟨List.mem_cons_self, he⟩]
  · simp only [Function.update_of_ne hi, List.mem_cons, hi, false_or]

theorem cleared_cons_skip (he : (E j).eligible = false) : cleared E l = cleared E (j :: l) := by
  funext i
  unfold cleared
  by_cases hi : i = j
  · subst hi
    rw [if_neg fun h => Bool.false_ne_true (he.symm.trans h.2),
      if_neg fun h => Bool.false_ne_true (he.symm.trans h.2)]
  · simp only [List.mem_cons, hi, false_or]

/-- The loop passes over the eligible entries with the reference bit set, and clears it. -/
theorem victimSweep_pass (hnd : l.Nodup)
    (h : ∀ i ∈ l, (E i).eligible = true → (E i).ctrl.reference = true) :
    victimSweep E (l ++ r) = victimSweep (cleared E l) r := by
  induction l generalizing E with
  | nil =>
    have hnil : cleared E [] = E := by
      funext i
      exact if_neg fun h => List.not_mem_nil h.1
    rw [hnil]
    rfl
  | cons j l ih =>
    obtain ⟨hj, hnd⟩ := List.nodup_cons.1 hnd
    have hne : ∀ i ∈ l, i ≠ j := by
      intro i hi he
      exact hj (he ▸ hi)
    rw [List.cons_append, victimSweep]
    cases he : (E j).eligible with
    | true =>
      rw [if_pos rfl, if_pos (h j List.mem_cons_self he), ih hnd, cleared_cons hj he]
      intro i hi
      rw [Function.update_of_ne (hne i hi)]
      exact h i (List.mem_cons_of_mem j hi)
    | false =>
      rw [if_neg Bool.false_ne_true, ih hnd, cleared_cons_skip he]
      exact fun i hi => h i (List.mem_cons_of_mem j hi)

theorem victimSweep_skip (h : ∀ i ∈ l, (E i).eligible = false) :
    victimSweep E (l ++ r) = victimSweep E r := by
  induction l with
  | nil => rfl
  | cons j l ih =>
    rw [List.cons_append, victimSweep, h j List.mem_cons_self, if_neg Bool.false_ne_true]
    exact ih fun i hi => h i (List.mem_cons_of_mem j hi)

theorem victimSweep_stop (he : (E i).eligible = true) (hr : (E i).ctrl.reference = false) :
    victimSweep E (i :: r) = (E, some i) := by
  rw [victimSweep, if_pos he, hr, if_neg Bool.false_ne_true]

theorem victimSweep_found (h : victimSweep E l = (E', some i)) (r : List Nat) :
    victimSweep E (l ++ r) = (E', some i) := by
  induction l generalizing E with
  | nil => cases h
  | cons j l ih =>
    rw [victimSweep] at h
    rw [List.cons_append, victimSweep]
    cases he : (E j).eligible with
    | true =>
      rw [he, if_pos rfl] at h
      rw [if_pos rfl]
      cases hr : (E j).ctrl.reference with
      | true =>
        rw [hr, if_pos rfl] at h
        exact ih h
      | false =>
        rw [hr, if_neg Bool.false_ne_true] at h
        exact h
    | false =>
      rw [he, if_neg Bool.false_ne_true] at h
      exact ih h

namespace PageTable
variable {pt : PageTable}

theorem turns_succ (k : Nat) : pt.turns (k + 1) = pt.turns k ++ [pt.turn k] := by
  unfold turns
  rw [List.range_succ, List.map_append]
  rfl

theorem mem_turns : i ∈ pt.turns k ↔ ∃ j < k, pt.turn j = i := by
  unfold turns
  simp only [List.mem_map, List.mem_range]

theorem turn_lt (hn : 0 < pt.nEntry) (k : Nat) : pt.turn k < pt.nEntry := Nat.mod_lt _ hn

theorem turn_add (k : Nat) : pt.turn (pt.nEntry + k) = pt.turn k := by
  unfold turn
  rw [show pt.lastIndex + (pt.nEntry + k) = pt.lastIndex + k + pt.nEntry by omega, Nat.add_mod_right]

theorem turn_inj (hj : j < pt.nEntry) (hk : k < pt.nEntry) (h : pt.turn j = pt.turn k) : j = k := by
  have hmod : j ≡ k [MOD pt.nEntry] := Nat.ModEq.add_left_cancel' pt.lastIndex h
  exact Nat.ModEq.eq_of_lt_of_lt hmod hj hk

theorem exists_turn (hl : pt.lastIndex < pt.nEntry) (hi : i < pt.nEntry) :
    ∃ k < pt.nEntry, pt.turn k = i := by
  refine ⟨(i + (pt.nEntry - pt.lastIndex)) % pt.nEntry, Nat.mod_lt _ (by omega), ?_⟩
  unfold turn
  rw [Nat.add_mod_mod, show pt.lastIndex + (i + (pt.nEntry - pt.lastIndex)) = i + pt.nEntry by omega,
    Nat.add_mod_right, Nat.mod_eq_of_lt hi]

theorem turns_nodup (hk : k ≤ pt.nEntry) : (pt.turns k).Nodup := by
  apply List.Nodup.map_on _ List.nodup_range
  intro a ha b hb h
  rw [List.mem_range] at ha hb
  exact turn_inj (by omega) (by omega) h

theorem victimOrder_eq : pt.victimOrder pt.lastIndex = pt.turns (3 * pt.nEntry) := rfl

theorem turns_prefix (hk : k ≤ m) : ∃ r, pt.turns m = pt.turns k ++ r := by
  induction m with
  | zero =>
    cases Nat.le_zero.1 hk
    exact ⟨[], rfl⟩
  | succ m ih =>
    by_cases he : k = m + 1
    · exact ⟨[], by rw [he, List.append_nil]⟩
    · obtain ⟨r, hr⟩ := ih (by omega)
      exact ⟨r ++ [pt.turn m], by rw [turns_succ, hr, List.append_assoc]⟩

/-- The second-chance rule: the first eligible entry with a clear reference bit, in the order of
the turn; or, when all eligible entries have the bit set, the first eligible entry, a turn
later. -/
def Chosen (pt : PageTable) (k : Nat) : Prop :=
  (k < pt.nEntry ∧ (pt.entries (pt.turn k)).eligible = true ∧
    (pt.entries (pt.turn k)).ctrl.reference = false ∧
    ∀ j < k, (pt.entries (pt.turn j)).eligible = true → (pt.entries (pt.turn j)).ctrl.reference = true) ∨
  ((∀ i < pt.nEntry, (pt.entries i).eligible = true → (pt.entries i).ctrl.reference = true) ∧
    ∃ j < pt.nEntry, k = pt.nEntry + j ∧ (pt.entries (pt.turn j)).eligible = true ∧
      ∀ m < j, (pt.entries (pt.turn m)).eligible = false)

theorem exists_chosen (hl : pt.lastIndex < pt.nEntry)
    (hel : ∃ i < pt.nEntry, (pt.entries i).eligible = true) : ∃ k, pt.Chosen k := by
  by_cases hall : ∀ i < pt.nEntry, (pt.entries i).eligible = true → (pt.entries i).ctrl.reference = true
  · obtain ⟨i, hi, he⟩ := hel
    obtain ⟨k, hk, rfl⟩ := exists_turn hl hi
    have hex : ∃ k, (pt.entries (pt.turn k)).eligible = true := ⟨k, he⟩
    refine ⟨pt.nEntry + Nat.find hex, .inr ⟨hall, Nat.find hex, ?_, rfl, Nat.find_spec hex, ?_⟩⟩
    · exact Nat.lt_of_le_of_lt (Nat.find_min' hex he) hk
    · intro m hm
      exact Bool.eq_false_iff.2 (Nat.find_min hex hm)
  · simp only [not_forall, Bool.not_eq_true] at hall
    obtain ⟨i, hi, he, hr⟩ := hall
    obtain ⟨k, hk, rfl⟩ := exists_turn hl hi
    have hex : ∃ k, (pt.entries (pt.turn k)).eligible = true ∧
        (pt.entries (pt.turn k)).ctrl.reference = false := ⟨k, he, hr⟩
    refine ⟨Nat.find hex, .inl ⟨?_, (Nat.find_spec hex).1, (Nat.find_spec hex).2, ?_⟩⟩
    · exact Nat.lt_of_le_of_lt (Nat.find_min' hex ⟨he, hr⟩) hk
    · intro j hj hej
      by_contra hrj
      exact Nat.find_min hex hj ⟨hej, Bool.eq_false_iff.2 hrj⟩

theorem Chosen.lt (h : pt.Chosen k) : k < 2 * pt.nEntry := by
  obtain ⟨hk, -⟩ | ⟨-, j, hj, rfl, -⟩ := h
  · omega
  · omega

theorem Chosen.eligible (h : pt.Chosen k) : (pt.entries (pt.turn k)).eligible = true := by
  obtain ⟨-, he, -⟩ | ⟨-, j, hj, rfl, he, -⟩ := h
  · exact he
  · rw [turn_add]
    exact he

theorem cleared_turns (hl : pt.lastIndex < pt.nEntry) (E : Nat → PtEntry) (j : Nat) :
    cleared E (pt.turns (pt.nEntry + j)) = cleared E (pt.turns pt.nEntry) := by
  have hmem : ∀ i, i ∈ pt.turns (pt.nEntry + j) ↔ i ∈ pt.turns pt.nEntry := by
    intro i
    rw [mem_turns, mem_turns]
    constructor
    · rintro ⟨m, -, rfl⟩
      exact exists_turn hl (turn_lt (by omega) m)
    · rintro ⟨m, hm, rfl⟩
      exact ⟨m, by omega, rfl⟩
  funext i
  unfold cleared
  simp only [hmem i]

/-- The search stops at the entry that the rule says, after it cleared the reference bits of the
eligible entries before. -/
theorem Chosen.sweep (h : pt.Chosen k) (hl : pt.lastIndex < pt.nEntry) :
    victimSweep pt.entries (pt.turns (k + 1)) = (cleared pt.entries (pt.turns k), some (pt.turn k)) := by
  rw [turns_succ]
  obtain ⟨hk, he, hr, hpass⟩ | ⟨hall, j, hj, rfl, he, hskip⟩ := h
  · have hnot : pt.turn k ∉ pt.turns k := by
      intro hm
      obtain ⟨j, hj, ht⟩ := mem_turns.1 hm
      have := turn_inj (by omega) hk ht
      omega
    have hsame : cleared pt.entries (pt.turns k) (pt.turn k) = pt.entries (pt.turn k) :=
      if_neg fun h => hnot h.1
    rw [victimSweep_pass (turns_nodup (Nat.le_of_lt hk))]
    · apply victimSweep_stop
      · rw [hsame]
        exact he
      · rw [hsame]
        exact hr
    · intro i hi
      obtain ⟨j, hj, rfl⟩ := mem_turns.1 hi
      exact hpass j hj
  · have hsplit : pt.turns (pt.nEntry + j) = pt.turns pt.nEntry ++ pt.turns j := by
      unfold turns
      rw [List.range_add, List.map_append, List.map_map]
      exact congrArg _ (List.map_congr_left fun m _ => turn_add m)
    rw [cleared_turns hl, turn_add, hsplit, List.append_assoc,
      victimSweep_pass (turns_nodup (Nat.le_refl _)), victimSweep_skip]
    · apply victimSweep_stop
      · rw [cleared_eligible]
        exact he
      · have hm : pt.turn j ∈ pt.turns pt.nEntry := mem_turns.2 ⟨j, hj, rfl⟩
        unfold cleared
        rw [if_pos ⟨hm, he⟩]
        rfl
    · intro i hi
      obtain ⟨m, hm, rfl⟩ := mem_turns.1 hi
      rw [cleared_eligible]
      exact hskip m hm
    · intro i hi
      obtain ⟨m, hm, rfl⟩ := mem_turns.1 hi
      exact hall _ (turn_lt (by omega) m)

theorem Chosen.seekVictim (h : pt.Chosen k) (hl : pt.lastIndex < pt.nEntry) :
    pt.seekVictim pt.lastIndex = (cleared pt.entries (pt.turns k), some (pt.turn k)) := by
  obtain ⟨r, hr⟩ := turns_prefix (k := k + 1) (m := 3 * pt.nEntry) (by have := h.lt; omega)
  unfold PageTable.seekVictim
  rw [victimOrder_eq, hr]
  exact victimSweep_found (h.sweep hl) r

end PageTable

/-- The state after `find_victim` took entry `i` for a page, when it passed over the entries `l`. -/
def Ipt.replaced (s : Ipt) (v p i : Nat) (l : List Nat) (ht : HashTable) : Ipt where
  pt := { s.pt with
    entries := Function.update (cleared s.pt.entries l) i { page := v, pid := p, ctrl := {
      validity := true, reference := false, tlb := false, io := true, swap := false } }
    lastIndex := (i + 1) % s.pt.nEntry }
  ht := ht
  stores := s.stores ++ if (s.pt.entries i).ctrl.validity
    then [⟨(s.pt.entries i).page, (s.pt.entries i).pid, i⟩] else []

/-- What `find_victim` does with the hash table when it takes entry `i`. -/
def Ipt.rehash (s : Ipt) (v p i : Nat) : Except Fault HashTable := do
  let e := s.pt.entries i
  let ht ← if e.ctrl.validity then s.ht.removeFromHash e.page e.pid else pure s.ht
  ht.addInHash v p i

theorem PtEntry.eligible_bits {e : PtEntry} (h : e.eligible = true) :
    e.ctrl.tlb = false ∧ e.ctrl.io = false ∧ e.page ≠ kmallocPage ∧ e.ctrl.swap = false := by
  simp only [PtEntry.eligible, Bool.and_eq_true, Bool.not_eq_true', bne_iff_ne] at h
  exact ⟨h.1.1.1, h.1.1.2, h.1.2, h.2⟩

/-- `find_victim` once its search has stopped at entry `i`. -/
theorem Ipt.findVictim_eq {s : Ipt} (hs : s.pt.seekVictim s.pt.lastIndex = (cleared s.pt.entries l, some i))
    (v p : Nat) :
    s.findVictim v p = (do
      let ht ← s.rehash v p i
      return (s.replaced v p i l ht, some i)) := by
  obtain ⟨-, hvic⟩ := victimSweep_spec s.pt.entries (s.pt.victimOrder s.pt.lastIndex)
  unfold PageTable.seekVictim at hs
  rw [hs] at hvic
  have hel : (cleared s.pt.entries l i).eligible = true := (hvic i rfl).2.1
  have href : (cleared s.pt.entries l i).ctrl.reference = false := (hvic i rfl).2.2
  obtain ⟨htlb, hio, hpg, hsw⟩ := PtEntry.eligible_bits hel
  obtain ⟨hp, hq, hval⟩ : (cleared s.pt.entries l i).page = (s.pt.entries i).page ∧
      (cleared s.pt.entries l i).pid = (s.pt.entries i).pid ∧
      (cleared s.pt.entries l i).ctrl.validity = (s.pt.entries i).ctrl.validity := by
    unfold cleared
    split
    · exact ⟨rfl, rfl, rfl⟩
    · exact ⟨rfl, rfl, rfl⟩
  rw [hp] at hpg
  unfold Ipt.findVictim Ipt.findVictimFrom PageTable.seekVictim Ipt.rehash Ipt.replaced
  rw [hs]
  simp only [Ipt.claimVictim, Ipt.hashVictim, htlb, hio, hpg, hsw, hval, hp, hq, kassert, bind, Except.bind,
    Bool.not_false, bne_iff_ne, ne_eq, not_false_eq_true, if_true, PageTable.set, PtEntry.claim]
  cases hv : (s.pt.entries i).ctrl.validity with
  | true =>
    simp only [if_true]
    cases s.ht.removeFromHash (s.pt.entries i).page (s.pt.entries i).pid with
    | error e => rfl
    | ok ht =>
      simp only [pure, Except.pure]
      cases ht.addInHash v p i with
      | error e => rfl
      | ok ht' => simp [href]
  | false =>
    simp only [Bool.false_eq_true, if_false, pure, Except.pure]
    cases s.ht.addInHash v p i with
    | error e => rfl
    | ok ht' => simp [href]

theorem Ipt.Inv.rehash {s : Ipt} (h : Ipt.Inv N s) (hi : i < N) (hpg : (s.pt.entries i).page ≠ kmallocPage)
    (hnew : ∀ j, s.pt.keys j ≠ some (v, p)) : ∃ ht, s.rehash v p i = .ok ht := by
  obtain ⟨L, hL⟩ := h.rep
  have hadd : ∀ (ht : HashTable) K L, ht.pool = N → ht.Rep K L → K i = none →
      (∀ j, K j ≠ some (v, p)) → ∃ ht', ht.addInHash v p i = .ok ht' := by
    intro ht K L hpool hrep hnone hK
    obtain ⟨ht', L', he, -⟩ := hrep.addInHash (by rw [hpool]; exact hi) hnone hK
    exact ⟨ht', he⟩
  unfold Ipt.rehash
  cases hv : (s.pt.entries i).ctrl.validity with
  | true =>
    have hu : (s.pt.entries i).user = true := PtEntry.user_iff.2 ⟨hv, hpg⟩
    obtain ⟨ht, L', he, -, hpool, hrep⟩ := hL.removeFromHash
      (PageTable.keys_of_user (h.nEntry ▸ hi : i < s.pt.nEntry) hu)
    simp only [hv, if_true, he]
    apply hadd ht _ L' (hpool.trans h.pool) hrep (Function.update_self ..)
    intro j
    by_cases hj : j = i
    · subst hj
      rw [Function.update_self]
      exact nofun
    · rw [Function.update_of_ne hj]
      exact hnew j
  | false =>
    have hu : (s.pt.entries i).user = false := by simp [PtEntry.user, hv]
    simp only [hv, Bool.false_eq_true, if_false, pure_bind]
    exact hadd s.ht _ L h.pool hL (PageTable.keys_of_not_user hu) hnew

/-- `find_victim` is second chance: it finds a victim within two turns, the one that the rule says;
on its way it cleared the reference bits of the eligible entries that it passed over; it gives the
entry to the new page, stores the old page once if there was one, and lets the next search start
after it. It returns whenever the hash table is that of the page table. -/
theorem find_victim_second_chance {s : Ipt} (hl : s.pt.lastIndex < s.pt.nEntry)
    (hel : ∃ i < s.pt.nEntry, (s.pt.entries i).eligible = true) (v p : Nat) :
    ∃ k, s.pt.Chosen k ∧ k + 1 ≤ 2 * s.pt.nEntry ∧
      (victimSweep s.pt.entries ((s.pt.victimOrder s.pt.lastIndex).take (k + 1))).2 = some (s.pt.turn k) ∧
      (s.findVictim v p = do
        let ht ← s.rehash v p (s.pt.turn k)
        return (s.replaced v p (s.pt.turn k) (s.pt.turns k) ht, some (s.pt.turn k))) ∧
      ∀ N, Ipt.Inv N s → UserAddr v → PidOk p → (∀ j, s.pt.keys j ≠ some (v, p)) →
        ∃ ht, s.findVictim v p =
          .ok (s.replaced v p (s.pt.turn k) (s.pt.turns k) ht, some (s.pt.turn k)) := by
  obtain ⟨k, hk⟩ := PageTable.exists_chosen hl hel
  have hlt := hk.lt
  have heq := Ipt.findVictim_eq (hk.seekVictim hl) v p
  refine ⟨k, hk, hlt, ?_, heq, ?_⟩
  · have htake : (s.pt.victimOrder s.pt.lastIndex).take (k + 1) = s.pt.turns (k + 1) := by
      rw [PageTable.victimOrder_eq]
      unfold PageTable.turns
      rw [← List.map_take, List.take_range, Nat.min_eq_left (by omega)]
    rw [htake, hk.sweep hl]
  · intro N hinv hv hp hnew
    have hi : s.pt.turn k < N := hinv.nEntry ▸ PageTable.turn_lt (by omega) k
    obtain ⟨ht, hht⟩ := hinv.rehash hi (PtEntry.eligible_bits hk.eligible).2.2.1 hnew
    rw [heq, hht]
    exact ⟨ht, rfl⟩

/-- Of four frames the kernel has the last one. Process 2 has pages in the others; the search begins
at frame 1, whose page has been used again, and the page in frame 0 is in the TLB. -/
def secondChanceOps : List PtOp :=
  [.getPage 4096 2, .getPage 8192 2, .getPage 12288 2, .getContiguousPages 1 1,
    .updateTlbBit 4096 2, .updateTlbBit 8192 2, .updateTlbBit 12288 2, .getPage 16384 2,
    .getPage 8192 2, .updateTlbBit 8192 2]

/-- The next victim is frame 2, after the second chance of frame 1. -/
theorem find_victim_second_chance_passed : ∃ s ht,
    Run PtStep (Ipt.boot 4 0 fun _ => ⟨0, 0, .zero⟩) secondChanceOps s ∧
      s.pt.lastIndex = 1 ∧ (s.pt.entries 1).ctrl.reference = true ∧
      s.findVictim 20480 2 = .ok (s.replaced 20480 2 2 [1] ht, some 2) := by
  obtain ⟨s, hrun, hs⟩ := PtOp.run_next (Ipt.boot 4 0 fun _ => ⟨0, 0, .zero⟩) secondChanceOps
    (p := fun s => decide (s.pt.lastIndex = 1 ∧ s.pt.nEntry = 4) &&
      decide (s.pt.entries 1 = ⟨8192, 2, ⟨true, true, false, false, false⟩⟩) &&
      decide (s.pt.entries 2 = ⟨12288, 2, ⟨true, false, false, false, false⟩⟩) &&
      decide (∀ j < s.pt.nEntry, (s.pt.entries j).page ≠ 20480)) (by decide +kernel)
  simp only [Bool.and_eq_true, decide_eq_true_eq] at hs
  obtain ⟨⟨⟨⟨hl, hn⟩, h1⟩, h2⟩, hpg⟩ := hs
  obtain ⟨k, hk, -, -, -, hret⟩ := find_victim_second_chance (s := s) (by omega)
    ⟨1, by omega, by rw [h1]; decide⟩ 20480 2
  have ht0 : s.pt.turn 0 = 1 := by simp [PageTable.turn, hl, hn]
  have ht1 : s.pt.turn 1 = 2 := by simp [PageTable.turn, hl, hn]
  -- frame 1 has its second chance left and frame 2 has not
  have hk1 : k = 1 := by
    obtain ⟨hlt, he, hr, hall⟩ | ⟨hall, -⟩ := hk
    · by_contra hne
      obtain rfl | hk2 : k = 0 ∨ 1 < k := by omega
      · rw [ht0, h1] at hr
        cases hr
      · have hr1 := hall 1 hk2
        rw [ht1, h2] at hr1
        exact absurd (hr1 (by decide)) (by decide)
    · have hr2 := hall 2 (by omega)
      rw [h2] at hr2
      exact absurd (hr2 (by decide)) (by decide)
  obtain ⟨ht, hht⟩ := hret 4 (Ipt.Inv.run hrun) ⟨by decide, by decide⟩ ⟨by decide, by decide⟩ (by
    intro j hj
    obtain ⟨hlt, -, hp, -⟩ := PageTable.keys_some.1 hj
    exact hpg j (by omega) hp)
  subst hk1
  have hturns : s.pt.turns 1 = [1] := by simp [PageTable.turns, ht0]
  rw [ht1, hturns] at hht
  exact ⟨s, ht, hrun, hl, by rw [h1], hht⟩

/-- What the sweeps of `get_contiguous_pages` do to an entry: they clear the reference bit of an
eligible valid one. -/
def Chanced (e e' : PtEntry) : Prop :=
  e' = e ∨ e.eligible = true ∧ e.ctrl.validity = true ∧ e' = e.setReference false

theorem Chanced.trans (h : Chanced a b) (h' : Chanced b c) : Chanced a c := by
  obtain rfl | ⟨he, hv, rfl⟩ := h
  · exact h'
  · obtain rfl | ⟨-, -, rfl⟩ := h'
    · exact .inr ⟨he, hv, rfl⟩
    · exact .inr ⟨he, hv, rfl⟩

theorem chanceSweep_chanced (h : chanceSweep n E l fp = (E', o)) (j : Nat) : Chanced (E j) (E' j) := by
  induction l generalizing E fp with
  | nil =>
    cases h
    exact .inl rfl
  | cons i l ih =>
    rw [chanceSweep] at h
    split at h
    · rename_i hel
      split at h
      · rename_i hrv
        rw [Bool.and_eq_true] at hrv
        refine Chanced.trans ?_ (ih h)
        by_cases hj : j = i
        · subst hj
          rw [Function.update_self]
          exact .inr ⟨hel, hrv.2, rfl⟩
        · rw [Function.update_of_ne hj]
          exact .inl rfl
      · simp only at h
        split at h
        · split at h
          · cases h
            exact .inl rfl
          · exact ih h
        · exact ih h
    · exact ih h

theorem PageTable.chanceSearch_chanced {pt : PageTable} (h : pt.chanceSearch n fp = (E', o)) (j : Nat) :
    Chanced (pt.entries j) (E' j) := by
  unfold PageTable.chanceSearch at h
  split at h
  · rename_i he
    cases h
    exact chanceSweep_chanced he j
  · rename_i he
    have h1 := chanceSweep_chanced he j
    split at h
    · rename_i he'
      cases h
      exact h1.trans (chanceSweep_chanced he' j)
    · rename_i he'
      exact (h1.trans (chanceSweep_chanced he' j)).trans (chanceSweep_chanced h j)

theorem Chanced.key (h : Chanced e e') : e'.page = e.page ∧ e'.pid = e.pid ∧
    e'.eligible = e.eligible ∧ e'.ctrl.validity = e.ctrl.validity := by
  obtain rfl | ⟨-, -, rfl⟩ := h
  · exact ⟨rfl, rfl, rfl, rfl⟩
  · exact ⟨rfl, rfl, rfl, rfl⟩

/-- `get_contiguous_pages(1)` makes progress: while a frame is eligible it does not wait, stops at
no assertion and returns such a frame; in the other entries it clears reference bits of eligible
valid ones at most. -/
theorem kernel_page_progress {s : Ipt}
    (hel : ∃ i < s.pt.nEntry, (s.pt.entries i).eligible = true)
    (hrm : ∀ i < s.pt.nEntry, (s.pt.entries i).eligible = true → (s.pt.entries i).ctrl.validity = true →
      ∃ ht, s.ht.removeFromHash (s.pt.entries i).page (s.pt.entries i).pid = .ok ht) (p : Nat) :
    ∃ t f, s.getContiguousPages p 1 = .ok (t, some f) ∧ f < s.pt.nEntry ∧
      (s.pt.entries f).eligible = true ∧ ∀ j, j ≠ f → Chanced (s.pt.entries j) (t.pt.entries j) := by
  have hnot : ¬ s.pt.nEntry < 1 := by
    obtain ⟨i, hi, -⟩ := hel
    omega
  unfold Ipt.getContiguousPages
  rw [if_neg hnot]
  cases hr : freeRun s.pt.entries 1 (List.range s.pt.nEntry) none with
  | inr r =>
    obtain ⟨f, i⟩ := r
    obtain ⟨hi, hfree, hlen⟩ := freeRun_inr hr
    rw [List.mem_range] at hi
    have hfi : i = f := by omega
    subst hfi
    simp only [Nat.add_sub_cancel_left, List.range'_one, List.foldlM_cons, List.foldlM_nil,
      markFree_ok hfree]
    refine ⟨_, i, rfl, hi, (PtEntry.Spent.of_isFree hfree).1, ?_⟩
    intro j hj
    exact .inl (Function.update_of_ne hj ..)
  | inl fp =>
    have hstart : LastStart s.pt.entries 0 none := by
      intro f hf
      cases hf
    obtain ⟨-, hinl⟩ := freeRun_spec (n := 1) (m := s.pt.nEntry) hstart
    rw [← List.range_eq_range'] at hinl
    unfold Ipt.chanceRun
    cases hc : s.pt.chanceSearch 1 fp with
    | mk E o =>
      cases o with
      | none =>
        obtain ⟨i, hi, he⟩ := hel
        refine absurd ⟨i, hi, ?_⟩ (PageTable.chanceSearch_none (Nat.le_refl 1) hc)
        intro j hj hj'
        rw [show j = i by omega]
        exact he
      | some r =>
        obtain ⟨f, i⟩ := r
        have hlen := PageTable.chanceSearch_length hc
        have hfi : i = f := by omega
        subst hfi
        have hi : i < s.pt.nEntry := PageTable.chanceSearch_lt (by rw [hc])
        obtain ⟨hpg, hpid, hele, hval⟩ := (PageTable.chanceSearch_chanced hc i).key
        have hspent := PageTable.chanceSearch_spent (fun f hf => .of_isFree (hinl fp hr f hf))
          (by decide) hc (Nat.le_refl i) (Nat.le_refl i)
        have heli : (s.pt.entries i).eligible = true := hele.symm.trans hspent.1
        obtain ⟨t, ht, hpt, -⟩ := takeKernel_eq
          (s := { s with pt := { s.pt with entries := E } }) (j := i) hspent (fun hv => by
            have hold := hrm i hi heli (hval.symm.trans hv)
            rw [← hpg, ← hpid] at hold
            exact hold) p
        simp only [hc, Nat.add_sub_cancel_left, List.range'_one, List.foldlM_cons, List.foldlM_nil, ht]
        refine ⟨_, i, rfl, hi, heli, ?_⟩
        intro j hj
        simp only [hpt, PageTable.set, Function.update_of_ne hj]
        exact PageTable.chanceSearch_chanced hc j

/-- One frame with a page that has had its second chance, and one that the kernel has. -/
theorem kernel_page_progress_last : ∃ s : Ipt, s.pt.lastIndex = 1 ∧
    (s.pt.entries 0).ctrl = ⟨true, true, false, false, false⟩ ∧
    (s.pt.entries 1).page = kmallocPage ∧ ∃ t, s.getContiguousPages 1 1 = .ok (t, some 0) := by
  have hex : ((HashTable.init 2).addInHash 4096 1 0).toOption.isSome = true := by decide
  cases hs : (HashTable.init 2).addInHash 4096 1 0 with
  | error e =>
    rw [hs] at hex
    cases hex
  | ok ht =>
    have hrm : (ht.removeFromHash 4096 1).toOption.isSome = true := by
      cases hs
      decide
    cases hr : ht.removeFromHash 4096 1 with
    | error e =>
      rw [hr] at hrm
      cases hrm
    | ok ht' =>
      let s : Ipt := ⟨⟨fun i => if i = 0 then ⟨4096, 1, ⟨true, true, false, false, false⟩⟩
        else ⟨kmallocPage, 1, ⟨true, false, false, false, false⟩⟩, 2, 0, fun _ => -1, 1⟩, ht, []⟩
      obtain ⟨t, f, hg, hf, hel, -⟩ := kernel_page_progress (s := s)
        ⟨0, Nat.zero_lt_two, rfl⟩ (by
          intro i hi he _
          have hi0 : i = 0 := by
            by_contra hne
            simp [s, PtEntry.eligible, kmallocPage, hne] at he
          subst hi0
          exact ⟨ht', hr⟩) 1
      have hf0 : f = 0 := by
        by_contra hne
        simp [s, PtEntry.eligible, kmallocPage, hne] at hel
      rw [hf0] at hg
      exact ⟨s, rfl, rfl, rfl, t, hg⟩

end Clape
