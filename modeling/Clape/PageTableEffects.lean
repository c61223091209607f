import Clape.PageTableHash
import Clape.ContiguousSearch
import Clape.Tlb

namespace Clape
set_option autoImplicit true

section Effects
variable {s t : Ipt} {pt pt' : PageTable}

theorem ptGetPaddr_some (h : s.ptGetPaddr v p = .ok (t, some i)) :
    s.ht.getIndexFromHash v p = .ok (some i) ∧ (s.pt.entries i).pid = p ∧
      (s.pt.entries i).page = v ∧ v ≠ kmallocPage ∧ (s.pt.entries i).ctrl.io = false ∧
      (s.pt.entries i).ctrl.tlb = false ∧
      t = { s with pt := s.pt.set i ((s.pt.entries i).setTlb true) } := by
  obtain ⟨o, ho, h⟩ := bind_ok.1 h
  cases o with
  | none => cases h
  | some j =>
    simp only [bind_ok, kassert_ok, beq_iff_eq, bne_iff_ne, Bool.not_eq_true'] at h
    obtain ⟨_, hpid, _, hpg, _, hk, _, hio, _, htlb, h⟩ := h
    cases h
    exact ⟨ho, hpid, hpg, hpg ▸ hk, hio, htlb, rfl⟩

theorem ptGetPaddr_none (h : s.ptGetPaddr v p = .ok (t, none)) :
    s.ht.getIndexFromHash v p = .ok none := by
  obtain ⟨o, ho, h⟩ := bind_ok.1 h
  cases o with
  | none => exact ho
  | some j =>
    simp only [bind_ok] at h
    obtain ⟨_, _, _, _, _, _, _, _, _, _, h⟩ := h
    cases h

theorem updateTlbBit_ok (h : pt.updateTlbBit v p = .ok pt') :
    pt' = pt ∧ (∀ i < pt.nEntry, (pt.entries i).ctrl.validity = true →
      (pt.entries i).page = v → (pt.entries i).pid ≠ p) ∨
    ∃ i < pt.nEntry, (pt.entries i).pid = p ∧ (pt.entries i).page = v ∧ v ≠ kmallocPage ∧
      (pt.entries i).ctrl.validity = true ∧ (pt.entries i).ctrl.tlb = true ∧
      pt' = pt.set i (((pt.entries i).setTlb false).setReference true) := by
  unfold PageTable.updateTlbBit at h
  split at h
  · rename_i hn
    cases h
    apply Or.inl
    apply And.intro rfl
    intro i hi hv hpg hpid
    have := List.find?_eq_none.1 hn i (List.mem_range.2 hi)
    simp [hv, hpg, hpid] at this
  · rename_i i hi
    have hmem := List.mem_range.1 (List.mem_of_find?_eq_some hi)
    have htest := List.find?_some hi
    simp only [Bool.and_eq_true, beq_iff_eq] at htest
    simp only [bind_ok, kassert_ok, bne_iff_ne] at h
    obtain ⟨_, hk, _, htlb, h⟩ := h
    cases h
    exact .inr ⟨i, hmem, htest.1.1, htest.1.2, htest.1.2 ▸ hk, htest.2, htlb, rfl⟩

theorem claimSpace_ok (h : s.claimSpace v p i = .ok t) :
    s.ht.addInHash v p i = .ok t.ht ∧ t.pt = s.pt.set i ((s.pt.entries i).claim v p) := by
  obtain ⟨ht, hht, h⟩ := bind_ok.1 h
  cases h
  exact ⟨hht, rfl⟩

theorem hashVictim_ok (h : s.hashVictim v p i = .ok t) :
    s.ht.addInHash v p i = .ok t.ht ∧
      t.pt = { s.pt with lastIndex := (i + 1) % s.pt.nEntry } := by
  obtain ⟨ht, hht, h⟩ := bind_ok.1 h
  cases h
  exact ⟨hht, rfl⟩

/-- An entry that may be taken: no operation holds it and it is not the kernel's. -/
def PtEntry.Idle (e : PtEntry) : Prop :=
  e.ctrl.io = false ∧ e.ctrl.swap = false ∧ e.ctrl.tlb = false ∧ e.page ≠ kmallocPage

theorem PtEntry.idle_of_eligible {e : PtEntry} (h : e.eligible = true) : e.Idle := by
  simp only [PtEntry.eligible, Bool.and_eq_true, Bool.not_eq_true', bne_iff_ne] at h
  exact ⟨h.1.1.2, h.2, h.1.1.1, h.1.2⟩

theorem claimVictim_ok (h : s.claimVictim v p i = .ok (t, o)) :
    (s.pt.entries i).Idle ∧ t.pt = s.pt.set i ((s.pt.entries i).claim v p) ∧
    (((s.pt.entries i).user = true ∧ o = some ((s.pt.entries i).page, (s.pt.entries i).pid) ∧
        s.ht.removeFromHash (s.pt.entries i).page (s.pt.entries i).pid = .ok t.ht) ∨
      ((s.pt.entries i).ctrl.validity = false ∧ o = none ∧ t.ht = s.ht)) := by
  simp only [Ipt.claimVictim, bind_ok, kassert_ok, bne_iff_ne, Bool.not_eq_true'] at h
  obtain ⟨_, hio, _, hsw, _, htlb, _, hk, h⟩ := h
  split at h
  · rename_i hv
    obtain ⟨ht, hht, h⟩ := bind_ok.1 h
    cases h
    exact ⟨⟨hio, hsw, htlb, hk⟩, rfl, .inl ⟨PtEntry.user_iff.2 ⟨hv, hk⟩, rfl, hht⟩⟩
  · rename_i hv
    cases h
    exact ⟨⟨hio, hsw, htlb, hk⟩, rfl, .inr ⟨by simpa using hv, rfl, rfl⟩⟩

theorem claimKernel_ok (h : s.claimKernel p j = .ok (t, o)) :
    (s.pt.entries j).Idle ∧
    (((s.pt.entries j).user = true ∧ o = some ((s.pt.entries j).page, (s.pt.entries j).pid) ∧
        t.pt = s.pt.set j ((s.pt.entries j).kmalloc p true) ∧
        s.ht.removeFromHash (s.pt.entries j).page (s.pt.entries j).pid = .ok t.ht) ∨
      ((s.pt.entries j).ctrl.validity = false ∧ o = none ∧
        t.pt = s.pt.set j ((s.pt.entries j).kmalloc p false) ∧ t.ht = s.ht)) := by
  simp only [Ipt.claimKernel, bind_ok, kassert_ok, bne_iff_ne, Bool.not_eq_true'] at h
  obtain ⟨_, hk, _, _, _, htlb, _, hio, _, hsw, h⟩ := h
  split at h
  · rename_i hv
    obtain ⟨ht, hht, h⟩ := bind_ok.1 h
    cases h
    exact ⟨⟨hio, hsw, htlb, hk⟩, .inl ⟨PtEntry.user_iff.2 ⟨hv, hk⟩, rfl, rfl, hht⟩⟩
  · rename_i hv
    cases h
    rw [hio]
    exact ⟨⟨hio, hsw, htlb, hk⟩, .inr ⟨by simpa using hv, rfl, rfl, rfl⟩⟩

theorem markFree_idle (h : pt.markFree p i i = .ok pt') :
    (pt.entries i).Idle ∧ (pt.entries i).ctrl.validity = false ∧
      pt' = pt.set i ((pt.entries i).kmalloc p false) := by
  simp only [PageTable.markFree, bind_ok, kassert_ok, bne_iff_ne, Bool.not_eq_true'] at h
  obtain ⟨_, hk, _, hv, _, htlb, _, hio, _, hsw, h⟩ := h
  cases h
  refine ⟨⟨hio, hsw, htlb, hk⟩, hv, ?_⟩
  simp [PtEntry.kmalloc, hio]

theorem freeContiguousPages_one (hc : pt.contiguous i = 1)
    (h : pt.freeContiguousPages i = .ok pt') :
    (pt.entries i).page = kmallocPage ∧ pt' = { pt.set i { pt.entries i with
        page := 0, ctrl := { (pt.entries i).ctrl with validity := false } } with
      contiguous := Function.update pt.contiguous i (-1) } := by
  unfold PageTable.freeContiguousPages at h
  rw [hc] at h
  obtain ⟨pt₁, h₁, h⟩ := bind_ok.1 h
  cases h
  have hone : List.range' i (Int.toNat 1) = [i] := rfl
  rw [hone] at h₁
  simp only [List.foldlM_cons, List.foldlM_nil, bind_ok, PageTable.freeFrame, kassert_ok,
    beq_iff_eq] at h₁
  obtain ⟨_, ⟨_, hk, h₁⟩, h₂⟩ := h₁
  cases h₁
  cases h₂
  exact ⟨hk, rfl⟩

theorem copyEntry_ok (h : s.copyEntry new i pos = .ok t) :
    s.ht.addInHash (s.pt.entries i).page new pos = .ok t.ht ∧
      t.pt = s.pt.set pos ((s.pt.entries pos).copyOf (s.pt.entries i) new) := by
  simp only [Ipt.copyEntry, bind_ok] at h
  obtain ⟨ht, hht, _, _, _, _, _, _, _, _, h⟩ := h
  cases h
  exact ⟨hht, rfl⟩

end Effects

theorem markCopy_spec (pt : PageTable) (p : Nat) (b : Bool) (f : Fn) (c : Cond)
    (ok : PtEntry → Bool) :
    Sound (fun _ => ∃ i < pt.nEntry, (pt.entries i).pid = p ∧ (pt.entries i).user = true ∧
      ok (pt.entries i) = false)
    (fun pt' => (∀ i < pt.nEntry, (pt.entries i).pid = p → (pt.entries i).user = true →
      ok (pt.entries i) = true) ∧
    pt' = { pt with entries := fun i =>
      if i < pt.nEntry ∧ (pt.entries i).pid = p ∧ (pt.entries i).user = true then
        (pt.entries i).setSwap b else pt.entries i }) (pt.markCopy p b f c ok) := by
  simp only [← List.mem_range (n := pt.nEntry)]
  apply Sound.foldlM_prefix (P := fun done (q : PageTable) =>
    (∀ i ∈ done, (pt.entries i).pid = p → (pt.entries i).user = true →
      ok (pt.entries i) = true) ∧
    q = { pt with entries := fun i =>
      if i ∈ done ∧ (pt.entries i).pid = p ∧ (pt.entries i).user = true then
        (pt.entries i).setSwap b else pt.entries i })
  · simp
  · intro done i rest q hl hq
    obtain ⟨hdone, rfl⟩ := hq
    have hnot : i ∉ done := by
      have hnd := List.nodup_range (n := pt.nEntry)
      rw [hl, List.nodup_middle, List.nodup_cons, List.mem_append, not_or] at hnd
      exact hnd.1.1
    simp only [hnot, false_and, if_false]
    split
    · rename_i hc
      simp only [Bool.and_eq_true, beq_iff_eq] at hc
      apply Sound.of_bind
      · intro e he
        exact ⟨i, by rw [hl]; simp, hc.1, hc.2, (kassert_error.1 he).1⟩
      · intro u hok
        rw [kassert_ok] at hok
        refine ⟨?_, ?_⟩
        · intro j hj hjp hju
          cases List.mem_append.1 hj with
          | inl hj => exact hdone j hj hjp hju
          | inr hj =>
            rw [List.mem_singleton.1 hj]
            exact hok
        · simp only [PageTable.set]
          congr 1
          funext j
          by_cases hji : j = i
          · subst hji
            simp [hc.1, hc.2]
          · simp [hji]
    · rename_i hc
      simp only [Bool.and_eq_true, beq_iff_eq] at hc
      refine ⟨?_, ?_⟩
      · intro j hj hjp hju
        cases List.mem_append.1 hj with
        | inl hj => exact hdone j hj hjp hju
        | inr hj =>
          rw [List.mem_singleton.1 hj] at hjp hju
          exact (hc ⟨hjp, hju⟩).elim
      · congr 1
        funext j
        by_cases hji : j = i
        · subst hji
          simp only [hnot, false_and, if_false]
          rw [if_neg]
          exact fun hx => hc hx.2
        · simp [hji]

theorem freePages_ok {s t : Ipt} (h : s.freePages p = .ok t) :
    (∀ i < s.pt.nEntry, (s.pt.entries i).pid = p → (s.pt.entries i).user = true →
      (s.pt.entries i).ctrl.io = false ∧ (s.pt.entries i).ctrl.swap = false) ∧
    t.pt = { s.pt with entries := fun i =>
      if i < s.pt.nEntry ∧ (s.pt.entries i).pid = p ∧ (s.pt.entries i).user = true then
        ⟨0, 0, .zero⟩ else s.pt.entries i } := by
  have hs : Sound (fun _ => True) (fun u : Ipt =>
      (∀ i ∈ List.range s.pt.nEntry, (s.pt.entries i).pid = p → (s.pt.entries i).user = true →
        (s.pt.entries i).ctrl.io = false ∧ (s.pt.entries i).ctrl.swap = false) ∧
      u.pt = { s.pt with entries := fun i =>
        if i ∈ List.range s.pt.nEntry ∧ (s.pt.entries i).pid = p ∧ (s.pt.entries i).user = true then
          ⟨0, 0, .zero⟩ else s.pt.entries i }) (s.freePages p) := by
    apply Sound.foldlM_prefix (P := fun done (u : Ipt) =>
      (∀ i ∈ done, (s.pt.entries i).pid = p → (s.pt.entries i).user = true →
        (s.pt.entries i).ctrl.io = false ∧ (s.pt.entries i).ctrl.swap = false) ∧
      u.pt = { s.pt with entries := fun i =>
        if i ∈ done ∧ (s.pt.entries i).pid = p ∧ (s.pt.entries i).user = true then
          ⟨0, 0, .zero⟩ else s.pt.entries i })
    · simp
    · intro done i rest u hl hu
      obtain ⟨hdone, hpt⟩ := hu
      have hnot : i ∉ done := by
        have hnd := List.nodup_range (n := s.pt.nEntry)
        rw [hl, List.nodup_middle, List.nodup_cons, List.mem_append, not_or] at hnd
        exact hnd.1.1
      have hei : u.pt.entries i = s.pt.entries i := by
        rw [hpt]
        simp [hnot]
      apply Sound.intro _ (fun _ _ => trivial)
      intro u' hu'
      unfold Ipt.freePage at hu'
      rw [hei] at hu'
      simp only at hu'
      split at hu'
      · rename_i hc
        simp only [Bool.and_eq_true, beq_iff_eq] at hc
        simp only [bind_ok, kassert_ok, Bool.not_eq_true', bne_iff_ne] at hu'
        obtain ⟨_, hio, _, _, _, hsw, ht, _, hu'⟩ := hu'
        cases hu'
        refine ⟨?_, ?_⟩
        · intro j hj hjp hju
          cases List.mem_append.1 hj with
          | inl hj => exact hdone j hj hjp hju
          | inr hj =>
            rw [List.mem_singleton.1 hj]
            exact ⟨hio, hsw⟩
        · simp only [PageTable.set, hpt]
          congr 1
          funext j
          by_cases hji : j = i
          · subst hji
            simp [hc.1, hc.2]
          · simp [hji]
      · rename_i hc
        simp only [Bool.and_eq_true, beq_iff_eq] at hc
        cases hu'
        refine ⟨?_, ?_⟩
        · intro j hj hjp hju
          cases List.mem_append.1 hj with
          | inl hj => exact hdone j hj hjp hju
          | inr hj =>
            rw [List.mem_singleton.1 hj] at hjp hju
            exact (hc ⟨hjp, hju⟩).elim
        · simp only [hpt]
          congr 1
          funext j
          by_cases hji : j = i
          · subst hji
            simp only [hnot, false_and, if_false]
            rw [if_neg]
            exact fun hx => hc hx.2
          · simp [hji]
  have hok := hs.ok h
  simpa only [List.mem_range] using hok

end Clape
