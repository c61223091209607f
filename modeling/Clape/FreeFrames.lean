import Clape.SecondChance

namespace Clape
set_option autoImplicit true

/-- A block of free frames, as the callers of `get_contiguous_pages` hope for it. -/
def FreeFrames (E : Nat → PtEntry) (N n a : Nat) : Prop :=
  a + n ≤ N ∧ ∀ j, a ≤ j → j < a + n → (E j).isFree = true

/-- The request is served from free memory: what it returns was free before, no page is stored
and no reference bit changes. -/
def Ipt.ServesFree (s : Ipt) (p n : Nat) : Prop :=
  ∃ t f, s.getContiguousPages p n = .ok (t, some f) ∧ FreeFrames s.pt.entries s.pt.nEntry n f ∧
    t.stores = s.stores ∧
    ∀ j, (t.pt.entries j).ctrl.reference = (s.pt.entries j).ctrl.reference

/-- A free frame that the first search takes for the start of a run. -/
def PageTable.RunStart (pt : PageTable) (i : Nat) : Prop :=
  (pt.entries i).isFree = true ∧ startsRun pt.entries i = true

theorem markFree_inv {pt : PageTable} (h : pt.markFree p i j = .ok pt') :
    (pt.entries j).page ≠ kmallocPage ∧ (pt'.entries i).page = kmallocPage := by
  unfold PageTable.markFree at h
  simp only [bind_ok, kassert_ok, bne_iff_ne] at h
  obtain ⟨-, hp, -, -, -, -, -, -, -, -, h⟩ := h
  cases h
  apply And.intro hp
  simp [PageTable.set]

/-- The marking loop of the first search does not get past the last entry of the block once
that entry is the kernel's. -/
theorem markFree_stuck {pt : PageTable} {l : List Nat} (h : (pt.entries i).page = kmallocPage)
    (hi : i ∈ l) : l.foldlM (fun pt j => pt.markFree p i j) pt ≠ .ok pt' := by
  induction l generalizing pt with
  | nil => cases hi
  | cons j l ih =>
    rw [List.foldlM_cons]
    intro hf
    obtain ⟨pt₁, hm, hr⟩ := bind_ok.1 hf
    obtain ⟨hj, hi'⟩ := markFree_inv hm
    cases List.mem_cons.1 hi with
    | inl hij =>
      subst hij
      exact hj h
    | inr hil => exact ih hi' hil hr

/-- Its first iteration makes it so: every block of two frames or more stops the kernel. -/
theorem markFree_block {pt : PageTable} (hfi : f < i) :
    (List.range' f (i + 1 - f)).foldlM (fun pt j => pt.markFree p i j) pt ≠ .ok pt' := by
  intro h
  rw [show i + 1 - f = (i - f) + 1 by omega, List.range'_succ, List.foldlM_cons] at h
  obtain ⟨pt₁, hm, hr⟩ := bind_ok.1 h
  apply markFree_stuck (markFree_inv hm).2 _ hr
  exact List.mem_range'_1.2 ⟨by omega, by omega⟩

theorem FreeFrames.startsRun_false (h : FreeFrames E N n a) (hj : a < j) (hj' : j < a + n) :
    startsRun E j = false := by
  have hprev := h.2 (j - 1) (by omega) (by omega)
  have hj0 : (j == 0) = false := by simp; omega
  rw [startsRun, hj0, (PtEntry.Spent.of_isFree hprev).not_validEntry]
  rfl

theorem freeRun_inside (h : FreeFrames E N n a) (hak : a < k) (hk : k < a + n) :
    ∃ r, freeRun E n (List.range' k (N - k)) (some a) = .inr r := by
  obtain ⟨m, hm⟩ : ∃ m, a + n = k + m + 1 := ⟨a + n - k - 1, by omega⟩
  induction m generalizing k with
  | zero =>
    have hlen : N - k = (N - (k + 1)) + 1 := by have := h.1; omega
    have hlast : k + 1 = a + n := by omega
    rw [hlen, List.range'_succ, freeRun, h.startsRun_false hak hk]
    simp [h.2 k (by omega) hk, hlast]
  | succ m ih =>
    have hlen : N - k = (N - (k + 1)) + 1 := by have := h.1; omega
    have hnot : ¬ k + 1 = a + n := by omega
    obtain ⟨r, hr⟩ := ih (by omega) (by omega) (by omega : a + n = k + 1 + m + 1)
    refine ⟨r, ?_⟩
    rw [hlen, List.range'_succ, freeRun, h.startsRun_false hak hk]
    simpa [hnot] using hr

theorem freeRun_complete (fp : Option Nat) (h : FreeFrames E N n a) (hs : startsRun E a = true) (hn : 1 ≤ n)
    (hka : k ≤ a) : ∃ r, freeRun E n (List.range' k (N - k)) fp = .inr r := by
  have hlen : N - k = (N - (k + 1)) + 1 := by have := h.1; omega
  obtain ⟨m, hm⟩ : ∃ m, a = k + m := ⟨a - k, by omega⟩
  induction m generalizing k fp with
  | zero =>
    have hk : k = a := by omega
    subst hk
    have hfree := h.2 k (by omega) (by omega)
    rw [hlen, List.range'_succ, freeRun, hfree, hs]
    simp only [Bool.and_self, if_true, Bool.true_and, beq_iff_eq]
    split
    · exact ⟨_, rfl⟩
    · exact freeRun_inside h (by omega) (by omega)
  | succ m ih =>
    have hnext : ∀ fp, ∃ r, freeRun E n (List.range' (k + 1) (N - (k + 1))) fp = .inr r := by
      intro fp
      exact ih fp (by omega) (by have := h.1; omega) (by omega)
    rw [hlen, List.range'_succ, freeRun]
    split
    · split
      · exact ⟨_, rfl⟩
      · exact hnext _
    · exact hnext _

theorem freeRun_inl {E : Nat → PtEntry} (h : freeRun E n (List.range N) none = .inl fp) :
    LastStart E N fp := by
  intro f hf
  obtain ⟨hN, hs, hlast⟩ := (freeRun_leftOver h f).1 hf
  exact ⟨hs.1, hs.2, hN, hlast⟩

/-- What one iteration of the marking loop of the second search needs and does. -/
theorem takeKernel_inv {s : Ipt} (h : s.takeKernel p j = .ok t) :
    (s.pt.entries j).eligible = true ∧ (∀ k, k ≠ j → t.pt.entries k = s.pt.entries k) ∧
      t.stores = s.stores ++ (s.pt.entries j).evicted j := by
  unfold Ipt.takeKernel Ipt.claimKernel at h
  simp only [bind_ok, kassert_ok, bne_iff_ne, Bool.not_eq_true'] at h
  obtain ⟨⟨s₁, o⟩, ⟨-, hp, -, -, -, ht, -, hio, -, hsw, h₁⟩, h⟩ := h
  have hel : (s.pt.entries j).eligible = true := by simp [PtEntry.eligible, hp, ht, hio, hsw]
  apply And.intro hel
  split at h₁
  · rename_i hv
    have hu : (s.pt.entries j).user = true := PtEntry.user_iff.2 ⟨hv, hp⟩
    obtain ⟨ht', -, h₁⟩ := bind_ok.1 h₁
    cases h₁
    cases h
    apply And.intro
    · intro k hk
      simp [PageTable.set, hk]
    · simp [PtEntry.evicted, hu]
  · rename_i hv
    have hu : (s.pt.entries j).user = false := by simp [PtEntry.user, hv]
    cases h₁
    cases h
    apply And.intro
    · intro k hk
      simp [PageTable.set, hk]
    · simp [PtEntry.evicted, hu]

/-- The marking loop stores no page only if every frame it takes is free. -/
theorem takeKernel_free {l : List Nat} {s : Ipt} (h : l.foldlM (fun s j => s.takeKernel p j) s = .ok t)
    (hnd : l.Nodup) :
    s.stores.length ≤ t.stores.length ∧
      (t.stores = s.stores → ∀ j ∈ l, (s.pt.entries j).isFree = true) := by
  induction l generalizing s with
  | nil =>
    cases h
    exact ⟨Nat.le_refl _, fun _ j hj => by cases hj⟩
  | cons i l ih =>
    rw [List.foldlM_cons] at h
    obtain ⟨s₁, h₁, h⟩ := bind_ok.1 h
    obtain ⟨hel, hrest, hst⟩ := takeKernel_inv h₁
    obtain ⟨hni, hnd⟩ := List.nodup_cons.1 hnd
    obtain ⟨hle, hfree⟩ := ih h hnd
    have hlen : s₁.stores.length = s.stores.length + ((s.pt.entries i).evicted i).length := by
      rw [hst, List.length_append]
    apply And.intro (by omega)
    intro heq j hj
    have hnone : ((s.pt.entries i).evicted i).length = 0 := by
      rw [heq] at hle
      omega
    cases List.mem_cons.1 hj with
    | inl hji =>
      subst hji
      cases hu : (s.pt.entries j).user with
      | true =>
        rw [PtEntry.evicted, hu] at hnone
        cases hnone
      | false =>
        simp only [PtEntry.eligible, Bool.and_eq_true, Bool.not_eq_true', bne_iff_ne] at hel
        obtain ⟨⟨⟨ht, hio⟩, hp⟩, hsw⟩ := hel
        have hv : (s.pt.entries j).ctrl.validity = false := by
          cases hv : (s.pt.entries j).ctrl.validity with
          | false => rfl
          | true =>
            rw [PtEntry.user_iff.2 ⟨hv, hp⟩] at hu
            cases hu
        simp [PtEntry.isFree, hv, ht, hio, hsw, hp]
    | inr hjl =>
      have hji : j ≠ i := fun he => hni (he ▸ hjl)
      rw [← hrest j hji]
      apply hfree _ j hjl
      rw [heq, hst, List.length_eq_zero_iff.1 hnone, List.append_nil]

theorem Chanced.isFree (h : Chanced e e') (hf : e'.isFree = true) : e.isFree = true := by
  obtain rfl | ⟨-, -, rfl⟩ := h
  · exact hf
  · exact hf

/-- If the second search serves the request and stores nothing, its block is one the first
search would have found. -/
theorem chanceRun_serves {s : Ipt} (hfp : LastStart s.pt.entries s.pt.nEntry fp)
    (h : s.chanceRun p n fp = .ok (t, some f)) (hst : t.stores = s.stores) :
    FreeFrames s.pt.entries s.pt.nEntry n f ∧ startsRun s.pt.entries f = true := by
  have hlt := fun f i => @PageTable.chanceSearch_lt n fp f i s.pt
  unfold Ipt.chanceRun at h
  split at h
  · cases h
  · rename_i E g i hc
    obtain ⟨s₁, h₁, h⟩ := bind_ok.1 h
    cases h
    have hlen := PageTable.chanceSearch_length hc
    have hi := hlt f i (by rw [hc])
    have hch := PageTable.chanceSearch_chanced hc
    obtain ⟨-, hfree⟩ := takeKernel_free h₁ (List.nodup_range' ..)
    apply And.intro
    · refine ⟨by omega, fun j hj hj' => ?_⟩
      have hm : j ∈ List.range' f (i + 1 - f) := List.mem_range'_1.2 ⟨hj, by omega⟩
      exact (hch j).isFree (hfree hst j hm)
    · cases PageTable.chanceSearch_start hc with
      | inl hs => exact (hfp f hs).2.1
      | inr hs => exact hs

theorem PageTable.RunStart.free {pt : PageTable} (h : pt.RunStart i) (hi : i < pt.nEntry) :
    FreeFrames pt.entries pt.nEntry 1 i := by
  refine ⟨hi, fun j hj hj' => ?_⟩
  rw [show j = i by omega]
  exact h.1

/-- `get_contiguous_pages` serves a request from free memory exactly if it is for one page and
a free frame is the first of the table or comes after an entry that `valid_entry` accepts: a
block of more free frames stops the kernel, and free frames after a page that has had its
second chance are not seen. -/
theorem kernel_pages_from_free_frames {s : Ipt} (hn : 1 ≤ n) (p : Nat) :
    s.ServesFree p n ↔ n = 1 ∧ ∃ i < s.pt.nEntry, s.pt.RunStart i := by
  have hstart : LastStart s.pt.entries 0 none := by
    intro f hf
    cases hf
  obtain ⟨hinr, -⟩ := freeRun_spec (n := n) (m := s.pt.nEntry) hstart
  rw [← List.range_eq_range'] at hinr
  apply Iff.intro
  · intro h
    obtain ⟨t, f, hg, -, hst, -⟩ := h
    unfold Ipt.getContiguousPages at hg
    split at hg
    · cases hg
    · split at hg
      · rename_i g i hr
        obtain ⟨pt, hm, -⟩ := bind_ok.1 hg
        obtain ⟨hi, -, hlen⟩ := freeRun_inr hr
        cases Nat.lt_or_ge g i with
        | inl hgi => exact (markFree_block hgi hm).elim
        | inr hgi =>
          obtain ⟨hfree, hs, -⟩ := hinr g i hr
          rw [List.mem_range] at hi
          exact ⟨by omega, g, by omega, hfree, hs⟩
      · rename_i fp hr
        -- the second search can only give what the first one has ruled out
        obtain ⟨hfree, hs⟩ := chanceRun_serves (freeRun_inl hr) hg hst
        obtain ⟨r, hr'⟩ := freeRun_complete none hfree hs hn (Nat.zero_le f)
        rw [Nat.sub_zero, ← List.range_eq_range', hr] at hr'
        cases hr'
  · intro h
    obtain ⟨rfl, i, hi, hrun⟩ := h
    obtain ⟨⟨g, k⟩, hr⟩ := freeRun_complete none (hrun.free hi) hrun.2 hn (Nat.zero_le i)
    rw [Nat.sub_zero, ← List.range_eq_range'] at hr
    obtain ⟨hk, hfree, hlen⟩ := freeRun_inr hr
    have hgk : k = g := by omega
    subst hgk
    rw [List.mem_range] at hk
    let pt := s.pt.set k ((s.pt.entries k).kmalloc p false)
    have heq : s.getContiguousPages p 1 =
        .ok ({ s with pt := { pt with contiguous := Function.update pt.contiguous k 1 } }, some k) := by
      unfold Ipt.getContiguousPages
      rw [if_neg (by omega), hr]
      simp only [Nat.add_sub_cancel_left, List.range'_one, List.foldlM_cons, List.foldlM_nil,
        markFree_ok hfree]
      rfl
    refine ⟨_, k, heq, ⟨hk, fun j hj hj' => ?_⟩, rfl, fun j => ?_⟩
    · rw [show j = k by omega]
      exact hfree
    · by_cases hj : j = k
      · subst hj
        simp [pt, PageTable.set, PtEntry.kmalloc]
      · simp [pt, PageTable.set, hj]

/-- Two frames, of which the second one is free. -/
def secondFree (e : PtEntry) (ht : HashTable) : Ipt :=
  ⟨⟨fun i => if i = 0 then e else ⟨0, 0, .zero⟩, 2, 0, fun _ => -1, 0⟩, ht, []⟩

/-- The first frame is the kernel's, so the free one after it is found. -/
theorem kernel_pages_from_free_frames_one :
    (secondFree ⟨kmallocPage, 1, ⟨true, false, false, false, false⟩⟩ (HashTable.init 2)).ServesFree 1 1 := by
  apply (kernel_pages_from_free_frames (Nat.le_refl 1) 1).2
  exact ⟨rfl, 1, Nat.one_lt_two, rfl, rfl⟩

/-- A free frame behind a page that has had its second chance is not seen: that page is
stored. And two free frames stop the kernel. -/
theorem kernel_pages_free_missed :
    (∃ s t : Ipt, FreeFrames s.pt.entries s.pt.nEntry 1 1 ∧ s.getContiguousPages 1 1 = .ok (t, some 0) ∧
      t.stores = [⟨4096, 1, 0⟩] ∧ ¬ s.ServesFree 1 1) ∧
    ∃ s : Ipt, FreeFrames s.pt.entries s.pt.nEntry 2 0 ∧
      s.getContiguousPages 1 2 = .error (.kassert .getContiguousPages .kmalloc) ∧
      ¬ s.ServesFree 1 2 := by
  apply And.intro
  · have hex : (((HashTable.init 2).addInHash 4096 1 0).bind fun ht =>
        ((secondFree ⟨4096, 1, ⟨true, false, false, false, false⟩⟩ ht).getContiguousPages 1 1).map
          fun r => (r.1.stores, r.2)) = .ok ([⟨4096, 1, 0⟩], some 0) := by decide
    cases hh : (HashTable.init 2).addInHash 4096 1 0 with
    | error e =>
      rw [hh] at hex
      cases hex
    | ok ht =>
      rw [hh] at hex
      simp only [Except.bind] at hex
      let s := secondFree ⟨4096, 1, ⟨true, false, false, false, false⟩⟩ ht
      cases hg : s.getContiguousPages 1 1 with
      | error e =>
        rw [hg] at hex
        cases hex
      | ok r =>
        rw [hg] at hex
        simp only [Except.map, Except.ok.injEq, Prod.mk.injEq] at hex
        obtain ⟨t, f⟩ := r
        obtain ⟨hst, rfl⟩ := hex
        refine ⟨s, t, ⟨Nat.le_refl 2, fun j hj hj' => ?_⟩, hg, hst, fun h => ?_⟩
        · rw [show j = 1 by omega]
          rfl
        · obtain ⟨t', f, hg', -, hst', -⟩ := h
          rw [hg] at hg'
          cases hg'
          rw [hst] at hst'
          cases hst'
  · let s := secondFree ⟨0, 0, .zero⟩ (HashTable.init 2)
    have hg : s.getContiguousPages 1 2 = .error (.kassert .getContiguousPages .kmalloc) := by rfl
    refine ⟨s, ⟨Nat.le_refl 2, fun j hj hj' => ?_⟩, hg, fun h => ?_⟩
    · cases j with
      | zero => rfl
      | succ j => rfl
    · obtain ⟨t, f, hg', -⟩ := h
      rw [hg] at hg'
      cases hg'

end Clape
