import Clape.ContiguousSearch
import Clape.PageTableRuns

namespace Clape
set_option autoImplicit true

/-- The call of `store_swap` for the page in a frame, if there is one. -/
def PtEntry.evicted (e : PtEntry) (j : Nat) : List StoreCall :=
  if e.user then [⟨e.page, e.pid, j⟩] else []

theorem PtEntry.Spent.bits {e : PtEntry} (h : e.Spent) :
    e.ctrl.tlb = false ∧ e.ctrl.io = false ∧ e.page ≠ kmallocPage ∧ e.ctrl.swap = false ∧
      (e.ctrl.validity = true → e.ctrl.reference = false) := by
  obtain ⟨h1, h2⟩ := h
  simp only [PtEntry.eligible, Bool.and_eq_true, Bool.not_eq_true', bne_iff_ne] at h1
  refine ⟨h1.1.1.1, h1.1.1.2, h1.1.2, h1.2, fun hv => ?_⟩
  simpa [hv] using h2

theorem PtEntry.Spent.user {e : PtEntry} (h : e.Spent) : e.user = e.ctrl.validity := by
  simp [PtEntry.user, h.bits.2.2.1]

theorem claimKernel_user {s : Ipt} (hsp : (s.pt.entries j).Spent)
    (hv : (s.pt.entries j).ctrl.validity = true)
    (hrm : s.ht.removeFromHash (s.pt.entries j).page (s.pt.entries j).pid = .ok ht) (p : Nat) :
    s.claimKernel p j = .ok ({ s with pt := s.pt.set j ((s.pt.entries j).kmalloc p true), ht := ht },
      some ((s.pt.entries j).page, (s.pt.entries j).pid)) := by
  obtain ⟨htlb, hio, hpg, hsw, href⟩ := hsp.bits
  simp [Ipt.claimKernel, htlb, hio, hpg, hsw, href hv, hv, hrm, kassert, bind, Except.bind, pure,
    Except.pure]

theorem claimKernel_free {s : Ipt} (hsp : (s.pt.entries j).Spent)
    (hv : (s.pt.entries j).ctrl.validity = false) (p : Nat) :
    s.claimKernel p j =
      .ok ({ s with pt := s.pt.set j ((s.pt.entries j).kmalloc p false) }, none) := by
  obtain ⟨htlb, hio, hpg, hsw, -⟩ := hsp.bits
  simp [Ipt.claimKernel, htlb, hio, hpg, hsw, hv, kassert, bind, Except.bind, pure, Except.pure]

theorem takeKernel_eq {s : Ipt} (hsp : (s.pt.entries j).Spent) (hrm : (s.pt.entries j).ctrl.validity = true →
    ∃ ht, s.ht.removeFromHash (s.pt.entries j).page (s.pt.entries j).pid = .ok ht) (p : Nat) :
    ∃ t, s.takeKernel p j = .ok t ∧ t.pt = s.pt.set j ((s.pt.entries j).kmalloc p false) ∧
      t.stores = s.stores ++ (s.pt.entries j).evicted j := by
  cases hv : (s.pt.entries j).ctrl.validity with
  | true =>
    obtain ⟨ht, hht⟩ := hrm hv
    simp only [Ipt.takeKernel, claimKernel_user hsp hv hht]
    refine ⟨_, rfl, ?_, ?_⟩
    · simp [PageTable.set, PtEntry.setIo, PtEntry.kmalloc]
    · simp [PtEntry.evicted, hsp.user, hv]
  | false =>
    simp only [Ipt.takeKernel, claimKernel_free hsp hv]
    exact ⟨_, rfl, rfl, by simp [PtEntry.evicted, hsp.user, hv]⟩

/-- A frame that belongs to the kernel and has no operation on it. -/
def KernelFrame (e : PtEntry) : Prop :=
  e.page = kmallocPage ∧ e.ctrl.validity = true ∧ e.ctrl.io = false ∧ e.ctrl.tlb = false ∧
    e.ctrl.swap = false

theorem markFree_ok {pt : PageTable} (h : (pt.entries f).isFree = true) (p : Nat) :
    pt.markFree p f f = .ok (pt.set f ((pt.entries f).kmalloc p false)) := by
  simp only [PtEntry.isFree, Bool.and_eq_true, Bool.not_eq_true', bne_iff_ne] at h
  obtain ⟨⟨⟨⟨h1, h2⟩, h3⟩, h4⟩, h5⟩ := h
  simp [PageTable.markFree, PtEntry.kmalloc, h1, h2, h3, h4, h5, kassert, bind, Except.bind, pure,
    Except.pure]

/-- The marking loop of the second search over the given frames, up to the first call of
`store_swap`: the frame whose page is being stored, `none` when the loop is done. -/
def Ipt.markLoop (p : Nat) : List Nat → Ipt → Except Fault (Ipt × Option Nat)
  | [], s => .ok (s, none)
  | j :: l, s => do
    match ← s.claimKernel p j with
    | (s₁, none) => markLoop p l s₁
    | (s₁, some (ov, op)) => return ({ s₁ with stores := s₁.stores ++ [⟨ov, op, j⟩] }, some j)

/-- The marking loop after the return of `store_swap` for frame `j`. -/
def Ipt.pageStored (s : Ipt) (j : Nat) : Ipt :=
  { s with pt := s.pt.set j ((s.pt.entries j).setIo false) }

/-- When nothing happens while the pages are stored, the loop goes through its frames as if it did
not sleep. -/
theorem foldlM_takeKernel (p a m : Nat) (s : Ipt) :
    (List.range' a m).foldlM (fun s j => s.takeKernel p j) s =
      Ipt.markLoop p (List.range' a m) s >>= fun r => match r.2 with
        | none => .ok r.1
        | some j => (List.range' (j + 1) (a + m - (j + 1))).foldlM (fun s j => s.takeKernel p j)
            (r.1.pageStored j) := by
  induction m generalizing a s with
  | zero => rfl
  | succ m ih =>
    rw [List.range'_succ, List.foldlM_cons, Ipt.takeKernel, Ipt.markLoop]
    cases hc : s.claimKernel p a with
    | error e => rfl
    | ok r =>
      obtain ⟨s₁, o⟩ := r
      cases o with
      | some o =>
        have hrest : a + (m + 1) - (a + 1) = m := by omega
        simp only [bind, Except.bind, pure, Except.pure, hrest]
        rfl
      | none =>
        have hlen : a + (m + 1) = a + 1 + m := by omega
        rw [hlen]
        exact ih (a + 1) s₁

def PtEntry.hidden (e : PtEntry) : PtEntry := { e with ctrl := { e.ctrl with validity := false } }

/-- The page table as the hash table sees it when the keys of some frames are not in it. -/
def Ipt.hide (s : Ipt) (l : List Nat) : Ipt :=
  { s with pt := { s.pt with entries := fun i =>
      if i ∈ l then (s.pt.entries i).hidden else s.pt.entries i } }

section Hidden
variable {s t : Ipt} {l : List Nat}

theorem Ipt.hide_entries (s : Ipt) (hi : i ∉ l) : (s.hide l).pt.entries i = s.pt.entries i := by
  simp [Ipt.hide, hi]

theorem Ipt.hide_set (s : Ipt) (hi : i ∉ l) (e : PtEntry) (ht : HashTable) (st : List StoreCall) :
    Ipt.hide ⟨s.pt.set i e, ht, st⟩ l = ⟨(s.hide l).pt.set i e, ht, st⟩ := by
  simp only [Ipt.hide, PageTable.set]
  congr 2
  funext j
  by_cases hj : j = i
  · subst hj
    simp [hi]
  · simp [hj]

namespace Ipt.Inv

theorem congr (h : Inv N s) (hn : t.pt.nEntry = s.pt.nEntry) (hE : t.pt.entries = s.pt.entries)
    (hht : t.ht = s.ht) : Inv N t := by
  have hkeys : t.pt.keys = s.pt.keys := PageTable.keys_congr hn fun i => by
    rw [hE]
    exact .refl _
  refine ⟨hn.trans h.nEntry, hht ▸ h.pool, hht ▸ h.size, ?_, ?_⟩
  · rw [hkeys, hht]
    exact h.rep
  · rw [hE]
    exact h.user

theorem hide_sameKey (h : Inv N (s.hide l)) (hn : t.pt.nEntry = s.pt.nEntry) (hht : t.ht = s.ht)
    (hE : ∀ i, i ∉ l → SameKey (s.pt.entries i) (t.pt.entries i)) : Inv N (t.hide l) := by
  have hn' : (t.hide l).pt.nEntry = (s.hide l).pt.nEntry := hn
  have hE' : ∀ i, SameKey ((s.hide l).pt.entries i) ((t.hide l).pt.entries i) := by
    intro i
    by_cases hi : i ∈ l
    · simp [Ipt.hide, hi, SameKey, PtEntry.user, PtEntry.hidden]
    · rw [s.hide_entries hi, t.hide_entries hi]
      exact hE i hi
  exact (h.sameKeys hn' hE').congr rfl rfl hht

theorem hide_remove (h : Inv N (s.hide l)) (hi : i < N) (hl : i ∉ l)
    (hu : (s.pt.entries i).user = true) :
    ∃ ht, s.ht.removeFromHash (s.pt.entries i).page (s.pt.entries i).pid = .ok ht ∧
      ∀ e st, e.user = false → Inv N (Ipt.hide ⟨s.pt.set i e, ht, st⟩ l) := by
  have hentry := s.hide_entries hl
  have hkey := PageTable.keys_of_user (h.nEntry ▸ hi : i < (s.hide l).pt.nEntry) (hentry ▸ hu)
  rw [hentry] at hkey
  obtain ⟨L, hL⟩ := h.rep
  obtain ⟨ht, L', hht, hsize, hpool, hrep⟩ := hL.removeFromHash hkey
  refine ⟨ht, hht, fun e st he => ?_⟩
  rw [s.hide_set hl]
  exact (h.erase hi he hpool hsize ⟨L', hrep⟩).stores st

end Ipt.Inv

end Hidden

/-- The marking loop took the frames from `a` to `b`, and is storing the page of the last one when
`io` is set. -/
structure MarkedFrames (s t : Ipt) (p a b : Nat) (io : Bool) : Prop where
  spent : ∀ j, a ≤ j → j < b → (s.pt.entries j).Spent
  pt : t.pt = { s.pt with entries := fun j =>
    if a ≤ j ∧ j < b then (s.pt.entries j).kmalloc p (io && j + 1 == b) else s.pt.entries j }
  stores : t.stores = s.stores ++ (List.range' a (b - a)).flatMap fun j => (s.pt.entries j).evicted j

theorem MarkedFrames.nil (s : Ipt) (p a : Nat) : MarkedFrames s s p a a false where
  spent j hj hj' := by omega
  pt := by
    have hout : ∀ j, ¬ (a ≤ j ∧ j < a) := fun j => by omega
    simp [hout]
  stores := by simp

/-- A frame whose page is to be stored. -/
theorem MarkedFrames.one (hsp : (s.pt.entries a).Spent) (hu : (s.pt.entries a).user = true)
    (p : Nat) (ht : HashTable) :
    MarkedFrames s ⟨s.pt.set a ((s.pt.entries a).kmalloc p true), ht,
      s.stores ++ [⟨(s.pt.entries a).page, (s.pt.entries a).pid, a⟩]⟩ p a (a + 1) true where
  spent j hj hj' := by rwa [show j = a by omega]
  pt := by
    simp only [PageTable.set]
    congr 1
    funext j
    by_cases hja : j = a
    · subst hja
      simp
    · have hout : ¬ (a ≤ j ∧ j < a + 1) := by omega
      rw [if_neg hout, Function.update_of_ne hja]
  stores := by simp [PtEntry.evicted, hu]

theorem MarkedFrames.cons (h : MarkedFrames { s with pt := s.pt.set a ((s.pt.entries a).kmalloc p false) } t p (a + 1) b io)
    (hsp : (s.pt.entries a).Spent) (hv : (s.pt.entries a).ctrl.validity = false) (hab : a + 1 ≤ b)
    (hio : io = true → a + 1 < b) : MarkedFrames s t p a b io where
  spent j hj hj' := by
    by_cases hja : j = a
    · rwa [hja]
    · have hj := h.spent j (by omega) hj'
      simpa only [PageTable.set, Function.update_of_ne hja] using hj
  pt := by
    rw [h.pt]
    simp only [PageTable.set]
    congr 1
    funext j
    by_cases hja : j = a
    · subst hja
      have hlast : (io && j + 1 == b) = false := by
        cases io with
        | false => rfl
        | true => simpa using Nat.ne_of_lt (hio rfl)
      have hin : j < b := by omega
      simp [hin, hlast]
    · have hiff : a ≤ j ↔ a + 1 ≤ j := by omega
      simp only [Function.update_of_ne hja, hiff]
  stores := by
    have hnone : (s.pt.entries a).evicted a = [] := by simp [PtEntry.evicted, hsp.user, hv]
    rw [h.stores, show b - a = b - (a + 1) + 1 by omega, List.range'_succ, List.flatMap_cons, hnone,
      List.nil_append]
    congr 1
    apply List.flatMap_congr
    intro j hj
    have hja : j ≠ a := by
      have := List.mem_range'_1.1 hj
      omega
    simp only [PageTable.set, Function.update_of_ne hja]

/-- What the marking loop does with frames that are ready for it. -/
theorem markLoop_ready (h : Ipt.Inv N (s.hide l)) (hl : ∀ i ∈ l, (s.pt.entries i).ctrl.io = true)
    (hr : Ready s.pt.entries a (a + m)) (hN : a + m ≤ N) (p : Nat) :
    ∃ t b io, Ipt.markLoop p (List.range' a m) s = .ok (t, if io then some (b - 1) else none) ∧
      Ipt.Inv N (t.hide l) ∧ MarkedFrames s t p a b io ∧ b ≤ a + m ∧
      if io then a < b else b = a + m := by
  induction m generalizing s a with
  | zero => exact ⟨s, a, false, rfl, h, .nil s p a, by omega, rfl⟩
  | succ m ih =>
    have hsp : (s.pt.entries a).Spent := hr a (by omega) (by omega) fun i hi hi' => by omega
    have hal : a ∉ l := by
      intro ha
      have hio := hl a ha
      rw [hsp.bits.2.1] at hio
      cases hio
    rw [List.range'_succ, Ipt.markLoop]
    cases hv : (s.pt.entries a).ctrl.validity with
    | true =>
      have hu : (s.pt.entries a).user = true := hsp.user.trans hv
      obtain ⟨ht, hht, hinv⟩ := h.hide_remove (by omega) hal hu
      rw [claimKernel_user hsp hv hht]
      refine ⟨_, a + 1, true, rfl, hinv _ _ ?_, .one hsp hu p ht, by omega, by simp⟩
      simp [PtEntry.user, PtEntry.kmalloc]
    | false =>
      rw [claimKernel_free hsp hv]
      have hinv : Ipt.Inv N (Ipt.hide
          { s with pt := s.pt.set a ((s.pt.entries a).kmalloc p false) } l) := by
        refine h.hide_sameKey
          (t := { s with pt := s.pt.set a ((s.pt.entries a).kmalloc p false) }) rfl rfl ?_
        intro i _
        by_cases hia : i = a
        · subst hia
          simp [SameKey, PtEntry.user, PageTable.set, PtEntry.kmalloc, hv]
        · simpa only [PageTable.set, Function.update_of_ne hia] using SameKey.refl _
      have hio' : ∀ i ∈ l, ((s.pt.set a ((s.pt.entries a).kmalloc p false)).entries i).ctrl.io = true := by
        intro i hi
        have hia : i ≠ a := fun he => hal (he ▸ hi)
        simpa only [PageTable.set, Function.update_of_ne hia] using hl i hi
      have hready : Ready (s.pt.set a ((s.pt.entries a).kmalloc p false)).entries (a + 1)
          (a + 1 + m) := by
        rw [show a + 1 + m = a + (m + 1) by omega]
        exact (hr.tail hv).congr fun j hj _ => Function.update_of_ne (by omega) ..
      obtain ⟨t, b, io, hx, ht, hm, hb, hio⟩ := ih hinv hio' hready (by omega)
      have hab : a + 1 ≤ b ∧ (io = true → a + 1 < b) := by
        cases io with
        | false =>
          have : b = a + 1 + m := hio
          exact ⟨by omega, by simp⟩
        | true =>
          have : a + 1 < b := hio
          exact ⟨by omega, fun _ => this⟩
      refine ⟨t, b, io, hx, ht, hm.cons hsp hv hab.1 hab.2, by omega, ?_⟩
      cases io with
      | false => exact hio.trans (by omega)
      | true => exact hab.1

def PtEntry.freed (e : PtEntry) : PtEntry :=
  { e with page := 0, ctrl := { e.ctrl with validity := false } }

theorem freeFrame_loop (pt : PageTable) (l : List Nat)
    (hl : ∀ j ∈ l, (pt.entries j).page = kmallocPage) (hnd : l.Nodup) :
    l.foldlM (fun pt j => pt.freeFrame j) pt =
      .ok { pt with entries := fun j =>
        if j ∈ l then (pt.entries j).freed else pt.entries j } := by
  induction l generalizing pt with
  | nil => simp [pure, Except.pure]
  | cons j l ih =>
    rw [List.nodup_cons] at hnd
    have hj : pt.freeFrame j = .ok (pt.set j (pt.entries j).freed) := by
      simp [PageTable.freeFrame, hl j List.mem_cons_self, PtEntry.freed, bind, Except.bind, pure,
        Except.pure]
    have hsame : ∀ i ∈ l, (pt.set j (pt.entries j).freed).entries i = pt.entries i := by
      intro i hi
      have hij : i ≠ j := fun he => hnd.1 (he ▸ hi)
      simp [PageTable.set, hij]
    have hrest := ih (pt.set j (pt.entries j).freed) (fun i hi => by
      rw [hsame i hi]
      exact hl i (List.mem_cons_of_mem _ hi)) hnd.2
    rw [List.foldlM_cons, hj]
    apply hrest.trans
    simp only [PageTable.set]
    congr 2
    funext i
    by_cases hij : i = j
    · subst hij
      simp [hnd.1]
    · simp [hij]

/-- `free_kpages` of the block of `n` frames at `f`. -/
structure Frees (pt : PageTable) (n f : Nat) (pt' : PageTable) : Prop where
  nEntry : pt'.nEntry = pt.nEntry
  free : ∀ j, f ≤ j → j < f + n → (pt'.entries j).isFree = true
  rest : ∀ j, ¬ (f ≤ j ∧ j < f + n) → pt'.entries j = pt.entries j
  contiguous : pt'.contiguous = Function.update pt.contiguous f (-1)

theorem freeContiguousPages_frees {pt : PageTable} {n : Nat} (hc : pt.contiguous f = n)
    (hk : ∀ j, f ≤ j → j < f + n → KernelFrame (pt.entries j)) :
    ∃ pt', pt.freeContiguousPages f = .ok pt' ∧ Frees pt n f pt' := by
  have hloop := freeFrame_loop pt (List.range' f n) (fun j hj => by
    have := List.mem_range'_1.1 hj
    exact (hk j this.1 this.2).1) (List.nodup_range' ..)
  unfold PageTable.freeContiguousPages
  rw [hc, Int.toNat_natCast, hloop]
  refine ⟨_, rfl, rfl, ?_, ?_, rfl⟩
  · intro j hj hj'
    obtain ⟨-, -, hio, htlb, hsw⟩ := hk j hj hj'
    have hm : j ∈ List.range' f n := List.mem_range'_1.2 ⟨hj, hj'⟩
    simp only [hm, if_true]
    simp [PtEntry.isFree, PtEntry.freed, hio, htlb, hsw, kmallocPage]
  · intro j hj
    have hm : j ∉ List.range' f n := fun hm => hj (List.mem_range'_1.1 hm)
    simp only [hm, if_false]

end Clape
