import Clape.Runs
import Clape.SwapFile

namespace Clape
set_option autoImplicit true

/-- Every cell is on exactly one list, once, and the cells of one process hold different
addresses. -/
structure SwapFile.Conserved (w : SwapFile) (L : SwapList → List Nat) : Prop where
  lists : w.lists.Rep L
  cells : ∀ c, (∃ k, c ∈ L k) ↔ c < w.size
  addrs : ∀ p sg sg' c c', c ∈ L (.seg sg p) → c' ∈ L (.seg sg' p) →
    w.vaddr c = w.vaddr c' → c = c'

namespace SwapFile

theorem waitStored_ok {w : SwapFile} (h : w.waitStored q c f = .ok w₁) :
    w₁.lists = w.lists ∧ w₁.vaddr = w.vaddr ∧ w₁.size = w.size := by
  unfold waitStored at h
  obtain ⟨⟨w₂, b⟩, ht, h⟩ := bind_ok.1 h
  unfold testStore at ht
  obtain ⟨w₃, hl, ht⟩ := bind_ok.1 ht
  cases ht
  unfold lockAcquire at hl
  split at hl
  · cases hl
    split at h
    · rename_i heq
      cases h
      rw [Prod.mk.injEq] at heq
      obtain ⟨rfl, -⟩ := heq
      exact ⟨rfl, rfl, rfl⟩
    · cases h
  · cases hl

theorem storeEnd_ok {w : SwapFile} (h : w.storeEnd q c = .ok w₁) :
    w₁.lists = w.lists ∧ w₁.vaddr = w.vaddr ∧ w₁.size = w.size := by
  unfold storeEnd at h
  obtain ⟨w₂, hl, h⟩ := bind_ok.1 h
  unfold lockAcquire at hl
  split at hl
  · cases hl
    cases h
    exact ⟨rfl, rfl, rfl⟩
  · cases hl

theorem storeBegin_ok {w : SwapFile} (h : w.storeBegin as v p = .ok (w₁, c)) :
    w.lists.head .free = some c ∧ w.store c = false ∧ ∃ A, as = some A ∧ A.storeSegs v ≠ [] ∧
      w₁ = { w with
        lists := link (w.lists.behead .free c) (A.storeSegs v) p c
        vaddr := Function.update w.vaddr c v
        store := Function.update w.store c true } := by
  unfold storeBegin at h
  split at h
  · cases h
  · rename_i d hd
    obtain ⟨_, hk, h⟩ := bind_ok.1 h
    rw [kassert_ok, Bool.not_eq_true'] at hk
    cases as with
    | none => cases h
    | some A =>
      simp only at h
      split at h
      · cases h
      · rename_i hs
        cases h
        exact ⟨hd, hk, A, rfl, hs, rfl⟩

theorem copyBegin_ok {w : SwapFile} (h : w.copyBegin sg new = .ok (w₁, f)) :
    w.lists.head .free = some f ∧ w.store f = false ∧
      w₁ = { w with lists := (w.lists.behead .free f).push (.seg sg new) f } := by
  unfold copyBegin at h
  split at h
  · cases h
  · rename_i d hd
    obtain ⟨_, hk, h⟩ := bind_ok.1 h
    rw [kassert_ok, Bool.not_eq_true'] at hk
    cases h
    exact ⟨hd, hk, rfl⟩

/-- The swap file as a walk that frees a list sees it: the list starts where the walk
stands, while its head still points to the first cell. -/
def setHead (w : SwapFile) (k : SwapList) (e : Option Nat) : SwapFile :=
  { w with lists := ⟨Function.update w.lists.head k e, w.lists.next⟩ }

namespace Conserved

theorem congr (h : Conserved w L) (hl : w'.lists = w.lists) (hv : w'.vaddr = w.vaddr)
    (hs : w'.size = w.size) : Conserved w' L where
  lists := hl ▸ h.lists
  cells := hs ▸ h.cells
  addrs := hv ▸ h.addrs

theorem move {l : Lists SwapList Nat} (h : Conserved w L) (hl : l.Rep M) (hc : ∃ k, c ∈ L k)
    (hM : ∀ k d, d ∈ M k ↔ (d = c ∧ k = k') ∨ (d ≠ c ∧ d ∈ L k)) :
    l.Rep M ∧ ∀ d, (∃ k, d ∈ M k) ↔ d < w.size := by
  apply And.intro hl
  intro d
  rw [← h.cells d]
  apply Iff.intro
  · intro hd
    obtain ⟨k, hd⟩ := hd
    cases (hM k d).1 hd with
    | inl hd => exact hd.1 ▸ hc
    | inr hd => exact ⟨k, hd.2⟩
  · intro hd
    obtain ⟨k, hd⟩ := hd
    by_cases he : d = c
    · exact ⟨k', (hM k' d).2 (.inl ⟨he, rfl⟩)⟩
    · exact ⟨k, (hM k d).2 (.inr ⟨he, hd⟩)⟩

/-- A free cell given to a process for an address of which it has no cell. -/
theorem take (h : Conserved w L) (hc : w.lists.head .free = some c)
    (hnew : ∀ sg d, d ∈ L (.seg sg p) → w.vaddr d ≠ v) (sg : Segment) :
    ∃ M, Conserved { w with
        lists := (w.lists.behead .free c).push (.seg sg p) c
        vaddr := Function.update w.vaddr c v } M ∧
      c ∈ L .free ∧ ∀ k d, d ∈ M k ↔ (d = c ∧ k = .seg sg p) ∨ (d ≠ c ∧ d ∈ L k) := by
  obtain ⟨L₁, hrep, hmem⟩ := h.lists.behead_mem hc
  obtain ⟨M, hM, hmem⟩ := hrep.push_removed (k := .seg sg p) hmem
  have hfree := h.lists.mem_head hc
  obtain ⟨hlists, hcells⟩ := h.move hM ⟨_, hfree⟩ hmem
  apply Exists.intro M
  apply And.intro _ ⟨hfree, hmem⟩
  refine ⟨hlists, hcells, ?_⟩
  intro q sg₁ sg₂ d d' hd hd' he
  cases (hmem _ d).1 hd with
  | inl hd =>
    cases (hmem _ d').1 hd' with
    | inl hd' => exact hd.1.trans hd'.1.symm
    | inr hd' =>
      cases hd.2
      simp only [hd.1, Function.update_self, Function.update_of_ne hd'.1] at he
      exact (hnew _ d' hd'.2 he.symm).elim
  | inr hd =>
    cases (hmem _ d').1 hd' with
    | inl hd' =>
      cases hd'.2
      simp only [hd'.1, Function.update_self, Function.update_of_ne hd.1] at he
      exact (hnew _ d hd.2 he).elim
    | inr hd' =>
      simp only [Function.update_of_ne hd.1, Function.update_of_ne hd'.1] at he
      exact h.addrs q sg₁ sg₂ d d' hd.2 hd'.2 he

theorem release {l : Lists SwapList Nat} {a : Nat → Nat} (h : Conserved w L) (hl : l.Rep M) (hc : ∃ k, c ∈ L k)
    (hM : ∀ k d, d ∈ M k ↔ (d = c ∧ k = .free) ∨ (d ≠ c ∧ d ∈ L k))
    (hv : ∀ d, d ≠ c → a d = w.vaddr d) :
    Conserved { w with lists := l, vaddr := a } M := by
  obtain ⟨hlists, hcells⟩ := h.move hl hc hM
  have hseg : ∀ p sg d, d ∈ M (.seg sg p) → d ≠ c ∧ d ∈ L (.seg sg p) := by
    intro p sg d hd
    cases (hM _ d).1 hd with
    | inl hd => cases hd.2
    | inr hd => exact hd
  refine ⟨hlists, hcells, ?_⟩
  intro p sg sg' d d' hd hd' he
  obtain ⟨hdc, hd⟩ := hseg p sg d hd
  obtain ⟨hdc', hd'⟩ := hseg p sg' d' hd'
  simp only [hv d hdc, hv d' hdc'] at he
  exact h.addrs p sg sg' d d' hd hd' he

theorem storeSwap (h : Conserved w L) (hone : (as.storeSegs v).length ≤ 1)
    (hnew : ∀ sg d, d ∈ L (.seg sg p) → w.vaddr d ≠ v)
    (hs : w.storeSwap q as v p = .ok w') : ∃ M, Conserved w' M := by
  unfold SwapFile.storeSwap at hs
  obtain ⟨⟨w₁, c⟩, hb, he⟩ := bind_ok.1 hs
  obtain ⟨hc, -, A, hA, hne, rfl⟩ := storeBegin_ok hb
  cases hA
  obtain ⟨hl, hv, hsz⟩ := storeEnd_ok he
  match hsegs : as.storeSegs v with
  | [] => exact (hne hsegs).elim
  | [sg] =>
    obtain ⟨M, hM, -⟩ := h.take hc hnew sg
    apply Exists.intro M
    apply hM.congr _ hv hsz
    rw [hl, hsegs]
    rfl
  | a :: b :: r =>
    rw [hsegs] at hone
    simp at hone

theorem length_le (h : Conserved w L) (k : SwapList) : (L k).length ≤ w.size :=
  h.lists.length_le fun c hc => (h.cells c).1 ⟨k, hc⟩

theorem loadSwap (h : Conserved w L) (hs : w.loadSwap as v p = .ok (w', b)) :
    ∃ M, Conserved w' M := by
  unfold SwapFile.loadSwap at hs
  obtain ⟨⟨w₁, o⟩, hb, he⟩ := bind_ok.1 hs
  unfold loadBegin at hb
  split at hb
  · cases hb
  · rename_i sg hsg
    cases search_spec (p := fun c => w.vaddr c == v) (h.lists.chain (.seg sg p))
      (h.length_le (.seg sg p)) none with
    | inr hmiss =>
      rw [hmiss.2] at hb
      cases hb
      cases he
      exact ⟨L, h⟩
    | inl hfound =>
      obtain ⟨A, c, B, hL, -, -, hfound⟩ := hfound
      rw [hfound, Option.or_none] at hb
      cases hb
      obtain ⟨w₂, hw, he⟩ := bind_ok.1 he
      cases he
      obtain ⟨hl, hv, hsz⟩ := waitStored_ok hw
      obtain ⟨L₁, hrep, hmem⟩ := h.lists.unlink_mem hL
      obtain ⟨M, hM, hmem⟩ := hrep.push_removed (k := .free) hmem
      apply Exists.intro M
      have hin : ∃ k, c ∈ L k := ⟨.seg sg p, by rw [hL]; simp⟩
      apply (h.release hM hin hmem (a := Function.update w.vaddr c 0) _).congr
      · simp only [loadEnd, hl]
      · simp only [loadEnd, hv]
      · exact hsz
      · intro d hd
        rw [Function.update_of_ne hd]

theorem freeCells {w w' : SwapFile} (h : Conserved (w.setHead (.seg sg p) e) L)
    (hs : w.freeCells p k e = .ok w') : ∃ M, Conserved (w'.clearList sg p) M := by
  induction k generalizing w e L with
  | zero =>
    cases e with
    | none =>
      cases hs
      exact ⟨L, h⟩
    | some c => cases hs
  | succ k ih =>
    cases e with
    | none =>
      cases hs
      exact ⟨L, h⟩
    | some c =>
      obtain ⟨w₁, hw, hs⟩ := bind_ok.1 hs
      obtain ⟨hl, hv, hsz⟩ := waitStored_ok hw
      have hc : (w.setHead (.seg sg p) (some c)).lists.head (.seg sg p) = some c :=
        Function.update_self ..
      obtain ⟨L₁, hrep, hmem⟩ := h.lists.behead_mem hc
      obtain ⟨M, hM, hmem⟩ := hrep.push_removed (k := .free) hmem
      have hrel := h.release hM ⟨_, h.lists.mem_head hc⟩ hmem (fun _ _ => rfl)
      have heff : ((w₁.freeCell c).setHead (.seg sg p) (w₁.lists.next c)).lists =
          ((w.setHead (.seg sg p) (some c)).lists.behead (.seg sg p) c).push .free c := by
        simp only [setHead, freeCell, Lists.push, Lists.behead, hl]
        rw [Function.update_idem, Function.update_comm (by simp),
          Function.update_of_ne (by simp)]
      exact ih (hrel.congr heff hv hsz) hs

theorem removeList {w w' : SwapFile} (h : Conserved w L) (hs : w.removeList p sg = .ok w') :
    ∃ M, Conserved w' M := by
  obtain ⟨w₁, hf, hs⟩ := bind_ok.1 hs
  cases hs
  have heff : (w.setHead (.seg sg p) (w.lists.head (.seg sg p))).lists = w.lists := by
    simp [setHead]
  exact freeCells (h.congr heff rfl rfl) hf

theorem removeProcessFromSwap {w w' : SwapFile} (h : Conserved w L)
    (hs : w.removeProcessFromSwap p = .ok w') : ∃ M, Conserved w' M := by
  unfold SwapFile.removeProcessFromSwap at hs
  simp only [List.foldlM_cons, List.foldlM_nil, bind_ok] at hs
  obtain ⟨w₁, h₁, w₂, h₂, w₃, h₃, hs⟩ := hs
  cases hs
  obtain ⟨L₁, hL₁⟩ := h.removeList h₁
  obtain ⟨L₂, hL₂⟩ := hL₁.removeList h₂
  exact hL₂.removeList h₃

end Conserved

/-- Copying to `new`: each of its cells holds the address of a cell of `old` in `S`. -/
structure Copying (w : SwapFile) (L : SwapList → List Nat) (new old : Nat) (S : Nat → Prop) :
    Prop where
  conserved : Conserved w L
  source : ∀ sg d, d ∈ L (.seg sg new) → ∃ c, S c ∧ (∃ sg', c ∈ L (.seg sg' old)) ∧
    w.vaddr d = w.vaddr c

theorem Copying.copyCells {w w' : SwapFile} (h : Copying w L new old S) (hne : new ≠ old)
    (hch : Chain w.lists.next e R) (hR : ∀ c ∈ R, c ∈ L (.seg sg old) ∧ ¬ S c) (hnd : R.Nodup)
    (hs : w.copyCells new old sg k e = .ok w') :
    ∃ M, Copying w' M new old (fun c => S c ∨ c ∈ R) ∧
      ∀ sg c, c ∈ M (.seg sg old) ↔ c ∈ L (.seg sg old) := by
  induction R generalizing w e L S k with
  | nil =>
    cases hch
    cases k with
    | zero =>
      cases hs
      exact ⟨L, by simpa using h, fun _ _ => Iff.rfl⟩
    | succ k =>
      cases hs
      exact ⟨L, by simpa using h, fun _ _ => Iff.rfl⟩
  | cons c R ih =>
    cases hch.1
    cases k with
    | zero => cases hs
    | succ k =>
      obtain ⟨⟨w₁, f⟩, hb, hs⟩ := bind_ok.1 hs
      obtain ⟨w₂, hw, hloop⟩ := bind_ok.1 hs
      obtain ⟨hf, -, rfl⟩ := copyBegin_ok hb
      obtain ⟨hl, hv, hsz⟩ := waitStored_ok hw
      obtain ⟨hc, hcS⟩ := hR c List.mem_cons_self
      -- the address of `c` is new for the child, since `c` was not copied yet
      have hnew : ∀ sg d, d ∈ L (.seg sg new) → w.vaddr d ≠ w.vaddr c := by
        intro sg' d hd he
        obtain ⟨c', hc', ⟨sg'', hm⟩, he'⟩ := h.source sg' d hd
        have := h.conserved.addrs old sg'' sg c' c hm hc (he'.symm.trans he)
        exact hcS (this ▸ hc')
      obtain ⟨M, hM, hfree, hmem⟩ := h.conserved.take hf hnew sg
      have hold : ∀ sg' d, d ∈ M (.seg sg' old) ↔ d ∈ L (.seg sg' old) := by
        intro sg' d
        rw [hmem]
        apply Iff.intro
        · intro hd
          cases hd with
          | inl hd =>
            cases hd.2
            exact (hne rfl).elim
          | inr hd => exact hd.2
        · intro hd
          apply Or.inr
          apply And.intro _ hd
          intro he
          cases h.conserved.lists.disjoint _ _ d (he ▸ hfree) hd
      have hfc : f ≠ c := by
        intro he
        cases h.conserved.lists.disjoint _ _ f hfree (he ▸ hc)
      have hcop : Copying (w₂.copyEnd c f) M new old (fun d => S d ∨ d = c) := by
        refine ⟨hM.congr hl ?_ hsz, ?_⟩
        · simp only [copyEnd, hv]
        · intro sg' d hd
          simp only [copyEnd, hv]
          cases (hmem _ d).1 hd with
          | inl hd =>
            refine ⟨c, .inr rfl, ⟨sg, (hold sg c).2 hc⟩, ?_⟩
            rw [hd.1, Function.update_self, Function.update_of_ne hfc.symm]
          | inr hd =>
            obtain ⟨c', hc', ⟨sg'', hm⟩, he⟩ := h.source sg' d hd.2
            have hfc' : c' ≠ f := by
              intro he
              cases h.conserved.lists.disjoint _ _ c' (he ▸ hfree) hm
            refine ⟨c', .inl hc', ⟨sg'', (hold sg'' c').2 hm⟩, ?_⟩
            rw [Function.update_of_ne hd.1, Function.update_of_ne hfc', he]
      have hnext : ∀ d ∈ c :: R, w₂.lists.next d = w.lists.next d := by
        intro d hd
        rw [hl]
        simp only [Lists.push, Lists.behead]
        rw [Function.update_of_ne]
        intro he
        cases h.conserved.lists.disjoint _ _ f hfree (he ▸ (hR d hd).1)
      rw [List.nodup_cons] at hnd
      have hrest : Chain w₂.lists.next (w₂.lists.next c) R := by
        rw [hnext c List.mem_cons_self]
        exact hch.2.congr fun d hd => hnext d (List.mem_cons_of_mem _ hd)
      have hR' : ∀ d ∈ R, d ∈ M (.seg sg old) ∧ ¬ (S d ∨ d = c) := by
        intro d hd
        obtain ⟨hdL, hdS⟩ := hR d (List.mem_cons_of_mem _ hd)
        refine ⟨(hold sg d).2 hdL, ?_⟩
        intro hor
        cases hor with
        | inl hor => exact hdS hor
        | inr hor => exact hnd.1 (hor ▸ hd)
      obtain ⟨M', hM', hold'⟩ := ih hcop hrest hR' hnd.2 hloop
      refine ⟨M', ?_, fun sg' d => (hold' sg' d).trans (hold sg' d)⟩
      simpa only [List.mem_cons, or_assoc] using hM'

theorem Copying.list {w w' : SwapFile} (h : Copying w L new old S) (hne : new ≠ old)
    (sg : Segment) (hS : ∀ c ∈ L (.seg sg old), ¬ S c)
    (hs : w.copyCells new old sg w.size (w.lists.head (.seg sg old)) = .ok w') :
    ∃ M, Copying w' M new old (fun c => S c ∨ c ∈ L (.seg sg old)) ∧
      ∀ sg c, c ∈ M (.seg sg old) ↔ c ∈ L (.seg sg old) := by
  have hch := h.conserved.lists.chain (.seg sg old)
  have hnd := h.conserved.lists.nodup (.seg sg old)
  exact h.copyCells hne hch (fun c hc => ⟨hc, hS c hc⟩) hnd hs

theorem Conserved.copySwapPages {w w' : SwapFile} (h : Conserved w L) (hne : new ≠ old)
    (hnew : ∀ sg, L (.seg sg new) = []) (hs : w.copySwapPages new old = .ok w') :
    ∃ M, Conserved w' M := by
  unfold SwapFile.copySwapPages at hs
  simp only [List.foldlM_cons, List.foldlM_nil, bind_ok] at hs
  obtain ⟨w₁, h₁, w₂, h₂, w₃, h₃, hs⟩ := hs
  cases hs
  have hstart : Copying w L new old (fun _ => False) := by
    refine ⟨h, ?_⟩
    intro sg d hd
    rw [hnew sg] at hd
    cases hd
  have hdis : ∀ sg sg', sg ≠ sg' → ∀ c ∈ L (.seg sg old), c ∉ L (.seg sg' old) := by
    intro sg sg' hsg c hc hc'
    cases h.lists.disjoint _ _ c hc hc'
    exact hsg rfl
  obtain ⟨L₁, hL₁, ho₁⟩ := hstart.list hne .text (by simp) h₁
  obtain ⟨L₂, hL₂, ho₂⟩ := hL₁.list hne .data (by
    intro c hc hor
    rw [ho₁] at hc
    cases hor with
    | inl hor => exact hor
    | inr hor => exact hdis .data .text (by simp) c hc hor) h₂
  obtain ⟨L₃, hL₃, -⟩ := hL₂.list hne .stack (by
    intro c hc hor
    rw [ho₂, ho₁] at hc
    rw [ho₁] at hor
    cases hor with
    | inl hor =>
      cases hor with
      | inl hor => exact hor
      | inr hor => exact hdis .stack .text (by simp) c hc hor
    | inr hor => exact hdis .stack .data (by simp) c hc hor) h₃
  exact ⟨L₃, hL₃.conserved⟩

theorem initLists_rep (size : Nat) :
    ∃ L, (initLists size).Rep L ∧ ∀ k c, c ∈ L k ↔ k = .free ∧ c < size := by
  suffices hs : ∀ cs : List Nat, cs.Nodup →
      ∃ L, (cs.foldr (fun c l => l.push .free c) ⟨fun _ => none, fun _ => none⟩ :
        Lists SwapList Nat).Rep L ∧ ∀ k c, c ∈ L k ↔ k = .free ∧ c ∈ cs by
    obtain ⟨L, hL, hmem⟩ := hs (List.range size) List.nodup_range
    exact ⟨L, hL, fun k c => by rw [hmem, List.mem_range]⟩
  intro cs hcs
  induction cs with
  | nil =>
    refine ⟨fun _ => [], ⟨fun _ => rfl, fun _ => List.nodup_nil, ?_⟩, by simp⟩
    intro k k' c hc
    cases hc
  | cons c cs ih =>
    rw [List.nodup_cons] at hcs
    obtain ⟨L, hL, hmem⟩ := ih hcs.2
    obtain ⟨M, hM, hm⟩ := hL.push_mem (k := .free) (c := c) (fun k hk => hcs.1 ((hmem k c).1 hk).2)
    refine ⟨M, hM, fun k d => ?_⟩
    rw [hm, hmem, List.mem_cons]
    tauto

theorem init_conserved (size : Nat) (ram : Nat → Nat) : ∃ L, Conserved (init size ram) L := by
  obtain ⟨L, hL, hmem⟩ := initLists_rep size
  refine ⟨L, hL, ?_, ?_⟩
  · intro c
    simp [hmem, init]
  · intro p sg sg' c c' hc
    cases ((hmem _ c).1 hc).1

end SwapFile

/-- The operations on the swap file; the address space is that of the process that calls. -/
inductive SwapOp where
  | storeSwap (q : Nat) (as : AddrSpace) (v p : Nat)
  | loadSwap (as : AddrSpace) (v p : Nat)
  | copySwapPages (new old : Nat)
  | removeProcessFromSwap (p : Nat)

def SwapOp.exec (w : SwapFile) : SwapOp → Except Fault SwapFile
  | .storeSwap q as v p => w.storeSwap q as v p
  | .loadSwap as v p => (·.1) <$> w.loadSwap as v p
  | .copySwapPages new old => w.copySwapPages new old
  | .removeProcessFromSwap p => w.removeProcessFromSwap p

def SwapStep (w : SwapFile) (op : SwapOp) (w' : SwapFile) : Prop := op.exec w = .ok w'

/-- A process has a cell for an address on one of its lists. -/
def SwapFile.Swapped (w : SwapFile) (v p : Nat) : Prop :=
  ∃ sg L, Chain w.lists.next (w.lists.head (.seg sg p)) L ∧ ∃ c ∈ L, w.vaddr c = v

/-- At most one test accepts the address of a page to be stored, which has no cell yet; the
child of a copy has no cells. -/
def SwapOp.Apart (w : SwapFile) : SwapOp → Prop
  | .storeSwap _ as v p => (as.storeSegs v).length ≤ 1 ∧ ¬ w.Swapped v p
  | .loadSwap _ _ _ => True
  | .copySwapPages new old => new ≠ old ∧ ∀ sg, w.lists.head (.seg sg new) = none
  | .removeProcessFromSwap _ => True

theorem SwapFile.Conserved.step (h : Conserved w L) (hop : op.Apart w) (hs : SwapStep w op w') :
    ∃ M, Conserved w' M := by
  cases op with
  | storeSwap q as v p =>
    apply h.storeSwap hop.1 _ hs
    intro sg d hd he
    exact hop.2 ⟨sg, _, h.lists.chain _, d, hd, he⟩
  | loadSwap as v p =>
    have hs : (·.1) <$> w.loadSwap as v p = .ok w' := hs
    cases hl : w.loadSwap as v p with
    | error e =>
      rw [hl] at hs
      cases hs
    | ok r =>
      rw [hl] at hs
      cases hs
      exact h.loadSwap hl
  | copySwapPages new old =>
    exact h.copySwapPages hop.1 (fun sg => h.lists.head_eq_none.1 (hop.2 sg)) hs
  | removeProcessFromSwap p => exact h.removeProcessFromSwap hs

def SwapStepApart (w : SwapFile) (op : SwapOp) (w' : SwapFile) : Prop :=
  op.Apart w ∧ SwapStep w op w'

/-- In every run from `swap_init` whose stores pass at most one range test, the cells are
conserved. -/
theorem swapCells_conserved (h : Run SwapStepApart (SwapFile.init size ram) ops w) :
    ∃ L, w.Conserved L := by
  apply h.invariant (SwapFile.init_conserved size ram)
  intro w op w' hw hstep
  obtain ⟨L, hL⟩ := hw
  exact hL.step hstep.1 hstep.2

/-- The cells of `swap_init`: `MAX_SIZE / PAGE_SIZE`. -/
def swapSize : Nat := 9 * 1024 * 1024 / pageSize

theorem SwapFile.init_head {size : Nat} (h : 0 < size) (ram : Nat → Nat) :
    (init size ram).lists.head .free = some 0 := by
  obtain ⟨n, rfl⟩ : ∃ n, size = n + 1 := ⟨size - 1, by omega⟩
  unfold init initLists
  rw [List.range_succ_eq_map, List.foldr_cons]
  simp [Lists.push]

/-- A text segment of one page and a data segment right behind it. -/
def adjacent : AddrSpace := ⟨0x400000, 1, 0x401000, 1, .zero, .zero, 0, 0, 0⟩

theorem SwapFile.storeSwap_some {w : SwapFile} (hc : w.lists.head .free = some c)
    (hs : w.store c = false) (hl : w.lock c = none) (q : Nat) {as : AddrSpace}
    (hv : as.storeSegs v ≠ []) (p : Nat) :
    ∃ w', w.storeSwap q as v p = .ok w' ∧
      w'.lists = link (w.lists.behead .free c) (as.storeSegs v) p c := by
  cases hw : w.storeSwap q as v p with
  | error e =>
    simp [storeSwap, storeBegin, storeEnd, lockAcquire, hc, hs, hl, hv, bind_error] at hw
  | ok w' =>
    obtain ⟨⟨w₁, d⟩, hb, he⟩ := bind_ok.1 hw
    obtain ⟨hd, -, A, hA, -, rfl⟩ := storeBegin_ok hb
    cases hA
    rw [hc] at hd
    cases hd
    exact ⟨w', rfl, (storeEnd_ok he).1⟩

/-- The stores of processes without cells that pass at most one test, and the copies to processes
without cells. -/
def SwapOp.Fresh (w : SwapFile) : SwapOp → Prop
  | .storeSwap _ as v p => (as.storeSegs v).length ≤ 1 ∧
    ∀ sg ∈ [Segment.text, .data, .stack], w.lists.head (.seg sg p) = none
  | .copySwapPages new old => new ≠ old ∧
    ∀ sg ∈ [Segment.text, .data, .stack], w.lists.head (.seg sg new) = none
  | .loadSwap _ _ _ | .removeProcessFromSwap _ => True

instance (w : SwapFile) (op : SwapOp) : Decidable (op.Fresh w) :=
  match op with
  | .storeSwap _ _ _ _ | .copySwapPages _ _ => inferInstanceAs (Decidable (_ ∧ _))
  | .loadSwap _ _ _ | .removeProcessFromSwap _ => .isTrue trivial

theorem SwapOp.Fresh.apart {op : SwapOp} (h : op.Fresh w) : op.Apart w := by
  have hall : ∀ (P : Segment → Prop), (∀ sg ∈ [Segment.text, .data, .stack], P sg) → ∀ sg, P sg := by
    intro P hP sg
    cases sg <;> exact hP _ (by simp)
  cases op with
  | storeSwap q as v p =>
    refine ⟨h.1, fun hs => ?_⟩
    obtain ⟨sg, L, hL, c, hc, -⟩ := hs
    rw [hall _ h.2 sg] at hL
    rw [hL.head_none] at hc
    cases hc
  | copySwapPages new old => exact ⟨h.1, hall _ h.2⟩
  | loadSwap as v p => trivial
  | removeProcessFromSwap p => trivial

def SwapOp.next (w : SwapFile) (op : SwapOp) : Option SwapFile :=
  if op.Fresh w then (op.exec w).toOption else none

theorem SwapOp.next_step (h : SwapOp.next w op = some w') : SwapStepApart w op w' := by
  unfold SwapOp.next at h
  split at h
  · rename_i hf
    refine ⟨hf.apart, ?_⟩
    cases hx : op.exec w with
    | error e =>
      rw [hx] at h
      cases h
    | ok u =>
      rw [hx] at h
      cases h
      exact hx
  · cases h

theorem SwapOp.run_next (w : SwapFile) (l : List SwapOp) {p : SwapFile → Bool}
    (h : (l.foldlM SwapOp.next w).any p = true) : ∃ w', Run SwapStepApart w l w' ∧ p w' = true :=
  Run.of_any (fun _ _ _ => SwapOp.next_step) h

/-- A text segment of one page and a data segment of two pages far from it. -/
def distant : AddrSpace := ⟨0x400000, 1, 0x10000000, 2, .zero, .zero, 0, 0, 0⟩

/-- Processes 2 and 3 store a text page, a data page and a stack page; the text page comes back;
the cells of process 3 are copied for its child 4, and it exits. -/
theorem swapCells_conserved_copied : ∃ w,
    Run SwapStepApart (.init swapSize fun _ => 0) [.storeSwap 2 distant 0x400000 2,
      .storeSwap 3 distant 0x10000000 3, .loadSwap distant 0x400000 2,
      .storeSwap 2 distant 0x7fff0000 2, .copySwapPages 4 3, .removeProcessFromSwap 3] w ∧
    w.lists.head (.seg .data 4) ≠ none ∧ w.lists.head (.seg .data 3) = none ∧
    ∃ L, w.Conserved L := by
  obtain ⟨w, hrun, hw⟩ := SwapOp.run_next (.init swapSize fun _ => 0)
    [.storeSwap 2 distant 0x400000 2, .storeSwap 3 distant 0x10000000 3,
      .loadSwap distant 0x400000 2, .storeSwap 2 distant 0x7fff0000 2, .copySwapPages 4 3,
      .removeProcessFromSwap 3]
    (p := fun w => decide (w.lists.head (.seg .data 4) ≠ none ∧ w.lists.head (.seg .data 3) = none))
    (by decide +kernel)
  obtain ⟨h4, h3⟩ := of_decide_eq_true hw
  exact ⟨w, hrun, h4, h3, swapCells_conserved hrun⟩

/-- The first page of the data segment passes the test of the text segment too, and its
cell ends up on both lists. -/
theorem swapCells_adjacent :
    (asDefineRegion (asCreate 0) 0x400000 0x1000).bind
      (fun as => asDefineRegion as 0x401000 0x1000) = some adjacent ∧
    ∃ w, Run SwapStep (.init swapSize fun _ => 0) [.storeSwap 1 adjacent 0x401000 1] w ∧
      ¬ ∃ L, w.Conserved L := by
  apply And.intro (by decide)
  have hsegs : adjacent.storeSegs 0x401000 = [.text, .data] := by decide
  have hhead := SwapFile.init_head (show 0 < swapSize by decide) fun _ => 0
  obtain ⟨w, hw, hl⟩ := SwapFile.storeSwap_some (v := 0x401000) hhead rfl rfl 1
    (show adjacent.storeSegs 0x401000 ≠ [] by rw [hsegs]; simp) 1
  rw [hsegs] at hl
  refine ⟨w, .single hw, ?_⟩
  intro hL
  obtain ⟨L, hL⟩ := hL
  have htext := hL.lists.mem_head (k := .seg .text 1) (c := 0) (by rw [hl]; rfl)
  have hdata := hL.lists.mem_head (k := .seg .data 1) (c := 0) (by rw [hl]; rfl)
  cases hL.lists.disjoint _ _ 0 htext hdata

end Clape
