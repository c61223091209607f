import Clape.CellTable

namespace Clape
set_option autoImplicit true

namespace Lists
variable {l : Lists SwapList Nat} {W : Nat → Option (Segment × Option Nat)}

theorem seen_head_of_none (h : W p = none) (sg : Segment) :
    (l.seen W).head (.seg sg p) = l.head (.seg sg p) := by
  simp [seen, h]

theorem seen_head_walk (h : W p = some (sg, e)) : (l.seen W).head (.seg sg p) = e := by
  simp [seen, h]

theorem seen_push_free (c : Nat) : (l.push .free c).seen W = (l.seen W).push .free c := by
  unfold seen push
  congr 1
  funext k
  cases k with
  | free => simp
  | seg sg q => simp

theorem seen_push (h : W p = none) (sg : Segment) (c : Nat) :
    (l.push (.seg sg p) c).seen W = (l.seen W).push (.seg sg p) c := by
  unfold push
  rw [seen_head_of_none h]
  unfold seen
  congr 1
  funext k
  cases k with
  | free => simp
  | seg sg' q =>
    by_cases hq : q = p
    · subst hq
      by_cases hsg : sg' = sg
      · subst hsg
        simp [h]
      · simp [h, hsg]
    · have hne : SwapList.seg sg' q ≠ .seg sg p := by simp [hq]
      simp [hne]

theorem seen_behead_free (c : Nat) : (l.behead .free c).seen W = (l.seen W).behead .free c := by
  unfold seen behead
  congr 1
  funext k
  cases k with
  | free => simp
  | seg sg q => simp

theorem seen_unlink (h : W p = none) (sg : Segment) (prev : Option Nat) (c : Nat) :
    (l.unlink (.seg sg p) prev c).seen W = (l.seen W).unlink (.seg sg p) prev c := by
  cases prev with
  | some q => rfl
  | none =>
    unfold unlink behead seen
    congr 1
    funext k
    cases k with
    | free => simp
    | seg sg' q =>
      by_cases hq : q = p
      · subst hq
        by_cases hsg : sg' = sg
        · subst hsg
          simp [h]
        · simp [h, hsg]
      · have hne : SwapList.seg sg' q ≠ .seg sg p := by simp [hq]
        simp [hne]

theorem seen_walk (h : W p = some (sg, some c)) :
    l.seen (Function.update W p (some (sg, l.next c))) = (l.seen W).behead (.seg sg p) c := by
  unfold seen behead
  congr 1
  funext k
  cases k with
  | free => simp
  | seg sg' q =>
    by_cases hq : q = p
    · subst hq
      by_cases hsg : sg' = sg
      · subst hsg
        simp
      · simp [h, hsg]
    · have hne : SwapList.seg sg' q ≠ .seg sg p := by simp [hq]
      simp [hq, hne]

theorem seen_enter (h : W p = none) (sg : Segment) :
    l.seen (Function.update W p (some (sg, l.head (.seg sg p)))) = l.seen W := by
  unfold seen
  congr 1
  funext k
  cases k with
  | free => rfl
  | seg sg' q =>
    by_cases hq : q = p
    · subst hq
      by_cases hsg : sg' = sg
      · subst hsg
        simp [h]
      · simp [h, hsg]
    · simp [hq]

theorem seen_clear (h : W p = some (sg, none)) :
    (l.clear (.seg sg p)).seen (Function.update W p none) = l.seen W := by
  unfold seen clear
  congr 1
  funext k
  cases k with
  | free => simp
  | seg sg' q =>
    by_cases hq : q = p
    · subst hq
      by_cases hsg : sg' = sg
      · subst hsg
        simp [h]
      · simp [h, hsg]
    · have hne : SwapList.seg sg' q ≠ .seg sg p := by simp [hq]
      simp [hq, hne]

end Lists

/-- The order in which the lists of a process are walked. -/
def Segment.rank : Segment → Nat
  | .text => 0
  | .data => 1
  | .stack => 2

theorem Segment.rank_next (h : Segment.next sg = some sg') : sg'.rank = sg.rank + 1 := by
  cases sg with
  | text => cases h; rfl
  | data => cases h; rfl
  | stack => cases h

theorem Segment.rank_le_of_next (h : Segment.next sg = none) (sg' : Segment) :
    sg'.rank ≤ sg.rank := by
  cases sg with
  | text => cases h
  | data => cases h
  | stack => cases sg' <;> decide

theorem Segment.rank_injective (h : Segment.rank sg = Segment.rank sg') : sg = sg' := by
  cases sg <;> cases sg' <;> first | rfl | cases h

/-- A thread sleeps while a store is under way, and goes on when it is over. -/
def Phase.Agrees : Phase → Bool → Prop
  | .test, _ => True
  | .asleep, b => b = true
  | .ready, b => b = false

/-- The cells of a process are as its errand needs them. -/
def Serves (store : Nat → Bool) (n : Nat) (L : SwapList → List Nat) (q : Nat) : Errand → Prop
  | .gone => ∀ sg, L (.seg sg q) = []
  | .idle => True
  | .storing c => store c = true
  | .loading _ c ph => c < n ∧ (∀ k, c ∉ L k) ∧ ph.Agrees (store c)
  | .freeing sg e ph => (∀ c, e = some c → c ∈ L (.seg sg q) ∧ ph.Agrees (store c)) ∧
      ∀ sg', sg'.rank < sg.rank → L (.seg sg' q) = []
  | .copying _ sg e => ∀ c, e = some c → c ∈ L (.seg sg q)
  | .copyingTo child sg c f ph => c ∈ L (.seg sg q) ∧ f ∈ L (.seg sg child) ∧ store f = false ∧
      ph.Agrees (store c)

/-- Each cell is on one list at most, threads do not get into each other's way, the store
flags tell which stores are under way, and every cell is on the list in which its process
looks for it. -/
structure Cells.Kept (t : Cells) (L : SwapList → List Nat) : Prop where
  rep : t.view.Rep L
  bound : c ∈ L k → c < t.size
  unlocked : t.lock c = none
  serves : ∀ q, Serves t.store t.size L q (t.errand q)
  apart : (t.errand q).claim = some x → (t.errand r).claim = some x → q = r
  child : (t.errand q).target = some (r, f) → (t.errand r).alive = true
  stored : t.store c = true → ∃ q, t.errand q = .storing c
  free : c ∈ L .free → t.store c = false
  filed : c ∈ L (.seg sg q) → t.Target c ∨ t.home q (t.vaddr c) sg

/-- The cell holds the page `v` of process `q`. -/
def Cells.Tagged (t : Cells) (L : SwapList → List Nat) (c q v : Nat) : Prop :=
  (∃ sg, c ∈ L (.seg sg q)) ∧ t.vaddr c = v ∧ ¬ t.Target c ∨ (t.errand q).load = some (v, c)

/-- The cells an errand needs on or off the lists. -/
def Errand.Uses (c : Nat) : Errand → Prop
  | .loading _ d _ => c = d
  | .freeing _ e _ | .copying _ _ e => e = some c
  | .copyingTo _ _ d f _ => c = d ∨ c = f
  | _ => False

namespace Serves

theorem frame (h : Serves st n L q e) (hst : ∀ d, e.Uses d ∨ e = .storing d → st' d = st d)
    (hL : ∀ d, e.Uses d → ∀ k, d ∈ M k ↔ d ∈ L k)
    (hnil : e.alive = false → ∀ sg, L (.seg sg q) = [] → M (.seg sg q) = []) :
    Serves st' n M q e := by
  cases e with
  | gone =>
    intro sg
    exact hnil rfl sg (h sg)
  | idle => trivial
  | storing c => exact (hst c (.inr rfl)).trans h
  | loading v c ph =>
    obtain ⟨hc, hout, hag⟩ := h
    refine ⟨hc, fun k hk => hout k ((hL c rfl k).1 hk), ?_⟩
    rw [hst c (.inl rfl)]
    exact hag
  | freeing sg e ph =>
    obtain ⟨he, hnone⟩ := h
    refine ⟨fun c hc => ?_, fun sg' hsg => hnil rfl sg' (hnone sg' hsg)⟩
    obtain ⟨hm, hag⟩ := he c hc
    refine ⟨(hL c hc _).2 hm, ?_⟩
    rw [hst c (.inl hc)]
    exact hag
  | copying child sg e =>
    intro c hc
    exact (hL c hc _).2 (h c hc)
  | copyingTo child sg c f ph =>
    obtain ⟨hc, hf, hsf, hag⟩ := h
    refine ⟨(hL c (.inl rfl) _).2 hc, (hL f (.inr rfl) _).2 hf, ?_, ?_⟩
    · rw [hst f (.inl (.inr rfl))]
      exact hsf
    · rw [hst c (.inl (.inl rfl))]
      exact hag

theorem uses (h : Serves st n L q e) (hu : e.Uses c) :
    (∃ v, e.load = some (v, c)) ∧ (∀ k, c ∉ L k) ∨ (∃ sg, c ∈ L (.seg sg q)) ∨
      ∃ r sg, e.target = some (r, c) ∧ c ∈ L (.seg sg r) := by
  cases e with
  | gone => exact hu.elim
  | idle => exact hu.elim
  | storing d => exact hu.elim
  | loading v d ph =>
    cases hu
    exact .inl ⟨⟨v, rfl⟩, h.2.1⟩
  | freeing sg o ph => exact .inr (.inl ⟨sg, (h.1 c hu).1⟩)
  | copying child sg o => exact .inr (.inl ⟨sg, h c hu⟩)
  | copyingTo child sg d f ph =>
    cases hu with
    | inl hu => exact .inr (.inl ⟨sg, hu ▸ h.1⟩)
    | inr hu => exact .inr (.inr ⟨child, sg, by rw [hu]; rfl, hu ▸ h.2.1⟩)

theorem not_free (h : Serves st n L q e) (hrep : Lists.Rep l L) (hu : e.Uses c) : c ∉ L .free := by
  intro hf
  rcases h.uses hu with ⟨-, hout⟩ | ⟨sg, hc⟩ | ⟨r, sg, -, hc⟩
  · exact hout .free hf
  · cases hrep.disjoint _ _ c hc hf
  · cases hrep.disjoint _ _ c hc hf

end Serves

namespace Cells.Kept
variable {t : Cells}

/-- A step of the running process that moves one cell to another place. -/
theorem move {l : Lists SwapList Nat} {a : Nat → Nat} {st : Nat → Bool} {e : Errand}
    {O : SwapList → Prop} (h : t.Kept L)
    (hrep : (l.seen fun q => (Function.update t.errand t.cur e q).walk).Rep M)
    (hM : ∀ k d, d ∈ M k ↔ (d = c ∧ O k) ∨ (d ≠ c ∧ d ∈ L k)) (hc : c < t.size)
    (hnot : ∀ d, t.errand t.cur ≠ .storing d) (hst : ∀ d, d ≠ c → st d = t.store d)
    (hclr : t.store c = true → st c = true) (hset : st c = true → t.store c = true ∨ e = .storing c)
    (huse : ∀ q, q ≠ t.cur → ¬ (t.errand q).Uses c)
    (hon : ∀ sg q, O (.seg sg q) → (t.errand q).alive = true)
    (hcur : Serves st t.size M t.cur e)
    (hclaim : ∀ x, e.claim = some x → ∀ r, (t.errand r).claim ≠ some x)
    (hchild : ∀ r f, e.target = some (r, f) → (t.errand r).alive = true)
    (halive : (t.errand t.cur).alive = true → e.alive = true)
    (hfree : O .free → st c = false) (hva : ∀ d, d ≠ c → a d = t.vaddr d)
    (hkeep : (t.errand t.cur).target = none)
    (hfiled : ∀ sg q, O (.seg sg q) → (∃ r, e.target = some (r, c)) ∨ t.home q (a c) sg) :
    ({ t with lists := l, vaddr := a, store := st }.go e).Kept M where
  rep := hrep
  bound {k d} hd := by
    cases (hM k d).1 hd with
    | inl hd => exact hd.1 ▸ hc
    | inr hd => exact h.bound hd.2
  unlocked := h.unlocked
  serves q := by
    by_cases hq : q = t.cur
    · subst hq
      simpa [go] using hcur
    · simp only [go, Function.update_of_ne hq]
      have hne : ∀ d, (t.errand q).Uses d → d ≠ c := by
        intro d hd he
        exact huse q hq (he ▸ hd)
      apply (h.serves q).frame
      · intro d hd
        by_cases hdc : d = c
        · subst hdc
          cases hd with
          | inl hd => exact (hne d hd rfl).elim
          | inr hd =>
            have hs := h.serves q
            rw [hd] at hs
            rw [hclr hs, show t.store d = true from hs]
        · exact hst d hdc
      · intro d hd k
        rw [hM]
        simp [hne d hd]
      · intro hal sg hnil
        apply List.eq_nil_iff_forall_not_mem.2
        intro d hd
        cases (hM _ d).1 hd with
        | inl hd =>
          rw [hon sg q hd.2] at hal
          cases hal
        | inr hd =>
          rw [hnil] at hd
          cases hd.2
  apart {q x r} hq hr := by
    simp only [go] at hq hr
    by_cases hqc : q = t.cur
    · by_cases hrc : r = t.cur
      · rw [hqc, hrc]
      · rw [hqc, Function.update_self] at hq
        rw [Function.update_of_ne hrc] at hr
        exact (hclaim x hq r hr).elim
    · rw [Function.update_of_ne hqc] at hq
      by_cases hrc : r = t.cur
      · rw [hrc, Function.update_self] at hr
        exact (hclaim x hr q hq).elim
      · rw [Function.update_of_ne hrc] at hr
        exact h.apart hq hr
  child {q r f} hq := by
    have hr : (t.errand r).alive = true := by
      by_cases hqc : q = t.cur
      · rw [hqc] at hq
        simp only [go, Function.update_self] at hq
        exact hchild r f hq
      · simp only [go, Function.update_of_ne hqc] at hq
        exact h.child hq
    by_cases hrc : r = t.cur
    · rw [hrc]
      simpa [go] using halive (hrc ▸ hr)
    · simpa only [go, Function.update_of_ne hrc] using hr
  stored {d} hd := by
    have hold : t.store d = true ∨ d = c ∧ e = .storing c := by
      by_cases hdc : d = c
      · subst hdc
        cases hset hd with
        | inl hs => exact .inl hs
        | inr he => exact .inr ⟨rfl, he⟩
      · exact .inl ((hst d hdc).symm.trans hd)
    cases hold with
    | inl hs =>
      obtain ⟨q, hq⟩ := h.stored hs
      refine ⟨q, ?_⟩
      have hqc : q ≠ t.cur := by
        intro he
        exact hnot d (he ▸ hq)
      simpa only [go, Function.update_of_ne hqc] using hq
    | inr hs =>
      refine ⟨t.cur, ?_⟩
      rw [hs.1]
      simpa [go] using hs.2
  free {d} hd := by
    cases (hM _ d).1 hd with
    | inl hd => exact hd.1 ▸ hfree hd.2
    | inr hd => exact (hst d hd.1).trans (h.free hd.2)
  filed {sg q d} hd := by
    cases (hM _ d).1 hd with
    | inl hd =>
      obtain ⟨rfl, hd⟩ := hd
      cases hfiled sg q hd with
      | inl he =>
        obtain ⟨r, he⟩ := he
        exact .inl ⟨t.cur, r, by simpa [go] using he⟩
      | inr he => exact .inr he
    | inr hd =>
      cases h.filed hd.2 with
      | inl ht =>
        obtain ⟨r, child, ht⟩ := ht
        refine .inl ⟨r, child, ?_⟩
        have hrc : r ≠ t.cur := by
          intro he
          rw [he, hkeep] at ht
          cases ht
        simpa only [go, Function.update_of_ne hrc] using ht
      | inr hh =>
        apply Or.inr
        change t.home q (a d) sg
        rw [hva d hd.1]
        exact hh

/-- A step of the running process that leaves the cells where they are. -/
theorem shift {l : Lists SwapList Nat} {a : Nat → Nat} {e : Errand} (h : t.Kept L)
    (hview : (l.seen fun q => (Function.update t.errand t.cur e q).walk) = t.view)
    (hnot : ∀ d, t.errand t.cur ≠ .storing d) (hcur : Serves t.store t.size L t.cur e)
    (hclaim : ∀ x, e.claim = some x → (t.errand t.cur).claim = some x)
    (htarget : ∀ r f, e.target = some (r, f) → (t.errand t.cur).target = some (r, f))
    (halive : e.alive = true ∨ t.Uncopied t.cur)
    (hva : ∀ d, ¬ t.Target d → a d = t.vaddr d)
    (hend : ∀ r f sg q, (t.errand t.cur).target = some (r, f) → f ∈ L (.seg sg q) →
      e.target = some (r, f) ∨ t.home q (a f) sg) :
    ({ t with lists := l, vaddr := a }.go e).Kept L where
  rep := by
    have hrep := h.rep
    rw [← hview] at hrep
    exact hrep
  bound := h.bound
  unlocked := h.unlocked
  serves q := by
    by_cases hq : q = t.cur
    · subst hq
      simpa [go] using hcur
    · simpa only [go, Function.update_of_ne hq] using h.serves q
  apart {q x r} hq hr := by
    have hold : ∀ p, (Function.update t.errand t.cur e p).claim = some x →
        (t.errand p).claim = some x := by
      intro p hp
      by_cases hpc : p = t.cur
      · rw [hpc, Function.update_self] at hp
        exact hpc ▸ hclaim x hp
      · rwa [Function.update_of_ne hpc] at hp
    exact h.apart (hold q hq) (hold r hr)
  child {q r f} hq := by
    have hold : (t.errand q).target = some (r, f) := by
      by_cases hqc : q = t.cur
      · rw [hqc] at hq
        simp only [go, Function.update_self] at hq
        exact hqc ▸ htarget r f hq
      · simpa only [go, Function.update_of_ne hqc] using hq
    by_cases hrc : r = t.cur
    · cases halive with
      | inl ha => simpa [go, hrc] using ha
      | inr ha => exact (ha q f (hrc ▸ hold)).elim
    · simpa only [go, Function.update_of_ne hrc] using h.child hold
  stored {d} hd := by
    obtain ⟨q, hq⟩ := h.stored hd
    refine ⟨q, ?_⟩
    have hqc : q ≠ t.cur := by
      intro he
      exact hnot d (he ▸ hq)
    simpa only [go, Function.update_of_ne hqc] using hq
  free := h.free
  filed {sg q d} hd := by
    by_cases ht : t.Target d
    · obtain ⟨r, child, ht⟩ := ht
      by_cases hrc : r = t.cur
      · rw [hrc] at ht
        cases hend child d sg q ht hd with
        | inl he => exact .inl ⟨t.cur, child, by simpa [go] using he⟩
        | inr hh => exact .inr hh
      · exact .inl ⟨r, child, by simpa only [go, Function.update_of_ne hrc] using ht⟩
    · apply Or.inr
      change t.home q (a d) sg
      rw [hva d ht]
      exact (h.filed hd).resolve_left ht

end Cells.Kept

namespace Errand

theorem setPhase_claim (ph : Phase) (e : Errand) : (e.setPhase ph).claim = e.claim := by
  cases e with
  | freeing sg o ph => cases o <;> rfl
  | _ => rfl

theorem setPhase_target (ph : Phase) (e : Errand) : (e.setPhase ph).target = e.target := by
  cases e with
  | freeing sg o ph => cases o <;> rfl
  | _ => rfl

theorem setPhase_walk (ph : Phase) (e : Errand) : (e.setPhase ph).walk = e.walk := by
  cases e with
  | freeing sg o ph => cases o <;> rfl
  | _ => rfl

theorem setPhase_alive (ph : Phase) (e : Errand) : (e.setPhase ph).alive = e.alive := by
  cases e with
  | freeing sg o ph => cases o <;> rfl
  | _ => rfl

theorem wake_of_setPhase {f : Errand → α} (hf : ∀ ph e, f (e.setPhase ph) = f e) (c : Nat)
    (e : Errand) : f (e.wake c) = f e := by
  unfold wake
  split
  · exact hf _ e
  · rfl

theorem wake_claim (c : Nat) (e : Errand) : (e.wake c).claim = e.claim :=
  wake_of_setPhase setPhase_claim c e

theorem wake_target (c : Nat) (e : Errand) : (e.wake c).target = e.target :=
  wake_of_setPhase setPhase_target c e

theorem wake_walk (c : Nat) (e : Errand) : (e.wake c).walk = e.walk :=
  wake_of_setPhase setPhase_walk c e

theorem wake_alive (c : Nat) (e : Errand) : (e.wake c).alive = e.alive :=
  wake_of_setPhase setPhase_alive c e

theorem eq_storing_iff {e : Errand} : e = .storing c ↔ e.claim = some (.store c) := by
  cases e <;> simp [claim]

theorem setPhase_load (ph : Phase) (e : Errand) : (e.setPhase ph).load = e.load := by
  cases e with
  | freeing sg o ph => cases o <;> rfl
  | _ => rfl

theorem wake_load (c : Nat) (e : Errand) : (e.wake c).load = e.load :=
  wake_of_setPhase setPhase_load c e

end Errand

theorem Serves.wake (h : Serves st n L q e) (hne : e ≠ .storing c) :
    Serves (Function.update st c false) n L q (e.wake c) := by
  have hag : ∀ d (ph : Phase), ph.Agrees (st d) → ¬ (d = c ∧ ph = .asleep) →
      ph.Agrees (Function.update st c false d) := by
    intro d ph hd hnot
    by_cases hdc : d = c
    · subst hdc
      rw [Function.update_self]
      cases ph with
      | test => trivial
      | asleep => exact (hnot ⟨rfl, rfl⟩).elim
      | ready => rfl
    · rwa [Function.update_of_ne hdc]
  cases e with
  | gone => exact h
  | idle => trivial
  | storing d =>
    have hdc : d ≠ c := fun he => hne (he ▸ rfl)
    change Function.update st c false d = true
    rw [Function.update_of_ne hdc]
    exact h
  | loading v d ph =>
    unfold Errand.wake
    split
    · exact ⟨h.1, h.2.1, trivial⟩
    · rename_i hw
      refine ⟨h.1, h.2.1, hag d ph h.2.2 ?_⟩
      rintro ⟨rfl, rfl⟩
      exact hw rfl
  | freeing sg o ph =>
    cases o with
    | none => exact ⟨nofun, h.2⟩
    | some d =>
      unfold Errand.wake
      split
      · refine ⟨fun b hb => ⟨(h.1 b hb).1, trivial⟩, h.2⟩
      · rename_i hw
        refine ⟨fun b hb => ⟨(h.1 b hb).1, hag b ph (h.1 b hb).2 ?_⟩, h.2⟩
        cases hb
        rintro ⟨rfl, rfl⟩
        exact hw rfl
  | copying child sg o => exact h
  | copyingTo child sg d f ph =>
    have hf : Function.update st c false f = false := by
      by_cases hfc : f = c
      · rw [hfc, Function.update_self]
      · rw [Function.update_of_ne hfc]
        exact h.2.2.1
    unfold Errand.wake
    split
    · exact ⟨h.1, h.2.1, hf, trivial⟩
    · rename_i hw
      refine ⟨h.1, h.2.1, hf, hag d ph h.2.2.2 ?_⟩
      rintro ⟨rfl, rfl⟩
      exact hw rfl

namespace Cells.Kept
variable {t : Cells}

theorem written (h : t.Kept L) (hcur : t.errand t.cur = .storing c) :
    ({ t with
      store := Function.update t.store c false
      errand := fun q => (t.errand q).wake c }.go .idle).Kept L where
  rep := by
    have hwalk : ∀ q, (Function.update (fun q => (t.errand q).wake c) t.cur .idle q).walk =
        (t.errand q).walk := by
      intro q
      by_cases hq : q = t.cur
      · rw [hq, Function.update_self, hcur]
        rfl
      · rw [Function.update_of_ne hq, Errand.wake_walk]
    have hrep := h.rep
    unfold Cells.view at hrep ⊢
    simp only [go, hwalk]
    exact hrep
  bound := h.bound
  unlocked := h.unlocked
  serves q := by
    by_cases hq : q = t.cur
    · subst hq
      simp [go, Serves]
    · simp only [go, Function.update_of_ne hq]
      apply (h.serves q).wake
      intro he
      exact hq (h.apart (Errand.eq_storing_iff.1 he) (Errand.eq_storing_iff.1 hcur))
  apart {q x r} hq hr := by
    have hold : ∀ p, (Function.update (fun q => (t.errand q).wake c) t.cur .idle p).claim = some x →
        (t.errand p).claim = some x := by
      intro p hp
      by_cases hpc : p = t.cur
      · rw [hpc, Function.update_self] at hp
        cases hp
      · rwa [Function.update_of_ne hpc, Errand.wake_claim] at hp
    exact h.apart (hold q hq) (hold r hr)
  child {q r f} hq := by
    have hold : (t.errand q).target = some (r, f) := by
      by_cases hqc : q = t.cur
      · rw [hqc] at hq
        simp only [go, Function.update_self] at hq
        cases hq
      · simpa only [go, Function.update_of_ne hqc, Errand.wake_target] using hq
    by_cases hrc : r = t.cur
    · simp [go, hrc, Errand.alive]
    · simpa only [go, Function.update_of_ne hrc, Errand.wake_alive] using h.child hold
  stored {d} hd := by
    have hdc : d ≠ c := by
      rintro rfl
      simp [go] at hd
    simp only [go, Function.update_of_ne hdc] at hd
    obtain ⟨q, hq⟩ := h.stored hd
    refine ⟨q, ?_⟩
    have hqc : q ≠ t.cur := by
      rintro rfl
      rw [hcur] at hq
      cases hq
      exact hdc rfl
    simp only [go, Function.update_of_ne hqc]
    rw [Errand.eq_storing_iff, Errand.wake_claim, ← Errand.eq_storing_iff]
    exact hq
  free {d} hd := by
    by_cases hdc : d = c
    · simp [go, hdc]
    · simpa only [go, Function.update_of_ne hdc] using h.free hd
  filed {sg q d} hd := by
    cases h.filed hd with
    | inl ht =>
      obtain ⟨r, child, ht⟩ := ht
      have hrc : r ≠ t.cur := by
        rintro rfl
        rw [hcur] at ht
        cases ht
      refine .inl ⟨r, child, ?_⟩
      simpa only [go, Function.update_of_ne hrc, Errand.wake_target] using ht
    | inr hh => exact .inr hh

end Cells.Kept

end Clape
