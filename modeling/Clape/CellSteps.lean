import Clape.CellInvariant

namespace Clape
set_option autoImplicit true

/-- How the pages in the cells change with a move. -/
def Retagged (r : Option (Nat × Option (Nat × Nat))) (P Q : Nat → Nat → Nat → Prop) : Prop :=
  match r with
  | none => ∀ d q v, Q d q v ↔ P d q v
  | some (c, o) => (∀ q v, Q c q v ↔ o = some (q, v)) ∧ ∀ d, d ≠ c → ∀ q v, Q d q v ↔ P d q v

namespace Cells.Kept
variable {t : Cells}

theorem mem_view_head (h : t.Kept L) (hw : (t.errand q).walk = none)
    (hc : t.lists.head (.seg sg q) = some c) : c ∈ L (.seg sg q) := by
  apply h.rep.mem_head
  rw [show t.view = t.lists.seen _ from rfl, Lists.seen_head_of_none hw]
  exact hc

theorem used (h : t.Kept L) (hu : (t.errand q).Uses c) : c ∉ L .free :=
  (h.serves q).not_free h.rep hu

theorem target_used (h : t.Target c) : ∃ q, (t.errand q).Uses c := by
  obtain ⟨q, r, hq⟩ := h
  refine ⟨q, ?_⟩
  cases he : t.errand q with
  | copyingTo child sg d f ph =>
    rw [he] at hq
    cases hq
    exact .inr rfl
  | _ =>
    rw [he] at hq
    cases hq

theorem target_mem (h : t.Kept L) (hq : (t.errand q).target = some (r, f)) :
    ∃ sg, f ∈ L (.seg sg r) := by
  have hs := h.serves q
  cases he : t.errand q with
  | copyingTo child sg d f ph =>
    rw [he] at hq hs
    cases hq
    exact ⟨sg, hs.2.1⟩
  | _ =>
    rw [he] at hq
    cases hq

theorem claim_of_load {e : Errand} (h : e.load = some (v, c)) : e.claim = some (.hold c) := by
  cases e with
  | loading w d ph =>
    cases h
    rfl
  | _ => cases h

theorem claim_of_target {e : Errand} (h : e.target = some x) : e.claim = some .copy := by
  cases e with
  | copyingTo r sg c f ph => rfl
  | _ => cases h

theorem load_used (h : (t.errand q).load = some (v, c)) : (t.errand q).Uses c := by
  cases he : t.errand q with
  | loading w d ph =>
    rw [he] at h
    cases h
    rfl
  | _ =>
    rw [he] at h
    cases h

theorem load_off (h : t.Kept L) (hq : (t.errand q).load = some (v, c)) (k : SwapList) : c ∉ L k := by
  have hs := h.serves q
  cases he : t.errand q with
  | loading w d ph =>
    rw [he] at hq hs
    cases hq
    exact hs.2.1 k
  | _ =>
    rw [he] at hq
    cases hq

theorem not_tagged (h : t.Kept L) (hc : c ∈ L .free) : ¬ t.Tagged L c q v := by
  rintro (⟨⟨sg, hm⟩, -, -⟩ | hl)
  · cases h.rep.disjoint _ _ c hc hm
  · exact h.load_off hl .free hc

end Cells.Kept

theorem Cells.tagged_move {t : Cells} {l : Lists SwapList Nat} {a : Nat → Nat} {st : Nat → Bool}
    {e : Errand} {O : SwapList → Prop}
    (hM : ∀ k d, d ∈ M k ↔ (d = c ∧ O k) ∨ (d ≠ c ∧ d ∈ L k))
    (hva : ∀ d, d ≠ c → a d = t.vaddr d)
    (hold : ∀ r f, (t.errand t.cur).target = some (r, f) → f = c)
    (hnew : ∀ r f, e.target = some (r, f) → f = c)
    (hload : ∀ v d, d ≠ c → (e.load = some (v, d) ↔ (t.errand t.cur).load = some (v, d)))
    (hd : d ≠ c) (q v : Nat) :
    ({ t with lists := l, vaddr := a, store := st }.go e).Tagged M d q v ↔ t.Tagged L d q v := by
  have hmem : ∀ k, d ∈ M k ↔ d ∈ L k := by
    intro k
    rw [hM]
    simp [hd]
  have htarget : ({ t with lists := l, vaddr := a, store := st }.go e).Target d ↔ t.Target d := by
    unfold Target
    apply exists_congr
    intro r
    apply exists_congr
    intro child
    by_cases hr : r = t.cur
    · rw [hr]
      simp only [go, Function.update_self]
      constructor
      · intro he
        exact (hd (hnew _ _ he)).elim
      · intro he
        exact (hd (hold _ _ he)).elim
    · simp only [go, Function.update_of_ne hr]
  have hld : (Function.update t.errand t.cur e q).load = some (v, d) ↔
      (t.errand q).load = some (v, d) := by
    by_cases hq : q = t.cur
    · rw [hq, Function.update_self]
      exact hload v d hd
    · rw [Function.update_of_ne hq]
  unfold Tagged
  simp only [hmem, htarget]
  rw [show (Cells.go { t with lists := l, vaddr := a, store := st } e).vaddr = a from rfl, hva d hd]
  exact or_congr Iff.rfl hld

namespace Cells.Kept
variable {t : Cells}

theorem walk_go {e : Errand} (he : e.walk = (t.errand t.cur).walk) :
    (fun q => (Function.update t.errand t.cur e q).walk) = fun q => (t.errand q).walk := by
  funext q
  by_cases hq : q = t.cur
  · rw [hq, Function.update_self, he]
  · rw [Function.update_of_ne hq]

theorem walk_update (e : Errand) : (fun q => (Function.update t.errand t.cur e q).walk) =
    Function.update (fun q => (t.errand q).walk) t.cur e.walk := by
  funext q
  by_cases hq : q = t.cur
  · rw [hq, Function.update_self, Function.update_self]
  · rw [Function.update_of_ne hq, Function.update_of_ne hq]

theorem target_go {e : Errand} (he : e.target = none) (h : (t.go e).Target c) : t.Target c := by
  obtain ⟨q, r, hq⟩ := h
  by_cases hqc : q = t.cur
  · rw [hqc] at hq
    simp only [go, Function.update_self] at hq
    rw [he] at hq
    cases hq
  · simp only [go, Function.update_of_ne hqc] at hq
    exact ⟨q, r, hq⟩

theorem alive_walk {e : Errand} (h : e.alive = true) : e.walk = none := by
  cases e with
  | freeing sg o ph => cases h
  | _ => rfl

/-- The free cell that a store takes. -/
theorem file (h : t.Kept L) (hcur : t.errand t.cur = .idle) (hc : t.lists.head .free = some c)
    (hs : t.store c = false) (hp : (t.errand p).alive = true) (hh : t.home p v sg) :
    ∃ M, ({ t with
        lists := (t.lists.behead .free c).push (.seg sg p) c
        vaddr := Function.update t.vaddr c v
        store := Function.update t.store c true }.go (.storing c)).Kept M ∧
      Retagged (some (c, some (p, v))) (t.Tagged L) (Cells.Tagged ({ t with
        lists := (t.lists.behead .free c).push (.seg sg p) c
        vaddr := Function.update t.vaddr c v
        store := Function.update t.store c true }.go (.storing c)) M) := by
  have hc' : t.view.head .free = some c := hc
  have hfree := h.rep.mem_head hc'
  obtain ⟨L₁, hrep, hmem⟩ := h.rep.behead_mem hc'
  obtain ⟨M, hM, hmem⟩ := hrep.push_removed (k := .seg sg p) hmem
  have hunused : ∀ q, ¬ (t.errand q).Uses c := fun q hu => h.used hu hfree
  have hst : ∀ d, d ≠ c → Function.update t.store c true d = t.store d := by
    intro d hd
    rw [Function.update_of_ne hd]
  have hva : ∀ d, d ≠ c → Function.update t.vaddr c v d = t.vaddr d := by
    intro d hd
    rw [Function.update_of_ne hd]
  refine ⟨M, h.move (e := .storing c) ?_ hmem (h.bound hfree) ?_ hst ?_ ?_ (fun q _ => hunused q) ?_
    (Function.update_self ..) ?_ ?_ ?_ ?_ hva ?_ ?_, ⟨fun q w => ?_, fun d hd q w => ?_⟩⟩
  · rw [walk_go (by rw [hcur]; rfl), Lists.seen_push (alive_walk hp), Lists.seen_behead_free]
    exact hM
  · intro d hd
    rw [hcur] at hd
    cases hd
  · intro _
    exact Function.update_self ..
  · intro _
    exact .inr rfl
  · intro sg' q hon
    cases hon
    exact hp
  · intro x hx r hr
    cases hx
    have := h.serves r
    rw [Errand.eq_storing_iff.2 hr] at this
    rw [show t.store c = true from this] at hs
    cases hs
  · intro r f hf
    cases hf
  · intro _
    rfl
  · intro hon
    cases hon
  · rw [hcur]
    rfl
  · intro sg' q hon
    cases hon
    apply Or.inr
    rw [Function.update_self]
    exact hh
  · constructor
    · rintro (⟨⟨sg', hm⟩, hv, -⟩ | hl)
      · cases (hmem _ c).1 hm with
        | inl hm =>
          cases hm.2
          rw [show w = v from hv.symm.trans (Function.update_self ..)]
        | inr hm => exact (hm.1 rfl).elim
      · by_cases hq : q = t.cur
        · rw [hq] at hl
          simp only [go, Function.update_self] at hl
          cases hl
        · simp only [go, Function.update_of_ne hq] at hl
          exact (hunused q (load_used hl)).elim
    · intro he
      cases he
      refine .inl ⟨⟨sg, (hmem _ c).2 (.inl ⟨rfl, rfl⟩)⟩, Function.update_self .., fun ht => ?_⟩
      obtain ⟨q, hu⟩ := target_used (target_go (t := { t with
        lists := (t.lists.behead .free c).push (.seg sg p) c
        vaddr := Function.update t.vaddr c v
        store := Function.update t.store c true }) rfl ht)
      exact hunused q hu
  · apply tagged_move hmem hva _ _ _ hd
    · intro r f hf
      rw [hcur] at hf
      cases hf
    · intro r f hf
      cases hf
    · intro w d' _
      rw [hcur]
      rfl

/-- The cell that `load_swap` finds. -/
theorem find (h : t.Kept L) (hcur : t.errand t.cur = .idle) (hun : t.Uncopied t.cur)
    (hsearch : t.lists.search (fun c => t.vaddr c == v) t.size none
      (t.lists.head (.seg sg t.cur)) = .found prev c) :
    ∃ M, ({ t with
        lists := t.lists.unlink (.seg sg t.cur) prev c }.go (.loading v c .test)).Kept M ∧
      Retagged none (t.Tagged L) (Cells.Tagged ({ t with
        lists := t.lists.unlink (.seg sg t.cur) prev c }.go (.loading v c .test)) M) := by
  have hwalk : (t.errand t.cur).walk = none := by rw [hcur]; rfl
  have hchain : Chain t.lists.next (t.lists.head (.seg sg t.cur)) (L (.seg sg t.cur)) := by
    rw [← Lists.seen_head_of_none (W := fun q => (t.errand q).walk) hwalk]
    exact h.rep.chain (.seg sg t.cur)
  have hlen : (L (.seg sg t.cur)).length ≤ t.size := h.rep.length_le fun d hd => h.bound hd
  cases search_spec (p := fun c => t.vaddr c == v) hchain hlen none with
  | inr hmiss =>
    rw [hmiss.2] at hsearch
    cases hsearch
  | inl hfound =>
    obtain ⟨A, d, B, hL, -, hv, hfound⟩ := hfound
    rw [hfound, Option.or_none] at hsearch
    cases hsearch
    have hv : t.vaddr c = v := by simpa using hv
    have hin : c ∈ L (.seg sg t.cur) := by
      rw [hL]
      simp
    obtain ⟨M, hM, hmem⟩ := h.rep.unlink_mem hL
    have hmem' : ∀ k d, d ∈ M k ↔ (d = c ∧ (fun _ => False) k) ∨ (d ≠ c ∧ d ∈ L k) := by
      intro k d
      rw [hmem]
      simp
    have hout : ∀ k, c ∉ M k := fun k hk => ((hmem k c).1 hk).1 rfl
    -- the other threads do not look at the lists of this process
    have hother : ∀ q, q ≠ t.cur → ¬ (t.errand q).Uses c := by
      intro q hq hu
      rcases (h.serves q).uses hu with ⟨-, hout⟩ | ⟨sg', hc⟩ | ⟨r, sg', hr, hc⟩
      · exact hout _ hin
      · cases h.rep.disjoint _ _ c hin hc
        exact hq rfl
      · cases h.rep.disjoint _ _ c hin hc
        exact hun q c hr
    have htarget : ¬ t.Target c := by
      rintro ⟨q, r, hq⟩
      cases h.rep.disjoint _ _ c hin (h.target_mem hq).choose_spec
      exact hun q c hq
    refine ⟨M, h.move (c := c) (e := .loading v c .test) (O := fun _ => False) ?_ hmem'
      (h.bound hin) ?_ (fun _ _ => rfl) id .inl hother (fun _ _ hf => hf.elim)
      ⟨h.bound hin, hout, trivial⟩ ?_ nofun (fun _ => rfl) (fun hf => hf.elim) (fun _ _ => rfl) ?_
      (fun _ _ hf => hf.elim), fun d q w => ?_⟩
    · rw [walk_go (by rw [hcur]; rfl), Lists.seen_unlink hwalk]
      exact hM
    · intro d hd
      rw [hcur] at hd
      cases hd
    · intro x hx r hr
      cases hx
      have hs := h.serves r
      cases he : t.errand r with
      | loading w d ph =>
        rw [he] at hr hs
        cases hr
        exact hs.2.1 _ hin
      | _ =>
        rw [he] at hr
        cases hr
    · rw [hcur]
      rfl
    · by_cases hd : d = c
      · subst hd
        constructor
        · rintro (⟨⟨sg', hm⟩, -, -⟩ | hl)
          · exact (hout _ hm).elim
          · by_cases hq : q = t.cur
            · rw [hq] at hl
              simp only [go, Function.update_self] at hl
              cases hl
              exact .inl ⟨⟨sg, hq ▸ hin⟩, hv, htarget⟩
            · simp only [go, Function.update_of_ne hq] at hl
              exact (hother q hq (load_used hl)).elim
        · rintro (⟨⟨sg', hm⟩, hw, -⟩ | hl)
          · cases h.rep.disjoint _ _ d hin hm
            refine .inr ?_
            simp [go, Errand.load, ← hw, hv]
          · exact (h.load_off hl _ hin).elim
      · apply tagged_move hmem' (fun _ _ => rfl) _ _ _ hd
        · intro r f hf
          rw [hcur] at hf
          cases hf
        · intro r f hf
          cases hf
        · intro w d' hd'
          rw [hcur]
          simp only [Errand.load]
          constructor
          · intro he
            cases he
            exact (hd' rfl).elim
          · intro he
            cases he

/-- The cell goes back to the free list after it was read. -/
theorem give (h : t.Kept L) (hcur : t.errand t.cur = .loading v c .ready) :
    ∃ M, ({ t with
        lists := t.lists.push .free c
        vaddr := Function.update t.vaddr c 0 }.go .idle).Kept M ∧
      Retagged (some (c, none)) (t.Tagged L) (Cells.Tagged ({ t with
        lists := t.lists.push .free c
        vaddr := Function.update t.vaddr c 0 }.go .idle) M) := by
  have hs := h.serves t.cur
  rw [hcur] at hs
  obtain ⟨hb, hout, hsc⟩ := hs
  obtain ⟨M, hM, hmem⟩ := h.rep.push_mem (k := .free) hout
  have hmem' : ∀ k d, d ∈ M k ↔ (d = c ∧ k = .free) ∨ (d ≠ c ∧ d ∈ L k) := by
    intro k d
    rw [hmem]
    by_cases hd : d = c
    · subst hd
      simp [hout]
    · simp [hd]
  have hva : ∀ d, d ≠ c → Function.update t.vaddr c 0 d = t.vaddr d := by
    intro d hd
    rw [Function.update_of_ne hd]
  have hother : ∀ q, q ≠ t.cur → ¬ (t.errand q).Uses c := by
    intro q hq hu
    rcases (h.serves q).uses hu with ⟨⟨w, hl⟩, -⟩ | ⟨sg', hc⟩ | ⟨r, sg', hr, hc⟩
    · exact hq (h.apart (claim_of_load hl) (claim_of_load (v := v) (by rw [hcur]; rfl)))
    · exact hout _ hc
    · exact hout _ hc
  refine ⟨M, h.move (c := c) (e := .idle) (O := fun k => k = .free) ?_ hmem' hb ?_
    (fun _ _ => rfl) id .inl hother nofun trivial nofun nofun (fun _ => rfl) (fun _ => hsc) hva ?_
    nofun, ⟨fun q w => ?_, fun d hd q w => ?_⟩⟩
  · rw [walk_go (by rw [hcur]; rfl), Lists.seen_push_free]
    exact hM
  · intro d hd
    rw [hcur] at hd
    cases hd
  · rw [hcur]
    rfl
  · constructor
    · rintro (⟨⟨sg', hm⟩, -, -⟩ | hl)
      · rcases (hmem _ c).1 hm with ⟨-, hm⟩ | hm
        · cases hm
        · exact (hout _ hm).elim
      · by_cases hq : q = t.cur
        · rw [hq] at hl
          simp only [go, Function.update_self] at hl
          cases hl
        · simp only [go, Function.update_of_ne hq] at hl
          exact (hother q hq (load_used hl)).elim
    · intro he
      cases he
  · apply tagged_move hmem' hva _ _ _ hd
    · intro r f hf
      rw [hcur] at hf
      cases hf
    · intro r f hf
      cases hf
    · intro w d' hd'
      rw [hcur]
      simp only [Errand.load]
      constructor
      · intro he
        cases he
      · intro he
        cases he
        exact (hd' rfl).elim

/-- The cell that an exiting process puts on the free list. -/
theorem release (h : t.Kept L) (hcur : t.errand t.cur = .freeing sg (some c) .test)
    (hsc : t.store c = false) :
    ∃ M, ({ t with
        lists := t.lists.push .free c }.go (.freeing sg (t.lists.next c) .test)).Kept M ∧
      Retagged (some (c, none)) (t.Tagged L) (Cells.Tagged ({ t with
        lists := t.lists.push .free c }.go (.freeing sg (t.lists.next c) .test)) M) := by
  have hs := h.serves t.cur
  rw [hcur] at hs
  obtain ⟨he, hnone⟩ := hs
  obtain ⟨hin, -⟩ := he c rfl
  have hwalk : (t.errand t.cur).walk = some (sg, some c) := by rw [hcur]; rfl
  have hhead : t.view.head (.seg sg t.cur) = some c :=
    Lists.seen_head_walk (W := fun q => (t.errand q).walk) hwalk
  obtain ⟨L₁, hrep, hmem₁⟩ := h.rep.behead_mem hhead
  obtain ⟨M, hM, hmem⟩ := hrep.push_removed (k := .free) hmem₁
  have hview : ((t.lists.push .free c).seen fun q =>
      (Function.update t.errand t.cur (.freeing sg (t.lists.next c) .test) q).walk) =
      (t.view.behead (.seg sg t.cur) c).push .free c := by
    rw [walk_update, Lists.seen_push_free]
    exact congrArg (fun l => Lists.push l .free c)
      (Lists.seen_walk (W := fun q => (t.errand q).walk) hwalk)
  have hmemM : ∀ sg' q d, d ∈ M (.seg sg' q) → d ≠ c ∧ d ∈ L (.seg sg' q) := by
    intro sg' q d hd
    rcases (hmem _ d).1 hd with ⟨-, hk⟩ | hd
    · cases hk
    · exact hd
  have hdead : ∀ r, (t.errand r).alive = true → r ≠ t.cur := by
    rintro r hr rfl
    rw [hcur] at hr
    cases hr
  have hother : ∀ q, q ≠ t.cur → ¬ (t.errand q).Uses c := by
    intro q hq hu
    rcases (h.serves q).uses hu with ⟨-, hout⟩ | ⟨sg', hc⟩ | ⟨r, sg', hr, hc⟩
    · exact hout _ hin
    · cases h.rep.disjoint _ _ c hin hc
      exact hq rfl
    · cases h.rep.disjoint _ _ c hin hc
      exact hdead _ (h.child hr) rfl
  have hcur' : Serves t.store t.size M t.cur (.freeing sg (t.lists.next c) .test) := by
    refine ⟨fun d hd => ⟨?_, trivial⟩, fun sg' hsg => ?_⟩
    · -- the next cell is the new head of the list
      apply hM.mem_head
      rw [← hview, walk_update]
      exact (Lists.seen_head_walk (Function.update_self ..)).trans hd
    · apply List.eq_nil_iff_forall_not_mem.2
      intro d hd
      have := (hmemM sg' t.cur d hd).2
      rw [hnone sg' hsg] at this
      cases this
  refine ⟨M, h.move (c := c) (O := fun k => k = .free) (by rw [hview]; exact hM) hmem (h.bound hin)
    ?_ (fun _ _ => rfl) id .inl hother nofun hcur' nofun nofun ?_ (fun _ => hsc) (fun _ _ => rfl) ?_
    nofun, ⟨fun q w => ?_, fun d hd q w => ?_⟩⟩
  · intro d hd
    rw [hcur] at hd
    cases hd
  · intro hal
    exact (hdead _ hal rfl).elim
  · rw [hcur]
    rfl
  · constructor
    · rintro (⟨⟨sg', hm⟩, -, -⟩ | hl)
      · exact ((hmemM sg' q c hm).1 rfl).elim
      · by_cases hq : q = t.cur
        · rw [hq] at hl
          simp only [go, Function.update_self] at hl
          cases hl
        · simp only [go, Function.update_of_ne hq] at hl
          exact (hother q hq (load_used hl)).elim
    · intro he
      cases he
  · apply tagged_move hmem (fun _ _ => rfl) _ _ _ hd
    · intro r f hf
      rw [hcur] at hf
      cases hf
    · intro r f hf
      cases hf
    · intro w d' hd'
      rw [hcur]
      rfl

/-- The free cell that `copy_swap_pages` takes for the child. -/
theorem copyTake (h : t.Kept L) (hcur : t.errand t.cur = .copying r sg (some c))
    (hf : t.lists.head .free = some f) (hsf : t.store f = false)
    (hch : (t.errand r).alive = true) (hun : ∀ q, (t.errand q).target = none) :
    ∃ M, ({ t with
        lists := (t.lists.behead .free f).push (.seg sg r) f }.go
          (.copyingTo r sg c f .test)).Kept M ∧
      Retagged none (t.Tagged L) (Cells.Tagged ({ t with
        lists := (t.lists.behead .free f).push (.seg sg r) f }.go
          (.copyingTo r sg c f .test)) M) := by
  have hs := h.serves t.cur
  rw [hcur] at hs
  have hin : c ∈ L (.seg sg t.cur) := hs c rfl
  have hf' : t.view.head .free = some f := hf
  have hfree := h.rep.mem_head hf'
  obtain ⟨L₁, hrep, hmem⟩ := h.rep.behead_mem hf'
  obtain ⟨M, hM, hmem⟩ := hrep.push_removed (k := .seg sg r) hmem
  have hunused : ∀ q, ¬ (t.errand q).Uses f := fun q hu => h.used hu hfree
  have hcf : c ≠ f := by
    rintro rfl
    cases h.rep.disjoint _ _ c hin hfree
  have hfM : f ∈ M (.seg sg r) := (hmem _ f).2 (.inl ⟨rfl, rfl⟩)
  refine ⟨M, h.move (c := f) (e := .copyingTo r sg c f .test) ?_ hmem (h.bound hfree) ?_
    (fun _ _ => rfl) id .inl (fun q _ => hunused q) ?_ ?_ ?_ ?_ (fun _ => rfl) nofun (fun _ _ => rfl)
    (hun _) ?_, fun d q w => ?_⟩
  · rw [walk_go (by rw [hcur]; rfl), Lists.seen_push (alive_walk hch), Lists.seen_behead_free]
    exact hM
  · intro d hd
    rw [hcur] at hd
    cases hd
  · intro sg' q hon
    cases hon
    exact hch
  · exact ⟨(hmem _ c).2 (.inr ⟨hcf, hin⟩), hfM, hsf, trivial⟩
  · intro x hx p hp
    cases hx
    have := hun p
    cases he : t.errand p with
    | copyingTo child' sg' d f' ph =>
      rw [he] at this
      cases this
    | _ =>
      rw [he] at hp
      cases hp
  · intro p f' hp
    cases hp
    exact hch
  · intro sg' q hon
    cases hon
    exact .inl ⟨r, rfl⟩
  · by_cases hd : d = f
    · subst hd
      constructor
      · rintro (⟨-, -, ht⟩ | hl)
        · exact (ht ⟨t.cur, r, by simp [go, Errand.target]⟩).elim
        · by_cases hq : q = t.cur
          · rw [hq] at hl
            simp only [go, Function.update_self] at hl
            cases hl
          · simp only [go, Function.update_of_ne hq] at hl
            exact (hunused q (load_used hl)).elim
      · intro ht
        exact (h.not_tagged hfree ht).elim
    · apply tagged_move hmem (fun _ _ => rfl) _ _ _ hd
      · intro p f' hp
        rw [hun] at hp
        cases hp
      · intro p f' hp
        cases hp
        rfl
      · intro w d' _
        rw [hcur]
        rfl

theorem tagged_go {l : Lists SwapList Nat} {e : Errand} (ht : e.target = (t.errand t.cur).target)
    (hl : e.load = (t.errand t.cur).load) :
    Retagged none (t.Tagged L) (Cells.Tagged ({ t with lists := l }.go e) L) := by
  have hsame : ∀ {f : Errand → Option (Nat × Nat)}, f e = f (t.errand t.cur) →
      ∀ q, f (Function.update t.errand t.cur e q) = f (t.errand q) := by
    intro f hf q
    by_cases hq : q = t.cur
    · rw [hq, Function.update_self, hf]
    · rw [Function.update_of_ne hq]
  intro d q v
  unfold Tagged Target
  simp only [go, hsame ht, hsame hl]

theorem shift_quiet {l : Lists SwapList Nat} {e : Errand} (h : t.Kept L)
    (hview : (l.seen fun q => (Function.update t.errand t.cur e q).walk) = t.view)
    (hnot : ∀ d, t.errand t.cur ≠ .storing d) (hcur : Serves t.store t.size L t.cur e)
    (hclaim : e.claim = (t.errand t.cur).claim) (ht : e.target = (t.errand t.cur).target)
    (hl : e.load = (t.errand t.cur).load) (halive : e.alive = true ∨ t.Uncopied t.cur) :
    ∃ M, ({ t with lists := l }.go e).Kept M ∧
      Retagged none (t.Tagged L) (Cells.Tagged ({ t with lists := l }.go e) M) := by
  refine ⟨L, h.shift (a := t.vaddr) hview hnot hcur ?_ ?_ halive (fun _ _ => rfl) ?_,
    tagged_go ht hl⟩
  · intro x hx
    rw [← hclaim]
    exact hx
  · intro r f hf
    rw [← ht]
    exact hf
  · intro r f sg q hf _
    rw [ht]
    exact .inl hf

theorem head_mem (h : t.Kept L) (hw : (t.errand t.cur).walk = none) (sg : Segment) :
    ∀ c, t.lists.head (.seg sg t.cur) = some c → c ∈ L (.seg sg t.cur) :=
  fun _ hc => h.mem_view_head hw hc

theorem setPhase (h : t.Kept L) (hw : (t.errand t.cur).waits = some (c, ph))
    (hag : ph'.Agrees (t.store c)) :
    ∃ M, (t.go ((t.errand t.cur).setPhase ph')).Kept M ∧
      Retagged none (t.Tagged L) (Cells.Tagged (t.go ((t.errand t.cur).setPhase ph')) M) := by
  apply h.shift_quiet (l := t.lists)
  · rw [walk_go (Errand.setPhase_walk ..)]
    rfl
  · intro d hd
    rw [hd] at hw
    cases hw
  · have hs := h.serves t.cur
    cases he : t.errand t.cur with
    | loading v d ph₀ =>
      rw [he] at hs hw
      cases hw
      exact ⟨hs.1, hs.2.1, hag⟩
    | freeing sg o ph₀ =>
      rw [he] at hs hw
      cases o with
      | none => cases hw
      | some d =>
        cases hw
        refine ⟨fun b hb => ?_, hs.2⟩
        cases hb
        exact ⟨(hs.1 c rfl).1, hag⟩
    | copyingTo child sg d f ph₀ =>
      rw [he] at hs hw
      cases hw
      exact ⟨hs.1, hs.2.1, hs.2.2.1, hag⟩
    | _ =>
      rw [he] at hw
      cases hw
  · exact Errand.setPhase_claim ..
  · exact Errand.setPhase_target ..
  · exact Errand.setPhase_load ..
  · cases hal : (t.errand t.cur).alive with
    | true => exact .inl ((Errand.setPhase_alive ..).trans hal)
    | false =>
      apply Or.inr
      intro q f hq
      rw [h.child hq] at hal
      cases hal

theorem leave (h : t.Kept L) (hcur : t.errand t.cur = .idle) (hun : t.Uncopied t.cur) :
    ∃ M, (t.go (.freeing .text (t.lists.head (.seg .text t.cur)) .test)).Kept M ∧
      Retagged none (t.Tagged L) (Cells.Tagged
        (t.go (.freeing .text (t.lists.head (.seg .text t.cur)) .test)) M) := by
  have hwalk : (t.errand t.cur).walk = none := by rw [hcur]; rfl
  apply h.shift_quiet (l := t.lists)
  · rw [walk_update]
    exact Lists.seen_enter hwalk .text
  · intro d hd
    rw [hcur] at hd
    cases hd
  · exact ⟨fun c hc => ⟨h.head_mem hwalk .text c hc, trivial⟩, nofun⟩
  · rw [hcur]
    rfl
  · rw [hcur]
    rfl
  · rw [hcur]
    rfl
  · exact .inr hun

theorem walked (h : t.Kept L) (hcur : t.errand t.cur = .freeing sg none ph) (sg' : Segment)
    (hsg : sg'.rank ≤ sg.rank) : L (.seg sg' t.cur) = [] := by
  have hs := h.serves t.cur
  rw [hcur] at hs
  by_cases he : sg' = sg
  · subst he
    apply h.rep.head_eq_none.1
    exact Lists.seen_head_walk (W := fun q => (t.errand q).walk) (by simp only [hcur]; rfl)
  · apply hs.2
    have : sg'.rank ≠ sg.rank := fun hr => he (Segment.rank_injective hr)
    omega

theorem uncopied_of_dead (h : t.Kept L) (hq : (t.errand q).alive = false) : t.Uncopied q := by
  intro r f hr
  rw [h.child hr] at hq
  cases hq

theorem clear (h : t.Kept L) (hcur : t.errand t.cur = .freeing sg none ph)
    (hsg : sg.next = some sg') :
    ∃ M, ({ t with lists := t.lists.clear (.seg sg t.cur) }.go
        (.freeing sg' (t.lists.head (.seg sg' t.cur)) .test)).Kept M ∧
      Retagged none (t.Tagged L) (Cells.Tagged ({ t with lists := t.lists.clear (.seg sg t.cur) }.go
        (.freeing sg' (t.lists.head (.seg sg' t.cur)) .test)) M) := by
  have hwalk : (t.errand t.cur).walk = some (sg, none) := by rw [hcur]; rfl
  have hrank := Segment.rank_next hsg
  have hne : sg' ≠ sg := by
    rintro rfl
    omega
  have hhead : t.lists.head (.seg sg' t.cur) =
      (t.lists.clear (.seg sg t.cur)).head (.seg sg' t.cur) := by
    simp [Lists.clear, hne]
  have hview : ((t.lists.clear (.seg sg t.cur)).seen fun q => (Function.update t.errand t.cur
      (.freeing sg' (t.lists.head (.seg sg' t.cur)) .test) q).walk) = t.view := by
    have hclear := Lists.seen_clear (l := t.lists) (W := fun q => (t.errand q).walk) hwalk
    have henter := Lists.seen_enter (l := t.lists.clear (.seg sg t.cur))
      (W := Function.update (fun q => (t.errand q).walk) t.cur none) (Function.update_self ..) sg'
    rw [Function.update_idem, ← hhead] at henter
    rw [walk_update]
    exact henter.trans hclear
  apply h.shift_quiet hview
  · intro d hd
    rw [hcur] at hd
    cases hd
  · refine ⟨fun c hc => ⟨?_, trivial⟩, fun sg₁ hsg₁ => h.walked hcur sg₁ (by omega)⟩
    apply h.rep.mem_head
    rw [← hview, walk_update]
    exact (Lists.seen_head_walk (Function.update_self ..)).trans hc
  · rw [hcur]
    rfl
  · rw [hcur]
    rfl
  · rw [hcur]
    rfl
  · exact .inr (h.uncopied_of_dead (by rw [hcur]; rfl))

theorem die (h : t.Kept L) (hcur : t.errand t.cur = .freeing sg none ph) (hsg : sg.next = none) :
    ∃ M, ({ t with lists := t.lists.clear (.seg sg t.cur) }.go .gone).Kept M ∧
      Retagged none (t.Tagged L) (Cells.Tagged
        ({ t with lists := t.lists.clear (.seg sg t.cur) }.go .gone) M) := by
  have hwalk : (t.errand t.cur).walk = some (sg, none) := by rw [hcur]; rfl
  apply h.shift_quiet
  · rw [walk_update]
    exact Lists.seen_clear hwalk
  · intro d hd
    rw [hcur] at hd
    cases hd
  · exact fun sg' => h.walked hcur sg' (Segment.rank_le_of_next hsg sg')
  · rw [hcur]
    rfl
  · rw [hcur]
    rfl
  · rw [hcur]
    rfl
  · exact .inr (h.uncopied_of_dead (by rw [hcur]; rfl))

theorem copyWalk (h : t.Kept L) (hcur : (t.errand t.cur).walk = none)
    (hc : (t.errand t.cur).claim = none) (sg : Segment) :
    ∃ M, (t.go (.copying r sg (t.lists.head (.seg sg t.cur)))).Kept M ∧
      Retagged none (t.Tagged L) (Cells.Tagged
        (t.go (.copying r sg (t.lists.head (.seg sg t.cur)))) M) := by
  apply h.shift_quiet (l := t.lists)
  · rw [walk_go (by rw [hcur]; rfl)]
    rfl
  · intro d hd
    rw [hd] at hc
    cases hc
  · exact h.head_mem hcur sg
  · exact hc.symm
  · cases he : t.errand t.cur with
    | copyingTo c sg d f ph =>
      rw [he] at hc
      cases hc
    | _ => rfl
  · cases he : t.errand t.cur with
    | loading v c ph =>
      rw [he] at hc
      cases hc
    | _ => rfl
  · exact .inl rfl

theorem copyDone (h : t.Kept L) (hcur : t.errand t.cur = .copying r sg none) :
    ∃ M, (t.go .idle).Kept M ∧ Retagged none (t.Tagged L) (Cells.Tagged (t.go .idle) M) := by
  apply h.shift_quiet (l := t.lists)
  · rw [walk_go (by rw [hcur]; rfl)]
    rfl
  · intro d hd
    rw [hcur] at hd
    cases hd
  · trivial
  · rw [hcur]
    rfl
  · rw [hcur]
    rfl
  · rw [hcur]
    rfl
  · exact .inl rfl

/-- The copy of a cell is complete. -/
theorem copyEnd (h : t.Kept L) (hcur : t.errand t.cur = .copyingTo r sg c f .ready)
    (hun : t.Uncopied t.cur) (hhome : t.home r = t.home t.cur) :
    ∃ M, ({ t with
        vaddr := Function.update t.vaddr f (t.vaddr c) }.go (.copying r sg (t.lists.next c))).Kept M ∧
      Retagged (some (f, some (r, t.vaddr c))) (t.Tagged L) (Cells.Tagged ({ t with
        vaddr := Function.update t.vaddr f (t.vaddr c) }.go (.copying r sg (t.lists.next c))) M) := by
  have hs := h.serves t.cur
  rw [hcur] at hs
  obtain ⟨hc, hf, hsf, hag⟩ := hs
  have htarget : ∀ {p d}, (t.errand t.cur).target = some (p, d) → p = r ∧ d = f := by
    intro p d hd
    rw [hcur] at hd
    cases hd
    exact ⟨rfl, rfl⟩
  have hctarget : ¬ t.Target c := by
    rintro ⟨q, p, hq⟩
    obtain ⟨sg', hm⟩ := h.target_mem hq
    cases h.rep.disjoint _ _ c hc hm
    exact hun q c hq
  have hva : ∀ d, d ≠ f → Function.update t.vaddr f (t.vaddr c) d = t.vaddr d := by
    intro d hd
    rw [Function.update_of_ne hd]
  have hnext : ∀ d, t.lists.next c = some d → d ∈ L (.seg sg t.cur) := by
    intro d hd
    obtain ⟨A, B, hAB⟩ := List.append_of_mem hc
    have hch := h.rep.chain (.seg sg t.cur)
    rw [hAB] at hch
    have hB := hch.after
    rw [show t.view.next c = some d from hd] at hB
    obtain ⟨T, rfl, -⟩ := hB.head_some
    rw [hAB]
    simp
  have hmem : ∀ k d, d ∈ L k ↔ (d = f ∧ f ∈ L k) ∨ (d ≠ f ∧ d ∈ L k) := by
    intro k d
    by_cases hd : d = f
    · simp [hd]
    · simp [hd]
  refine ⟨L, h.shift (l := t.lists) ?_ ?_ hnext nofun nofun (.inl rfl) ?_ ?_,
    ⟨fun q w => ?_, fun d hd q w => ?_⟩⟩
  · rw [walk_go (by rw [hcur]; rfl)]
    rfl
  · intro d hd
    rw [hcur] at hd
    cases hd
  · intro d hd
    apply hva
    rintro rfl
    exact hd ⟨t.cur, r, by rw [hcur]; rfl⟩
  · intro p d sg' q hd hm
    obtain ⟨-, rfl⟩ := htarget hd
    cases h.rep.disjoint _ _ d hf hm
    apply Or.inr
    rw [Function.update_self, hhome]
    exact (h.filed hc).resolve_left hctarget
  · constructor
    · rintro (⟨⟨sg', hm⟩, hw, -⟩ | hl)
      · cases h.rep.disjoint _ _ f hf hm
        rw [show w = t.vaddr c from hw.symm.trans (Function.update_self ..)]
      · by_cases hq : q = t.cur
        · rw [hq] at hl
          simp only [go, Function.update_self] at hl
          cases hl
        · simp only [go, Function.update_of_ne hq] at hl
          exact (h.load_off hl _ hf).elim
    · intro he
      cases he
      refine .inl ⟨⟨sg, hf⟩, Function.update_self .., ?_⟩
      rintro ⟨q, p, hq⟩
      by_cases hqc : q = t.cur
      · rw [hqc] at hq
        simp only [go, Function.update_self] at hq
        cases hq
      · simp only [go, Function.update_of_ne hqc] at hq
        apply hqc
        apply h.apart (x := .copy) (claim_of_target hq)
        rw [hcur]
        rfl
  · apply tagged_move hmem hva _ _ _ hd
    · intro p d' hd'
      exact (htarget hd').2
    · intro p d' hd'
      cases hd'
    · intro w d' _
      rw [hcur]
      rfl

/-- A new process, or the child of a fork. -/
theorem born (h : t.Kept L) (hq : t.errand q = .gone) (f : Nat → Segment → Prop) :
    Kept { t with
      errand := Function.update t.errand q .idle
      home := Function.update t.home q f } L ∧
    Retagged none (t.Tagged L) (Cells.Tagged { t with
      errand := Function.update t.errand q .idle
      home := Function.update t.home q f } L) := by
  have hnil : ∀ sg, L (.seg sg q) = [] := by
    have hs := h.serves q
    rw [hq] at hs
    exact hs
  have hsame : ∀ {α : Type} {g : Errand → α}, g .gone = g .idle →
      ∀ p, g (Function.update t.errand q .idle p) = g (t.errand p) := by
    intro α g hg p
    by_cases hp : p = q
    · rw [hp, Function.update_self, hq, hg]
    · rw [Function.update_of_ne hp]
  refine ⟨?_, fun d p v => ?_⟩
  · constructor
    · have hrep := h.rep
      unfold view at hrep ⊢
      simp only [hsame (g := Errand.walk) rfl]
      exact hrep
    · exact h.bound
    · exact h.unlocked
    · intro p
      by_cases hp : p = q
      · simp only [hp, Function.update_self]
        trivial
      · simpa only [Function.update_of_ne hp] using h.serves p
    · intro p x r hp hr
      simp only [hsame (g := Errand.claim) rfl] at hp hr
      exact h.apart hp hr
    · intro p r g hp
      simp only [hsame (g := Errand.target) rfl] at hp
      have hr := h.child hp
      have hrq : r ≠ q := by
        rintro rfl
        rw [hq] at hr
        cases hr
      simpa only [Function.update_of_ne hrq] using hr
    · intro c hc
      obtain ⟨p, hp⟩ := h.stored hc
      refine ⟨p, ?_⟩
      have hpq : p ≠ q := by
        rintro rfl
        rw [hq] at hp
        cases hp
      simpa only [Function.update_of_ne hpq] using hp
    · exact h.free
    · intro sg p c hc
      have hpq : p ≠ q := by
        rintro rfl
        rw [hnil] at hc
        cases hc
      cases h.filed hc with
      | inl ht =>
        obtain ⟨r, child, ht⟩ := ht
        exact .inl ⟨r, child, (hsame (g := Errand.target) rfl r).trans ht⟩
      | inr hh => exact .inr (by simpa only [Function.update_of_ne hpq] using hh)
  · unfold Tagged Target
    simp only [hsame (g := Errand.target) rfl, hsame (g := Errand.load) rfl]

theorem rehome (h : t.Kept L) (hnil : ∀ sg, L (.seg sg q) = []) (f : Nat → Segment → Prop) :
    Kept { t with home := Function.update t.home q f } L := by
  refine { h with filed := ?_ }
  intro sg p c hc
  have hpq : p ≠ q := by
    rintro rfl
    rw [hnil] at hc
    cases hc
  simp only [Function.update_of_ne hpq]
  exact h.filed hc

/-- Every move of the cells keeps them in order. -/
theorem step (h : t.Kept L) (hm : CellMove t r t') :
    ∃ M, t'.Kept M ∧ Retagged r (t.Tagged L) (t'.Tagged M) := by
  cases hm with
  | same => exact ⟨L, h, fun _ _ _ => Iff.rfl⟩
  | turn q => exact ⟨L, { h with }, fun _ _ _ => Iff.rfl⟩
  | file hcur hc hs hp hh => exact h.file hcur hc hs hp hh
  | @written c hcur =>
    refine ⟨L, h.written hcur, fun d q v => ?_⟩
    have hsame : ∀ {g : Errand → Option (Nat × Nat)}, (∀ e, g (e.wake c) = g e) →
        g .idle = g (.storing c) →
        ∀ q, g (Function.update (fun q => (t.errand q).wake c) t.cur .idle q) = g (t.errand q) := by
      intro g hg hi q
      by_cases hq : q = t.cur
      · rw [hq, Function.update_self, hcur, hi]
      · rw [Function.update_of_ne hq, hg]
    unfold Tagged Target
    simp only [go, hsame (Errand.wake_target c) rfl, hsame (Errand.wake_load c) rfl]
  | find hcur hun hs => exact h.find hcur hun hs
  | sleep hw hs => exact h.setPhase hw hs
  | ready hw hs => exact h.setPhase hw hs
  | give hcur => exact h.give hcur
  | leave hcur hun => exact h.leave hcur hun
  | release hcur hs => exact h.release hcur hs
  | clear hcur hsg => exact h.clear hcur hsg
  | die hcur hsg => exact h.die hcur hsg
  | @fork child hcur hchild =>
    obtain ⟨hb, htag⟩ := h.born hchild (t.home t.cur)
    have hne : t.cur ≠ child := by
      rintro he
      rw [← he, hcur] at hchild
      cases hchild
    have hcur' : Function.update t.errand child .idle t.cur = .idle := by
      rw [Function.update_of_ne hne, hcur]
    obtain ⟨M, hM, htag'⟩ := hb.copyWalk (r := child) (by simp only [hcur']; rfl)
      (by simp only [hcur']; rfl) .text
    exact ⟨M, hM, fun d q v => (htag' d q v).trans (htag d q v)⟩
  | copyTake hcur hf hs hch hun => exact h.copyTake hcur hf hs hch hun
  | copyEnd hcur hun hh => exact h.copyEnd hcur hun hh
  | copyNext hcur hsg => exact h.copyWalk (by rw [hcur]; rfl) (by rw [hcur]; rfl) _
  | copyDone hcur hsg => exact h.copyDone hcur
  | spawn hq =>
    obtain ⟨hb, htag⟩ := h.born hq _
    exact ⟨L, hb, htag⟩
  | exec hcur hun hh =>
    refine ⟨L, h.rehome (fun sg => ?_) _, fun _ _ _ => Iff.rfl⟩
    apply List.eq_nil_iff_forall_not_mem.2
    intro c hc
    cases h.filed hc with
    | inl ht =>
      obtain ⟨q, r, hq⟩ := ht
      obtain ⟨sg', hm⟩ := h.target_mem hq
      cases h.rep.disjoint _ _ c hc hm
      exact hun q c hq
    | inr hh' => exact hh _ _ hh'
  | @reap q _ hq =>
    refine ⟨L, h.rehome (fun sg => ?_) _, fun _ _ _ => Iff.rfl⟩
    have hs := h.serves q
    rw [hq] at hs
    exact hs sg

end Cells.Kept

end Clape
