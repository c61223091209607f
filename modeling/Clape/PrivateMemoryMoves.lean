import Clape.PrivateMemoryForks

namespace Clape
set_option autoImplicit true

theorem SwapFile.loadBegin_none {w : SwapFile} (h : w.loadBegin A v p = .ok (w', none)) :
    ∃ sg, A.loadSeg v = some sg ∧
      w.lists.search (fun c => w.vaddr c == v) w.size none (w.lists.head (.seg sg p)) = .missing := by
  unfold loadBegin at h
  split at h
  · cases h
  · rename_i sg hsg
    split at h
    · cases h
    · rename_i hs
      exact ⟨sg, hsg, hs⟩
    · cases h

theorem Sys.pc_goto_self (s : Sys) (c : Pc) : (s.goto c).pc s.cur = c := by
  rw [pc_goto, Function.update_self]

namespace Sys.Paged
variable {s u : Sys}

theorem cur_of_sends (h : s.Paged L m) (hq : (s.pc q).sends = some (i, .page p v)) : q = s.cur := by
  cases hpc : s.pc q with
  | storeSwap k j w r =>
    rw [hpc] at hq
    cases hq
    exact (h.order.filing q v p (by rw [hpc]; rfl)).1
  | _ =>
    rw [hpc] at hq
    cases hq

/-- A page that `load_swap` does not find has no contents yet. -/
theorem absent (h : s.Paged L m) (hpc : s.pc s.cur = .loadPage v i) (has : s.as s.cur = some A)
    (hb : s.swap.loadBegin A v s.cur = .ok (w, none)) : m (s.cur, v) = none := by
  obtain ⟨sg, hsg, hmiss⟩ := SwapFile.loadBegin_none hb
  have hall : ∀ d ∈ L (.seg sg s.cur), (s.swap.vaddr d == v) = false := by
    rcases h.order.search (q := s.cur) (by rw [hpc]; rfl) (fun c => s.swap.vaddr c == v) sg with
      ⟨_, _, _, -, -, -, hs⟩ | ⟨hall, -⟩
    · rw [hmiss] at hs
      cases hs
    · exact hall
  have htagged : ∀ c, ¬ s.cells.Tagged L c s.cur v := by
    rintro c (⟨⟨sg', hc⟩, hv, htar⟩ | hload)
    · have hhome := (h.order.kept.filed hc).resolve_left htar trivial
      rw [has] at hhome
      change A.loadSeg (s.swap.vaddr c) = some sg' at hhome
      rw [show s.swap.vaddr c = v from hv, hsg] at hhome
      cases hhome
      have := hall c hc
      rw [show s.swap.vaddr c = v from hv] at this
      simp at this
    · rw [show s.cells.errand s.cur = (s.pc s.cur).errand from rfl, hpc] at hload
      cases hload
  rw [h.shows.none_iff]
  intro z hz
  cases z with
  | frame d =>
    have hkey := h.loading_key (q := s.cur) (v := v) (i := i) (by rw [hpc]; rfl)
    have hd : d = i := h.order.good.2.peopled.unique hz.1 hkey
    subst hd
    exact hz.2 s.cur (by rw [hpc]; rfl)
  | outgoing d =>
    obtain ⟨q, x, hq, hmean⟩ := hz
    cases x with
    | page p w =>
      rw [h.cur_of_sends hq, hpc] at hq
      cases hq
    | cell c => exact htagged c hmean
  | cell c => exact htagged c hz.1

end Sys.Paged

/-- What the running thread has left to copy after a step; `P` tells the pages that it copies. -/
def Sys.Copies (s u : Sys) (P : Nat → Prop) : Prop :=
  ∀ r k w, (u.pc s.cur).copying = some (r, k, w) → ∃ j x, (s.pc s.cur).copying = some (r, j, x) ∧
    ∀ v, u.Todo s.cur k w v ↔ s.Todo s.cur j x v ∧ ¬ P v

/-- How the contents of the pages change with a step. -/
inductive Sys.Ghost (s : Sys) (a : Action) (u : Sys) (m : Nat × Nat → Option Page) :
    (Nat × Nat → Option Page) → Prop where
  | same : s.seen a u = .idle → s.Copies u (fun _ => False) → Ghost s a u m m
  | begin : a = .fork r → s.seen a u = .idle → Ghost s a u m m
  | fork : s.pc s.cur = .copyPt r i → ¬ i < s.ipt.pt.nEntry → (u.pc s.cur).copying = none →
      (u.pc r).role.active = true → s.seen a u = .fork s.cur r → Ghost s a u m m
  | change : (s.pc s.cur).role.active = true → (u.pc s.cur).role.active = true →
      (u.pc s.cur).copying = none → s.seen a u = .change s.cur v f → m (s.cur, v) = some b →
      Ghost s a u m (Function.update m (s.cur, v) (some (f b)))
  | touch : (s.pc s.cur).role.active = true → (u.pc s.cur).role.active = true →
      (u.pc s.cur).copying = none → s.seen a u = .touch s.cur v b → m (s.cur, v) = none →
      Ghost s a u m (Function.update m (s.cur, v) (some b))
  | copy : s.seen a u = .idle → (s.pc s.cur).copying = some (r, k, w) → s.Todo s.cur k w v →
      s.Copies u (· = v) → Ghost s a u m (Function.update m (r, v) (m (s.cur, v)))
  | lose : (u.pc s.cur).role = .exiting →
      s.seen a u = .exit s.cur ∨ s.seen a u = .idle ∧ (s.pc s.cur).role = .exiting →
      (∀ p v, p ≠ s.cur → m' (p, v) = m (p, v)) → Ghost s a u m m'

namespace Sys.Paged
variable {s u : Sys}

theorem seen_still (hw : ∀ k off b, a ≠ .write k off b)
    (hu : u.pc s.cur = s.pc s.cur ∨ u.pc s.cur = (s.pc s.cur).wakePt) : s.seen a u = .idle := by
  unfold seen
  split
  · exact (hw _ _ _ rfl).elim
  · cases hc : s.pc s.cur <;> rcases hu with hu | hu <;> rw [hu, hc] <;> rfl

theorem copies_none {P : Nat → Prop} (h : (u.pc s.cur).copying = none) : s.Copies u P := by
  intro r k w hu
  rw [h] at hu
  cases hu

theorem copies_of {P : Nat → Prop} (h : s.Paged L m) (hm : Move s a u)
    (hs : (s.pc s.cur).copying = some (r, j, x)) (hu : (u.pc s.cur).copying = some (r, k, w))
    (hw : ∀ sg e, w = some (sg, e) → ∃ R, Chain s.swap.lists.next e R ∧ ∀ d ∈ R, d ∈ L (.seg sg s.cur))
    (hP : ∀ v, s.Todo s.cur k w v ↔ s.Todo s.cur j x v ∧ ¬ P v) : s.Copies u P := by
  intro r' k' w' hu'
  rw [hu] at hu'
  cases hu'
  refine ⟨j, x, hs, ?_⟩
  intro v
  rw [h.todo_iff hm (Pc.forks_of_copying hs) hw v]
  exact hP v

theorem copies_same (h : s.Paged L m) (hm : Move s a u)
    (hcopy : (u.pc s.cur).copying = (s.pc s.cur).copying) : s.Copies u fun _ => False := by
  intro r k w hu
  have hs := hu
  rw [hcopy] at hs
  refine ⟨k, w, hs, ?_⟩
  intro v
  rw [h.todo_iff hm (Pc.forks_of_copying hs) (by
    rintro sg e rfl
    exact h.cursor hs) v]
  simp

theorem rest (h : s.Paged L m) (hm : Move s a u) (hF : s.Filed a) (hr : s.retag a = none)
    (hseen : s.seen a u = .idle) (hframe : ∀ i k, u.InFrame i k ↔ s.InFrame i k)
    (hsend : (u.pc s.cur).sends = (s.pc s.cur).sends) (hst : u.swap.store = s.swap.store)
    (hmem : u.mem = s.mem) (hdisk : u.disk = s.disk) (hcopy : s.Copies u fun _ => False) :
    ∃ M m', u.InOrder M ∧ Shows (u.Keeps M) u.bytes m' ∧ s.Ghost a u m m' := by
  obtain ⟨M, hM, htag⟩ := h.order.step hm hF
  rw [hr] at htag
  exact ⟨M, m, hM, h.quiet hm htag hframe hsend hst hmem hdisk, .same hseen hcopy⟩

theorem walk {c c' : Pc} (h : s.Paged L m) (hm : Move s .advance u) (hF : s.Filed .advance)
    (hpc : s.pc s.cur = c) (hu : u.pc s.cur = c') (hr : c.retag s.swap = none)
    (hseen : ∀ s u : Sys, s.pc s.cur = c → u.pc s.cur = c' → s.seen .advance u = .idle)
    (hcopy : c'.copying = none ∨ c'.copying = c.copying) (hn : u.ipt.pt.nEntry = s.ipt.pt.nEntry)
    (hE : ∀ i, SameKey (s.ipt.pt.entries i) (u.ipt.pt.entries i))
    (hfill : c'.fills = c.fills) (hsend : c'.sends = c.sends) (hst : u.swap.store = s.swap.store)
    (hmem : u.mem = s.mem) (hdisk : u.disk = s.disk) :
    ∃ M m', u.InOrder M ∧ Shows (u.Keeps M) u.bytes m' ∧ s.Ghost .advance u m m' := by
  have hleft : s.Copies u fun _ => False := by
    rcases hcopy with hcopy | hcopy
    · exact copies_none (by rw [hu, hcopy])
    · exact h.copies_same hm (by rw [hu, hpc, hcopy])
  apply h.rest hm hF (Sys.retag_advance hpc hr) (hseen s u hpc hu) _ (by rw [hu, hpc, hsend]) hst hmem hdisk hleft
  exact frames_same hm h.order.good.1 hn hE (by rw [hu, hpc, hfill])

theorem inFrame_of_io (h : s.Paged L m) (hio : (s.ipt.pt.entries i).ctrl.io = false)
    (hk : Key s.ipt.pt.nEntry s.ipt.pt.entries i k.2 k.1) : s.InFrame i k := by
  refine ⟨hk, ?_⟩
  intro q hq
  obtain ⟨w, hold⟩ := Pc.hold_of_fills hq
  exact (h.order.good.1.fits i).not_held_of_io hio q (some w) hold

theorem victim_frame {E : Nat → PtEntry} (h : s.Paged L m)
    (hsame : SameButRef (s.ipt.pt.entries i) (E i)) (hi : i < s.ipt.pt.nEntry) (he : (E i).Idle)
    (hu : (E i).user = true) : s.InFrame i ((E i).pid, (E i).page) := by
  obtain ⟨b, hb⟩ := hsame
  rw [hb] at he hu ⊢
  exact h.inFrame_of_io he.1 ⟨hi, hu, rfl, rfl⟩

theorem target_not_tagged (h : s.Paged L m) (hq : (s.pc q).errand.target = some (r, f))
    (hf : f ∈ L k) (p v : Nat) : ¬ s.cells.Tagged L f p v := by
  rintro (⟨-, -, hno⟩ | hload)
  · exact hno ⟨q, r, hq⟩
  · exact h.order.kept.load_off hload k hf

theorem tagged_place (h : s.Paged L m) (hc : s.cells.Tagged L c q v) :
    s.Keeps L (.cell c) (q, v) ∨ ∃ p i, (s.pc p).sends = some (i, .cell c) ∧ s.Keeps L (.outgoing i) (q, v) := by
  cases hst : s.swap.store c with
  | false => exact .inl ⟨hc, hst⟩
  | true =>
    obtain ⟨p, ⟨k, i, hp⟩, -⟩ := h.order.storer hst
    have hsend : (s.pc p).sends = some (i, .cell c) := by
      rw [hp]
      rfl
    exact .inr ⟨p, i, hsend, p, _, hsend, hc⟩

theorem cell_unique (h : s.Paged L m) (hc : s.cells.Tagged L c q v) (hd : s.cells.Tagged L d q v) :
    c = d := by
  rcases h.tagged_place hc with hc | ⟨p, i, hp, hc⟩
  · rcases h.tagged_place hd with hd | ⟨p', j, -, hd⟩
    · cases h.shows.once hc hd
      rfl
    · cases h.shows.once hc hd
  · rcases h.tagged_place hd with hd | ⟨p', j, hp', hd⟩
    · cases h.shows.once hc hd
    · cases h.shows.once hc hd
      have hpp := h.sender_unique hp hp'
      rw [hpp, hp'] at hp
      cases hp
      rfl

/-- The cells on the lists of a process that forks hold its pages. -/
theorem tagged_of_listed (h : s.Paged L m) (hf : (s.pc q).role.forks = true)
    (hc : c ∈ L (.seg sg q)) : s.cells.Tagged L c q (s.swap.vaddr c) := by
  refine .inl ⟨⟨sg, hc⟩, rfl, ?_⟩
  rintro ⟨p, r, hp⟩
  have hs := h.order.kept.serves p
  cases he : s.cells.errand p with
  | copyingTo r' sg' d f ph =>
    rw [he] at hp hs
    cases hp
    cases h.order.kept.rep.disjoint _ _ c hc hs.2.1
    obtain ⟨k, hk⟩ : ∃ k, (s.pc p).role = .forking q k := by
      rw [show s.cells.errand p = (s.pc p).errand from rfl] at he
      cases hpc : s.pc p with
      | cell k d => rw [hpc] at he; cases k <;> cases he; exact ⟨0, rfl⟩
      | cellWait k d w => rw [hpc] at he; cases k <;> cases he; exact ⟨0, rfl⟩
      | copyReading => rw [hpc] at he; cases he; exact ⟨0, rfl⟩
      | copyWriting => rw [hpc] at he; cases he; exact ⟨0, rfl⟩
      | _ => rw [hpc] at he; cases he
    have hemb : (s.pc q).role = .embryo := h.order.good.1.apart.embryo (q := p) hk
    rw [hemb] at hf
    cases hf
  | _ =>
    rw [he] at hp
    cases hp

theorem todo_next {i : Nat} {P : Nat → Prop}
    (hP : ∀ j v, i ≤ j → Key s.ipt.pt.nEntry s.ipt.pt.entries j v q → (j = i ↔ P v)) (v : Nat) :
    s.Todo q (i + 1) none v ↔ s.Todo q i none v ∧ ¬ P v := by
  constructor
  · rintro (⟨j, hj, hk⟩ | ⟨d, hd, -⟩)
    · refine ⟨.inl ⟨j, Nat.le_of_succ_le hj, hk⟩, ?_⟩
      intro hv
      have := (hP j v (Nat.le_of_succ_le hj) hk).2 hv
      omega
    · exact hd.elim
  · rintro ⟨⟨j, hj, hk⟩ | ⟨d, hd, -⟩, hv⟩
    · refine .inl ⟨j, ?_, hk⟩
      have hne : j ≠ i := fun he => hv ((hP j v hj hk).1 he)
      omega
    · exact hd.elim

theorem todo_cell (h : s.Paged L m) (hs : (s.pc q).copying = some (r, 0, some (sg, some c))) (v : Nat) :
    s.Todo q 0 (some (sg, s.swap.lists.next c)) v ↔
      s.Todo q 0 (some (sg, some c)) v ∧ ¬ v = s.swap.vaddr c := by
  have hf := Pc.forks_of_copying hs
  obtain ⟨R, hR, hsub⟩ := h.cursor hs
  obtain ⟨T, rfl, hT⟩ := hR.head_some
  have hc : c ∈ L (.seg sg q) := hsub c List.mem_cons_self
  have hct := h.tagged_of_listed hf hc
  -- the cell is not met again, and no other cell or frame has its page
  have hnot : c ∉ T := by
    obtain ⟨A, B, hL⟩ := List.append_of_mem hc
    have hchain := h.fork_chain hf sg
    rw [hL] at hchain
    rw [← hchain.after.unique hT]
    have hnd := h.order.kept.rep.nodup (.seg sg q)
    rw [hL, List.nodup_middle, List.nodup_cons, List.mem_append, not_or] at hnd
    exact hnd.1.2
  have hcell : ∀ sg' d, d ∈ L (.seg sg' q) → d ≠ c → s.swap.vaddr d ≠ s.swap.vaddr c := by
    intro sg' d hd hdc he
    have hdt := h.tagged_of_listed hf hd
    rw [he] at hdt
    exact hdc (h.cell_unique hdt hct)
  have hframe : ∀ j, ¬ Key s.ipt.pt.nEntry s.ipt.pt.entries j (s.swap.vaddr c) q := by
    intro j hk
    have hfill : (s.pc q).fills = none := by
      cases hfl : (s.pc q).fills with
      | none => rfl
      | some i =>
        obtain ⟨w, hw⟩ := Pc.hold_of_fills hfl
        rw [Role.not_forks_of_hold hw] at hf
        cases hf
    have hkeep : s.Keeps L (.frame j) (q, s.swap.vaddr c) := h.inFrame_of_key hk hfill
    rcases h.tagged_place hct with hp | ⟨p, i, -, hp⟩
    · cases h.shows.once hkeep hp
    · cases h.shows.once hkeep hp
  have hlater : ∀ sg' d, sg.rank < sg'.rank → d ∈ L (.seg sg' q) → d ≠ c := by
    rintro sg' d hsg hd rfl
    cases h.order.kept.rep.disjoint _ _ d hd hc
    exact Nat.lt_irrefl _ hsg
  unfold Todo
  simp only [rest_iff hT (h.fork_chain hf), rest_iff hR (h.fork_chain hf)]
  constructor
  · rintro (⟨j, hj, hk⟩ | ⟨d, hd, rfl⟩)
    · refine ⟨.inl ⟨j, hj, hk⟩, ?_⟩
      rintro rfl
      exact hframe j hk
    · rcases hd with hd | ⟨sg', hsg, hd⟩
      · refine ⟨.inr ⟨d, .inl (List.mem_cons_of_mem _ hd), rfl⟩, ?_⟩
        apply hcell sg d (hsub d (List.mem_cons_of_mem _ hd))
        rintro rfl
        exact hnot hd
      · exact ⟨.inr ⟨d, .inr ⟨sg', hsg, hd⟩, rfl⟩, hcell sg' d hd (hlater sg' d hsg hd)⟩
  · rintro ⟨⟨j, hj, hk⟩ | ⟨d, hd, rfl⟩, hv⟩
    · exact .inl ⟨j, hj, hk⟩
    · refine .inr ⟨d, ?_, rfl⟩
      rcases hd with hd | hd
      · cases hd with
        | head => exact (hv rfl).elim
        | tail _ hd => exact .inl hd
      · exact .inr hd

theorem todo_list (h : s.Paged L m) (hf : (s.pc q).role.forks = true) (hnext : sg.next = some sg') (v : Nat) :
    s.Todo q 0 (some (sg', s.swap.lists.head (.seg sg' q))) v ↔ s.Todo q 0 (some (sg, none)) v := by
  unfold Todo
  apply or_congr_right
  apply exists_congr
  intro d
  apply and_congr_left
  intro _
  have hnil : Chain s.swap.lists.next none [] := rfl
  have hrank := Segment.rank_next hnext
  rw [rest_iff (h.fork_chain hf sg') (h.fork_chain hf), rest_iff hnil (h.fork_chain hf)]
  constructor
  · rintro (hd | ⟨sg₁, hsg, hd⟩)
    · exact .inr ⟨sg', by omega, hd⟩
    · exact .inr ⟨sg₁, by omega, hd⟩
  · rintro (hd | ⟨sg₁, hsg, hd⟩)
    · cases hd
    · by_cases he : sg₁ = sg'
      · exact .inl (he ▸ hd)
      · refine .inr ⟨sg₁, ?_, hd⟩
        have hne : sg₁.rank ≠ sg'.rank := fun hr => he (Segment.rank_injective hr)
        omega

theorem todo_lists (h : s.Paged L m) (hf : (s.pc q).role.forks = true) (hnext : sg.next = none) (v : Nat) :
    s.Todo q 0 none v ↔ s.Todo q 0 (some (sg, none)) v := by
  unfold Todo
  apply or_congr_right
  apply exists_congr
  intro d
  apply and_congr_left
  intro _
  have hnil : Chain s.swap.lists.next none [] := rfl
  rw [rest_iff hnil (h.fork_chain hf)]
  refine iff_of_false (fun hd => hd) ?_
  rintro (hd | ⟨sg', hsg, -⟩)
  · cases hd
  · exact absurd (Segment.rank_le_of_next hnext sg') (Nat.not_le.2 hsg)

theorem copied_once (h : s.Paged L m) (hi : Key s.ipt.pt.nEntry s.ipt.pt.entries i v q) (j w : Nat) (_ : i ≤ j)
    (hj : Key s.ipt.pt.nEntry s.ipt.pt.entries j w q) : j = i ↔ w = v := by
  constructor
  · rintro rfl
    exact hj.2.2.1.symm.trans hi.2.2.1
  · rintro rfl
    exact h.order.good.2.peopled.unique hj hi

theorem shows_step (h : s.Paged L m) (hm : Move s a u) (hF : s.Filed a) (hC : s.Contained a) :
    ∃ M m', u.InOrder M ∧ Shows (u.Keeps M) u.bytes m' ∧ s.Ghost a u m m' := by
  have ho := h.order.good.1
  have hm' := hm
  have hself : ∀ i, SameKey (s.ipt.pt.entries i) (s.ipt.pt.entries i) := fun i => .refl _
  cases hm with
  | @dispatch q pt mmu st hsw hready hact =>
    obtain ⟨hn, hE⟩ := sameKey_asActivate hact
    exact h.rest hm' hF rfl (seen_still (by simp) (.inl rfl)) (frames_same hm' ho hn hE rfl) rfl rfl rfl rfl
      (h.copies_same hm' rfl)
  | @hit as v a t ipt i pt mmu r st hpc has hv ha ht _ _ hget hins =>
    obtain ⟨-, -, -, -, -, -, rfl⟩ := ptGetPaddr_some hget
    obtain ⟨hins, hn, -⟩ := Inserted.of_tlbInsert hins
    apply h.rest hm' hF rfl (seen_still (by simp) (.inl rfl)) _ rfl rfl rfl rfl (h.copies_same hm' rfl)
    apply frames_same hm' ho hn _ rfl
    intro j
    have htlb : SameKey (s.ipt.pt.entries i) ((s.ipt.pt.entries i).setTlb true) :=
      ⟨rfl, fun _ => ⟨rfl, rfl⟩⟩
    exact (sameKey_set htlb j).trans (sameKey_inserted hins j)
  | @seek as v a t ipt₀ st hpc has hv ha _ _ hget _ =>
    have hu := pc_goto_self { s with stats := st } (.findVictim v s.ipt.pt.lastIndex)
    exact h.rest hm' hF rfl (by simp only [seen, hpc, pc_goto_self])
      (frames_same hm' ho rfl hself (by rw [hu, hpc]; rfl)) (by rw [hu, hpc]; rfl) rfl rfl rfl
      (copies_none (by rw [hu]; rfl))
  | @allocWait a fp E hpc hsearch =>
    have hsame := s.ipt.pt.chanceSearch_sameButRef 1 fp
    rw [hsearch] at hsame
    have hu : (((s.setPt { s.ipt.pt with entries := E, lastIndex := 0 }).goto (.allocWait false)).pc
        s.cur) = .allocWait false := pc_goto_self _ _
    have hold : (s.pc s.cur).fills = none ∧ (s.pc s.cur).sends = none ∧ s.retag a = none ∧
        s.seen a ((s.setPt { s.ipt.pt with entries := E, lastIndex := 0 }).goto (.allocWait false)) = .idle := by
      rcases hpc with ⟨hpc, rfl⟩ | ⟨hpc, rfl⟩
      · rw [hpc]
        exact ⟨rfl, rfl, rfl, by simp only [seen, hpc, hu]⟩
      · refine ⟨by rw [hpc]; rfl, by rw [hpc]; rfl, Sys.retag_advance hpc rfl, ?_⟩
        simp only [seen, hpc, hu]
    apply h.rest hm' hF hold.2.2.1 hold.2.2.2 _ (by rw [hu, hold.2.1]; rfl) rfl rfl rfl
      (copies_none (by rw [hu]; rfl))
    exact frames_same hm' ho rfl (fun i => (hsame i).sameKey) (by rw [hu, hold.1]; rfl)
  | @noVictim v start E hpc hseek =>
    have hsame := (victimSweep_spec s.ipt.pt.entries (s.ipt.pt.victimOrder start)).1
    rw [show victimSweep s.ipt.pt.entries (s.ipt.pt.victimOrder start) = _ from hseek] at hsame
    exact h.walk hm' hF hpc (pc_goto_self _ _) rfl (fun s u h h' => by simp only [seen, h, h']) (.inl rfl)
      rfl (fun i => (hsame i).sameKey) rfl rfl rfl rfl rfl
  | @victimWake v start hpc =>
    exact h.walk hm' hF hpc (pc_goto_self _ _) rfl (fun s u h h' => by simp only [seen, h, h']) (.inl rfl)
      rfl hself rfl rfl rfl rfl rfl
  | @storedVictim v i ipt hpc hhash =>
    obtain ⟨-, hpt⟩ := hashVictim_ok hhash
    have hn : ipt.pt.nEntry = s.ipt.pt.nEntry := by rw [hpt]
    have hE : ipt.pt.entries = s.ipt.pt.entries := by rw [hpt]
    exact h.walk hm' hF hpc (pc_goto_self _ _) rfl (fun s u h h' => by simp only [seen, h, h']) (.inl rfl)
      hn (fun j => (congrFun hE j) ▸ hself j) rfl rfl rfl rfl rfl
  | @storedAlloc i hpc =>
    have hio : SameKey (s.ipt.pt.entries i) ((s.ipt.pt.entries i).setIo false) :=
      ⟨rfl, fun _ => ⟨rfl, rfl⟩⟩
    exact h.walk hm' hF hpc (pc_goto_self _ _) rfl (fun s u h h' => by simp only [seen, h, h']) (.inl rfl)
      rfl (sameKey_set hio) rfl rfl rfl rfl rfl
  | @storedFork child i hpc =>
    exact h.walk hm' hF hpc (pc_goto_self _ _) rfl (fun s u h h' => by simp only [seen, h, h']) (.inr rfl)
      rfl hself rfl rfl rfl rfl rfl
  | @loadFound v i as w c hpc has hb =>
    obtain ⟨sg, prev, -, -, rfl⟩ := SwapFile.loadBegin_some hb
    exact h.walk hm' hF hpc (pc_goto_self _ _) rfl (fun s u h h' => by simp only [seen, h, h']) (.inl rfl)
      rfl hself rfl rfl rfl rfl rfl
  | @cellSleep k c w hpc hb =>
    obtain ⟨rfl, hst⟩ := SwapFile.testStore_spec hb
    have hr : (Pc.cell k c).retag s.swap = none := by
      cases k with
      | exit sg => simp only [Pc.retag, ← hst, if_true]
      | _ => rfl
    exact h.walk hm' hF hpc (pc_goto_self _ _) hr (fun s u h h' => by simp only [seen, h, h']) (.inr (by cases k <;> rfl))
      rfl hself (by cases k <;> rfl) rfl rfl rfl rfl
  | @cellLoad v i c w st hpc hb =>
    obtain ⟨rfl, -⟩ := SwapFile.testStore_spec hb
    exact h.walk hm' hF hpc (pc_goto_self _ _) rfl (fun s u h h' => by simp only [seen, h, h']) (.inl rfl)
      rfl hself rfl rfl rfl rfl rfl
  | @cellCopy child sg f c w hpc hb =>
    obtain ⟨rfl, -⟩ := SwapFile.testStore_spec hb
    exact h.walk hm' hF hpc (pc_goto_self _ _) rfl (fun s u h h' => by simp only [seen, h, h']) (.inr rfl)
      rfl hself rfl rfl rfl rfl rfl
  | @cellWake k c hpc =>
    have hr : (Pc.cellWait k c true).retag s.swap = none := by
      cases k <;> rfl
    exact h.walk hm' hF hpc (pc_goto_self _ _) hr (fun s u h h' => by simp only [seen, h, h']) (.inr (by cases k <;> rfl))
      rfl hself (by cases k <;> rfl) rfl rfl rfl rfl
  | @loaded v i as pt mmu r st hpc has hins =>
    obtain ⟨hins, hn, -⟩ := Inserted.of_tlbInsert hins
    apply h.walk hm' hF hpc (pc_goto_self _ _) rfl (fun s u h h' => by simp only [seen, h, h']) (.inl rfl)
      hn _ rfl rfl rfl rfl rfl
    intro j
    have hset : SameKey (s.ipt.pt.entries i)
        (((s.ipt.pt.entries i).setIo false).setTlb true) := ⟨rfl, fun _ => ⟨rfl, rfl⟩⟩
    exact (sameKey_set hset j).trans (sameKey_inserted hins j)
  | @allocWake hpc =>
    exact h.walk hm' hF hpc (pc_goto_self _ _) rfl (fun s u h h' => by simp only [seen, h, h']) (.inl rfl)
      rfl hself rfl rfl rfl rfl rfl
  | @removeCell sg c hpc =>
    exact h.walk hm' hF hpc (pc_goto_self _ _) rfl (fun s u h h' => by simp only [seen, h, h']) (.inl rfl)
      rfl hself rfl rfl rfl rfl rfl
  | @removeNext sg sg' hpc hnext =>
    exact h.walk hm' hF hpc (pc_goto_self _ _) rfl (fun s u h h' => by simp only [seen, h, h']) (.inl rfl)
      rfl hself rfl rfl rfl rfl rfl
  | @removeDone sg hpc hnext =>
    exact h.walk hm' hF hpc (pc_goto_self _ _) rfl (fun s u h h' => by simp only [seen, h, h']) (.inl rfl)
      rfl hself rfl rfl rfl rfl rfl
  | @copyTake child sg c w f hpc hb =>
    obtain ⟨-, -, rfl⟩ := SwapFile.copyBegin_ok hb
    exact h.walk hm' hF hpc (pc_goto_self _ _) rfl (fun s u h h' => by simp only [seen, h, h']) (.inr rfl)
      rfl hself rfl rfl rfl rfl rfl
  | @copyNext child sg sg' hpc hnext =>
    have hnew := pc_goto_self s (.copySwap child sg' (s.swap.lists.head (.seg sg' s.cur)))
    have hf : (s.pc s.cur).role.forks = true := by rw [hpc]; rfl
    apply h.rest hm' hF (Sys.retag_advance hpc rfl) (by simp only [seen, hpc, hnew]) _
      (by rw [hnew, hpc]; rfl) rfl rfl rfl
    · apply h.copies_of hm' (by rw [hpc]; rfl) (by rw [hnew]; rfl)
      · intro sg₁ e he
        cases he
        exact ⟨_, h.fork_chain hf sg', fun d hd => hd⟩
      · intro v
        rw [h.todo_list hf hnext v]
        simp
    · exact frames_same hm' ho rfl hself (by rw [hnew, hpc]; rfl)
  | @copyDone child sg hpc hnext =>
    have hnew := pc_goto_self s (.copyPt child 0)
    have hf : (s.pc s.cur).role.forks = true := by rw [hpc]; rfl
    apply h.rest hm' hF (Sys.retag_advance hpc rfl) (by simp only [seen, hpc, hnew]) _
      (by rw [hnew, hpc]; rfl) rfl rfl rfl
    · apply h.copies_of hm' (by rw [hpc]; rfl) (by rw [hnew]; rfl) (by simp)
      intro v
      rw [h.todo_lists hf hnext v]
      simp
    · exact frames_same hm' ho rfl hself (by rw [hnew, hpc]; rfl)
  | @copyReading child sg c f hpc =>
    exact h.walk hm' hF hpc (pc_goto_self _ _) rfl (fun s u h h' => by simp only [seen, h, h']) (.inr rfl)
      rfl hself rfl rfl rfl rfl rfl
  | @ptSkip child i hpc hi hno =>
    have hnew := pc_goto_self s (.copyPt child (i + 1))
    apply h.rest hm' hF (Sys.retag_advance hpc rfl) (by simp only [seen, hpc, hnew]) _
      (by rw [hnew, hpc]; rfl) rfl rfl rfl
    · apply h.copies_of hm' (by rw [hpc]; rfl) (by rw [hnew]; rfl) (by simp)
      apply todo_next
      rintro j v - hk
      refine iff_of_false ?_ (fun hv => hv)
      rintro rfl
      exact hno ⟨hk.2.2.2, hk.2.1⟩
    · exact frames_same hm' ho rfl hself (by rw [hnew, hpc]; rfl)
  | @allocFree f i pt hpc hrun hmark =>
    obtain ⟨-, hv, rfl⟩ := markFree_idle hmark
    have hu : (s.ipt.pt.entries i).user = false := by simp [PtEntry.user, hv]
    apply h.rest hm' hF rfl (seen_still (by simp) (.inl rfl)) _ rfl rfl rfl rfl (h.copies_same hm' rfl)
    apply frames_but hm' ho rfl _ hu (fun _ _ => Iff.rfl)
    · apply Or.inl
      simp [setPt, PageTable.set, PtEntry.user, PtEntry.kmalloc]
    · intro j hj
      simp only [setPt, PageTable.set, Function.update_of_ne hj]
      exact hself j
  | @allocTake a fp E f i ipt hpc hsearch hclaim =>
    have hsame := s.ipt.pt.chanceSearch_sameButRef 1 fp
    rw [hsearch] at hsame
    obtain ⟨he, ⟨_, ho', _⟩ | ⟨hv, -, hpt, -⟩⟩ := claimKernel_ok hclaim
    · cases ho'
    have hu : (s.ipt.pt.entries i).user = false := by
      rw [← (hsame i).sameKey.1]
      simp only at hv
      simp [PtEntry.user, hv]
    have hnew : ({ s with ipt := ipt }.finishAlloc i).pc s.cur = .run := pc_goto_self _ _
    have hold : (s.pc s.cur).fills = none ∧ (s.pc s.cur).sends = none ∧ s.retag a = none ∧
        s.seen a ({ s with ipt := ipt }.finishAlloc i) = .idle := by
      rcases hpc with ⟨hpc, rfl⟩ | ⟨hpc, rfl⟩
      · rw [hpc]
        exact ⟨rfl, rfl, rfl, by simp only [seen, hpc, hnew]⟩
      · refine ⟨by rw [hpc]; rfl, by rw [hpc]; rfl, Sys.retag_advance hpc rfl, ?_⟩
        simp only [seen, hpc, hnew]
    have hE : ({ s with ipt := ipt }.finishAlloc i).ipt.pt.entries =
        Function.update E i ((E i).kmalloc s.cur false) := congrArg PageTable.entries hpt
    have hn : ({ s with ipt := ipt }.finishAlloc i).ipt.pt.nEntry = s.ipt.pt.nEntry :=
      (congrArg PageTable.nEntry hpt).trans rfl
    apply h.rest hm' hF hold.2.2.1 hold.2.2.2 _ (by rw [hnew, hold.2.1]; rfl) rfl rfl rfl
      (copies_none (by rw [hnew]; rfl))
    apply frames_but hm' ho hn _ hu
    · intro j hj
      rw [hnew, hold.1]
      rfl
    · apply Or.inl
      rw [hE]
      simp [PtEntry.user, PtEntry.kmalloc]
    · intro j hj
      rw [hE, Function.update_of_ne hj]
      exact (hsame j).sameKey
  | @kfree i pt hsw hone hfree =>
    obtain ⟨hk, rfl⟩ := freeContiguousPages_one hone hfree
    have hu : (s.ipt.pt.entries i).user = false := by simp [PtEntry.user, hk]
    apply h.rest hm' hF rfl (seen_still (by simp) (.inr rfl)) _ (Pc.steady_sends.wakePt _) rfl rfl rfl
      (h.copies_same hm' (Pc.steady_copying.wakePt _))
    apply frames_but hm' ho rfl _ hu
    · intro j hj
      rw [pc_mapPc]
      exact (congrArg (· = some j) (Pc.steady_fills.wakePt (s.pc s.cur))).to_iff
    · apply Or.inl
      simp [setPt, mapPc, PageTable.set, PtEntry.user]
    · intro j hj
      simp only [setPt, mapPc, PageTable.set, Function.update_of_ne hj]
      exact hself j
  | @space as v a t ipt₀ i ipt st hpc has hv ha _ _ hget hspace hclaim =>
    obtain ⟨-, hpt⟩ := claimSpace_ok hclaim
    obtain ⟨-, hsp⟩ := PageTable.findspace_some hspace
    simp only [PtEntry.isSpace, Bool.and_eq_true, Bool.not_eq_true', bne_iff_ne] at hsp
    have hu : (s.ipt.pt.entries i).user = false := by simp [PtEntry.user, hsp.1.1.1]
    have hnew := pc_goto_self { s with ipt := ipt, stats := st } (.loadPage v i)
    have hn : ipt.pt.nEntry = s.ipt.pt.nEntry := by
      rw [hpt]
      rfl
    apply h.rest hm' hF rfl (by simp only [seen, hpc, pc_goto_self]) _
      (by rw [hnew, hpc]; rfl) rfl rfl rfl (copies_none (by rw [hnew]; rfl))
    apply frames_but hm' ho hn _ hu
    · intro j hj
      rw [hnew, hpc]
      simp [Pc.fills, Ne.symm hj]
    · exact .inr (by rw [hnew]; rfl)
    · intro j hj
      have hE : ipt.pt.entries j = s.ipt.pt.entries j := by
        rw [hpt]
        exact Function.update_of_ne hj ..
      exact hE ▸ hself j
  | @takeVictim v start E i ipt₁ ipt hpc hseek hclaim hhash =>
    have hsame := (victimSweep_spec s.ipt.pt.entries (s.ipt.pt.victimOrder start)).1
    rw [show victimSweep s.ipt.pt.entries (s.ipt.pt.victimOrder start) = _ from hseek] at hsame
    obtain ⟨-, hpt₁, ⟨_, ho', _⟩ | ⟨hv, -, -⟩⟩ := claimVictim_ok hclaim
    · cases ho'
    obtain ⟨-, hpt⟩ := hashVictim_ok hhash
    have hu : (s.ipt.pt.entries i).user = false := by
      rw [← (hsame i).sameKey.1]
      simp only at hv
      simp [PtEntry.user, hv]
    have hE : ipt.pt.entries = Function.update E i ((E i).claim v s.cur) := by
      rw [hpt, hpt₁]
      rfl
    have hn : ipt.pt.nEntry = s.ipt.pt.nEntry := by
      rw [hpt, hpt₁]
      rfl
    have hnew := pc_goto_self { s with ipt := ipt } (.loadPage v i)
    apply h.rest hm' hF (Sys.retag_advance hpc rfl) (by simp only [seen, hpc, hnew]) _
      (by rw [hnew, hpc]; rfl) rfl rfl rfl (copies_none (by rw [hnew]; rfl))
    apply frames_but hm' ho hn _ hu
    · intro j hj
      rw [hnew, hpc]
      simp [Pc.fills, Ne.symm hj]
    · exact .inr (by rw [hnew]; rfl)
    · intro j hj
      have hj' : ipt.pt.entries j = E j := by
        rw [hE, Function.update_of_ne hj]
      exact hj' ▸ (hsame j).sameKey
  | @fork as child pt hpc has hsem hchild hpid hprep =>
    obtain ⟨-, hpt⟩ := (markCopy_spec ..).ok hprep
    have hn : pt.nEntry = s.ipt.pt.nEntry := by rw [hpt]
    have hE : ∀ j, SameKey (s.ipt.pt.entries j) (pt.entries j) := by
      rw [hpt]
      exact sameKey_marked s.cur true
    have hnew : (({ s with
        semFork := false
        procs := Function.update s.procs child ⟨s.as s.cur, .embryo⟩ }.setPt pt).goto
          (.copySwap child .text (s.swap.lists.head (.seg .text s.cur)))).pc s.cur =
        .copySwap child .text (s.swap.lists.head (.seg .text s.cur)) := pc_goto_self _ _
    obtain ⟨M, hM, htag⟩ := h.order.step hm' hF
    refine ⟨M, m, hM, ?_, .begin rfl (by simp only [seen, hpc, hnew])⟩
    apply h.quiet hm' htag _ (by rw [hnew, hpc]; rfl) rfl rfl rfl
    exact frames_same hm' ho hn hE (by rw [hnew, hpc]; rfl)
  | @spawn q hpc hq hpid =>
    have hne : s.cur ≠ q := by
      rintro rfl
      rw [hpc] at hq
      cases hq
    have hnew : { s with procs := Function.update s.procs q ⟨none, .run⟩ }.pc s.cur = s.pc s.cur := by
      rw [pc_update rfl, Function.update_of_ne hne]
    exact h.rest hm' hF rfl (seen_still (by simp) (.inl hnew)) (frames_same hm' ho rfl hself (by rw [hnew]))
      (by rw [hnew]) rfl rfl rfl (h.copies_same hm' (by rw [hnew]))
  | @reap q hpc hq =>
    have hne : s.cur ≠ q := by
      rintro rfl
      rw [hpc] at hq
      cases hq
    have hnew : { s with procs := Function.update s.procs q ⟨none, .none⟩ }.pc s.cur = s.pc s.cur := by
      rw [pc_update rfl, Function.update_of_ne hne]
    exact h.rest hm' hF rfl (seen_still (by simp) (.inl hnew)) (frames_same hm' ho rfl hself (by rw [hnew]))
      (by rw [hnew]) rfl rfl rfl (h.copies_same hm' (by rw [hnew]))
  | @exec vn phs as pt mmu st hpc has hload hact =>
    obtain ⟨hn, hE⟩ := sameKey_asActivate hact
    have hnew : { s.setPt pt with
        mmu := mmu
        procs := Function.update s.procs s.cur { s.procs s.cur with as := some as }
        stats := st }.pc s.cur = s.pc s.cur := by
      rw [pc_update rfl, Function.update_self]
      rfl
    exact h.rest hm' hF rfl (seen_still (by simp) (.inl hnew)) (frames_same hm' ho hn hE (by rw [hnew]))
      (by rw [hnew]) rfl rfl rfl (h.copies_same hm' (by rw [hnew]))
  | @ptEnd child i pt hpc hi hend =>
    obtain ⟨-, hpt⟩ := (markCopy_spec ..).ok hend
    have hn : pt.nEntry = s.ipt.pt.nEntry := by rw [hpt]
    have hE : ∀ j, SameKey (s.ipt.pt.entries j) (pt.entries j) := by
      rw [hpt]
      exact sameKey_marked s.cur false
    obtain ⟨M, hM, htag⟩ := h.order.step hm' hF
    rw [Sys.retag_advance hpc rfl] at htag
    have hnew : (((({ s with semFork := true }.setPt pt).mapPc Pc.wakePt).setPc child .run).goto .run).pc
        s.cur = .run := pc_goto_self _ _
    have hchild : ((((({ s with semFork := true }.setPt pt).mapPc Pc.wakePt).setPc child .run).goto .run).pc
        child).role.active = true := by
      rw [pc_goto, pc_setPc]
      by_cases hc : child = s.cur
      · rw [hc]
        refine (congrArg (fun c : Pc => c.role.active) (Function.update_self ..)).trans ?_
        rfl
      · refine (congrArg (fun c : Pc => c.role.active) ((Function.update_of_ne hc ..).trans
          (Function.update_self ..))).trans ?_
        rfl
    refine ⟨M, m, hM, ?_, .fork hpc hi (by rw [hnew]; rfl) hchild (by simp only [seen, hpc, hnew])⟩
    apply h.quiet hm' htag _ (by rw [hnew, hpc]; rfl) rfl rfl rfl
    exact frames_same hm' ho hn hE (by rw [hnew, hpc]; rfl)
  | @write as k off e b hpc has hk hoff hslot hdirty =>
    have hx := h.slot_frame hpc (by rw [has]; rfl) hk hslot
    obtain ⟨M, hM, htag⟩ := h.order.step hm' hF
    have hshow := h.write hm' htag rfl rfl rfl rfl hx (h.unsent_of_run (by rw [hpc]; rfl) hx.1) (by
      intro j hj
      funext o
      have hlt := o.2
      have := blocks_apart hj pageSize
      change Function.update s.mem (e.frame * pageSize + off) b (j * pageSize + o) =
        s.mem (j * pageSize + o)
      rw [Function.update_of_ne (by omega)])
    have hbytes : { s with mem := Function.update s.mem (e.frame * pageSize + off) b }.bytes (.frame e.frame) =
        (fun c o => if o.val = off then b else c o) (s.bytes (.frame e.frame)) := by
      funext o
      change Function.update s.mem (e.frame * pageSize + off) b (e.frame * pageSize + o) = _
      by_cases ho : o.val = off
      · simp [ho]
      · rw [Function.update_of_ne (by omega)]
        simp only [ho, if_false]
        rfl
    rw [hbytes] at hshow
    have hseen : ∀ u, s.seen (.write k off b) u =
        .change s.cur e.vpage fun c o => if o.val = off then b else c o := by
      intro u
      simp only [seen, hslot]
    have hold : m (s.cur, e.vpage) = some (s.bytes (.frame e.frame)) :=
      h.shows.of_holds (show s.Keeps L (.frame e.frame) (s.cur, e.vpage) from hx)
    have hnone : ({ s with mem := Function.update s.mem (e.frame * pageSize + off) b }.pc s.cur).copying =
        none := congrArg Pc.copying hpc
    have hrole : (s.pc s.cur).role.active = true := by
      rw [hpc]
      rfl
    have hact : ({ s with mem := Function.update s.mem (e.frame * pageSize + off) b }.pc s.cur).role.active =
        true := hrole
    exact ⟨M, _, hM, hshow, .change hrole hact hnone (hseen _) hold⟩
  | @evictVictim v start E i ipt ov op hpc hseek hclaim =>
    obtain ⟨hsame, hvic⟩ := victimSweep_spec s.ipt.pt.entries (s.ipt.pt.victimOrder start)
    rw [show victimSweep s.ipt.pt.entries (s.ipt.pt.victimOrder start) = _ from hseek] at hsame hvic
    have hi := PageTable.victimOrder_lt (hvic i rfl).1
    obtain ⟨he, hpt, ⟨hu, ho', -⟩ | ⟨_, ho', _⟩⟩ := claimVictim_ok hclaim
    swap
    · cases ho'
    cases ho'
    obtain ⟨M, hM, htag⟩ := h.order.step hm' hF
    rw [Sys.retag_advance hpc rfl] at htag
    have hx := h.victim_frame (hsame i) hi he hu
    have hnew := pc_goto_self { s with ipt := ipt } (.storeSwap (.victim v) i (E i).page (E i).pid)
    have hE : ∀ j, j ≠ i → SameKey (s.ipt.pt.entries j) (ipt.pt.entries j) := by
      intro j hj
      rw [hpt]
      change SameKey _ (Function.update E i _ j)
      rw [Function.update_of_ne hj]
      exact (hsame j).sameKey
    refine ⟨M, m, hM, ?_, .same (by simp only [seen, hpc]) (copies_none (by rw [show _ = _ from hnew]; rfl))⟩
    apply h.evict hm' htag _ hE _ hx _ (by rw [hpc]; rfl) (by rw [show _ = _ from hnew]; rfl) rfl rfl rfl
    · exact (congrArg PageTable.nEntry hpt).trans rfl
    · intro j hj
      rw [show _ = _ from hnew, hpc]
      simp [Pc.fills, Ne.symm hj]
    · exact not_inFrame_of_fills (q := s.cur) (by rw [show _ = _ from hnew]; rfl)
  | @allocEvict a fp E f i ipt v p hpc hsearch hclaim =>
    have hsame := s.ipt.pt.chanceSearch_sameButRef 1 fp
    have hlt := @PageTable.chanceSearch_lt 1 fp f i s.ipt.pt
    rw [hsearch] at hsame hlt
    obtain ⟨he, ⟨hu, ho', hpt, -⟩ | ⟨_, ho', _⟩⟩ := claimKernel_ok hclaim
    swap
    · cases ho'
    cases ho'
    obtain ⟨M, hM, htag⟩ := h.order.step hm' hF
    have hx := h.victim_frame (hsame i) (hlt rfl) he hu
    have hnew := pc_goto_self { s with ipt := ipt } (.storeSwap .alloc i (E i).page (E i).pid)
    have hE : ∀ j, ipt.pt.entries j = Function.update E i ((E i).kmalloc s.cur true) j := by
      intro j
      rw [hpt]
      rfl
    have hold : (s.pc s.cur).fills = none ∧ (s.pc s.cur).sends = none ∧ s.retag a = none ∧
        s.seen a ({ s with ipt := ipt }.goto (.storeSwap .alloc i (E i).page (E i).pid)) = .idle := by
      rcases hpc with ⟨hpc, rfl⟩ | ⟨hpc, rfl⟩
      · rw [hpc]
        refine ⟨rfl, rfl, rfl, ?_⟩
        simp only [seen, hpc]
        rw [show _ = _ from hnew]
      · refine ⟨by rw [hpc]; rfl, by rw [hpc]; rfl, Sys.retag_advance hpc rfl, ?_⟩
        simp only [seen, hpc]
    rw [hold.2.2.1] at htag
    refine ⟨M, m, hM, ?_, .same hold.2.2.2 (copies_none (by rw [show _ = _ from hnew]; rfl))⟩
    apply h.evict hm' htag _ _ _ hx _ hold.2.1 (by rw [show _ = _ from hnew]; rfl) rfl rfl rfl
    · exact (congrArg PageTable.nEntry hpt).trans rfl
    · intro j hj
      change SameKey _ (ipt.pt.entries j)
      rw [hE, Function.update_of_ne hj]
      exact (hsame j).sameKey
    · intro j hj
      rw [show _ = _ from hnew, hold.1]
      rfl
    · apply not_inFrame_of_user
      change (ipt.pt.entries i).user = false
      rw [hE]
      simp [PtEntry.user, PtEntry.kmalloc]
  | @store k i v p w c hpc hb =>
    obtain ⟨hc, -, A, -, -, rfl⟩ := SwapFile.storeBegin_ok hb
    obtain ⟨M, hM, htag⟩ := h.order.step hm' hF
    have hr : (Pc.storeSwap k i v p).retag s.swap = some (c, some (p, v)) := by
      simp only [Pc.retag, hc, Option.map_some]
    rw [Sys.retag_advance hpc hr] at htag
    refine ⟨M, m, hM, ?_, .same (by simp only [seen, hpc, pc_goto_self])
      (h.copies_same hm' (by rw [pc_goto_self, hpc]; cases k <;> rfl))⟩
    apply h.store hm' htag rfl (by rw [hpc]; rfl) _ _ (h.order.head_free hc) rfl rfl rfl
    · rw [pc_goto_self]
      rfl
    · rw [pc_goto_self, hpc]
      cases k <;> rfl
  | @storing k i c w st hpc hb =>
    rw [SwapFile.storeEnd_spec hb] at hm' ⊢
    obtain ⟨M, hM, htag⟩ := h.order.step hm' hF
    rw [Sys.retag_advance hpc rfl] at htag
    have hnew : ((({ s with
        swap := { s.swap with store := Function.update s.swap.store c false }
        disk := writeAt s.disk (s.swap.offset c) pageSize (s.frame i)
        stats := st }.mapPc (Pc.wakeCell c)).goto (.stored k i)).pc s.cur) = .stored k i :=
      pc_goto_self _ _
    refine ⟨M, m, hM, ?_, .same (by simp only [seen, hpc])
      (h.copies_same hm' (by rw [hnew, hpc]; cases k <;> rfl))⟩
    apply h.stored hm' htag rfl (by rw [hpc]; rfl) _ _ rfl rfl rfl
    · rw [hnew]
      rfl
    · rw [hnew, hpc]
      cases k <;> rfl
  | @loadElf v i as w bz offset dst len st hpc has hb hplan =>
    obtain ⟨M, hM, htag⟩ := h.order.step hm' hF
    rw [Sys.retag_advance hpc rfl] at htag
    have hnew := pc_goto_self { s with
        mem := if bz then bzero s.mem (i * pageSize) else s.mem
        stats := st } (.elfReading v i)
    refine ⟨M, m, hM, ?_, .same (by simp only [seen, hpc]; rw [show _ = _ from hnew])
      (copies_none (by rw [show _ = _ from hnew]; rfl))⟩
    apply h.filling hm' htag rfl (i := i) (v := v) (by rw [hpc]; rfl) (by rw [hpc]; rfl)
      (by rw [show _ = _ from hnew]; rfl) (by rw [show _ = _ from hnew, hpc]; rfl) rfl rfl
    intro d hd
    change pageAt (if bz then bzero s.mem (i * pageSize) else s.mem) (d * pageSize) = _
    split
    · exact pageAt_writeAt_block s.mem _ hd
    · rfl
  | @loadZero v i as w st hpc has hb hplan =>
    obtain ⟨M, hM, htag⟩ := h.order.step hm' hF
    rw [Sys.retag_advance hpc rfl] at htag
    have hnew := pc_goto_self { s with mem := bzero s.mem (i * pageSize), stats := st } (.loaded v i)
    have hno := h.absent hpc has hb
    refine ⟨M, _, hM, h.built hm' htag rfl (i := i) (v := v) (by rw [hpc]; rfl) (by rw [hpc]; rfl)
      (by rw [show _ = _ from hnew]; rfl) (by rw [show _ = _ from hnew, hpc]; rfl) rfl rfl ?_ hno, ?_⟩
    · intro d hd
      change pageAt (bzero s.mem (i * pageSize)) (d * pageSize) = _
      exact pageAt_writeAt_block s.mem _ hd
    · exact .touch (by rw [hpc]; rfl) (by rw [show _ = _ from hnew]; rfl)
        (by rw [show _ = _ from hnew]; rfl) (by simp only [seen, hpc]; rw [show _ = _ from hnew]) hno
  | @elfReading v i as mem st hpc has hmem =>
    obtain ⟨M, hM, htag⟩ := h.order.step hm' hF
    rw [Sys.retag_advance hpc rfl] at htag
    have hnew := pc_goto_self { s with mem := mem, stats := st } (.loaded v i)
    have hno := ((h.doing _).fresh hpc).1
    refine ⟨M, _, hM, h.built hm' htag rfl (i := i) (v := v) (by rw [hpc]; rfl) (by rw [hpc]; rfl)
      (by rw [show _ = _ from hnew]; rfl) (by rw [show _ = _ from hnew, hpc]; rfl) rfl rfl ?_ hno, ?_⟩
    · intro d hd
      change pageAt mem (d * pageSize) = _
      rcases hmem with rfl | ⟨bz, offset, dst, len, hplan, rfl⟩
      · rfl
      · have hin := hC.inside hpc has
        rw [hplan] at hin
        exact pageAt_writeAt_of_ne s.mem _ (Nat.le_trans (Nat.add_le_add_left (Nat.min_le_left ..) dst) hin) hd
    · exact .touch (by rw [hpc]; rfl) (by rw [show _ = _ from hnew]; rfl)
        (by rw [show _ = _ from hnew]; rfl) (by simp only [seen, hpc]; rw [show _ = _ from hnew]) hno
  | @reading v i c st hpc =>
    obtain ⟨M, hM, htag⟩ := h.order.step hm' hF
    rw [Sys.retag_advance hpc rfl] at htag
    have hnew := pc_goto_self { s with
        mem := writeAt s.mem (i * pageSize) pageSize (s.cellBytes c)
        swap := s.swap.loadEnd c
        stats := st } (.loaded v i)
    refine ⟨M, m, hM, ?_, .same (by simp only [seen, hpc]) (copies_none (by rw [show _ = _ from hnew]; rfl))⟩
    exact h.read hm' htag rfl hpc (by rw [show _ = _ from hnew]; rfl) (by rw [show _ = _ from hnew]; rfl)
      rfl rfl rfl
  | @exit a ipt st hpc ha hfree =>
    obtain ⟨M, hM, htag⟩ := h.order.step hm' hF
    have hr : s.retag a = none := by
      rcases ha with rfl | ⟨x, rfl⟩
      · rfl
      · rfl
    rw [hr] at htag
    have hnew := pc_goto_self { s with ipt := ipt, stats := st }
      (.removeSwap .text (s.swap.lists.head (.seg .text s.cur)))
    obtain ⟨m', hm₁, hother⟩ := h.leave hm' htag (by rw [hpc]; rfl) (by rw [show _ = _ from hnew]; rfl)
      (by rw [show _ = _ from hnew, hpc]; rfl) hfree rfl rfl rfl
    refine ⟨M, m', hM, hm₁, .lose (by rw [show _ = _ from hnew]; rfl) (.inl ?_) hother⟩
    rcases ha with rfl | ⟨x, rfl⟩
    · simp only [seen, hpc]
      rw [show _ = _ from hnew]
    · simp only [seen, hpc]
      rw [show _ = _ from hnew]
  | @segv v i as w ipt hpc has _ _ hfree =>
    -- the frame claimed for the fault has its I/O bit set
    have hkey := h.loading_key (q := s.cur) (v := v) (i := i) (by rw [hpc]; rfl)
    obtain ⟨-, ⟨-, hio, -⟩, -⟩ := (ho.fits i).held (q := s.cur) (o := some v)
      (by rw [show s.table.role s.cur = (s.pc s.cur).role from rfl, hpc]; rfl)
    have := ((freePages_ok hfree).1 i hkey.1 hkey.2.2.2 hkey.2.1).1
    rw [show (s.ipt.pt.entries i).ctrl.io = true from hio] at this
    cases this
  | @cellExit sg c w hpc hb =>
    obtain ⟨rfl, hst⟩ := SwapFile.testStore_spec hb
    obtain ⟨M, hM, htag⟩ := h.order.step hm' hF
    have hr : (Pc.cell (.exit sg) c).retag s.swap = some (c, none) := by
      simp [Pc.retag, ← hst]
    rw [Sys.retag_advance hpc hr] at htag
    have hs := h.order.kept.serves s.cur
    rw [show s.cells.errand s.cur = (s.pc s.cur).errand from rfl, hpc] at hs
    have hc : c ∈ L (.seg sg s.cur) := (hs.1 c rfl).1
    have hown : ∀ p v, s.cells.Tagged L c p v → p = s.cur := by
      rintro p v (⟨⟨sg', hc'⟩, -, -⟩ | hload)
      · cases h.order.kept.rep.disjoint _ _ c hc hc'
        rfl
      · exact (h.order.kept.load_off hload _ hc).elim
    have hnew := pc_goto_self { s with swap := s.swap.freeCell c } (.removeSwap sg (s.swap.lists.next c))
    obtain ⟨m', hm₁, hother⟩ := h.freed hm' htag rfl (by rw [show _ = _ from hnew, hpc]; rfl)
      (by rw [show _ = _ from hnew, hpc]; rfl) hst.symm hown rfl rfl rfl
    refine ⟨M, m', hM, hm₁, .lose (by rw [show _ = _ from hnew]; rfl) (.inr ⟨?_, ?_⟩) hother⟩
    · simp only [seen, hpc]
    · rw [hpc]
      rfl
  | @copyWriting r sg c f hpc =>
    obtain ⟨M, hM, htag⟩ := h.order.step hm' hF
    rw [Sys.retag_advance hpc rfl] at htag
    have hs := h.order.kept.serves s.cur
    rw [show s.cells.errand s.cur = (s.pc s.cur).errand from rfl, hpc] at hs
    obtain ⟨hc, hf, hst, -⟩ := hs
    have hnew := pc_goto_self { s with
        disk := writeAt s.disk (s.swap.offset f) pageSize s.kbuf
        swap := s.swap.copyEnd c f } (.copySwap r sg (s.swap.lists.next c))
    have hcopy : (s.pc s.cur).copying = some (r, 0, some (sg, some c)) := by rw [hpc]; rfl
    have htodo : s.Todo s.cur 0 (some (sg, some c)) (s.swap.vaddr c) := by
      obtain ⟨R, hR, -⟩ := h.rest_chain hc
      exact .inr ⟨c, .inl ⟨c :: R, ⟨rfl, hR⟩, List.mem_cons_self⟩, rfl⟩
    have hno := (h.doing _).todo hcopy htodo
    have hshow := h.copiedCell hm' htag rfl (by rw [show _ = _ from hnew, hpc]; rfl)
      (by rw [show _ = _ from hnew, hpc]; rfl) hst
      (h.target_not_tagged (q := s.cur) (by rw [hpc]; rfl) hf) rfl rfl rfl hno
    rw [← (h.doing _).buffer hpc] at hshow
    refine ⟨M, _, hM, hshow, .copy (by simp only [seen, hpc]) hcopy htodo ?_⟩
    obtain ⟨R, hR, hsub⟩ := h.rest_chain hc
    apply h.copies_of hm' hcopy (by rw [show _ = _ from hnew]; rfl) _ (h.todo_cell hcopy)
    intro sg₁ e he
    cases he
    exact ⟨R, hR, hsub⟩
  | @ptStore r i hpc hi hpid hu hspace hok =>
    obtain ⟨M, hM, htag⟩ := h.order.step hm' hF
    rw [Sys.retag_advance hpc rfl] at htag
    have hkey : Key s.ipt.pt.nEntry s.ipt.pt.entries i (s.ipt.pt.entries i).page s.cur := ⟨hi, hu, rfl, hpid⟩
    have hx : s.Keeps L (.frame i) (s.cur, (s.ipt.pt.entries i).page) :=
      h.inFrame_of_key hkey (by rw [hpc]; rfl)
    have hnew := pc_goto_self s (.storeSwap (.fork r) i (s.ipt.pt.entries i).page r)
    have hcopy : (s.pc s.cur).copying = some (r, i, none) := by rw [hpc]; rfl
    have htodo : s.Todo s.cur i none (s.ipt.pt.entries i).page := .inl ⟨i, Nat.le_refl i, hkey⟩
    have hshow := h.copySent hm' htag rfl (by rw [hnew, hpc]; rfl) (by rw [hpc]; rfl) (by rw [hnew]; rfl)
      rfl rfl rfl ((h.doing _).todo hcopy htodo)
    rw [← h.shows.of_holds hx] at hshow
    refine ⟨M, _, hM, hshow, .copy (by simp only [seen, hpc, hnew]) hcopy htodo ?_⟩
    apply h.copies_of hm' hcopy (by rw [hnew]; rfl) (by simp)
    exact todo_next (h.copied_once hkey)
  | @ptSpace r i pos ipt hpc hi hpid hu hspace hcopy =>
    obtain ⟨M, hM, htag⟩ := h.order.step hm' hF
    rw [Sys.retag_advance hpc rfl] at htag
    obtain ⟨-, hpt⟩ := copyEntry_ok hcopy
    obtain ⟨hpos, hsp⟩ := PageTable.findspace_some hspace
    simp only [PtEntry.isSpace, Bool.and_eq_true, Bool.not_eq_true', bne_iff_ne] at hsp
    have hclean := (ho.fits pos).clean hsp.1.1.1
    have hidle : (s.ipt.pt.entries pos).Idle := ⟨hsp.1.1.2, hsp.1.2, hclean.2.2, hsp.2⟩
    have hkey : Key s.ipt.pt.nEntry s.ipt.pt.entries i (s.ipt.pt.entries i).page s.cur := ⟨hi, hu, rfl, hpid⟩
    have hx : s.Keeps L (.frame i) (s.cur, (s.ipt.pt.entries i).page) :=
      h.inFrame_of_key hkey (by rw [hpc]; rfl)
    have hE : ∀ j, ipt.pt.entries j = Function.update s.ipt.pt.entries pos
        ((s.ipt.pt.entries pos).copyOf (s.ipt.pt.entries i) r) j := by
      intro j
      rw [hpt]
      rfl
    have hn : ipt.pt.nEntry = s.ipt.pt.nEntry := by
      rw [hpt]
      rfl
    have hnew := pc_goto_self { s with
          ipt := ipt
          mem := writeAt s.mem (pos * pageSize) pageSize (s.frame i) } (.copyPt r (i + 1))
    have hcopying : (s.pc s.cur).copying = some (r, i, none) := by rw [hpc]; rfl
    have htodo : s.Todo s.cur i none (s.ipt.pt.entries i).page := .inl ⟨i, Nat.le_refl i, hkey⟩
    have hold : (s.ipt.pt.entries pos).user = false := by simp [PtEntry.user, hsp.1.1.1]
    have hnewkey : Key ipt.pt.nEntry ipt.pt.entries pos (s.ipt.pt.entries i).page r := by
      refine ⟨hn ▸ hpos, ?_, ?_, ?_⟩
      · rw [hE, Function.update_self]
        exact PtEntry.user_iff.2 ⟨rfl, (PtEntry.user_iff.1 hu).2⟩
      · rw [hE, Function.update_self]
        rfl
      · rw [hE, Function.update_self]
        rfl
    have hshow := h.copiedFrame hm' htag hn (by
        intro j hj
        change SameKey _ (ipt.pt.entries j)
        rw [hE, Function.update_of_ne hj]
        exact hself j) (by rw [show _ = _ from hnew, hpc]; rfl)
      (by rw [show _ = _ from hnew, hpc]; rfl) hidle hold hnewkey rfl rfl rfl ((h.doing _).todo hcopying htodo)
    rw [show pageAt (s.frame i) 0 = s.bytes (.frame i) from pageAt_readAt .., ← h.shows.of_holds hx] at hshow
    refine ⟨M, _, hM, hshow, .copy (by simp only [seen, hpc]; rw [show _ = _ from hnew]) hcopying htodo ?_⟩
    apply h.copies_of hm' hcopying (by rw [show _ = _ from hnew]; rfl) (by simp)
    exact todo_next (h.copied_once hkey)

end Sys.Paged

end Clape
