import Clape.InFlightStores

namespace Clape
set_option autoImplicit true

/-- A node of the hash table for the page `v` of process `p`. -/
def HashTable.Node (ht : HashTable) (v p : Nat) (o : Option Nat) : Prop :=
  ∃ b l c, Chain ht.lists.next (ht.lists.head (.bucket b)) l ∧ c ∈ l ∧ ht.vad c = v ∧
    ht.pid c = p ∧ ht.iptEntry c = o

theorem HashTable.Rep.node_iff {ht : HashTable} (h : ht.Rep K L) :
    ht.Node v p o ↔ ∃ i, o = some i ∧ K i = some (v, p) := by
  constructor
  · rintro ⟨b, l, c, hl, hc, rfl, rfl, rfl⟩
    rw [hl.unique (h.lists.chain _)] at hc
    obtain ⟨-, i, hi, hk⟩ := h.node b c hc
    exact ⟨i, hi, hk⟩
  · rintro ⟨i, rfl, hk⟩
    obtain ⟨c, hc, hi⟩ := h.chained i v p hk
    obtain ⟨-, j, hj, hkc⟩ := h.node _ c hc
    rw [hi] at hj
    cases hj
    rw [hk] at hkc
    cases hkc
    exact ⟨_, _, c, h.lists.chain _, hc, rfl, rfl, hi⟩

theorem Sys.node_iff {s : Sys} (h : s.table.Hashed) : s.ipt.ht.Node v p o ↔
    ∃ i, o = some i ∧ Key s.table.n s.table.entries i v p ∧ ¬ Pending s.table.role i := by
  obtain ⟨-, -, K, L, hrep, hK⟩ := h.indexed
  have hrep : s.ipt.ht.Rep K L := hrep
  rw [hrep.node_iff]
  simp only [hK]

/-- The cells of process `q` on one of its lists, from where an exit of `q` stands. -/
def Sys.Owns (s : Sys) (sg : Segment) (q : Nat) (l : List Nat) : Prop :=
  Chain s.swap.lists.next (s.cells.view.head (.seg sg q)) l

theorem Sys.Settled.owns {s : Sys} (h : s.Settled L K) : s.Owns sg q l ↔ l = L (.seg sg q) := by
  have hc : Chain s.swap.lists.next (s.cells.view.head (.seg sg q)) (L (.seg sg q)) :=
    h.kept.rep.chain (.seg sg q)
  constructor
  · intro hl
    exact hl.unique hc
  · rintro rfl
    exact hc

/-- The steps of `free_pages` and `remove_process_from_swap` for an exit by system call. -/
def Sys.Cleans (s : Sys) : Action → Prop
  | .exit => True
  | .advance => (s.pc s.cur).role = .exiting
  | _ => False

/-- Nothing of the processes other than `p` changes. -/
structure Sys.Spares (p : Nat) (s u : Sys) : Prop where
  entries : ∀ i, ¬ ((s.ipt.pt.entries i).pid = p ∧ (s.ipt.pt.entries i).user = true) →
    u.ipt.pt.entries i = s.ipt.pt.entries i
  nodes : ∀ v q o, q ≠ p → (u.ipt.ht.Node v q o ↔ s.ipt.ht.Node v q o)
  cells : ∀ sg q l, q ≠ p → (u.Owns sg q l ↔ s.Owns sg q l)
  vaddr : u.swap.vaddr = s.swap.vaddr
  store : u.swap.store = s.swap.store
  offset : u.swap.offset = s.swap.offset
  mem : u.mem = s.mem
  disk : u.disk = s.disk

theorem Sys.Settled.owns_congr {s u : Sys} (hL : s.Settled L K)
    (hwalk : (u.pc q).errand.walk = (s.pc q).errand.walk)
    (hhead : ∀ sg, u.swap.lists.head (.seg sg q) = s.swap.lists.head (.seg sg q))
    (hnext : ∀ sg, ∀ c ∈ L (.seg sg q), u.swap.lists.next c = s.swap.lists.next c) :
    u.Owns sg q l ↔ s.Owns sg q l := by
  have hview : u.cells.view.head (.seg sg q) = s.cells.view.head (.seg sg q) := by
    change (u.swap.lists.seen fun r => (u.pc r).errand.walk).head (.seg sg q) =
      (s.swap.lists.seen fun r => (s.pc r).errand.walk).head (.seg sg q)
    simp only [Lists.seen, hwalk, hhead]
  rw [hL.owns]
  unfold Sys.Owns
  rw [hview]
  have hc : Chain u.swap.lists.next (s.cells.view.head (.seg sg q)) (L (.seg sg q)) :=
    (hL.owns.2 rfl : s.Owns sg q _).congr (hnext sg)
  constructor
  · intro hl
    exact hl.unique hc
  · rintro rfl
    exact hc

theorem Sys.owns_goto {s w : Sys} (hL : s.Settled L K) (hcur : w.cur = s.cur) (hpc : w.pc = s.pc)
    (hhead : ∀ sg, w.swap.lists.head (.seg sg q) = s.swap.lists.head (.seg sg q))
    (hnext : ∀ sg, ∀ c ∈ L (.seg sg q), w.swap.lists.next c = s.swap.lists.next c)
    (hq : q ≠ s.cur) : (w.goto c).Owns sg q l ↔ s.Owns sg q l := by
  apply hL.owns_congr (u := w.goto c) _ hhead hnext
  rw [Sys.pc_goto, hcur, Function.update_of_ne hq, hpc]

theorem spares_goto {s w : Sys} (hL : s.Settled L K) (hw : w = { s with swap := w.swap })
    (hhead : ∀ sg q, q ≠ s.cur → w.swap.lists.head (.seg sg q) = s.swap.lists.head (.seg sg q))
    (hnext : ∀ sg q, q ≠ s.cur → ∀ c ∈ L (.seg sg q),
      w.swap.lists.next c = s.swap.lists.next c)
    (hrest : w.swap.vaddr = s.swap.vaddr ∧ w.swap.store = s.swap.store ∧
      w.swap.offset = s.swap.offset) : Sys.Spares s.cur s (w.goto c) := by
  have hcur : w.cur = s.cur := by rw [hw]
  have hpc : w.pc = s.pc := by rw [hw]; rfl
  have hipt : w.ipt = s.ipt := by rw [hw]
  have hmem : w.mem = s.mem := by rw [hw]
  have hdisk : w.disk = s.disk := by rw [hw]
  constructor
  · intro i _
    change w.ipt.pt.entries i = s.ipt.pt.entries i
    rw [hipt]
  · intro v q o _
    change w.ipt.ht.Node v q o ↔ s.ipt.ht.Node v q o
    rw [hipt]
  · intro sg q l hq
    exact Sys.owns_goto hL hcur hpc (fun sg => hhead sg q hq) (fun sg => hnext sg q hq) hq
  · exact hrest.1
  · exact hrest.2.1
  · exact hrest.2.2
  · exact hmem
  · exact hdisk

/-- `free_pages` takes the entries and the nodes of its process alone. -/
theorem spares_freePages {s : Sys} (hL : s.Settled L K) (hpc : s.pc s.cur = .run)
    (hf : s.ipt.freePages s.cur = .ok ipt)
    (hu : ({ s with ipt := ipt, stats := st }.goto (.removeSwap sg e)).table.Hashed) :
    Sys.Spares s.cur s ({ s with ipt := ipt, stats := st }.goto (.removeSwap sg e)) := by
  obtain ⟨-, hpt⟩ := freePages_ok hf
  have hent : ∀ i, ¬ ((s.ipt.pt.entries i).pid = s.cur ∧ (s.ipt.pt.entries i).user = true) →
      ipt.pt.entries i = s.ipt.pt.entries i := by
    intro i hi
    rw [hpt]
    exact if_neg fun h => hi h.2
  have hkey : ∀ i v q, q ≠ s.cur → (Key s.ipt.pt.nEntry ipt.pt.entries i v q ↔
      Key s.ipt.pt.nEntry s.ipt.pt.entries i v q) := by
    intro i v q hq
    by_cases hi : i < s.ipt.pt.nEntry ∧ (s.ipt.pt.entries i).pid = s.cur ∧
        (s.ipt.pt.entries i).user = true
    · constructor
      · intro hk
        have hzero : ipt.pt.entries i = ⟨0, 0, .zero⟩ := by
          rw [hpt]
          exact if_pos hi
        have := hk.2.1
        rw [hzero] at this
        cases this
      · intro hk
        exact (hq (hk.2.2.2.symm.trans hi.2.1)).elim
    · constructor
      · intro hk
        have := hent i fun h => hi ⟨hk.1, h⟩
        unfold Key at hk
        rw [this] at hk
        exact hk
      · intro hk
        have := hent i fun h => hi ⟨hk.1, h⟩
        unfold Key
        rw [this]
        exact hk
  have hpend : ∀ i, Pending ({ s with ipt := ipt, stats := st }.goto (.removeSwap sg e)).table.role i ↔
      Pending s.table.role i := by
    intro i
    apply exists_congr
    intro q
    apply exists_congr
    intro v
    by_cases hq : q = s.cur
    · subst hq
      constructor
      · intro hr
        rw [Sys.table_goto] at hr
        have hself : Function.update s.table.role s.cur (Pc.removeSwap sg e).role s.cur =
            .exiting := Function.update_self ..
        cases hself.symm.trans hr
      · intro hr
        rw [show s.table.role s.cur = (s.pc s.cur).role from rfl, hpc] at hr
        cases hr
    · have hsame : ({ s with ipt := ipt, stats := st }.goto (.removeSwap sg e)).table.role q =
          s.table.role q := by
        rw [Sys.table_goto]
        exact Function.update_of_ne hq _ _
      rw [hsame]
  constructor
  · exact hent
  · intro v q o hq
    rw [Sys.node_iff hu, Sys.node_iff hL.good.2]
    apply exists_congr
    intro i
    rw [hpend]
    have hn : ({ s with ipt := ipt, stats := st }.goto (.removeSwap sg e)).table.n =
        s.ipt.pt.nEntry := by
      change ipt.pt.nEntry = _
      rw [hpt]
    have hk := hkey i v q hq
    rw [hn]
    exact and_congr_right fun _ => and_congr_left fun _ => hk
  · intro sg' q l hq
    exact Sys.owns_goto hL rfl rfl (fun _ => rfl) (fun _ _ _ => rfl) hq
  · rfl
  · rfl
  · rfl
  · rfl
  · rfl

/-- What a step of `remove_process_from_swap` does. -/
theorem Move.removeSwap {s u : Sys} (hm : Move s a u) (ha : a = .advance)
    (hr : (s.pc s.cur).role = .exiting) :
    (∃ c, c.role = .exiting ∧ (∀ sg d, s.pc s.cur = .cell (.exit sg) d → s.swap.store d = true) ∧
      u = s.goto c) ∨
    (∃ sg c, s.pc s.cur = .cell (.exit sg) c ∧ s.swap.store c = false ∧
      u = { s with swap := s.swap.freeCell c }.goto (.removeSwap sg (s.swap.lists.next c))) ∨
    ∃ sg c, s.pc s.cur = .removeSwap sg none ∧ (c.role = .exiting ∨ c = .zombie) ∧
      u = { s with swap := s.swap.clearList sg s.cur }.goto c := by
  have hno : ∀ {c : Pc}, s.pc s.cur = c → c.role ≠ .exiting → False := by
    rintro c rfl hc
    exact hc hr
  cases hm with
  | exit hpc => exact (hno hpc nofun).elim
  | allocWait hpc =>
    rcases hpc with ⟨hpc, -⟩ | ⟨hpc, -⟩
    · exact (hno hpc nofun).elim
    · exact (hno hpc nofun).elim
  | allocTake hpc =>
    rcases hpc with ⟨hpc, -⟩ | ⟨hpc, -⟩
    · exact (hno hpc nofun).elim
    · exact (hno hpc nofun).elim
  | allocEvict hpc =>
    rcases hpc with ⟨hpc, -⟩ | ⟨hpc, -⟩
    · exact (hno hpc nofun).elim
    · exact (hno hpc nofun).elim
  | @cellSleep k c w hpc hb =>
    obtain ⟨rfl, hst⟩ := SwapFile.testStore_spec hb
    rw [hpc] at hr
    refine .inl ⟨_, ?_, ?_, rfl⟩
    · cases k with
      | exit sg => rfl
      | load v i => cases hr
      | copy r sg f => cases hr
    · intro sg d hd
      rw [hpc] at hd
      cases hd
      exact hst.symm
  | @cellExit sg c w hpc hb =>
    obtain ⟨rfl, hst⟩ := SwapFile.testStore_spec hb
    exact .inr (.inl ⟨sg, c, hpc, hst.symm, rfl⟩)
  | @cellWake k c hpc =>
    rw [hpc] at hr
    refine .inl ⟨_, ?_, fun sg d hd => (nomatch hpc.symm.trans hd), rfl⟩
    cases k with
    | exit sg => rfl
    | load v i => cases hr
    | copy r sg f => cases hr
  | removeCell hpc => exact .inl ⟨_, rfl, fun sg d hd => (nomatch hpc.symm.trans hd), rfl⟩
  | @removeNext sg _ hpc => exact .inr (.inr ⟨sg, _, hpc, .inl rfl, rfl⟩)
  | @removeDone sg hpc => exact .inr (.inr ⟨sg, _, hpc, .inr rfl, rfl⟩)
  | @store k _ _ _ _ _ hpc => exact (hno hpc (by cases k <;> nofun)).elim
  | @storing k _ _ _ _ hpc => exact (hno hpc (by cases k <;> nofun)).elim
  | _ =>
    first
    | refine (hno (by assumption) ?_).elim
      exact nofun
    | cases ha

/-- The steps of an exit spare the other processes. -/
theorem Move.spares {s u : Sys} (hm : Move s a u) (hL : s.Settled L K) (hu : u.table.Hashed)
    (ha : s.Cleans a) : Sys.Spares s.cur s u := by
  cases a with
  | exit =>
    cases hm with
    | exit hpc _ hf => exact spares_freePages hL hpc hf hu
    | allocWait hpc => rcases hpc with ⟨-, h⟩ | ⟨-, h⟩ <;> cases h
    | allocTake hpc => rcases hpc with ⟨-, h⟩ | ⟨-, h⟩ <;> cases h
    | allocEvict hpc => rcases hpc with ⟨-, h⟩ | ⟨-, h⟩ <;> cases h
  | advance =>
    rcases hm.removeSwap rfl ha with ⟨c, -, -, rfl⟩ | ⟨sg, c, hpc, -, rfl⟩ | ⟨sg, c, -, -, rfl⟩
    · exact spares_goto hL rfl (fun _ _ _ => rfl) (fun _ _ _ _ _ => rfl) ⟨rfl, rfl, rfl⟩
    · have hs := hL.kept.serves s.cur
      rw [show (s.cells K).errand s.cur = (s.pc s.cur).errand from rfl, hpc] at hs
      have hc : c ∈ L (.seg sg s.cur) := (hs.1 c rfl).1
      refine spares_goto hL rfl (fun sg' q _ => ?_) (fun sg' q hq d hd => ?_) ⟨rfl, rfl, rfl⟩
      · exact Lists.push_head_of_ne _ _ nofun
      · apply Lists.push_next_of_ne
        rintro rfl
        cases hL.kept.rep.disjoint _ _ d hd hc
        exact hq rfl
    · refine spares_goto hL rfl (fun sg' q hq => ?_) (fun _ _ _ _ _ => rfl) ⟨rfl, rfl, rfl⟩
      apply Lists.clear_head_of_ne
      intro he
      cases he
      exact hq rfl
  | _ => exact ha.elim

/-- An exit goes on until it is over. -/
theorem Move.exiting {s u : Sys} (hm : Move s a u) (ho : s.table.Own)
    (hp : (s.pc p).role = .exiting) : (u.pc p).role = .exiting ∨ u.pc p = .zombie := by
  by_cases hpc : p = s.cur
  · subst hpc
    rcases hm.pc_cur (by intro h; rw [h] at hp; cases hp) with h | h | rfl
    · exact .inl (by rw [h, hp])
    · exact .inl (by rw [h, Pc.role_wakePt, hp])
    · have hgo : ∀ {w : Sys} {c : Pc}, w.cur = s.cur → (w.goto c).pc s.cur = c := by
        intro w c hw
        rw [Sys.pc_goto, hw, Function.update_self]
      rcases hm.removeSwap rfl hp with ⟨c, hc, -, rfl⟩ | ⟨sg, c, -, -, rfl⟩ | ⟨sg, c, -, hc, rfl⟩
      · rw [hgo rfl]
        exact .inl hc
      · exact .inl (congrArg Pc.role (hgo rfl))
      · rw [hgo (w := { s with swap := s.swap.clearList sg s.cur }) rfl]
        exact hc
  · rcases hm.pc_other hpc with h | h | ⟨c, h⟩ | ⟨⟨h, -⟩ | h | ⟨i, h⟩, -⟩
    · exact .inl (by rw [h, hp])
    · exact .inl (by rw [h, Pc.role_wakePt, hp])
    · exact .inl (by rw [h, Pc.role_wakeCell, hp])
    · rw [h] at hp
      cases hp
    · rw [h] at hp
      cases hp
    · have he := ho.apart.embryo (q := s.cur) (c := p) (k := i) (congrArg Pc.role h)
      rw [show s.table.role p = (s.pc p).role from rfl, hp] at he
      cases he

/-- What is left of a process that is dead or was never there. -/
theorem Sys.Settled.no_trace {s : Sys} (h : s.Settled L K) (hp : s.pc p = .zombie ∨ s.pc p = .none) :
    (∀ i < s.ipt.pt.nEntry, (s.ipt.pt.entries i).user = true → (s.ipt.pt.entries i).pid ≠ p) ∧
    (∀ v o, ¬ s.ipt.ht.Node v p o) ∧ ∀ sg, s.swap.lists.head (.seg sg p) = none := by
  have hkey : ∀ i v, ¬ Key s.table.n s.table.entries i v p := by
    intro i v hk
    have hown := (h.good.2.peopled.live hk).2
    rw [show s.table.role p = (s.pc p).role from rfl] at hown
    cases hp with
    | inl hp => rw [hp] at hown; cases hown
    | inr hp => rw [hp] at hown; cases hown
  have herr : (s.cells K).errand p = .gone := by
    change (s.pc p).errand = .gone
    cases hp with
    | inl hp => rw [hp]; rfl
    | inr hp => rw [hp]; rfl
  refine ⟨fun i hi hu he => ?_, fun v o hn => ?_, fun sg => ?_⟩
  · exact hkey i _ (he ▸ key_of_user hi hu)
  · obtain ⟨i, -, hk, -⟩ := (Sys.node_iff h.good.2).1 hn
    exact hkey i v hk
  · have hs := h.kept.serves p
    rw [herr] at hs
    have hhead := h.kept.rep.head_eq_none.2 (hs sg)
    rw [show (s.cells K).view = s.swap.lists.seen _ from rfl,
      Lists.seen_head_of_none (by rw [herr]; rfl)] at hhead
    exact hhead

/-- The thread puts the cell on the free list with its next step. -/
def Pc.releases (w : SwapFile) (c : Nat) : Pc → Bool
  | .cell (.exit _) d => d == c && !w.store c
  | _ => false

/-- How often a step of an exit of `p` puts the cell on the free list. -/
def Sys.releases (s : Sys) (p c : Nat) : Action → Nat
  | .advance => if s.cur = p ∧ (s.pc p).releases s.swap c = true then 1 else 0
  | _ => 0

/-- The state after an action, with the releases of a cell counted. -/
def Sys.tally (p c : Nat) (x : Sys × Nat) (a : Action) : Sys × Nat :=
  ((x.1.micro a).toOption.getD x.1, x.2 + x.1.releases p c a)

/-- How often the actions of a run put the cell on the free list for an exit of `p`. -/
def Sys.released (s : Sys) (p c : Nat) (tr : List Action) : Nat :=
  (tr.foldl (Sys.tally p c) (s, 0)).2

theorem Sys.tally_run (p c : Nat) (h : Run SysStep s tr t) :
    (tr.foldl (Sys.tally p c) (s, 0)).1 = t := by
  induction h with
  | nil => rfl
  | snoc _ hs ih =>
    rw [List.foldl_append]
    simp only [List.foldl_cons, List.foldl_nil, Sys.tally, ih, hs.2]
    rfl

theorem Sys.released_snoc (p c : Nat) (h : Run SysStep s tr t) (a : Action) :
    s.released p c (tr ++ [a]) = s.released p c tr + t.releases p c a := by
  unfold Sys.released
  rw [List.foldl_append]
  simp only [List.foldl_cons, List.foldl_nil, Sys.tally, Sys.tally_run p c h]

theorem Sys.retag_none {s : Sys} (h : s.retag a = some (c, none)) :
    a = .advance ∧ ((∃ v i, s.pc s.cur = .reading v i c) ∨
      ∃ sg, s.pc s.cur = .cell (.exit sg) c ∧ s.swap.store c = false) := by
  cases a with
  | advance =>
    refine ⟨rfl, ?_⟩
    change (s.pc s.cur).retag s.swap = some (c, none) at h
    cases hpc : s.pc s.cur with
    | reading v i d =>
      rw [hpc] at h
      cases h
      exact .inl ⟨v, i, rfl⟩
    | cell k d =>
      rw [hpc] at h
      cases k with
      | exit sg =>
        simp only [Pc.retag] at h
        split at h
        · cases h
        · rename_i hst
          cases h
          exact .inr ⟨sg, rfl, eq_false_of_ne_true hst⟩
      | load v i => cases h
      | copy r sg f => cases h
    | storeSwap k i v p =>
      rw [hpc] at h
      simp only [Pc.retag, Option.map_eq_some_iff] at h
      obtain ⟨d, -, hd⟩ := h
      cases hd
    | copyWriting r sg d f =>
      rw [hpc] at h
      cases h
    | _ =>
      rw [hpc] at h
      cases h
  | _ => cases h

theorem Sys.retag_of_releases {s : Sys} (h : s.releases p c a ≠ 0) :
    a = .advance ∧ s.cur = p ∧ ∃ sg, s.pc p = .cell (.exit sg) c ∧ s.swap.store c = false := by
  cases a with
  | advance =>
    simp only [Sys.releases] at h
    split at h
    · rename_i hr
      obtain ⟨hcur, hr⟩ := hr
      refine ⟨rfl, hcur, ?_⟩
      cases hpc : s.pc p with
      | cell k d =>
        rw [hpc] at hr
        cases k with
        | exit sg =>
          simp only [Pc.releases, Bool.and_eq_true, beq_iff_eq, Bool.not_eq_true'] at hr
          obtain ⟨rfl, hst⟩ := hr
          exact ⟨sg, rfl, hst⟩
        | load v i => cases hr
        | copy r sg f => cases hr
      | _ =>
        rw [hpc] at hr
        cases hr
    · exact (h rfl).elim
  | _ => exact (h rfl).elim

theorem Move.release_head {s u : Sys} (hm : Move s a u) (hr : s.releases p c a ≠ 0) :
    u.swap.lists.head .free = some c := by
  obtain ⟨rfl, rfl, sg, hpc, hst⟩ := Sys.retag_of_releases hr
  rcases hm.removeSwap rfl (by rw [hpc]; rfl) with ⟨d, -, hno, -⟩ | ⟨sg', d, hpc', -, rfl⟩ |
    ⟨sg', d, hpc', -⟩
  · rw [hno sg c hpc] at hst
    cases hst
  · rw [hpc] at hpc'
    cases hpc'
    exact Lists.push_head_self ..
  · rw [hpc] at hpc'
    cases hpc'

theorem Sys.releases_eq_one {s : Sys} (h : s.releases p c a ≠ 0) : s.releases p c a = 1 := by
  cases a with
  | advance =>
    simp only [Sys.releases] at h ⊢
    split
    · rfl
    · rename_i hno
      exact (h (if_neg hno)).elim
  | _ => exact (h rfl).elim

namespace Cells.Kept
variable {t : Cells}

theorem tagged_dead (h : t.Kept L) (hp : (t.errand p).alive = false) :
    (∃ v, t.Tagged L c p v) ↔ ∃ sg, c ∈ L (.seg sg p) := by
  constructor
  · rintro ⟨v, ⟨hsg, -⟩ | hl⟩
    · exact hsg
    · cases he : t.errand p with
      | loading w d ph =>
        rw [he] at hp
        cases hp
      | _ =>
        rw [he] at hl
        cases hl
  · rintro ⟨sg, hc⟩
    refine ⟨t.vaddr c, .inl ⟨⟨sg, hc⟩, rfl, ?_⟩⟩
    rintro ⟨q, r, hq⟩
    obtain ⟨sg', hc'⟩ := h.target_mem hq
    cases h.rep.disjoint _ _ c hc hc'
    rw [h.child hq] at hp
    cases hp

theorem label_alive (h : t.Kept L) (hm : CellMove t (some (c, some (p, v))) t') :
    (t.errand p).alive = true ∧ (c ∈ L .free ∨ ∃ sg, c ∈ L (.seg sg p)) := by
  cases hm with
  | file _ hc _ hp _ => exact ⟨hp, .inl (h.rep.mem_head (show t.view.head .free = _ from hc))⟩
  | copyEnd hcur =>
    have ht : (t.errand t.cur).target = some (p, c) := by
      rw [hcur]
      rfl
    exact ⟨h.child ht, .inr (h.target_mem ht)⟩

end Cells.Kept

/-- The cells of an exiting process leave its lists when its exit releases them. -/
theorem Sys.Settled.release_step {s u : Sys} (h : s.Settled L) (hu : u.Settled M)
    (hm : CellMove s.cells (s.retag a) u.cells)
    (htag : Retagged (s.retag a) (s.cells.Tagged L) (u.cells.Tagged M))
    (hp : (s.pc p).errand.alive = false) (hp' : (u.pc p).errand.alive = false) :
    ((∃ sg, c ∈ M (.seg sg p)) ↔ (∃ sg, c ∈ L (.seg sg p)) ∧ s.releases p c a = 0) ∧
      (s.releases p c a ≠ 0 → ∃ sg, c ∈ L (.seg sg p)) := by
  have hrel : s.releases p c a ≠ 0 → s.retag a = some (c, none) ∧ ∃ sg, c ∈ L (.seg sg p) := by
    intro hr
    obtain ⟨rfl, rfl, sg, hpc, hst⟩ := Sys.retag_of_releases hr
    constructor
    · change (s.pc s.cur).retag s.swap = _
      rw [hpc]
      simp [Pc.retag, hst]
    · have hs := h.kept.serves s.cur
      rw [show s.cells.errand s.cur = (s.pc s.cur).errand from rfl, hpc] at hs
      exact ⟨sg, (hs.1 c rfl).1⟩
  refine ⟨?_, fun hr => (hrel hr).2⟩
  rw [← h.kept.tagged_dead (p := p) hp, ← hu.kept.tagged_dead (p := p) hp']
  cases hr : s.retag a with
  | none =>
    rw [hr] at htag
    have h0 : s.releases p c a = 0 := by
      by_contra hne
      rw [hr] at hrel
      cases (hrel hne).1
    simp only [h0, and_true]
    exact exists_congr fun v => htag c p v
  | some x =>
    obtain ⟨d, o⟩ := x
    rw [hr] at htag hm
    by_cases hd : c = d
    · subst hd
      cases o with
      | some o =>
        -- the process gets no cells
        obtain ⟨q, w⟩ := o
        obtain ⟨hal, hc⟩ := h.kept.label_alive hm
        have hne : p ≠ q := by
          rintro rfl
          rw [show (s.cells.errand p).alive = (s.pc p).errand.alive from rfl, hp] at hal
          cases hal
        have hno : ¬ ∃ v, s.cells.Tagged L c p v := by
          rw [h.kept.tagged_dead hp]
          rintro ⟨sg, hsg⟩
          rcases hc with hc | ⟨sg', hc⟩
          · cases h.kept.rep.disjoint _ _ c hsg hc
          · cases h.kept.rep.disjoint _ _ c hsg hc
            exact hne rfl
        constructor
        · rintro ⟨v, hv⟩
          cases (htag.1 p v).1 hv
          exact (hne rfl).elim
        · intro hc
          exact (hno hc.1).elim
      | none =>
        constructor
        · rintro ⟨v, hv⟩
          cases (htag.1 p v).1 hv
        · rintro ⟨hc, h0⟩
          obtain ⟨sg, hc⟩ := (h.kept.tagged_dead hp).1 hc
          obtain ⟨rfl, ⟨v, i, hpc⟩ | ⟨sg', hpc, hst⟩⟩ := Sys.retag_none hr
          · have hl := h.kept.load_off (q := s.cur) (v := v) (c := c) (by
              rw [show s.cells.errand s.cur = (s.pc s.cur).errand from rfl, hpc]
              rfl) (.seg sg p)
            exact (hl hc).elim
          · have hs := h.kept.serves s.cur
            rw [show s.cells.errand s.cur = (s.pc s.cur).errand from rfl, hpc] at hs
            cases h.kept.rep.disjoint _ _ c hc (hs.1 c rfl).1
            simp [Sys.releases, hpc, Pc.releases, hst] at h0
    · have h0 : s.releases p c a = 0 := by
        by_contra hne
        rw [hr] at hrel
        cases (hrel hne).1
        exact hd rfl
      simp only [h0, and_true]
      exact exists_congr fun v => htag.2 c hd p v

/-- The running thread takes the first free cell with its next step. -/
def Pc.takes : Pc → Bool
  | .storeSwap _ _ _ _ | .copySwap _ _ (some _) => true
  | _ => false

/-- The step takes the cell from the free list. -/
def Sys.Takes (s : Sys) (c : Nat) (a : Action) : Prop :=
  a = .advance ∧ (s.pc s.cur).takes = true ∧ s.swap.lists.head .free = some c

theorem SwapFile.link_free (l : Lists SwapList Nat) (segs : List Segment) (p c : Nat) :
    (SwapFile.link l segs p c).head .free = l.head .free ∧
      ∀ x, x ≠ c → (SwapFile.link l segs p c).next x = l.next x := by
  induction segs generalizing l with
  | nil => exact ⟨rfl, fun _ _ => rfl⟩
  | cons sg segs ih =>
    obtain ⟨hhead, hnext⟩ := ih (l.push (.seg sg p) c)
    constructor
    · exact hhead.trans (Lists.push_head_of_ne _ _ nofun)
    · intro x hx
      exact (hnext x hx).trans (Lists.push_next_of_ne _ _ hx)

/-- A cell stays on the free list until it is taken. -/
theorem Move.free {s u : Sys} (hm : Move s a u) (h : s.Settled L) (hu : u.Settled M)
    (hc : c ∈ L .free) (ha : ¬ s.Takes c a) : c ∈ M .free := by
  have hF : Chain s.swap.lists.next (s.swap.lists.head .free) (L .free) := h.kept.rep.chain .free
  have hmem : ∀ {F}, Chain u.swap.lists.next (u.swap.lists.head .free) F → c ∈ F → c ∈ M .free := by
    intro F hF' hc'
    rw [hF'.unique (hu.kept.rep.chain .free)] at hc'
    exact hc'
  -- a cell that is not free is pushed
  have hpush : ∀ {d}, d ∉ L .free → u.swap.lists = s.swap.lists.push .free d → c ∈ M .free := by
    intro d hd hl
    refine hmem (F := d :: L .free) ?_ (List.mem_cons_of_mem _ hc)
    rw [hl]
    refine ⟨Lists.push_head_self .., ?_⟩
    rw [Lists.push_next_self]
    apply hF.congr
    intro x hx
    apply Lists.push_next_of_ne
    rintro rfl
    exact hd hx
  -- the first free cell is taken
  have htake : ∀ {d}, a = .advance → (s.pc s.cur).takes = true →
      s.swap.lists.head .free = some d → u.swap.lists.head .free = s.swap.lists.next d →
      (∀ x, x ≠ d → u.swap.lists.next x = s.swap.lists.next x) → c ∈ M .free := by
    intro d hadv htk hd hhead hnext
    have hne : c ≠ d := by
      rintro rfl
      exact ha ⟨hadv, htk, hd⟩
    rw [hd] at hF
    obtain ⟨T, hT, hT'⟩ := hF.head_some
    have hnd := h.kept.rep.nodup .free
    rw [hT, List.nodup_cons] at hnd
    rw [hT] at hc
    refine hmem (F := T) ?_ ((List.mem_cons.1 hc).resolve_left hne)
    rw [hhead]
    apply hT'.congr
    intro x hx
    apply hnext
    rintro rfl
    exact hnd.1 hx
  cases hm with
  | @store k i v p w d hpc hb =>
    obtain ⟨hd, -, A, -, -, rfl⟩ := SwapFile.storeBegin_ok hb
    obtain ⟨hhead, hnext⟩ := SwapFile.link_free (s.swap.lists.behead .free d) (A.storeSegs v) p d
    refine htake rfl (by rw [hpc]; rfl) hd (hhead.trans ?_) hnext
    exact Lists.behead_head_self ..
  | loadFound hpc _ hb =>
    obtain ⟨sg, prev, -, hs, rfl⟩ := SwapFile.loadBegin_some hb
    have hwalk : (s.cells.errand s.cur).walk = none := by
      rw [show s.cells.errand s.cur = (s.pc s.cur).errand from rfl, hpc]
      rfl
    have hchain : Chain s.swap.lists.next (s.swap.lists.head (.seg sg s.cur))
        (L (.seg sg s.cur)) := by
      rw [← Lists.seen_head_of_none (W := fun q => (s.cells.errand q).walk) hwalk]
      exact h.kept.rep.chain (.seg sg s.cur)
    have hlen : (L (.seg sg s.cur)).length ≤ s.swap.size :=
      h.kept.rep.length_le fun d hd => h.kept.bound hd
    cases prev with
    | none => exact hmem (hF.of_head (Lists.behead_head_of_ne _ _ nofun)) hc
    | some q =>
      -- the link that changes is on the list of the process
      have hq : q ∈ L (.seg sg s.cur) := by
        cases search_spec (p := fun c => s.swap.vaddr c == _) hchain hlen none with
        | inr hmiss =>
          rw [hmiss.2] at hs
          cases hs
        | inl hfound =>
          obtain ⟨A, d, B, hA, -, -, hfound⟩ := hfound
          rw [hfound, Option.or_none] at hs
          injection hs with hlast
          rw [hA]
          exact List.mem_append_left _ (List.mem_of_getLast? hlast)
      refine hmem (hF.congr ?_) hc
      intro x hx
      apply Function.update_of_ne
      rintro rfl
      cases h.kept.rep.disjoint _ _ x hx hq
  | @reading v i d _ hpc =>
    refine hpush (d := d) ?_ rfl
    exact h.kept.load_off (q := s.cur) (v := v) (by
      rw [show s.cells.errand s.cur = (s.pc s.cur).errand from rfl, hpc]
      rfl) .free
  | cellSleep _ hb =>
    rw [(SwapFile.testStore_spec hb).1] at hmem
    exact hmem hF hc
  | cellLoad _ hb =>
    rw [(SwapFile.testStore_spec hb).1] at hmem
    exact hmem hF hc
  | @cellExit sg d w hpc hb =>
    obtain ⟨rfl, -⟩ := SwapFile.testStore_spec hb
    refine hpush (d := d) ?_ rfl
    exact h.kept.used (q := s.cur) (by
      rw [show s.cells.errand s.cur = (s.pc s.cur).errand from rfl, hpc]
      rfl)
  | cellCopy _ hb =>
    rw [(SwapFile.testStore_spec hb).1] at hmem
    exact hmem hF hc
  | @copyTake r sg d w f hpc hb =>
    obtain ⟨hd, -, rfl⟩ := SwapFile.copyBegin_ok hb
    refine htake rfl (by rw [hpc]; rfl) hd ?_ ?_
    · have hne : SwapList.free ≠ .seg sg r := nofun
      exact (Lists.push_head_of_ne (s.swap.lists.behead .free f) f hne).trans
        (Lists.behead_head_self ..)
    · intro x hx
      exact Lists.push_next_of_ne _ _ hx
  | storing _ hb =>
    rw [SwapFile.storeEnd_spec hb] at hmem
    exact hmem hF hc
  | removeNext => exact hmem (hF.of_head (Lists.clear_head_of_ne _ nofun)) hc
  | removeDone => exact hmem (hF.of_head (Lists.clear_head_of_ne _ nofun)) hc
  | _ => exact hmem hF hc

/-- The layout of the family, and the exit of `p` is not over. -/
def Sys.Leaving (A₀ : AddrSpace) (p : Nat) (s : Sys) (a : Action) : Prop :=
  s.Family A₀ a ∧ s.pc p ≠ .zombie

theorem Pc.dead_of_exiting {c : Pc} (h : c.role = .exiting ∨ c = .zombie) :
    c.errand.alive = false := by
  rcases h with h | rfl
  · cases c with
    | cell k d =>
      cases k with
      | exit sg => rfl
      | load v i => cases h
      | copy r sg f => cases h
    | cellWait k d w =>
      cases k with
      | exit sg => rfl
      | load v i => cases h
      | copy r sg f => cases h
    | storeSwap k i v p => cases k <;> cases h
    | storing k i d => cases k <;> cases h
    | stored k i => cases k <;> cases h
    | removeSwap sg e => rfl
    | _ => cases h
  · rfl

/-- The call of `sys__exit` itself releases no cells. -/
theorem Move.exit_call {s u : Sys} (hm : Move s .exit u) :
    s.pc s.cur = .run ∧ (u.pc s.cur).role = .exiting ∧ ∀ sg l, u.Owns sg s.cur l ↔ s.Owns sg s.cur l := by
  cases hm with
  | @exit _ ipt st hpc _ hf =>
    have hself : ({ s with ipt := ipt, stats := st }.goto (.removeSwap .text
        (s.swap.lists.head (.seg .text s.cur)))).pc s.cur =
        .removeSwap .text (s.swap.lists.head (.seg .text s.cur)) := by
      rw [Sys.pc_goto]
      exact Function.update_self ..
    refine ⟨hpc, by rw [hself]; rfl, fun sg l => ?_⟩
    unfold Sys.Owns
    have hs : s.cells.view.head (.seg sg s.cur) = s.swap.lists.head (.seg sg s.cur) := by
      apply Lists.seen_head_of_none
      change (s.pc s.cur).errand.walk = none
      rw [hpc]
      rfl
    have hu : ({ s with ipt := ipt, stats := st }.goto (.removeSwap .text
        (s.swap.lists.head (.seg .text s.cur)))).cells.view.head (.seg sg s.cur) =
        s.swap.lists.head (.seg sg s.cur) := by
      change (s.swap.lists.seen fun r => (({ s with ipt := ipt, stats := st }.goto (.removeSwap .text
        (s.swap.lists.head (.seg .text s.cur)))).pc r).errand.walk).head (.seg sg s.cur) = _
      simp only [Lists.seen, hself, Pc.errand, Errand.walk]
      split
      · rename_i hsg
        rw [hsg]
      · rfl
    rw [hs, hu]
    exact Iff.rfl
  | allocWait hpc => rcases hpc with ⟨-, h⟩ | ⟨-, h⟩ <;> cases h
  | allocTake hpc => rcases hpc with ⟨-, h⟩ | ⟨-, h⟩ <;> cases h
  | allocEvict hpc => rcases hpc with ⟨-, h⟩ | ⟨-, h⟩ <;> cases h

/-- How far an exit of `p` has come that started with the cells `L`: each of them is on its
list still and was not released, or was released once. -/
structure Sys.Exits (A₀ : AddrSpace) (p : Nat) (L : SwapList → List Nat) (u : Sys)
    (tr : List Action) (t : Sys) (M : SwapList → List Nat) : Prop where
  order : t.InOrder M
  alike : t.Alike A₀
  leaving : (t.pc p).role = .exiting ∨ t.pc p = .zombie
  run : Run SysStep u tr t
  kept : (∃ sg, c ∈ M (.seg sg p)) → (∃ sg, c ∈ L (.seg sg p)) ∧ u.released p c tr = 0
  gone : (∃ sg, c ∈ L (.seg sg p)) → (¬ ∃ sg, c ∈ M (.seg sg p)) → u.released p c tr = 1
  other : (¬ ∃ sg, c ∈ L (.seg sg p)) → u.released p c tr = 0

namespace Sys.Exits

theorem step (hA : A₀.Exclusive) (h : Sys.Exits A₀ p L u tr t M)
    (hs : StepWhen (Sys.Leaving A₀ p) t a t') : ∃ M', Sys.Exits A₀ p L u (tr ++ [a]) t' M' ∧
      ∀ c, ¬ t.Takes c a → (∃ sg, c ∈ M (.seg sg p)) ∨ c ∈ M .free →
        (∃ sg, c ∈ M' (.seg sg p)) ∨ c ∈ M' .free := by
  obtain ⟨⟨ha, hz⟩, hs⟩ := hs
  have hm := hs.move
  have hfiled := h.alike.filed hA h.order.filing a
  obtain ⟨M', hM', htag⟩ := h.order.step hm hfiled
  have hex := h.leaving.resolve_right hz
  have hex' := hm.exiting h.order.good.1 hex
  have hcell := hm.cells (K := True) h.order.good.1 h.order.filing h.order.kin hfiled.linked
    fun _ => hfiled
  have hrel : ∀ c, _ := fun c => h.order.toSettled.release_step (p := p) (c := c) hM'.toSettled
    hcell htag (Pc.dead_of_exiting (.inl hex)) (Pc.dead_of_exiting hex')
  refine ⟨M', ⟨hM', h.alike.step hm ha, hex', .snoc h.run hs, ?_, ?_, ?_⟩, ?_⟩
  · intro c hc
    obtain ⟨hc, h0⟩ := (hrel c).1.1 hc
    obtain ⟨hL, hcount⟩ := h.kept hc
    refine ⟨hL, ?_⟩
    rw [Sys.released_snoc p c h.run, hcount, h0]
  · intro c hL hc
    rw [Sys.released_snoc p c h.run]
    by_cases hcM : ∃ sg, c ∈ M (.seg sg p)
    · have hne : t.releases p c a ≠ 0 := fun h0 => hc ((hrel c).1.2 ⟨hcM, h0⟩)
      rw [(h.kept hcM).2, Sys.releases_eq_one hne]
    · have h0 : t.releases p c a = 0 := by
        by_contra hne
        exact hcM ((hrel c).2 hne)
      rw [h.gone hL hcM, h0]
  · intro c hL
    have h0 : t.releases p c a = 0 := by
      by_contra hne
      exact hL (h.kept ((hrel c).2 hne)).1
    rw [Sys.released_snoc p c h.run, h.other hL, h0]
  · intro c htk hc
    rcases hc with hc | hc
    · by_cases h0 : t.releases p c a = 0
      · exact .inl ((hrel c).1.2 ⟨hc, h0⟩)
      · exact .inr (hM'.head_free (hm.release_head h0))
    · exact .inr (hm.free h.order.toSettled hM'.toSettled hc htk)

theorem start {s u : Sys} (hL : s.InOrder L) (hM : u.InOrder M) (hal : u.Alike A₀)
    (hm : Move s .exit u) : Sys.Exits A₀ s.cur L u [] u M := by
  obtain ⟨-, hrole, hown⟩ := hm.exit_call
  have heq : ∀ sg, M (.seg sg s.cur) = L (.seg sg s.cur) := by
    intro sg
    exact hL.toSettled.owns.1 ((hown sg _).1 (hM.toSettled.owns.2 rfl))
  refine ⟨hM, hal, .inl hrole, .nil u, ?_, ?_, fun _ => rfl⟩
  · intro c hc
    simp only [heq] at hc
    exact ⟨hc, rfl⟩
  · intro c hc hno
    simp only [heq] at hno
    exact (hno hc).elim

end Sys.Exits

/-- In every run of a family of processes with one layout whose range tests exclude each
other: a process whose exit is over has left no entry, no node and no cell, so that nothing
is found for a pid that is not in use; the steps of an exit spare the other processes; each
cell of an exiting process is put on the free list once, and is still there when the exit is
over if it was not taken for another page. -/
theorem exit_leaves_no_trace (hA : A₀.Exclusive)
    (h : Run (StepWhen (Sys.Family A₀)) (Sys.boot m) tr s) :
    (∀ p, s.pc p = .zombie ∨ s.pc p = .none →
      (∀ i < s.ipt.pt.nEntry, (s.ipt.pt.entries i).user = true → (s.ipt.pt.entries i).pid ≠ p) ∧
      (∀ v o, ¬ s.ipt.ht.Node v p o) ∧ (∀ sg, s.swap.lists.head (.seg sg p) = none) ∧
      (∀ v i, s.ipt.ht.getIndexFromHash v p ≠ .ok (some i)) ∧
      ∀ A v w c, s.swap.loadBegin A v p ≠ .ok (w, some c)) ∧
    (∀ a u, SysStep s a u → s.Cleans a → Sys.Spares s.cur s u) ∧
    (∀ a u p c, SysStep s a u → s.releases p c a ≠ 0 →
      ∃ F, Chain u.swap.lists.next (u.swap.lists.head .free) (c :: F) ∧ (c :: F).Nodup) ∧
    ∀ u tr' t, SysStep s .exit u → Run (StepWhen (Sys.Leaving A₀ s.cur)) u tr' t →
      t.pc s.cur = .zombie → ∀ c,
        ((¬ ∃ sg l, s.Owns sg s.cur l ∧ c ∈ l) → u.released s.cur c tr' = 0) ∧
        ((∃ sg l, s.Owns sg s.cur l ∧ c ∈ l) → u.released s.cur c tr' = 1 ∧
          (Run (StepWhen fun v a => v.Leaving A₀ s.cur a ∧ ¬ v.Takes c a) u tr' t →
            ∃ F, Chain t.swap.lists.next (t.swap.lists.head .free) F ∧ F.Nodup ∧ c ∈ F)) := by
  obtain ⟨⟨L, hL⟩, hal⟩ := Sys.run_family hA h
  refine ⟨fun p hp => ?_, fun a u hs ha => ?_, fun a u p c hs hr => ?_,
    fun u tr' t hs hrun hz c => ?_⟩
  · obtain ⟨hent, hnode, hhead⟩ := hL.toSettled.no_trace hp
    refine ⟨hent, hnode, hhead, fun v i hi => ?_, fun A v w c hw => ?_⟩
    · obtain ⟨-, -, K, N, hrep, hK⟩ := hL.good.2.indexed
      have hrep : s.ipt.ht.Rep K N := hrep
      rcases hrep.getIndexFromHash_iff.1 hi with ⟨j, hj, hk⟩ | ⟨hj, -⟩
      · exact hnode v (some j) (hrep.node_iff.2 ⟨j, rfl, hk⟩)
      · cases hj
    · obtain ⟨sg, prev, -, hsearch, -⟩ := SwapFile.loadBegin_some hw
      rw [hhead sg] at hsearch
      cases hsize : s.swap.size <;> rw [hsize] at hsearch <;> cases hsearch
  · exact hs.move.spares hL.toSettled (Sys.step_good hL.good hs).2 ha
  · obtain ⟨M, hM, -⟩ := hL.step hs.move (hal.filed hA hL.filing a)
    have hhead := hs.move.release_head hr
    have hF := hM.free_chain
    rw [hhead] at hF
    obtain ⟨F, hF', -⟩ := hF.head_some
    have hnd := hM.kept.rep.nodup .free
    have hc := hM.free_chain
    rw [hF'] at hnd hc
    exact ⟨F, hc, hnd⟩
  · obtain ⟨M₀, hM₀, -⟩ := hL.step hs.move trivial
    have h0 := Sys.Exits.start hL hM₀ (hal.step hs.move trivial) hs.move
    have hown : (∃ sg l, s.Owns sg s.cur l ∧ c ∈ l) ↔ ∃ sg, c ∈ L (.seg sg s.cur) := by
      constructor
      · rintro ⟨sg, l, hl, hc⟩
        rw [hL.toSettled.owns.1 hl] at hc
        exact ⟨sg, hc⟩
      · rintro ⟨sg, hc⟩
        exact ⟨sg, _, hL.toSettled.owns.2 rfl, hc⟩
    have hdone : ∀ {M}, Sys.Exits A₀ s.cur L u tr' t M → ∀ sg, M (.seg sg s.cur) = [] := by
      intro M hE sg
      have := hE.order.kept.serves s.cur
      rw [show t.cells.errand s.cur = (t.pc s.cur).errand from rfl, hz] at this
      exact this sg
    obtain ⟨M, hE⟩ : ∃ M, Sys.Exits A₀ s.cur L u tr' t M := by
      apply hrun.invariant_trace (P := fun tr t => ∃ M, Sys.Exits A₀ s.cur L u tr t M) ⟨M₀, h0⟩
      rintro tr v a w ⟨M, hE⟩ hw
      obtain ⟨M', hE', -⟩ := hE.step hA hw
      exact ⟨M', hE'⟩
    have hno : ¬ ∃ sg, c ∈ M (.seg sg s.cur) := by
      rintro ⟨sg, hc⟩
      rw [hdone hE sg] at hc
      cases hc
    rw [hown]
    refine ⟨hE.other, fun hc => ⟨hE.gone hc hno, fun hrun' => ?_⟩⟩
    have hc₀ : ∃ sg, c ∈ M₀ (.seg sg s.cur) := by
      by_contra hout
      cases (h0.gone hc hout : 0 = 1)
    obtain ⟨N, hN, hcN⟩ : ∃ N, Sys.Exits A₀ s.cur L u tr' t N ∧
        ((∃ sg, c ∈ N (.seg sg s.cur)) ∨ c ∈ N .free) := by
      apply hrun'.invariant_trace (P := fun tr t => ∃ N, Sys.Exits A₀ s.cur L u tr t N ∧
        ((∃ sg, c ∈ N (.seg sg s.cur)) ∨ c ∈ N .free)) ⟨M₀, h0, .inl hc₀⟩
      rintro tr v a w ⟨N, hN, hcN⟩ hw
      obtain ⟨N', hN', hfree⟩ := hN.step hA ⟨hw.1.1, hw.2⟩
      exact ⟨N', hN', hfree c hw.1.2 hcN⟩
    rcases hcN with ⟨sg, hcN⟩ | hcN
    · rw [hdone hN sg] at hcN
      cases hcN
    · exact ⟨_, hN.order.free_chain, hN.order.kept.rep.nodup .free, hcN⟩

instance (s : Sys) (sg : Segment) (q : Nat) (l : List Nat) : Decidable (s.Owns sg q l) :=
  inferInstanceAs (Decidable (Chain _ _ _))

instance (A₀ : AddrSpace) (p : Nat) (s : Sys) (a : Action) : Decidable (s.Leaving A₀ p a) :=
  inferInstanceAs (Decidable (_ ∧ _))

/-- Program 2 has forked 3, which runs and evicts the pages of 2. -/
def evictParent : List Action :=
  ([.spawn 2, .dispatch 2, .exec 0 (programHeaders 0x400000 4096 0x10000000 4096),
    .fault .read 0x400000, .advance, .advance, .advance,
    .fault .read 0x10000000, .advance, .advance, .advance, .fork 3] : List Action) ++
  List.replicate 12 .advance ++ [.dispatch 3, .fault .read 0x400000] ++
  List.replicate 8 .advance ++ [.fault .read 0x7fff0000, .advance, .advance, .dispatch 2]

/-- Program 2 releases a cell and sleeps on the next one, whose store 3 ends; 3 takes the cell
that 2 has released, and 2 goes on. -/
def reuseCell : List Action :=
  [.advance, .advance, .advance, .advance, .advance, .dispatch 3, .advance, .advance, .advance,
    .advance, .dispatch 2, .dispatch 3, .fault .read 0x10000000, .advance, .advance, .dispatch 2,
    .advance, .advance, .advance, .advance]

theorem evictParent_reuseCell : ∃ s u t,
    Run (StepWhen (Sys.Family smallLayout)) (Sys.boot (.blank 2 6)) evictParent s ∧
      SysStep s .exit u ∧ Run (StepWhen (Sys.Leaving smallLayout 2)) u reuseCell t ∧
      s.cur = 2 ∧ s.Owns .text 2 [2] ∧ s.Owns .data 2 [0] ∧ s.Owns .stack 2 [] ∧
      t.pc 2 = .zombie ∧ Chain t.swap.lists.next (t.swap.lists.head .free) [0, 3, 4, 5] ∧
      t.Owns .text 3 [2] := by
  obtain ⟨s, hr, hs⟩ := Sys.run_of_follow (C := Sys.Family smallLayout) (s := .boot (.blank 2 6))
    evictParent (p := fun s => decide (s.cur = 2 ∧ s.Owns .text 2 [2] ∧ s.Owns .data 2 [0] ∧
        s.Owns .stack 2 []) &&
      (s.follow (Sys.Family smallLayout) [.exit]).any fun u =>
        (u.follow (Sys.Leaving smallLayout 2) reuseCell).any fun t =>
          decide (t.pc 2 = .zombie ∧
            Chain t.swap.lists.next (t.swap.lists.head .free) [0, 3, 4, 5] ∧
            t.Owns .text 3 [2])) (by decide +kernel)
  obtain ⟨hs, hu⟩ := Bool.and_eq_true_iff.1 hs
  obtain ⟨u, hu, ht⟩ := (Option.any_eq_true ..).1 hu
  obtain ⟨t, hrun, ht⟩ := Sys.run_of_follow _ ht
  obtain ⟨hcur, h2, h3, h4⟩ := of_decide_eq_true hs
  obtain ⟨hz, hF, ho⟩ := of_decide_eq_true ht
  exact ⟨s, u, t, hr, (Sys.follow_run hu).of_single.2, hrun, hcur, h2, h3, h4, hz, hF, ho⟩

/-- Both cells of program 2 are released once. -/
theorem exit_leaves_no_trace_reuse : ∃ s u t,
    Run (StepWhen (Sys.Family smallLayout)) (Sys.boot (.blank 2 6)) evictParent s ∧
      SysStep s .exit u ∧ Run (StepWhen (Sys.Leaving smallLayout 2)) u reuseCell t ∧
      s.cur = 2 ∧ t.pc 2 = .zombie ∧ u.released 2 0 reuseCell = 1 ∧
      u.released 2 2 reuseCell = 1 ∧ u.released 2 3 reuseCell = 0 := by
  obtain ⟨s, u, t, hr, hs, hrun, hcur, h2, h3, h4, hz, -⟩ := evictParent_reuseCell
  obtain ⟨-, -, -, hexit⟩ := exit_leaves_no_trace smallLayout_exclusive hr
  rw [hcur] at hexit
  have hall := hexit u reuseCell t hs hrun hz
  refine ⟨s, u, t, hr, hs, hrun, hcur, hz, ?_, ?_, ?_⟩
  · exact ((hall 0).2 ⟨.data, [0], h3, List.mem_cons_self⟩).1
  · exact ((hall 2).2 ⟨.text, [2], h2, List.mem_cons_self⟩).1
  · apply (hall 3).1
    rintro ⟨sg, l, hl, hc⟩
    cases sg with
    | text => rw [hl.unique h2] at hc; simp at hc
    | data => rw [hl.unique h3] at hc; simp at hc
    | stack => rw [hl.unique h4] at hc; simp at hc

/-- A cell of program 2 is not free when its exit is over: it has a page of program 3. -/
theorem exit_cell_reused : ∃ s u t,
    Run (StepWhen (Sys.Family smallLayout)) (Sys.boot (.blank 2 6)) evictParent s ∧
      SysStep s .exit u ∧ Run (StepWhen (Sys.Leaving smallLayout 2)) u reuseCell t ∧
      s.cur = 2 ∧ t.pc 2 = .zombie ∧ s.Owns .text 2 [2] ∧ t.Owns .text 3 [2] ∧
      ¬ ∃ F, Chain t.swap.lists.next (t.swap.lists.head .free) F ∧ 2 ∈ F := by
  obtain ⟨s, u, t, hr, hs, hrun, hcur, h2, -, -, hz, hF, ho⟩ := evictParent_reuseCell
  refine ⟨s, u, t, hr, hs, hrun, hcur, hz, h2, ho, ?_⟩
  rintro ⟨F, hF', h2F⟩
  rw [hF'.unique hF] at h2F
  simp at h2F

end Clape
