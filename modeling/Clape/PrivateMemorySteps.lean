import Clape.PrivateMemory

namespace Clape
set_option autoImplicit true

theorem sameKey_asActivate {pt : PageTable} (h : asActivate pt m as q = .ok (pt', m')) :
    pt'.nEntry = pt.nEntry ∧ ∀ i, SameKey (pt.entries i) (pt'.entries i) := by
  cases as with
  | none =>
    cases h
    exact ⟨rfl, fun i => .refl _⟩
  | some as =>
    have h' : tlbInvalidateAll pt m q = .ok (pt', m') := h
    unfold tlbInvalidateAll at h'
    split at h'
    · cases h'
      exact ⟨rfl, fun i => .refl _⟩
    · obtain ⟨⟨pt₁, m₁⟩, hloop, h'⟩ := bind_ok.1 h'
      cases h'
      have hs : Sound (fun _ => True) (fun x : PageTable × Mmu => x.1.nEntry = pt.nEntry ∧
          ∀ i, SameKey (pt.entries i) (x.1.entries i))
          ((List.range numTlb).foldlM invalidateSlot (pt, m)) := by
        apply Sound.foldlM
        · exact ⟨rfl, fun i => .refl _⟩
        · intro k _ x hx
          apply Sound.intro _ (fun _ _ => trivial)
          intro y hy
          cases hslot : x.2.slots k with
          | none =>
            simp only [invalidateSlot, hslot] at hy
            cases hy
            exact hx
          | some e =>
            simp only [invalidateSlot, hslot] at hy
            obtain ⟨pt₂, h₂, hy⟩ := bind_ok.1 hy
            cases hy
            obtain ⟨hc, hn, -⟩ := TlbCleared.of_updateTlbBit h₂
            exact ⟨hn.trans hx.1, fun i => (hx.2 i).trans (sameKey_cleared hc i)⟩
      exact hs.ok hloop

theorem key_freePages {s t : Ipt} (h : s.freePages c = .ok t) (d v p : Nat) :
    Key t.pt.nEntry t.pt.entries d v p ↔ Key s.pt.nEntry s.pt.entries d v p ∧ p ≠ c := by
  rw [(freePages_ok h).2]
  unfold Key
  by_cases hd : d < s.pt.nEntry ∧ (s.pt.entries d).pid = c ∧ (s.pt.entries d).user = true
  · simp only [if_pos hd]
    constructor
    · intro hk
      cases hk.2.1
    · rintro ⟨hk, hne⟩
      exact (hne (hk.2.2.2.symm.trans hd.2.1)).elim
  · simp only [if_neg hd]
    constructor
    · intro hk
      refine ⟨hk, ?_⟩
      rintro rfl
      exact hd ⟨hk.1, hk.2.2.2, hk.2.1⟩
    · exact fun hk => hk.1

theorem pageAt_writeAt_self (m : Nat → UInt8) (a : Nat) (b : Nat → UInt8) :
    pageAt (writeAt m a pageSize b) a = pageAt b 0 := by
  funext o
  unfold pageAt
  rw [Nat.zero_add]
  exact readAt_writeAt m a pageSize b o o.2

theorem pageAt_writeAt_of_ne (m : Nat → UInt8) (b : Nat → UInt8) (h : dst + len ≤ pageSize)
    (hd : d ≠ i) :
    pageAt (writeAt m (i * pageSize + dst) len b) (d * pageSize) = pageAt m (d * pageSize) := by
  funext o
  have hlt := o.2
  have hout : ¬ (i * pageSize + dst ≤ d * pageSize + o ∧ d * pageSize + o < i * pageSize + dst + len) := by
    have := blocks_apart hd pageSize
    omega
  exact writeAt_out hout

theorem pageAt_writeAt_block (m : Nat → UInt8) (b : Nat → UInt8) (hd : d ≠ i) :
    pageAt (writeAt m (i * pageSize) pageSize b) (d * pageSize) = pageAt m (d * pageSize) := by
  have h := pageAt_writeAt_of_ne m b (Nat.le_of_eq (Nat.zero_add pageSize)) hd
  rwa [Nat.add_zero] at h

theorem pageAt_readAt (m : Nat → UInt8) (a : Nat) : pageAt (readAt m a) 0 = pageAt m a := by
  funext o
  unfold pageAt readAt
  rw [Nat.zero_add]

namespace Sys
variable {s u : Sys}

theorem inFrame_iff (hm : Move s a u) (ho : s.table.Own) (hn : u.ipt.pt.nEntry = s.ipt.pt.nEntry)
    (hE : SameKey (s.ipt.pt.entries i) (u.ipt.pt.entries i))
    (hfill : (u.pc s.cur).fills = some i ↔ (s.pc s.cur).fills = some i) (k : Nat × Nat) :
    u.InFrame i k ↔ s.InFrame i k := by
  have hkey : Key u.ipt.pt.nEntry u.ipt.pt.entries i k.2 k.1 ↔
      Key s.ipt.pt.nEntry s.ipt.pt.entries i k.2 k.1 := by
    obtain ⟨hu, hk⟩ := hE
    unfold Key
    rw [hn, hu]
    apply and_congr_right
    intro _
    apply and_congr_right
    intro hui
    rw [(hk hui).1, (hk hui).2]
  have hfills : ∀ q, (u.pc q).fills = some i ↔ (s.pc q).fills = some i := by
    intro q
    by_cases hq : q = s.cur
    · rw [hq]
      exact hfill
    · rw [hm.steady ho Pc.steady_fills hq]
  unfold InFrame
  rw [hkey]
  simp only [ne_eq, hfills]

theorem frames_same (hm : Move s a u) (ho : s.table.Own) (hn : u.ipt.pt.nEntry = s.ipt.pt.nEntry)
    (hE : ∀ i, SameKey (s.ipt.pt.entries i) (u.ipt.pt.entries i))
    (hfill : (u.pc s.cur).fills = (s.pc s.cur).fills) (i : Nat) (k : Nat × Nat) :
    u.InFrame i k ↔ s.InFrame i k := inFrame_iff hm ho hn (hE i) (by rw [hfill]) k

theorem frames_but (hm : Move s a u) (ho : s.table.Own) (hn : u.ipt.pt.nEntry = s.ipt.pt.nEntry)
    (hE : ∀ j, j ≠ i → SameKey (s.ipt.pt.entries j) (u.ipt.pt.entries j))
    (hs : (s.ipt.pt.entries i).user = false)
    (hfill : ∀ j, j ≠ i → ((u.pc s.cur).fills = some j ↔ (s.pc s.cur).fills = some j))
    (hu : (u.ipt.pt.entries i).user = false ∨ (u.pc s.cur).fills = some i) (j : Nat) (k : Nat × Nat) :
    u.InFrame j k ↔ s.InFrame j k := by
  by_cases hj : j = i
  · subst hj
    apply iff_of_false
    · intro hk
      cases hu with
      | inl hu =>
        rw [hk.1.2.1] at hu
        cases hu
      | inr hu => exact hk.2 s.cur hu
    · intro hk
      rw [hk.1.2.1] at hs
      cases hs
  · exact inFrame_iff hm ho hn (hE j hj) (hfill j hj) k

theorem sends_same (hm : Move s a u) (ho : s.table.Own)
    (hsend : (u.pc s.cur).sends = (s.pc s.cur).sends) (q : Nat) : (u.pc q).sends = (s.pc q).sends := by
  by_cases hq : q = s.cur
  · rw [hq]
    exact hsend
  · exact hm.steady ho Pc.steady_sends hq

theorem bytes_same (hmem : u.mem = s.mem) (hdisk : u.disk = s.disk)
    (hoff : u.swap.offset = s.swap.offset) (x : Place) : u.bytes x = s.bytes x := by
  cases x with
  | cell c =>
    unfold bytes
    rw [hdisk, hoff]
  | _ =>
    unfold bytes
    rw [hmem]

namespace Paged

theorem quiet (h : s.Paged L m) (hm : Move s a u)
    (htag : Retagged none (s.cells.Tagged L) (u.cells.Tagged M))
    (hframe : ∀ i k, u.InFrame i k ↔ s.InFrame i k)
    (hsend : (u.pc s.cur).sends = (s.pc s.cur).sends) (hst : u.swap.store = s.swap.store)
    (hmem : u.mem = s.mem) (hdisk : u.disk = s.disk) : Shows (u.Keeps M) u.bytes m := by
  apply h.shows.congr
  · exact Keeps.congr hframe (sends_same hm h.order.good.1 hsend) htag hst
  · intro x _ _
    exact bytes_same hmem hdisk hm.offset.1 x

theorem sender (h : s.Paged L m) (hq : (s.pc q).sends = some (i, x)) :
    ((s.ipt.pt.entries i).user = false ∨ (s.ipt.pt.entries i).pid = q) ∧
      ((s.ipt.pt.entries i).ctrl.io = true ∨ (s.ipt.pt.entries i).ctrl.swap = true) := by
  have ho := h.order.good.1
  rcases Pc.hold_of_sends hq with ⟨⟨o, hold⟩, -⟩ | hcopy
  · obtain ⟨-, ⟨-, hio, -⟩, hk⟩ := (ho.fits i).held (q := q) (o := o) hold
    refine ⟨?_, .inl hio⟩
    cases o with
    | none =>
      apply Or.inl
      cases hu : (s.ipt.pt.entries i).user with
      | false => rfl
      | true => exact ((PtEntry.user_iff.1 hu).2 hk).elim
    | some v => exact .inr hk.2.2
  · obtain ⟨hi, hu, hpid⟩ := (h.doing _).source hcopy
    obtain ⟨r, hr⟩ := Pc.forks_of_copies hcopy
    refine ⟨.inr hpid, .inr ?_⟩
    apply (ho.fits i).frozen _ hi hu
    rw [show s.table.entries i = s.ipt.pt.entries i from rfl, hpid,
      show s.table.role q = (s.pc q).role from rfl, hr]
    rfl

theorem unsent_of_idle (h : s.Paged L m) (he : (s.ipt.pt.entries i).Idle) (q : Nat) (x : Parcel) :
    (s.pc q).sends ≠ some (i, x) := by
  intro hq
  rcases (h.sender hq).2 with hio | hsw
  · rw [he.1] at hio
    cases hio
  · rw [he.2.1] at hsw
    cases hsw

theorem unsent_of_loading (h : s.Paged L m) (hr : (s.pc r).role = .loading v i) (q : Nat) (x : Parcel) :
    (s.pc q).sends ≠ some (i, x) := by
  intro hq
  obtain ⟨-, ⟨hval, -⟩, hv, hpg, hpid⟩ := (h.order.good.1.fits i).held (q := r) (o := some v) (by
    rw [show s.table.role r = (s.pc r).role from rfl, hr]
    rfl)
  have hu : (s.ipt.pt.entries i).user = true := PtEntry.user_iff.2 ⟨hval, hpg ▸ hv.ne_kmallocPage⟩
  have hqr : q = r := by
    rcases (h.sender hq).1 with hno | hp
    · rw [hu] at hno
      cases hno
    · exact hp.symm.trans hpid
  rcases Pc.hold_of_sends hq with ⟨-, hne⟩ | hcopy
  · rw [hqr] at hne
    exact hne v hr
  · obtain ⟨c, hc⟩ := Pc.forks_of_copies hcopy
    rw [hqr, hr] at hc
    cases hc

theorem unsent_of_run (h : s.Paged L m) (hr : (s.pc s.cur).sends = none)
    (hk : Key s.ipt.pt.nEntry s.ipt.pt.entries i v s.cur) (q : Nat) (x : Parcel) :
    (s.pc q).sends ≠ some (i, x) := by
  intro hq
  have hqr : q = s.cur := by
    rcases (h.sender hq).1 with hno | hp
    · rw [hk.2.1] at hno
      cases hno
    · exact hp.symm.trans hk.2.2.2
  rw [hqr, hr] at hq
  cases hq

theorem sender_unique (h : s.Paged L m) (hq : (s.pc q).sends = some (i, x))
    (hr : (s.pc r).sends = some (i, y)) : q = r := by
  have ho := h.order.good.1
  have huser : (s.ipt.pt.entries i).user = true → q = r := by
    intro hu
    have hpid : ∀ {p z}, (s.pc p).sends = some (i, z) → (s.ipt.pt.entries i).pid = p := by
      intro p z hp
      rcases (h.sender hp).1 with hno | hpid
      · rw [hu] at hno
        cases hno
      · exact hpid
    exact (hpid hq).symm.trans (hpid hr)
  rcases Pc.hold_of_sends hq with ⟨⟨o, hold⟩, -⟩ | hcopy
  · rcases Pc.hold_of_sends hr with ⟨⟨o', hold'⟩, -⟩ | hcopy
    · exact ho.apart.single hold hold'
    · exact huser ((h.doing _).source hcopy).2.1
  · exact huser ((h.doing _).source hcopy).2.1

theorem not_inFrame_of_fills (hq : (s.pc q).fills = some i) (k : Nat × Nat) : ¬ s.InFrame i k :=
  fun h => h.2 q hq

theorem not_inFrame_of_user (hu : (s.ipt.pt.entries i).user = false) (k : Nat × Nat) :
    ¬ s.InFrame i k := by
  intro h
  rw [h.1.2.1] at hu
  cases hu

theorem inFrame_of_key (h : s.Paged L m) (hk : Key s.ipt.pt.nEntry s.ipt.pt.entries i v p)
    (hp : (s.pc p).fills = none) : s.InFrame i (p, v) := by
  refine ⟨hk, ?_⟩
  intro q hq
  obtain ⟨w, hold⟩ := Pc.hold_of_fills hq
  have hpid : (s.ipt.pt.entries i).pid = q :=
    ((h.order.good.1.fits i).held (q := q) (o := some w) hold).2.2.2.2
  rw [← hpid, hk.2.2.2, hp] at hq
  cases hq

theorem inFrame_unique (h : s.InFrame i j) (h' : s.InFrame i k) : j = k :=
  Prod.ext (h.1.2.2.2.symm.trans h'.1.2.2.2) (h.1.2.2.1.symm.trans h'.1.2.2.1)

theorem filling (h : s.Paged L m) (hm : Move s a u)
    (htag : Retagged none (s.cells.Tagged L) (u.cells.Tagged M)) (hipt : u.ipt = s.ipt)
    (hr : (s.pc s.cur).role = .loading v i) (hi : (s.pc s.cur).fills = some i)
    (hfill : (u.pc s.cur).fills = some i) (hsend : (u.pc s.cur).sends = (s.pc s.cur).sends)
    (hst : u.swap.store = s.swap.store) (hdisk : u.disk = s.disk)
    (hmem : ∀ d, d ≠ i → pageAt u.mem (d * pageSize) = pageAt s.mem (d * pageSize)) :
    Shows (u.Keeps M) u.bytes m := by
  have ho := h.order.good.1
  apply h.shows.congr
  · apply Keeps.congr
    · intro d
      exact inFrame_iff hm ho (by rw [hipt]) (by rw [hipt]; exact .refl _) (by rw [hfill, hi])
    · exact sends_same hm ho hsend
    · exact htag
    · exact hst
  · intro x k hx
    cases x with
    | frame d =>
      apply hmem
      rintro rfl
      exact not_inFrame_of_fills hi k hx
    | outgoing d =>
      obtain ⟨q, x, hq, -⟩ := hx
      apply hmem
      rintro rfl
      exact h.unsent_of_loading hr q x hq
    | cell c =>
      unfold bytes
      rw [hdisk, hm.offset.1]

theorem write (h : s.Paged L m) (hm : Move s a u)
    (htag : Retagged none (s.cells.Tagged L) (u.cells.Tagged M)) (hipt : u.ipt = s.ipt)
    (hpc : u.pc = s.pc) (hswap : u.swap = s.swap) (hdisk : u.disk = s.disk)
    (hk : s.InFrame i k) (hout : ∀ q x, (s.pc q).sends ≠ some (i, x))
    (hmem : ∀ j, j ≠ i → u.bytes (.frame j) = s.bytes (.frame j)) :
    Shows (u.Keeps M) u.bytes (Function.update m k (some (u.bytes (.frame i)))) := by
  have ho := h.order.good.1
  have hx : s.Keeps L (.frame i) k := hk
  apply h.shows.put hx
  · apply Keeps.congr
    · intro j
      exact inFrame_iff hm ho (by rw [hipt]) (by rw [hipt]; exact .refl _) (by rw [hpc])
    · intro q
      rw [hpc]
    · exact htag
    · rw [hswap]
  · intro z j hj hz
    cases z with
    | frame d =>
      apply hmem
      rintro rfl
      exact hj (inFrame_unique hz hk)
    | outgoing d =>
      obtain ⟨q, x, hq, -⟩ := hz
      apply hmem
      rintro rfl
      exact hout q x hq
    | cell c =>
      unfold bytes
      rw [hdisk, hswap]

theorem means_congr (htag : Retagged none (s.cells.Tagged L) (u.cells.Tagged M)) (y : Parcel)
    (k : Nat × Nat) : u.Means M y k ↔ s.Means L y k := by
  cases y with
  | page p v => rfl
  | cell c => exact htag c k.1 k.2

/-- A page leaves its frame: it is given to `store_swap`, for a claim of the frame. -/
theorem evict (h : s.Paged L m) (hm : Move s a u)
    (htag : Retagged none (s.cells.Tagged L) (u.cells.Tagged M))
    (hn : u.ipt.pt.nEntry = s.ipt.pt.nEntry)
    (hE : ∀ j, j ≠ i → SameKey (s.ipt.pt.entries j) (u.ipt.pt.entries j))
    (hfill : ∀ j, j ≠ i → ((u.pc s.cur).fills = some j ↔ (s.pc s.cur).fills = some j))
    (hk : s.InFrame i (p, v)) (hu : ∀ k, ¬ u.InFrame i k) (hcur : (s.pc s.cur).sends = none)
    (hsend : (u.pc s.cur).sends = some (i, .page p v))
    (hst : u.swap.store = s.swap.store) (hmem : u.mem = s.mem) (hdisk : u.disk = s.disk) :
    Shows (u.Keeps M) u.bytes m := by
  have ho := h.order.good.1
  have hx : s.Keeps L (.frame i) (p, v) := hk
  have hsame : ∀ d j, (∃ q x, q ≠ s.cur ∧ (u.pc q).sends = some (d, x) ∧ u.Means M x j) ↔
      s.Keeps L (.outgoing d) j := by
    intro d j
    constructor
    · rintro ⟨q, x, hqc, hq, hmean⟩
      rw [hm.steady ho Pc.steady_sends hqc] at hq
      exact ⟨q, x, hq, (means_congr htag x j).1 hmean⟩
    · rintro ⟨q, x, hq, hmean⟩
      have hqc : q ≠ s.cur := by
        rintro rfl
        rw [hcur] at hq
        cases hq
      refine ⟨q, x, hqc, ?_, (means_congr htag x j).2 hmean⟩
      rw [hm.steady ho Pc.steady_sends hqc]
      exact hq
  apply h.shows.carry (y := .outgoing i) hx (by simp)
  · intro z j hzx hzy
    cases z with
    | frame d =>
      have hd : d ≠ i := fun hd => hzx (by rw [hd])
      exact inFrame_iff hm ho hn (hE d hd) (hfill d hd) j
    | outgoing d =>
      rw [← hsame]
      constructor
      · rintro ⟨q, x, hq, hmean⟩
        refine ⟨q, x, ?_, hq, hmean⟩
        rintro rfl
        rw [hsend] at hq
        cases hq
        exact hzy rfl
      · rintro ⟨q, x, -, hq, hmean⟩
        exact ⟨q, x, hq, hmean⟩
    | cell c => exact and_congr (htag c j.1 j.2) (by rw [hst])
  · intro j
    refine iff_of_false (hu j) ?_
    rintro ⟨hj, hne⟩
    exact hne (inFrame_unique hj hk)
  · intro j
    rw [← hsame]
    constructor
    · rintro ⟨q, x, hq, hmean⟩
      by_cases hqc : q = s.cur
      · rw [hqc, hsend] at hq
        cases hq
        exact .inr hmean
      · exact .inl ⟨q, x, hqc, hq, hmean⟩
    · rintro (⟨q, x, -, hq, hmean⟩ | rfl)
      · exact ⟨q, x, hq, hmean⟩
      · exact ⟨s.cur, _, hsend, rfl⟩
  · intro z j _ _
    exact bytes_same hmem hdisk hm.offset.1 z
  · unfold bytes
    rw [hmem]

theorem store_of_sends (h : s.Paged L m) (hq : (s.pc q).sends = some (i, .cell c)) :
    s.swap.store c = true := by
  cases hpc : s.pc q with
  | storing k j d =>
    rw [hpc] at hq
    cases hq
    exact h.order.store_of_storing hpc
  | _ =>
    rw [hpc] at hq
    cases hq

/-- `store_swap` takes a cell for the page. -/
theorem store (h : s.Paged L m) (hm : Move s a u)
    (htag : Retagged (some (c, some (p, v))) (s.cells.Tagged L) (u.cells.Tagged M))
    (hipt : u.ipt = s.ipt) (hs : (s.pc s.cur).sends = some (i, .page p v))
    (hsend : (u.pc s.cur).sends = some (i, .cell c)) (hfill : (u.pc s.cur).fills = (s.pc s.cur).fills)
    (hfree : c ∈ L .free) (hst : u.swap.store = Function.update s.swap.store c true)
    (hmem : u.mem = s.mem) (hdisk : u.disk = s.disk) : Shows (u.Keeps M) u.bytes m := by
  have ho := h.order.good.1
  have hc : s.swap.store c = false := h.order.kept.free hfree
  have hmeans : ∀ q j x, q ≠ s.cur → (s.pc q).sends = some (j, x) →
      ∀ k, u.Means M x k ↔ s.Means L x k := by
    intro q j x _ hq k
    cases x with
    | page p v => rfl
    | cell d =>
      apply htag.2
      rintro rfl
      have := h.store_of_sends hq
      rw [hc] at this
      cases this
  apply h.shows.congr
  · intro z j
    cases z with
    | frame d => exact inFrame_iff hm ho (by rw [hipt]) (by rw [hipt]; exact .refl _) (by rw [hfill]) j
    | outgoing d =>
      apply exists_congr
      intro q
      by_cases hq : q = s.cur
      · subst hq
        rw [hs, hsend]
        constructor
        · rintro ⟨x, hx, hmean⟩
          cases hx
          refine ⟨_, rfl, ?_⟩
          have hj := (htag.1 j.1 j.2).1 hmean
          cases hj
          rfl
        · rintro ⟨x, hx, hmean⟩
          cases hx
          cases hmean
          exact ⟨_, rfl, (htag.1 p v).2 rfl⟩
      · rw [hm.steady ho Pc.steady_sends hq]
        apply exists_congr
        intro x
        apply and_congr_right
        intro hx
        exact hmeans q d x hq hx j
    | cell d =>
      by_cases hd : d = c
      · subst hd
        refine iff_of_false ?_ ?_
        · intro hk
          have := hk.2
          rw [hst, Function.update_self] at this
          cases this
        · intro hk
          exact h.order.kept.not_tagged hfree hk.1
      · apply and_congr (htag.2 d hd j.1 j.2)
        rw [hst, Function.update_of_ne hd]
  · intro x _ _
    exact bytes_same hmem hdisk hm.offset.1 x

/-- `store_swap` has written the frame to the cell. -/
theorem stored (h : s.Paged L m) (hm : Move s a u)
    (htag : Retagged none (s.cells.Tagged L) (u.cells.Tagged M)) (hipt : u.ipt = s.ipt)
    (hs : (s.pc s.cur).sends = some (i, .cell c)) (hsend : (u.pc s.cur).sends = none)
    (hfill : (u.pc s.cur).fills = (s.pc s.cur).fills)
    (hst : u.swap.store = Function.update s.swap.store c false) (hmem : u.mem = s.mem)
    (hdisk : u.disk = writeAt s.disk (s.swap.offset c) pageSize (s.frame i)) :
    Shows (u.Keeps M) u.bytes m := by
  have ho := h.order.good.1
  have hframe : ∀ d j, u.InFrame d j ↔ s.InFrame d j := fun d j =>
    inFrame_iff hm ho (by rw [hipt]) (by rw [hipt]; exact .refl _) (by rw [hfill]) j
  have hout : ∀ d j, u.Keeps M (.outgoing d) j ↔ s.Keeps L (.outgoing d) j ∧ d ≠ i := by
    intro d j
    constructor
    · rintro ⟨q, x, hq, hmean⟩
      have hqc : q ≠ s.cur := by
        rintro rfl
        rw [hsend] at hq
        cases hq
      rw [hm.steady ho Pc.steady_sends hqc] at hq
      refine ⟨⟨q, x, hq, (means_congr htag x j).1 hmean⟩, ?_⟩
      rintro rfl
      exact hqc (h.sender_unique hq hs)
    · rintro ⟨⟨q, x, hq, hmean⟩, hd⟩
      have hqc : q ≠ s.cur := by
        rintro rfl
        rw [hs] at hq
        cases hq
        exact hd rfl
      refine ⟨q, x, ?_, (means_congr htag x j).2 hmean⟩
      rw [hm.steady ho Pc.steady_sends hqc]
      exact hq
  have hcell : ∀ d j, d ≠ c → (u.Keeps M (.cell d) j ↔ s.Keeps L (.cell d) j) := by
    intro d j hd
    apply and_congr (htag d j.1 j.2)
    rw [hst, Function.update_of_ne hd]
  have hgone : ∀ j, ¬ s.Keeps L (.cell c) j := by
    intro j hk
    have := h.store_of_sends hs
    rw [hk.2] at this
    cases this
  have hnew : ∀ j, u.Keeps M (.cell c) j ↔ s.cells.Tagged L c j.1 j.2 := by
    intro j
    constructor
    · intro hk
      exact (htag c j.1 j.2).1 hk.1
    · intro hk
      refine ⟨(htag c j.1 j.2).2 hk, ?_⟩
      rw [hst, Function.update_self]
  have hbytes : ∀ z j, s.Keeps L z j → z ≠ .cell c → u.bytes z = s.bytes z := by
    intro z j _ hz
    cases z with
    | frame d =>
      unfold bytes
      rw [hmem]
    | outgoing d =>
      unfold bytes
      rw [hmem]
    | cell d =>
      have hdc : c ≠ d := fun hd => hz (by rw [hd])
      funext o
      exact h.order.cellBytes_of_write hdc hm.offset.1 hdisk o o.2
  by_cases hk : ∃ k : Nat × Nat, s.cells.Tagged L c k.1 k.2
  · obtain ⟨k, hk⟩ := hk
    have hx : s.Keeps L (.outgoing i) k := ⟨s.cur, _, hs, hk⟩
    have honly : ∀ j, s.Keeps L (.outgoing i) j → j = k := by
      rintro j ⟨q, x, hq, hmean⟩
      have hqc := h.sender_unique hq hs
      rw [hqc, hs] at hq
      cases hq
      obtain ⟨h1, h2⟩ := h.order.kept.tagged_unique hmean hk
      exact Prod.ext h1 h2
    apply h.shows.carry (y := .cell c) hx (by simp)
    · intro z j hzx hzy
      cases z with
      | frame d => exact hframe d j
      | outgoing d =>
        rw [hout]
        constructor
        · exact fun hz => hz.1
        · exact fun hz => ⟨hz, fun hd => hzx (by rw [hd])⟩
      | cell d => exact hcell d j fun hd => hzy (by rw [hd])
    · intro j
      rw [hout]
      refine iff_of_false (fun hz => hz.2 rfl) ?_
      rintro ⟨hj, hne⟩
      exact hne (honly j hj)
    · intro j
      rw [hnew]
      constructor
      · intro hj
        obtain ⟨h1, h2⟩ := h.order.kept.tagged_unique hj hk
        exact .inr (Prod.ext h1 h2)
      · rintro (hj | rfl)
        · exact (hgone j hj).elim
        · exact hk
    · intro z j _ hz
      apply hbytes z j hz
      rintro rfl
      exact hgone j hz
    · funext o
      unfold bytes pageAt
      rw [hm.offset.1, hdisk]
      exact readAt_writeAt s.disk (s.swap.offset c) pageSize (s.frame i) o o.2
  · apply h.shows.congr
    · intro z j
      cases z with
      | frame d => exact hframe d j
      | outgoing d =>
        rw [hout]
        constructor
        · exact fun hz => hz.1
        · rintro ⟨q, x, hq, hmean⟩
          refine ⟨⟨q, x, hq, hmean⟩, ?_⟩
          rintro rfl
          have hqc := h.sender_unique hq hs
          rw [hqc, hs] at hq
          cases hq
          exact hk ⟨j, hmean⟩
      | cell d =>
        by_cases hd : d = c
        · subst hd
          refine iff_of_false ?_ (hgone j)
          intro hj
          exact hk ⟨j, (hnew j).1 hj⟩
        · exact hcell d j hd
    · intro z j hz
      apply hbytes z j hz
      rintro rfl
      exact hgone j hz

theorem loading_key (h : s.Paged L m) (hr : (s.pc q).role = .loading v i) :
    Key s.ipt.pt.nEntry s.ipt.pt.entries i v q := by
  obtain ⟨hi, ⟨hval, -⟩, hv, hpg, hpid⟩ := (h.order.good.1.fits i).held (q := q) (o := some v) (by
    rw [show s.table.role q = (s.pc q).role from rfl, hr]
    rfl)
  exact ⟨hi, PtEntry.user_iff.2 ⟨hval, hpg ▸ hv.ne_kmallocPage⟩, hpg, hpid⟩

/-- A page has been loaded: what the frame contains is now the page. -/
theorem loaded_frame (h : s.Paged L m) (hm : Move s a u) (hipt : u.ipt = s.ipt)
    (hr : (s.pc s.cur).role = .loading v i) (hfill : (s.pc s.cur).fills = some i)
    (hdone : (u.pc s.cur).fills = none) (d : Nat) (j : Nat × Nat) :
    u.InFrame d j ↔ s.InFrame d j ∨ d = i ∧ j = (s.cur, v) := by
  have ho := h.order.good.1
  have hkey := h.loading_key hr
  by_cases hd : d = i
  · subst hd
    constructor
    · intro hj
      refine .inr ⟨rfl, ?_⟩
      have hj' := hj.1
      rw [hipt] at hj'
      exact Prod.ext (hj'.2.2.2.symm.trans hkey.2.2.2) (hj'.2.2.1.symm.trans hkey.2.2.1)
    · rintro (hj | ⟨-, rfl⟩)
      · exact (not_inFrame_of_fills hfill j hj).elim
      · refine ⟨hipt ▸ hkey, ?_⟩
        intro q hq
        by_cases hqc : q = s.cur
        · rw [hqc, hdone] at hq
          cases hq
        · rw [hm.steady ho Pc.steady_fills hqc] at hq
          obtain ⟨w, hold⟩ := Pc.hold_of_fills hq
          exact hqc (ho.apart.single hold (by
            rw [show s.table.role s.cur = (s.pc s.cur).role from rfl, hr]
            rfl))
  · rw [inFrame_iff hm ho (by rw [hipt]) (by rw [hipt]; exact .refl _)]
    · simp [hd]
    · rw [hfill, hdone]
      refine iff_of_false (by simp) ?_
      intro hi
      cases hi
      exact hd rfl

/-- `load_swap` has read the page from its cell. -/
theorem read (h : s.Paged L m) (hm : Move s a u)
    (htag : Retagged (some (c, none)) (s.cells.Tagged L) (u.cells.Tagged M)) (hipt : u.ipt = s.ipt)
    (hpc : s.pc s.cur = .reading v i c) (hfill : (u.pc s.cur).fills = none)
    (hsend : (u.pc s.cur).sends = none) (hst : u.swap.store = s.swap.store) (hdisk : u.disk = s.disk)
    (hmem : u.mem = writeAt s.mem (i * pageSize) pageSize (s.cellBytes c)) :
    Shows (u.Keeps M) u.bytes m := by
  have ho := h.order.good.1
  have hr : (s.pc s.cur).role = .loading v i := by rw [hpc]; rfl
  have hfills : (s.pc s.cur).fills = some i := by rw [hpc]; rfl
  have hc : s.swap.store c = false := h.order.phase (q := s.cur) (Pc.waits_of_reads (by simp [hpc, Pc.reads]))
  have hx : s.Keeps L (.cell c) (s.cur, v) := by
    refine ⟨.inr ?_, hc⟩
    rw [show s.cells.errand s.cur = (s.pc s.cur).errand from rfl, hpc]
    rfl
  have hmemne : ∀ d, d ≠ i → pageAt u.mem (d * pageSize) = pageAt s.mem (d * pageSize) := by
    intro d hd
    rw [hmem]
    exact pageAt_writeAt_block s.mem _ hd
  apply h.shows.carry (y := .frame i) hx (by simp)
  · intro z j hzx hzy
    cases z with
    | frame d =>
      have hd : d ≠ i := fun hd => hzy (by rw [hd])
      refine (h.loaded_frame hm hipt hr hfills hfill d j).trans ?_
      simp only [hd, false_and, or_false]
      rfl
    | outgoing d =>
      apply exists_congr
      intro q
      rw [sends_same hm ho (by rw [hsend, hpc]; rfl) q]
      apply exists_congr
      intro x
      apply and_congr_right
      intro hq
      cases x with
      | page p w => rfl
      | cell e =>
        apply htag.2
        rintro rfl
        have := h.store_of_sends hq
        rw [hc] at this
        cases this
    | cell d =>
      have hd : d ≠ c := fun hd => hzx (by rw [hd])
      exact and_congr (htag.2 d hd j.1 j.2) (by rw [hst])
  · intro j
    constructor
    · intro hj
      cases (htag.1 j.1 j.2).1 hj.1
    · rintro ⟨hj, hne⟩
      obtain ⟨h1, h2⟩ := h.order.kept.tagged_unique hj.1 hx.1
      exact (hne (Prod.ext h1 h2)).elim
  · intro j
    refine (h.loaded_frame hm hipt hr hfills hfill i j).trans ?_
    simp only [true_and]
    rfl
  · intro z j _ hz
    cases z with
    | frame d =>
      apply hmemne
      rintro rfl
      exact not_inFrame_of_fills hfills j hz
    | outgoing d =>
      obtain ⟨q, x, hq, -⟩ := hz
      apply hmemne
      rintro rfl
      exact h.unsent_of_loading hr q x hq
    | cell d =>
      unfold bytes
      rw [hdisk, hm.offset.1]
  · funext o
    unfold bytes pageAt
    rw [hmem]
    exact readAt_writeAt s.mem (i * pageSize) pageSize (s.cellBytes c) o o.2

theorem built (h : s.Paged L m) (hm : Move s a u)
    (htag : Retagged none (s.cells.Tagged L) (u.cells.Tagged M)) (hipt : u.ipt = s.ipt)
    (hr : (s.pc s.cur).role = .loading v i) (hfill : (s.pc s.cur).fills = some i)
    (hdone : (u.pc s.cur).fills = none) (hsend : (u.pc s.cur).sends = (s.pc s.cur).sends)
    (hst : u.swap.store = s.swap.store) (hdisk : u.disk = s.disk)
    (hmem : ∀ d, d ≠ i → pageAt u.mem (d * pageSize) = pageAt s.mem (d * pageSize))
    (hno : m (s.cur, v) = none) :
    Shows (u.Keeps M) u.bytes (Function.update m (s.cur, v) (some (u.bytes (.frame i)))) := by
  have ho := h.order.good.1
  apply h.shows.gain (h.shows.none_iff.1 hno)
  · intro z j hz
    cases z with
    | frame d =>
      have hd : d ≠ i := fun hd => hz (by rw [hd])
      refine (h.loaded_frame hm hipt hr hfill hdone d j).trans ?_
      simp only [hd, false_and, or_false]
      rfl
    | outgoing d =>
      apply exists_congr
      intro q
      rw [sends_same hm ho hsend q]
      apply exists_congr
      intro x
      rw [means_congr htag x j]
    | cell d => exact and_congr (htag d j.1 j.2) (by rw [hst])
  · intro j
    refine (h.loaded_frame hm hipt hr hfill hdone i j).trans ?_
    simp only [true_and]
    rfl
  · intro z j hz
    cases z with
    | frame d =>
      apply hmem
      rintro rfl
      exact not_inFrame_of_fills hfill j hz
    | outgoing d =>
      obtain ⟨q, x, hq, -⟩ := hz
      apply hmem
      rintro rfl
      exact h.unsent_of_loading hr q x hq
    | cell d =>
      unfold bytes
      rw [hdisk, hm.offset.1]

/-- `free_pages` drops the pages of the running process that are in frames. -/
theorem leave (h : s.Paged L m) (hm : Move s a u)
    (htag : Retagged none (s.cells.Tagged L) (u.cells.Tagged M)) (hpc : (s.pc s.cur).fills = none)
    (hfill : (u.pc s.cur).fills = none) (hsend : (u.pc s.cur).sends = (s.pc s.cur).sends)
    (hfree : s.ipt.freePages s.cur = .ok u.ipt) (hst : u.swap.store = s.swap.store)
    (hmem : u.mem = s.mem) (hdisk : u.disk = s.disk) :
    ∃ m', Shows (u.Keeps M) u.bytes m' ∧ ∀ p v, p ≠ s.cur → m' (p, v) = m (p, v) := by
  classical
  have ho := h.order.good.1
  have hframe : ∀ d j, u.InFrame d j ↔ s.InFrame d j ∧ j.1 ≠ s.cur := by
    intro d j
    unfold InFrame
    rw [key_freePages hfree, and_right_comm]
    apply and_congr_left
    intro _
    apply and_congr_right
    intro _
    apply forall_congr'
    intro q
    by_cases hq : q = s.cur
    · rw [hq, hpc, hfill]
    · rw [hm.steady ho Pc.steady_fills hq]
  let G : Nat × Nat → Prop := fun j => j.1 = s.cur ∧ ∃ d, s.InFrame d j
  have hG : ∀ z j, (∀ d, z ≠ .frame d) → s.Keeps L z j → ¬ G j := by
    rintro z j hz hj ⟨-, d, hd⟩
    exact hz d (h.shows.once hj (show s.Keeps L (.frame d) j from hd))
  have hdrop : Shows (u.Keeps M) u.bytes fun j => if G j then none else m j := by
    apply h.shows.drop
    · intro z j
      cases z with
      | frame d =>
        refine (hframe d j).trans ?_
        constructor
        · rintro ⟨hj, hne⟩
          exact ⟨hj, fun hg => hne hg.1⟩
        · rintro ⟨hj, hg⟩
          exact ⟨hj, fun he => hg ⟨he, d, hj⟩⟩
      | outgoing d =>
        have hiff : u.Keeps M (.outgoing d) j ↔ s.Keeps L (.outgoing d) j := by
          apply exists_congr
          intro q
          rw [sends_same hm ho hsend q]
          apply exists_congr
          intro x
          rw [means_congr htag x j]
        rw [hiff]
        constructor
        · intro hj
          exact ⟨hj, hG _ j (by simp) hj⟩
        · exact fun hj => hj.1
      | cell d =>
        have hiff : u.Keeps M (.cell d) j ↔ s.Keeps L (.cell d) j :=
          and_congr (htag d j.1 j.2) (by rw [hst])
        rw [hiff]
        constructor
        · intro hj
          exact ⟨hj, hG _ j (by simp) hj⟩
        · exact fun hj => hj.1
    · intro z j _ _
      exact bytes_same hmem hdisk hm.offset.1 z
  refine ⟨_, hdrop, ?_⟩
  intro p v hp
  rw [if_neg]
  rintro ⟨he, -⟩
  exact hp he

/-- `remove_process_from_swap` frees a cell. -/
theorem freed (h : s.Paged L m) (hm : Move s a u)
    (htag : Retagged (some (c, none)) (s.cells.Tagged L) (u.cells.Tagged M)) (hipt : u.ipt = s.ipt)
    (hfill : (u.pc s.cur).fills = (s.pc s.cur).fills) (hsend : (u.pc s.cur).sends = (s.pc s.cur).sends)
    (hc : s.swap.store c = false) (hown : ∀ p v, s.cells.Tagged L c p v → p = s.cur)
    (hst : u.swap.store = s.swap.store) (hmem : u.mem = s.mem) (hdisk : u.disk = s.disk) :
    ∃ m', Shows (u.Keeps M) u.bytes m' ∧ ∀ p v, p ≠ s.cur → m' (p, v) = m (p, v) := by
  classical
  have ho := h.order.good.1
  let G : Nat × Nat → Prop := fun j => s.cells.Tagged L c j.1 j.2
  have hG : ∀ z j, z ≠ .cell c → s.Keeps L z j → ¬ G j := by
    intro z j hz hj hg
    exact hz (h.shows.once hj (show s.Keeps L (.cell c) j from ⟨hg, hc⟩))
  have hdrop : Shows (u.Keeps M) u.bytes fun j => if G j then none else m j := by
    apply h.shows.drop
    · intro z j
      cases z with
      | frame d =>
        have hiff : u.InFrame d j ↔ s.InFrame d j :=
          inFrame_iff hm ho (by rw [hipt]) (by rw [hipt]; exact .refl _) (by rw [hfill]) j
        refine hiff.trans ?_
        constructor
        · intro hj
          exact ⟨hj, hG (.frame d) j (by simp) hj⟩
        · exact fun hj => hj.1
      | outgoing d =>
        have hiff : u.Keeps M (.outgoing d) j ↔ s.Keeps L (.outgoing d) j := by
          apply exists_congr
          intro q
          rw [sends_same hm ho hsend q]
          apply exists_congr
          intro x
          apply and_congr_right
          intro hq
          cases x with
          | page p w => rfl
          | cell e =>
            apply htag.2
            rintro rfl
            have := h.store_of_sends hq
            rw [hc] at this
            cases this
        rw [hiff]
        constructor
        · intro hj
          exact ⟨hj, hG _ j (by simp) hj⟩
        · exact fun hj => hj.1
      | cell d =>
        by_cases hd : d = c
        · subst hd
          refine iff_of_false ?_ ?_
          · intro hj
            cases (htag.1 j.1 j.2).1 hj.1
          · exact fun hj => hj.2 hj.1.1
        · have hiff : u.Keeps M (.cell d) j ↔ s.Keeps L (.cell d) j :=
            and_congr (htag.2 d hd j.1 j.2) (by rw [hst])
          rw [hiff]
          constructor
          · intro hj
            exact ⟨hj, hG _ j (by simp [hd]) hj⟩
          · exact fun hj => hj.1
    · intro z j _ _
      exact bytes_same hmem hdisk hm.offset.1 z
  refine ⟨_, hdrop, ?_⟩
  intro p v hp
  rw [if_neg]
  exact fun hg => hp (hown p v hg)

/-- `copy_swap_pages` has written a page of the parent to the cell of the child. -/
theorem copiedCell (h : s.Paged L m) (hm : Move s a u)
    (htag : Retagged (some (f, some (r, v))) (s.cells.Tagged L) (u.cells.Tagged M))
    (hipt : u.ipt = s.ipt) (hfill : (u.pc s.cur).fills = (s.pc s.cur).fills)
    (hsend : (u.pc s.cur).sends = (s.pc s.cur).sends) (hf : s.swap.store f = false)
    (hold : ∀ p w, ¬ s.cells.Tagged L f p w) (hst : u.swap.store = s.swap.store)
    (hmem : u.mem = s.mem) (hdisk : u.disk = writeAt s.disk (s.swap.offset f) pageSize s.kbuf)
    (hno : m (r, v) = none) :
    Shows (u.Keeps M) u.bytes (Function.update m (r, v) (some (pageAt s.kbuf 0))) := by
  have ho := h.order.good.1
  have hbuf : u.bytes (.cell f) = pageAt s.kbuf 0 := by
    unfold bytes
    rw [hm.offset.1, hdisk]
    exact pageAt_writeAt_self ..
  rw [← hbuf]
  apply h.shows.gain (h.shows.none_iff.1 hno)
  · intro z j hz
    cases z with
    | frame d => exact inFrame_iff hm ho (by rw [hipt]) (by rw [hipt]; exact .refl _) (by rw [hfill]) j
    | outgoing d =>
      apply exists_congr
      intro q
      rw [sends_same hm ho hsend q]
      apply exists_congr
      intro x
      apply and_congr_right
      intro hq
      cases x with
      | page p w => rfl
      | cell e =>
        apply htag.2
        rintro rfl
        have := h.store_of_sends hq
        rw [hf] at this
        cases this
    | cell d =>
      have hd : d ≠ f := fun hd => hz (by rw [hd])
      exact and_congr (htag.2 d hd j.1 j.2) (by rw [hst])
  · intro j
    constructor
    · intro hj
      have hj := (htag.1 j.1 j.2).1 hj.1
      cases hj
      exact .inr rfl
    · rintro (hj | rfl)
      · exact (hold _ _ hj.1).elim
      · exact ⟨(htag.1 r v).2 rfl, by rw [hst]; exact hf⟩
  · intro z j hz
    cases z with
    | cell d =>
      have hd : f ≠ d := by
        rintro rfl
        exact hold _ _ hz.1
      funext o
      exact h.order.cellBytes_of_write hd hm.offset.1 hdisk o o.2
    | _ =>
      unfold bytes
      rw [hmem]

/-- `copy_pt_entries` gives a page of the parent to `store_swap`, for the child. -/
theorem copySent (h : s.Paged L m) (hm : Move s a u)
    (htag : Retagged none (s.cells.Tagged L) (u.cells.Tagged M)) (hipt : u.ipt = s.ipt)
    (hfill : (u.pc s.cur).fills = (s.pc s.cur).fills) (hs : (s.pc s.cur).sends = none)
    (hsend : (u.pc s.cur).sends = some (i, .page r v)) (hst : u.swap.store = s.swap.store)
    (hmem : u.mem = s.mem) (hdisk : u.disk = s.disk) (hno : m (r, v) = none) :
    Shows (u.Keeps M) u.bytes (Function.update m (r, v) (some (s.bytes (.frame i)))) := by
  have ho := h.order.good.1
  have hbytes := bytes_same hmem hdisk hm.offset.1
  rw [show s.bytes (.frame i) = u.bytes (.outgoing i) from (hbytes (.outgoing i)).symm]
  have hother : ∀ q, q ≠ s.cur → ∀ d x, (u.pc q).sends = some (d, x) ↔ (s.pc q).sends = some (d, x) := by
    intro q hq d x
    rw [hm.steady ho Pc.steady_sends hq]
  apply h.shows.gain (h.shows.none_iff.1 hno)
  · intro z j hz
    cases z with
    | frame d => exact inFrame_iff hm ho (by rw [hipt]) (by rw [hipt]; exact .refl _) (by rw [hfill]) j
    | outgoing d =>
      constructor
      · rintro ⟨q, x, hq, hmean⟩
        by_cases hqc : q = s.cur
        · rw [hqc, hsend] at hq
          cases hq
          exact (hz rfl).elim
        · exact ⟨q, x, (hother q hqc d x).1 hq, (means_congr htag x j).1 hmean⟩
      · rintro ⟨q, x, hq, hmean⟩
        have hqc : q ≠ s.cur := by
          rintro rfl
          rw [hs] at hq
          cases hq
        exact ⟨q, x, (hother q hqc d x).2 hq, (means_congr htag x j).2 hmean⟩
    | cell d => exact and_congr (htag d j.1 j.2) (by rw [hst])
  · intro j
    constructor
    · rintro ⟨q, x, hq, hmean⟩
      by_cases hqc : q = s.cur
      · rw [hqc, hsend] at hq
        cases hq
        exact .inr hmean
      · exact .inl ⟨q, x, (hother q hqc i x).1 hq, (means_congr htag x j).1 hmean⟩
    · rintro (⟨q, x, hq, hmean⟩ | rfl)
      · have hqc : q ≠ s.cur := by
          rintro rfl
          rw [hs] at hq
          cases hq
        exact ⟨q, x, (hother q hqc i x).2 hq, (means_congr htag x j).2 hmean⟩
      · exact ⟨s.cur, _, hsend, rfl⟩
  · intro z _ _
    exact hbytes z

/-- `copy_pt_entries` copies a page of the parent to a free frame. -/
theorem copiedFrame (h : s.Paged L m) (hm : Move s a u)
    (htag : Retagged none (s.cells.Tagged L) (u.cells.Tagged M))
    (hn : u.ipt.pt.nEntry = s.ipt.pt.nEntry)
    (hE : ∀ j, j ≠ i → SameKey (s.ipt.pt.entries j) (u.ipt.pt.entries j))
    (hfill : (u.pc s.cur).fills = (s.pc s.cur).fills)
    (hsend : (u.pc s.cur).sends = (s.pc s.cur).sends) (he : (s.ipt.pt.entries i).Idle)
    (hold : (s.ipt.pt.entries i).user = false)
    (hkey : Key u.ipt.pt.nEntry u.ipt.pt.entries i v r) (hst : u.swap.store = s.swap.store)
    (hdisk : u.disk = s.disk) (hmem : u.mem = writeAt s.mem (i * pageSize) pageSize b)
    (hno : m (r, v) = none) :
    Shows (u.Keeps M) u.bytes (Function.update m (r, v) (some (pageAt b 0))) := by
  have ho := h.order.good.1
  have hbuf : u.bytes (.frame i) = pageAt b 0 := by
    unfold bytes
    rw [hmem]
    exact pageAt_writeAt_self ..
  rw [← hbuf]
  have hmemne : ∀ d, d ≠ i → pageAt u.mem (d * pageSize) = pageAt s.mem (d * pageSize) := by
    intro d hd
    rw [hmem]
    exact pageAt_writeAt_block s.mem _ hd
  have hunfilled : ∀ q, (u.pc q).fills ≠ some i := by
    intro q hq
    have hq' : (s.pc q).fills = some i := by
      by_cases hqc : q = s.cur
      · rw [hqc] at hq ⊢
        rw [← hfill]
        exact hq
      · rw [← hm.steady ho Pc.steady_fills hqc]
        exact hq
    obtain ⟨w, hold'⟩ := Pc.hold_of_fills hq'
    exact (ho.fits i).not_held_of_io he.1 q (some w) hold'
  apply h.shows.gain (h.shows.none_iff.1 hno)
  · intro z j hz
    cases z with
    | frame d =>
      have hd : d ≠ i := fun hd => hz (by rw [hd])
      exact inFrame_iff hm ho hn (hE d hd) (by rw [hfill]) j
    | outgoing d =>
      apply exists_congr
      intro q
      rw [sends_same hm ho hsend q]
      apply exists_congr
      intro x
      rw [means_congr htag x j]
    | cell d => exact and_congr (htag d j.1 j.2) (by rw [hst])
  · intro j
    constructor
    · intro hj
      exact .inr (inFrame_unique hj ⟨hkey, hunfilled⟩)
    · rintro (hj | rfl)
      · exact (not_inFrame_of_user hold j hj).elim
      · exact ⟨hkey, hunfilled⟩
  · intro z j hz
    cases z with
    | frame d =>
      apply hmemne
      rintro rfl
      exact not_inFrame_of_user hold j hz
    | outgoing d =>
      obtain ⟨q, x, hq, -⟩ := hz
      apply hmemne
      rintro rfl
      exact h.unsent_of_idle he q x hq
    | cell d =>
      unfold bytes
      rw [hdisk, hm.offset.1]

theorem slot_frame (h : s.Paged L m) (hpc : s.pc s.cur = .run) (has : (s.as s.cur).isSome = true)
    (hk : k < numTlb) (hx : s.mmu.slots k = some x) : s.InFrame x.frame (s.cur, x.vpage) := by
  have hcur : s.mmu.previousPid = s.cur := h.cached.current has
  have hact : s.table.hasAs s.mmu.previousPid = true ∧
      (s.table.role s.mmu.previousPid).active = true := by
    rw [hcur]
    refine ⟨has, ?_⟩
    rw [show s.table.role s.cur = (s.pc s.cur).role from rfl, hpc]
    rfl
  have hkey := (h.cached.coherent.strict hact hk hx).1
  rw [show s.table.mmu.previousPid = s.cur from hcur] at hkey
  exact h.inFrame_of_key hkey (by rw [hpc]; rfl)

theorem rest_chain (h : s.Paged L m) (hc : c ∈ L k) :
    ∃ R, Chain s.swap.lists.next (s.swap.lists.next c) R ∧ ∀ d ∈ R, d ∈ L k := by
  obtain ⟨A, R, hk⟩ := List.append_of_mem hc
  have hchain := h.order.kept.rep.chain k
  rw [hk] at hchain
  refine ⟨R, hchain.after, ?_⟩
  intro d hd
  rw [hk]
  simp [hd]

end Paged

end Sys

end Clape
