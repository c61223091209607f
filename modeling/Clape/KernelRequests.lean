import Clape.KernelFrames

namespace Clape
set_option autoImplicit true

/-- A fault that is asleep in the `store_swap` of `find_victim`: the page it claimed a frame for,
whose key is not in the hash table yet. -/
structure Victim where
  vaddr : Nat
  pid : Nat
  index : Nat
  deriving DecidableEq

/-- `find_victim` up to the call of `store_swap`, to its end when there is no page to store, or to
the wait on `pt_cv`. -/
def Ipt.beginVictim (s : Ipt) (ws : List Victim) (start v p : Nat) :
    Except Fault (Ipt × List Victim) :=
  match s.pt.seekVictim start with
  | (E, none) => .ok ({ s with pt := { s.pt with entries := E } }, ws)
  | (E, some i) => do
    match ← ({ s with pt := { s.pt with entries := E } } : Ipt).claimVictim v p i with
    | (s₁, some (ov, op)) =>
      return ({ s₁ with stores := s₁.stores ++ [⟨ov, op, i⟩] }, ⟨v, p, i⟩ :: ws)
    | (s₁, none) =>
      let s₂ ← s₁.hashVictim v p i
      return (s₂, ws)

/-- `get_page` up to the place where it first sleeps: in `load_page` for a free frame, or in
`find_victim`. -/
def Ipt.beginPage (s : Ipt) (ws : List Victim) (v p : Nat) : Except Fault (Ipt × List Victim) := do
  match ← s.ptGetPaddr v p with
  | (s₁, some _) => return (s₁, ws)
  | (s₁, none) =>
    match s₁.pt.findspace with
    | some i =>
      let s₂ ← s₁.claimSpace v p i
      return (s₂, ws)
    | none => s₁.beginVictim ws s₁.pt.lastIndex v p

/-- What the processes do with the page table between two sleeps. -/
inductive UserOp where
  | beginPage (v p : Nat)
  | resumeVictim (start v p : Nat)
  | victimStored (w : Victim)
  | pageLoaded (i : Nat)
  | freePages (p : Nat)
  | updateTlbBit (v p : Nat)
  | prepareCopyPt (p : Nat)
  | copyPage (old new i : Nat)
  | endCopyPt (p : Nat)

def UserOp.exec (s : Ipt) (ws : List Victim) : UserOp → Except Fault (Ipt × List Victim)
  | .beginPage v p => s.beginPage ws v p
  | .resumeVictim start v p => s.beginVictim ws start v p
  | .victimStored w => (fun t => (t, ws.filter (· != w))) <$> s.hashVictim w.vaddr w.pid w.index
  | .pageLoaded i => .ok ({ s with pt := s.pt.pageLoaded i }, ws)
  | .freePages p => (fun t => (t, ws)) <$> s.freePages p
  | .updateTlbBit v p => (fun pt => ({ s with pt := pt }, ws)) <$> s.pt.updateTlbBit v p
  | .prepareCopyPt p => (fun pt => ({ s with pt := pt }, ws)) <$> s.pt.prepareCopyPt p
  | .copyPage old new i => (fun t => (t, ws)) <$> s.copyPage old new i
  | .endCopyPt p => (fun pt => ({ s with pt := pt }, ws)) <$> s.pt.endCopyPt p

/-- What the callers provide: user addresses and pids; a key that is looked for in vain, which only
the process itself can add and not while it sleeps; a frame whose page has been loaded; a process
that forks, so that it is in no fault. -/
def UserOp.Pre (s : Ipt) (ws : List Victim) : UserOp → Prop
  | .beginPage v p => UserAddr v ∧ PidOk p
  | .resumeVictim _ v p => UserAddr v ∧ PidOk p ∧ s.ht.getIndexFromHash v p = .ok none
  | .victimStored w => w ∈ ws ∧ s.ht.getIndexFromHash w.vaddr w.pid = .ok none
  | .pageLoaded i => (s.pt.entries i).user = true ∧ (s.pt.entries i).ctrl.io = true ∧
    ∀ w ∈ ws, w.index ≠ i
  | .copyPage old new i => i < s.pt.nEntry ∧ PidOk new ∧ (∀ w ∈ ws, w.pid ≠ old) ∧
    s.ht.getIndexFromHash (s.pt.entries i).page new = .ok none
  | _ => True

/-- The frames of the kernel and the lengths of its blocks are left alone. -/
def KeepsKernel (s t : Ipt) : Prop :=
  t.pt.contiguous = s.pt.contiguous ∧
    ∀ j, (s.pt.entries j).page = kmallocPage → SameButRef (s.pt.entries j) (t.pt.entries j)

theorem KeepsKernel.refl (s : Ipt) : KeepsKernel s s := ⟨rfl, fun _ _ => .refl _⟩

theorem KeepsKernel.trans (h : KeepsKernel s t) (h' : KeepsKernel t u) : KeepsKernel s u := by
  apply And.intro (h'.1.trans h.1)
  intro j hj
  have hst := h.2 j hj
  have htu : SameButRef (t.pt.entries j) (u.pt.entries j) := by
    apply h'.2 j
    obtain ⟨b, hb⟩ := hst
    rw [hb]
    exact hj
  exact hst.trans htu

theorem KeepsKernel.set (h : KeepsKernel s t) (hc : u.pt.contiguous = t.pt.contiguous)
    (hu : u.pt.entries = Function.update t.pt.entries i e)
    (hi : (t.pt.entries i).page ≠ kmallocPage) : KeepsKernel s u := by
  apply h.trans
  apply And.intro hc
  intro j hj
  have hji : j ≠ i := by
    intro he
    exact hi (he ▸ hj)
  rw [hu, Function.update_of_ne hji]
  exact .refl _

theorem KeepsKernel.seekVictim (s : Ipt) (start : Nat) :
    KeepsKernel s { s with pt := { s.pt with entries := (s.pt.seekVictim start).1 } } :=
  ⟨rfl, fun j _ => (victimSweep_spec s.pt.entries _).1 j⟩

section UserOperations
variable {s t : Ipt}

theorem claimVictim_keeps (h : KeepsKernel s t) (hr : t.claimVictim v p i = .ok r) :
    KeepsKernel s r.1 ∧ (r.1.pt.entries i).page = v := by
  simp only [Ipt.claimVictim, bind_ok, kassert_ok, bne_iff_ne] at hr
  obtain ⟨_, -, _, -, _, -, _, hpg, hr⟩ := hr
  split at hr
  · obtain ⟨ht, -, hr⟩ := bind_ok.1 hr
    cases hr
    exact ⟨h.set rfl rfl hpg, by simp [PageTable.set, PtEntry.claim]⟩
  · cases hr
    exact ⟨h.set rfl rfl hpg, by simp [PageTable.set, PtEntry.claim]⟩

theorem hashVictim_pt (hr : t.hashVictim v p i = .ok u) :
    u.pt.entries = t.pt.entries ∧ u.pt.contiguous = t.pt.contiguous := by
  obtain ⟨ht, -, hr⟩ := bind_ok.1 hr
  cases hr
  exact ⟨rfl, rfl⟩

theorem ptGetPaddr_keeps (hr : s.ptGetPaddr v p = .ok (t, o)) : KeepsKernel s t := by
  obtain ⟨o, -, hr⟩ := bind_ok.1 hr
  cases o with
  | none =>
    cases hr
    exact .refl s
  | some i =>
    simp only [bind_ok, kassert_ok, bne_iff_ne] at hr
    obtain ⟨_, -, _, -, _, hpg, _, -, _, -, hr⟩ := hr
    cases hr
    exact (KeepsKernel.refl s).set rfl rfl hpg

theorem claimSpace_keeps (hi : t.pt.findspace = some i) (hr : t.claimSpace v p i = .ok u) :
    KeepsKernel t u ∧ (u.pt.entries i).page = v := by
  obtain ⟨ht, -, hr⟩ := bind_ok.1 hr
  cases hr
  have hsp := (PageTable.findspace_some hi).2
  simp only [PtEntry.isSpace, Bool.and_eq_true, bne_iff_ne] at hsp
  exact ⟨(KeepsKernel.refl t).set rfl rfl hsp.2, by simp [PageTable.set, PtEntry.claim]⟩

theorem freePage_keeps (p i : Nat) (h : KeepsKernel s t) :
    Sound (fun _ => True) (KeepsKernel s) (t.freePage p i) := by
  apply Sound.intro _ (fun _ _ => trivial)
  intro u hr
  unfold Ipt.freePage at hr
  simp only at hr
  split at hr
  · simp only [bind_ok, kassert_ok, bne_iff_ne] at hr
    obtain ⟨_, -, _, hpg, _, -, ht, -, hr⟩ := hr
    cases hr
    exact h.set rfl rfl hpg
  · cases hr
    exact h

theorem updateTlbBit_keeps (hr : s.pt.updateTlbBit v p = .ok pt) :
    KeepsKernel s { s with pt := pt } := by
  unfold PageTable.updateTlbBit at hr
  split at hr
  · cases hr
    exact .refl s
  · simp only [bind_ok, kassert_ok, bne_iff_ne] at hr
    obtain ⟨_, hpg, _, -, hr⟩ := hr
    cases hr
    exact (KeepsKernel.refl s).set rfl rfl hpg

theorem markCopy_keeps (p : Nat) (b : Bool) (f : Fn) (c : Cond) (ok : PtEntry → Bool) :
    Sound (fun _ => True) (fun pt => KeepsKernel s { s with pt := pt })
      (s.pt.markCopy p b f c ok) := by
  apply Sound.foldlM (P := fun pt => KeepsKernel s { s with pt := pt }) (.refl s)
  intro i _ pt hpt
  apply Sound.intro _ (fun _ _ => trivial)
  intro pt' hr
  split at hr
  · rename_i hc
    rw [Bool.and_eq_true] at hc
    obtain ⟨_, -, hr⟩ := bind_ok.1 hr
    cases hr
    exact hpt.set rfl rfl (PtEntry.user_iff.1 hc.2).2
  · cases hr
    exact hpt

theorem copyPage_keeps (old new i : Nat) (h : KeepsKernel s t) :
    Sound (fun _ => True) (KeepsKernel s) (t.copyPage old new i) := by
  apply Sound.intro _ (fun _ _ => trivial)
  intro u hr
  unfold Ipt.copyPage at hr
  simp only at hr
  split at hr
  · split at hr
    · obtain ⟨_, -, hr⟩ := bind_ok.1 hr
      cases hr
      exact h
    · rename_i pos hpos
      have hsp := (PageTable.findspace_some hpos).2
      simp only [PtEntry.isSpace, Bool.and_eq_true, bne_iff_ne] at hsp
      simp only [Ipt.copyEntry, bind_ok] at hr
      obtain ⟨ht, -, _, -, _, -, _, -, _, -, hr⟩ := hr
      cases hr
      exact h.set rfl rfl hsp.2
  · cases hr
    exact h

end UserOperations

/-- The entry of a frame that a fault claimed, while the old page is being stored. -/
def Victim.Claims (w : Victim) (e : PtEntry) : Prop :=
  e.page = w.vaddr ∧ e.pid = w.pid ∧ e.ctrl.validity = true ∧ e.ctrl.io = true ∧
    e.ctrl.tlb = false ∧ e.ctrl.swap = false

theorem Victim.Claims.sameButRef {w : Victim} (h : w.Claims e) (hs : SameButRef e e') :
    w.Claims e' := by
  obtain ⟨b, rfl⟩ := hs
  exact h

/-- The page table while some faults store the pages of their victims: without the claimed frames it
agrees with the hash table. -/
structure Faulting (N : Nat) (s : Ipt) (ws : List Victim) : Prop where
  inv : Ipt.Inv N (s.hide (ws.map (·.index)))
  claimed : ∀ w ∈ ws, w.index < N ∧ UserAddr w.vaddr ∧ PidOk w.pid ∧
    w.Claims (s.pt.entries w.index)
  apart : ∀ w ∈ ws, ∀ w' ∈ ws, w.index = w'.index → w = w'

namespace Faulting

theorem nEntry (h : Faulting N s ws) : s.pt.nEntry = N := h.inv.nEntry

theorem io (h : Faulting N s ws) (hi : i ∈ ws.map (·.index)) :
    ∃ w ∈ ws, w.Claims (s.pt.entries i) := by
  obtain ⟨w, hw, rfl⟩ := List.mem_map.1 hi
  exact ⟨w, hw, (h.claimed w hw).2.2.2⟩

theorem not_hidden (h : Faulting N s ws) (hio : (s.pt.entries i).ctrl.io = false) :
    i ∉ ws.map (·.index) := by
  intro hi
  obtain ⟨w, -, hw⟩ := h.io hi
  rw [hw.2.2.2.1] at hio
  cases hio

/-- No fault has claimed a frame of the kernel. -/
theorem not_kernel (h : Faulting N s ws) (hpg : (s.pt.entries i).page = kmallocPage) :
    i ∉ ws.map (·.index) := by
  intro hi
  obtain ⟨w, hw, rfl⟩ := List.mem_map.1 hi
  obtain ⟨-, hv, -, hpg', -⟩ := h.claimed w hw
  exact hv.ne_kmallocPage (hpg'.symm.trans hpg)

theorem keeps (h : Faulting N s ws) (hinv : Ipt.Inv N (t.hide (ws.map (·.index))))
    (hE : ∀ i ∈ ws.map (·.index), SameButRef (s.pt.entries i) (t.pt.entries i)) :
    Faulting N t ws where
  inv := hinv
  claimed w hw := by
    obtain ⟨h1, h2, h3, h4⟩ := h.claimed w hw
    exact ⟨h1, h2, h3, h4.sameButRef (hE w.index (List.mem_map_of_mem hw))⟩
  apart := h.apart

theorem sameButRef {t : Ipt} (h : Faulting N s ws) (hn : t.pt.nEntry = s.pt.nEntry)
    (hht : t.ht = s.ht) (hE : ∀ i, SameButRef (s.pt.entries i) (t.pt.entries i)) :
    Faulting N t ws :=
  h.keeps (h.inv.hide_sameKey hn hht fun i _ => (hE i).sameKey) fun i _ => hE i

theorem congr (h : Faulting N s ws) (hw : ∀ w, w ∈ ws' ↔ w ∈ ws) : Faulting N s ws' where
  inv := by
    have hl : s.hide (ws'.map (·.index)) = s.hide (ws.map (·.index)) := by
      simp only [Ipt.hide, List.mem_map, hw]
    rw [hl]
    exact h.inv
  claimed w hw' := h.claimed w ((hw w).1 hw')
  apart w h1 w' h2 := h.apart w ((hw w).1 h1) w' ((hw w').1 h2)

theorem set_inv {ht : HashTable} {st : List StoreCall} (h : Faulting N s ws)
    (hi : i ∉ ws.map (·.index))
    (hinv : Ipt.Inv N (Ipt.hide ⟨s.pt.set i e, ht, st⟩ (ws.map (·.index)))) :
    Faulting N ⟨s.pt.set i e, ht, st⟩ ws := by
  apply h.keeps hinv
  intro j hj
  have hji : j ≠ i := fun he => hi (he ▸ hj)
  simp only [PageTable.set, Function.update_of_ne hji]
  exact .refl _

theorem set (h : Faulting N s ws) (hi : i ∉ ws.map (·.index)) (he : SameKey (s.pt.entries i) e)
    (st : List StoreCall) : Faulting N ⟨s.pt.set i e, s.ht, st⟩ ws := by
  apply h.set_inv hi
  refine h.inv.hide_sameKey (t := ⟨s.pt.set i e, s.ht, st⟩) rfl rfl ?_
  intro j _
  by_cases hj : j = i
  · subst hj
    simpa only [PageTable.set, Function.update_self] using he
  · simpa only [PageTable.set, Function.update_of_ne hj] using SameKey.refl _

theorem remove (h : Faulting N s ws) (hin : i < N) (hi : i ∉ ws.map (·.index))
    (hu : (s.pt.entries i).user = true) (he : e.user = false)
    (hr : s.ht.removeFromHash (s.pt.entries i).page (s.pt.entries i).pid = .ok ht)
    (st : List StoreCall) : Faulting N ⟨s.pt.set i e, ht, st⟩ ws := by
  obtain ⟨ht', hht, hinv⟩ := h.inv.hide_remove hin hi hu
  rw [hr] at hht
  cases hht
  exact h.set_inv hi (hinv e st he)

theorem add (h : Faulting N s ws) (hin : i < N) (hi : i ∉ ws.map (·.index))
    (hu : (s.pt.entries i).user = false) (he : e.user = true) (hv : UserAddr e.page)
    (hp : PidOk e.pid) (hnew : s.ht.getIndexFromHash e.page e.pid = .ok none)
    (hr : s.ht.addInHash e.page e.pid i = .ok ht) (st : List StoreCall) :
    Faulting N ⟨s.pt.set i e, ht, st⟩ ws := by
  apply h.set_inv hi
  rw [s.hide_set hi]
  obtain ⟨L, hL⟩ := h.inv.rep
  have hk : (s.hide (ws.map (·.index))).pt.keys i = none :=
    PageTable.keys_of_not_user (by rw [s.hide_entries hi]; exact hu)
  have hfresh : ∀ j, (s.hide (ws.map (·.index))).pt.keys j ≠ some (e.page, e.pid) := by
    obtain ⟨j, hj, -⟩ | ⟨-, hno⟩ := hL.getIndexFromHash_iff.1 hnew
    · cases hj
    · exact hno
  have hadd := (addInHash_claimed s.ht h.inv hin rfl ⟨L, by
    rw [← hk, Function.update_eq_self]
    exact hL⟩ hfresh).ok hr
  exact (h.inv.insert hin he hv hp hadd.1 hadd.2.1 hadd.2.2).stores st

theorem claim (h : Faulting N s ws) (hin : w.index < N) (hi : w.index ∉ ws.map (·.index))
    (hv : UserAddr w.vaddr) (hp : PidOk w.pid) (he : w.Claims e)
    (hinv : Ipt.Inv N (Ipt.hide ⟨s.pt.set w.index e.hidden, ht, st⟩ (ws.map (·.index)))) :
    Faulting N ⟨s.pt.set w.index e, ht, st⟩ (w :: ws) where
  inv := by
    refine hinv.congr rfl ?_ rfl
    funext j
    by_cases hj : j = w.index
    · subst hj
      simp only [Ipt.hide, PageTable.set, Function.update_self, hi, if_false, List.map_cons,
        List.mem_cons_self, if_true]
    · simp only [Ipt.hide, PageTable.set, Function.update_of_ne hj, List.map_cons, List.mem_cons, hj,
        false_or]
  claimed w' hw' := by
    cases List.mem_cons.1 hw' with
    | inl heq =>
      subst heq
      exact ⟨hin, hv, hp, by simpa [PageTable.set] using he⟩
    | inr hw' =>
      obtain ⟨h1, h2, h3, h4⟩ := h.claimed w' hw'
      have hne : w'.index ≠ w.index := fun he => hi (he ▸ List.mem_map_of_mem hw')
      exact ⟨h1, h2, h3, by simpa [PageTable.set, hne] using h4⟩
  apart w₁ h₁ w₂ h₂ heq := by
    cases List.mem_cons.1 h₁ with
    | inl h₁ =>
      cases List.mem_cons.1 h₂ with
      | inl h₂ => rw [h₁, h₂]
      | inr h₂ => exact (hi (h₁ ▸ heq ▸ List.mem_map_of_mem h₂)).elim
    | inr h₁ =>
      cases List.mem_cons.1 h₂ with
      | inl h₂ => exact (hi (h₂ ▸ heq ▸ List.mem_map_of_mem h₁)).elim
      | inr h₂ => exact h.apart w₁ h₁ w₂ h₂ heq

theorem hash (h : Faulting N s (w :: ws)) (hws : w ∉ ws)
    (hnew : s.ht.getIndexFromHash w.vaddr w.pid = .ok none)
    (hr : s.hashVictim w.vaddr w.pid w.index = .ok t) : Faulting N t ws := by
  obtain ⟨hin, hv, hp, hpg, hpid, hval, -⟩ := h.claimed w List.mem_cons_self
  have hout : w.index ∉ ws.map (·.index) := by
    intro hi
    obtain ⟨w', hw', heq⟩ := List.mem_map.1 hi
    exact hws (h.apart w' (List.mem_cons_of_mem _ hw') w List.mem_cons_self heq ▸ hw')
  obtain ⟨ht, hadd, hr⟩ := bind_ok.1 hr
  cases hr
  obtain ⟨L, hL⟩ := h.inv.rep
  have hk : (s.hide ((w :: ws).map (·.index))).pt.keys w.index = none := by
    apply PageTable.keys_of_not_user
    simp [Ipt.hide, PtEntry.user, PtEntry.hidden]
  have hfresh : ∀ j, (s.hide ((w :: ws).map (·.index))).pt.keys j ≠ some (w.vaddr, w.pid) := by
    obtain ⟨j, hj, -⟩ | ⟨-, hno⟩ := hL.getIndexFromHash_iff.1 hnew
    · cases hj
    · exact hno
  have hht := (addInHash_claimed s.ht h.inv hin rfl ⟨L, by
    rw [← hk, Function.update_eq_self]
    exact hL⟩ hfresh).ok hadd
  have hu : (s.pt.entries w.index).user = true :=
    PtEntry.user_iff.2 ⟨hval, hpg ▸ hv.ne_kmallocPage⟩
  rw [← hpg, ← hpid] at hht
  have hinv := h.inv.insert hin hu (hpg ▸ hv) (hpid ▸ hp) hht.1 hht.2.1 hht.2.2
  refine ⟨hinv.congr rfl ?_ rfl, ?_, ?_⟩
  · funext j
    by_cases hj : j = w.index
    · subst hj
      simp only [Ipt.hide, PageTable.set, Function.update_self, hout, if_false]
    · simp only [Ipt.hide, PageTable.set, Function.update_of_ne hj, List.map_cons, List.mem_cons,
        hj, false_or]
  · exact fun w' hw' => h.claimed w' (List.mem_cons_of_mem _ hw')
  · exact fun w₁ h₁ w₂ h₂ =>
      h.apart w₁ (List.mem_cons_of_mem _ h₁) w₂ (List.mem_cons_of_mem _ h₂)

theorem ptGetPaddr (h : Faulting N s ws) (hr : s.ptGetPaddr v p = .ok (t, o)) :
    Faulting N t ws ∧ (o = none → t = s ∧ s.ht.getIndexFromHash v p = .ok none) := by
  obtain ⟨r, hl, hr⟩ := bind_ok.1 hr
  cases r with
  | none =>
    cases hr
    exact ⟨h, fun _ => ⟨rfl, hl⟩⟩
  | some i =>
    simp only [bind_ok, kassert_ok, Bool.not_eq_true'] at hr
    obtain ⟨_, -, _, -, _, -, _, hio, _, -, hr⟩ := hr
    cases hr
    exact ⟨h.set (e := (s.pt.entries i).setTlb true) (h.not_hidden hio) ⟨rfl, fun _ => ⟨rfl, rfl⟩⟩
      s.stores, fun hf => by cases hf⟩

theorem not_hidden_of_space (h : Faulting N s ws) (hi : s.pt.findspace = some i) :
    i < N ∧ i ∉ ws.map (·.index) ∧ (s.pt.entries i).user = false := by
  obtain ⟨hin, hsp⟩ := PageTable.findspace_some hi
  refine ⟨h.nEntry ▸ hin, h.not_hidden ?_, PtEntry.not_user_of_isSpace hsp⟩
  simp only [PtEntry.isSpace, Bool.and_eq_true, Bool.not_eq_true'] at hsp
  exact hsp.1.1.2

theorem claimSpace (h : Faulting N s ws) (hv : UserAddr v) (hp : PidOk p)
    (hnew : s.ht.getIndexFromHash v p = .ok none) (hi : s.pt.findspace = some i)
    (hr : s.claimSpace v p i = .ok t) : Faulting N t ws := by
  obtain ⟨hin, hout, hu⟩ := h.not_hidden_of_space hi
  obtain ⟨ht, hadd, hr⟩ := bind_ok.1 hr
  cases hr
  exact h.add hin hout hu (PtEntry.claim_user hv) hv hp hnew hadd s.stores

/-- `find_victim` takes a page out of the hash table and goes to sleep, or it has nothing to
store. -/
theorem claimVictim (h : Faulting N s ws) (hv : UserAddr v) (hp : PidOk p) (hi : i < N)
    (hel : (s.pt.entries i).eligible = true) (hr : s.claimVictim v p i = .ok (t, o))
    (st : List StoreCall) : Faulting N { t with stores := st } (⟨v, p, i⟩ :: ws) ∧
      (o = none → t.ht = s.ht) := by
  simp only [PtEntry.eligible, Bool.and_eq_true, Bool.not_eq_true', bne_iff_ne] at hel
  obtain ⟨⟨⟨htlb, hio⟩, hpg⟩, hsw⟩ := hel
  have hout := h.not_hidden hio
  have hclaims : Victim.Claims ⟨v, p, i⟩ ((s.pt.entries i).claim v p) :=
    ⟨rfl, rfl, rfl, rfl, htlb, hsw⟩
  simp only [Ipt.claimVictim, bind_ok] at hr
  obtain ⟨_, -, _, -, _, -, _, -, hr⟩ := hr
  split at hr
  · rename_i hval
    obtain ⟨ht, hrm, hr⟩ := bind_ok.1 hr
    cases hr
    have hrem := h.remove (e := ((s.pt.entries i).claim v p).hidden) hi hout
      (PtEntry.user_iff.2 ⟨hval, hpg⟩) rfl hrm st
    exact ⟨h.claim (w := ⟨v, p, i⟩) hi hout hv hp hclaims hrem.inv, fun hf => by cases hf⟩
  · rename_i hval
    cases hr
    have hu : (s.pt.entries i).user = false := by simp [PtEntry.user, hval]
    have hset := h.set (e := ((s.pt.entries i).claim v p).hidden) hout
      ⟨by rw [hu]; rfl, fun hf => by rw [hu] at hf; cases hf⟩ st
    exact ⟨h.claim (w := ⟨v, p, i⟩) hi hout hv hp hclaims hset.inv, fun _ => rfl⟩

theorem beginVictim (h : Faulting N s ws) (hv : UserAddr v) (hp : PidOk p)
    (hnew : s.ht.getIndexFromHash v p = .ok none) (hr : s.beginVictim ws start v p = .ok (t, ws')) :
    Faulting N t ws' ∧ KeepsKernel s t := by
  obtain ⟨href, hvic⟩ := victimSweep_spec s.pt.entries (s.pt.victimOrder start)
  have hkeep := KeepsKernel.seekVictim s start
  unfold Ipt.beginVictim at hr
  unfold PageTable.seekVictim at hkeep hr
  generalize victimSweep s.pt.entries (s.pt.victimOrder start) = r at href hvic hkeep hr
  obtain ⟨E, o⟩ := r
  have hE : Faulting N { s with pt := { s.pt with entries := E } } ws := h.sameButRef rfl rfl href
  cases o with
  | none =>
    cases hr
    exact ⟨hE, hkeep⟩
  | some i =>
    obtain ⟨hmem, hel, -⟩ := hvic i rfl
    have hin : i < N := h.nEntry ▸ PageTable.victimOrder_lt hmem
    obtain ⟨⟨s₁, old⟩, hc, hr⟩ := bind_ok.1 hr
    obtain ⟨hkeep₁, -⟩ := claimVictim_keeps hkeep hc
    cases old with
    | some o =>
      cases hr
      exact ⟨(hE.claimVictim hv hp hin hel hc _).1, hkeep₁⟩
    | none =>
      obtain ⟨s₂, hh, hr⟩ := bind_ok.1 hr
      cases hr
      obtain ⟨hclaim, hht⟩ := hE.claimVictim hv hp hin hel hc s₁.stores
      have hout : (⟨v, p, i⟩ : Victim) ∉ ws := by
        intro hw
        have hio := (hE.claimed _ hw).2.2.2.2.2.2.1
        simp only [PtEntry.eligible, Bool.and_eq_true, Bool.not_eq_true'] at hel
        rw [hel.1.1.2] at hio
        cases hio
      obtain ⟨hpt, hcont⟩ := hashVictim_pt hh
      refine ⟨hclaim.hash hout ?_ hh, hkeep₁.trans ⟨hcont, fun j _ => by rw [hpt]; exact .refl _⟩⟩
      rw [show s₁.ht = s.ht from hht rfl]
      exact hnew

theorem beginPage (h : Faulting N s ws) (hv : UserAddr v) (hp : PidOk p)
    (hr : s.beginPage ws v p = .ok (t, ws')) : Faulting N t ws' ∧ KeepsKernel s t := by
  obtain ⟨⟨s₁, o⟩, hx, hrest⟩ := bind_ok.1 hr
  obtain ⟨h₁, hmiss⟩ := h.ptGetPaddr hx
  have hkeep := ptGetPaddr_keeps hx
  cases o with
  | some i =>
    cases hrest
    exact ⟨h₁, hkeep⟩
  | none =>
    obtain ⟨rfl, hnew⟩ := hmiss rfl
    simp only at hrest
    split at hrest
    · rename_i i hi
      obtain ⟨s₂, hc, hrest⟩ := bind_ok.1 hrest
      cases hrest
      exact ⟨h.claimSpace hv hp hnew hi hc, (claimSpace_keeps hi hc).1⟩
    · exact h.beginVictim hv hp hnew hrest

theorem freePage (h : Faulting N s ws) (hi : i < N) (hr : s.freePage p i = .ok t) :
    Faulting N t ws := by
  unfold Ipt.freePage at hr
  simp only at hr
  split at hr
  · rename_i hc
    simp only [Bool.and_eq_true, beq_iff_eq] at hc
    simp only [bind_ok, kassert_ok, Bool.not_eq_true'] at hr
    obtain ⟨_, hio, _, -, _, -, ht, hrm, hr⟩ := hr
    cases hr
    rw [← hc.1] at hrm
    exact h.remove hi (h.not_hidden hio) hc.2 rfl hrm s.stores
  · cases hr
    exact h

theorem updateTlbBit (h : Faulting N s ws) (hr : s.pt.updateTlbBit v p = .ok pt) :
    Faulting N { s with pt := pt } ws := by
  unfold PageTable.updateTlbBit at hr
  split at hr
  · cases hr
    exact h
  · rename_i i _
    simp only [bind_ok, kassert_ok] at hr
    obtain ⟨_, -, _, htlb, hr⟩ := hr
    cases hr
    refine h.set (e := ((s.pt.entries i).setTlb false).setReference true) ?_
      ⟨rfl, fun _ => ⟨rfl, rfl⟩⟩ s.stores
    intro hi
    obtain ⟨w, -, hw⟩ := h.io hi
    rw [hw.2.2.2.2.1] at htlb
    cases htlb

theorem markCopy {ok : PtEntry → Bool} (h : Faulting N s ws)
    (hok : ∀ e, e.ctrl.io = true → e.ctrl.swap = false → ok e = false) (p : Nat) (b : Bool) (f : Fn)
    (c : Cond) (hr : s.pt.markCopy p b f c ok = .ok pt) : Faulting N { s with pt := pt } ws := by
  suffices hs : Sound (fun _ => True) (fun pt => Faulting N { s with pt := pt } ws)
      (s.pt.markCopy p b f c ok) from hs.ok hr
  apply Sound.foldlM (P := fun pt => Faulting N { s with pt := pt } ws) h
  intro i _ pt hpt
  apply Sound.intro _ (fun _ _ => trivial)
  intro pt' hr
  split at hr
  · obtain ⟨_, hk, hr⟩ := bind_ok.1 hr
    cases hr
    refine hpt.set (e := (pt.entries i).setSwap b) ?_ ⟨rfl, fun _ => ⟨rfl, rfl⟩⟩ s.stores
    intro hi
    obtain ⟨w, -, hw⟩ := hpt.io hi
    rw [kassert_ok, hok _ hw.2.2.2.1 hw.2.2.2.2.2] at hk
    cases hk
  · cases hr
    exact hpt

theorem copyPage (h : Faulting N s ws) (hin : i < N) (hp : PidOk new) (hws : ∀ w ∈ ws, w.pid ≠ old)
    (hnew : s.ht.getIndexFromHash (s.pt.entries i).page new = .ok none)
    (hr : s.copyPage old new i = .ok t) : Faulting N t ws := by
  unfold Ipt.copyPage at hr
  simp only at hr
  split at hr
  · rename_i hc
    simp only [Bool.and_eq_true, beq_iff_eq] at hc
    split at hr
    · obtain ⟨_, -, hr⟩ := bind_ok.1 hr
      cases hr
      exact h.sameButRef rfl rfl fun _ => .refl _
    · rename_i pos hpos
      obtain ⟨hposn, hout, hu⟩ := h.not_hidden_of_space hpos
      have hi : i ∉ ws.map (·.index) := by
        intro hi
        obtain ⟨w, hw, hwi⟩ := h.io hi
        exact hws w hw (hwi.2.1.symm.trans hc.1)
      have hv : UserAddr (s.pt.entries i).page := by
        have huser := h.inv.user i hin
        rw [s.hide_entries hi] at huser
        exact (huser hc.2).1
      have hcopy : ((s.pt.entries pos).copyOf (s.pt.entries i) new).user = true :=
        PtEntry.user_iff.2 ⟨rfl, (PtEntry.user_iff.1 hc.2).2⟩
      simp only [Ipt.copyEntry, bind_ok] at hr
      obtain ⟨ht, hadd, _, -, _, -, _, -, _, -, hr⟩ := hr
      cases hr
      exact h.add hposn hout hu hcopy hv hp hnew hadd s.stores
  · cases hr
    exact h

end Faulting

/-- What the processes do keeps the table and leaves the frames of the kernel alone. -/
theorem UserOp.exec_faulting (op : UserOp) (h : Faulting N s ws) (hpre : op.Pre s ws)
    (hr : op.exec s ws = .ok (t, ws')) : Faulting N t ws' ∧ KeepsKernel s t := by
  cases op with
  | beginPage v p => exact h.beginPage hpre.1 hpre.2 hr
  | resumeVictim start v p => exact h.beginVictim hpre.1 hpre.2.1 hpre.2.2 hr
  | victimStored w =>
    obtain ⟨u, hx, hr⟩ := map_ok.1 hr
    cases hr
    obtain ⟨hpt, hcont⟩ := hashVictim_pt hx
    refine ⟨?_, hcont, fun j _ => by rw [hpt]; exact .refl _⟩
    refine Faulting.hash (w := w) (h.congr fun w' => ?_) (by simp) hpre.2 hx
    by_cases hw : w' = w
    · simp [hw, hpre.1]
    · simp [hw]
  | pageLoaded i =>
    cases hr
    obtain ⟨hu, -, hws⟩ := hpre
    have hi : i ∉ ws.map (·.index) := by
      intro hi
      obtain ⟨w, hw, rfl⟩ := List.mem_map.1 hi
      exact hws w hw rfl
    exact ⟨h.set (e := ((s.pt.entries i).setIo false).setTlb true) hi ⟨rfl, fun _ => ⟨rfl, rfl⟩⟩
      s.stores, (KeepsKernel.refl s).set rfl rfl (PtEntry.user_iff.1 hu).2⟩
  | freePages p =>
    obtain ⟨u, hx, hr⟩ := map_ok.1 hr
    cases hr
    apply And.intro
    · suffices hs : Sound (fun _ => True) (fun u => Faulting N u ws) (s.freePages p) from hs.ok hx
      apply Sound.foldlM (P := fun u => Faulting N u ws) h
      intro i hi u hu
      apply Sound.intro _ (fun _ _ => trivial)
      intro u' hu'
      exact hu.freePage (h.nEntry ▸ List.mem_range.1 hi) hu'
    · exact (Sound.foldlM (.refl s) fun i _ u hu => freePage_keeps p i hu).ok hx
  | updateTlbBit v p =>
    obtain ⟨pt, hx, hr⟩ := map_ok.1 hr
    cases hr
    exact ⟨h.updateTlbBit hx, updateTlbBit_keeps hx⟩
  | prepareCopyPt p =>
    obtain ⟨pt, hx, hr⟩ := map_ok.1 hr
    cases hr
    exact ⟨h.markCopy (fun e hio _ => by simp [hio]) p _ _ _ hx, (markCopy_keeps p _ _ _ _).ok hx⟩
  | copyPage old new i =>
    obtain ⟨u, hx, hr⟩ := map_ok.1 hr
    cases hr
    obtain ⟨hi, hp, hws, hnew⟩ := hpre
    exact ⟨h.copyPage (h.nEntry ▸ hi) hp hws hnew hx, (copyPage_keeps old new i (.refl s)).ok hx⟩
  | endCopyPt p =>
    obtain ⟨pt, hx, hr⟩ := map_ok.1 hr
    cases hr
    exact ⟨h.markCopy (fun e _ hsw => hsw) p _ _ _ hx, (markCopy_keeps p _ _ _ _).ok hx⟩

end Clape
