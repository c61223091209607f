import Clape.PrivateMemorySteps
import Clape.ProcessExit
import Clape.SwapBounds

namespace Clape
set_option autoImplicit true

theorem key_but {n n' : Nat} {E E' : Nat → PtEntry} (hn : n' = n)
    (hE : ∀ j, j ≠ i → SameKey (E j) (E' j)) (hs : i < n → (E i).user = true → (E i).pid ≠ q)
    (hu : (E' i).user = true → (E' i).pid ≠ q) (j v : Nat) : Key n' E' j v q ↔ Key n E j v q := by
  by_cases hj : j = i
  · subst hj
    apply iff_of_false
    · intro hk
      exact hu hk.2.1 hk.2.2.2
    · intro hk
      exact hs hk.1 hk.2.1 hk.2.2.2
  · obtain ⟨huser, hk⟩ := hE j hj
    unfold Key
    rw [hn, huser]
    apply and_congr_right
    intro _
    apply and_congr_right
    intro hju
    rw [(hk hju).1, (hk hju).2]

namespace Sys.Paged
variable {s u : Sys}

/-- The pages of a process that forks stay in their frames. -/
theorem frozen (h : s.Paged L m) (hm : Move s a u) (hf : (s.pc q).role.forks = true) (i v : Nat) :
    Key u.ipt.pt.nEntry u.ipt.pt.entries i v q ↔ Key s.ipt.pt.nEntry s.ipt.pt.entries i v q := by
  have ho := h.order.good.1
  have hcur : (s.pc s.cur).role.forks = false → s.cur ≠ q := by
    rintro hc rfl
    rw [hf] at hc
    cases hc
  -- the swap bit keeps the frames from the searches for victims
  have hidle : ∀ {e : PtEntry} {j}, SameButRef (s.ipt.pt.entries j) e → e.Idle →
      j < s.ipt.pt.nEntry → (s.ipt.pt.entries j).user = true → (s.ipt.pt.entries j).pid ≠ q := by
    rintro e j ⟨b, rfl⟩ he hj hu hp
    have hsw := (ho.fits j).frozen (by
      rw [show s.table.entries j = s.ipt.pt.entries j from rfl, hp]
      exact hf) hj hu
    rw [show (s.table.entries j).ctrl.swap = false from he.2.1] at hsw
    cases hsw
  have hself : ∀ i, SameButRef (s.ipt.pt.entries i) (s.ipt.pt.entries i) := fun i => .refl _
  cases hm with
  | @dispatch r pt mmu st _ _ hact =>
    obtain ⟨hn, hE⟩ := sameKey_asActivate hact
    change Key pt.nEntry _ _ _ _ ↔ _
    rw [hn]
    exact key_congr hE
  | @hit as w b t ipt j pt mmu r st hpc _ _ _ _ _ _ hget hins =>
    obtain ⟨-, -, -, -, -, -, rfl⟩ := ptGetPaddr_some hget
    obtain ⟨hins, hn, -⟩ := Inserted.of_tlbInsert hins
    have hset : SameKey (s.ipt.pt.entries j) ((s.ipt.pt.entries j).setTlb true) :=
      ⟨rfl, fun _ => ⟨rfl, rfl⟩⟩
    change Key pt.nEntry _ _ _ _ ↔ _
    rw [hn]
    exact key_congr fun d => (sameKey_set hset d).trans (sameKey_inserted hins d)
  | @loaded w j as pt mmu r st hpc _ hins =>
    obtain ⟨hins, hn, -⟩ := Inserted.of_tlbInsert hins
    have hset : SameKey (s.ipt.pt.entries j) (((s.ipt.pt.entries j).setIo false).setTlb true) :=
      ⟨rfl, fun _ => ⟨rfl, rfl⟩⟩
    change Key pt.nEntry _ _ _ _ ↔ _
    rw [hn]
    exact key_congr fun d => (sameKey_set hset d).trans (sameKey_inserted hins d)
  | @space as w b t ipt₀ j ipt st hpc _ _ _ _ _ _ hspace hclaim =>
    obtain ⟨-, hpt⟩ := claimSpace_ok hclaim
    obtain ⟨-, hsp⟩ := PageTable.findspace_some hspace
    simp only [PtEntry.isSpace, Bool.and_eq_true, Bool.not_eq_true', bne_iff_ne] at hsp
    change Key ipt.pt.nEntry ipt.pt.entries i v q ↔ _
    rw [hpt]
    apply key_but (i := j) rfl
    · intro d hd
      simp only [PageTable.set, Function.update_of_ne hd]
      exact .refl _
    · intro _ hu
      simp [PtEntry.user, hsp.1.1.1] at hu
    · intro _
      simp only [PageTable.set, Function.update_self]
      exact hcur (by rw [hpc]; rfl)
  | @exit b ipt st hpc _ hfree =>
    exact (key_freePages hfree i v q).trans (and_iff_left (Ne.symm (hcur (by rw [hpc]; rfl))))
  | @segv w j as w' ipt hpc _ _ _ hfree =>
    exact (key_freePages hfree i v q).trans (and_iff_left (Ne.symm (hcur (by rw [hpc]; rfl))))
  | @allocFree f j pt hpc hrun hmark =>
    obtain ⟨-, hv, rfl⟩ := markFree_idle hmark
    apply key_but (i := j) rfl
    · intro d hd
      simp only [setPt, PageTable.set, Function.update_of_ne hd]
      exact .refl _
    · intro _ hu
      simp [PtEntry.user, hv] at hu
    · intro hu
      simp [setPt, PageTable.set, PtEntry.user, PtEntry.kmalloc] at hu
  | @allocWait b fp E hpc hsearch =>
    have hsame := s.ipt.pt.chanceSearch_sameButRef 1 fp
    rw [hsearch] at hsame
    exact key_congr fun d => (hsame d).sameKey
  | @allocTake b fp E f j ipt hpc hsearch hclaim =>
    have hsame := s.ipt.pt.chanceSearch_sameButRef 1 fp
    rw [hsearch] at hsame
    obtain ⟨he, ⟨_, ho', _⟩ | ⟨hv, -, hpt, -⟩⟩ := claimKernel_ok hclaim
    · cases ho'
    change Key ipt.pt.nEntry ipt.pt.entries i v q ↔ _
    rw [hpt]
    apply key_but (i := j) rfl
    · intro d hd
      simp only [PageTable.set, Function.update_of_ne hd]
      exact (hsame d).sameKey
    · exact hidle (hsame j) he
    · intro hu
      simp [PageTable.set, PtEntry.user, PtEntry.kmalloc] at hu
  | @allocEvict b fp E f j ipt w p hpc hsearch hclaim =>
    have hsame := s.ipt.pt.chanceSearch_sameButRef 1 fp
    rw [hsearch] at hsame
    obtain ⟨he, ⟨hu, ho', hpt, -⟩ | ⟨_, ho', _⟩⟩ := claimKernel_ok hclaim
    swap
    · cases ho'
    change Key ipt.pt.nEntry ipt.pt.entries i v q ↔ _
    rw [hpt]
    apply key_but (i := j) rfl
    · intro d hd
      simp only [PageTable.set, Function.update_of_ne hd]
      exact (hsame d).sameKey
    · exact hidle (hsame j) he
    · intro hu
      simp [PageTable.set, PtEntry.user, PtEntry.kmalloc] at hu
  | @kfree j pt hsw hone hfree =>
    obtain ⟨hk, rfl⟩ := freeContiguousPages_one hone hfree
    apply key_but (i := j) rfl
    · intro d hd
      simp only [setPt, mapPc, PageTable.set, Function.update_of_ne hd]
      exact .refl _
    · intro _ hu
      simp [PtEntry.user, hk] at hu
    · intro hu
      simp [setPt, mapPc, PageTable.set, PtEntry.user] at hu
  | @fork as child pt hpc has hsem hchild hpid hprep =>
    obtain ⟨-, rfl⟩ := (markCopy_spec ..).ok hprep
    exact key_congr fun d => sameKey_marked s.cur true d
  | @ptEnd child j pt hpc hj hend =>
    obtain ⟨-, rfl⟩ := (markCopy_spec ..).ok hend
    exact key_congr fun d => sameKey_marked s.cur false d
  | @exec vn phs as pt mmu st hpc has hload hact =>
    obtain ⟨hn, hE⟩ := sameKey_asActivate hact
    change Key pt.nEntry _ _ _ _ ↔ _
    rw [hn]
    exact key_congr hE
  | @noVictim w start E hpc hseek =>
    have hsame := (victimSweep_spec s.ipt.pt.entries (s.ipt.pt.victimOrder start)).1
    rw [show victimSweep s.ipt.pt.entries (s.ipt.pt.victimOrder start) = _ from hseek] at hsame
    exact key_congr fun d => (hsame d).sameKey
  | @takeVictim w start E j ipt₁ ipt hpc hseek hclaim hhash =>
    have hsame := (victimSweep_spec s.ipt.pt.entries (s.ipt.pt.victimOrder start)).1
    rw [show victimSweep s.ipt.pt.entries (s.ipt.pt.victimOrder start) = _ from hseek] at hsame
    obtain ⟨he, hpt₁, -⟩ := claimVictim_ok hclaim
    obtain ⟨-, hpt⟩ := hashVictim_ok hhash
    change Key ipt.pt.nEntry ipt.pt.entries i v q ↔ _
    rw [hpt, hpt₁]
    apply key_but (i := j) rfl
    · intro d hd
      simp only [PageTable.set, Function.update_of_ne hd]
      exact (hsame d).sameKey
    · exact hidle (hsame j) he
    · intro _
      simp only [PageTable.set, Function.update_self]
      exact hcur (by rw [hpc]; rfl)
  | @evictVictim w start E j ipt ov op hpc hseek hclaim =>
    have hsame := (victimSweep_spec s.ipt.pt.entries (s.ipt.pt.victimOrder start)).1
    rw [show victimSweep s.ipt.pt.entries (s.ipt.pt.victimOrder start) = _ from hseek] at hsame
    obtain ⟨he, hpt, -⟩ := claimVictim_ok hclaim
    change Key ipt.pt.nEntry ipt.pt.entries i v q ↔ _
    rw [hpt]
    apply key_but (i := j) rfl
    · intro d hd
      simp only [PageTable.set, Function.update_of_ne hd]
      exact (hsame d).sameKey
    · exact hidle (hsame j) he
    · intro _
      simp only [PageTable.set, Function.update_self]
      exact hcur (by rw [hpc]; rfl)
  | @storedVictim w j ipt hpc hhash =>
    obtain ⟨-, hpt⟩ := hashVictim_ok hhash
    change Key ipt.pt.nEntry ipt.pt.entries i v q ↔ _
    rw [hpt]
  | @storedAlloc j hpc =>
    exact key_congr (sameKey_set (e := (s.ipt.pt.entries j).setIo false) ⟨rfl, fun _ => ⟨rfl, rfl⟩⟩)
  | @ptSpace r j pos ipt hpc hj hpid hu hspace hcopy =>
    obtain ⟨-, hpt⟩ := copyEntry_ok hcopy
    obtain ⟨-, hsp⟩ := PageTable.findspace_some hspace
    simp only [PtEntry.isSpace, Bool.and_eq_true, Bool.not_eq_true', bne_iff_ne] at hsp
    have hchild : (s.pc r).role = .embryo := ho.apart.embryo (q := s.cur) (k := j) (by
      rw [show s.table.role s.cur = (s.pc s.cur).role from rfl, hpc]
      rfl)
    change Key ipt.pt.nEntry ipt.pt.entries i v q ↔ _
    rw [hpt]
    apply key_but (i := pos) rfl
    · intro d hd
      simp only [PageTable.set, Function.update_of_ne hd]
      exact .refl _
    · intro _ hu
      simp [PtEntry.user, hsp.1.1.1] at hu
    · intro _
      simp only [PageTable.set, Function.update_self]
      change r ≠ q
      rintro rfl
      rw [hchild] at hf
      cases hf
  | _ => exact Iff.rfl

theorem walk_of_forks {c : Pc} (h : c.role.forks = true) : c.errand.walk = none := by
  cases c with
  | cell k d => cases k <;> first | rfl | cases h
  | cellWait k d w => cases k <;> first | rfl | cases h
  | removeSwap sg e => cases h
  | _ => rfl

theorem list_chain (h : s.Paged L m) (hw : (s.pc q).errand.walk = none) (sg : Segment) :
    Chain s.swap.lists.next (s.swap.lists.head (.seg sg q)) (L (.seg sg q)) := by
  rw [← Lists.seen_head_of_none (W := fun q => (s.pc q).errand.walk) hw]
  exact h.order.kept.rep.chain (.seg sg q)

theorem fork_chain (h : s.Paged L m) (hf : (s.pc q).role.forks = true) (sg : Segment) :
    Chain s.swap.lists.next (s.swap.lists.head (.seg sg q)) (L (.seg sg q)) :=
  h.list_chain (walk_of_forks hf) sg

/-- The lists of cells of a process that forks stay as they are. -/
theorem walked (h : s.Paged L m) (hm : Move s a u) (hf : (s.pc q).role.forks = true) (sg : Segment) :
    u.swap.lists.head (.seg sg q) = s.swap.lists.head (.seg sg q) ∧
      ∀ d ∈ L (.seg sg q), u.swap.lists.next d = s.swap.lists.next d ∧ u.swap.vaddr d = s.swap.vaddr d := by
  have ho := h.order.good.1
  have hcur : (s.pc s.cur).role.forks = false → s.cur ≠ q := by
    rintro hc rfl
    rw [hf] at hc
    cases hc
  have hne : ∀ {k d c}, d ∈ L (.seg sg q) → c ∈ L k → k ≠ .seg sg q → d ≠ c := by
    rintro k d c hd hc hk rfl
    exact hk (h.order.kept.rep.disjoint _ _ d hc hd)
  have hchild : ∀ {r}, (∃ k, (s.pc s.cur).role = .forking r k) → r ≠ q := by
    rintro r ⟨k, hr⟩ rfl
    have he : (s.pc r).role = .embryo := ho.apart.embryo (q := s.cur) hr
    rw [he] at hf
    cases hf
  have hserves := h.order.kept.serves s.cur
  rw [show s.cells.errand s.cur = (s.pc s.cur).errand from rfl] at hserves
  cases hm with
  | @store k i v p w c hpc hb =>
    obtain ⟨hc, -, A, -, -, rfl⟩ := SwapFile.storeBegin_ok hb
    have hp : p ≠ q := by
      rintro rfl
      rw [(h.doing s.cur).aside (v := v) (p := p) (by rw [hpc]; rfl)] at hf
      cases hf
    constructor
    · refine (SwapFile.link_head_other ?_).trans (Lists.behead_head_of_ne _ _ (by simp))
      intro sg' he
      cases he
      exact hp rfl
    · intro d hd
      have hdc := hne hd (h.order.head_free hc) (by simp)
      exact ⟨(SwapFile.link_free _ _ p c).2 d hdc, Function.update_of_ne hdc ..⟩
  | storing hpc hb =>
    rw [SwapFile.storeEnd_spec hb]
    exact ⟨rfl, fun d _ => ⟨rfl, rfl⟩⟩
  | @loadFound v i as w c hpc has hb =>
    obtain ⟨sg', prev, hsg, hs, rfl⟩ := SwapFile.loadBegin_some hb
    have hqc := hcur (by rw [hpc]; rfl)
    have hkey : SwapList.seg sg q ≠ .seg sg' s.cur := by
      intro he
      cases he
      exact hqc rfl
    rcases h.order.search (q := s.cur) (by rw [hpc]; rfl) (fun c => s.swap.vaddr c == v) sg' with
      ⟨A, c', B, hL, -, -, hs'⟩ | ⟨-, hs'⟩
    · rw [hs] at hs'
      cases hs'
      cases hA : A.getLast? with
      | none => exact ⟨Lists.behead_head_of_ne _ _ hkey, fun d _ => ⟨rfl, rfl⟩⟩
      | some p =>
        refine ⟨rfl, fun d hd => ⟨?_, rfl⟩⟩
        apply Function.update_of_ne
        apply hne hd _ hkey.symm
        rw [hL]
        exact List.mem_append_left _ (List.mem_of_getLast? hA)
    · rw [hs] at hs'
      cases hs'
  | cellSleep hpc hb =>
    rw [(SwapFile.testStore_spec hb).1]
    exact ⟨rfl, fun d _ => ⟨rfl, rfl⟩⟩
  | cellLoad hpc hb =>
    rw [(SwapFile.testStore_spec hb).1]
    exact ⟨rfl, fun d _ => ⟨rfl, rfl⟩⟩
  | cellCopy hpc hb =>
    rw [(SwapFile.testStore_spec hb).1]
    exact ⟨rfl, fun d _ => ⟨rfl, rfl⟩⟩
  | @cellExit sg' c w hpc hb =>
    rw [(SwapFile.testStore_spec hb).1]
    rw [hpc] at hserves
    have hc : c ∈ L (.seg sg' s.cur) := (hserves.1 c rfl).1
    have hqc := hcur (by rw [hpc]; rfl)
    refine ⟨Lists.push_head_of_ne _ _ (by simp), fun d hd => ⟨Lists.push_next_of_ne _ _ ?_, rfl⟩⟩
    apply hne hd hc
    intro he
    cases he
    exact hqc rfl
  | @reading v i c st hpc =>
    rw [hpc] at hserves
    have hdc : ∀ d ∈ L (.seg sg q), d ≠ c := by
      rintro d hd rfl
      exact hserves.2.1 _ hd
    refine ⟨Lists.push_head_of_ne _ _ (by simp), fun d hd => ?_⟩
    exact ⟨Lists.push_next_of_ne _ _ (hdc d hd), Function.update_of_ne (hdc d hd) ..⟩
  | @removeNext sg' _ hpc =>
    have hqc := hcur (by rw [hpc]; rfl)
    refine ⟨Lists.clear_head_of_ne _ ?_, fun d _ => ⟨rfl, rfl⟩⟩
    intro he
    cases he
    exact hqc rfl
  | @removeDone sg' hpc =>
    have hqc := hcur (by rw [hpc]; rfl)
    refine ⟨Lists.clear_head_of_ne _ ?_, fun d _ => ⟨rfl, rfl⟩⟩
    intro he
    cases he
    exact hqc rfl
  | @copyTake r sg' c w f hpc hb =>
    obtain ⟨hc, -, rfl⟩ := SwapFile.copyBegin_ok hb
    have hr : r ≠ q := hchild ⟨0, by rw [hpc]; rfl⟩
    constructor
    · refine (Lists.push_head_of_ne _ _ ?_).trans (Lists.behead_head_of_ne _ _ (by simp))
      intro he
      cases he
      exact hr rfl
    · intro d hd
      exact ⟨Lists.push_next_of_ne _ _ (hne hd (h.order.head_free hc) (by simp)), rfl⟩
  | @copyWriting r sg' c f hpc =>
    rw [hpc] at hserves
    have hr : r ≠ q := hchild ⟨0, by rw [hpc]; rfl⟩
    refine ⟨rfl, fun d hd => ⟨rfl, Function.update_of_ne ?_ ..⟩⟩
    apply hne hd hserves.2.1
    intro he
    cases he
    exact hr rfl
  | _ => exact ⟨rfl, fun d _ => ⟨rfl, rfl⟩⟩

end Sys.Paged

theorem Pc.forking_of_copying {c : Pc} (h : c.copying = some (r, k, w)) :
    ∃ j, c.role = .forking r j := by
  cases c with
  | storeSwap e j v p => cases e <;> cases h <;> exact ⟨_, rfl⟩
  | storing e j d => cases e <;> cases h <;> exact ⟨_, rfl⟩
  | stored e j => cases e <;> cases h <;> exact ⟨_, rfl⟩
  | cell e d => cases e <;> cases h <;> exact ⟨_, rfl⟩
  | cellWait e d b => cases e <;> cases h <;> exact ⟨_, rfl⟩
  | copySwap r' sg e => cases h; exact ⟨_, rfl⟩
  | copyReading r' sg d f => cases h; exact ⟨_, rfl⟩
  | copyWriting r' sg d f => cases h; exact ⟨_, rfl⟩
  | copyPt r' j => cases h; exact ⟨_, rfl⟩
  | _ => cases h

theorem Pc.forks_of_copying {c : Pc} (h : c.copying = some (r, k, w)) : c.role.forks = true := by
  obtain ⟨j, hj⟩ := forking_of_copying h
  rw [hj]
  rfl

theorem Sys.rest_iff {s : Sys} {L : SwapList → List Nat} (hR : Chain s.swap.lists.next e R)
    (hL : ∀ sg', Chain s.swap.lists.next (s.swap.lists.head (.seg sg' q)) (L (.seg sg' q))) :
    s.Rest q (some (sg, e)) d ↔ d ∈ R ∨ ∃ sg', sg.rank < sg'.rank ∧ d ∈ L (.seg sg' q) := by
  constructor
  · rintro (⟨R', hR', hd⟩ | ⟨sg', R', hsg, hR', hd⟩)
    · exact .inl (hR.unique hR' ▸ hd)
    · exact .inr ⟨sg', hsg, (hL sg').unique hR' ▸ hd⟩
  · rintro (hd | ⟨sg', hsg, hd⟩)
    · exact .inl ⟨R, hR, hd⟩
    · exact .inr ⟨sg', _, hsg, hL sg', hd⟩

namespace Sys.Paged
variable {s u : Sys}

theorem cursor (h : s.Paged L m) (hq : (s.pc q).copying = some (r, k, some (sg, e))) :
    ∃ R, Chain s.swap.lists.next e R ∧ ∀ d ∈ R, d ∈ L (.seg sg q) := by
  have hc : ∀ c, e = some c → c ∈ L (.seg sg q) := by
    rintro c rfl
    have hs := h.order.kept.serves q
    rw [show s.cells.errand q = (s.pc q).errand from rfl] at hs
    cases hpc : s.pc q with
    | storeSwap e j v p => rw [hpc] at hq; cases e <;> cases hq
    | storing e j d => rw [hpc] at hq; cases e <;> cases hq
    | stored e j => rw [hpc] at hq; cases e <;> cases hq
    | cell e d =>
      rw [hpc] at hq hs
      cases e <;> cases hq
      exact hs.1
    | cellWait e d b =>
      rw [hpc] at hq hs
      cases e <;> cases hq
      exact hs.1
    | copySwap r' sg' e' =>
      rw [hpc] at hq hs
      cases hq
      exact hs c rfl
    | copyReading r' sg' d f =>
      rw [hpc] at hq hs
      cases hq
      exact hs.1
    | copyWriting r' sg' d f =>
      rw [hpc] at hq hs
      cases hq
      exact hs.1
    | _ => rw [hpc] at hq; cases hq
  cases e with
  | none => exact ⟨[], rfl, by simp⟩
  | some c =>
    obtain ⟨R, hR, hsub⟩ := h.rest_chain (hc c rfl)
    refine ⟨c :: R, ⟨rfl, hR⟩, ?_⟩
    intro d hd
    cases hd with
    | head => exact hc c rfl
    | tail _ hd => exact hsub d hd

/-- No step takes anything from what a fork has still to copy. -/
theorem todo_iff (h : s.Paged L m) (hm : Move s a u) (hf : (s.pc q).role.forks = true)
    (hw : ∀ sg e, w = some (sg, e) → ∃ R, Chain s.swap.lists.next e R ∧ ∀ d ∈ R, d ∈ L (.seg sg q))
    (v : Nat) : u.Todo q k w v ↔ s.Todo q k w v := by
  unfold Todo
  simp only [h.frozen hm hf]
  apply or_congr_right
  cases w with
  | none =>
    constructor
    · rintro ⟨_, hd, -⟩
      exact hd.elim
    · rintro ⟨_, hd, -⟩
      exact hd.elim
  | some x =>
    obtain ⟨sg, e⟩ := x
    obtain ⟨R, hR, hsub⟩ := hw sg e rfl
    have hsame : ∀ sg' d, d ∈ L (.seg sg' q) →
        u.swap.lists.next d = s.swap.lists.next d ∧ u.swap.vaddr d = s.swap.vaddr d :=
      fun sg' d hd => (h.walked hm hf sg').2 d hd
    have hchain : ∀ sg', Chain u.swap.lists.next (u.swap.lists.head (.seg sg' q)) (L (.seg sg' q)) := by
      intro sg'
      rw [(h.walked hm hf sg').1]
      exact (h.fork_chain hf sg').congr fun d hd => (hsame sg' d hd).1
    apply exists_congr
    intro d
    rw [rest_iff (hR.congr fun d hd => (hsame sg d (hsub d hd)).1) hchain,
      rest_iff hR (h.fork_chain hf)]
    apply and_congr_right
    intro hd
    have hmem : ∃ sg', d ∈ L (.seg sg' q) := by
      rcases hd with hd | ⟨sg', -, hd⟩
      · exact ⟨sg, hsub d hd⟩
      · exact ⟨sg', hd⟩
    obtain ⟨sg', hd⟩ := hmem
    rw [(hsame sg' d hd).2]

/-- What is in a frame that an operation holds does not change while others run. -/
theorem held_bytes (h : s.Paged L m) (hm : Move s a u) (hC : s.Contained a) (hq : q ≠ s.cur)
    (hold : (s.pc q).role.hold = some (i, o)) : u.bytes (.frame i) = s.bytes (.frame i) := by
  have ho := h.order.good.1
  obtain ⟨-, ⟨-, hio, -⟩, hk⟩ := (ho.fits i).held (q := q) (o := o) hold
  have hne : ∀ {j o'}, (s.pc s.cur).role.hold = some (j, o') → i ≠ j := by
    rintro j o' hj rfl
    exact hq (ho.apart.single hold hj)
  cases hm with
  | @write as k off e b hpc has hk' hoff hslot =>
    have hkey := (h.slot_frame hpc (by rw [has]; rfl) hk' hslot).1
    have hi : i ≠ e.frame := by
      rintro rfl
      cases o with
      | none => exact (PtEntry.user_iff.1 hkey.2.1).2 hk
      | some v => exact hq (hk.2.2.symm.trans hkey.2.2.2)
    funext d
    have hlt := d.2
    have := blocks_apart hi pageSize
    change Function.update s.mem (e.frame * pageSize + off) b (i * pageSize + d) = s.mem (i * pageSize + d)
    rw [Function.update_of_ne (by omega)]
  | @loadZero v j as w st hpc =>
    change pageAt (bzero s.mem (j * pageSize)) (i * pageSize) = _
    exact pageAt_writeAt_block s.mem _ (hne (by rw [hpc]; rfl))
  | @loadElf v j as w bz offset dst len st hpc =>
    change pageAt (if bz then bzero s.mem (j * pageSize) else s.mem) (i * pageSize) = _
    split
    · exact pageAt_writeAt_block s.mem _ (hne (by rw [hpc]; rfl))
    · rfl
  | @reading v j c st hpc =>
    change pageAt (writeAt s.mem (j * pageSize) pageSize (s.cellBytes c)) (i * pageSize) = _
    exact pageAt_writeAt_block s.mem _ (hne (by rw [hpc]; rfl))
  | @elfReading v j as mem st hpc has hmem =>
    change pageAt mem (i * pageSize) = _
    rcases hmem with rfl | ⟨bz, offset, dst, len, hplan, rfl⟩
    · rfl
    · have hin := hC.inside hpc has
      rw [hplan] at hin
      exact pageAt_writeAt_of_ne s.mem _ (Nat.le_trans (Nat.add_le_add_left (Nat.min_le_left ..) dst) hin)
        (hne (by rw [hpc]; rfl))
  | @ptSpace r j pos ipt hpc hj hpid hu hspace hcopy =>
    obtain ⟨-, hsp⟩ := PageTable.findspace_some hspace
    simp only [PtEntry.isSpace, Bool.and_eq_true, Bool.not_eq_true', bne_iff_ne] at hsp
    have hi : i ≠ pos := by
      rintro rfl
      rw [show (s.ipt.pt.entries i).ctrl.io = true from hio] at hsp
      cases hsp.1.1.2
    change pageAt (writeAt s.mem (pos * pageSize) pageSize (s.frame j)) (i * pageSize) = _
    exact pageAt_writeAt_block s.mem _ hi
  | _ => rfl

end Sys.Paged

/-- The address spaces of the others stay as they are. -/
theorem Move.as_other {s u : Sys} (hm : Move s a u) (hq : q ≠ s.cur) (hn : s.pc q ≠ .none)
    (hz : s.pc q ≠ .zombie) : u.as q = s.as q := by
  have hupd : ∀ {p x}, u.procs = Function.update s.procs p x → p ≠ q → u.as q = s.as q := by
    intro p x hu hp
    unfold Sys.as
    rw [hu, Function.update_of_ne (Ne.symm hp)]
  cases hm with
  | @fork as child pt _ _ _ hchild =>
    have hp : q ≠ child := by
      rintro rfl
      exact hn hchild
    rw [Sys.as_goto]
    change (Function.update s.procs child ⟨s.as s.cur, .embryo⟩ q).as = _
    rw [Function.update_of_ne hp]
    rfl
  | @spawn p _ hp =>
    apply hupd rfl
    rintro rfl
    exact hn hp
  | @reap p _ hp =>
    apply hupd rfl
    rintro rfl
    exact hz hp
  | exec => exact hupd rfl (Ne.symm hq)
  | storing => exact congrFun ((Sys.as_goto ..).trans (Sys.as_mapPc ..)) q
  | ptEnd => exact congrFun ((Sys.as_goto ..).trans ((Sys.as_setPc ..).trans (Sys.as_mapPc ..))) q
  | dispatch => rfl
  | write => rfl
  | hit => rfl
  | allocFree => rfl
  | kfree => rfl
  | _ => exact congrFun (Sys.as_goto ..) q

theorem SysStep.not_embryo {s u : Sys} (h : SysStep s a u) : (s.pc s.cur).role ≠ .embryo := by
  intro he
  have hpc := Pc.eq_embryo he
  have hen := h.1
  cases a <;> simp [Sys.Enabled, hpc, Pc.switchable, Pc.ready, Pc.advances] at hen

end Clape
