import Clape.KernelHeapFrees
import Clape.Runs

namespace Clape
set_option autoImplicit true

namespace KernelHeap
variable {n : Nat} {s : KernelHeap n} {v : HeapView}

theorem blocktype_ok (hsz : sz ≤ 2048) :
    ∃ k, blocktype sz = .ok k ∧ k < 8 ∧ sz ≤ blockSize k := by
  unfold blocktype
  cases hf : sizes.findIdx? fun b => sz ≤ b with
  | none =>
    rw [List.findIdx?_eq_none_iff] at hf
    have hlast := hf 2048 (by decide)
    rw [decide_eq_false_iff_not] at hlast
    exact absurd hsz hlast
  | some k =>
    obtain ⟨hk, hle, -⟩ := List.findIdx?_eq_some_iff_getElem.1 hf
    refine ⟨k, rfl, hk, ?_⟩
    show sz ≤ sizes[k]?.getD 0
    rw [List.getElem?_eq_getElem hk]
    exact of_decide_eq_true hle

theorem Inv.kmalloc (h : s.Inv v) (hbusy : s.Busy v) (hpc : s.pc t = .idle) (sz : Nat) :
    ∃ s' v', s.kmalloc t sz = .ok s' ∧ s'.Inv v' ∧ s'.Busy v' ∧ Allocates s s' t sz ∧ s'.runs = s.runs := by
  unfold KernelHeap.kmalloc
  by_cases hbig : largestSubpageSize ≤ sz
  · rw [if_pos hbig]
    refine ⟨_, v, rfl, h.goto hpc rfl rfl rfl rfl ?_, hbusy, .inr ⟨rfl, _, rfl, .inl rfl⟩, rfl⟩
    unfold largestSubpageSize at hbig
    show sz ≤ (sz + pageSize - 1) / pageSize * pageSize ∧ 0 < (sz + pageSize - 1) / pageSize
    unfold pageSize
    omega
  · rw [if_neg hbig]
    obtain ⟨k, hk, hlt, hsz⟩ := blocktype_ok (Nat.le_of_lt (Nat.not_le.1 hbig))
    rw [hk, ok_bind]
    obtain ⟨A, pr, B, hL, -, hpr, hfound⟩ | ⟨-, hmissing⟩ := search_spec (f := totalPagerefs)
      (p := fun pr => (s.refs pr).blocktype != k || decide (0 < (s.refs pr).nfree))
      (h.pages.sized.chain k) (h.sized_length_le k) none
    · have hmem : pr ∈ v.sized k := by
        rw [hL]
        exact List.mem_append_right _ List.mem_cons_self
      obtain ⟨hall, htype⟩ := (h.pages.typed k pr).1 hmem
      have hok := h.pages.page pr hall
      obtain ⟨b, F, hF⟩ : ∃ b F, v.free pr = b :: F := by
        apply List.exists_cons_of_length_pos
        rw [← hok.count]
        rw [htype, bne_self_eq_false, Bool.false_or, decide_eq_true_eq] at hpr
        exact hpr
      have hsz' : sz ≤ blockSize (s.refs pr).blocktype := by
        rw [htype]
        exact hsz
      obtain ⟨s', v', hs', hinv, hbusy', hhands⟩ := h.doalloc hall hF hpc hsz' fun qr hqr _ => hbusy qr hqr
      refine ⟨s', v', ?_, hinv, hbusy', hhands.allocates, hhands.runs⟩
      rw [hfound]
      dsimp only
      rw [htype, beq_self_eq_true, kassert_true, ok_bind]
      exact hs'
    · refine ⟨s.goto t (.wantPage sz k), v, ?_, h.goto hpc rfl rfl rfl rfl ⟨hlt, hsz⟩, hbusy,
        .inr ⟨rfl, _, rfl, .inl rfl⟩, rfl⟩
      rw [hmissing]
      rfl

theorem Inv.fresh_apart (h : s.Inv v) (hf : s.FreshRun a m) (hlive : s.live p = some b) :
    a + m * pageSize ≤ p ∨ p + b.size ≤ a := by
  obtain ⟨pr, hpr, hblk, hsize⟩ | ⟨k, hk, -, hsize⟩ := h.live_cell hlive
  · have hap := hf.2.2.2 _ _ (h.pageRun hpr)
    have hbd := hblk.bounds (h.pages.page pr hpr).type
    omega
  · have hap := hf.2.2.2 _ _ hk
    omega

theorem Inv.fresh_none (h : s.Inv v) (hf : s.FreshRun a m) (hm : 0 < m) :
    s.runs a = none ∧ s.live a = none := by
  constructor
  · cases hr : s.runs a with
    | none => rfl
    | some k =>
      have hap := hf.2.2.2 a k hr
      have hk := h.runs.pos a k hr
      unfold pageSize at hap
      omega
  · cases hl : s.live a with
    | none => rfl
    | some b =>
      have hap := h.fresh_apart hf hl
      have hb := h.live_size hl
      unfold pageSize at hap
      omega

theorem Inv.newRun (pc : HeapPc) {pc' : HeapPc} {o : HeapOwner n} (h : s.Inv v) (hf : s.FreshRun a 1) (hpc : s.pc t = pc')
    (hnone : s.place v o = none) (hslot : pc.slot = pc'.slot) (hok : pc.Ok s.roots)
    (hplaces : ∀ x, (s.goto t pc).place v x = if x = o then some a else s.place v x) :
    (KernelHeap.goto { s with runs := Function.update s.runs a (some 1) } t pc).Inv v where
  pages := h.pages
  runs := h.runs.alloc hnone Nat.one_pos ⟨hf.1, hf.2.1, hf.2.2.1⟩ hf.2.2.2 (fun _ => rfl) hplaces
  marks := by
    have hslots : (KernelHeap.goto { s with runs := Function.update s.runs a (some 1) } t pc).slots v = s.slots v := by
      funext x
      rw [slots_goto, hslot, ← hpc]
      split
      · subst x
        rfl
      · rfl
    rw [hslots]
    exact h.marks
  located := h.located
  blocks p b hlive := by
    obtain ⟨hsz, hsub | ⟨k, hk, hpos, hsize⟩⟩ := h.blocks p b hlive
    · exact ⟨hsz, .inl hsub⟩
    · refine ⟨hsz, .inr ⟨k, ?_, hpos, hsize⟩⟩
      have hne : p ≠ a := by
        intro he
        rw [he, (h.fresh_none hf Nat.one_pos).1] at hk
        cases hk
      show Function.update s.runs a (some 1) p = some k
      rw [Function.update_of_ne hne]
      exact hk
  threads := threads_goto _ t (fun u _ => h.threads u) hok

/-- A block of whole pages is handed out. -/
theorem Inv.bigBlock (h : s.Inv v) (hf : s.FreshRun a m) (hpc : s.pc t = .wantBig sz m) :
    (KernelHeap.goto { s with
      runs := Function.update s.runs a (some m)
      live := Function.update s.live a (some ⟨sz, m * pageSize⟩) } t .idle).Inv v := by
  have hok := h.threads t
  rw [hpc] at hok
  obtain ⟨hsz, hm⟩ := hok
  obtain ⟨hrun, hlive⟩ := h.fresh_none hf hm
  constructor
  · constructor
    · exact h.pages.all
    · exact h.pages.sized
    · exact h.pages.typed
    · intro pr hpr
      have hpok := h.pages.page pr hpr
      apply hpok.congr (fun _ _ => rfl)
      intro b hb
      have hbd := hb.bounds hpok.type
      have hpos := (blockSize_facts hpok.type).1
      have hap := hf.2.2.2 _ _ (h.pageRun hpr)
      have hmp : 0 < m * pageSize := Nat.mul_pos hm (by decide)
      apply Function.update_of_ne
      omega
  · have hnone : s.place v (.big a) = none := by
      show bigRun s.live a = none
      unfold bigRun
      rw [hlive]
    apply h.runs.alloc hnone hm ⟨hf.1, hf.2.1, hf.2.2.1⟩ hf.2.2.2 (fun hs => hs.elim)
    intro o
    rw [place_goto]
    cases o with
    | big p =>
      by_cases hp : p = a
      · subst hp
        have hle : pageSize ≤ m * pageSize := Nat.le_mul_of_pos_left _ hm
        simp [place, bigRun, hle]
      · simp [place, bigRun, hp]
    | thread u =>
      by_cases hu : u = t
      · subst hu
        simp [place, hpc, HeapPc.page]
      · simp [place, hu]
    | spare u =>
      by_cases hu : u = t
      · subst hu
        simp [place, hpc, HeapPc.spare]
      · simp [place, hu]
    | given u =>
      by_cases hu : u = t
      · subst hu
        simp [place, hpc, HeapPc.given]
      · simp [place, hu]
    | page pr => simp [place]
    | refs r => simp [place]
  · have hslots : (KernelHeap.goto { s with
        runs := Function.update s.runs a (some m)
        live := Function.update s.live a (some ⟨sz, m * pageSize⟩) } t .idle).slots v = s.slots v := by
      funext x
      rw [slots_goto]
      split
      · subst x
        exact (congrArg HeapPc.slot hpc).symm
      · rfl
    rw [hslots]
    exact h.marks
  · exact h.located
  · intro p b hb
    change Function.update s.live a (some ⟨sz, m * pageSize⟩) p = some b at hb
    by_cases hp : p = a
    · rw [hp, Function.update_self] at hb
      cases hb
      refine ⟨hsz, .inr ⟨m, ?_, hm, rfl⟩⟩
      rw [hp]
      exact Function.update_self ..
    · rw [Function.update_of_ne hp] at hb
      obtain ⟨hsz', hsub | ⟨k, hk, hrest⟩⟩ := h.blocks p b hb
      · exact ⟨hsz', .inl hsub⟩
      · exact ⟨hsz', .inr ⟨k, (Function.update_of_ne hp ..).trans hk, hrest⟩⟩
  · exact threads_goto _ t (fun u _ => h.threads u) trivial

theorem Inv.gotPage (h : s.Inv v) (hbusy : s.Busy v) (hw : (s.pc t).wants = some m) (hf : s.FreshRun a m) :
    ∃ s' v', s.gotPage t a = .ok s' ∧ s'.Inv v' ∧ s'.Busy v' ∧
      (∀ sz, (s.pc t).asked = some sz → Allocates s s' t sz) ∧
      s'.runs = Function.update s.runs a (some m) := by
  have hok := h.threads t
  have halign : (a % pageSize == 0) = true := by
    rw [hf.1]
    rfl
  unfold KernelHeap.gotPage
  cases hpc : s.pc t with
  | wantBig sz npages =>
    rw [hpc] at hw
    cases hw
    refine ⟨_, v, ?_, h.bigBlock hf hpc, hbusy, ?_, rfl⟩
    swap
    · intro sz' hsz'
      cases hsz'
      rw [hpc] at hok
      exact .inl ⟨⟨a, (h.fresh_none hf hok.2).2, _, rfl⟩, rfl⟩
    dsimp only
    rw [halign]
    rfl
  | wantPage sz k =>
    rw [hpc] at hw hok
    cases hw
    have hnone : s.place v (.thread t) = none := congrArg HeapPc.page hpc
    have hspare : s.place v (.spare t) = none := congrArg HeapPc.spare hpc
    have hgiven : s.place v (.given t) = none := congrArg HeapPc.given hpc
    have hinv := h.newRun (.hasPage sz k a) hf hpc hnone rfl hok (by
      intro x
      rw [place_goto]
      by_cases h1 : x = .thread t
      · rw [if_pos h1, if_pos h1]
        rfl
      · rw [if_neg h1, if_neg h1]
        by_cases h2 : x = .spare t
        · rw [if_pos h2, h2, hspare]
          rfl
        · rw [if_neg h2]
          by_cases h3 : x = .given t
          · rw [if_pos h3, h3, hgiven]
            rfl
          · rw [if_neg h3])
    refine ⟨_, v, ?_, hinv, hbusy, ?_, rfl⟩
    · dsimp only
      rw [halign]
      rfl
    · intro sz' hsz'
      cases hsz'
      exact .inr ⟨rfl, _, rfl, .inl rfl⟩
  | wantRefs sz k b r j =>
    rw [hpc] at hw hok
    cases hw
    have hpage : s.place v (.thread t) = some b := congrArg HeapPc.page hpc
    have hnone : s.place v (.spare t) = none := congrArg HeapPc.spare hpc
    have hgiven : s.place v (.given t) = none := congrArg HeapPc.given hpc
    have hinv := h.newRun (.hasRefs sz k b r j a) hf hpc hnone rfl hok (by
      intro x
      rw [place_goto]
      by_cases h1 : x = .thread t
      · rw [if_pos h1, h1, if_neg nofun, hpage]
        rfl
      · rw [if_neg h1]
        by_cases h2 : x = .spare t
        · rw [if_pos h2, if_pos h2]
          rfl
        · rw [if_neg h2, if_neg h2]
          by_cases h3 : x = .given t
          · rw [if_pos h3, h3, hgiven]
            rfl
          · rw [if_neg h3])
    refine ⟨_, v, rfl, hinv, hbusy, ?_, rfl⟩
    intro sz' hsz'
    cases hsz'
    exact .inr ⟨rfl, _, rfl, .inl rfl⟩
  | _ =>
    rw [hpc] at hw
    cases hw

theorem Inv.freeRun (pc : HeapPc) {pc' : HeapPc} {o : HeapOwner n} (h : s.Inv v) (hpc : s.pc t = pc')
    (ho : s.place v o = some a) (hbig : ∀ p, o ≠ .big p) (hslot : pc.slot = pc'.slot) (hok : pc.Ok s.roots)
    (hplaces : ∀ x, (s.goto t pc).place v x = if x = o then none else s.place v x) :
    s.freeKpages a = .ok { s with runs := Function.update s.runs a none } ∧
      (KernelHeap.goto { s with runs := Function.update s.runs a none } t pc).Inv v := by
  have hsome := h.runs.owned.marked_of ho
  constructor
  · obtain ⟨m, hm⟩ := Option.isSome_iff_exists.1 hsome
    unfold KernelHeap.freeKpages
    rw [hm]
  · constructor
    · exact h.pages
    · exact h.runs.free ho hplaces
    · have hslots : (KernelHeap.goto { s with runs := Function.update s.runs a none } t pc).slots v = s.slots v := by
        funext x
        rw [slots_goto, hslot, ← hpc]
        split
        · subst x
          rfl
        · rfl
      rw [hslots]
      exact h.marks
    · exact h.located
    · intro p b hlive
      obtain ⟨hsz, hsub | ⟨k, hk, hpos, hsize⟩⟩ := h.blocks p b hlive
      · exact ⟨hsz, .inl hsub⟩
      · refine ⟨hsz, .inr ⟨k, ?_, hpos, hsize⟩⟩
        have hplace : s.place v (.big p) = some p := by
          show bigRun s.live p = some p
          unfold bigRun
          rw [show s.live p = some b from hlive]
          have hle : pageSize ≤ b.size := by
            rw [hsize]
            exact Nat.le_mul_of_pos_left _ hpos
          exact if_pos hle
        have hne : p ≠ a := h.runs.owned.ne hplace ho (hbig p).symm
        exact (Function.update_of_ne hne ..).trans hk
    · exact threads_goto _ t (fun u _ => h.threads u) hok

/-- A thread is done with the page that it has or gives back. -/
theorem Inv.freeDone {pc' : HeapPc} {o : HeapOwner n} (h : s.Inv v) (hpc : s.pc t = pc')
    (ho : s.place v o = some a) (hone : o = .thread t ∨ o = .given t) (hspare : pc'.spare = none)
    (hother : o = .thread t → pc'.given = none) (hother' : o = .given t → pc'.page = none)
    (hslot : pc'.slot = none) :
    s.freeKpages a = .ok { s with runs := Function.update s.runs a none } ∧
      (KernelHeap.goto { s with runs := Function.update s.runs a none } t .idle).Inv v := by
  apply h.freeRun .idle hpc ho _ hslot.symm trivial
  · intro x
    rw [place_goto]
    have h1 : s.place v (.thread t) = pc'.page := congrArg HeapPc.page hpc
    have h2 : s.place v (.spare t) = pc'.spare := congrArg HeapPc.spare hpc
    have h3 : s.place v (.given t) = pc'.given := congrArg HeapPc.given hpc
    cases hone with
    | inl hone =>
      subst hone
      split
      · rfl
      · split
        · subst x
          rw [h2, hspare]
          rfl
        · split
          · subst x
            rw [h3, hother rfl]
            rfl
          · rfl
    | inr hone =>
      subst hone
      by_cases hx : x = .thread t
      · rw [if_pos hx, hx, if_neg nofun, h1, hother' rfl]
        rfl
      · rw [if_neg hx]
        by_cases hx2 : x = .spare t
        · rw [if_pos hx2, hx2, if_neg nofun, h2, hspare]
          rfl
        · rw [if_neg hx2]
          rfl
  · intro p he
    cases hone with
    | inl hone =>
      rw [hone] at he
      cases he
    | inr hone =>
      rw [hone] at he
      cases he

/-- A thread goes on: it gives back the run that it has to, and is nearer to its block or done. -/
structure Resumes (s s' : KernelHeap n) (t : Fin n) : Prop where
  asked : ∀ sz, (s.pc t).asked = some sz → Allocates s s' t sz
  done : (s.pc t).asked = none → s'.live = s.live ∧ s'.pc = Function.update s.pc t .idle
  runs : s'.runs = match (s.pc t).returns with
    | some a => Function.update s.runs a none
    | none => s.runs

theorem Allocates.resumes {s' : KernelHeap n} {pc : HeapPc} (h : Allocates s s' t sz) (hpc : s.pc t = pc)
    (hsz : pc.asked = some sz) (hr : s'.runs = match pc.returns with
      | some a => Function.update s.runs a none
      | none => s.runs) : Resumes s s' t := by
  subst hpc
  refine ⟨?_, ?_, hr⟩
  · intro sz' hsz'
    rw [hsz] at hsz'
    cases hsz'
    exact h
  · intro hno
    rw [hsz] at hno
    cases hno

theorem Inv.resume (h : s.Inv v) (hbusy : s.Busy v) (hn : n < 256) (t : Fin n) :
    ∃ s' v', s.resume t = .ok s' ∧ s'.Inv v' ∧ s'.Busy v' ∧ Resumes s s' t := by
  have hstay : ∀ pc, s.pc t = pc → Function.update s.pc t pc = s.pc := by
    rintro pc rfl
    exact Function.update_eq_self ..
  unfold KernelHeap.resume
  cases hpc : s.pc t with
  | hasPage sz k a =>
    obtain ⟨s', v', hs', hinv, hbusy', halloc, hruns⟩ := h.takePage hbusy hn hpc
    exact ⟨s', v', hs', hinv, hbusy', halloc.resumes hpc rfl hruns⟩
  | noRef a =>
    have hplace : s.place v (.thread t) = some a := congrArg HeapPc.page hpc
    obtain ⟨hfree, hinv⟩ := h.freeDone hpc hplace (.inl rfl) rfl (fun _ => rfl) nofun rfl
    refine ⟨_, v, ?_, hinv, hbusy, ?_, fun _ => ⟨rfl, rfl⟩, ?_⟩
    · dsimp only
      rw [hfree]
      rfl
    · rw [hpc]
      nofun
    · rw [hpc]
      rfl
  | hasRefs sz k a r j va =>
    obtain ⟨s', v', hs', hinv, hbusy', halloc, hruns⟩ := h.takeRefs hbusy hpc
    exact ⟨s', v', hs', hinv, hbusy', halloc.resumes hpc rfl hruns⟩
  | dropRefs sz k a r j va =>
    have hok := h.threads t
    rw [hpc] at hok
    have hplace : s.place v (.spare t) = some va := congrArg HeapPc.spare hpc
    have hpage : s.place v (.thread t) = some a := congrArg HeapPc.page hpc
    have hgiven : s.place v (.given t) = none := congrArg HeapPc.given hpc
    obtain ⟨hfree, hinv⟩ := h.freeRun (.retake sz k a r j) hpc hplace nofun rfl hok (by
      intro x
      rw [place_goto]
      by_cases h1 : x = .thread t
      · rw [if_pos h1, h1, if_neg nofun, hpage]
        rfl
      · rw [if_neg h1]
        by_cases h2 : x = .spare t
        · rw [if_pos h2, if_pos h2]
          rfl
        · rw [if_neg h2, if_neg h2]
          by_cases h3 : x = .given t
          · rw [if_pos h3, h3, hgiven]
            rfl
          · rw [if_neg h3])
    refine ⟨_, v, ?_, hinv, hbusy, Allocates.resumes (.inr ⟨rfl, _, rfl, .inl rfl⟩) hpc rfl rfl⟩
    dsimp only
    rw [hfree]
    rfl
  | retake sz k a r j =>
    obtain ⟨s', v', hs', hinv, hbusy', halloc, hruns⟩ := h.retakeRefs hbusy hpc
    exact ⟨s', v', hs', hinv, hbusy', halloc.resumes hpc rfl hruns⟩
  | freePage a =>
    have hplace : s.place v (.given t) = some a := congrArg HeapPc.given hpc
    obtain ⟨hfree, hinv⟩ := h.freeDone hpc hplace (.inr rfl) rfl nofun (fun _ => rfl) rfl
    refine ⟨_, v, ?_, hinv, hbusy, ?_, fun _ => ⟨rfl, rfl⟩, ?_⟩
    · dsimp only
      rw [hfree]
      rfl
    · rw [hpc]
      nofun
    · rw [hpc]
      rfl
  | idle =>
    refine ⟨s, v, rfl, h, hbusy, ?_, fun _ => ⟨rfl, (hstay _ hpc).symm⟩, ?_⟩
    · rw [hpc]
      nofun
    · rw [hpc]
      rfl
  | _ =>
    exact ⟨s, v, rfl, h, hbusy, Allocates.resumes (.inr ⟨rfl, _, (hstay _ hpc).symm, .inl rfl⟩) hpc rfl rfl⟩

theorem Inv.write {m : Nat → Nat} (h : s.Inv v) (hm : ∀ x, s.InRun x → ¬ s.InLive x → m x = s.mem x) :
    KernelHeap.Inv { s with mem := m } v where
  pages := {
    all := h.pages.all
    sized := h.pages.sized
    typed := h.pages.typed
    page := fun pr hpr => (h.pages.page pr hpr).congr
      (fun b hb => hm b (h.free_inRun hpr hb) (h.free_not_inLive hpr hb)) fun _ _ => rfl }
  runs := h.runs
  marks := h.marks
  located := h.located
  blocks := h.blocks
  threads := h.threads

/-- What a step does, with the pagerefs on `allbase` after it. -/
def Does (s s' : KernelHeap n) (all : List Nat) : HeapAct n → Prop
  | .kmalloc t sz => Allocates s s' t sz ∧ s'.runs = s.runs
  | .kfree t p => p = 0 ∧ s' = s ∨ Freed s s' all t p
  | .page t a => ∃ m, (s.pc t).wants = some m ∧ (∀ sz, (s.pc t).asked = some sz → Allocates s s' t sz) ∧
      s'.runs = Function.update s.runs a (some m)
  | .resume t => Resumes s s' t
  | .write m => s' = { s with mem := m }

theorem Inv.exec (h : s.Inv v) (hbusy : s.Busy v) (hn : n < 256) (hpre : act.Pre s) :
    ∃ s' v', s.exec act = .ok s' ∧ s'.Inv v' ∧ s'.Busy v' ∧ Does s s' v'.all act := by
  cases act with
  | kmalloc t sz => exact h.kmalloc hbusy hpre.1 sz
  | kfree t p => exact h.kfree hbusy hpre.1 hpre.2
  | page t a =>
    obtain ⟨m, hw, hf⟩ := hpre
    obtain ⟨s', v', hs', hinv, hbusy', halloc, hruns⟩ := h.gotPage hbusy hw hf
    exact ⟨s', v', hs', hinv, hbusy', m, hw, halloc, hruns⟩
  | resume t => exact h.resume hbusy hn t
  | write m => exact ⟨_, v, rfl, h.write hpre, hbusy, rfl⟩

theorem boot_inv (n : Nat) (refs : Nat → PageRef) (m : Nat → Nat) :
    (boot n refs m).Inv ⟨[], fun _ => [], fun _ => [], fun _ => (0, 0)⟩ := by
  have hplace : ∀ o, (boot n refs m).place ⟨[], fun _ => [], fun _ => [], fun _ => (0, 0)⟩ o = none := by
    intro o
    cases o with
    | refs r =>
      show (if r < numPagerefpages then none else none) = none
      split <;> rfl
    | _ => rfl
  have hslots : ∀ o, (boot n refs m).slots ⟨[], fun _ => [], fun _ => [], fun _ => (0, 0)⟩ o = none := by
    intro o
    cases o <;> rfl
  have hmarks : ∀ r, ((boot n refs m).roots r).marks = ∅ := by
    intro r
    apply Finset.filter_eq_empty_iff.2
    intro j _
    simp [boot, KheapRoot.marked]
  constructor
  · constructor
    · exact ⟨fun _ => rfl, fun _ => List.nodup_nil, nofun⟩
    · exact ⟨fun _ => rfl, fun _ => List.nodup_nil, nofun⟩
    · intro k pr
      exact iff_of_false List.not_mem_nil fun h => List.not_mem_nil h.1
    · nofun
  · constructor
    · nofun
    · nofun
    · nofun
    · constructor
      · intro o o' a ho
        rw [hplace] at ho
        cases ho
      · intro a
        refine iff_of_false nofun ?_
        rintro ⟨o, ho⟩
        rw [hplace] at ho
        cases ho
    · intro o a _ ho
      rw [hplace] at ho
      cases ho
  · constructor
    · constructor
      · intro o o' a ho
        rw [hslots] at ho
        cases ho
      · intro a
        rw [hmarks]
        refine iff_of_false (fun hm => absurd hm.2 (Finset.notMem_empty _)) ?_
        rintro ⟨o, ho⟩
        rw [hslots] at ho
        cases ho
    · intro r _
      rw [hmarks]
      rfl
    · intro r r' _ _ _
      rfl
  · nofun
  · nofun
  · exact fun _ => trivial

theorem run_inv {refs : Nat → PageRef} (hn : n < 256) (hrun : Run HeapStep (boot n refs m) tr s) :
    ∃ v, s.Inv v ∧ s.Busy v := by
  apply hrun.invariant (P := fun s => ∃ v, KernelHeap.Inv s v ∧ s.Busy v)
  · exact ⟨_, boot_inv n refs m, nofun⟩
  · intro u act w hu hstep
    obtain ⟨v, hinv, hbusy⟩ := hu
    obtain ⟨s', v', hs', hinv', hbusy', -⟩ := hinv.exec hbusy hn hstep.1
    have hw : Except.ok s' = Except.ok w := hs'.symm.trans hstep.2
    cases hw
    exact ⟨v', hinv', hbusy'⟩

end KernelHeap

end Clape
