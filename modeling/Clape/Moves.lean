import Clape.System

namespace Clape
set_option autoImplicit true

namespace Sys

theorem pc_setPc (s : Sys) (q : Nat) (c : Pc) : (s.setPc q c).pc = Function.update s.pc q c := by
  funext r
  by_cases hr : r = q
  · subst hr
    simp [pc, setPc]
  · simp [pc, setPc, hr]

theorem pc_goto (s : Sys) (c : Pc) : (s.goto c).pc = Function.update s.pc s.cur c :=
  s.pc_setPc s.cur c

theorem pc_mapPc (s : Sys) (f : Pc → Pc) : (s.mapPc f).pc = fun q => f (s.pc q) := rfl

theorem as_setPc (s : Sys) (q : Nat) (c : Pc) : (s.setPc q c).as = s.as := by
  funext r
  by_cases hr : r = q
  · subst hr
    simp [as, setPc]
  · simp [as, setPc, hr]

theorem as_goto (s : Sys) (c : Pc) : (s.goto c).as = s.as := s.as_setPc s.cur c

theorem as_mapPc (s : Sys) (f : Pc → Pc) : (s.mapPc f).as = s.as := rfl

theorem pc_update {s u : Sys} (h : u.procs = Function.update s.procs p x) :
    u.pc = Function.update s.pc p x.pc := by
  funext r
  unfold pc
  rw [h]
  by_cases hr : r = p
  · subst hr
    simp
  · simp [hr]

end Sys

/-- What a step does. The counters of vmstats.c are left open. -/
inductive Move (s : Sys) : Action → Sys → Prop where
  | dispatch : (s.pc s.cur).switchable = true → (s.pc q).ready = true →
      asActivate s.ipt.pt s.mmu (s.as q) q = .ok (pt, mmu) →
      Move s (.dispatch q) { s.setPt pt with mmu := mmu, cur := q, stats := st }
  | write : s.pc s.cur = .run → s.as s.cur = some as → k < numTlb → off < pageSize →
      s.mmu.slots k = some e → e.dirty = true →
      Move s (.write k off b) { s with mem := Function.update s.mem (e.frame * pageSize + off) b }
  | hit : s.pc s.cur = .run → s.as s.cur = some as → v = Sys.pageOf a → a < userStack →
      t ≠ .readonly → s.Misses v → as.isOk = true →
      s.ipt.ptGetPaddr v s.cur = .ok (ipt, some i) →
      tlbInsert ipt.pt s.mmu as s.cur v i = .ok (pt, mmu, r) →
      Move s (.fault t a) { s with ipt := { ipt with pt := pt }, mmu := mmu, stats := st }
  | space : s.pc s.cur = .run → s.as s.cur = some as → v = Sys.pageOf a → a < userStack →
      t ≠ .readonly → as.isOk = true → s.ipt.ptGetPaddr v s.cur = .ok (ipt₀, none) →
      s.ipt.pt.findspace = some i → s.ipt.claimSpace v s.cur i = .ok ipt →
      Move s (.fault t a) ({ s with ipt := ipt, stats := st }.goto (.loadPage v i))
  | seek : s.pc s.cur = .run → s.as s.cur = some as → v = Sys.pageOf a → a < userStack →
      t ≠ .readonly → as.isOk = true → s.ipt.ptGetPaddr v s.cur = .ok (ipt₀, none) →
      s.ipt.pt.findspace = none →
      Move s (.fault t a) ({ s with stats := st }.goto (.findVictim v s.ipt.pt.lastIndex))
  | exit : s.pc s.cur = .run → a = .exit ∨ (∃ x, a = .fault .readonly x) →
      s.ipt.freePages s.cur = .ok ipt →
      Move s a ({ s with ipt := ipt, stats := st }.goto
        (.removeSwap .text (s.swap.lists.head (.seg .text s.cur))))
  | segv : s.pc s.cur = .loadPage v i → s.as s.cur = some as →
      s.swap.loadBegin as v s.cur = .ok (w, none) → as.loadPlan v = .segv →
      s.ipt.freePages s.cur = .ok ipt →
      Move s .advance ({ s with ipt := ipt }.goto
        (.removeSwap .text (s.swap.lists.head (.seg .text s.cur))))
  | allocFree : s.pc s.cur = .run →
      freeRun s.ipt.pt.entries 1 (List.range s.ipt.pt.nEntry) none = .inr (f, i) →
      s.ipt.pt.markFree s.cur i i = .ok pt →
      Move s .alloc (s.setPt { pt with contiguous := Function.update pt.contiguous i 1 })
  | allocWait : (s.pc s.cur = .run ∧ a = .alloc) ∨ (s.pc s.cur = .alloc ∧ a = .advance) →
      s.ipt.pt.chanceSearch 1 fp = (E, none) →
      Move s a ((s.setPt { s.ipt.pt with entries := E, lastIndex := 0 }).goto (.allocWait false))
  | allocTake : (s.pc s.cur = .run ∧ a = .alloc) ∨ (s.pc s.cur = .alloc ∧ a = .advance) →
      s.ipt.pt.chanceSearch 1 fp = (E, some (f, i)) →
      ({ s.ipt with pt := { s.ipt.pt with entries := E } } : Ipt).claimKernel s.cur i =
        .ok (ipt, none) →
      Move s a ({ s with ipt := ipt }.finishAlloc i)
  | allocEvict : (s.pc s.cur = .run ∧ a = .alloc) ∨ (s.pc s.cur = .alloc ∧ a = .advance) →
      s.ipt.pt.chanceSearch 1 fp = (E, some (f, i)) →
      ({ s.ipt with pt := { s.ipt.pt with entries := E } } : Ipt).claimKernel s.cur i =
        .ok (ipt, some (v, p)) →
      (a = .alloc → freeRun s.ipt.pt.entries 1 (List.range s.ipt.pt.nEntry) none = .inl fp) →
      Move s a ({ s with ipt := ipt }.goto (.storeSwap .alloc i v p))
  | kfree : (s.pc s.cur).switchable = true → s.ipt.pt.contiguous i = 1 →
      s.ipt.pt.freeContiguousPages i = .ok pt →
      Move s (.kfree i) ((s.setPt pt).mapPc Pc.wakePt)
  | fork : s.pc s.cur = .run → s.as s.cur = some as → s.semFork = true → s.pc child = .none →
      PidOk child → s.ipt.pt.prepareCopyPt s.cur = .ok pt →
      Move s (.fork child) (({ s with
        semFork := false
        procs := Function.update s.procs child ⟨s.as s.cur, .embryo⟩ }.setPt pt).goto
          (.copySwap child .text (s.swap.lists.head (.seg .text s.cur))))
  | spawn : s.pc s.cur = .run → s.pc q = .none → PidOk q →
      Move s (.spawn q) { s with procs := Function.update s.procs q ⟨none, .run⟩ }
  | exec : s.pc s.cur = .run → s.as s.cur = none → loadElf vn phs = some as →
      asActivate s.ipt.pt s.mmu (some as) s.cur = .ok (pt, mmu) →
      Move s (.exec vn phs) { s.setPt pt with
        mmu := mmu
        procs := Function.update s.procs s.cur { s.procs s.cur with as := some as }
        stats := st }
  | reap : s.pc s.cur = .run → s.pc q = .zombie →
      Move s (.reap q) { s with procs := Function.update s.procs q ⟨none, .none⟩ }
  | noVictim : s.pc s.cur = .findVictim v start → s.ipt.pt.seekVictim start = (E, none) →
      Move s .advance
        ((s.setPt { s.ipt.pt with entries := E }).goto (.victimWait v start false))
  | takeVictim : s.pc s.cur = .findVictim v start → s.ipt.pt.seekVictim start = (E, some i) →
      ({ s.ipt with pt := { s.ipt.pt with entries := E } } : Ipt).claimVictim v s.cur i =
        .ok (ipt₁, none) → ipt₁.hashVictim v s.cur i = .ok ipt →
      Move s .advance ({ s with ipt := ipt }.goto (.loadPage v i))
  | evictVictim : s.pc s.cur = .findVictim v start → s.ipt.pt.seekVictim start = (E, some i) →
      ({ s.ipt with pt := { s.ipt.pt with entries := E } } : Ipt).claimVictim v s.cur i =
        .ok (ipt, some (ov, op)) →
      Move s .advance ({ s with ipt := ipt }.goto (.storeSwap (.victim v) i ov op))
  | victimWake : s.pc s.cur = .victimWait v start true →
      Move s .advance (s.goto (.findVictim v start))
  | store : s.pc s.cur = .storeSwap k i v p →
      s.swap.storeBegin (s.as s.cur) v p = .ok (w, c) →
      Move s .advance ({ s with swap := w }.goto (.storing k i c))
  | storing : s.pc s.cur = .storing k i c → s.swap.storeEnd s.cur c = .ok w →
      Move s .advance (({ s with
        swap := w
        disk := writeAt s.disk (s.swap.offset c) pageSize (s.frame i)
        stats := st }.mapPc (Pc.wakeCell c)).goto (.stored k i))
  | storedVictim : s.pc s.cur = .stored (.victim v) i → s.ipt.hashVictim v s.cur i = .ok ipt →
      Move s .advance ({ s with ipt := ipt }.goto (.loadPage v i))
  | storedAlloc : s.pc s.cur = .stored .alloc i →
      Move s .advance
        ((s.setPt (s.ipt.pt.set i ((s.ipt.pt.entries i).setIo false))).finishAlloc i)
  | storedFork : s.pc s.cur = .stored (.fork child) i →
      Move s .advance (s.goto (.copyPt child (i + 1)))
  | loadFound : s.pc s.cur = .loadPage v i → s.as s.cur = some as →
      s.swap.loadBegin as v s.cur = .ok (w, some c) →
      Move s .advance ({ s with swap := w }.goto (.cell (.load v i) c))
  | loadZero : s.pc s.cur = .loadPage v i → s.as s.cur = some as →
      s.swap.loadBegin as v s.cur = .ok (w, none) → as.loadPlan v = .zero →
      Move s .advance
        ({ s with mem := bzero s.mem (i * pageSize), stats := st }.goto (.loaded v i))
  | loadElf : s.pc s.cur = .loadPage v i → s.as s.cur = some as →
      s.swap.loadBegin as v s.cur = .ok (w, none) → as.loadPlan v = .read bz offset dst len →
      Move s .advance ({ s with
        mem := if bz then bzero s.mem (i * pageSize) else s.mem
        stats := st }.goto (.elfReading v i))
  | cellSleep : s.pc s.cur = .cell k c → s.swap.testStore s.cur c k.fn = .ok (w, true) →
      Move s .advance ({ s with swap := w }.goto (.cellWait k c false))
  | cellLoad : s.pc s.cur = .cell (.load v i) c →
      s.swap.testStore s.cur c .loadSwap = .ok (w, false) →
      Move s .advance ({ s with swap := w, stats := st }.goto (.reading v i c))
  | cellExit : s.pc s.cur = .cell (.exit sg) c →
      s.swap.testStore s.cur c .removeProcessFromSwap = .ok (w, false) →
      Move s .advance ({ s with swap := w.freeCell c }.goto (.removeSwap sg (w.lists.next c)))
  | cellCopy : s.pc s.cur = .cell (.copy child sg f) c →
      s.swap.testStore s.cur c .copySwapPages = .ok (w, false) →
      Move s .advance ({ s with swap := w }.goto (.copyReading child sg c f))
  | cellWake : s.pc s.cur = .cellWait k c true → Move s .advance (s.goto (.cell k c))
  | reading : s.pc s.cur = .reading v i c →
      Move s .advance ({ s with
        mem := writeAt s.mem (i * pageSize) pageSize (s.cellBytes c)
        swap := s.swap.loadEnd c
        stats := st }.goto (.loaded v i))
  | elfReading : s.pc s.cur = .elfReading v i → s.as s.cur = some as →
      m = s.mem ∨ (∃ bz offset dst len, as.loadPlan v = .read bz offset dst len ∧
        m = (s.files as.vnode).readInto s.mem (i * pageSize + dst) offset len) →
      Move s .advance ({ s with mem := m, stats := st }.goto (.loaded v i))
  | loaded : s.pc s.cur = .loaded v i → s.as s.cur = some as →
      tlbInsert (s.ipt.pt.pageLoaded i) s.mmu as s.cur v i = .ok (pt, mmu, r) →
      Move s .advance ({ s.setPt pt with mmu := mmu, stats := st }.goto .run)
  | allocWake : s.pc s.cur = .allocWait true → Move s .advance (s.goto .alloc)
  | removeCell : s.pc s.cur = .removeSwap sg (some c) →
      Move s .advance (s.goto (.cell (.exit sg) c))
  | removeNext : s.pc s.cur = .removeSwap sg none → sg.next = some sg' →
      Move s .advance ({ s with swap := s.swap.clearList sg s.cur }.goto
        (.removeSwap sg' ((s.swap.clearList sg s.cur).lists.head (.seg sg' s.cur))))
  | removeDone : s.pc s.cur = .removeSwap sg none → sg.next = none →
      Move s .advance ({ s with swap := s.swap.clearList sg s.cur }.goto .zombie)
  | copyTake : s.pc s.cur = .copySwap child sg (some c) →
      s.swap.copyBegin sg child = .ok (w, f) →
      Move s .advance ({ s with swap := w }.goto (.cell (.copy child sg f) c))
  | copyNext : s.pc s.cur = .copySwap child sg none → sg.next = some sg' →
      Move s .advance
        (s.goto (.copySwap child sg' (s.swap.lists.head (.seg sg' s.cur))))
  | copyDone : s.pc s.cur = .copySwap child sg none → sg.next = none →
      Move s .advance (s.goto (.copyPt child 0))
  | copyReading : s.pc s.cur = .copyReading child sg c f →
      Move s .advance ({ s with kbuf := s.cellBytes c }.goto (.copyWriting child sg c f))
  | copyWriting : s.pc s.cur = .copyWriting child sg c f →
      Move s .advance ({ s with
        disk := writeAt s.disk (s.swap.offset f) pageSize s.kbuf
        swap := s.swap.copyEnd c f }.goto (.copySwap child sg (s.swap.lists.next c)))
  | ptSkip : s.pc s.cur = .copyPt child i → i < s.ipt.pt.nEntry →
      ¬ ((s.ipt.pt.entries i).pid = s.cur ∧ (s.ipt.pt.entries i).user = true) →
      Move s .advance (s.goto (.copyPt child (i + 1)))
  | ptStore : s.pc s.cur = .copyPt child i → i < s.ipt.pt.nEntry →
      (s.ipt.pt.entries i).pid = s.cur → (s.ipt.pt.entries i).user = true →
      s.ipt.pt.findspace = none → copyStoreAsserts (s.ipt.pt.entries i) = .ok () →
      Move s .advance (s.goto (.storeSwap (.fork child) i (s.ipt.pt.entries i).page child))
  | ptSpace : s.pc s.cur = .copyPt child i → i < s.ipt.pt.nEntry →
      (s.ipt.pt.entries i).pid = s.cur → (s.ipt.pt.entries i).user = true →
      s.ipt.pt.findspace = some pos → s.ipt.copyEntry child i pos = .ok ipt →
      Move s .advance ({ s with
        ipt := ipt
        mem := writeAt s.mem (pos * pageSize) pageSize (s.frame i) }.goto (.copyPt child (i + 1)))
  | ptEnd : s.pc s.cur = .copyPt child i → ¬ i < s.ipt.pt.nEntry →
      s.ipt.pt.endCopyPt s.cur = .ok pt →
      Move s .advance
        (((({ s with semFork := true }.setPt pt).mapPc Pc.wakePt).setPc child .run).goto .run)

/-- The call in which a step stops the kernel. -/
inductive Stop (s : Sys) : Action → Fault → Prop where
  | dispatch : asActivate s.ipt.pt s.mmu (s.as q) q = .error e → (s.pc q).ready = true →
      Stop s (.dispatch q) e
  | notOk : s.pc s.cur = .run → s.as s.cur = some as → as.isOk = false → t ≠ .readonly →
      Stop s (.fault t a) (.kassert .vmFault .addrspace)
  | ptGetPaddr : s.pc s.cur = .run → s.as s.cur = some as → v = Sys.pageOf a → s.Misses v →
      a < userStack → s.ipt.ptGetPaddr v s.cur = .error e → Stop s (.fault t a) e
  | hit : s.pc s.cur = .run → s.as s.cur = some as → v = Sys.pageOf a → s.Misses v →
      a < userStack → s.ipt.ptGetPaddr v s.cur = .ok (ipt, some i) →
      tlbInsert ipt.pt s.mmu as s.cur v i = .error e → Stop s (.fault t a) e
  | space : s.pc s.cur = .run → s.as s.cur = some as → v = Sys.pageOf a → a < userStack →
      s.ipt.ptGetPaddr v s.cur = .ok (ipt₀, none) → s.ipt.pt.findspace = some i →
      s.ipt.claimSpace v s.cur i = .error e → Stop s (.fault t a) e
  | exit : s.pc s.cur = .run → a = .exit ∨ (∃ x, a = .fault .readonly x) →
      s.ipt.freePages s.cur = .error e → Stop s a e
  | segv : s.pc s.cur = .loadPage v i → s.as s.cur = some as → as.loadPlan v = .segv →
      s.ipt.freePages s.cur = .error e → Stop s .advance e
  | allocFree : s.pc s.cur = .run →
      freeRun s.ipt.pt.entries 1 (List.range s.ipt.pt.nEntry) none = .inr (f, i) →
      s.ipt.pt.markFree s.cur i i = .error e → Stop s .alloc e
  | allocTake : (s.pc s.cur = .run ∧ a = .alloc) ∨ (s.pc s.cur = .alloc ∧ a = .advance) →
      s.ipt.pt.chanceSearch 1 fp = (E, some (f, i)) →
      ({ s.ipt with pt := { s.ipt.pt with entries := E } } : Ipt).claimKernel s.cur i = .error e →
      Stop s a e
  | kfree : s.ipt.pt.contiguous i = 1 → s.ipt.pt.freeContiguousPages i = .error e →
      Stop s (.kfree i) e
  | fork : s.pc s.cur = .run → s.ipt.pt.prepareCopyPt s.cur = .error e → Stop s (.fork child) e
  | exec : s.pc s.cur = .run → s.as s.cur = none →
      asActivate s.ipt.pt s.mmu (some as) s.cur = .error e → Stop s (.exec vn phs) e
  | claimVictim : s.pc s.cur = .findVictim v start → s.ipt.pt.seekVictim start = (E, some i) →
      ({ s.ipt with pt := { s.ipt.pt with entries := E } } : Ipt).claimVictim v s.cur i =
        .error e → Stop s .advance e
  | takeVictim : s.pc s.cur = .findVictim v start → s.ipt.pt.seekVictim start = (E, some i) →
      ({ s.ipt with pt := { s.ipt.pt with entries := E } } : Ipt).claimVictim v s.cur i =
        .ok (ipt, none) → ipt.hashVictim v s.cur i = .error e → Stop s .advance e
  | store : s.pc s.cur = .storeSwap k i v p → s.swap.storeBegin (s.as s.cur) v p = .error e →
      Stop s .advance e
  | storing : s.pc s.cur = .storing k i c → s.swap.storeEnd s.cur c = .error e →
      Stop s .advance e
  | storedVictim : s.pc s.cur = .stored (.victim v) i → s.ipt.hashVictim v s.cur i = .error e →
      Stop s .advance e
  | loadKmalloc : s.pc s.cur = .loadPage v i → (s.ipt.pt.entries i).page = kmallocPage →
      Stop s .advance (.kassert .getPage .kmalloc)
  | loadNull : s.pc s.cur = .loadPage v i → s.as s.cur = none →
      Stop s .advance (.nullAddrspace .loadSwap)
  | loadBegin : s.pc s.cur = .loadPage v i → s.as s.cur = some as →
      s.swap.loadBegin as v s.cur = .error e → Stop s .advance e
  | testStore : s.pc s.cur = .cell k c → s.swap.testStore s.cur c k.fn = .error e →
      Stop s .advance e
  | elfNull : s.pc s.cur = .elfReading v i → s.as s.cur = none →
      Stop s .advance (.nullAddrspace .loadPage)
  | loadedNull : s.pc s.cur = .loaded v i → s.as s.cur = none →
      Stop s .advance (.nullAddrspace .vmFault)
  | loaded : s.pc s.cur = .loaded v i → s.as s.cur = some as →
      tlbInsert (s.ipt.pt.pageLoaded i) s.mmu as s.cur v i = .error e → Stop s .advance e
  | copyTake : s.pc s.cur = .copySwap child sg (some c) → s.swap.copyBegin sg child = .error e →
      Stop s .advance e
  | ptStore : s.pc s.cur = .copyPt child i → i < s.ipt.pt.nEntry →
      (s.ipt.pt.entries i).pid = s.cur → (s.ipt.pt.entries i).user = true →
      copyStoreAsserts (s.ipt.pt.entries i) = .error e → Stop s .advance e
  | ptSpace : s.pc s.cur = .copyPt child i → i < s.ipt.pt.nEntry →
      (s.ipt.pt.entries i).pid = s.cur → (s.ipt.pt.entries i).user = true →
      s.ipt.pt.findspace = some pos → s.ipt.copyEntry child i pos = .error e → Stop s .advance e
  | ptEnd : s.pc s.cur = .copyPt child i → s.ipt.pt.endCopyPt s.cur = .error e →
      Stop s .advance e

namespace Sys

theorem sysExit_sound (s : Sys) (st : Stats) {E : Fault → Prop} {Q : Sys → Prop}
    (he : ∀ e, s.ipt.freePages s.cur = .error e → E e)
    (ho : ∀ ipt, s.ipt.freePages s.cur = .ok ipt →
      Q ({ s with ipt := ipt, stats := st }.goto
        (.removeSwap .text (s.swap.lists.head (.seg .text s.cur))))) :
    Sound E Q ({ s with stats := st }.sysExit) :=
  Sound.of_bind he fun ipt hipt => ho ipt hipt

theorem vmFault_sound {s : Sys} {A : AddrSpace} (hpc : s.pc s.cur = .run) (has : s.as s.cur = some A)
    (ha : a < userStack) (hm : t = .readonly ∨ s.Misses (pageOf a)) :
    Sound (Stop s (.fault t a)) (Move s (.fault t a)) (s.vmFault t A (pageOf a)) := by
  unfold vmFault
  simp only
  split
  · rename_i ht
    subst ht
    apply s.sysExit_sound
    · intro e he
      exact .exit hpc (.inr ⟨a, rfl⟩) he
    · intro ipt hipt
      exact .exit hpc (.inr ⟨a, rfl⟩) hipt
  · rename_i ht
    have hmiss := hm.resolve_left ht
    apply Sound.of_bind
    · intro e he
      rw [kassert_error] at he
      rw [he.2]
      exact .notOk hpc has he.1 ht
    · intro u hu
      rw [kassert_ok] at hu
      apply Sound.of_bind
      · intro e he
        exact .ptGetPaddr hpc has rfl hmiss ha he
      · intro r hr
        obtain ⟨ipt, o⟩ := r
        cases o with
        | some i =>
          apply Sound.of_bind
          · intro e he
            exact .hit hpc has rfl hmiss ha hr he
          · intro x hx
            obtain ⟨pt, mmu, rep⟩ := x
            exact .hit hpc has rfl ha ht hmiss hu hr hx
        | none =>
          simp only
          split
          · rename_i i hi
            apply Sound.of_bind
            · intro e he
              exact .space hpc has rfl ha hr hi he
            · intro ipt' hipt'
              exact .space hpc has rfl ha ht hu hr hi hipt'
          · rename_i hi
            exact .seek hpc has rfl ha ht hu hr hi

theorem allocChance_sound {s : Sys}
    (hpc : (s.pc s.cur = .run ∧ a = .alloc) ∨ (s.pc s.cur = .alloc ∧ a = .advance))
    (hfp : a = .alloc →
      freeRun s.ipt.pt.entries 1 (List.range s.ipt.pt.nEntry) none = .inl fp) :
    Sound (Stop s a) (Move s a) (s.allocChance fp) := by
  unfold allocChance
  split
  · rename_i E hE
    exact .allocWait hpc hE
  · rename_i E f i hE
    apply Sound.of_bind
    · intro e he
      exact .allocTake hpc hE he
    · intro r hr
      obtain ⟨ipt, o⟩ := r
      cases o with
      | none => exact .allocTake hpc hE hr
      | some o =>
        obtain ⟨v, p⟩ := o
        exact .allocEvict hpc hE hr hfp

theorem copyPtStep_sound {s : Sys} (hpc : s.pc s.cur = .copyPt child i) :
    Sound (Stop s .advance) (Move s .advance) (s.copyPtStep child i) := by
  unfold copyPtStep
  split
  · rename_i hi
    simp only
    split
    · rename_i hc
      simp only [Bool.and_eq_true, beq_iff_eq] at hc
      split
      · rename_i hf
        apply Sound.of_bind
        · intro e he
          exact .ptStore hpc hi hc.1 hc.2 he
        · intro u hu
          exact .ptStore hpc hi hc.1 hc.2 hf hu
      · rename_i pos hf
        apply Sound.of_bind
        · intro e he
          exact .ptSpace hpc hi hc.1 hc.2 hf he
        · intro ipt hipt
          exact .ptSpace hpc hi hc.1 hc.2 hf hipt
    · rename_i hc
      simp only [Bool.and_eq_true, beq_iff_eq] at hc
      exact .ptSkip hpc hi hc
  · rename_i hi
    apply Sound.of_bind
    · intro e he
      exact .ptEnd hpc he
    · intro pt hpt
      exact .ptEnd hpc hi hpt

theorem advance_sound {s : Sys} (hadv : (s.pc s.cur).advances = true) :
    Sound (Stop s .advance) (Move s .advance) s.advance := by
  unfold advance
  cases hpc : s.pc s.cur with
  | none => rw [hpc] at hadv; cases hadv
  | embryo => rw [hpc] at hadv; cases hadv
  | run => rw [hpc] at hadv; cases hadv
  | zombie => rw [hpc] at hadv; cases hadv
  | findVictim v start =>
    simp only
    split
    · rename_i E hE
      exact .noVictim hpc hE
    · rename_i E i hE
      apply Sound.of_bind
      · intro e he
        exact .claimVictim hpc hE he
      · intro r hr
        obtain ⟨ipt, o⟩ := r
        cases o with
        | none =>
          apply Sound.of_bind
          · intro e he
            exact .takeVictim hpc hE hr he
          · intro ipt' hipt'
            exact .takeVictim hpc hE hr hipt'
        | some o =>
          obtain ⟨ov, op⟩ := o
          exact .evictVictim hpc hE hr
  | victimWait v start woken =>
    cases woken with
    | false => rw [hpc] at hadv; cases hadv
    | true => exact .victimWake hpc
  | storeSwap k i v p =>
    apply Sound.of_bind
    · intro e he
      exact .store hpc he
    · intro r hr
      obtain ⟨w, c⟩ := r
      exact .store hpc hr
  | storing k i c =>
    apply Sound.of_bind
    · intro e he
      exact .storing hpc he
    · intro w hw
      exact .storing hpc hw
  | stored k i =>
    cases k with
    | victim v =>
      apply Sound.of_bind
      · intro e he
        exact .storedVictim hpc he
      · intro ipt hipt
        exact .storedVictim hpc hipt
    | alloc => exact .storedAlloc hpc
    | fork child => exact .storedFork hpc
  | loadPage v i =>
    apply Sound.of_bind
    · intro e he
      rw [kassert_error] at he
      rw [he.2]
      exact .loadKmalloc hpc (by simpa using he.1)
    · intro u hu
      cases has : s.as s.cur with
      | none => exact .loadNull hpc has
      | some as =>
        apply Sound.of_bind
        · intro e he
          exact .loadBegin hpc has he
        · intro r hr
          obtain ⟨w, o⟩ := r
          cases o with
          | some c => exact .loadFound hpc has hr
          | none =>
            simp only [loadElfPage]
            split
            · rename_i hp
              exact .loadZero hpc has hr hp
            · rename_i bz o d l hp
              exact .loadElf hpc has hr hp
            · rename_i hp
              apply s.sysExit_sound s.stats
              · intro e he
                exact .segv hpc has hp he
              · intro ipt hipt
                exact .segv hpc has hr hp hipt
  | cell k c =>
    apply Sound.of_bind
    · intro e he
      exact .testStore hpc he
    · intro r hr
      obtain ⟨w, b⟩ := r
      cases b with
      | true => exact .cellSleep hpc hr
      | false =>
        cases k with
        | load v i => exact .cellLoad hpc hr
        | exit sg => exact .cellExit hpc hr
        | copy child sg f => exact .cellCopy hpc hr
  | cellWait k c woken =>
    cases woken with
    | false => rw [hpc] at hadv; cases hadv
    | true => exact .cellWake hpc
  | reading v i c => exact .reading hpc
  | elfReading v i =>
    cases has : s.as s.cur with
    | none => exact .elfNull hpc has
    | some as =>
      apply Move.elfReading hpc has
      split
      · rename_i bz o d l hp
        exact .inr ⟨bz, o, d, l, hp, rfl⟩
      · exact .inl rfl
  | loaded v i =>
    cases has : s.as s.cur with
    | none => exact .loadedNull hpc has
    | some as =>
      apply Sound.of_bind
      · intro e he
        exact .loaded hpc has he
      · intro x hx
        obtain ⟨pt, mmu, rep⟩ := x
        exact .loaded hpc has hx
  | alloc => exact allocChance_sound (.inr ⟨hpc, rfl⟩) nofun
  | allocWait woken =>
    cases woken with
    | false => rw [hpc] at hadv; cases hadv
    | true => exact .allocWake hpc
  | removeSwap sg e =>
    cases e with
    | some c => exact .removeCell hpc
    | none =>
      simp only
      split
      · rename_i sg' hsg
        exact .removeNext hpc hsg
      · rename_i hsg
        exact .removeDone hpc hsg
  | copySwap child sg e =>
    cases e with
    | some c =>
      apply Sound.of_bind
      · intro e he
        exact .copyTake hpc he
      · intro r hr
        obtain ⟨w, f⟩ := r
        exact .copyTake hpc hr
    | none =>
      simp only
      split
      · rename_i sg' hsg
        exact .copyNext hpc hsg
      · rename_i hsg
        exact .copyDone hpc hsg
  | copyReading child sg c f => exact .copyReading hpc
  | copyWriting child sg c f => exact .copyWriting hpc
  | copyPt child i => exact copyPtStep_sound hpc

/-- Every step is one of the moves, and every stop is one of the stops. -/
theorem micro_sound {s : Sys} (h : s.Enabled a) : Sound (Stop s a) (Move s a) (s.micro a) := by
  cases a with
  | dispatch q =>
    unfold micro
    cases hx : asActivate s.ipt.pt s.mmu (s.as q) q with
    | error e =>
      simp only [activate, hx]
      exact .dispatch hx h.2
    | ok x =>
      obtain ⟨pt, mmu⟩ := x
      simp only [activate, hx]
      exact .dispatch h.1 h.2 hx
  | write k off b =>
    obtain ⟨hpc, has, hk, hoff, e, he, hd⟩ := h
    obtain ⟨as, has⟩ := Option.isSome_iff_exists.1 has
    simp only [micro, he]
    exact .write hpc has hk hoff he hd
  | fault t a =>
    obtain ⟨hpc, has, ha, hm⟩ := h
    obtain ⟨as, has⟩ := Option.isSome_iff_exists.1 has
    simp only [micro, has]
    exact vmFault_sound hpc has ha hm
  | exit =>
    apply s.sysExit_sound s.stats
    · intro e he
      exact .exit h (.inl rfl) he
    · intro ipt hipt
      exact .exit h (.inl rfl) hipt
  | alloc =>
    unfold micro allocPage
    simp only
    split
    · rename_i f i hr
      apply Sound.of_bind
      · intro e he
        exact .allocFree h hr he
      · intro pt hpt
        exact .allocFree h hr hpt
    · rename_i fp hr
      exact allocChance_sound (.inl ⟨h, rfl⟩) fun _ => hr
  | kfree i =>
    apply Sound.of_bind
    · intro e he
      exact .kfree h.2 he
    · intro pt hpt
      exact .kfree h.1 h.2 hpt
  | fork child =>
    obtain ⟨hpc, has, hsem, hchild, hpid⟩ := h
    obtain ⟨as, has⟩ := Option.isSome_iff_exists.1 has
    apply Sound.of_bind
    · intro e he
      exact .fork hpc he
    · intro pt hpt
      exact .fork hpc has hsem hchild hpid hpt
  | spawn q => exact .spawn h.1 h.2.1 h.2.2
  | exec vn phs =>
    obtain ⟨hpc, has, hload⟩ := h
    obtain ⟨as, hload⟩ := Option.isSome_iff_exists.1 hload
    unfold micro
    simp only [hload]
    cases hx : asActivate s.ipt.pt s.mmu (some as) s.cur with
    | error e =>
      simp only [activate, hx]
      exact .exec hpc has hx
    | ok x =>
      obtain ⟨pt, mmu⟩ := x
      simp only [activate, hx]
      exact .exec hpc has hload hx
  | reap q => exact .reap h.1 h.2
  | advance => exact advance_sound h

end Sys

theorem SysStep.move (h : SysStep s a s') : Move s a s' := (Sys.micro_sound h.1).ok h.2

/-- What a step of the running thread does to the other ones: it wakes them, or starts or ends
a process. -/
theorem Move.pc_other {s u : Sys} (hm : Move s a u) (hp : p ≠ s.cur) :
    u.pc p = s.pc p ∨ u.pc p = (s.pc p).wakePt ∨ (∃ c, u.pc p = (s.pc p).wakeCell c) ∨
      (s.pc p = .none ∧ (a = .spawn p ∨ a = .fork p) ∨ s.pc p = .zombie ∨
          ∃ i, s.pc s.cur = .copyPt p i) ∧
        (u.pc p = .embryo ∨ u.pc p = .run ∨ u.pc p = .none) := by
  cases hm with
  | dispatch => exact .inl rfl
  | write => exact .inl rfl
  | hit => exact .inl rfl
  | allocFree => exact .inl rfl
  | kfree => exact .inr (.inl rfl)
  | @fork as child pt _ _ _ hchild =>
    have hpc : ∀ c, Function.update (fun q => (Function.update s.procs child ⟨s.as s.cur, .embryo⟩
        q).pc) s.cur c p = (Function.update s.procs child ⟨s.as s.cur, .embryo⟩ p).pc := fun c =>
      Function.update_of_ne hp ..
    rw [Sys.pc_goto]
    by_cases hpd : p = child
    · refine .inr (.inr (.inr ⟨.inl ⟨hpd ▸ hchild, .inr (by rw [hpd])⟩, .inl ?_⟩))
      refine (hpc _).trans ?_
      rw [hpd, Function.update_self]
    · refine .inl ((hpc _).trans ?_)
      rw [Function.update_of_ne hpd]
      rfl
  | @spawn q _ hq =>
    by_cases hpq : p = q
    · refine .inr (.inr (.inr ⟨.inl ⟨hpq ▸ hq, .inl (by rw [hpq])⟩, .inr (.inl ?_)⟩))
      rw [hpq]
      exact congrArg Proc.pc (Function.update_self q ⟨none, .run⟩ s.procs)
    · exact .inl (congrArg Proc.pc (Function.update_of_ne hpq _ s.procs))
  | exec => exact .inl (congrArg Proc.pc (Function.update_of_ne hp _ s.procs))
  | @reap q _ hq =>
    by_cases hpq : p = q
    · refine .inr (.inr (.inr ⟨.inr (.inl (hpq ▸ hq)), .inr (.inr ?_)⟩))
      rw [hpq]
      exact congrArg Proc.pc (Function.update_self q ⟨none, .none⟩ s.procs)
    · exact .inl (congrArg Proc.pc (Function.update_of_ne hpq _ s.procs))
  | @storing k i c =>
    refine .inr (.inr (.inl ⟨c, ?_⟩))
    rw [Sys.pc_goto]
    exact Function.update_of_ne hp ..
  | @ptEnd child i pt hpc =>
    rw [Sys.pc_goto, Sys.pc_setPc]
    by_cases hpd : p = child
    · refine .inr (.inr (.inr ⟨.inr (.inr ⟨i, hpd ▸ hpc⟩), .inr (.inl ?_)⟩))
      refine (Function.update_of_ne hp ..).trans ?_
      rw [hpd, Function.update_self]
    · exact .inr (.inl ((Function.update_of_ne hp ..).trans (Function.update_of_ne hpd ..)))
  | _ => exact .inl ((congrFun (Sys.pc_goto _ _) p).trans (Function.update_of_ne hp ..))

theorem Move.pc_cur {s : Sys} (hm : Move s a u) (hpc : s.pc s.cur ≠ .run) :
    u.pc s.cur = s.pc s.cur ∨ u.pc s.cur = (s.pc s.cur).wakePt ∨ a = .advance := by
  have halloc : ∀ {p : Prop}, (s.pc s.cur = .run ∧ a = .alloc) ∨ (p ∧ a = .advance) →
      a = .advance := by
    intro p hp
    rcases hp with hp | hp
    · exact (hpc hp.1).elim
    · exact hp.2
  cases hm with
  | dispatch => exact .inl rfl
  | kfree => exact .inr (.inl rfl)
  | allocWait hp => exact .inr (.inr (halloc hp))
  | allocTake hp => exact .inr (.inr (halloc hp))
  | allocEvict hp => exact .inr (.inr (halloc hp))
  | write hp => exact (hpc hp).elim
  | hit hp => exact (hpc hp).elim
  | space hp => exact (hpc hp).elim
  | seek hp => exact (hpc hp).elim
  | exit hp => exact (hpc hp).elim
  | allocFree hp => exact (hpc hp).elim
  | fork hp => exact (hpc hp).elim
  | spawn hp => exact (hpc hp).elim
  | exec hp => exact (hpc hp).elim
  | reap hp => exact (hpc hp).elim
  | _ => exact .inr (.inr rfl)

end Clape
