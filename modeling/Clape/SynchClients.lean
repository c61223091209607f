import Clape.Synch

namespace Clape
set_option autoImplicit true

/-- The thread that runs a section. -/
def SynchEvent.thread : SynchEvent τ ι κ → τ
  | .call t _ | .check t | .acquire t _ | .block t _ | .release t _ | .spin t _ | .queue t _
  | .resume t _ | .signal t _ | .broadcast t _ => t

def SynchEvent.isCall : SynchEvent τ ι κ → Bool
  | .call _ _ => true
  | _ => false

/-- The places where a thread can stand in a call; `out` is its end. -/
def SynchPc.Within : SynchPc ι κ → SynchCall ι κ → Prop
  | .out, _ => True
  | .enter g, f => g = f
  | .acquire l, f | .lockSleep l, f | .retest l, f => f = .acquire l ∨ ∃ c, f = .wait c l
  | .release l, f => f = .release l
  | .wait c l, f | .cvEnter c l, f | .cvRelease c l, f | .cvQueue c l, f | .cvSleep c l, f
  | .cvWoken c l, f => f = .wait c l
  | .cvAgain l, f => ∃ c, f = .wait c l
  | .signal c l, f => f = .signal c l
  | .broadcast c l, f => f = .broadcast c l

/-- The thread owns the lock of its call. -/
def SynchCall.owns : SynchCall ι κ → SynchPc ι κ → Bool
  | .acquire _, .out => true
  | .acquire _, _ => false
  | .release _, .out => false
  | .release _, _ => true
  | .wait _ _, .out | .wait _ _, .enter _ | .wait _ _, .wait _ _ | .wait _ _, .cvEnter _ _
  | .wait _ _, .cvRelease _ _ => true
  | .wait _ _, _ => false
  | .signal _ _, _ | .broadcast _ _, _ => true

theorem SynchPc.within_wake {p : SynchPc ι κ} (h : p.Within f) : p.wake.Within f := by
  cases p <;> exact h

theorem SynchCall.owns_wake (f : SynchCall ι κ) (p : SynchPc ι κ) : f.owns p.wake = f.owns p := by
  cases f <;> cases p <;> rfl

theorem SynchPc.wake_out {p : SynchPc ι κ} (h : p = .out) : p.wake = .out := by
  rw [h]
  rfl

namespace Synch
variable [DecidableEq τ] [DecidableEq ι] [DecidableEq κ]

/-- The threads are in the calls that a client knows of, and own what these calls give them. -/
structure Serves (call : τ → Option (SynchCall ι κ)) (s : Synch τ ι κ) : Prop where
  ordered : s.Ordered
  idle : call t = none → s.pc t = .out
  within : call t = some f → (s.pc t).Within f
  owner : s.lkOwner l = some t ↔ ∃ f, call t = some f ∧ f.lock = l ∧ f.owns (s.pc t) = true

omit [DecidableEq κ] in
theorem wakeLock_pc (s : Synch τ ι κ) (l : ι) (q : τ) :
    (s.wakeLock l).pc q = s.pc q ∨ (s.wakeLock l).pc q = (s.pc q).wake := by
  unfold wakeLock
  cases s.lkWchan l with
  | nil => exact .inl rfl
  | cons w r =>
    by_cases hq : q = w
    · subst hq
      exact .inr (pc_goto_self ..)
    · exact .inl (pc_goto_of_ne _ _ hq)

omit [DecidableEq ι] in
theorem wakeCv_pc_or (s : Synch τ ι κ) (c : κ) (q : τ) :
    (s.wakeCv c).pc q = s.pc q ∨ (s.wakeCv c).pc q = (s.pc q).wake := by
  unfold wakeCv
  cases s.cvWchan c with
  | nil => exact .inl rfl
  | cons w r =>
    by_cases hq : q = w
    · subst hq
      exact .inr (pc_goto_self ..)
    · exact .inl (pc_goto_of_ne _ _ hq)

omit [DecidableEq ι] in
theorem wakeAllCv_pc_or (s : Synch τ ι κ) (c : κ) (q : τ) :
    (s.wakeAllCv c).pc q = s.pc q ∨ (s.wakeAllCv c).pc q = (s.pc q).wake := by
  change (if q ∈ s.cvWchan c then (s.pc q).wake else s.pc q) = s.pc q ∨
    (if q ∈ s.cvWchan c then (s.pc q).wake else s.pc q) = (s.pc q).wake
  split
  · exact .inr rfl
  · exact .inl rfl

/-- A section of another thread leaves a thread where it is, or wakes it. -/
theorem pc_step {s s' : Synch τ ι κ} (hs : SynchStep s e s') (hq : q ≠ e.thread) :
    s'.pc q = s.pc q ∨ s'.pc q = (s.pc q).wake := by
  obtain ⟨hen, hex⟩ := hs
  have hgoto : ∀ (u : Synch τ ι κ) (p : SynchPc ι κ), (u.goto e.thread p).pc q = u.pc q :=
    fun u p => pc_goto_of_ne u p hq
  cases e with
  | call t f =>
    cases hex
    exact .inl (hgoto ..)
  | check t =>
    simp only [exec] at hex
    split at hex
    · split at hex <;> cases hex
      exact .inl (hgoto ..)
    · split at hex <;> cases hex
      exact .inl (hgoto ..)
    · split at hex <;> cases hex
      exact .inl (hgoto ..)
    · split at hex <;> cases hex
      exact .inl (hgoto ..)
    · cases hex
      exact .inl rfl
  | acquire t l =>
    cases hex
    exact .inl (hgoto ..)
  | block t l =>
    cases hex
    exact .inl (hgoto ..)
  | release t l =>
    simp only [exec] at hex
    split at hex <;> cases hex
    · rw [pc_goto_of_ne _ _ (show q ≠ t from hq)]
      exact wakeLock_pc ..
    · rw [pc_goto_of_ne _ _ (show q ≠ t from hq)]
      exact wakeLock_pc ..
  | spin t c =>
    simp only [exec] at hex
    split at hex <;> cases hex
    · exact .inl (hgoto ..)
    · exact .inl rfl
  | queue t c =>
    simp only [exec] at hex
    split at hex <;> cases hex
    · exact .inl (hgoto ..)
    · exact .inl rfl
  | resume t c =>
    simp only [exec] at hex
    split at hex <;> cases hex
    · exact .inl (hgoto ..)
    · exact .inl rfl
  | signal t c =>
    cases hex
    rw [pc_goto_of_ne _ _ (show q ≠ t from hq)]
    exact wakeCv_pc_or ..
  | broadcast t c =>
    cases hex
    rw [pc_goto_of_ne _ _ (show q ≠ t from hq)]
    exact wakeAllCv_pc_or ..

/-- What a section does to the thread that runs it: it stays in its call, and it owns the lock
of the call unless the section takes the lock or gives it up. -/
theorem self_step {s s' : Synch τ ι κ} (hs : SynchStep s e s') (hc : e.isCall = false)
    (hw : (s.pc e.thread).Within f) : s.pc e.thread ≠ .out ∧ (s'.pc e.thread).Within f ∧
      match e with
      | .acquire _ l => f.lock = l ∧ f.owns (s'.pc e.thread) = true
      | .release _ l => f.lock = l ∧ f.owns (s'.pc e.thread) = false
      | _ => f.owns (s'.pc e.thread) = f.owns (s.pc e.thread) := by
  obtain ⟨hen, hex⟩ := hs
  cases e with
  | call t g => cases hc
  | check t =>
    change (s.pc t).Within f at hw
    change s.pc t ≠ .out ∧ (s'.pc t).Within f ∧ f.owns (s'.pc t) = f.owns (s.pc t)
    rcases hen with ⟨g, hpc⟩ | ⟨c, l, hpc⟩ | ⟨l, hpc⟩
    · rw [hpc] at hw ⊢
      cases hw
      cases f with
      | acquire l =>
        simp only [exec, hpc] at hex
        split at hex <;> cases hex
        rw [pc_goto_self]
        exact ⟨(by simp), .inl rfl, rfl⟩
      | release l =>
        simp only [exec, hpc] at hex
        split at hex <;> cases hex
        rw [pc_goto_self]
        exact ⟨(by simp), rfl, rfl⟩
      | wait c l =>
        simp only [exec, hpc] at hex
        split at hex <;> cases hex
        rw [pc_goto_self]
        exact ⟨(by simp), rfl, rfl⟩
      | signal c l =>
        simp only [exec, hpc] at hex
        split at hex <;> cases hex
        rw [pc_goto_self]
        exact ⟨(by simp), rfl, rfl⟩
      | broadcast c l =>
        simp only [exec, hpc] at hex
        split at hex <;> cases hex
        rw [pc_goto_self]
        exact ⟨(by simp), rfl, rfl⟩
    · rw [hpc] at hw ⊢
      cases hw
      simp only [exec, hpc] at hex
      split at hex <;> cases hex
      rw [pc_goto_self]
      exact ⟨(by simp), rfl, rfl⟩
    · rw [hpc] at hw ⊢
      obtain ⟨c, rfl⟩ := hw
      simp only [exec, hpc] at hex
      split at hex <;> cases hex
      rw [pc_goto_self]
      exact ⟨(by simp), .inr ⟨c, rfl⟩, rfl⟩
  | acquire t l =>
    change (s.pc t).Within f at hw
    change s.pc t ≠ .out ∧ (s'.pc t).Within f ∧ f.lock = l ∧ f.owns (s'.pc t) = true
    cases hex
    rw [pc_goto_self]
    have hf : f = .acquire l ∨ ∃ c, f = .wait c l := by
      rcases hen.1 with hpc | hpc
      · rw [hpc] at hw
        exact hw
      · rw [hpc] at hw
        exact hw
    refine ⟨?_, trivial, ?_⟩
    · rcases hen.1 with hpc | hpc
      · rw [hpc]
        simp
      · rw [hpc]
        simp
    · rcases hf with rfl | ⟨c, rfl⟩
      · exact ⟨rfl, rfl⟩
      · exact ⟨rfl, rfl⟩
  | block t l =>
    change (s.pc t).Within f at hw
    change s.pc t ≠ .out ∧ (s'.pc t).Within f ∧ f.owns (s'.pc t) = f.owns (s.pc t)
    cases hex
    rw [pc_goto_self]
    rcases hen.1 with hpc | hpc
    · rw [hpc] at hw ⊢
      refine ⟨(by simp), hw, ?_⟩
      rcases hw with rfl | ⟨c, rfl⟩
      · rfl
      · rfl
    · rw [hpc] at hw ⊢
      refine ⟨(by simp), hw, ?_⟩
      rcases hw with rfl | ⟨c, rfl⟩
      · rfl
      · rfl
  | release t l =>
    change (s.pc t).Within f at hw
    change s.pc t ≠ .out ∧ (s'.pc t).Within f ∧ f.lock = l ∧ f.owns (s'.pc t) = false
    rcases hen with hpc | ⟨c, hpc⟩
    · rw [hpc] at hw ⊢
      cases hw
      simp only [exec, hpc] at hex
      cases hex
      rw [pc_goto_self]
      exact ⟨(by simp), trivial, rfl, rfl⟩
    · rw [hpc] at hw ⊢
      cases hw
      simp only [exec, hpc] at hex
      cases hex
      rw [pc_goto_self]
      exact ⟨(by simp), rfl, rfl, rfl⟩
  | spin t c =>
    change (s.pc t).Within f at hw
    change s.pc t ≠ .out ∧ (s'.pc t).Within f ∧ f.owns (s'.pc t) = f.owns (s.pc t)
    obtain ⟨⟨l, hpc⟩, -⟩ := hen
    simp only [exec, hpc] at hex
    cases hex
    rw [hpc] at hw ⊢
    cases hw
    rw [pc_goto_self]
    exact ⟨(by simp), rfl, rfl⟩
  | queue t c =>
    change (s.pc t).Within f at hw
    change s.pc t ≠ .out ∧ (s'.pc t).Within f ∧ f.owns (s'.pc t) = f.owns (s.pc t)
    obtain ⟨l, hpc⟩ := hen
    simp only [exec, hpc] at hex
    cases hex
    rw [hpc] at hw ⊢
    cases hw
    rw [pc_goto_self]
    exact ⟨(by simp), rfl, rfl⟩
  | resume t c =>
    change (s.pc t).Within f at hw
    change s.pc t ≠ .out ∧ (s'.pc t).Within f ∧ f.owns (s'.pc t) = f.owns (s.pc t)
    obtain ⟨⟨l, hpc⟩, -⟩ := hen
    simp only [exec, hpc] at hex
    cases hex
    rw [hpc] at hw ⊢
    cases hw
    rw [pc_goto_self]
    exact ⟨(by simp), ⟨c, rfl⟩, rfl⟩
  | signal t c =>
    change (s.pc t).Within f at hw
    change s.pc t ≠ .out ∧ (s'.pc t).Within f ∧ f.owns (s'.pc t) = f.owns (s.pc t)
    obtain ⟨⟨l, hpc⟩, -⟩ := hen
    cases hex
    rw [hpc] at hw ⊢
    cases hw
    rw [pc_goto_self]
    exact ⟨(by simp), trivial, rfl⟩
  | broadcast t c =>
    change (s.pc t).Within f at hw
    change s.pc t ≠ .out ∧ (s'.pc t).Within f ∧ f.owns (s'.pc t) = f.owns (s.pc t)
    obtain ⟨⟨l, hpc⟩, -⟩ := hen
    cases hex
    rw [hpc] at hw ⊢
    cases hw
    rw [pc_goto_self]
    exact ⟨(by simp), trivial, rfl⟩

omit [DecidableEq τ] [DecidableEq ι] [DecidableEq κ] in
theorem Serves.running {call : τ → Option (SynchCall ι κ)} {s : Synch τ ι κ} (h : s.Serves call)
    (hen : s.Enabled e) (hc : e.isCall = false) : ∃ f, call e.thread = some f := by
  cases hcall : call e.thread with
  | some f => exact ⟨f, rfl⟩
  | none =>
    have hout := h.idle hcall
    cases e with
    | call t g => cases hc
    | check t =>
      rcases hen with ⟨f, hpc⟩ | ⟨c, l, hpc⟩ | ⟨l, hpc⟩ <;> cases hpc.symm.trans hout
    | acquire t l => rcases hen.1 with hpc | hpc <;> cases hpc.symm.trans hout
    | block t l => rcases hen.1 with hpc | hpc <;> cases hpc.symm.trans hout
    | release t l => rcases hen with hpc | ⟨c, hpc⟩ <;> cases hpc.symm.trans hout
    | queue t c =>
      obtain ⟨l, hpc⟩ := hen
      cases hpc.symm.trans hout
    | spin t c | resume t c | signal t c | broadcast t c =>
      obtain ⟨⟨l, hpc⟩, -⟩ := hen
      cases hpc.symm.trans hout

/-- The sections of a call keep what the client knows. -/
theorem Serves.step {call : τ → Option (SynchCall ι κ)} {s s' : Synch τ ι κ} (h : s.Serves call)
    (hs : SynchStep s e s') (hc : e.isCall = false) : s'.Serves call := by
  obtain ⟨f, hf⟩ := h.running hs.1 hc
  obtain ⟨-, hwithin, howns⟩ := self_step hs hc (h.within hf)
  have hlk := lkOwner_step hs
  -- what another thread has does not change
  have hother : ∀ {q l}, q ≠ e.thread → (s'.lkOwner l = some q ↔ s.lkOwner l = some q) := by
    intro q l hq
    rw [hlk]
    cases e with
    | acquire t l' =>
      have hfree : s.lkOwner l' = none := hs.1.2
      simp only
      split
      · rename_i hl
        rw [hl, hfree]
        exact ⟨fun hown => absurd (Option.some.inj hown).symm hq, nofun⟩
      · rfl
    | release t l' =>
      have hown : s.lkOwner l' = some t := by
        rcases hs.1 with hpc | ⟨c, hpc⟩
        · exact h.ordered.needs (by rw [hpc]; rfl)
        · exact h.ordered.needs (by rw [hpc]; rfl)
      simp only
      split
      · rename_i hl
        rw [hl, hown]
        exact ⟨nofun, fun hown => absurd (Option.some.inj hown).symm hq⟩
      · rfl
    | _ => rfl
  refine ⟨h.ordered.step hs, ?_, ?_, ?_⟩
  · intro q hq
    have hne : q ≠ e.thread := by
      rintro rfl
      rw [hf] at hq
      cases hq
    rcases pc_step hs hne with hpc | hpc
    · rw [hpc]
      exact h.idle hq
    · rw [hpc]
      exact SynchPc.wake_out (h.idle hq)
  · intro q g hg
    by_cases hq : q = e.thread
    · subst hq
      rw [hf] at hg
      cases hg
      exact hwithin
    · rcases pc_step hs hq with hpc | hpc
      · rw [hpc]
        exact h.within hg
      · rw [hpc]
        exact SynchPc.within_wake (h.within hg)
  · intro l q
    by_cases hq : q = e.thread
    · subst hq
      have hsome : ∀ {u : Synch τ ι κ}, (∃ g, call e.thread = some g ∧ g.lock = l ∧
          g.owns (u.pc e.thread) = true) ↔ f.lock = l ∧ f.owns (u.pc e.thread) = true := by
        intro u
        rw [hf]
        constructor
        · rintro ⟨g, hg, hgl, hgo⟩
          cases hg
          exact ⟨hgl, hgo⟩
        · rintro ⟨hfl, hfo⟩
          exact ⟨f, rfl, hfl, hfo⟩
      have hown := h.owner (l := l) (t := e.thread)
      rw [hsome] at hown ⊢
      rw [hlk]
      cases e with
      | acquire t l' =>
        obtain ⟨hl, ho⟩ := howns
        subst hl
        have hfree : s.lkOwner f.lock = none := hs.1.2
        simp only [ho, and_true]
        split
        · rename_i hl
          exact ⟨fun _ => hl.symm, fun _ => rfl⟩
        · rename_i hl
          rw [hown]
          exact ⟨fun hfl => hfl.1, fun hfl => absurd hfl.symm hl⟩
      | release t l' =>
        obtain ⟨hl, ho⟩ := howns
        subst hl
        simp only [ho, Bool.false_eq_true, and_false, iff_false]
        split
        · exact nofun
        · rename_i hl
          rw [hown]
          exact fun hfl => hl hfl.1.symm
      | call t g => cases hc
      | check _ | block _ _ | spin _ _ | queue _ _ | resume _ _ | signal _ _ | broadcast _ _ =>
        rw [howns]
        exact hown
    · rw [hother hq, h.owner]
      rcases pc_step hs hq with hpc | hpc
      · rw [hpc]
      · simp only [hpc, SynchCall.owns_wake]

theorem Serves.error {call : τ → Option (SynchCall ι κ)} {s : Synch τ ι κ} (h : s.Serves call)
    (hen : s.Enabled e) (he : s.exec e = .error g) : False := by
  obtain ⟨-, t, l, -, hpc, hown⟩ := h.ordered.error hen he
  obtain ⟨f, hf, -, howns⟩ := h.owner.1 hown
  have hw := h.within hf
  rw [hpc] at hw howns
  cases hw
  cases howns

/-- What a thread needs in order to begin a call: only `lock_acquire` is for those who do not
own the lock. -/
def Begins (call : τ → Option (SynchCall ι κ)) (t : τ) : SynchCall ι κ → Prop
  | .acquire _ => ∀ f, call t = some f → f.owns .out = false
  | g => ∃ f, call t = some f ∧ f.lock = g.lock ∧ f.owns .out = true

theorem Serves.begin {call : τ → Option (SynchCall ι κ)} {s : Synch τ ι κ} (h : s.Serves call)
    (hpc : s.pc t = .out) (hb : Begins call t g) :
    SynchStep s (.call t g) (s.goto t (.enter g)) ∧
      (s.goto t (.enter g)).Serves (Function.update call t (some g)) := by
  have hown : ∀ {l}, s.lkOwner l = some t ↔ g.lock = l ∧ g.owns (.enter g) = true := by
    intro l
    rw [h.owner]
    constructor
    · rintro ⟨f, hf, hfl, hfo⟩
      rw [hpc] at hfo
      cases g with
      | acquire l' =>
        rw [hb f hf] at hfo
        cases hfo
      | _ =>
        obtain ⟨f', hf', hfl', -⟩ := hb
        rw [hf] at hf'
        cases hf'
        exact ⟨hfl'.symm.trans hfl, rfl⟩
    · rintro ⟨hgl, hgo⟩
      cases g with
      | acquire l' => cases hgo
      | _ =>
        obtain ⟨f, hf, hfl, hfo⟩ := hb
        exact ⟨f, hf, hfl.trans hgl, by rw [hpc]; exact hfo⟩
  have hstep : SynchStep s (.call t g) (s.goto t (.enter g)) := by
    refine ⟨⟨hpc, ?_⟩, rfl⟩
    cases g with
    | acquire l => exact .inl ⟨l, rfl⟩
    | _ => exact .inr (hown.2 ⟨rfl, rfl⟩)
  refine ⟨hstep, h.ordered.step hstep, ?_, ?_, ?_⟩
  · intro q hq
    by_cases hqt : q = t
    · subst hqt
      rw [Function.update_self] at hq
      cases hq
    · rw [Function.update_of_ne hqt] at hq
      rw [pc_goto_of_ne _ _ hqt]
      exact h.idle hq
  · intro q f hq
    by_cases hqt : q = t
    · subst hqt
      rw [Function.update_self] at hq
      cases hq
      rw [pc_goto_self]
      rfl
    · rw [Function.update_of_ne hqt] at hq
      rw [pc_goto_of_ne _ _ hqt]
      exact h.within hq
  · intro l q
    change s.lkOwner l = some q ↔ _
    by_cases hqt : q = t
    · subst hqt
      rw [hown, Function.update_self, pc_goto_self]
      constructor
      · rintro ⟨hl, ho⟩
        exact ⟨g, rfl, hl, ho⟩
      · rintro ⟨f, hf, hl, ho⟩
        cases hf
        exact ⟨hl, ho⟩
    · rw [h.owner, Function.update_of_ne hqt, pc_goto_of_ne _ _ hqt]

omit [DecidableEq ι] [DecidableEq κ] in
theorem Serves.leave {call : τ → Option (SynchCall ι κ)} {s : Synch τ ι κ} (h : s.Serves call)
    (hpc : s.pc t = .out) (hf : ∀ f, call t = some f → f.owns .out = false) :
    s.Serves (Function.update call t none) := by
  refine ⟨h.ordered, ?_, ?_, ?_⟩
  · intro q hq
    by_cases hqt : q = t
    · subst hqt
      exact hpc
    · rw [Function.update_of_ne hqt] at hq
      exact h.idle hq
  · intro q f hq
    by_cases hqt : q = t
    · subst hqt
      rw [Function.update_self] at hq
      cases hq
    · rw [Function.update_of_ne hqt] at hq
      exact h.within hq
  · intro l q
    rw [h.owner]
    by_cases hqt : q = t
    · subst hqt
      rw [Function.update_self]
      constructor
      · rintro ⟨f, hcall, -, ho⟩
        rw [hpc, hf f hcall] at ho
        cases ho
      · rintro ⟨f, hcall, -⟩
        cases hcall
    · rw [Function.update_of_ne hqt]

omit [DecidableEq τ] [DecidableEq ι] [DecidableEq κ] in
theorem Serves.locked {call : τ → Option (SynchCall ι κ)} {s : Synch τ ι κ} (h : s.Serves call)
    (ht : t ∈ s.lkWchan l) : ∃ f, call t = some f ∧ f.lock = l ∧ f.owns .out = true := by
  have hpc := SynchPc.eq_lockSleep (h.ordered.locked.1 ht)
  cases hcall : call t with
  | none =>
    have hout := h.idle hcall
    rw [hpc] at hout
    cases hout
  | some f =>
    have hw := h.within hcall
    rw [hpc] at hw
    rcases hw with rfl | ⟨c, rfl⟩
    · exact ⟨_, rfl, rfl, rfl⟩
    · exact ⟨_, rfl, rfl, rfl⟩

omit [DecidableEq τ] [DecidableEq ι] [DecidableEq κ] in
theorem Serves.queued {call : τ → Option (SynchCall ι κ)} {s : Synch τ ι κ} (h : s.Serves call)
    (ht : t ∈ s.cvWchan c) : ∃ l, call t = some (.wait c l) := by
  obtain ⟨l, hpc⟩ := SynchPc.eq_cvSleep (h.ordered.queued.1 ht)
  cases hcall : call t with
  | none =>
    have hout := h.idle hcall
    rw [hpc] at hout
    cases hout
  | some f =>
    have hw := h.within hcall
    rw [hpc] at hw
    exact ⟨l, congrArg some hw⟩

omit [DecidableEq τ] [DecidableEq ι] [DecidableEq κ] in
theorem Serves.spinning {call : τ → Option (SynchCall ι κ)} {s : Synch τ ι κ} (h : s.Serves call)
    (ht : s.cvLock c = some t) : ∃ l, call t = some (.wait c l) := by
  have hsp := h.ordered.spins.1 ht
  cases hcall : call t with
  | none =>
    rw [h.idle hcall] at hsp
    cases hsp
  | some f =>
    have hw := h.within hcall
    cases hpc : s.pc t with
    | cvEnter c' l | cvRelease c' l | cvQueue c' l =>
      rw [hpc] at hw hsp
      cases hsp
      exact ⟨l, congrArg some hw⟩
    | _ =>
      rw [hpc] at hsp
      cases hsp

omit [DecidableEq τ] [DecidableEq ι] [DecidableEq κ] in
theorem start_serves : (start : Synch τ ι κ).Serves fun _ => none := by
  refine ⟨start_ordered, ?_, nofun, ?_⟩
  · intro t _
    rfl
  · intro l t
    constructor
    · exact nofun
    · rintro ⟨f, hf, -⟩
      cases hf

end Synch

end Clape
