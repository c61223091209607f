import Mathlib.Data.List.Basic

namespace Clape
set_option autoImplicit true

/-- A call that works on a state. It ends with a value or with an error number, and leaves a
state in both cases; or the system stops in it. -/
def Call (π ε σ α : Type) : Type := σ → Except π (Except ε α × σ)

namespace Call

/-- An error number ends the calls that follow too. -/
def andThen (m : Call π ε σ α) (f : α → Call π ε σ β) : Call π ε σ β := fun s =>
  match m s with
  | .error p => .error p
  | .ok (.error e, t) => .ok (.error e, t)
  | .ok (.ok a, t) => f a t

instance : Monad (Call π ε σ) where
  pure a := fun s => .ok (.ok a, s)
  bind := andThen

def fail (e : ε) : Call π ε σ α := fun s => .ok (.error e, s)

def stop (p : π) : Call π ε σ α := fun _ => .error p

def state : Call π ε σ σ := fun s => .ok (.ok s, s)

def update (f : σ → σ) : Call π ε σ Unit := fun s => .ok (.ok (), f s)

/-- The system stops unless a condition holds. -/
def require (b : Bool) (p : π) : Call π ε σ Unit := if b then pure () else stop p

def when (b : Bool) (m : Call π ε σ Unit) : Call π ε σ Unit := if b then m else pure ()

/-- What a call returned, for a caller that looks at it. -/
def result (m : Call π ε σ α) : Call π ε σ (Except ε α) := fun s =>
  match m s with
  | .error p => .error p
  | .ok (r, t) => .ok (.ok r, t)

theorem bind_unit (m : Call π ε σ Unit) (s : σ) : (m >>= fun _ => pure ()) s = m s := by
  show andThen m _ s = m s
  unfold andThen
  cases hm : m s with
  | error p => rfl
  | ok x =>
    cases x with
    | mk r t => cases r <;> rfl

/-- The value of the call or its error number, and the state that it leaves, are as described. The
system stops in it only if `p` holds: `False` is for a call that has to end, and `True` for one that
may stop. -/
def Ends (p : Prop) (m : Call π ε σ α) (Q : α → σ → Prop) (E : ε → σ → Prop) (s : σ) : Prop :=
  match m s with
  | .error _ => p
  | .ok (.ok a, t) => Q a t
  | .ok (.error e, t) => E e t

variable {p : Prop} {m : Call π ε σ α} {Q Q' : α → σ → Prop} {E E' : ε → σ → Prop} {s : σ}

@[simp] theorem ends_pure {a : α} : Ends p (pure a : Call π ε σ α) Q E s ↔ Q a s := Iff.rfl

@[simp] theorem ends_fail {e : ε} : Ends p (fail e : Call π ε σ α) Q E s ↔ E e s := Iff.rfl

@[simp] theorem ends_stop {x : π} : Ends p (stop x : Call π ε σ α) Q E s ↔ p := Iff.rfl

@[simp] theorem ends_state {Q : σ → σ → Prop} : Ends p (state : Call π ε σ σ) Q E s ↔ Q s s := Iff.rfl

@[simp] theorem ends_update {f : σ → σ} {Q : Unit → σ → Prop} :
    Ends p (update f : Call π ε σ Unit) Q E s ↔ Q () (f s) := Iff.rfl

@[simp] theorem ends_require {Q : Unit → σ → Prop} {b : Bool} {x : π} :
    Ends p (require b x : Call π ε σ Unit) Q E s ↔ (b = true → Q () s) ∧ (b = false → p) := by
  cases b with
  | false => exact ⟨fun h => ⟨Bool.noConfusion, fun _ => h⟩, fun h => h.2 rfl⟩
  | true => exact ⟨fun h => ⟨fun _ => h, Bool.noConfusion⟩, fun h => h.1 rfl⟩

theorem ends_when {m : Call π ε σ Unit} {Q : Unit → σ → Prop} {b : Bool} :
    Ends p (when b m) Q E s ↔ (b = true → Ends p m Q E s) ∧ (b = false → Q () s) := by
  cases b with
  | false => exact ⟨fun h => ⟨Bool.noConfusion, fun _ => h⟩, fun h => h.2 rfl⟩
  | true => exact ⟨fun h => ⟨fun _ => h, Bool.noConfusion⟩, fun h => h.1 rfl⟩

@[simp] theorem ends_bind {f : α → Call π ε σ β} {Q : β → σ → Prop} :
    Ends p (m >>= f) Q E s ↔ Ends p m (fun a t => Ends p (f a) Q E t) E s := by
  show Ends p (andThen m f) Q E s ↔ _
  unfold Ends andThen
  cases m s with
  | error x => exact Iff.rfl
  | ok x =>
    cases x with
    | mk r t => cases r <;> exact Iff.rfl

@[simp] theorem ends_result {Q : Except ε α → σ → Prop} :
    Ends p (result m) Q E s ↔ Ends p m (fun a => Q (.ok a)) (fun e => Q (.error e)) s := by
  unfold Ends result
  cases m s with
  | error x => exact Iff.rfl
  | ok x =>
    cases x with
    | mk r t => cases r <;> exact Iff.rfl

theorem Ends.mono (h : Ends p m Q E s) (hQ : ∀ a t, Q a t → Q' a t) (hE : ∀ e t, E e t → E' e t) :
    Ends p m Q' E' s := by
  unfold Ends at h ⊢
  cases hm : m s with
  | error x =>
    rw [hm] at h
    exact h
  | ok x =>
    rw [hm] at h
    cases x with
    | mk r t =>
      cases r with
      | ok a => exact hQ a t h
      | error e => exact hE e t h

theorem Ends.stops (h : Ends p m Q E s) (hp : p → q) : Ends q m Q E s := by
  unfold Ends at h ⊢
  cases hm : m s with
  | error x =>
    rw [hm] at h
    exact hp h
  | ok x =>
    rw [hm] at h
    cases x with
    | mk r t => cases r <;> exact h

/-- The rule for a call in front of others. -/
theorem Ends.bind {f : α → Call π ε σ β} {R : β → σ → Prop} (h : Ends p m Q E s)
    (hf : ∀ a t, Q a t → Ends p (f a) R E' t) (hE : ∀ e t, E e t → E' e t) :
    Ends p (m >>= f) R E' s := by
  rw [ends_bind]
  exact h.mono hf hE

theorem Ends.of_ok (hm : m s = .ok (.ok a, t)) (h : Q a t) : Ends p m Q E s := by
  unfold Ends
  rw [hm]
  exact h

theorem Ends.of_error (hm : m s = .ok (.error e, t)) (h : E e t) : Ends p m Q E s := by
  unfold Ends
  rw [hm]
  exact h

theorem Ends.of_stop (hm : m s = .error x) (h : p) : Ends p m Q E s := by
  unfold Ends
  rw [hm]
  exact h

theorem Ends.ok (h : Ends False m Q E s) : ∃ r t, m s = .ok (r, t) := by
  unfold Ends at h
  cases hm : m s with
  | error x =>
    rw [hm] at h
    cases h
  | ok x => exact ⟨x.1, x.2, rfl⟩

theorem Ends.value (h : Ends p m Q E s) (hm : m s = .ok (.ok a, t)) : Q a t := by
  unfold Ends at h
  rw [hm] at h
  exact h

theorem Ends.errno (h : Ends p m Q E s) (hm : m s = .ok (.error e, t)) : E e t := by
  unfold Ends at h
  rw [hm] at h
  exact h

theorem Ends.after {I : σ → Prop} (h : Ends p m (fun _ => I) (fun _ => I) s) (hm : m s = .ok (r, t)) :
    I t := by
  cases r with
  | ok a => exact h.value hm
  | error e => exact h.errno hm

/-- The loop rule. The invariant is about the elements that are done, the accumulator and the
state. -/
theorem Ends.foldlM {f : α → ι → Call π ε σ α} {P : List ι → α → σ → Prop} {l : List ι}
    (h0 : P [] a s)
    (hf : ∀ done i rest a s, l = done ++ i :: rest → P done a s →
      Ends p (f a i) (P (done ++ [i])) E s) :
    Ends p (l.foldlM f a) (P l) E s := by
  suffices hs : ∀ rest done a s, l = done ++ rest → P done a s →
      Ends p (rest.foldlM f a) (P l) E s from hs l [] a s rfl h0
  intro rest
  induction rest with
  | nil =>
    intro done a s hl hp
    rw [List.append_nil] at hl
    subst hl
    exact hp
  | cons i rest ih =>
    intro done a s hl hp
    rw [List.foldlM_cons]
    apply (hf done i rest a s hl hp).bind
    · intro b t ht
      exact ih (done ++ [i]) b t (by simp [hl]) ht
    · intro e t he
      exact he

/-- The call succeeded, in a state with some property. -/
def succeeded (r : Except π (Except ε α × σ)) (p : σ → Bool) : Bool :=
  match r with
  | .ok (.ok _, t) => p t
  | _ => false

theorem exists_of_succeeded {r : Except π (Except ε α × σ)} {p : σ → Bool} (h : succeeded r p = true) :
    ∃ a t, r = .ok (.ok a, t) ∧ p t = true := by
  cases r with
  | error e => cases h
  | ok x =>
    obtain ⟨r, t⟩ := x
    cases r with
    | error e => cases h
    | ok a => exact ⟨a, t, rfl, h⟩

end Call

end Clape
