import Clape.Calls
import Clape.ThreadLists
import Mathlib.Data.Fintype.Option

namespace Clape
set_option autoImplicit true

open ThreadLists Call

/-- The run queues, with `victims` as the list of no CPU, and the `t_cpu` of every thread; then the calls
on these lists that were made here, the last one first, and a count of the moments at which the other CPUs
worked. -/
structure Cpus (n : Nat) (τ : Type) where
  lists : Option (Fin n) → List τ
  tcpu : τ → Fin n
  calls : List (Op (Option (Fin n)) τ × Option τ)
  moment : Nat

/-- What the other CPUs do while this one holds the lock of a run queue, or of none: they add threads that
are on no list, take threads from the queues that are not this CPU's, and choose the CPU of threads that are
on no list. -/
inductive Elsewhere {n : Nat} {τ : Type} [DecidableEq τ] (curthread : τ) (held : Option (Fin n)) (w : Cpus n τ) :
    Cpus n τ → Prop where
  | refl : Elsewhere curthread held w w
  | add {v : Cpus n τ} {c : Fin n} {t : τ} {A B : List τ} (h : Elsewhere curthread held w v) (hc : some c ≠ held)
    (ht : ∀ k, t ∉ v.lists k) (hcpu : v.tcpu t = c) (he : v.lists (some c) = A ++ B) :
    Elsewhere curthread held w { v with lists := Function.update v.lists (some c) (A ++ t :: B) }
  | take {v : Cpus n τ} {c : Fin n} {t : τ} {A B : List τ} (h : Elsewhere curthread held w v) (hc : some c ≠ held)
    (hself : c ≠ v.tcpu curthread) (he : v.lists (some c) = A ++ t :: B) :
    Elsewhere curthread held w { v with lists := Function.update v.lists (some c) (A ++ B) }
  | assign {v : Cpus n τ} {t : τ} (h : Elsewhere curthread held w v) (c : Fin n)
    (ht : ∀ k, t ∉ v.lists k) (hcur : t ≠ curthread) :
    Elsewhere curthread held w { v with tcpu := Function.update v.tcpu t c }

/-- The other CPUs. What they do may depend on the moment and on everything else. -/
structure Others (n : Nat) {τ : Type} [DecidableEq τ] (curthread : τ) where
  change : Option (Fin n) → Cpus n τ → Cpus n τ
  elsewhere : ∀ held w, Elsewhere curthread held w (change held w)

namespace Cpus

/-- A `NULL` thread is followed; a thread is put where it may not be; the last assertion fails; the last
loop does not end. -/
inductive Stop where
  | empty | misuse | leftovers | endless
  deriving DecidableEq, Repr

instance [DecidableEq τ] [DecidableEq κ] [Fintype κ] (L : κ → List τ) (o : Op κ τ) : Decidable (o.Allowed L) := by
  cases o <;> unfold Op.Allowed <;> infer_instance

section Code
variable {n : Nat} [DecidableEq τ] {curthread : τ} (others : Others n curthread)

abbrev Action (n : Nat) (τ α : Type) : Type := Call Stop Empty (Cpus n τ) α

/-- The other CPUs work. -/
def elsewhere (held : Option (Fin n)) : Action n τ Unit :=
  update fun w => others.change held { w with moment := w.moment + 1 }

/-- A call on a list, within its contract. -/
def threadlist (o : Op (Option (Fin n)) τ) : Action n τ (Option τ) := fun w =>
  if o.Allowed w.lists then
    .ok (.ok (o.act w.lists).1, { w with lists := (o.act w.lists).2, calls := (o, (o.act w.lists).1) :: w.calls })
  else .error .misuse

def tl_count (c : Fin n) : Action n τ Nat := do
  let w ← state
  return (w.lists (some c)).length

/-- `curthread->t_cpu` -/
def curcpu (curthread : τ) : Action n τ (Fin n) := do
  let w ← state
  return w.tcpu curthread

def set_tcpu (t : τ) (c : Fin n) : Action n τ Unit :=
  update fun w => { w with tcpu := Function.update w.tcpu t c }

/-- The counts of the queues, with that of the current CPU. -/
def countQueues : List (Fin n) → (my_count total_count : Nat) → Action n τ (Nat × Nat)
  | [], my_count, total_count => return (my_count, total_count)
  | c :: cs, my_count, total_count => do
    elsewhere others none
    let q ← tl_count c
    let self ← curcpu curthread
    countQueues cs (if c = self then q else my_count) ((total_count + q) % 2 ^ 32)

def takeVictims : (to_send : Nat) → Action n τ Unit
  | 0 => return ()
  | k + 1 => do
    let self ← curcpu curthread
    elsewhere others (some self)
    match ← threadlist (.remtail (some self)) with
    | none => stop .empty
    | some t =>
      let _ ← threadlist (.addhead none t)
      takeVictims k

/-- The loop under the lock of another queue, which returns what is left to send. -/
def sendTo (c : Fin n) (one_share : Nat) : (to_send : Nat) → Action n τ Nat
  | 0 => return 0
  | k + 1 => do
    elsewhere others (some c)
    let q ← tl_count c
    if q < one_share then
      match ← threadlist (.remhead none) with
      | none => stop .empty
      | some t =>
        if t = curthread then do
          let _ ← threadlist (.addtail none t)
          sendTo c one_share k
        else do
          set_tcpu t c
          let _ ← threadlist (.addtail (some c) t)
          sendTo c one_share k
    else return k + 1

def sendVictims (one_share : Nat) : List (Fin n) → (to_send : Nat) → Action n τ Unit
  | [], _ => return ()
  | c :: cs, to_send => do
    if 0 < to_send then
      let self ← curcpu curthread
      if c = self then sendVictims one_share cs to_send
      else
        elsewhere others none
        let left ← sendTo others c one_share to_send
        sendVictims one_share cs left
    else return ()

/-- The leftovers go back. The number bounds the turns of the loop. -/
def putBack : Nat → Action n τ Unit
  | 0 => stop .endless
  | k + 1 => do
    let self ← curcpu curthread
    elsewhere others (some self)
    match ← threadlist (.remhead none) with
    | none => return ()
    | some t =>
      let _ ← threadlist (.addtail (some self) t)
      putBack k

def thread_consider_migration : Action n τ Unit := do
  let (my_count, total_count) ← countQueues others (List.finRange n) 0 0
  let one_share := (total_count + n - 1) % 2 ^ 32 / n
  if my_count < one_share then return ()
  else
    update fun w => { w with lists := Function.update w.lists none [] }
    elsewhere others none
    takeVictims others (my_count - one_share)
    sendVictims others one_share (List.finRange n) (my_count - one_share)
    let w ← state
    when (w.lists none ≠ []) do
      elsewhere others none
      putBack others ((w.lists none).length + 1)
    let w ← state
    require (w.lists none = []) .leftovers

end Code

/-- The threads that were taken from the run queues. -/
def taken (calls : List (Op (Option (Fin n)) τ × Option τ)) : List τ :=
  calls.filterMap fun
    | (.remhead (some _), r) | (.remtail (some _), r) => r
    | (.remove (some _) t, _) => some t
    | _ => none

/-- The threads that were put on the run queues, with the CPUs of these. -/
def placed (calls : List (Op (Option (Fin n)) τ × Option τ)) : List (τ × Fin n) :=
  calls.filterMap fun
    | (.addhead (some c) t, _) | (.addtail (some c) t, _) => some (t, c)
    | (.insertafter (some c) _ t, _) | (.insertbefore (some c) t _, _) => some (t, c)
    | _ => none

/-- Every thread that is queued has the CPU of the queue. -/
structure Sane (w : Cpus n τ) : Prop extends Separate w.lists where
  cpu : ∀ c, ∀ t ∈ w.lists (some c), w.tcpu t = c

/-- What holds all the time: what was taken is placed or is a victim, and `curthread` is not sent away. -/
structure Steady (curthread : τ) (me : Fin n) (queued : Prop) (w : Cpus n τ) : Prop extends Sane w where
  here : w.tcpu curthread = me
  victim : ∀ t ∈ w.lists none, w.tcpu t = me
  kept : (taken w.calls).Perm ((placed w.calls).map Prod.fst ++ w.lists none)
  once : (taken w.calls).Nodup
  stays : queued → curthread ∈ w.lists (some me) ∨ curthread ∈ w.lists none

theorem separate_move {κ τ : Type} [DecidableEq κ] {L : κ → List τ} {k k' : κ} {t : τ} {A B X Y : List τ}
    (h : Separate L) (he : L k = A ++ t :: B) (he' : Function.update L k (A ++ B) k' = X ++ Y) :
    (∀ j, t ∉ Function.update L k (A ++ B) j) ∧
      Separate (Function.update (Function.update L k (A ++ B)) k' (X ++ t :: Y)) ∧
      ∀ j x, x ∈ Function.update (Function.update L k (A ++ B)) k' (X ++ t :: Y) j ↔ j = k' ∧ x = t ∨ x ∈ L j ∧ x ≠ t := by
  have hoff : ∀ j, t ∉ Function.update L k (A ++ B) j := fun j hj => ((h.mem_take he).1 hj).2 rfl
  refine ⟨hoff, (h.take he).put he' hoff, ?_⟩
  intro j x
  rw [mem_put he', h.mem_take he]

section Steps
variable {n : Nat} {τ : Type} [DecidableEq τ] {curthread : τ} {me : Fin n} {queued : Prop} {w v : Cpus n τ}

/-- What the others leave alone. -/
structure Apart (curthread : τ) (held : Option (Fin n)) (w v : Cpus n τ) : Prop where
  victims : v.lists none = w.lists none
  calls : v.calls = w.calls
  held : ∀ c, held = some c → v.lists (some c) = w.lists (some c)
  own : (w.lists (some (w.tcpu curthread))).Subperm (v.lists (some (w.tcpu curthread)))
  tcpu : v.tcpu curthread = w.tcpu curthread

theorem Steady.elsewhere (h : Elsewhere curthread held w v) (hw : Steady curthread me queued w) :
    Steady curthread me queued v ∧ Apart curthread held w v := by
  induction h with
  | refl => exact ⟨hw, rfl, rfl, fun _ _ => rfl, List.Subperm.refl _, rfl⟩
  | @add v c t A B _ hc ht hcpu he ih =>
    obtain ⟨hv, ha⟩ := ih
    have hnone : Function.update v.lists (some c) (A ++ t :: B) none = v.lists none :=
      Function.update_of_ne (Option.some_ne_none c).symm ..
    have hmem : ∀ k x, x ∈ v.lists k → x ∈ Function.update v.lists (some c) (A ++ t :: B) k :=
      fun k x hx => (mem_put he).2 (.inr hx)
    refine ⟨⟨⟨hv.toSeparate.put he ht, ?_⟩, hv.here, ?_, ?_, hv.once, ?_⟩, ?_, ha.calls, ?_, ?_, ha.tcpu⟩
    · intro d x hx
      rcases (mem_put he).1 hx with ⟨hd, rfl⟩ | hx
      · cases hd
        exact hcpu
      · exact hv.cpu d x hx
    · intro x hx
      exact hv.victim x (hnone ▸ hx)
    · show List.Perm _ (_ ++ Function.update v.lists (some c) (A ++ t :: B) none)
      rw [hnone]
      exact hv.kept
    · intro hq
      exact (hv.stays hq).imp (hmem _ _) (hmem _ _)
    · exact hnone.trans ha.victims
    · intro d hd
      have hne : some d ≠ some c := fun hdc => hc (hdc.symm.trans hd.symm)
      exact (Function.update_of_ne hne ..).trans (ha.held d hd)
    · apply ha.own.trans
      by_cases hd : w.tcpu curthread = c
      · rw [hd]
        show List.Subperm _ (Function.update v.lists (some c) (A ++ t :: B) (some c))
        rw [Function.update_self, he]
        exact ((List.sublist_cons_self t B).append_left A).subperm
      · have hne : some (w.tcpu curthread) ≠ some c := fun hdc => hd (Option.some.inj hdc)
        show List.Subperm _ (Function.update v.lists (some c) (A ++ t :: B) (some (w.tcpu curthread)))
        rw [Function.update_of_ne hne]
  | @take v c t A B _ hc hself he ih =>
    obtain ⟨hv, ha⟩ := ih
    have hnone : Function.update v.lists (some c) (A ++ B) none = v.lists none :=
      Function.update_of_ne (Option.some_ne_none c).symm ..
    have hown : Function.update v.lists (some c) (A ++ B) (some me) = v.lists (some me) := by
      apply Function.update_of_ne
      intro hsc
      exact hself (Option.some.inj hsc ▸ hv.here.symm)
    refine ⟨⟨⟨hv.toSeparate.take he, ?_⟩, hv.here, ?_, ?_, hv.once, ?_⟩, ?_, ha.calls, ?_, ?_, ha.tcpu⟩
    · intro d x hx
      exact hv.cpu d x ((hv.toSeparate.mem_take he).1 hx).1
    · intro x hx
      exact hv.victim x (hnone ▸ hx)
    · show List.Perm _ (_ ++ Function.update v.lists (some c) (A ++ B) none)
      rw [hnone]
      exact hv.kept
    · intro hq
      show _ ∈ Function.update v.lists (some c) (A ++ B) (some me) ∨
        _ ∈ Function.update v.lists (some c) (A ++ B) none
      rw [hnone, hown]
      exact hv.stays hq
    · exact hnone.trans ha.victims
    · intro d hd
      have hne : some d ≠ some c := fun hdc => hc (hdc.symm.trans hd.symm)
      exact (Function.update_of_ne hne ..).trans (ha.held d hd)
    · have hown' := ha.own
      rw [hw.here] at hown' ⊢
      show List.Subperm _ (Function.update v.lists (some c) (A ++ B) (some me))
      rw [hown]
      exact hown'
  | @assign v t _ c ht hcur ih =>
    obtain ⟨hv, ha⟩ := ih
    have htcpu : ∀ k, ∀ x ∈ v.lists k, Function.update v.tcpu t c x = v.tcpu x := by
      intro k x hx
      apply Function.update_of_ne
      intro hxt
      exact ht k (hxt ▸ hx)
    have hsame : Function.update v.tcpu t c curthread = v.tcpu curthread := Function.update_of_ne hcur.symm ..
    refine ⟨⟨⟨hv.toSeparate, ?_⟩, hsame.trans hv.here, ?_, hv.kept, hv.once, hv.stays⟩, ha.victims, ha.calls,
      ha.held, ha.own, hsame.trans ha.tcpu⟩
    · intro d x hx
      exact (htcpu _ x hx).trans (hv.cpu d x hx)
    · intro x hx
      exact (htcpu _ x hx).trans (hv.victim x hx)

theorem Steady.take {t : τ} {A : List τ} (h : Steady curthread me queued w) (hp : placed w.calls = [])
    (he : w.lists (some me) = A ++ [t]) :
    (∀ j, t ∉ Function.update w.lists (some me) A j) ∧
    Steady curthread me queued { w with
      lists := Function.update (Function.update w.lists (some me) A) none (t :: w.lists none)
      calls := (.addhead none t, none) :: (.remtail (some me), some t) :: w.calls } := by
  have hnone : Function.update w.lists (some me) (A ++ []) none = [] ++ w.lists none :=
    Function.update_of_ne (Option.some_ne_none me).symm ..
  obtain ⟨hoff, hsep, hmem⟩ := separate_move h.toSeparate he hnone
  rw [List.append_nil] at hoff hsep hmem
  rw [List.nil_append] at hsep hmem
  have ht : t ∈ w.lists (some me) := he ▸ List.mem_append_right _ (List.mem_singleton_self t)
  have hkept := h.kept
  rw [hp, List.map_nil, List.nil_append] at hkept
  have htaken : t ∉ taken w.calls := by
    intro hmem
    have hsame := h.apart none (some me) t (hkept.mem_iff.1 hmem) ht
    cases hsame
  refine ⟨hoff, ⟨⟨hsep, ?_⟩, h.here, ?_, ?_, List.nodup_cons.2 ⟨htaken, h.once⟩, ?_⟩⟩
  · intro c x hx
    rcases (hmem (some c) x).1 hx with ⟨hc, -⟩ | hx
    · cases hc
    · exact h.cpu c x hx.1
  · intro x hx
    rcases (hmem none x).1 hx with ⟨-, rfl⟩ | hx
    · exact h.cpu me x ht
    · exact h.victim x hx.1
  · show (t :: taken w.calls).Perm ((placed w.calls).map Prod.fst ++
      Function.update (Function.update w.lists (some me) A) none (t :: w.lists none) none)
    rw [hp, List.map_nil, List.nil_append, Function.update_self]
    exact hkept.cons t
  · intro hq
    by_cases hct : curthread = t
    · exact .inr ((hmem none _).2 (.inl ⟨rfl, hct⟩))
    · exact (h.stays hq).imp (fun hx => (hmem (some me) _).2 (.inr ⟨hx, hct⟩)) fun hx => (hmem none _).2 (.inr ⟨hx, hct⟩)

theorem Steady.cycle {V : List τ} (h : Steady curthread me queued w) (he : w.lists none = curthread :: V) :
    (∀ j, curthread ∉ Function.update w.lists none V j) ∧
    Steady curthread me queued { w with
      lists := Function.update (Function.update w.lists none V) none (V ++ [curthread])
      calls := (.addtail none curthread, none) :: (.remhead none, some curthread) :: w.calls } := by
  have hnone : Function.update w.lists none ([] ++ V) none = V ++ [] := by
    rw [Function.update_self, List.append_nil]
    rfl
  obtain ⟨hoff, hsep, hmem⟩ := separate_move (A := []) h.toSeparate he hnone
  have hin : curthread ∈ w.lists none := he ▸ List.mem_cons_self
  have hsame : ∀ j x, x ∈ Function.update (Function.update w.lists none V) none (V ++ [curthread]) j ↔ x ∈ w.lists j := by
    intro j x
    apply (hmem j x).trans
    constructor
    · rintro (⟨rfl, rfl⟩ | hx)
      · exact hin
      · exact hx.1
    · intro hx
      by_cases hxc : x = curthread
      · subst hxc
        exact .inl ⟨h.apart j none x hx hin, rfl⟩
      · exact .inr ⟨hx, hxc⟩
  refine ⟨hoff, ⟨⟨hsep, ?_⟩, h.here, ?_, ?_, h.once, ?_⟩⟩
  · intro c x hx
    exact h.cpu c x ((hsame (some c) x).1 hx)
  · intro x hx
    exact h.victim x ((hsame none x).1 hx)
  · show (taken w.calls).Perm ((placed w.calls).map Prod.fst ++
      Function.update (Function.update w.lists none V) none (V ++ [curthread]) none)
    rw [Function.update_self]
    have hrot : (w.lists none).Perm (V ++ [curthread]) := by
      rw [he]
      exact (List.perm_append_singleton curthread V).symm
    exact h.kept.trans (hrot.append_left _)
  · intro hq
    exact (h.stays hq).imp (hsame (some me) _).2 (hsame none _).2

theorem Steady.place {t : τ} {V : List τ} {c : Fin n} (h : Steady curthread me queued w) (he : w.lists none = t :: V)
    (hc : t = curthread → c = me) :
    (∀ j, t ∉ Function.update w.lists none V j) ∧
    Steady curthread me queued { w with
      lists := Function.update (Function.update w.lists none V) (some c) (w.lists (some c) ++ [t])
      tcpu := Function.update w.tcpu t c
      calls := (.addtail (some c) t, none) :: (.remhead none, some t) :: w.calls } := by
  have hqueue : Function.update w.lists none ([] ++ V) (some c) = w.lists (some c) ++ [] := by
    rw [List.append_nil]
    exact Function.update_of_ne (Option.some_ne_none c) ..
  obtain ⟨hoff, hsep, hmem⟩ := separate_move (A := []) h.toSeparate he hqueue
  have hin : t ∈ w.lists none := he ▸ List.mem_cons_self
  refine ⟨hoff, ⟨⟨hsep, ?_⟩, ?_, ?_, ?_, h.once, ?_⟩⟩
  · intro d x hx
    show Function.update w.tcpu t c x = d
    rcases (hmem (some d) x).1 hx with ⟨hd, rfl⟩ | ⟨hx, hxt⟩
    · cases hd
      exact Function.update_self ..
    · rw [Function.update_of_ne hxt]
      exact h.cpu d x hx
  · show Function.update w.tcpu t c curthread = me
    by_cases hct : curthread = t
    · subst hct
      rw [Function.update_self]
      exact hc rfl
    · rw [Function.update_of_ne hct]
      exact h.here
  · intro x hx
    show Function.update w.tcpu t c x = me
    rcases (hmem none x).1 hx with ⟨hd, -⟩ | ⟨hx, hxt⟩
    · cases hd
    · rw [Function.update_of_ne hxt]
      exact h.victim x hx
  · show (taken w.calls).Perm (t :: ((placed w.calls).map Prod.fst) ++
      Function.update (Function.update w.lists none V) (some c) (w.lists (some c) ++ [t]) none)
    rw [Function.update_of_ne (Option.some_ne_none c).symm, Function.update_self]
    have hkept := h.kept
    rw [he] at hkept
    exact hkept.trans List.perm_middle
  · intro hq
    by_cases hct : curthread = t
    · exact .inl ((hmem (some me) _).2 (.inl ⟨congrArg some (hc hct.symm).symm, hct⟩))
    · exact (h.stays hq).imp (fun hx => (hmem (some me) _).2 (.inr ⟨hx, hct⟩)) fun hx => (hmem none _).2 (.inr ⟨hx, hct⟩)

section Calls
variable {p : Prop} {E : Empty → Cpus n τ → Prop} {others : Others n curthread}

theorem ends_threadlist {Q : Option τ → Cpus n τ → Prop} {o : Op (Option (Fin n)) τ} (ha : o.Allowed w.lists) :
    Ends p (threadlist o) Q E w ↔ Q (o.act w.lists).1
      { w with lists := (o.act w.lists).2, calls := (o, (o.act w.lists).1) :: w.calls } := by
  unfold Ends threadlist
  rw [if_pos ha]

theorem ends_remtail {Q : Option τ → Cpus n τ → Prop} {k : Option (Fin n)} {A : List τ} {t : τ}
    (he : w.lists k = A ++ [t]) :
    Ends p (threadlist (.remtail k)) Q E w ↔ Q (some t)
      { w with lists := Function.update w.lists k A, calls := (.remtail k, some t) :: w.calls } := by
  have hact : (Op.remtail k : Op (Option (Fin n)) τ).act w.lists = (some t, Function.update w.lists k A) := by
    show ((w.lists k).getLast?, Function.update w.lists k (w.lists k).dropLast) = _
    rw [he, List.getLast?_concat, List.dropLast_concat]
  rw [ends_threadlist (o := .remtail k) trivial, hact]

theorem ends_remhead {Q : Option τ → Cpus n τ → Prop} {k : Option (Fin n)} {V : List τ} {t : τ}
    (he : w.lists k = t :: V) :
    Ends p (threadlist (.remhead k)) Q E w ↔ Q (some t)
      { w with lists := Function.update w.lists k V, calls := (.remhead k, some t) :: w.calls } := by
  have hact : (Op.remhead k : Op (Option (Fin n)) τ).act w.lists = (some t, Function.update w.lists k V) := by
    show ((w.lists k).head?, Function.update w.lists k (w.lists k).tail) = _
    rw [he]
    rfl
  rw [ends_threadlist (o := .remhead k) trivial, hact]

theorem ends_remhead_nil {Q : Option τ → Cpus n τ → Prop} {k : Option (Fin n)} (he : w.lists k = []) :
    Ends p (threadlist (.remhead k)) Q E w ↔ Q none { w with calls := (.remhead k, none) :: w.calls } := by
  have hact : (Op.remhead k : Op (Option (Fin n)) τ).act w.lists = (none, w.lists) := by
    have hsame : Function.update w.lists k [] = w.lists := by
      rw [← he, Function.update_eq_self]
    show ((w.lists k).head?, Function.update w.lists k (w.lists k).tail) = _
    rw [he, List.tail_nil, hsame]
    rfl
  rw [ends_threadlist (o := .remhead k) trivial, hact]

theorem ends_addhead {Q : Option τ → Cpus n τ → Prop} {k : Option (Fin n)} {t : τ} {M : List τ}
    (h : Q none { w with lists := Function.update w.lists k (t :: M), calls := (.addhead k t, none) :: w.calls })
    (ht : ∀ j, t ∉ w.lists j) (he : w.lists k = M) : Ends p (threadlist (.addhead k t)) Q E w := by
  subst he
  exact (ends_threadlist (o := .addhead k t) ht).2 h

theorem ends_addtail {Q : Option τ → Cpus n τ → Prop} {k : Option (Fin n)} {t : τ} {M : List τ}
    (h : Q none { w with lists := Function.update w.lists k (M ++ [t]), calls := (.addtail k t, none) :: w.calls })
    (ht : ∀ j, t ∉ w.lists j) (he : w.lists k = M) : Ends p (threadlist (.addtail k t)) Q E w := by
  subst he
  exact (ends_threadlist (o := .addtail k t) ht).2 h

theorem Steady.ends_elsewhere {Q : Unit → Cpus n τ → Prop} {held : Option (Fin n)}
    (h : Steady curthread me queued w)
    (hQ : ∀ v, Steady curthread me queued v → Apart curthread held w v → Q () v) :
    Ends p (Cpus.elsewhere others held) Q E w := by
  have hnow : Steady curthread me queued { w with moment := w.moment + 1 } :=
    ⟨⟨h.toSeparate, h.cpu⟩, h.here, h.victim, h.kept, h.once, h.stays⟩
  obtain ⟨hv, ha⟩ := hnow.elsewhere (others.elsewhere held _)
  exact hQ _ hv ⟨ha.victims, ha.calls, ha.held, ha.own, ha.tcpu⟩

theorem Steady.ends_countQueues {cs : List (Fin n)} {my total : Nat} (h : Steady curthread me queued w)
    (hmy : my ≤ (w.lists (some me)).length) :
    Ends p (countQueues others cs my total)
      (fun r v => Steady curthread me queued v ∧ r.1 ≤ (v.lists (some me)).length ∧ v.lists none = w.lists none ∧
        v.calls = w.calls) E w := by
  induction cs generalizing my total w with
  | nil => exact ⟨h, hmy, rfl, rfl⟩
  | cons c cs ih =>
    unfold countQueues
    rw [ends_bind]
    apply h.ends_elsewhere
    intro v hv ha
    have hown := ha.own.length_le
    rw [h.here] at hown
    have hlen : (if c = v.tcpu curthread then (v.lists (some c)).length else my) ≤ (v.lists (some me)).length := by
      split
      · rename_i hc
        rw [hc, hv.here]
      · exact hmy.trans hown
    apply (ih hv hlen).mono
    · intro r u hu
      exact ⟨hu.1, hu.2.1, hu.2.2.1.trans ha.victims, hu.2.2.2.trans ha.calls⟩
    · exact fun _ _ he => he

/-- As many victims as were asked for are taken from the queue of this CPU. -/
theorem Steady.ends_takeVictims {k m : Nat} (h : Steady curthread me queued w) (hp : placed w.calls = [])
    (hk : k ≤ (w.lists (some me)).length) (hm : (w.lists none).length + k = m) :
    Ends False (takeVictims others k)
      (fun _ v => Steady curthread me queued v ∧ (v.lists none).length = m) E w := by
  induction k generalizing w with
  | zero => exact ⟨h, hm⟩
  | succ k ih =>
    unfold takeVictims
    rw [ends_bind]
    show Ends False (Cpus.elsewhere others (some (w.tcpu curthread)) >>= fun _ => _) _ E w
    rw [h.here, ends_bind]
    apply h.ends_elsewhere
    intro v hv ha
    have hqueue := ha.held me rfl
    obtain hnil | ⟨A, t, he⟩ := List.eq_nil_or_concat (v.lists (some me))
    · rw [← hqueue, hnil] at hk
      exact absurd hk (Nat.not_succ_le_zero k)
    · rw [List.concat_eq_append] at he
      rw [← hqueue, he, List.length_append] at hk
      rw [← ha.victims] at hm
      rw [← ha.calls] at hp
      obtain ⟨hoff, hv'⟩ := hv.take hp he
      rw [ends_bind, ends_remtail he]
      show Ends False (threadlist (.addhead none t) >>= fun _ => _) _ E _
      have hnone : Function.update v.lists (some me) A none = v.lists none :=
        Function.update_of_ne (Option.some_ne_none me).symm ..
      rw [ends_bind]
      refine ends_addhead ?_ hoff hnone
      apply ih hv' hp
      · show k ≤ (Function.update (Function.update v.lists (some me) A) none (t :: v.lists none) (some me)).length
        rw [Function.update_of_ne (Option.some_ne_none me), Function.update_self]
        exact Nat.le_of_succ_le_succ hk
      · show (Function.update (Function.update v.lists (some me) A) none (t :: v.lists none) none).length + k = m
        rw [Function.update_self, List.length_cons]
        omega

theorem Steady.ends_sendTo {c : Fin n} {share k : Nat} (h : Steady curthread me queued w)
    (hk : k ≤ (w.lists none).length) :
    Ends False (sendTo others c share k)
      (fun left v => Steady curthread me queued v ∧ left ≤ (v.lists none).length) E w := by
  induction k generalizing w with
  | zero => exact ⟨h, Nat.zero_le _⟩
  | succ k ih =>
    unfold sendTo
    rw [ends_bind]
    apply h.ends_elsewhere
    intro v hv ha
    rw [← ha.victims] at hk
    show Ends False (if (v.lists (some c)).length < share then _ else _) _ E v
    split
    · cases he : v.lists none with
      | nil =>
        rw [he] at hk
        exact absurd hk (Nat.not_succ_le_zero k)
      | cons t V =>
        rw [he] at hk
        have hk' : k ≤ V.length := Nat.le_of_succ_le_succ hk
        rw [ends_bind, ends_remhead he]
        show Ends False (if t = curthread then _ else _) _ E _
        split
        · rename_i ht
          subst ht
          obtain ⟨hoff, hv'⟩ := hv.cycle he
          have hvictims : Function.update v.lists none V none = V := Function.update_self ..
          rw [ends_bind]
          refine ends_addtail ?_ hoff hvictims
          apply ih hv'
          show k ≤ (Function.update (Function.update v.lists none V) none (V ++ [t]) none).length
          rw [Function.update_self, List.length_append]
          exact hk'.trans (Nat.le_add_right _ _)
        · rename_i ht
          obtain ⟨hoff, hv'⟩ := hv.place (c := c) he fun h => absurd h ht
          have hqueue : Function.update v.lists none V (some c) = v.lists (some c) :=
            Function.update_of_ne (Option.some_ne_none c) ..
          show Ends False (threadlist (.addtail (some c) t) >>= fun _ => _) _ E _
          rw [ends_bind]
          refine ends_addtail ?_ hoff hqueue
          apply ih hv'
          show k ≤ (Function.update (Function.update v.lists none V) (some c) (v.lists (some c) ++ [t]) none).length
          rw [Function.update_of_ne (Option.some_ne_none c).symm, Function.update_self]
          exact hk'
    · exact ⟨hv, hk⟩

theorem Steady.ends_sendVictims {cs : List (Fin n)} {share k : Nat} (h : Steady curthread me queued w)
    (hk : k ≤ (w.lists none).length) :
    Ends False (sendVictims others share cs k) (fun _ => Steady curthread me queued) E w := by
  induction cs generalizing k w with
  | nil => exact h
  | cons c cs ih =>
    unfold sendVictims
    show Ends False (if 0 < k then _ else _) _ E w
    split
    · show Ends False (if c = w.tcpu curthread then _ else _) _ E w
      rw [h.here]
      split
      · exact ih h hk
      · rw [ends_bind]
        apply h.ends_elsewhere
        intro v hv ha
        rw [← ha.victims] at hk
        apply (hv.ends_sendTo hk).bind
        · intro left u hu
          exact ih hu.1 hu.2
        · exact fun _ _ he => he
    · exact h

theorem Steady.ends_putBack {k : Nat} (h : Steady curthread me queued w) (hk : (w.lists none).length < k) :
    Ends False (putBack others k) (fun _ v => Steady curthread me queued v ∧ v.lists none = []) E w := by
  induction k generalizing w with
  | zero => exact absurd hk (Nat.not_lt_zero _)
  | succ k ih =>
    unfold putBack
    rw [ends_bind]
    show Ends False (Cpus.elsewhere others (some (w.tcpu curthread)) >>= fun _ => _) _ E w
    rw [h.here, ends_bind]
    apply h.ends_elsewhere
    intro v hv ha
    rw [← ha.victims] at hk
    cases he : v.lists none with
    | nil =>
      rw [ends_bind, ends_remhead_nil he]
      exact ⟨⟨⟨hv.toSeparate, hv.cpu⟩, hv.here, hv.victim, hv.kept, hv.once, hv.stays⟩, he⟩
    | cons t V =>
      rw [he] at hk
      have hsame : Function.update v.tcpu t me = v.tcpu := by
        rw [← hv.victim t (he ▸ List.mem_cons_self), Function.update_eq_self]
      obtain ⟨hoff, hv'⟩ := hv.place (c := me) he fun _ => rfl
      rw [hsame] at hv'
      have hqueue : Function.update v.lists none V (some me) = v.lists (some me) :=
        Function.update_of_ne (Option.some_ne_none me) ..
      rw [ends_bind, ends_remhead he]
      show Ends False (threadlist (.addtail (some me) t) >>= fun _ => _) _ E _
      rw [ends_bind]
      refine ends_addtail ?_ hoff hqueue
      apply ih hv'
      show (Function.update (Function.update v.lists none V) (some me) (v.lists (some me) ++ [t]) none).length < k
      rw [Function.update_of_ne (Option.some_ne_none me).symm, Function.update_self]
      exact Nat.lt_of_succ_lt_succ hk

/-- From the counts on there is nothing among the victims, and then again at the end. -/
theorem Steady.ends_migration (h : Steady curthread me queued w) (hv : w.lists none = []) (hc : w.calls = []) :
    Ends False (thread_consider_migration others)
      (fun _ v => Steady curthread me queued v ∧ v.lists none = []) E w := by
  unfold thread_consider_migration
  apply (h.ends_countQueues (Nat.zero_le _)).bind
  · intro r v ⟨hs, hle, hnone, hcalls⟩
    rw [hv] at hnone
    rw [hc] at hcalls
    generalize hshare : (r.2 + n - 1) % 2 ^ 32 / n = share
    show Ends False (if r.1 < (r.2 + n - 1) % 2 ^ 32 / n then _ else _) _ E v
    rw [hshare]
    split
    · exact ⟨hs, hnone⟩
    · rw [ends_bind]
      show Ends False _ _ E { v with lists := Function.update v.lists none [] }
      have hsame : Function.update v.lists none [] = v.lists := by
        rw [← hnone, Function.update_eq_self]
      rw [hsame, ends_bind]
      apply hs.ends_elsewhere
      intro u hu ha
      have hown := ha.own.length_le
      rw [hs.here] at hown
      have hunone := ha.victims.trans hnone
      have hplaced : placed u.calls = [] := by
        rw [ha.calls, hcalls]
        rfl
      have hroom : r.1 - share ≤ (u.lists (some me)).length := (Nat.sub_le _ _).trans (hle.trans hown)
      have hlength : (u.lists none).length + (r.1 - share) = r.1 - share := by
        rw [hunone, List.length_nil, Nat.zero_add]
      apply (hu.ends_takeVictims hplaced hroom hlength).bind
      · intro _ x ⟨hx, hlen⟩
        apply (hx.ends_sendVictims hlen.ge).bind
        · intro _ y hy
          rw [ends_bind, ends_state, ends_bind, ends_when]
          have hlast : ∀ z, Steady curthread me queued z ∧ z.lists none = [] →
              Ends False (do
                let w ← state
                require (w.lists none = []) Stop.leftovers)
                (fun _ v => Steady curthread me queued v ∧ v.lists none = []) E z := by
            intro z hz
            rw [ends_bind, ends_state, ends_require]
            exact ⟨fun _ => hz, fun hne => of_decide_eq_false hne hz.2⟩
          constructor
          · intro _
            rw [ends_bind]
            apply hy.ends_elsewhere
            intro z hz haz
            apply (hz.ends_putBack ?_).mono
            · exact fun _ t ht => hlast t ht
            · exact fun _ _ he => he
            · rw [haz.victims]
              exact Nat.lt_succ_self _
          · intro hempty
            exact hlast y ⟨hy, not_not.1 (of_decide_eq_false hempty)⟩
        · exact fun _ _ he => he
      · exact fun _ _ he => he
  · exact fun _ _ he => he

end Calls

/-- The migration ends without a failure. Every thread that it took is on its way from the queue of this CPU to
exactly one queue, all queued threads still have the CPU of their queue, and `curthread` stays where it was. -/
theorem migration_loses_nothing (others : Others n curthread) (w : Cpus n τ) (h : Sane w) (hv : w.lists none = [])
    (hc : w.calls = []) :
    ∃ v, thread_consider_migration others w = .ok (.ok (), v) ∧ v.lists none = [] ∧ Sane v ∧
      (taken v.calls).Nodup ∧ (taken v.calls).Perm ((placed v.calls).map Prod.fst) ∧
      v.tcpu curthread = w.tcpu curthread ∧
      ((∃ c, curthread ∈ w.lists (some c)) → curthread ∈ v.lists (some (v.tcpu curthread))) := by
  have hsteady : Steady curthread (w.tcpu curthread) (∃ c, curthread ∈ w.lists (some c)) w := by
    refine ⟨h, rfl, ?_, ?_, ?_, ?_⟩
    · intro t ht
      rw [hv] at ht
      cases ht
    · rw [hc, hv]
      exact .refl _
    · rw [hc]
      exact List.nodup_nil
    · intro ⟨c, hcur⟩
      rw [h.cpu c curthread hcur]
      exact .inl hcur
  have hend : Ends False (thread_consider_migration others) _ (fun _ _ => True) w := hsteady.ends_migration hv hc
  obtain ⟨r, v, hrun⟩ := hend.ok
  cases r with
  | error e => cases e
  | ok u =>
    obtain ⟨hs, hnone⟩ := hend.value hrun
    refine ⟨v, hrun, hnone, hs.toSane, hs.once, ?_, hs.here, ?_⟩
    · have hkept := hs.kept
      rw [hnone, List.append_nil] at hkept
      exact hkept
    · intro hq
      rw [hs.here]
      rcases hs.stays hq with hmem | hmem
      · exact hmem
      · rw [hnone] at hmem
        cases hmem

/-- Four threads on the first of two CPUs, with `curthread` among them. -/
def fourThreads : Cpus 2 Nat := ⟨fun k => if k = some 0 then [1, 2, 3, 5] else [], fun _ => 0, [], 0⟩

theorem fourThreads_queue {k : Option (Fin 2)} {t : Nat} (h : t ∈ fourThreads.lists k) : k = some 0 := by
  by_contra hne
  have hin : t ∈ if k = some 0 then [1, 2, 3, 5] else [] := h
  rw [if_neg hne] at hin
  cases hin

theorem fourThreads_sane : Sane fourThreads where
  nodup := by decide
  apart _ _ _ hk hl := (fourThreads_queue hk).trans (fourThreads_queue hl).symm
  cpu _ _ ht := (Option.some.inj (fourThreads_queue ht)).symm

theorem migration_loses_nothing_four : ∃ v : Cpus 2 Nat,
    thread_consider_migration (⟨fun _ w => w, fun _ _ => .refl⟩ : Others 2 5) fourThreads = .ok (.ok (), v) ∧
      v.lists none = [] ∧ 5 ∈ v.lists (some 0) := by
  obtain ⟨v, hrun, hnone, -, -, -, hcpu, hstays⟩ :=
    migration_loses_nothing ⟨fun _ w => w, fun _ _ => .refl⟩ fourThreads fourThreads_sane rfl rfl
  refine ⟨v, hrun, hnone, ?_⟩
  have hqueued : 5 ∈ fourThreads.lists (some 0) := by decide
  have hlast := hstays ⟨0, hqueued⟩
  rw [hcpu] at hlast
  exact hlast

end Steps
end Cpus
end Clape
