import Mathlib.Algebra.BigOperators.Group.List.Basic
import Mathlib.Algebra.GroupWithZero.Nat
import Clape.Uio

namespace Clape
set_option autoImplicit true

/-- Some of the first buffers end where the transfer has to end. -/
def Boundary : List Iovec → Nat → Prop
  | [], resid => resid = 0
  | v :: l, resid => resid = 0 ∨ v.len ≤ resid ∧ Boundary l (resid - v.len)

theorem boundary_zero (iov : List Iovec) : Boundary iov 0 := by
  cases iov with
  | nil => rfl
  | cons v l => exact .inl rfl

theorem moveLoop_empty (hn : n ≠ 0) (hr : resid ≠ 0) (hv : v.len = 0) :
    moveLoop write (v :: l) ptr n offset resid buf mem = moveLoop write l ptr n offset resid buf mem := by
  rw [moveLoop, if_neg (by omega)]
  dsimp only
  rw [if_pos (by omega)]

theorem moveLoop_whole (hr : resid ≠ 0) (hv : v.len ≠ 0) (hle : v.len ≤ n) :
    moveLoop write (v :: l) ptr n offset resid buf mem =
      if v.len = n ∨ u32Sub resid v.len = 0 then
        some (if write then writeAt buf ptr v.len (readAt mem v.base) else buf,
          ⟨⟨v.base + v.len, v.len - v.len⟩ :: l, offset + v.len, u32Sub resid v.len, write⟩,
          if write then mem else writeAt mem v.base v.len (readAt buf ptr))
      else moveLoop write l (ptr + v.len) (n - v.len) (offset + v.len) (u32Sub resid v.len)
        (if write then writeAt buf ptr v.len (readAt mem v.base) else buf)
        (if write then mem else writeAt mem v.base v.len (readAt buf ptr)) := by
  rw [moveLoop, if_neg (by omega)]
  dsimp only
  rw [Nat.min_eq_left hle, if_neg hv]

/-- A larger length makes no difference to a transfer that ends with a buffer. -/
theorem moveLoop_boundary (hb : Boundary iov resid) (hn : resid ≤ n) (hr : resid < 4294967296) :
    moveLoop write iov ptr n offset resid buf mem = moveLoop write iov ptr resid offset resid buf mem := by
  induction iov generalizing ptr n offset resid buf mem with
  | nil =>
    have h0 : resid = 0 := hb
    rw [moveLoop, moveLoop, if_pos (.inr h0), if_pos (.inr h0)]
  | cons v l ih =>
    by_cases h0 : resid = 0
    · rw [moveLoop, moveLoop, if_pos (.inr h0), if_pos (.inr h0)]
    · obtain ⟨hle, hb⟩ := hb.resolve_left h0
      have hn0 : n ≠ 0 := by omega
      by_cases hempty : v.len = 0
      · rw [moveLoop_empty hn0 h0 hempty, moveLoop_empty h0 h0 hempty]
        rw [hempty, Nat.sub_zero] at hb
        exact ih hb hn hr
      · rw [moveLoop_whole h0 hempty (show v.len ≤ n by omega), moveLoop_whole h0 hempty hle, u32Sub_of_le hle hr]
        by_cases hlast : v.len = resid
        · have hend : resid - v.len = 0 := by omega
          rw [if_pos (Or.inr hend : v.len = n ∨ resid - v.len = 0),
            if_pos (Or.inr hend : v.len = resid ∨ resid - v.len = 0)]
        · have hmore : ¬ (v.len = n ∨ resid - v.len = 0) := by omega
          have hmore' : ¬ (v.len = resid ∨ resid - v.len = 0) := by omega
          rw [if_neg hmore, if_neg hmore']
          exact ih hb (by omega) (by omega)

/-- What is left of the buffers after a part of the transfer. -/
theorem moveLoop_rest (hb : Boundary iov resid) (hn : n ≤ resid) (hr : resid < 4294967296)
    (hm : moveLoop write iov ptr n offset resid buf mem = some (buf', u, mem')) : Boundary u.iov (resid - n) := by
  induction iov generalizing ptr n offset resid buf mem with
  | nil =>
    rw [moveLoop] at hm
    split at hm
    · cases hm
      have h0 : resid = 0 := hb
      rw [h0, Nat.zero_sub]
      exact boundary_zero _
    · cases hm
  | cons v l ih =>
    by_cases hz : n = 0
    · rw [moveLoop, if_pos (.inl hz)] at hm
      cases hm
      rw [hz]
      exact hb
    · obtain ⟨hle, hb⟩ := hb.resolve_left (by omega)
      rw [moveLoop, if_neg (by omega)] at hm
      dsimp only at hm
      by_cases hempty : v.len = 0
      · rw [if_pos (by omega)] at hm
        rw [hempty, Nat.sub_zero] at hb
        exact ih hb hn hr hm
      · rw [if_neg (by omega)] at hm
        by_cases hfits : n ≤ v.len
        · rw [Nat.min_eq_right hfits, if_pos (.inl rfl)] at hm
          cases hm
          refine .inr ⟨Nat.sub_le_sub_right hle n, ?_⟩
          have hrest : resid - n - (v.len - n) = resid - v.len := by omega
          rw [hrest]
          exact hb
        · have hsub := u32Sub_of_le hle hr
          rw [Nat.min_eq_left (by omega), hsub, if_neg (by omega)] at hm
          have hrest := ih hb (by omega) (by omega) hm
          have hsum : resid - v.len - (n - v.len) = resid - n := by omega
          rw [hsum] at hrest
          exact hrest

theorem moveLoop_offset (hm : moveLoop write iov ptr n offset resid buf mem = some (buf', u, mem')) :
    offset ≤ u.offset := by
  induction iov generalizing ptr n offset resid buf mem with
  | nil =>
    rw [moveLoop] at hm
    split at hm
    · cases hm
      exact Nat.le_refl _
    · cases hm
  | cons v l ih =>
    rw [moveLoop] at hm
    dsimp only at hm
    split at hm
    · cases hm
      exact Nat.le_refl _
    · split at hm
      · exact ih hm
      · split at hm
        · cases hm
          exact Nat.le_add_right ..
        · exact Nat.le_trans (Nat.le_add_right ..) (ih hm)

/-- A buffer that goes past the end of the transfer is used past it. -/
theorem moveLoop_overshoot (hb : ¬ Boundary iov resid) (hn : resid < n) (hr : resid < 4294967296)
    (hm : moveLoop write iov ptr n offset resid buf mem = some (buf', u, mem')) : offset + resid < u.offset := by
  induction iov generalizing ptr n offset resid buf mem with
  | nil =>
    have h0 : ¬ resid = 0 := hb
    rw [moveLoop, if_neg (by omega)] at hm
    cases hm
  | cons v l ih =>
    have h0 : resid ≠ 0 := fun h => hb (.inl h)
    rw [moveLoop, if_neg (by omega)] at hm
    dsimp only at hm
    by_cases hempty : v.len = 0
    · rw [if_pos (by omega)] at hm
      refine ih ?_ hn hr hm
      intro h
      exact hb (.inr ⟨by omega, by rw [hempty, Nat.sub_zero]; exact h⟩)
    · rw [if_neg (by omega)] at hm
      by_cases hfits : v.len ≤ resid
      · have hsub := u32Sub_of_le hfits hr
        have hb' : ¬ Boundary l (resid - v.len) := fun h => hb (.inr ⟨hfits, h⟩)
        have hne : resid ≠ v.len := by
          intro h
          rw [h, Nat.sub_self] at hb'
          exact hb' (boundary_zero l)
        rw [Nat.min_eq_left (by omega), hsub, if_neg (by omega)] at hm
        have hover := ih hb' (by omega) (by omega) hm
        omega
      · -- the buffer is longer than what is left
        split at hm
        · cases hm
          show offset + resid < offset + min v.len n
          omega
        · have hmono := moveLoop_offset hm
          omega

/-- A call of `uiomove` moves the bytes that it is asked for, up to the end of the transfer. -/
def Transfers (buf : Nat → UInt8) (ptr n : Nat) (u : Uio) (mem : Nat → UInt8) : Prop :=
  ∃ iov' buf' mem', uiomove buf ptr n u mem =
      some (buf', ⟨iov', u.offset + min n u.resid, u.resid - min n u.resid, u.write⟩, mem') ∧
    addrs iov' = (addrs u.iov).drop (min n u.resid) ∧
    Moved u.write (addrs u.iov) ptr (min n u.resid) buf mem buf' mem'

/-- Calls of `uiomove` one after the other, for consecutive parts of the buffer of the kernel. -/
def uiomoves (buf : Nat → UInt8) (ptr : Nat) : List Nat → Uio → (Nat → UInt8) →
    Option ((Nat → UInt8) × Uio × (Nat → UInt8))
  | [], u, mem => some (buf, u, mem)
  | n :: ns, u, mem => do
    let (buf, u, mem) ← uiomove buf ptr n u mem
    uiomoves buf (ptr + n) ns u mem

theorem uiomove_transfers (buf : Nat → UInt8) (ptr n : Nat) {u : Uio} (mem : Nat → UInt8)
    (hr : u.resid < 4294967296) (hl : u.resid ≤ (addrs u.iov).length) (h : n ≤ u.resid ∨ Boundary u.iov u.resid) : Transfers buf ptr n u mem := by
  unfold Transfers
  by_cases hle : n ≤ u.resid
  · rw [Nat.min_eq_left hle]
    exact uiomove_spec buf ptr mem hle hr (Nat.le_trans hle hl)
  · have hge := Nat.le_of_not_le hle
    rw [Nat.min_eq_right hge]
    unfold uiomove
    rw [moveLoop_boundary (h.resolve_left hle) hge hr]
    exact uiomove_spec buf ptr mem (Nat.le_refl _) hr hl

theorem transfers_iff {u : Uio} (hr : u.resid < 4294967296) (hl : u.resid ≤ (addrs u.iov).length) :
    Transfers buf ptr n u mem ↔ n ≤ u.resid ∨ Boundary u.iov u.resid := by
  constructor
  · rintro ⟨iov', buf', mem', hm, -⟩
    by_contra h
    rw [not_or, Nat.not_le] at h
    have hover := moveLoop_overshoot h.2 h.1 hr hm
    rw [Nat.min_eq_right (Nat.le_of_lt h.1)] at hover
    exact Nat.lt_irrefl _ hover
  · exact uiomove_transfers buf ptr n mem hr hl

theorem Moved.append (hm : m ≤ l.length) (h : Moved write l ptr m buf mem buf' mem')
    (h' : Moved write (l.drop m) (ptr + m) n buf' mem' buf'' mem'') :
    Moved write l ptr (m + n) buf mem buf'' mem'' where
  put hw := by
    obtain ⟨h1, h2⟩ := h.put hw
    obtain ⟨h3, h4⟩ := h'.put hw
    refine ⟨?_, h4.trans h2⟩
    rw [h3, h1, h2, writeAt_writeAt]
    apply writeAt_congr
    intro o _
    dsimp only
    by_cases ho : o < m
    · rw [if_pos ho]
    · rw [if_neg ho, gather_drop]
      congr 1
      omega
  get hw := by
    obtain ⟨h1, h2⟩ := h.get hw
    obtain ⟨h3, h4⟩ := h'.get hw
    refine ⟨?_, h4.trans h2⟩
    rw [h3, h1, h2, List.take_add, scatter_append, List.length_take, Nat.min_eq_left hm]
    apply scatter_congr
    intro j _
    show buf (ptr + m + (0 + j)) = buf (ptr + (0 + m + j))
    congr 1
    omega

theorem Moved.of_zero (h : Moved write l ptr 0 buf mem buf' mem') : buf' = buf ∧ mem' = mem := by
  have hz : ∀ f, writeAt buf ptr 0 f = buf := by
    intro f
    funext x
    exact if_neg (by omega)
  cases write with
  | true =>
    obtain ⟨h1, h2⟩ := h.put rfl
    rw [hz] at h1
    exact ⟨h1, h2⟩
  | false =>
    obtain ⟨h1, h2⟩ := h.get rfl
    exact ⟨h2, h1⟩

/-- A sequence of calls moves the bytes that one call moves. -/
theorem uiomoves_transfers (ns : List Nat) (buf : Nat → UInt8) (ptr : Nat) (u : Uio) (mem : Nat → UInt8)
    (hr : u.resid < 4294967296) (hl : u.resid ≤ (addrs u.iov).length) (h : ns.sum ≤ u.resid ∨ Boundary u.iov u.resid) :
    ∃ iov' buf' mem', uiomoves buf ptr ns u mem =
        some (buf', ⟨iov', u.offset + min ns.sum u.resid, u.resid - min ns.sum u.resid, u.write⟩, mem') ∧
      addrs iov' = (addrs u.iov).drop (min ns.sum u.resid) ∧
      Moved u.write (addrs u.iov) ptr (min ns.sum u.resid) buf mem buf' mem' := by
  induction ns generalizing buf ptr u mem with
  | nil =>
    refine ⟨u.iov, buf, mem, ?_, ?_, ?_⟩
    · rw [List.sum_nil, Nat.zero_min]
      rfl
    · rw [List.sum_nil, Nat.zero_min, List.drop_zero]
    · rw [List.sum_nil, Nat.zero_min]
      exact .zero ..
  | cons n ns ih =>
    rw [List.sum_cons] at h ⊢
    obtain ⟨iov₁, buf₁, mem₁, hm, ha, hmoved⟩ :=
      uiomove_transfers buf ptr n mem hr hl (h.imp_left fun h => by omega)
    -- the buffers that are left for the other calls
    have hrest : ns.sum ≤ u.resid - min n u.resid ∨ Boundary iov₁ (u.resid - min n u.resid) := by
      rcases h with h | h
      · exact .inl (by omega)
      · by_cases hle : n ≤ u.resid
        · rw [Nat.min_eq_left hle] at hm ⊢
          exact .inr (moveLoop_rest h hle hr hm)
        · rw [Nat.min_eq_right (by omega), Nat.sub_self]
          exact .inr (boundary_zero _)
    have hroom : u.resid - min n u.resid ≤ (addrs iov₁).length := by
      rw [ha, List.length_drop]
      omega
    obtain ⟨iov₂, buf₂, mem₂, hms, ha₂, hmoved₂⟩ := ih buf₁ (ptr + n)
      ⟨iov₁, u.offset + min n u.resid, u.resid - min n u.resid, u.write⟩ mem₁ (by dsimp only; omega) hroom hrest
    dsimp only at hms ha₂ hmoved₂
    have hsum : min n u.resid + min ns.sum (u.resid - min n u.resid) = min (n + ns.sum) u.resid := by omega
    refine ⟨iov₂, buf₂, mem₂, ?_, ?_, ?_⟩
    · show (uiomove buf ptr n u mem).bind _ = _
      rw [hm]
      refine hms.trans ?_
      rw [Nat.add_assoc, hsum, Nat.sub_sub, hsum]
    · rw [ha₂, ha, List.drop_drop, hsum]
    · rw [← hsum]
      rw [ha] at hmoved₂
      apply hmoved.append (by omega)
      by_cases hle : n ≤ u.resid
      · rw [Nat.min_eq_left hle] at hmoved₂ ⊢
        exact hmoved₂
      · have hnone : min ns.sum (u.resid - min n u.resid) = 0 := by omega
        rw [hnone] at hmoved₂ ⊢
        obtain ⟨hb, hme⟩ := hmoved₂.of_zero
        rw [hb, hme]
        exact .zero ..

theorem Moved.unique (h : Moved write l ptr n buf mem buf₁ mem₁) (h' : Moved write l ptr n buf mem buf₂ mem₂) :
    buf₁ = buf₂ ∧ mem₁ = mem₂ := by
  cases write with
  | true =>
    obtain ⟨h1, h2⟩ := h.put rfl
    obtain ⟨h3, h4⟩ := h'.put rfl
    exact ⟨h1.trans h3.symm, h2.trans h4.symm⟩
  | false =>
    obtain ⟨h1, h2⟩ := h.get rfl
    obtain ⟨h3, h4⟩ := h'.get rfl
    exact ⟨h2.trans h4.symm, h1.trans h3.symm⟩

/-- `uiomove` stops at the end of the transfer, and calls of it add up, exactly when the lengths do not
go past that end or a buffer ends there. -/
theorem uiomove_respects_resid (ns : List Nat) (buf : Nat → UInt8) (ptr : Nat) (u : Uio) (mem : Nat → UInt8)
    (hr : u.resid < 4294967296) (hl : u.resid ≤ (addrs u.iov).length) :
    (Transfers buf ptr ns.sum u mem ∧ ∃ iov iov' buf' mem' offset resid,
      uiomoves buf ptr ns u mem = some (buf', ⟨iov, offset, resid, u.write⟩, mem') ∧
      uiomove buf ptr ns.sum u mem = some (buf', ⟨iov', offset, resid, u.write⟩, mem') ∧ addrs iov = addrs iov') ↔
    ns.sum ≤ u.resid ∨ Boundary u.iov u.resid := by
  constructor
  · intro h
    exact (transfers_iff hr hl).1 h.1
  · intro h
    have hone := uiomove_transfers buf ptr ns.sum mem hr hl h
    refine ⟨hone, ?_⟩
    obtain ⟨iov', buf₁, mem₁, hm, ha, hmoved⟩ := hone
    obtain ⟨iov, buf₂, mem₂, hms, has, hmoveds⟩ := uiomoves_transfers ns buf ptr u mem hr hl h
    obtain ⟨hb, hme⟩ := hmoved.unique hmoveds
    subst hb hme
    exact ⟨iov, iov', buf₁, mem₁, _, _, hms, hm, has.trans ha.symm⟩

/-- Three calls on two buffers, with an empty one between them. -/
theorem uiomove_respects_resid_three :
    Transfers (fun _ => 0) 0 [3, 0, 6].sum ⟨[⟨100, 4⟩, ⟨0, 0⟩, ⟨200, 6⟩], 7, 10, true⟩ (fun _ => 1) :=
  ((uiomove_respects_resid [3, 0, 6] (fun _ => 0) 0 ⟨[⟨100, 4⟩, ⟨0, 0⟩, ⟨200, 6⟩], 7, 10, true⟩ (fun _ => 1)
    (by decide) (by decide)).2 (.inl (by decide))).1

/-- A buffer that is longer than the transfer: eight bytes are moved instead of four. -/
theorem uiomove_overshoots : ∃ buf' mem', uiomove (fun _ => 1) 0 8 ⟨[⟨100, 16⟩], 0, 4, false⟩ (fun _ => 0) =
      some (buf', ⟨[⟨108, 8⟩], 8, 4294967292, false⟩, mem') ∧ mem' 107 = 1 :=
  ⟨_, _, rfl, by decide⟩

end Clape
