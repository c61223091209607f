import Mathlib.Data.List.Basic
import Mathlib.Logic.Function.Basic
import Clape.ByteStore
import Clape.Machine

namespace Clape
set_option autoImplicit true

/-- `struct iovec`. -/
structure Iovec where
  base : Nat
  len : Nat
  deriving DecidableEq, Repr

/-- `struct uio`, for buffers that can be accessed. -/
structure Uio where
  iov : List Iovec
  offset : Nat
  resid : Nat
  write : Bool
  deriving DecidableEq, Repr

/-- The addresses of the bytes that the buffers still take or give, in order. -/
def addrs (iov : List Iovec) : List Nat := iov.flatMap fun v => (List.range v.len).map fun o => v.base + o

/-- The bytes `f k`, `f (k + 1)` and so on are stored at the addresses, one after the other. -/
def scatter (f : Nat → UInt8) : Nat → List Nat → (Nat → UInt8) → Nat → UInt8
  | _, [], mem => mem
  | k, a :: l, mem => scatter f (k + 1) l (Function.update mem a (f k))

/-- The bytes at the addresses. -/
def gather (mem : Nat → UInt8) (l : List Nat) (k : Nat) : UInt8 := mem (l.getD k 0)

/-- The loop of `uiomove`, over the buffers that are left. The buffer of the kernel starts at `ptr`;
there is no result when the loop runs out of buffers. -/
def moveLoop (write : Bool) : List Iovec → (ptr n offset resid : Nat) → (buf mem : Nat → UInt8) →
    Option ((Nat → UInt8) × Uio × (Nat → UInt8))
  | [], _, n, offset, resid, buf, mem =>
    if n = 0 ∨ resid = 0 then some (buf, ⟨[], offset, resid, write⟩, mem) else none
  | v :: l, ptr, n, offset, resid, buf, mem =>
    if n = 0 ∨ resid = 0 then some (buf, ⟨v :: l, offset, resid, write⟩, mem)
    else
      let size := min v.len n
      if size = 0 then moveLoop write l ptr n offset resid buf mem
      else
        let buf' := if write then writeAt buf ptr size (readAt mem v.base) else buf
        let mem' := if write then mem else writeAt mem v.base size (readAt buf ptr)
        let resid := u32Sub resid size
        if size = n ∨ resid = 0 then
          some (buf', ⟨⟨v.base + size, v.len - size⟩ :: l, offset + size, resid, write⟩, mem')
        else moveLoop write l (ptr + size) (n - size) (offset + size) resid buf' mem'

def uiomove (buf : Nat → UInt8) (ptr n : Nat) (u : Uio) (mem : Nat → UInt8) :
    Option ((Nat → UInt8) × Uio × (Nat → UInt8)) :=
  moveLoop u.write u.iov ptr n u.offset u.resid buf mem

/-- `uiomovezeros`, 16 bytes at a time. -/
def uiomovezeros (n : Nat) (u : Uio) (mem : Nat → UInt8) : Option (Uio × (Nat → UInt8)) :=
  (List.range ((n + 15) / 16)).foldlM (fun x i => do
    let (_, u, mem) ← uiomove (fun _ => 0) 0 (min 16 (n - 16 * i)) x.1 x.2
    return (u, mem)) (u, mem)

theorem addrs_cons (v : Iovec) (l : List Iovec) :
    addrs (v :: l) = ((List.range v.len).map fun o => v.base + o) ++ addrs l := rfl

theorem scatter_append (f : Nat → UInt8) (k : Nat) (l m : List Nat) (mem : Nat → UInt8) :
    scatter f k (l ++ m) mem = scatter f (k + l.length) m (scatter f k l mem) := by
  induction l generalizing k mem with
  | nil => rfl
  | cons a l ih =>
    rw [List.cons_append, scatter, scatter, ih, List.length_cons]
    congr 1
    omega

theorem scatter_congr {f g : Nat → UInt8} (h : ∀ j < l.length, f (k + j) = g (k' + j)) (mem : Nat → UInt8) :
    scatter f k l mem = scatter g k' l mem := by
  induction l generalizing k k' mem with
  | nil => rfl
  | cons a l ih =>
    have h0 : f k = g k' := h 0 (Nat.succ_pos _)
    rw [scatter, scatter, h0]
    apply ih
    intro j hj
    have hj' := h (j + 1) (Nat.succ_lt_succ hj)
    rw [Nat.add_right_comm, Nat.add_right_comm k', Nat.add_assoc, Nat.add_assoc]
    exact hj'

theorem scatter_range (f : Nat → UInt8) (base n : Nat) (mem : Nat → UInt8) :
    scatter f 0 ((List.range n).map fun o => base + o) mem = writeAt mem base n f := by
  induction n with
  | zero =>
    funext x
    exact (if_neg (by omega)).symm
  | succ n ih =>
    rw [List.range_succ, List.map_append, scatter_append, ih, List.length_map, List.length_range,
      Nat.zero_add]
    funext x
    show Function.update (writeAt mem base n f) (base + n) (f n) x = _
    by_cases hx : x = base + n
    · subst hx
      rw [Function.update_self, writeAt, if_pos (by omega), Nat.add_sub_cancel_left]
    · rw [Function.update_of_ne hx, writeAt, writeAt]
      by_cases hin : base ≤ x ∧ x < base + n
      · rw [if_pos hin, if_pos (by omega)]
      · rw [if_neg hin, if_neg (by omega)]

theorem drop_range (k n : Nat) : (List.range n).drop k = (List.range (n - k)).map fun o => k + o := by
  apply List.ext_getElem
  · simp
  · intro i h1 h2
    simp

/-- What `uiomove` has done to the buffer of the kernel and to the memory. -/
structure Moved (write : Bool) (l : List Nat) (ptr n : Nat) (buf mem buf' mem' : Nat → UInt8) : Prop where
  put : write = true → buf' = writeAt buf ptr n (gather mem l) ∧ mem' = mem
  get : write = false → mem' = scatter (readAt buf ptr) 0 (l.take n) mem ∧ buf' = buf

theorem Moved.zero (write : Bool) (l : List Nat) (ptr : Nat) (buf mem : Nat → UInt8) :
    Moved write l ptr 0 buf mem buf mem where
  put _ := by
    refine ⟨?_, rfl⟩
    funext x
    exact (if_neg (by omega)).symm
  get _ := ⟨rfl, rfl⟩

theorem gather_range (h : o < n) : gather mem (((List.range n).map fun o => base + o) ++ l) o = mem (base + o) := by
  unfold gather
  rw [List.getD_eq_getElem?_getD, List.getElem?_append_left (by simpa using h), List.getElem?_map,
    List.getElem?_range h]
  rfl

theorem gather_append (h : k.length ≤ o) : gather mem (k ++ l) o = gather mem l (o - k.length) := by
  unfold gather
  rw [List.getD_eq_getElem?_getD, List.getD_eq_getElem?_getD, List.getElem?_append_right h]

theorem gather_drop (mem : Nat → UInt8) (l : List Nat) (m o : Nat) :
    gather mem (l.drop m) o = gather mem l (m + o) := by
  unfold gather
  rw [List.getD_eq_getElem?_getD, List.getElem?_drop, List.getD_eq_getElem?_getD]

/-- `uiomove` of no more bytes than are left moves them all. -/
theorem moveLoop_spec (hn : n ≤ resid) (hr : resid < 4294967296) (hl : n ≤ (addrs iov).length) :
    ∃ iov' buf' mem', moveLoop write iov ptr n offset resid buf mem =
        some (buf', ⟨iov', offset + n, resid - n, write⟩, mem') ∧
      addrs iov' = (addrs iov).drop n ∧ Moved write (addrs iov) ptr n buf mem buf' mem' := by
  induction iov generalizing ptr n offset resid buf mem with
  | nil =>
    have hz : n = 0 := Nat.le_zero.1 hl
    subst hz
    refine ⟨[], buf, mem, ?_, rfl, .zero ..⟩
    rw [moveLoop, if_pos (.inl rfl)]
    rfl
  | cons v l ih =>
    have hlen : (addrs (v :: l)).length = v.len + (addrs l).length := by
      rw [addrs_cons, List.length_append, List.length_map, List.length_range]
    by_cases hz : n = 0
    · subst hz
      refine ⟨v :: l, buf, mem, ?_, rfl, .zero ..⟩
      rw [moveLoop, if_pos (.inl rfl)]
      rfl
    · have hsub : ∀ size ≤ n, u32Sub resid size = resid - size := by
        intro size hs
        unfold u32Sub
        omega
      rw [moveLoop, if_neg (by omega)]
      dsimp only
      by_cases hempty : v.len = 0
      · -- an empty buffer is passed over
        rw [if_pos (by omega)]
        have haddr : addrs (v :: l) = addrs l := by
          rw [addrs_cons, hempty]
          rfl
        rw [haddr]
        exact ih hn hr (by omega)
      · rw [if_neg (by omega)]
        by_cases hfits : n ≤ v.len
        · -- the buffer takes the rest
          rw [Nat.min_eq_right hfits, if_pos (.inl rfl), hsub n (Nat.le_refl n)]
          refine ⟨_, _, _, rfl, ?_, ?_⟩
          · rw [addrs_cons, addrs_cons, List.drop_append_of_le_length (by simpa using hfits), ← List.map_drop,
              drop_range, List.map_map]
            congr 2
            funext o
            exact Nat.add_assoc ..
          · constructor
            · intro hw
              rw [if_pos hw, if_pos hw]
              refine ⟨writeAt_congr ?_, rfl⟩
              intro o ho
              rw [addrs_cons, gather_range (by omega)]
              rfl
            · intro hw
              rw [hw]
              refine ⟨?_, rfl⟩
              rw [addrs_cons, List.take_append_of_le_length (by simpa using hfits), ← List.map_take, List.take_range,
                Nat.min_eq_left hfits, scatter_range]
              rfl
        · -- the buffer is used up
          have hle : v.len ≤ n := by omega
          rw [Nat.min_eq_left hle, hsub v.len hle, if_neg (by omega)]
          obtain ⟨iov', buf', mem', hm, ha, hmoved⟩ := ih (Nat.sub_le_sub_right hn v.len) (by omega) (by omega)
          refine ⟨iov', buf', mem', ?_, ?_, ?_⟩
          · rw [hm]
            congr 4
            · omega
            · omega
          · have hused : ((List.range v.len).map fun o => v.base + o).drop n = [] :=
              List.drop_eq_nil_of_le (by simpa using hle)
            rw [ha, addrs_cons, List.drop_append, List.length_map, List.length_range, hused, List.nil_append]
          · constructor
            · intro hw
              obtain ⟨h1, h2⟩ := hmoved.put hw
              rw [if_pos hw] at h1 h2
              refine ⟨?_, h2⟩
              rw [h1, if_pos hw, writeAt_writeAt, Nat.add_sub_cancel' hle]
              apply writeAt_congr
              intro o ho
              dsimp only
              rw [addrs_cons]
              by_cases hlt : o < v.len
              · rw [if_pos hlt, gather_range hlt]
                rfl
              · rw [if_neg hlt, gather_append (by simpa using hlt), List.length_map, List.length_range]
            · intro hw
              obtain ⟨h1, h2⟩ := hmoved.get hw
              rw [hw] at h1 h2
              refine ⟨?_, h2⟩
              have hall : ((List.range v.len).map fun o => v.base + o).take n =
                  (List.range v.len).map fun o => v.base + o := List.take_of_length_le (by simpa using hle)
              rw [h1, addrs_cons, List.take_append, hall, List.length_map, List.length_range, scatter_append,
                scatter_range, List.length_map, List.length_range]
              apply scatter_congr
              intro j _
              show buf (ptr + v.len + (0 + j)) = buf (ptr + (0 + v.len + j))
              congr 1
              omega

theorem uiomove_spec (buf : Nat → UInt8) (ptr : Nat) (mem : Nat → UInt8) {u : Uio} (hn : n ≤ u.resid)
    (hr : u.resid < 4294967296) (hl : n ≤ (addrs u.iov).length) :
    ∃ iov' buf' mem', uiomove buf ptr n u mem =
        some (buf', ⟨iov', u.offset + n, u.resid - n, u.write⟩, mem') ∧
      addrs iov' = (addrs u.iov).drop n ∧ Moved u.write (addrs u.iov) ptr n buf mem buf' mem' :=
  moveLoop_spec hn hr hl

/-- `uiomovezeros` of no more bytes than are left. -/
theorem uiomovezeros_spec (mem : Nat → UInt8) {u : Uio} (hn : n ≤ u.resid) (hr : u.resid < 4294967296)
    (hl : n ≤ (addrs u.iov).length) (hw : u.write = false) :
    ∃ iov', uiomovezeros n u mem =
        some (⟨iov', u.offset + n, u.resid - n, false⟩, scatter (fun _ => 0) 0 ((addrs u.iov).take n) mem) ∧
      addrs iov' = (addrs u.iov).drop n := by
  -- after `j` turns
  suffices hj : ∀ j, j ≤ (n + 15) / 16 → ∃ iov', (List.range j).foldlM (fun x i => do
      let (_, u, mem) ← uiomove (fun _ => 0) 0 (min 16 (n - 16 * i)) x.1 x.2
      return (u, mem)) (u, mem) =
        some (⟨iov', u.offset + min n (16 * j), u.resid - min n (16 * j), false⟩,
          scatter (fun _ => 0) 0 ((addrs u.iov).take (min n (16 * j))) mem) ∧
      addrs iov' = (addrs u.iov).drop (min n (16 * j)) by
    obtain ⟨iov', hf, ha⟩ := hj _ (Nat.le_refl _)
    have hall : min n (16 * ((n + 15) / 16)) = n := by omega
    rw [hall] at hf ha
    exact ⟨iov', hf, ha⟩
  intro j hj
  induction j with
  | zero =>
    refine ⟨u.iov, ?_, ?_⟩
    · rw [Nat.mul_zero, Nat.min_zero, ← hw]
      rfl
    · rw [Nat.mul_zero, Nat.min_zero]
      rfl
  | succ j ih =>
    obtain ⟨iov', hf, ha⟩ := ih (by omega)
    have hmin : min n (16 * j) = 16 * j := by omega
    rw [hmin] at hf ha
    have hnext : 16 * j + min 16 (n - 16 * j) = min n (16 * (j + 1)) := by omega
    have hleft : min 16 (n - 16 * j) ≤ u.resid - 16 * j := by omega
    have hroom : min 16 (n - 16 * j) ≤ (addrs iov').length := by
      rw [ha, List.length_drop]
      omega
    obtain ⟨iov'', buf', mem', hm, ha', hmoved⟩ := uiomove_spec (fun _ => 0) 0
      (scatter (fun _ => 0) 0 ((addrs u.iov).take (16 * j)) mem)
      (u := ⟨iov', u.offset + 16 * j, u.resid - 16 * j, false⟩) hleft (Nat.lt_of_le_of_lt (Nat.sub_le ..) hr) hroom
    refine ⟨iov'', ?_, ?_⟩
    · have hmem : mem' = scatter (fun _ => 0) 0 ((addrs u.iov).take (min n (16 * (j + 1)))) mem := by
        rw [(hmoved.get rfl).1, ha, ← hnext, List.take_add, scatter_append]
        apply scatter_congr
        intro _ _
        rfl
      rw [List.range_succ, List.foldlM_append, hf, Option.bind_eq_bind, Option.bind_some, List.foldlM_cons, hm,
        hmem, ← hnext, Nat.add_assoc, Nat.sub_sub]
      rfl
    · rw [ha', ha, List.drop_drop, hnext]

end Clape
