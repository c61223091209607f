import Clape.SfsAllocation

namespace Clape
set_option autoImplicit true

namespace Sfs
open Call
namespace Volume
variable {v w : Volume}

/-- A file has given up some blocks, and its inode has changed. -/
structure Cut (sv : UInt32) (v : Volume) (S : UInt32 → Prop) (i : Dinode) (l : List Outcome) (w : Volume) : Prop where
  touch : Touch sv v w
  disk : w.disk = v.disk
  dev : w.dev = l
  inode : w.inode sv = i
  marks : ∀ b, w.freemap.v b = true ↔ v.freemap.v b = true ∧ ¬ S b

namespace Cut

theorem start : Cut sv v (fun _ => False) (v.inode sv) v.dev v where
  touch := .refl sv v
  disk := rfl
  dev := rfl
  inode := rfl
  marks _ := (and_iff_left not_false).symm

theorem congr (h : Cut sv v S i l w) (hS : ∀ b, S' b ↔ S b) (hi : i' = i) : Cut sv v S' i' l w where
  touch := h.touch
  disk := h.disk
  dev := h.dev
  inode := h.inode.trans hi.symm
  marks b := by rw [h.marks, hS]

theorem setBit (h : Cut sv v S i l w) (hb : b < v.nblocks) :
    Cut sv v (fun c => S c ∨ c = b) i l (w.setBit b false) where
  touch := by
    apply h.touch.trans
    apply Touch.setBit
    rw [h.touch.nblocks]
    exact hb
  disk := h.disk
  dev := h.dev
  inode := h.inode
  marks c := by
    show Function.update w.freemap.v b false c = true ↔ _
    by_cases hc : c = b
    · rw [hc, Function.update_self]
      exact iff_of_false Bool.noConfusion fun hn => hn.2 (.inr rfl)
    · rw [Function.update_of_ne hc, h.marks, or_iff_left hc]

theorem edit (h : Cut sv v S i l w) (hc : v.Cached sv) (hroot : sv ≠ rootdirIno) {f : Dinode → Dinode}
    (ht : (f i).type = i.type) (hl : (f i).linkcount = i.linkcount) : Cut sv v S (f i) l (w.edit sv f) where
  touch := by
    have hw := (h.touch.cached sv).2 hc
    apply h.touch.trans
    apply Touch.edit hw
    · rw [h.inode, ht]
    · rw [h.inode, hl]
    · exact fun hr => absurd hr hroot
  disk := h.disk
  dev := h.dev
  inode := by rw [inode_edit ((h.touch.cached sv).2 hc), h.inode]
  marks := h.marks

end Cut

theorem Mapped.lt_nbits (h : v.Mapped) (hb : b < v.nblocks) : b.toNat < v.freemap.nbits := by
  rw [UInt32.lt_iff_toNat_lt] at hb
  rw [h.nbits]
  unfold freemapbits
  simp only [bitsperblock, blocksize]
  omega

end Volume

open Volume

theorem bfree_ends {v : Volume} (hm : v.freemap.v b = true) (hb : b.toNat < v.freemap.nbits) :
    Ends False (bfree b) (fun _ w => w = v.setBit b false) E v := by
  unfold bfree bitmapUnmark
  rw [ends_bind, ends_state, ends_bind, ends_require, decide_eq_true_eq, decide_eq_false_iff_not]
  refine ⟨fun _ => ?_, fun h => h hb⟩
  rw [ends_bind, ends_require, hm]
  exact ⟨fun _ => rfl, fun h => Bool.noConfusion h⟩

namespace Volume
variable {v w : Volume}

theorem Cut.marked (h : Cut sv v S i l w) (hs : v.Sane) (hb : v.Marked b) (hS : ¬ S b) :
    w.freemap.v b = true ∧ b.toNat < w.freemap.nbits := by
  refine ⟨(h.marks b).2 ⟨hb.2, hS⟩, ?_⟩
  rw [h.touch.nbits]
  exact hs.mapped.lt_nbits hb.1

end Volume

theorem Volume.Cut.bfree {v w : Volume} (h : Cut sv v S i l w) (hs : v.Sane) (hb : v.Marked b) (hS : ¬ S b) :
    Ends False (bfree b) (fun _ => Cut sv v (fun c => S c ∨ c = b) i l) E w := by
  obtain ⟨hm, hn⟩ := h.marked hs hb hS
  apply (bfree_ends hm hn).mono
  · rintro _ t rfl
    exact h.setBit hb.1
  · exact fun _ _ he => he

section Direct
variable {v w : Volume}

/-- The blocks that the loop over the direct blocks has given up. -/
def Volume.GoneDirect (v : Volume) (sv : UInt32) (n : Nat) (done : List (Fin ndirect)) (b : UInt32) : Prop :=
  b ≠ 0 ∧ ∃ k ∈ done, n ≤ k ∧ (v.inode sv).direct k = b

def Dinode.withDirect (i : Dinode) (d : Fin ndirect → UInt32) : Dinode := { i with direct := d }

def Volume.cutDirect (v : Volume) (sv : UInt32) (n : Nat) (done : List (Fin ndirect)) : Dinode :=
  (v.inode sv).withDirect fun k => if k ∈ done ∧ n ≤ k then 0 else (v.inode sv).direct k

theorem Volume.cutDirect_skip (done : List (Fin ndirect)) (h : ¬ (n ≤ k.val ∧ (v.inode sv).direct k ≠ 0)) :
    v.cutDirect sv n (done ++ [k]) = v.cutDirect sv n done ∧
      ∀ b, v.GoneDirect sv n (done ++ [k]) b ↔ v.GoneDirect sv n done b := by
  refine ⟨?_, ?_⟩
  · apply congrArg (v.inode sv).withDirect
    funext q
    by_cases hq : q = k
    · subst hq
      by_cases hn : n ≤ q.val
      · have h0 : (v.inode sv).direct q = 0 := by
          by_contra hne
          exact h ⟨hn, hne⟩
        simp [h0]
      · simp [hn]
    · simp [hq]
  · intro b
    unfold GoneDirect
    refine and_congr_right fun hb => ?_
    constructor
    · rintro ⟨q, hq, hn, heq⟩
      rw [List.mem_append, List.mem_singleton] at hq
      rcases hq with hq | rfl
      · exact ⟨q, hq, hn, heq⟩
      · exact absurd ⟨hn, by rw [heq]; exact hb⟩ h
    · rintro ⟨q, hq, hn, heq⟩
      exact ⟨q, List.mem_append_left _ hq, hn, heq⟩

theorem Volume.cutDirect_free (done : List (Fin ndirect)) (hn : n ≤ k.val) (h0 : (v.inode sv).direct k ≠ 0) :
    v.cutDirect sv n (done ++ [k]) = (v.cutDirect sv n done).setDirect k 0 ∧
      ∀ b, v.GoneDirect sv n (done ++ [k]) b ↔ v.GoneDirect sv n done b ∨ b = (v.inode sv).direct k := by
  refine ⟨?_, ?_⟩
  · apply congrArg (v.inode sv).withDirect
    funext q
    by_cases hq : q = k
    · subst hq
      simp [hn]
    · simp [hq]
      rfl
  · intro b
    unfold GoneDirect
    constructor
    · rintro ⟨hb, q, hq, hle, heq⟩
      rw [List.mem_append, List.mem_singleton] at hq
      rcases hq with hq | rfl
      · exact .inl ⟨hb, q, hq, hle, heq⟩
      · exact .inr heq.symm
    · rintro (⟨hb, q, hq, hle, heq⟩ | rfl)
      · exact ⟨hb, q, List.mem_append_left _ hq, hle, heq⟩
      · exact ⟨h0, k, List.mem_append_right _ (List.mem_singleton_self k), hn, rfl⟩

theorem Volume.Sane.direct_marked (hs : v.Sane) (hl : v.Live sv) (h0 : (v.inode sv).direct k ≠ 0) :
    v.Marked ((v.inode sv).direct k) := by
  apply hs.owned.marked_of (r := .file sv (.direct k))
  rw [place_file hl]
  exact pointer_ne h0

theorem Volume.Sane.direct_inj (hs : v.Sane) (hl : v.Live sv) (h0 : (v.inode sv).direct k ≠ 0)
    (he : (v.inode sv).direct q = (v.inode sv).direct k) : q = k := by
  have hk : v.place (.file sv (.direct k)) = some ((v.inode sv).direct k) := by
    rw [place_file hl]
    exact pointer_ne h0
  have hq : v.place (.file sv (.direct q)) = some ((v.inode sv).direct k) := by
    rw [place_file hl, ← he]
    exact pointer_ne (by rw [he]; exact h0)
  have hr := hs.owned.inj hq hk
  rw [Role.file.injEq, Place.direct.injEq] at hr
  exact hr.2

theorem Volume.Cut.truncDirect (h : Cut sv v (v.GoneDirect sv n done) (v.cutDirect sv n done) l w) (hs : v.Sane)
    (hc : v.Cached sv) (hroot : sv ≠ rootdirIno) (hk : k ∉ done) :
    Ends False (truncDirect sv n k)
      (fun _ => Cut sv v (v.GoneDirect sv n (done ++ [k])) (v.cutDirect sv n (done ++ [k])) l) E w := by
  obtain ⟨m, hm⟩ := ((h.touch.cached sv).2 hc).vnode
  have hdirect : m.i.direct k = (v.inode sv).direct k := by
    rw [← inode_vnode hm, h.inode]
    exact if_neg fun hn => hk hn.1
  unfold Sfs.truncDirect
  rw [ends_bind, ends_deref hm, ends_when, decide_eq_true_eq, decide_eq_false_iff_not, hdirect]
  constructor
  · rintro ⟨hn, h0⟩
    obtain ⟨hi, hS⟩ := cutDirect_free done hn h0
    have hnew : ¬ v.GoneDirect sv n done ((v.inode sv).direct k) := by
      rintro ⟨-, q, hq, -, heq⟩
      rw [hs.direct_inj hc.live h0 heq] at hq
      exact hk hq
    rw [ends_bind]
    apply (h.bfree hs (hs.direct_marked hc.live h0) hnew).mono
    · intro _ t ht
      rw [ends_setInode]
      exact (ht.edit hc hroot rfl rfl).congr hS hi
    · exact fun _ _ he => he
  · intro hskip
    obtain ⟨hi, hS⟩ := cutDirect_skip done hskip
    exact h.congr hS hi

theorem truncDirect_loop (hs : v.Sane) (hc : v.Cached sv) (hroot : sv ≠ rootdirIno) :
    Ends False ((List.finRange ndirect).foldlM (fun _ k => truncDirect sv n k) ())
      (fun _ => Cut sv v (v.GoneDirect sv n (List.finRange ndirect)) (v.cutDirect sv n (List.finRange ndirect)) v.dev) E v := by
  apply Ends.foldlM (P := fun done _ => Cut sv v (v.GoneDirect sv n done) (v.cutDirect sv n done) v.dev)
  · apply Cut.start.congr
    · intro b
      exact iff_of_false (fun h => List.not_mem_nil h.2.choose_spec.1) not_false
    · unfold cutDirect Dinode.withDirect
      simp
  · intro done k rest _ s hl hcut
    apply hcut.truncDirect hs hc hroot
    have hnodup := List.nodup_finRange ndirect
    rw [hl] at hnodup
    exact fun hk => (List.nodup_append.1 hnodup).2.2 k hk k (List.mem_cons_self ..) rfl

end Direct

section Indirect
variable {v w : Volume} {D : UInt32 → Prop}

/-- The entries that the loop over the indirect block has given up. -/
def Volume.GoneMapped (v : Volume) (sv : UInt32) (n : Nat) (done : List (Fin dbperidb)) (b : UInt32) : Prop :=
  b ≠ 0 ∧ ∃ k ∈ done, n < ndirect + k ∧ v.ids sv k = b

/-- The variables of the loop over the indirect block. -/
structure Volume.IdCut (v : Volume) (sv : UInt32) (n : Nat) (done : List (Fin dbperidb)) (x : IdLoop) : Prop where
  idbuf : x.idbuf = fun k => if k ∈ done ∧ n < ndirect + k then 0 else v.ids sv k
  hasnonzero : x.hasnonzero = true ↔ ∃ k ∈ done, ¬ n < ndirect + k ∧ v.ids sv k ≠ 0
  iddirty : x.iddirty = true ↔ ∃ k ∈ done, n < ndirect + k ∧ v.ids sv k ≠ 0

theorem Volume.Sane.entry_place (hl : v.Live sv) (h0 : v.ids sv k ≠ 0) :
    v.place (.file sv (.mapped k)) = some (v.ids sv k) := by
  rw [place_file hl]
  exact pointer_ne h0

theorem exists_mem_snoc {p : α → Prop} {l : List α} : (∃ k ∈ l ++ [a], p k) ↔ (∃ k ∈ l, p k) ∨ p a := by
  constructor
  · rintro ⟨k, hk, hp⟩
    rw [List.mem_append, List.mem_singleton] at hk
    rcases hk with hk | rfl
    · exact .inl ⟨k, hk, hp⟩
    · exact .inr hp
  · rintro (⟨k, hk, hp⟩ | hp)
    · exact ⟨k, List.mem_append_left _ hk, hp⟩
    · exact ⟨a, List.mem_append_right _ (List.mem_singleton_self a), hp⟩

theorem Volume.IdCut.free (h : v.IdCut sv n done x) (hk : k ∉ done) (hn : n < ndirect + k.val) (h0 : v.ids sv k ≠ 0) :
    v.IdCut sv n (done ++ [k]) ⟨Function.update x.idbuf k 0, x.hasnonzero || Function.update x.idbuf k 0 k != 0, true⟩ ∧
      ∀ b, v.GoneMapped sv n (done ++ [k]) b ↔ v.GoneMapped sv n done b ∨ b = v.ids sv k := by
  refine ⟨⟨?_, ?_, ?_⟩, ?_⟩
  · funext q
    show Function.update x.idbuf k 0 q = _
    rw [h.idbuf]
    by_cases hq : q = k
    · subst hq
      simp [hn]
    · simp [hq]
  · show (x.hasnonzero || _) = true ↔ _
    rw [Function.update_self, bne_self_eq_false, Bool.or_false, h.hasnonzero, exists_mem_snoc,
      or_iff_left fun hkeep => hkeep.1 hn]
  · exact iff_of_true rfl ⟨k, List.mem_append_right _ (List.mem_singleton_self k), hn, h0⟩
  · intro b
    unfold GoneMapped
    rw [exists_mem_snoc, and_or_left]
    apply or_congr_right
    constructor
    · exact fun hb => hb.2.2.symm
    · rintro rfl
      exact ⟨h0, hn, rfl⟩

theorem Volume.IdCut.keep (h : v.IdCut sv n done x) (hk : k ∉ done) (hskip : ¬ (n < ndirect + k.val ∧ v.ids sv k ≠ 0)) :
    v.IdCut sv n (done ++ [k]) { x with hasnonzero := x.hasnonzero || x.idbuf k != 0 } ∧
      ∀ b, v.GoneMapped sv n (done ++ [k]) b ↔ v.GoneMapped sv n done b := by
  have hentry : x.idbuf k = v.ids sv k := by
    rw [h.idbuf]
    exact if_neg fun hn => hk hn.1
  have hzero : n < ndirect + k.val → v.ids sv k = 0 := by
    intro hn
    by_contra h0
    exact hskip ⟨hn, h0⟩
  refine ⟨⟨?_, ?_, ?_⟩, ?_⟩
  · show x.idbuf = _
    rw [h.idbuf]
    funext q
    by_cases hq : q = k
    · subst hq
      by_cases hn : n < ndirect + q.val
      · simp [hzero hn]
      · simp [hn]
    · simp [hq]
  · show (x.hasnonzero || x.idbuf k != 0) = true ↔ _
    rw [Bool.or_eq_true, h.hasnonzero, exists_mem_snoc, bne_iff_ne, hentry]
    apply or_congr_right
    constructor
    · exact fun h0 => ⟨fun hn => h0 (hzero hn), h0⟩
    · exact fun hkeep => hkeep.2
  · show x.iddirty = true ↔ _
    rw [h.iddirty, exists_mem_snoc, or_iff_left hskip]
  · intro b
    unfold GoneMapped
    rw [exists_mem_snoc, and_or_left, or_iff_left]
    rintro ⟨hb, hn, heq⟩
    rw [← heq] at hb
    exact hb (hzero hn)

theorem Volume.Cut.truncIndirect (h : Cut sv v (fun b => D b ∨ v.GoneMapped sv n done b) i l w)
    (hx : v.IdCut sv n done x) (hs : v.Sane) (hc : v.Cached sv) (hk : k ∉ done)
    (hD : v.ids sv k ≠ 0 → ¬ D (v.ids sv k)) :
    Ends False (Sfs.truncIndirect n x k)
      (fun x w => v.IdCut sv n (done ++ [k]) x ∧ Cut sv v (fun b => D b ∨ v.GoneMapped sv n (done ++ [k]) b) i l w) E w := by
  have hentry : x.idbuf k = v.ids sv k := by
    rw [hx.idbuf]
    exact if_neg fun hn => hk hn.1
  show Ends False (if _ then _ else _ : Sfs IdLoop) _ _ w
  by_cases hfree : n < ndirect + k.val ∧ x.idbuf k ≠ 0
  · rw [if_pos hfree, ends_bind]
    rw [hentry] at hfree ⊢
    obtain ⟨hn, h0⟩ := hfree
    obtain ⟨hx', hS⟩ := hx.free hk hn h0
    have hplace := Sane.entry_place hc.live h0
    have hnew : ¬ (D (v.ids sv k) ∨ v.GoneMapped sv n done (v.ids sv k)) := by
      rintro (hd | ⟨-, q, hq, -, heq⟩)
      · exact hD h0 hd
      · have hq' := Sane.entry_place hc.live (by rw [heq]; exact h0)
        rw [heq] at hq'
        have hr := hs.owned.inj hq' hplace
        rw [Role.file.injEq, Place.mapped.injEq] at hr
        exact hk (hr.2 ▸ hq)
    apply (h.bfree hs (hs.owned.marked_of hplace) hnew).mono
    · intro _ t ht
      refine ⟨hx', ht.congr (fun b => ?_) rfl⟩
      rw [hS, or_assoc]
    · exact fun _ _ he => he
  · rw [if_neg hfree]
    rw [hentry] at hfree
    obtain ⟨hx', hS⟩ := hx.keep hk hfree
    refine ⟨hx', h.congr (fun b => ?_) rfl⟩
    rw [hS]

theorem Volume.Cut.truncIndirect_loop (h : Cut sv v D i l w) (hs : v.Sane) (hc : v.Cached sv)
    (hD : ∀ k, v.ids sv k ≠ 0 → ¬ D (v.ids sv k)) :
    Ends False ((List.finRange dbperidb).foldlM (Sfs.truncIndirect n) ⟨v.ids sv, false, false⟩)
      (fun x w => v.IdCut sv n (List.finRange dbperidb) x ∧
        Cut sv v (fun b => D b ∨ v.GoneMapped sv n (List.finRange dbperidb) b) i l w) E w := by
  apply Ends.foldlM (P := fun done x w => v.IdCut sv n done x ∧
    Cut sv v (fun b => D b ∨ v.GoneMapped sv n done b) i l w)
  · refine ⟨⟨?_, ?_, ?_⟩, h.congr (fun b => ?_) rfl⟩
    · simp
    · simp
    · simp
    · exact or_iff_left fun hg => List.not_mem_nil hg.2.choose_spec.1
  · rintro done k rest x s hl ⟨hx, hcut⟩
    apply hcut.truncIndirect hx hs hc _ (hD k)
    have hnodup := List.nodup_finRange dbperidb
    rw [hl] at hnodup
    exact fun hk => (List.nodup_append.1 hnodup).2.2 k hk k (List.mem_cons_self ..) rfl

end Indirect

namespace Volume
variable {v w : Volume}

/-- `sfs_itrunc` looks at the indirect block. -/
def Scans (v : Volume) (sv : UInt32) (n : Nat) : Prop :=
  n < ndirect + dbperidb - 1 ∧ (v.inode sv).indirect ≠ 0

/-- The indirect block is given up. -/
def Released (v : Volume) (sv : UInt32) (n : Nat) : Prop :=
  v.Scans sv n ∧ ∀ k : Fin dbperidb, ¬ n < ndirect + k → v.ids sv k = 0

/-- The indirect block is written back. -/
def Rewritten (v : Volume) (sv : UInt32) (n : Nat) : Prop :=
  v.Scans sv n ∧ ¬ v.Released sv n ∧ ∃ k : Fin dbperidb, n < ndirect + k ∧ v.ids sv k ≠ 0

/-- The device fails when the indirect block is written back. -/
def Lost (v : Volume) (sv : UInt32) (n : Nat) : Prop :=
  v.Rewritten sv n ∧ (v.skip (v.failures + 1)).failures ≠ 0

/-- The blocks that the file gives up. -/
def Gone (v : Volume) (sv : UInt32) (n : Nat) (b : UInt32) : Prop :=
  v.GoneDirect sv n (List.finRange ndirect) b ∨ v.Scans sv n ∧ v.GoneMapped sv n (List.finRange dbperidb) b ∨
    v.Released sv n ∧ b = (v.inode sv).indirect

/-- What `sfs_itrunc` does to the blocks of a file. -/
structure Shrunk (sv : UInt32) (n : Nat) (v w : Volume) : Prop where
  touch : Touch sv v w
  direct : ∀ k, (w.inode sv).direct k = if n ≤ k.val then 0 else (v.inode sv).direct k
  released : v.Released sv n → (w.inode sv).indirect = 0
  indirect : ¬ v.Released sv n → (w.inode sv).indirect = (v.inode sv).indirect
  ids : v.Scans sv n → ¬ v.Lost sv n → ∀ k, w.ids sv k = if n < ndirect + k.val then 0 else v.ids sv k
  same : ¬ v.Scans sv n ∨ v.Lost sv n → w.ids sv = v.ids sv
  marks : ∀ b, w.freemap.v b = true ↔ v.freemap.v b = true ∧ ¬ v.Gone sv n b
  disk : ∀ b, b ≠ (v.inode sv).indirect → w.disk b = v.disk b
  dev : v.dev = [] → w.dev = []
  read : v.Scans sv n → v.failures ≤ 10

theorem ids_same (hi : (w.inode sv).indirect = (v.inode sv).indirect) (hd : w.disk = v.disk) :
    w.ids sv = v.ids sv := by
  unfold ids
  rw [hi, hd]

theorem Touch.skip (sv : UInt32) (v : Volume) (m : Nat) : Touch sv v (v.skip m) where
  nblocks := rfl
  dblocks := rfl
  nbits := rfl
  tail _ _ := rfl
  cached _ := Iff.rfl
  other _ _ _ := ⟨rfl, rfl, fun _ => rfl⟩
  type := rfl
  linkcount := rfl
  root _ := ⟨rfl, fun _ => rfl⟩
  tabled h := ⟨h.nodup, h.refs, h.clean⟩

theorem Cut.skip (h : Cut sv v S i l w) (m : Nat) : Cut sv v S i (l.drop m) (w.skip m) where
  touch := h.touch.trans (.skip sv w m)
  disk := h.disk
  dev := congrArg (List.drop m) h.dev
  inode := h.inode
  marks := h.marks

theorem cutDirect_all (k : Fin ndirect) : (v.cutDirect sv n (List.finRange ndirect)).direct k =
    if n ≤ k.val then 0 else (v.inode sv).direct k := by
  show (if k ∈ List.finRange ndirect ∧ n ≤ k.val then 0 else _) = _
  simp only [List.mem_finRange, true_and]

theorem Sane.place_ne (hs : v.Sane) (hl : v.Live sv) {p q : Place} (hp : p.block sv (v.inode sv) (v.ids sv) = some b)
    (hq : q.block sv (v.inode sv) (v.ids sv) = some c) (hne : p ≠ q) : b ≠ c := by
  have hp' : v.place (.file sv p) = some b := by rw [place_file hl, hp]
  have hq' : v.place (.file sv q) = some c := by rw [place_file hl, hq]
  exact hs.owned.ne hp' hq' fun he => hne (Role.file.inj he).2

theorem Sane.mapped_not_direct (hs : v.Sane) (hl : v.Live sv) (h0 : v.ids sv k ≠ 0) :
    ¬ v.GoneDirect sv n done (v.ids sv k) := by
  rintro ⟨-, q, -, -, heq⟩
  have hq : (v.inode sv).direct q ≠ 0 := by rw [heq]; exact h0
  exact hs.place_ne hl (p := .direct q) (q := .mapped k) (pointer_ne hq) (pointer_ne h0) Place.noConfusion heq

theorem Sane.indirect_not_gone (hs : v.Sane) (hl : v.Live sv) (hi : (v.inode sv).indirect ≠ 0) :
    ¬ (v.GoneDirect sv n done (v.inode sv).indirect ∨ v.GoneMapped sv n done' (v.inode sv).indirect) := by
  rintro (⟨-, q, -, -, heq⟩ | ⟨-, q, -, -, heq⟩)
  · have hq : (v.inode sv).direct q ≠ 0 := by rw [heq]; exact hi
    exact hs.place_ne hl (p := .direct q) (q := .indirect) (pointer_ne hq) (pointer_ne hi) Place.noConfusion heq
  · have hq : v.ids sv q ≠ 0 := by rw [heq]; exact hi
    exact hs.place_ne hl (p := .mapped q) (q := .indirect) (pointer_ne hq) (pointer_ne hi) Place.noConfusion heq

theorem Touch.put_indirect (h : Touch sv v w) (hs : v.Sane) (hc : v.Cached sv) (hroot : sv ≠ rootdirIno)
    (hi : (v.inode sv).indirect ≠ 0) (x : Sector) : Touch sv w (w.put (v.inode sv).indirect x) := by
  have hl := hc.live
  have hplace : v.place (.file sv .indirect) = some (v.inode sv).indirect := by
    rw [place_file hl]
    exact pointer_ne hi
  apply Touch.put ((h.cached sv).2 hc)
  · exact hs.place_ne hl (p := .indirect) (q := .inode) (pointer_ne hi) rfl Place.noConfusion
  · intro j _ hj p
    rw [h.place _ fun q hq => hj (Role.file.inj hq).1]
    intro hp
    exact hj (Role.file.inj (hs.owned.inj hp hplace)).1
  · exact fun hr => absurd hr hroot

end Volume

section Itrunc
variable {v w : Volume}

theorem Volume.Cut.shrunk (h : Cut sv v (v.Gone sv n) i l w)
    (hdirect : i.direct = (v.cutDirect sv n (List.finRange ndirect)).direct)
    (hi : i.indirect = (v.inode sv).indirect) (hkept : v.Scans sv n → ∀ k : Fin dbperidb, n < ndirect + k → v.ids sv k = 0)
    (hrel : ¬ v.Released sv n) (hdev : v.dev = [] → l = []) (hread : v.Scans sv n → v.failures ≤ 10) :
    Shrunk sv n v w := by
  have hind : (w.inode sv).indirect = (v.inode sv).indirect := by rw [h.inode, hi]
  have hids : w.ids sv = v.ids sv := ids_same hind h.disk
  refine ⟨h.touch, ?_, fun hr => absurd hr hrel, fun _ => hind, ?_, fun _ => hids, h.marks, ?_, ?_, hread⟩
  · intro k
    rw [h.inode, hdirect, cutDirect_all]
  · intro hs _ k
    rw [hids]
    split
    · rename_i hn
      exact hkept hs k hn
    · rfl
  · intro b _
    rw [h.disk]
  · intro h0
    rw [h.dev, hdev h0]

theorem Volume.Cut.release (h : Cut sv v (v.Gone sv n) i l w) (hrel : v.Released sv n)
    (hdirect : i.direct = (v.cutDirect sv n (List.finRange ndirect)).direct)
    (hi : i.indirect = 0) (hdev : v.dev = [] → l = []) (hread : v.failures ≤ 10) : Shrunk sv n v w := by
  have hind : (w.inode sv).indirect = 0 := by rw [h.inode, hi]
  refine ⟨h.touch, ?_, fun _ => hind, fun hr => absurd hrel hr, ?_, ?_, h.marks, ?_, ?_, fun _ => hread⟩
  · intro k
    rw [h.inode, hdirect, cutDirect_all]
  · intro _ _ k
    rw [ids_zero hind]
    split
    · rfl
    · rename_i hn
      exact (hrel.2 k hn).symm
  · rintro (hs | hlost)
    · exact absurd hrel.1 hs
    · exact absurd hrel hlost.1.2.1
  · intro b _
    rw [h.disk]
  · intro h0
    rw [h.dev, hdev h0]

theorem Volume.disk_written (w : Volume) (b : UInt32) (x : Buf) :
    (w.written b x).disk b = if w.failures = 0 then .ofBuf x else w.disk b := by
  unfold written
  split
  · exact Function.update_self ..
  · rfl

/-- The indirect block is written back. -/
theorem Volume.Cut.rewrite (h : Cut sv v (v.Gone sv n) i (v.skip (v.failures + 1)).dev w) (hrw : v.Rewritten sv n)
    (hs : v.Sane) (hc : v.Cached sv) (hroot : sv ≠ rootdirIno)
    (hdirect : i.direct = (v.cutDirect sv n (List.finRange ndirect)).direct)
    (hi : i.indirect = (v.inode sv).indirect) (hx : v.IdCut sv n (List.finRange dbperidb) x)
    (hread : v.failures ≤ 10) : Shrunk sv n v (w.written (v.inode sv).indirect x.idbuf.toSector) := by
  have hind : (v.inode sv).indirect ≠ 0 := hrw.1.2
  have hwc := (h.touch.cached sv).2 hc
  have hinode : (w.written (v.inode sv).indirect x.idbuf.toSector).inode sv = i := by
    rw [inode_congr written_vnodes hwc, h.inode]
  have hfail : w.failures = (v.skip (v.failures + 1)).failures := by
    unfold failures
    rw [h.dev]
    rfl
  have htouch : Touch sv w (w.written (v.inode sv).indirect x.idbuf.toSector) := by
    unfold written
    split
    · apply (Touch.skip sv w 1).trans
      exact (h.touch.trans (Touch.skip sv w 1)).put_indirect hs hc hroot hind _
    · exact Touch.skip sv w 1
  have hids : (w.written (v.inode sv).indirect x.idbuf.toSector).ids sv =
      if w.failures = 0 then x.idbuf else v.ids sv := by
    rw [ids_ne (by rw [hinode, hi]; exact hind), hinode, hi, disk_written]
    split
    · rw [Idbuf.bytes_toSector, Idbuf.ofSector_toSector]
    · rw [h.disk, ids_ne hind]
  refine ⟨h.touch.trans htouch, ?_, fun hr => absurd hr hrw.2.1, fun _ => by rw [hinode, hi], ?_, ?_, ?_, ?_, ?_,
    fun _ => hread⟩
  · intro k
    rw [hinode, hdirect, cutDirect_all]
  · intro _ hkept k
    rw [hids, if_pos (by rw [hfail]; exact not_not.1 fun hf => hkept ⟨hrw, hf⟩), hx.idbuf]
    simp only [List.mem_finRange, true_and]
  · rintro (hscan | hlost)
    · exact absurd hrw.1 hscan
    · rw [hids, if_neg (by rw [hfail]; exact hlost.2)]
  · intro b
    rw [written_freemap, h.marks]
  · intro b hb
    rw [written_other hb, h.disk]
  · intro h0
    rw [written_dev, h.dev]
    show ((v.dev.drop _).drop 1) = []
    rw [h0, List.drop_nil, List.drop_nil]

/-- The part of `sfs_itrunc` for the indirect block. -/
theorem itruncIndirect_ends (h : Cut sv v (v.GoneDirect sv n (List.finRange ndirect))
      (v.cutDirect sv n (List.finRange ndirect)) v.dev w) (hs : v.Sane) (hc : v.Cached sv) (hroot : sv ≠ rootdirIno) :
    Ends False (itruncIndirect sv n) (fun _ => Shrunk sv n v) (fun _ _ => v.Scans sv n ∧ 10 < v.failures) w := by
  obtain ⟨m, hm⟩ := ((h.touch.cached sv).2 hc).vnode
  have hmi : m.i.indirect = (v.inode sv).indirect := by
    rw [← inode_vnode hm, h.inode]
    rfl
  unfold itruncIndirect
  rw [ends_bind, ends_deref hm, ends_when, decide_eq_true_eq, decide_eq_false_iff_not, hmi]
  constructor
  · intro hscan
    have hscan : v.Scans sv n := hscan
    have hind : (v.inode sv).indirect ≠ 0 := hscan.2
    have hmark := hs.indirect_marked hc hind
    have hdev : (v.inode sv).indirect < w.dblocks := by
      rw [h.touch.dblocks]
      exact UInt32.lt_of_lt_of_le hmark.1 hs.device
    have hfail : w.failures = v.failures := by
      unfold failures
      rw [h.dev]
    rw [ends_bind, ends_readblock hdev, hfail]
    refine ⟨fun hread => ?_, fun hf => ⟨hscan, hf⟩⟩
    have hdata : Idbuf.ofSector (w.disk (v.inode sv).indirect).bytes = v.ids sv := by rw [h.disk, ids_ne hind]
    rw [hdata, ends_bind]
    apply ((h.skip (v.failures + 1)).truncIndirect_loop hs hc fun k h0 => hs.mapped_not_direct hc.live h0).mono
    · rintro x t ⟨hx, hcut⟩
      have hdrop : v.dev = [] → v.dev.drop (v.failures + 1) = [] := by
        intro h0
        rw [h0, List.drop_nil]
      have hnonzero : x.hasnonzero = true ↔ ¬ v.Released sv n := by
        rw [hx.hasnonzero]
        constructor
        · rintro ⟨k, -, hn, h0⟩ hrel
          exact h0 (hrel.2 k hn)
        · intro hrel
          by_contra hnone
          apply hrel
          refine ⟨hscan, fun k hn => ?_⟩
          by_contra h0
          exact hnone ⟨k, List.mem_finRange k, hn, h0⟩
      have hgone : ¬ v.Released sv n → ∀ b, v.Gone sv n b ↔
          v.GoneDirect sv n (List.finRange ndirect) b ∨ v.GoneMapped sv n (List.finRange dbperidb) b := by
        intro hrel b
        unfold Gone
        rw [and_iff_right hscan]
        exact or_congr_right (or_iff_left fun hr => hrel hr.1)
      by_cases hrel : v.Released sv n
      · -- no entry is left
        have hflag : (!x.hasnonzero) = true := by
          rw [Bool.not_eq_true', ← Bool.not_eq_true]
          exact fun hn => hnonzero.1 hn hrel
        rw [if_pos hflag, ends_bind]
        apply (hcut.bfree hs hmark (hs.indirect_not_gone hc.live hind)).mono
        · intro _ u hu
          rw [ends_setInode]
          have hedit := hu.edit (f := fun i => { i with indirect := 0 }) hc hroot rfl rfl
          apply (hedit.congr (fun b => ?_) rfl).release hrel rfl rfl hdrop hread
          unfold Gone
          rw [and_iff_right hscan, and_iff_right hrel, or_assoc]
        · exact fun _ _ he => he
      · have hflag : ¬ (!x.hasnonzero) = true := by
          rw [Bool.not_eq_true', Bool.not_eq_false]
          exact hnonzero.2 hrel
        have hcut := hcut.congr (hgone hrel) rfl
        rw [if_neg hflag, ends_when]
        constructor
        · intro hdirty
          obtain ⟨k, -, hn, h0⟩ := hx.iddirty.1 hdirty
          rw [ends_writeblock (by rw [hcut.touch.dblocks, ← h.touch.dblocks]; exact hdev)]
          exact hcut.rewrite ⟨hscan, hrel, k, hn, h0⟩ hs hc hroot rfl rfl hx hread
        · intro hclean
          apply hcut.shrunk rfl rfl _ hrel hdrop fun _ => hread
          intro _ k hn
          by_contra h0
          rw [hx.iddirty.2 ⟨k, List.mem_finRange k, hn, h0⟩] at hclean
          cases hclean
    · exact fun _ _ he => he
  · intro hscan
    have hrel : ¬ v.Released sv n := fun hr => hscan hr.1
    apply Cut.shrunk (h.congr _ rfl) rfl rfl (fun hs => absurd hs hscan) hrel id fun hs => absurd hs hscan
    intro b
    unfold Gone
    rw [or_iff_left]
    rintro (⟨hs, -⟩ | ⟨hr, -⟩)
    · exact hscan hs
    · exact hrel hr

/-- The number of blocks that `sfs_itrunc` computes, with 32 bits. -/
def blocklen (len : Nat) : Nat := (len + blocksize - 1) / blocksize % 2 ^ 32

theorem itrunc_ends (hs : v.Sane) (hc : v.Cached sv) (hroot : sv ≠ rootdirIno) :
    Ends False (itrunc sv len) (fun _ t => Shrunk sv (blocklen len) v t ∧ (t.inode sv).size = .ofNat len)
      (fun _ _ => v.Scans sv (blocklen len) ∧ 10 < v.failures) v := by
  unfold itrunc
  rw [ends_bind]
  apply (truncDirect_loop hs hc hroot).mono
  · intro _ w hcut
    rw [ends_bind]
    apply (itruncIndirect_ends hcut hs hc hroot).mono
    · intro _ t ht
      have htc := (ht.touch.cached sv).2 hc
      have hinode := inode_edit (f := fun i => { i with size := .ofNat len }) htc
      have hids : (t.edit sv fun i => { i with size := .ofNat len }).ids sv = t.ids sv :=
        ids_same (by rw [hinode]) rfl
      rw [ends_setInode]
      refine ⟨⟨?_, ?_, ?_, ?_, ?_, ?_, ht.marks, ht.disk, ht.dev, ht.read⟩, by rw [hinode]⟩
      · exact ht.touch.trans (.edit htc rfl rfl fun hr => absurd hr hroot)
      · intro k
        rw [hinode]
        exact ht.direct k
      · intro hr
        rw [hinode, ← ht.released hr]
      · intro hr
        rw [hinode, ← ht.indirect hr]
      · rw [hids]
        exact ht.ids
      · rw [hids]
        exact ht.same
    · exact fun _ _ he => he
  · exact fun _ _ he => he

end Itrunc

end Sfs
end Clape
