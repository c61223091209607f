import Clape.SfsFiles
import Clape.SfsTruncation

namespace Clape
set_option autoImplicit true

namespace Sfs
open Call
namespace Volume
variable {v w : Volume}

/-- The places of a file whose blocks it gives up. -/
def GonePlace (v : Volume) (sv : UInt32) (n : Nat) : Place → Prop
  | .inode => False
  | .direct k => n ≤ k.val
  | .indirect => v.Released sv n
  | .mapped k => v.Scans sv n ∧ n < ndirect + k.val

theorem gone_iff : v.Gone sv n b ↔ ∃ p, v.GonePlace sv n p ∧ p.block sv (v.inode sv) (v.ids sv) = some b := by
  constructor
  · rintro (⟨hb, k, -, hn, heq⟩ | ⟨hs, hb, k, -, hn, heq⟩ | ⟨hr, rfl⟩)
    · exact ⟨.direct k, hn, pointer_eq_some.2 ⟨heq, hb⟩⟩
    · exact ⟨.mapped k, ⟨hs, hn⟩, pointer_eq_some.2 ⟨heq, hb⟩⟩
    · exact ⟨.indirect, hr, pointer_ne hr.1.2⟩
  · rintro ⟨p, hp, hb⟩
    cases p with
    | inode => exact hp.elim
    | direct k =>
      obtain ⟨heq, hb⟩ := pointer_eq_some.1 hb
      exact .inl ⟨hb, k, List.mem_finRange k, hp, heq⟩
    | indirect => exact .inr (.inr ⟨hp, (pointer_eq_some.1 hb).1.symm⟩)
    | mapped k =>
      obtain ⟨heq, hb⟩ := pointer_eq_some.1 hb
      exact .inr (.inl ⟨hp.1, hb, k, List.mem_finRange k, hp.2, heq⟩)

namespace Shrunk

theorem block (h : Shrunk sv n v w) (hlost : ¬ v.Lost sv n) (p : Place) :
    p.block sv (w.inode sv) (w.ids sv) = some b ↔
      p.block sv (v.inode sv) (v.ids sv) = some b ∧ ¬ v.GonePlace sv n p := by
  cases p with
  | inode => exact (and_iff_left id).symm
  | direct k =>
    show pointer ((w.inode sv).direct k) = some b ↔ pointer _ = some b ∧ ¬ n ≤ k.val
    rw [h.direct]
    split
    · rename_i hn
      exact iff_of_false (by simp) fun hp => hp.2 hn
    · rename_i hn
      exact (and_iff_left hn).symm
  | indirect =>
    show pointer (w.inode sv).indirect = some b ↔ pointer _ = some b ∧ ¬ v.Released sv n
    by_cases hr : v.Released sv n
    · rw [h.released hr]
      exact iff_of_false (by simp) fun hp => hp.2 hr
    · rw [h.indirect hr]
      exact (and_iff_left hr).symm
  | mapped k =>
    show pointer (w.ids sv k) = some b ↔ pointer _ = some b ∧ ¬ (v.Scans sv n ∧ n < ndirect + k.val)
    by_cases hs : v.Scans sv n
    · rw [h.ids hs hlost, and_iff_right hs]
      split
      · rename_i hn
        exact iff_of_false (by simp) fun hp => hp.2 hn
      · rename_i hn
        exact (and_iff_left hn).symm
    · rw [h.same (.inl hs)]
      exact (and_iff_left fun hg => hs hg.1).symm

theorem owned (h : Shrunk sv n v w) (hs : v.Sane) (hl : v.Live sv) (hlost : ¬ v.Lost sv n) :
    Owned w.place w.Marked := by
  apply hs.owned.drop (D := fun r => ∃ p, r = .file sv p ∧ v.GonePlace sv n p)
  · intro r b hr
    by_cases hsv : ∃ p, r = .file sv p
    · obtain ⟨p, rfl⟩ := hsv
      rw [place_file ((h.touch.live sv).2 hl), h.block hlost] at hr
      rw [place_file hl]
      refine ⟨hr.1, ?_⟩
      rintro ⟨q, hq, hgone⟩
      rw [(Role.file.inj hq).2] at hr
      exact hr.2 hgone
    · rw [h.touch.place r fun p hp => hsv ⟨p, hp⟩] at hr
      exact ⟨hr, fun hgone => hsv ⟨_, hgone.choose_spec.1⟩⟩
  · rintro b ⟨hb, hmark⟩ hkept
    refine ⟨by rw [h.touch.nblocks]; exact hb, (h.marks b).2 ⟨hmark, ?_⟩⟩
    rw [gone_iff]
    rintro ⟨p, hp, hblock⟩
    apply hkept (.file sv p) ⟨p, rfl, hp⟩
    rw [place_file hl, hblock]

theorem sane (h : Shrunk sv n v w) (hs : v.Sane) (hl : v.Live sv) (hlost : ¬ v.Lost sv n) : w.Sane :=
  h.touch.sane hs (h.owned hs hl hlost)

theorem entry (h : Shrunk sv n v w) (hk : ¬ n < ndirect + k.val) : w.ids sv k = v.ids sv k := by
  by_cases hsame : ¬ v.Scans sv n ∨ v.Lost sv n
  · rw [h.same hsame]
  · rw [not_or, not_not] at hsame
    rw [h.ids hsame.1 hsame.2, if_neg hk]

end Shrunk

/-- The number of blocks that a file of some length has. -/
def cutoff (len : Nat) : Nat := (len + blocksize - 1) / blocksize

/-- The file has been cut to a length. -/
structure Truncated (v : Volume) (sv : UInt32) (len : Nat) (w : Volume) : Prop where
  size : (w.inode sv).size.toNat = len
  kept : ∀ fb < cutoff len, w.blockOf sv fb = v.blockOf sv fb
  dropped : ∀ fb, cutoff len ≤ fb → w.blockOf sv fb = 0
  freed : ∀ fb, cutoff len ≤ fb → v.blockOf sv fb ≠ 0 → w.freemap.v (v.blockOf sv fb) = false
  indirect : (w.inode sv).indirect = 0 ↔ ∀ fb, ndirect ≤ fb → w.blockOf sv fb = 0
  released : (v.inode sv).indirect ≠ 0 → (w.inode sv).indirect = 0 → w.freemap.v (v.inode sv).indirect = false

/-- When `sfs_itrunc` cuts a file to a length: the length fits in 32 bits, the first block past the cut
is not one that the indirect block maps, the indirect block is not already empty when the cut is past all
of it, and the device takes the write of the indirect block. -/
structure Cuts (v : Volume) (sv : UInt32) (len : Nat) : Prop where
  size : len < 2 ^ 32
  boundary : ndirect ≤ cutoff len → v.blockOf sv (cutoff len) = 0
  empty : ndirect + dbperidb - 1 ≤ cutoff len → (v.inode sv).indirect ≠ 0 → ∃ k, v.ids sv k ≠ 0
  kept : ¬ v.Lost sv (cutoff len)

theorem blocklen_eq (h : len < 2 ^ 32) : blocklen len = cutoff len := by
  unfold blocklen cutoff
  simp only [blocksize]
  omega

theorem blockOf_cases (v : Volume) (sv : UInt32) (fb : Nat) :
    (∃ k : Fin ndirect, fb = k.val) ∨ (∃ k : Fin dbperidb, fb = ndirect + k.val) ∨
      maxblocks ≤ fb ∧ v.blockOf sv fb = 0 := by
  by_cases hd : fb < ndirect
  · exact .inl ⟨⟨fb, hd⟩, rfl⟩
  · by_cases hm : fb - ndirect < dbperidb
    · refine .inr (.inl ⟨⟨fb - ndirect, hm⟩, ?_⟩)
      show fb = ndirect + (fb - ndirect)
      omega
    · refine .inr (.inr ⟨?_, ?_⟩)
      · unfold maxblocks
        omega
      · unfold blockOf
        rw [dif_neg hd, dif_neg hm]

theorem ids_eq_zero_iff (v : Volume) (sv : UInt32) :
    (∀ fb, ndirect ≤ fb → v.blockOf sv fb = 0) ↔ ∀ k, v.ids sv k = 0 := by
  constructor
  · intro h k
    rw [← blockOf_mapped]
    exact h _ (Nat.le_add_right ..)
  · intro h fb hfb
    rcases blockOf_cases v sv fb with ⟨k, rfl⟩ | ⟨k, rfl⟩ | ⟨-, h0⟩
    · exact absurd k.isLt (Nat.not_lt.2 hfb)
    · rw [blockOf_mapped, h]
    · exact h0

namespace Shrunk

theorem blockOf (h : Shrunk sv (cutoff len) v w) (hc : v.Cuts sv len) (fb : Nat) :
    w.blockOf sv fb = if fb < cutoff len then v.blockOf sv fb else 0 := by
  rcases blockOf_cases v sv fb with ⟨k, rfl⟩ | ⟨k, rfl⟩ | ⟨hbig, h0⟩
  · rw [blockOf_direct, h.direct, blockOf_direct]
    split
    · rename_i hn
      rw [if_neg (Nat.not_lt.2 hn)]
    · rename_i hn
      rw [if_pos (Nat.not_le.1 hn)]
  · rw [blockOf_mapped, blockOf_mapped]
    by_cases hn : cutoff len < ndirect + k.val
    · rw [if_neg (by omega)]
      by_cases hs : v.Scans sv (cutoff len)
      · rw [h.ids hs hc.kept, if_pos hn]
      · have hind : (v.inode sv).indirect = 0 := by
          by_contra hind
          have hk := k.isLt
          exact hs ⟨by omega, hind⟩
        rw [h.same (.inl hs), ids_zero hind]
    · rw [h.entry hn]
      split
      · rfl
      · have heq : cutoff len = ndirect + k.val := by omega
        have hzero := hc.boundary (by omega)
        rw [heq, blockOf_mapped] at hzero
        exact hzero
  · rw [h0]
    rcases blockOf_cases w sv fb with ⟨k, rfl⟩ | ⟨k, rfl⟩ | ⟨-, hw⟩
    · exact absurd k.isLt (by unfold maxblocks at hbig; omega)
    · exact absurd k.isLt (by unfold maxblocks at hbig; omega)
    · rw [hw, ite_self]

theorem truncated (h : Shrunk sv (cutoff len) v w) (hc : v.Cuts sv len) (hsize : (w.inode sv).size = .ofNat len) :
    Truncated v sv len w where
  size := by
    rw [hsize, UInt32.toNat_ofNat']
    exact Nat.mod_eq_of_lt hc.size
  kept fb hfb := by rw [h.blockOf hc, if_pos hfb]
  dropped fb hfb := by rw [h.blockOf hc, if_neg (Nat.not_lt.2 hfb)]
  freed fb hfb h0 := by
    rw [← Bool.not_eq_true, h.marks]
    intro hm
    apply hm.2
    rcases blockOf_cases v sv fb with ⟨k, rfl⟩ | ⟨k, rfl⟩ | ⟨-, hzero⟩
    · rw [blockOf_direct] at h0 ⊢
      exact .inl ⟨h0, k, List.mem_finRange k, hfb, rfl⟩
    · have hne : cutoff len ≠ ndirect + k.val := by
        intro heq
        apply h0
        rw [← heq]
        exact hc.boundary (by omega)
      rw [blockOf_mapped] at h0 ⊢
      have hind : (v.inode sv).indirect ≠ 0 := by
        intro hz
        rw [ids_zero hz] at h0
        exact h0 rfl
      have hk := k.isLt
      exact .inr (.inl ⟨⟨by omega, hind⟩, h0, k, List.mem_finRange k, by omega, rfl⟩)
    · exact absurd hzero h0
  indirect := by
    rw [ids_eq_zero_iff]
    constructor
    · intro hind k
      rw [ids_zero hind]
    · intro hzero
      by_contra hind
      have hrel : ¬ v.Released sv (cutoff len) := fun hr => hind (h.released hr)
      rw [h.indirect hrel] at hind
      by_cases hs : v.Scans sv (cutoff len)
      · apply hrel
        refine ⟨hs, fun k hk => ?_⟩
        rw [← h.entry hk]
        exact hzero k
      · have hbig : ndirect + dbperidb - 1 ≤ cutoff len := by
          by_contra hlt
          exact hs ⟨Nat.not_le.1 hlt, hind⟩
        obtain ⟨k, hk⟩ := hc.empty hbig hind
        rw [← h.same (.inl hs)] at hk
        exact hk (hzero k)
  released hind hzero := by
    rw [← Bool.not_eq_true, h.marks]
    intro hm
    apply hm.2
    by_cases hrel : v.Released sv (cutoff len)
    · exact .inr (.inr ⟨hrel, rfl⟩)
    · rw [h.indirect hrel] at hzero
      exact absurd hzero hind

/-- What has been cut shows that the conditions hold. -/
theorem cuts (h : Shrunk sv (cutoff len) v w) (ht : Truncated v sv len w) (hlen : len < 2 ^ 32) : v.Cuts sv len where
  size := hlen
  boundary hn := by
    have hdrop := ht.dropped (cutoff len) (Nat.le_refl _)
    rcases blockOf_cases v sv (cutoff len) with ⟨k, hk⟩ | ⟨k, hk⟩ | ⟨-, h0⟩
    · exact absurd k.isLt (by omega)
    · rw [hk, blockOf_mapped, h.entry (by omega)] at hdrop
      rw [hk, blockOf_mapped, hdrop]
    · exact h0
  empty hn hind := by
    by_contra hnone
    have hs : ¬ v.Scans sv (cutoff len) := fun hs => absurd hs.1 (Nat.not_lt.2 hn)
    have hrel : ¬ v.Released sv (cutoff len) := fun hr => hs hr.1
    apply hind
    rw [← h.indirect hrel, ht.indirect, ids_eq_zero_iff, h.same (.inl hs)]
    intro k
    by_contra hk
    exact hnone ⟨k, hk⟩
  kept hlost := by
    obtain ⟨k, hk, h0⟩ := hlost.1.2.2
    have hdrop := ht.dropped (ndirect + k.val) (Nat.le_of_lt hk)
    rw [blockOf_mapped, h.same (.inr hlost)] at hdrop
    exact h0 hdrop

end Shrunk

end Volume

open Volume

/-- `sfs_itrunc` cuts the file exactly if the conditions hold, or if the indirect block cannot be read. -/
theorem truncated_iff {v : Volume} (hs : v.Sane) (hc : v.Cached sv) (hroot : sv ≠ rootdirIno) :
    (∀ w, itrunc sv len v = .ok (.ok (), w) → Truncated v sv len w) ↔
      ((v.Scans sv (blocklen len) → v.failures ≤ 10) → v.Cuts sv len) := by
  have hends : Ends False (itrunc sv len) _ _ v := itrunc_ends hs hc hroot
  constructor
  · intro h hread
    obtain ⟨r, w, hrun⟩ := hends.ok
    cases r with
    | error e =>
      obtain ⟨hscan, hfail⟩ := hends.errno hrun
      exact absurd (hread hscan) (Nat.not_le.2 hfail)
    | ok u =>
      obtain ⟨hshrunk, hsize⟩ := hends.value hrun
      have ht := h w hrun
      have hlen : len < 2 ^ 32 := by
        have hlt := (w.inode sv).size.toNat_lt
        rw [ht.size] at hlt
        exact hlt
      rw [blocklen_eq hlen] at hshrunk
      exact hshrunk.cuts ht hlen
  · intro h w hrun
    obtain ⟨hshrunk, hsize⟩ := hends.value hrun
    have hcuts := h hshrunk.read
    rw [blocklen_eq hcuts.size] at hshrunk
    exact hshrunk.truncated hcuts hsize

namespace Volume
variable {v w : Volume}

/-- The bytes of the file past a length are zero. -/
def Clean (v : Volume) (sv : UInt32) (len : Nat) : Prop :=
  ∀ x, len ≤ x → x < cutoff len * blocksize → v.byteAt sv x = 0

/-- The blocks that the file keeps have addresses that fit in 32 bits. -/
def KeptLow (v : Volume) (sv : UInt32) (len : Nat) : Prop :=
  ∀ fb < cutoff len, (v.blockOf sv fb).toNat < lowBlocks

/-- The states that writes past a length lead to, with the bytes that they have written. -/
inductive Extended (sv : UInt32) (len : Nat) (v₀ : Volume) : Volume → (Nat → Prop) → Prop where
  | cut : Extended sv len v₀ v₀ fun _ => False
  | write {v : Volume} {W : Nat → Prop} {u : Uio} {mem : Nat → UInt8} {r : Except Errno Unit} {t : IoState}
    (h : Extended sv len v₀ v W) (hu : Roomy u) (hw : u.write = true) (hlen : len ≤ u.offset)
    (hmax : u.offset + u.resid ≤ maxsize) (he : v.Room sv u) (hr : io sv ⟨v, u, mem⟩ = .ok (r, t)) :
    Extended sv len v₀ t.vol fun x => W x ∨ u.offset ≤ x ∧ x < u.offset + u.resid

/-- After any writes past a length, the bytes from there on that they have not written read as zero. -/
def Zeroed (sv : UInt32) (len : Nat) (v₀ : Volume) : Prop :=
  ∀ v W, Extended sv len v₀ v W → ∃ f : File, f.size = (v.inode sv).size.toNat ∧
    (∀ x, len ≤ x → ¬ W x → f.bytes x = 0) ∧
    ∀ u mem, Roomy u → u.write = false → u.offset + u.resid ≤ maxsize →
      ∃ t, io sv ⟨v, u, mem⟩ = .ok (.ok (), t) ∧ ReadDone v f u mem t

theorem Shrunk.holds (h : Shrunk sv (cutoff len) v w) (hv : v.Working sv) (hc : v.Cuts sv len)
    (hsize : (w.inode sv).size = .ofNat len) (hlow : v.KeptLow sv len) :
    Holds w sv ⟨len, fun x => if x < cutoff len * blocksize then v.byteAt sv x else 0⟩ where
  sane := h.sane hv.sane hv.cached.live hc.kept
  cached := (h.touch.cached sv).2 hv.cached
  works := h.dev hv.works
  size := (h.truncated hc hsize).size
  bytes x := by
    have hblock := h.blockOf hc (x / blocksize)
    have hin : x / blocksize < cutoff len ↔ x < cutoff len * blocksize := Nat.div_lt_iff_lt_mul (by decide)
    unfold byteAt data
    rw [hblock]
    by_cases hx : x < cutoff len * blocksize
    · rw [if_pos (hin.2 hx)]
      show _ = if x < cutoff len * blocksize then _ else _
      rw [if_pos hx]
      unfold content
      split
      · rfl
      · rename_i h0
        -- a block of data is not the indirect block
        obtain ⟨p, hp, hplace⟩ := blockOf_place h0
        have hne : v.blockOf sv (x / blocksize) ≠ 0 → (v.inode sv).indirect ≠ 0 →
            v.blockOf sv (x / blocksize) ≠ (v.inode sv).indirect := by
          intro _ hi
          apply hv.sane.place_ne hv.cached.live hplace (q := .indirect) (pointer_ne hi)
          rintro rfl
          exact placeOf_ne_indirect hp
        rw [h.disk]
        intro heq
        by_cases hi : (v.inode sv).indirect = 0
        · rw [hi] at heq
          exact h0 heq
        · exact hne h0 hi heq
    · rw [if_neg fun hlt => hx (hin.1 hlt)]
      show _ = if x < cutoff len * blocksize then _ else _
      rw [if_neg hx]
      rfl
  low fb := by
    rw [h.blockOf hc]
    split
    · rename_i hfb
      exact hlow fb hfb
    · decide

theorem Extended.holds (h : Extended sv len v₀ v W) (hroot : sv ≠ rootdirIno) (h₀ : Holds v₀ sv f) :
    ∃ g, Holds v sv g ∧ ∀ x, ¬ W x → g.bytes x = f.bytes x := by
  induction h with
  | cut => exact ⟨f, h₀, fun _ _ => rfl⟩
  | write _ hu hw _ hmax he hr ih =>
    obtain ⟨g, hg, hbytes⟩ := ih
    obtain ⟨t, hrun, -, hholds⟩ := Ends.success (hg.write hroot hu hw hmax he)
    rw [hr] at hrun
    cases hrun
    refine ⟨_, hholds, fun x hx => ?_⟩
    rw [not_or] at hx
    rw [← hbytes x hx.1]
    exact if_neg hx.2

theorem Shrunk.zeroed (h : Shrunk sv (cutoff len) v w) (hv : v.Working sv) (hroot : sv ≠ rootdirIno)
    (hc : v.Cuts sv len) (hsize : (w.inode sv).size = .ofNat len) (hlow : v.KeptLow sv len) (hclean : v.Clean sv len) :
    Zeroed sv len w := by
  intro u W hext
  obtain ⟨g, hg, hbytes⟩ := hext.holds hroot (h.holds hv hc hsize hlow)
  refine ⟨g, hg.size.symm, ?_, ?_⟩
  · intro x hx hW
    rw [hbytes x hW]
    show (if x < cutoff len * blocksize then _ else _) = _
    split
    · rename_i hlt
      exact hclean x hx hlt
    · rfl
  · intro r mem hr hw hmax
    exact Ends.success (hg.read hr hw hmax)

theorem lacking_mapped (h0 : v.blockOf sv fb ≠ 0) : v.lacking sv fb (fb + 1) = 0 := by
  have hnone : (Finset.Ico fb (fb + 1)).filter (fun k => v.blockOf sv k = 0) = ∅ := by
    apply Finset.filter_eq_empty_iff.2
    intro k hk
    have hk : k = fb := by
      rw [Finset.mem_Ico] at hk
      omega
    rw [hk]
    exact h0
  unfold lacking
  rw [hnone, Finset.card_empty, if_neg]
  rintro ⟨-, hn, hi⟩
  exact h0 ((ids_eq_zero_iff v sv).2 (fun k => by rw [ids_zero hi]) fb (Nat.le_of_lt_succ hn))

theorem blockOf_lt (h0 : v.blockOf sv fb ≠ 0) : fb < maxblocks := by
  rcases blockOf_cases v sv fb with ⟨k, rfl⟩ | ⟨k, rfl⟩ | ⟨-, hz⟩
  · have hk := k.isLt
    unfold maxblocks
    omega
  · have hk := k.isLt
    unfold maxblocks
    omega
  · exact absurd hz h0

/-- A byte past the cut that is not zero becomes visible when the byte after it is written. -/
theorem Shrunk.clean (h : Shrunk sv (cutoff len) v w) (hv : v.Working sv) (hroot : sv ≠ rootdirIno)
    (hc : v.Cuts sv len) (hsize : (w.inode sv).size = .ofNat len) (hlow : v.KeptLow sv len) (hzero : Zeroed sv len w) :
    ∀ x, len ≤ x → x + 1 < cutoff len * blocksize → v.byteAt sv x = 0 := by
  intro x hx hlt
  by_contra hne
  have hholds := h.holds hv hc hsize hlow
  obtain ⟨hblk, hnext, hin⟩ : x / blocksize < cutoff len ∧ (x + 1) / blocksize = x / blocksize ∧
      (x + 1 + 1 + (blocksize - 1)) / blocksize = x / blocksize + 1 := by
    unfold cutoff at *
    simp only [blocksize] at *
    omega
  have hmap : v.blockOf sv (x / blocksize) ≠ 0 := by
    intro h0
    apply hne
    unfold byteAt data
    rw [h0]
    rfl
  have hwmap : w.blockOf sv (x / blocksize) ≠ 0 := by
    rw [h.blockOf hc, if_pos hblk]
    exact hmap
  have hmax : x + 1 + 1 ≤ maxsize := by
    have hfb := blockOf_lt hmap
    unfold maxsize
    simp only [blocksize] at *
    omega
  have hroom : w.Room sv (oneByte (x + 1) true) := by
    show w.lacking sv ((x + 1) / blocksize) ((x + 1 + 1 + (blocksize - 1)) / blocksize) ≤ _
    rw [hnext, hin, lacking_mapped hwmap]
    exact Nat.zero_le _
  have hwrite : Ends False (io sv) _ (fun _ _ => False) ⟨w, oneByte (x + 1) true, fun _ => 1⟩ :=
    hholds.write hroot (oneByte_roomy _ _) rfl hmax hroom
  obtain ⟨t, hrun, -, ht⟩ := Ends.success hwrite
  have hext : Extended sv len w t.vol fun y => False ∨ x + 1 ≤ y ∧ y < x + 1 + 1 :=
    .write .cut (oneByte_roomy _ _) rfl (Nat.le_succ_of_le hx) hmax hroom hrun
  obtain ⟨g, hgsize, hg, hread⟩ := hzero _ _ hext
  have hnew : x < (t.vol.inode sv).size.toNat := by
    rw [ht.size]
    show x < if 0 < 1 then max len (x + 1 + 1) else len
    rw [if_pos Nat.one_pos]
    omega
  have hmax' : x + 1 ≤ maxsize := by omega
  obtain ⟨u, hu, hdone⟩ := hread (oneByte x false) (fun _ => 1) (oneByte_roomy _ _) rfl hmax'
  have hread' : Ends False (io sv) _ (fun _ _ => False) ⟨t.vol, oneByte x false, fun _ => 1⟩ :=
    ht.read (oneByte_roomy _ _) rfl hmax'
  obtain ⟨u', hu', hdone'⟩ := Ends.success hread'
  rw [hu] at hu'
  cases hu'
  have hbyte := byte_of_read hdone (by rw [hgsize]; exact hnew)
  have hbyte' := byte_of_read hdone' (by rw [← ht.size]; exact hnew)
  have hout : ¬ (False ∨ x + 1 ≤ x ∧ x < x + 1 + 1) := by
    rw [false_or]
    omega
  rw [hbyte, hg x hx hout] at hbyte'
  apply hne
  rw [hbyte']
  show v.byteAt sv x = if x + 1 ≤ x ∧ x < x + 1 + 1 then _ else if x < cutoff len * blocksize then v.byteAt sv x else 0
  rw [if_neg (by omega), if_pos (by omega)]

end Volume

/-- `sfs_itrunc` cuts a file exactly if the conditions of `Cuts` hold. The bytes past the cut then read as
zero after later writes if they are zero in the last block, and only if all but the last of them are. -/
theorem truncation_exact {v : Volume} (hs : v.Sane) (hc : v.Cached sv) (hroot : sv ≠ rootdirIno) (len : Nat) :
    ((∀ w, itrunc sv len v = .ok (.ok (), w) → Truncated v sv len w) ↔
      ((v.Scans sv (blocklen len) → v.failures ≤ 10) → v.Cuts sv len)) ∧
    (v.dev = [] → v.KeptLow sv len → v.Cuts sv len → ∃ w, itrunc sv len v = .ok (.ok (), w) ∧
      (v.Clean sv len → Zeroed sv len w) ∧
      (Zeroed sv len w → ∀ x, len ≤ x → x + 1 < cutoff len * blocksize → v.byteAt sv x = 0)) := by
  refine ⟨truncated_iff hs hc hroot, ?_⟩
  intro hw hlow hcuts
  have hv : v.Working sv := ⟨hs, hc, hw⟩
  have hends : Ends False (itrunc sv len) _ _ v := itrunc_ends hs hc hroot
  obtain ⟨r, w, hrun⟩ := hends.ok
  cases r with
  | error e =>
    have hfail := (hends.errno hrun).2
    rw [failures_working hw] at hfail
    exact absurd hfail (by decide)
  | ok u =>
    obtain ⟨hshrunk, hsize⟩ := hends.value hrun
    rw [blocklen_eq hcuts.size] at hshrunk
    exact ⟨w, hrun, hshrunk.zeroed hv hroot hcuts hsize hlow, hshrunk.clean hv hroot hcuts hsize hlow⟩

/-- A write that ends 100 bytes into block 16 of a file, and one of a byte in block 18. -/
def cutWrites : Uio × Uio := (⟨[⟨0, 1636⟩], 6656, 1636, true⟩, oneByte 9216 true)

/-- The writes leave a file with the blocks 13 and 14, and with 15, 16 and 18 that the indirect block
maps. -/
theorem cutWrites_holds : ∃ v f, Holds v 3 f ∧ (∀ x, 8292 ≤ x → x < 9216 → f.bytes x = 0) ∧
    v.blockOf 3 17 = 0 ∧
    ∀ fb ∈ [13, 14, 15, 16, 18], v.blockOf 3 fb ≠ 0 ∧ v.freemap.v (v.blockOf 3 fb) = true := by
  have hc := fresh_created newVolume_marks
  have hu : Roomy cutWrites.1 := ⟨by decide, by simp [cutWrites, addrs]⟩
  have hroom : newVolume.Room 3 cutWrites.1 := by decide +kernel
  have hrun : succeeded (io 3 ⟨newVolume, cutWrites.1, fun _ => 1⟩) (fun t => decide (t.vol.Room 3 cutWrites.2) &&
      succeeded (io 3 ⟨t.vol, cutWrites.2, fun _ => 1⟩) fun t => t.vol.blockOf 3 17 == 0 &&
        [13, 14, 15, 16, 18].all fun fb => t.vol.blockOf 3 fb != 0 && t.vol.freemap.v (t.vol.blockOf 3 fb)) = true := by
    decide +kernel
  obtain ⟨⟨⟩, t, hio, ht⟩ := exists_of_succeeded hrun
  obtain ⟨hroom', ht⟩ := Bool.and_eq_true_iff.1 ht
  obtain ⟨⟨⟩, u, hio', hu'⟩ := exists_of_succeeded ht
  obtain ⟨hhole, hmapped⟩ := Bool.and_eq_true_iff.1 hu'
  have hreached := Reached.write (Reached.write .created hu rfl (by decide) hroom hio) (oneByte_roomy 9216 true)
    rfl (by decide) (of_decide_eq_true hroom') hio'
  refine ⟨u.vol, _, hreached.holds hc, ?_, beq_iff_eq.1 hhole, ?_⟩
  · intro x hx hlt
    show (if 9216 ≤ x ∧ x < 9216 + 1 then _ else if 6656 ≤ x ∧ x < 6656 + 1636 then _ else (0 : UInt8)) = 0
    rw [if_neg (by omega), if_neg (by omega)]
  · intro fb hfb
    exact (Bool.and_eq_true_iff.1 (List.all_eq_true.1 hmapped fb hfb)).imp_left bne_iff_ne.1

/-- The file is cut after block 16 and after block 13: the first cut frees block 18, and the second one
all blocks from 14 on and the indirect block. -/
theorem truncation_exact_new : ∃ v, v.Sane ∧ v.Cached 3 ∧
    (∀ fb ∈ [13, 14, 15, 16, 18], v.blockOf 3 fb ≠ 0 ∧ v.freemap.v (v.blockOf 3 fb) = true) ∧
    (∃ w, itrunc 3 8292 v = .ok (.ok (), w) ∧ Truncated v 3 8292 w ∧ Zeroed 3 8292 w ∧
      w.blockOf 3 18 = 0 ∧ w.freemap.v (v.blockOf 3 18) = false ∧ (w.inode 3).indirect ≠ 0) ∧
    ∃ w, itrunc 3 7168 v = .ok (.ok (), w) ∧ Truncated v 3 7168 w ∧ w.blockOf 3 13 ≠ 0 ∧
      w.freemap.v (v.blockOf 3 14) = false ∧ w.freemap.v (v.blockOf 3 15) = false ∧
      (w.inode 3).indirect = 0 ∧ w.freemap.v (v.inode 3).indirect = false := by
  obtain ⟨v, f, hholds, hclean, hhole, hmapped⟩ := cutWrites_holds
  have hroot : (3 : UInt32) ≠ rootdirIno := by decide
  have hind : (v.inode 3).indirect ≠ 0 := by
    intro h0
    exact (hmapped 15 (by decide)).1 ((ids_eq_zero_iff v 3).2 (fun k => by rw [ids_zero h0]) 15 (by decide))
  have hlost : ∀ n, ¬ v.Lost 3 n := by
    intro n hl
    rw [Volume.Lost, skip_working hholds.works] at hl
    exact hl.2 (failures_working hholds.works)
  have hcuts : v.Cuts 3 8292 := ⟨by decide, fun _ => hhole, fun hn => absurd hn (by decide), hlost _⟩
  have hcuts' : v.Cuts 3 7168 :=
    ⟨by decide, fun hn => absurd hn (by decide), fun hn => absurd hn (by decide), hlost _⟩
  obtain ⟨hexact, hworks⟩ := truncation_exact hholds.sane hholds.cached hroot 8292
  obtain ⟨hexact', hworks'⟩ := truncation_exact hholds.sane hholds.cached hroot 7168
  obtain ⟨w, hw, hzero, -⟩ := hworks hholds.works (fun fb _ => hholds.low fb) hcuts
  obtain ⟨w', hw', -⟩ := hworks' hholds.works (fun fb _ => hholds.low fb) hcuts'
  have ht := hexact.2 (fun _ => hcuts) w hw
  have ht' := hexact'.2 (fun _ => hcuts') w' hw'
  have hzeroed : Zeroed 3 8292 w := by
    apply hzero
    intro x hx hlt
    rw [hholds.bytes x]
    exact hclean x hx (Nat.lt_trans hlt (by decide))
  have hkept : (w.inode 3).indirect ≠ 0 := by
    intro h0
    apply (hmapped 15 (by decide)).1
    rw [← ht.kept 15 (by decide)]
    exact ht.indirect.1 h0 15 (by decide)
  have hdirect : w'.blockOf 3 13 ≠ 0 := by
    rw [ht'.kept 13 (by decide)]
    exact (hmapped 13 (by decide)).1
  have hgone : (w'.inode 3).indirect = 0 := ht'.indirect.2 fun fb hfb => ht'.dropped fb (Nat.le_of_succ_le hfb)
  exact ⟨v, hholds.sane, hholds.cached, hmapped, ⟨w, hw, ht, hzeroed, ht.dropped 18 (by decide),
    ht.freed 18 (by decide) (hmapped 18 (by decide)).1, hkept⟩, w', hw', ht', hdirect,
    ht'.freed 14 (by decide) (hmapped 14 (by decide)).1, ht'.freed 15 (by decide) (hmapped 15 (by decide)).1,
    hgone, ht'.released hind hgone⟩

/-- A file whose block 15 is the first one that its indirect block maps. -/
def boundaryVolume : Volume := { newVolume with
  freemap := ⟨freemapbits 16, fun b => b ≤ 5 || 16 ≤ b⟩
  vnodes := [⟨3, { emptyFile with size := 8192, indirect := 4 }, true, 1⟩]
  disk := fun b => if b = 4 then .ofBuf (Idbuf.toSector fun k => if k = 0 then 5 else 0) else newVolume.disk b }

/-- Block 15 is past the end of a file of 15 blocks, and stays mapped. -/
theorem truncation_keeps_block : ∃ w, itrunc 3 7680 boundaryVolume = .ok (.ok (), w) ∧ ¬ Truncated boundaryVolume 3 7680 w := by
  have hrun : succeeded (itrunc 3 7680 boundaryVolume) (fun w => w.blockOf 3 15 == 5) = true := by decide +kernel
  obtain ⟨u, w, hio, hw⟩ := exists_of_succeeded hrun
  refine ⟨w, hio, ?_⟩
  intro ht
  have hdrop := ht.dropped 15 (by decide)
  rw [beq_iff_eq.1 hw] at hdrop
  cases hdrop

end Sfs
end Clape
