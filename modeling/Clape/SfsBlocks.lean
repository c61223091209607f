import Clape.SfsViews

namespace Clape
set_option autoImplicit true

namespace Sfs
open Call
namespace Volume
variable {v v' : Volume}

namespace Touch

theorem inode_other (h : Touch sv v v') (hl : v.Live j) :
    (v'.inode j).type = (v.inode j).type ∧ (v'.inode j).linkcount = (v.inode j).linkcount := by
  by_cases hj : j = sv
  · rw [hj]
    exact ⟨h.type, h.linkcount⟩
  · rw [(h.other j hl hj).inode]
    exact ⟨rfl, rfl⟩

theorem rootSize (h : Touch sv v v') : (v'.inode rootdirIno).size = (v.inode rootdirIno).size := by
  by_cases hsv : rootdirIno = sv
  · subst hsv
    exact (h.root rfl).1
  · rw [(h.other rootdirIno live_root hsv).inode]

theorem links (h : Touch sv v v') (j : UInt32) : v'.links j = v.links j := by
  unfold Volume.links
  simp only [h.slot]

theorem sane (h : Touch sv v v') (hs : v.Sane) (hx : Owned v'.place v'.Marked) : v'.Sane where
  device := by
    rw [h.nblocks, h.dblocks]
    exact hs.device
  owned := hx
  names j k := by
    rw [h.slot, h.slot]
    exact hs.names j k
  unnamed k := by
    rw [h.slot]
    exact hs.unnamed k
  rootType := (h.inode_other live_root).1.trans hs.rootType
  rootLinks := by
    rw [(h.inode_other live_root).2]
    exact hs.rootLinks
  rootSize := by
    rw [h.rootSize]
    exact hs.rootSize
  files j hj hne := by
    rw [h.live] at hj
    exact (h.inode_other hj).1.trans (hs.files j hj hne)
  mapped := by
    refine ⟨?_, ?_, ?_⟩
    · rw [h.nbits, h.nblocks]
      exact hs.mapped.nbits
    · rw [h.nbits]
      exact hs.mapped.bound
    · intro b hb hn
      rw [h.nblocks] at hb
      rw [h.nbits] at hn
      rw [h.tail b hb]
      exact hs.mapped.tail b hb hn
  tabled := h.tabled hs.tabled

theorem consistent (h : Touch sv v v') (hc : v.Consistent) (hx : Exact v'.place v'.Marked) :
    v'.Consistent where
  toSane := h.sane hc.toSane hx.owned
  exact := hx
  linkcount j hj hne := by
    rw [h.live] at hj
    rw [(h.inode_other hj).2, h.links]
    exact hc.linkcount j hj hne

theorem place (h : Touch sv v v') (r : Role) (hr : ∀ p, r ≠ .file sv p) : v'.place r = v.place r := by
  cases r with
  | super => rfl
  | freemap k =>
    show (if k < freemapblocks v'.nblocks.toNat then _ else _) = _
    rw [h.nblocks]
    rfl
  | file j p =>
    have hj : j ≠ sv := by
      intro hj
      exact hr p (by rw [hj])
    by_cases hl : v.Live j
    · have hs := h.other j hl hj
      rw [place_file hl, place_file ((h.live j).2 hl), hs.inode, hs.ids]
    · rw [place_dead hl, place_dead fun hl' => hl ((h.live j).1 hl')]

theorem place_alloc (h : Touch sv v v') (hl : v.Live sv)
    (hp : ∀ q : Place, q.block sv (v'.inode sv) (v'.ids sv) =
      if q = p then some b else q.block sv (v.inode sv) (v.ids sv)) (r : Role) :
    v'.place r = if r = .file sv p then some b else v.place r := by
  by_cases hr : ∀ q, r ≠ .file sv q
  · rw [if_neg (hr p)]
    exact h.place r hr
  · rw [not_forall] at hr
    obtain ⟨q, hr⟩ := hr
    rw [not_not] at hr
    rw [hr, place_file ((h.live sv).2 hl), hp, place_file hl]
    simp only [Role.file.injEq, true_and]

theorem place_same (h : Touch sv v v') (hl : v.Live sv)
    (hp : ∀ p : Place, p.block sv (v'.inode sv) (v'.ids sv) = p.block sv (v.inode sv) (v.ids sv)) (r : Role) :
    v'.place r = v.place r := by
  by_cases hr : ∀ p, r ≠ .file sv p
  · exact h.place r hr
  · rw [not_forall] at hr
    obtain ⟨p, hr⟩ := hr
    rw [not_not] at hr
    rw [hr, place_file hl, place_file ((h.live sv).2 hl), hp]

theorem owned_same (h : Touch sv v v') (hx : Owned v.place v.Marked) (hl : v.Live sv)
    (hp : ∀ p : Place, p.block sv (v'.inode sv) (v'.ids sv) = p.block sv (v.inode sv) (v.ids sv))
    (hm : ∀ b, v.freemap.v b = true → v'.freemap.v b = true) : Owned v'.place v'.Marked := by
  apply hx.congr (h.place_same hl hp)
  rintro b ⟨hb, hmark⟩
  exact ⟨by rw [h.nblocks]; exact hb, hm b hmark⟩

theorem owned_alloc (h : Touch sv v v') (hx : Owned v.place v.Marked) (hl : v.Live sv)
    (hb : b < v.nblocks) (hfree : v.freemap.v b = false)
    (hp : ∀ q : Place, q.block sv (v'.inode sv) (v'.ids sv) =
      if q = p then some b else q.block sv (v.inode sv) (v.ids sv))
    (hm : ∀ c < v.nblocks, v'.freemap.v c = if c = b then true else v.freemap.v c) :
    Owned v'.place v'.Marked := by
  apply hx.alloc (r := .file sv p) (b := b) _ (h.place_alloc hl hp)
  · rintro c (rfl | ⟨hc, hmark⟩)
    · exact ⟨by rw [h.nblocks]; exact hb, by rw [hm c hb, if_pos rfl]⟩
    · refine ⟨by rw [h.nblocks]; exact hc, ?_⟩
      rw [hm c hc, hmark]
      split <;> rfl
  · intro hb'
    rw [hb'.2] at hfree
    cases hfree

end Touch

end Volume
end Sfs
end Clape
