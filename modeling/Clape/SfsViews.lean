import Clape.SfsConsistency

namespace Clape
set_option autoImplicit true

namespace Sfs
namespace Volume
variable {v v' v'' : Volume}

theorem vnode?_ino (h : v.vnode? j = some n) : n.ino = j := by
  have hp := List.find?_some h
  exact eq_of_beq hp

theorem vnode?_mapVnode {f : Vnode → Vnode} (hf : ∀ n, (f n).ino = n.ino) :
    (v.mapVnode sv f).vnode? j = if j = sv then (v.vnode? j).map f else v.vnode? j := by
  have hp : ((fun n : Vnode => n.ino == j) ∘ fun n => if n.ino = sv then f n else n) =
      fun n => n.ino == j := by
    funext n
    show ((if n.ino = sv then f n else n).ino == j) = (n.ino == j)
    split
    · rw [hf]
    · rfl
  have hm : (v.mapVnode sv f).vnode? j =
      (v.vnode? j).map fun n => if n.ino = sv then f n else n := by
    show List.find? _ (List.map _ _) = _
    rw [List.find?_map, hp]
    rfl
  rw [hm]
  cases hv : v.vnode? j with
  | none =>
    split
    · rfl
    · rfl
  | some n =>
    have hn := vnode?_ino hv
    split
    · rename_i hj
      simp only [Option.map_some, hn, hj, if_true]
    · rename_i hj
      simp only [Option.map_some, hn, if_neg hj]

theorem mapVnode_inos {f : Vnode → Vnode} (hf : ∀ n, (f n).ino = n.ino) :
    (v.mapVnode sv f).vnodes.map Vnode.ino = v.vnodes.map Vnode.ino := by
  show List.map _ (List.map _ _) = _
  rw [List.map_map]
  apply List.map_congr_left
  intro n hn
  show (if n.ino = sv then f n else n).ino = n.ino
  split
  · exact hf n
  · rfl

theorem inode_vnode (h : v.vnode? j = some n) : v.inode j = n.i := by
  simp only [inode, h]

theorem inode_disk (h : ¬ v.Cached j) : v.inode j = .ofSector (v.disk j).bytes := by
  unfold Cached at h
  rw [Option.not_isSome_iff_eq_none] at h
  simp only [inode, h]

theorem Cached.vnode (h : v.Cached j) : ∃ n, v.vnode? j = some n := Option.isSome_iff_exists.1 h

theorem cached_of (h : v.vnode? j = some n) : v.Cached j := by
  unfold Cached
  rw [h]
  rfl

theorem Cached.live (h : v.Cached j) : v.Live j := .inr (.inr h)

theorem live_root : v.Live rootdirIno := .inl rfl

theorem place_file (h : v.Live j) : v.place (.file j p) = p.block j (v.inode j) (v.ids j) :=
  if_pos h

theorem place_dead (h : ¬ v.Live j) : v.place (.file j p) = none := if_neg h

/-- The place of a block of a file. -/
def placeOf (fileblock : Nat) : Option Place :=
  if h : fileblock < ndirect then some (.direct ⟨fileblock, h⟩)
  else if h : fileblock - ndirect < dbperidb then some (.mapped ⟨fileblock - ndirect, h⟩)
  else none

theorem placeOf_inj (h : placeOf a = some p) (h' : placeOf b = some p) : a = b := by
  unfold placeOf at h h'
  split at h
  · cases h
    split at h'
    · cases h'
      rfl
    · split at h' <;> cases h'
  · split at h
    · cases h
      split at h'
      · cases h'
      · split at h'
        · simp only [Option.some.injEq, Place.mapped.injEq, Fin.mk.injEq] at h'
          omega
        · cases h'
    · cases h

theorem blockOf_place (h : v.blockOf j fb ≠ 0) :
    ∃ p, placeOf fb = some p ∧ p.block j (v.inode j) (v.ids j) = some (v.blockOf j fb) := by
  unfold blockOf at h ⊢
  unfold placeOf
  split
  · rename_i hlt
    rw [dif_pos hlt] at h
    exact ⟨_, rfl, pointer_ne h⟩
  · rename_i hlt
    rw [dif_neg hlt] at h
    split
    · rename_i hlt'
      rw [dif_pos hlt'] at h
      exact ⟨_, rfl, pointer_ne h⟩
    · rename_i hlt'
      rw [dif_neg hlt'] at h
      exact absurd rfl h

theorem content_ne (h : b ≠ 0) : v.content b = (v.disk b).bytes := if_neg h

theorem content_zero : v.content 0 = zeros := rfl

/-- Two states of a volume agree on a file. -/
structure SameFile (v v' : Volume) (j : UInt32) : Prop where
  inode : v'.inode j = v.inode j
  ids : v'.ids j = v.ids j
  data : ∀ fb, v'.data j fb = v.data j fb

theorem SameFile.refl (v : Volume) (j : UInt32) : SameFile v v j := ⟨rfl, rfl, fun _ => rfl⟩

theorem SameFile.trans (h : SameFile v v' j) (h' : SameFile v' v'' j) : SameFile v v'' j :=
  ⟨h'.inode.trans h.inode, h'.ids.trans h.ids, fun fb => (h'.data fb).trans (h.data fb)⟩

theorem SameFile.blockOf (h : SameFile v v' j) : v'.blockOf j fb = v.blockOf j fb := by
  simp only [Volume.blockOf, h.inode, h.ids]

theorem SameFile.of (hi : v'.inode j = v.inode j)
    (hid : (v.inode j).indirect ≠ 0 → v'.disk (v.inode j).indirect = v.disk (v.inode j).indirect)
    (hd : ∀ fb, v.blockOf j fb ≠ 0 → v'.disk (v.blockOf j fb) = v.disk (v.blockOf j fb)) :
    SameFile v v' j := by
  have hids : v'.ids j = v.ids j := by
    unfold Volume.ids
    rw [hi]
    split
    · rfl
    · rename_i hne
      rw [hid hne]
  have hblock : ∀ fb, v'.blockOf j fb = v.blockOf j fb := by
    intro fb
    simp only [Volume.blockOf, hi, hids]
  refine ⟨hi, hids, ?_⟩
  intro fb
  unfold Volume.data Volume.content
  rw [hblock]
  split
  · rfl
  · rename_i hne
    rw [hd fb hne]

theorem SameFile.put (hl : v.Live j) (hb : ∀ p, v.place (.file j p) ≠ some b) :
    SameFile v (v.put b x) j := by
  have hne : ∀ {p : Place} {c}, p.block j (v.inode j) (v.ids j) = some c → c ≠ b := by
    intro p c hp hcb
    apply hb p
    rw [place_file hl, hp, hcb]
  apply SameFile.of
  · by_cases hc : v.Cached j
    · obtain ⟨n, hn⟩ := hc.vnode
      rw [inode_vnode hn]
      exact inode_vnode (v := v.put b x) hn
    · rw [inode_disk hc, inode_disk (v := v.put b x) hc]
      have hj : j ≠ b := hne (p := .inode) rfl
      have hsame : (v.put b x).disk j = v.disk j := Function.update_of_ne hj _ _
      rw [hsame]
  · intro h0
    exact Function.update_of_ne (hne (p := .indirect) (pointer_ne h0)) _ _
  · intro fb h0
    obtain ⟨p, -, hp⟩ := blockOf_place h0
    exact Function.update_of_ne (hne hp) _ _

/-- Write to the inode of a vnode. -/
def edit (v : Volume) (sv : UInt32) (f : Dinode → Dinode) : Volume :=
  v.mapVnode sv fun n => { n with i := f n.i, dirty := true }

theorem vnode?_edit {f : Dinode → Dinode} :
    (v.edit sv f).vnode? j =
      if j = sv then (v.vnode? j).map fun n => { n with i := f n.i, dirty := true }
      else v.vnode? j :=
  vnode?_mapVnode fun _ => rfl

theorem cached_edit {f : Dinode → Dinode} : (v.edit sv f).Cached j ↔ v.Cached j := by
  unfold Cached
  rw [vnode?_edit]
  split
  · rw [Option.isSome_map]
  · exact Iff.rfl

theorem inode_edit {f : Dinode → Dinode} (h : v.Cached sv) :
    (v.edit sv f).inode sv = f (v.inode sv) := by
  obtain ⟨n, hn⟩ := h.vnode
  rw [inode_vnode hn]
  apply inode_vnode (n := { n with i := f n.i, dirty := true })
  rw [vnode?_edit, if_pos rfl, hn]
  rfl

theorem inode_edit_ne {f : Dinode → Dinode} (h : j ≠ sv) : (v.edit sv f).inode j = v.inode j := by
  unfold inode
  rw [vnode?_edit, if_neg h]
  rfl

theorem SameFile.edit {f : Dinode → Dinode} (h : j ≠ sv) : SameFile v (v.edit sv f) j := by
  apply SameFile.of (inode_edit_ne h)
  · intro h0
    rfl
  · intro fb h0
    rfl

/-- A change to the blocks of one file, which keeps its type and its link count. The directory
keeps its size and its data. -/
structure Touch (sv : UInt32) (v v' : Volume) : Prop where
  nblocks : v'.nblocks = v.nblocks
  dblocks : v'.dblocks = v.dblocks
  nbits : v'.freemap.nbits = v.freemap.nbits
  tail : ∀ b, v.nblocks ≤ b → v'.freemap.v b = v.freemap.v b
  cached : ∀ j, v'.Cached j ↔ v.Cached j
  other : ∀ j, v.Live j → j ≠ sv → SameFile v v' j
  type : (v'.inode sv).type = (v.inode sv).type
  linkcount : (v'.inode sv).linkcount = (v.inode sv).linkcount
  root : sv = rootdirIno → (v'.inode sv).size = (v.inode sv).size ∧
    ∀ fb, v'.data sv fb = v.data sv fb
  tabled : v.Tabled → v'.Tabled

theorem slot_congr (hs : (v'.inode rootdirIno).size = (v.inode rootdirIno).size)
    (hd : ∀ fb, v'.data rootdirIno fb = v.data rootdirIno fb) (k : Nat) : v'.slot k = v.slot k := by
  have hn : v'.nentries = v.nentries := by rw [nentries, hs, nentries]
  rw [slot, slot, hn, hd]

theorem live_congr (hs : ∀ k, v'.slot k = v.slot k) (hc : v'.Cached j ↔ v.Cached j) :
    v'.Live j ↔ v.Live j := by
  simp only [Live, Named, hs, hc]

namespace Touch

theorem slot (h : Touch sv v v') (k : Nat) : v'.slot k = v.slot k := by
  by_cases hsv : rootdirIno = sv
  · subst hsv
    exact slot_congr (h.root rfl).1 (h.root rfl).2 k
  · have hr := h.other rootdirIno live_root hsv
    exact slot_congr (congrArg Dinode.size hr.inode) hr.data k

theorem live (h : Touch sv v v') (j : UInt32) : v'.Live j ↔ v.Live j := live_congr h.slot (h.cached j)

theorem refl (sv : UInt32) (v : Volume) : Touch sv v v where
  nblocks := rfl
  dblocks := rfl
  nbits := rfl
  tail _ _ := rfl
  cached _ := Iff.rfl
  other j _ _ := .refl v j
  type := rfl
  linkcount := rfl
  root _ := ⟨rfl, fun _ => rfl⟩
  tabled := id

theorem trans (h : Touch sv v v') (h' : Touch sv v' v'') : Touch sv v v'' where
  nblocks := h'.nblocks.trans h.nblocks
  dblocks := h'.dblocks.trans h.dblocks
  nbits := h'.nbits.trans h.nbits
  tail b hb := by
    rw [h'.tail b (by rw [h.nblocks]; exact hb), h.tail b hb]
  cached j := (h'.cached j).trans (h.cached j)
  other j hj hne := (h.other j hj hne).trans (h'.other j ((h.live j).2 hj) hne)
  type := h'.type.trans h.type
  linkcount := h'.linkcount.trans h.linkcount
  root hsv := by
    obtain ⟨hs, hd⟩ := h.root hsv
    obtain ⟨hs', hd'⟩ := h'.root hsv
    exact ⟨hs'.trans hs, fun fb => (hd' fb).trans (hd fb)⟩
  tabled := h'.tabled ∘ h.tabled

theorem setBit (hb : b < v.nblocks) : Touch sv v (v.setBit b x) where
  nblocks := rfl
  dblocks := rfl
  nbits := rfl
  tail c hc := by
    apply Function.update_of_ne
    intro hcb
    subst hcb
    exact absurd hb (UInt32.not_lt.2 hc)
  cached _ := Iff.rfl
  other j _ _ := ⟨rfl, rfl, fun _ => rfl⟩
  type := rfl
  linkcount := rfl
  root _ := ⟨rfl, fun _ => rfl⟩
  tabled h := ⟨h.nodup, h.refs, h.clean⟩

theorem put (hc : v.Cached sv) (hsv : b ≠ sv)
    (hb : ∀ j, v.Live j → j ≠ sv → ∀ p, v.place (.file j p) ≠ some b)
    (hroot : sv = rootdirIno → ∀ fb, (v.put b x).data sv fb = v.data sv fb) :
    Touch sv v (v.put b x) where
  nblocks := rfl
  dblocks := rfl
  nbits := rfl
  tail _ _ := rfl
  cached _ := Iff.rfl
  other j hj hne := .put hj (hb j hj hne)
  type := by
    obtain ⟨n, hn⟩ := hc.vnode
    rw [inode_vnode hn, inode_vnode (v := v.put b x) hn]
  linkcount := by
    obtain ⟨n, hn⟩ := hc.vnode
    rw [inode_vnode hn, inode_vnode (v := v.put b x) hn]
  root h := by
    obtain ⟨n, hn⟩ := hc.vnode
    rw [inode_vnode hn, inode_vnode (v := v.put b x) hn]
    exact ⟨rfl, hroot h⟩
  tabled h := by
    refine ⟨h.nodup, h.refs, ?_⟩
    intro j n hn hd
    have hjb : j ≠ b := by
      by_cases hj : j = sv
      · rw [hj]
        exact Ne.symm hsv
      · have hl : v.Live j := (cached_of (v := v) hn).live
        have hp := hb j hl hj .inode
        rw [place_file hl] at hp
        intro hjb
        exact hp (congrArg some hjb)
    have hsame : (v.put b x).disk j = v.disk j := Function.update_of_ne hjb _ _
    rw [hsame]
    exact h.clean j n hn hd

theorem edit {f : Dinode → Dinode} (hc : v.Cached sv) (ht : (f (v.inode sv)).type = (v.inode sv).type)
    (hl : (f (v.inode sv)).linkcount = (v.inode sv).linkcount)
    (hroot : sv = rootdirIno → (f (v.inode sv)).size = (v.inode sv).size ∧
      ∀ fb, (v.edit sv f).data sv fb = v.data sv fb) :
    Touch sv v (v.edit sv f) where
  nblocks := rfl
  dblocks := rfl
  nbits := rfl
  tail _ _ := rfl
  cached _ := cached_edit
  other j _ hne := .edit hne
  type := by rw [inode_edit hc, ht]
  linkcount := by rw [inode_edit hc, hl]
  root h := by
    rw [inode_edit hc]
    exact hroot h
  tabled h := by
    refine ⟨?_, ?_, ?_⟩
    · have hi : (v.edit sv f).vnodes.map Vnode.ino = v.vnodes.map Vnode.ino :=
        mapVnode_inos fun _ => rfl
      rw [hi]
      exact h.nodup
    · intro j n hn
      rw [vnode?_edit] at hn
      split at hn
      · obtain ⟨m, hm, rfl⟩ := Option.map_eq_some_iff.1 hn
        exact h.refs j m hm
      · exact h.refs j n hn
    · intro j n hn hd
      rw [vnode?_edit] at hn
      split at hn
      · obtain ⟨m, hm, rfl⟩ := Option.map_eq_some_iff.1 hn
        cases hd
      · exact h.clean j n hn hd

end Touch

end Volume

end Sfs

end Clape
