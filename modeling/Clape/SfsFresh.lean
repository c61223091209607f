import Clape.SfsViews

namespace Clape
set_option autoImplicit true

namespace Sfs
namespace Volume

def emptyDirectory : Dinode := { Dinode.empty with type := typeDir, linkcount := 1 }

def emptyFile : Dinode := { Dinode.empty with type := typeFile }

/-- A volume with an empty directory, and with an empty file that has no name. -/
def fresh (nblocks : UInt32) (marks : UInt32 → Bool) (sv : UInt32) : Volume where
  nblocks := nblocks
  freemap := ⟨freemapbits nblocks.toNat, marks⟩
  vnodes := [⟨sv, emptyFile, true, 1⟩]
  disk b := .ofBuf (if b = rootdirIno then emptyDirectory.toSector else zeros)
  dblocks := nblocks
  dev := []

/-- The blocks up to the inode of the file are marked, and so is what is past the end of the volume. -/
structure FreshMarks (nblocks : UInt32) (marks : UInt32 → Bool) (sv : UInt32) : Prop where
  volume : sv < nblocks
  metadata : freemapStart + freemapblocks nblocks.toNat ≤ sv.toNat
  used : ∀ b, b ≤ sv → marks b = true
  bound : freemapbits nblocks.toNat < 2 ^ 32
  tail : ∀ b : UInt32, nblocks ≤ b → marks b = true

theorem Place.block_bare {p : Place} (hd : ∀ k, i.direct k = 0) (hi : i.indirect = 0)
    (h : p.block ino i (fun _ => 0) = some b) : p = .inode ∧ b = ino := by
  cases p with
  | inode =>
    cases h
    exact ⟨rfl, rfl⟩
  | direct k =>
    have h : pointer (i.direct k) = some b := h
    rw [hd] at h
    cases h
  | indirect =>
    have h : pointer i.indirect = some b := h
    rw [hi] at h
    cases h
  | mapped k => cases h

section Fresh
variable {nblocks : UInt32} {marks : UInt32 → Bool} {sv : UInt32}

theorem fresh_vnode : (fresh nblocks marks sv).vnode? sv = some ⟨sv, emptyFile, true, 1⟩ := by
  unfold vnode?
  apply List.find?_cons_of_pos
  exact beq_self_eq_true sv

theorem fresh_cached_iff : (fresh nblocks marks sv).Cached j ↔ j = sv := by
  constructor
  · intro h
    obtain ⟨n, hn⟩ := h.vnode
    have hmem := List.mem_of_find?_eq_some hn
    have hn := vnode?_ino hn
    rw [List.mem_singleton.1 hmem] at hn
    exact hn.symm
  · rintro rfl
    exact cached_of fresh_vnode

theorem fresh_inode : (fresh nblocks marks sv).inode sv = emptyFile := inode_vnode fresh_vnode

theorem fresh_root (hroot : sv ≠ rootdirIno) : (fresh nblocks marks sv).inode rootdirIno = emptyDirectory := by
  rw [inode_disk fun h => hroot (fresh_cached_iff.1 h).symm]
  show Dinode.ofSector (Sector.ofBuf (if rootdirIno = rootdirIno then _ else _)).bytes = _
  rw [if_pos rfl, Dinode.bytes_toSector, Dinode.ofSector_toSector]

theorem fresh_slot (hroot : sv ≠ rootdirIno) (k : Nat) : (fresh nblocks marks sv).slot k = .empty := by
  have hnone : (fresh nblocks marks sv).nentries = 0 := by
    unfold nentries
    rw [fresh_root hroot]
    rfl
  unfold slot
  rw [hnone, if_neg (Nat.not_lt_zero k)]

theorem fresh_live (hroot : sv ≠ rootdirIno) (h : (fresh nblocks marks sv).Live j) : j = rootdirIno ∨ j = sv := by
  rcases h with h | ⟨hne, k, -, hk⟩ | h
  · exact .inl h
  · rw [fresh_slot hroot] at hk
    exact absurd hk.symm hne
  · exact .inr (fresh_cached_iff.1 h)

theorem fresh_bare (hroot : sv ≠ rootdirIno) (h : (fresh nblocks marks sv).Live j) :
    (∀ k, ((fresh nblocks marks sv).inode j).direct k = 0) ∧ ((fresh nblocks marks sv).inode j).indirect = 0 := by
  rcases fresh_live hroot h with rfl | rfl
  · rw [fresh_root hroot]
    exact ⟨fun _ => rfl, rfl⟩
  · rw [fresh_inode]
    exact ⟨fun _ => rfl, rfl⟩

theorem fresh_place (hroot : sv ≠ rootdirIno) (h : (fresh nblocks marks sv).place r = some b) :
    (r = .super ∧ b = superBlock) ∨
    (∃ k < freemapblocks nblocks.toNat, r = .freemap k ∧ b = .ofNat (freemapStart + k)) ∨
    ((b = rootdirIno ∨ b = sv) ∧ r = .file b .inode) := by
  cases r with
  | super =>
    cases h
    exact .inl ⟨rfl, rfl⟩
  | freemap k =>
    have h : (if k < freemapblocks nblocks.toNat then some (UInt32.ofNat (freemapStart + k)) else none) = some b := h
    split at h
    · rename_i hk
      cases h
      exact .inr (.inl ⟨k, hk, rfl, rfl⟩)
    · cases h
  | file j p =>
    by_cases hl : (fresh nblocks marks sv).Live j
    · obtain ⟨hd, hi⟩ := fresh_bare hroot hl
      rw [place_file hl, show (fresh nblocks marks sv).ids j = fun _ => 0 from if_pos hi] at h
      obtain ⟨rfl, rfl⟩ := Place.block_bare hd hi h
      exact .inr (.inr ⟨fresh_live hroot hl, rfl⟩)
    · rw [place_dead hl] at h
      cases h

theorem FreshMarks.freemap_toNat (h : FreshMarks nblocks marks sv) (hk : k < freemapblocks nblocks.toNat) :
    (UInt32.ofNat (freemapStart + k)).toNat = freemapStart + k ∧ freemapStart + k < sv.toNat := by
  have hmeta := h.metadata
  have hsv := sv.toNat_lt
  refine ⟨?_, by omega⟩
  rw [UInt32.toNat_ofNat', Nat.mod_eq_of_lt (by omega)]

theorem FreshMarks.root (h : FreshMarks nblocks marks sv) : rootdirIno.toNat < sv.toNat := by
  have hmeta := h.metadata
  show 1 < sv.toNat
  simp only [freemapStart] at hmeta
  omega

theorem FreshMarks.root_ne (h : FreshMarks nblocks marks sv) : sv ≠ rootdirIno := by
  rintro rfl
  exact Nat.lt_irrefl _ h.root

theorem fresh_owned (h : FreshMarks nblocks marks sv) :
    Owned (fresh nblocks marks sv).place (fresh nblocks marks sv).Marked where
  inj {r r' b} hr hr' := by
    have hroot := h.root
    have hfile : b = rootdirIno ∨ b = sv → b ≠ superBlock ∧
        ∀ k < freemapblocks nblocks.toNat, b ≠ .ofNat (freemapStart + k) := by
      intro hb
      have hone : rootdirIno.toNat = 1 := rfl
      have hnat : b.toNat = 1 ∨ b.toNat = sv.toNat := by
        rcases hb with rfl | rfl
        · exact .inl rfl
        · exact .inr rfl
      refine ⟨?_, ?_⟩
      · rintro rfl
        have hzero : superBlock.toNat = 0 := rfl
        omega
      · rintro k hk rfl
        obtain ⟨hk1, hk2⟩ := h.freemap_toNat hk
        rw [hk1] at hnat
        simp only [freemapStart] at hnat hk2
        omega
    have hmap : ∀ k < freemapblocks nblocks.toNat, UInt32.ofNat (freemapStart + k) ≠ superBlock := by
      intro k hk heq
      have hk1 := (h.freemap_toNat hk).1
      rw [heq] at hk1
      have hzero : superBlock.toNat = 0 := rfl
      simp only [freemapStart] at hk1
      omega
    rcases fresh_place h.root_ne hr with ⟨rfl, rfl⟩ | ⟨k, hk, rfl, rfl⟩ | ⟨hb, rfl⟩
    · rcases fresh_place h.root_ne hr' with ⟨rfl, -⟩ | ⟨k', hk', -, heq⟩ | ⟨hb, -⟩
      · rfl
      · exact absurd heq.symm (hmap k' hk')
      · exact absurd rfl (hfile hb).1
    · rcases fresh_place h.root_ne hr' with ⟨-, heq⟩ | ⟨k', hk', rfl, heq⟩ | ⟨hb, -⟩
      · exact absurd heq (hmap k hk)
      · have hnat := congrArg UInt32.toNat heq
        rw [(h.freemap_toNat hk).1, (h.freemap_toNat hk').1] at hnat
        rw [Nat.add_left_cancel hnat]
      · exact absurd rfl ((hfile hb).2 k hk)
    · rcases fresh_place h.root_ne hr' with ⟨-, heq⟩ | ⟨k', hk', -, heq⟩ | ⟨-, rfl⟩
      · exact absurd heq (hfile hb).1
      · exact absurd heq ((hfile hb).2 k' hk')
      · rfl
  marked_of {r b} hr := by
    have hle : b ≤ sv := by
      rw [UInt32.le_iff_toNat_le]
      have hroot := h.root
      rcases fresh_place h.root_ne hr with ⟨-, rfl⟩ | ⟨k, hk, -, rfl⟩ | ⟨rfl | rfl, -⟩
      · exact Nat.zero_le _
      · rw [(h.freemap_toNat hk).1]
        exact Nat.le_of_lt (h.freemap_toNat hk).2
      · exact Nat.le_of_lt hroot
      · exact Nat.le_refl _
    exact ⟨UInt32.lt_of_le_of_lt hle h.volume, h.used b hle⟩

theorem fresh_sane (h : FreshMarks nblocks marks sv) : (fresh nblocks marks sv).Sane where
  device := UInt32.le_refl nblocks
  owned := fresh_owned h
  names j k hj := by
    rw [fresh_slot h.root_ne] at hj
    exact absurd rfl hj
  unnamed k := by
    rw [fresh_slot h.root_ne]
    decide
  rootType := by
    rw [fresh_root h.root_ne]
    rfl
  rootLinks := by
    rw [fresh_root h.root_ne]
    decide
  rootSize := by
    rw [fresh_root h.root_ne]
    rfl
  files j hj hne := by
    rw [(fresh_live h.root_ne hj).resolve_left hne, fresh_inode]
    rfl
  mapped := ⟨rfl, h.bound, fun b hb _ => h.tail b hb⟩
  tabled := by
    have hvnode : ∀ j n, (fresh nblocks marks sv).vnode? j = some n → n = ⟨sv, emptyFile, true, 1⟩ := by
      intro j n hn
      exact List.mem_singleton.1 (List.mem_of_find?_eq_some hn)
    refine ⟨List.nodup_singleton _, ?_, ?_⟩
    · intro j n hn
      rw [hvnode j n hn]
      exact Nat.one_pos
    · intro j n hn hclean
      rw [hvnode j n hn] at hclean
      cases hclean

end Fresh

end Volume
end Sfs
end Clape
