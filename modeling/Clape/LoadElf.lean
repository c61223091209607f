import Clape.SegmentTests

namespace Clape
set_option autoImplicit true

/-- `load_elf` into an address space that `as_create` made. It does not set the headers and the
initial offsets, which hold what was in memory. -/
def loadElfInto (as : AddrSpace) (phs : List ElfPhdr) : Option AddrSpace := do
  let as ← phs.foldlM (fun as ph => ph.define as) as
  let as := match phs[1]? with
    | some ph => if ph.pType = ptLoad then { as with ph1 := ph } else as
    | none => as
  return match phs[2]? with
    | some ph => if ph.pType = ptLoad then { as with ph2 := ph } else as
    | none => as

/-- What `as_create` sets. -/
def AddrSpace.Fresh (as : AddrSpace) : Prop :=
  as.vbase1 = 0 ∧ as.npages1 = 0 ∧ as.vbase2 = 0 ∧ as.npages2 = 0

/-- The types of headers that `load_elf` accepts. -/
def ElfPhdr.Known (ph : ElfPhdr) : Prop :=
  ph.pType = ptNull ∨ ph.pType = ptPhdr ∨ ph.pType = ptMipsReginfo ∨ ph.pType = ptLoad

/-- The `PT_LOAD` headers, in the order of the file. -/
def loads (phs : List ElfPhdr) : List ElfPhdr := phs.filter fun ph => ph.pType = ptLoad

variable {phs L : List ElfPhdr} {ph a b : ElfPhdr}

theorem loads_cons_pos (h : ph.pType = ptLoad) : loads (ph :: phs) = ph :: loads phs := by
  simp [loads, h]

theorem loads_cons_neg (h : ph.pType ≠ ptLoad) : loads (ph :: phs) = loads phs := by
  simp [loads, h]

/-- The header that is recorded for a number. -/
def recorded (o : Option ElfPhdr) (old : ElfPhdr) : ElfPhdr :=
  match o with
  | some ph => if ph.pType = ptLoad then ph else old
  | none => old

/-- The first region and `ph1` are those of one header, the second region and `ph2` those of
another. -/
structure AddrSpace.Describes (as : AddrSpace) (a b : ElfPhdr) : Prop where
  vbase1 : as.vbase1 = a.pVaddr - a.pVaddr % pageSize
  npages1 : as.npages1 = regionPages a.pVaddr a.pMemsz
  initialOffset1 : as.initialOffset1 = a.pVaddr % pageSize
  ph1 : as.ph1 = a
  vbase2 : as.vbase2 = b.pVaddr - b.pVaddr % pageSize
  npages2 : as.npages2 = regionPages b.pVaddr b.pMemsz
  initialOffset2 : as.initialOffset2 = b.pVaddr % pageSize
  ph2 : as.ph2 = b

/-- The image is loaded as it should be: with two `PT_LOAD` headers the regions are paired with
their headers, with any other number of them it is rejected. -/
def Paired (phs : List ElfPhdr) : Prop :=
  ∀ as₀ : AddrSpace, as₀.Fresh →
    (∀ a b as, loads phs = [a, b] → loadElfInto as₀ phs = some as → as.Describes a b) ∧
      ((loads phs).length ≠ 2 → loadElfInto as₀ phs = none)

/-- A region that does not start in page 0, and so leaves its base set. -/
def ElfPhdr.Based (ph : ElfPhdr) : Bool := pageSize ≤ ph.pVaddr

theorem ElfPhdr.based_iff (ph : ElfPhdr) :
    ph.pVaddr - ph.pVaddr % pageSize = 0 ↔ ph.Based = false := by
  unfold Based
  rw [decide_eq_false_iff_not]
  unfold pageSize
  omega

/-- `as_define_region` for a header. -/
def ElfPhdr.region (as : AddrSpace) (ph : ElfPhdr) : Option AddrSpace :=
  asDefineRegion as ph.pVaddr ph.pMemsz

theorem ElfPhdr.region_first {as : AddrSpace} (h : as.vbase1 = 0) (ph : ElfPhdr) :
    ph.region as = some { as with
      vbase1 := ph.pVaddr - ph.pVaddr % pageSize
      npages1 := regionPages ph.pVaddr ph.pMemsz
      initialOffset1 := ph.pVaddr % pageSize } := if_pos h

theorem ElfPhdr.region_second {as : AddrSpace} (h1 : as.vbase1 ≠ 0) (h2 : as.vbase2 = 0)
    (ph : ElfPhdr) :
    ph.region as = some { as with
      vbase2 := ph.pVaddr - ph.pVaddr % pageSize
      npages2 := regionPages ph.pVaddr ph.pMemsz
      initialOffset2 := ph.pVaddr % pageSize } := (if_neg h1).trans (if_pos h2)

theorem ElfPhdr.region_third {as : AddrSpace} (h1 : as.vbase1 ≠ 0) (h2 : as.vbase2 ≠ 0)
    (ph : ElfPhdr) : ph.region as = none := (if_neg h1).trans (if_neg h2)

/-- The headers of the other known types are skipped. -/
theorem foldlM_define (h : ∀ ph ∈ phs, ph.Known) (as : AddrSpace) :
    phs.foldlM (fun as ph => ph.define as) as = (loads phs).foldlM (fun as ph => ph.region as) as := by
  induction phs generalizing as with
  | nil => rfl
  | cons ph phs ih =>
    have hph := h ph List.mem_cons_self
    have ih := ih fun q hq => h q (List.mem_cons_of_mem ph hq)
    rw [List.foldlM_cons]
    by_cases hl : ph.pType = ptLoad
    · have hdef : ph.define as = ph.region as := by
        unfold ElfPhdr.define
        rw [if_neg, if_pos hl]
        · rfl
        · rw [hl]
          decide
      rw [hdef, loads_cons_pos hl, List.foldlM_cons]
      cases ph.region as with
      | none => rfl
      | some as => exact ih as
    · have hdef : ph.define as = some as := by
        unfold ElfPhdr.define
        apply if_pos
        obtain h1 | h1 | h1 | h1 := hph
        · exact .inl h1
        · exact .inr (.inl h1)
        · exact .inr (.inr h1)
        · exact absurd h1 hl
      rw [hdef, loads_cons_neg hl]
      exact ih as

theorem foldlM_unknown (h : ph ∈ phs) (hk : ¬ ph.Known) (as : AddrSpace) :
    phs.foldlM (fun as ph => ph.define as) as = none := by
  induction phs generalizing as with
  | nil => cases h
  | cons q phs ih =>
    rw [List.foldlM_cons]
    cases h with
    | head =>
      have hdef : ph.define as = none := by
        unfold ElfPhdr.define
        rw [if_neg, if_neg]
        · exact fun hl => hk (.inr (.inr (.inr hl)))
        · intro hl
          obtain h1 | h1 | h1 := hl
          · exact hk (.inl h1)
          · exact hk (.inr (.inl h1))
          · exact hk (.inr (.inr (.inl h1)))
      rw [hdef]
      rfl
    | tail _ h =>
      cases q.define as with
      | none => rfl
      | some as => exact ih h as

theorem regions_third {as : AddrSpace} (h1 : as.vbase1 ≠ 0) (h2 : as.vbase2 ≠ 0) :
    L.foldlM (fun as ph => ElfPhdr.region as ph) as = none ↔ L ≠ [] := by
  cases L with
  | nil => exact ⟨nofun, fun h => absurd rfl h⟩
  | cons ph L =>
    rw [List.foldlM_cons, ElfPhdr.region_third h1 h2]
    exact ⟨fun _ => nofun, fun _ => rfl⟩

/-- With the first base set, the regions are too many when one that is not the last of them sets
the second base. -/
theorem regions_second {as : AddrSpace} (h1 : as.vbase1 ≠ 0) (h2 : as.vbase2 = 0) :
    L.foldlM (fun as ph => ElfPhdr.region as ph) as = none ↔
      1 ≤ (L.dropLast.filter ElfPhdr.Based).length := by
  induction L generalizing as with
  | nil => exact ⟨nofun, fun h => absurd h (by decide)⟩
  | cons ph L ih =>
    rw [List.foldlM_cons, ElfPhdr.region_second h1 h2]
    show List.foldlM _ _ L = none ↔ _
    cases hb : ph.Based with
    | false =>
      refine (ih ?_ ?_).trans ?_
      · exact h1
      · exact ph.based_iff.2 hb
      · cases L with
        | nil => exact Iff.rfl
        | cons q L =>
          rw [List.dropLast_cons_cons, List.filter_cons_of_neg (by rw [hb]; exact Bool.false_ne_true)]
    | true =>
      have hne : ph.pVaddr - ph.pVaddr % pageSize ≠ 0 := by
        rw [ne_eq, ph.based_iff, hb]
        exact nofun
      refine (regions_third ?_ ?_).trans ?_
      · exact h1
      · exact hne
      · cases L with
        | nil => exact ⟨fun h => absurd rfl h, fun h => absurd h (Nat.not_succ_le_zero 0)⟩
        | cons q L =>
          rw [List.dropLast_cons_cons, List.filter_cons_of_pos hb, List.length_cons]
          exact ⟨fun _ => by omega, fun _ => nofun⟩

/-- A new address space takes the regions unless two of them, without the last one, set the two
bases. -/
theorem regions_first {as : AddrSpace} (h1 : as.vbase1 = 0) (h2 : as.vbase2 = 0) :
    L.foldlM (fun as ph => ElfPhdr.region as ph) as = none ↔
      2 ≤ (L.dropLast.filter ElfPhdr.Based).length := by
  induction L generalizing as with
  | nil => exact ⟨nofun, fun h => absurd h (by decide)⟩
  | cons ph L ih =>
    rw [List.foldlM_cons, ElfPhdr.region_first h1]
    show List.foldlM _ _ L = none ↔ _
    cases hb : ph.Based with
    | false =>
      refine (ih ?_ ?_).trans ?_
      · exact ph.based_iff.2 hb
      · exact h2
      · cases L with
        | nil => exact Iff.rfl
        | cons q L =>
          rw [List.dropLast_cons_cons, List.filter_cons_of_neg (by rw [hb]; exact Bool.false_ne_true)]
    | true =>
      have hne : ph.pVaddr - ph.pVaddr % pageSize ≠ 0 := by
        rw [ne_eq, ph.based_iff, hb]
        exact nofun
      refine (regions_second ?_ ?_).trans ?_
      · exact hne
      · exact h2
      · cases L with
        | nil => exact ⟨fun h => absurd h (Nat.not_succ_le_zero 0), fun h => absurd h (Nat.not_succ_le_zero 1)⟩
        | cons q L =>
          rw [List.dropLast_cons_cons, List.filter_cons_of_pos hb, List.length_cons]
          omega

theorem loadElfInto_none :
    loadElfInto as phs = none ↔ phs.foldlM (fun as ph => ph.define as) as = none := by
  unfold loadElfInto
  cases phs.foldlM (fun as ph => ph.define as) as with
  | none => exact ⟨fun _ => rfl, fun _ => rfl⟩
  | some as => exact ⟨nofun, nofun⟩

/-- When `load_elf` does what it should: the image has a header of an unknown type; or it has two
`PT_LOAD` headers, they are those number 1 and 2, and the first of them does not start in page 0;
or it has another number of them, and two of them that are not the last one do not start in page
0. -/
def PairedWhen (phs : List ElfPhdr) : Prop :=
  (∃ ph ∈ phs, ¬ ph.Known) ∨
    ((loads phs).length = 2 ∧ ∃ a b, phs[1]? = some a ∧ phs[2]? = some b ∧
      a.pType = ptLoad ∧ b.pType = ptLoad ∧ pageSize ≤ a.pVaddr) ∨
    ((loads phs).length ≠ 2 ∧ 2 ≤ ((loads phs).dropLast.filter ElfPhdr.Based).length)

theorem loadElfInto_rejects {as : AddrSpace} (hf : as.Fresh) (hk : ∀ ph ∈ phs, ph.Known) :
    loadElfInto as phs = none ↔ 2 ≤ ((loads phs).dropLast.filter ElfPhdr.Based).length := by
  rw [loadElfInto_none, foldlM_define hk, regions_first hf.1 hf.2.2.1]

/-- The headers number 1 and 2 are the `PT_LOAD` headers when they have that type and there are
no others. -/
theorem loads_of_pair (ha : phs[1]? = some a) (hb : phs[2]? = some b) (hat : a.pType = ptLoad)
    (hbt : b.pType = ptLoad) (hl : (loads phs).length = 2) : loads phs = [a, b] := by
  match phs, ha, hb with
  | p :: x :: y :: rest, ha, hb =>
    cases ha
    cases hb
    by_cases hp : p.pType = ptLoad
    · rw [loads_cons_pos hp, loads_cons_pos hat, loads_cons_pos hbt] at hl
      simp only [List.length_cons] at hl
      omega
    · rw [loads_cons_neg hp, loads_cons_pos hat, loads_cons_pos hbt] at hl ⊢
      simp only [List.length_cons] at hl
      have hrest : loads rest = [] := List.eq_nil_of_length_eq_zero (by omega)
      rw [hrest]

theorem ElfPhdr.region_headers {x y : AddrSpace} (h : ph.region x = some y) :
    y.ph1 = x.ph1 ∧ y.ph2 = x.ph2 := by
  unfold ElfPhdr.region asDefineRegion at h
  dsimp only at h
  split at h
  · cases h
    exact ⟨rfl, rfl⟩
  · split at h
    · cases h
      exact ⟨rfl, rfl⟩
    · cases h

/-- An image with two `PT_LOAD` headers is accepted. -/
theorem loadElfInto_two {as : AddrSpace} (hf : as.Fresh) (hk : ∀ ph ∈ phs, ph.Known)
    (hl : loads phs = [a, b]) : ∃ as₁ as₂, a.region as = some as₁ ∧ b.region as₁ = some as₂ ∧
      loadElfInto as phs = some { as₂ with
        ph1 := recorded phs[1]? as.ph1
        ph2 := recorded phs[2]? as.ph2 } := by
  have hfold := foldlM_define hk as
  cases hx : phs.foldlM (fun as ph => ph.define as) as with
  | none =>
    exfalso
    have hr := (loadElfInto_rejects hf hk).1 (loadElfInto_none.2 hx)
    have hle := List.length_filter_le ElfPhdr.Based (loads phs).dropLast
    rw [hl] at hr hle
    exact absurd (Nat.le_trans hr hle) (by simp)
  | some as' =>
    rw [hx, hl] at hfold
    obtain ⟨as₁, h1, h2⟩ := Option.bind_eq_some_iff.1 hfold.symm
    obtain ⟨as₂, h2, h3⟩ := Option.bind_eq_some_iff.1 h2
    cases h3
    refine ⟨as₁, as', h1, h2, ?_⟩
    have hp1 : as'.ph1 = as.ph1 := (ElfPhdr.region_headers h2).1.trans (ElfPhdr.region_headers h1).1
    have hp2 : as'.ph2 = as.ph2 := (ElfPhdr.region_headers h2).2.trans (ElfPhdr.region_headers h1).2
    unfold loadElfInto
    rw [hx, ← hp1, ← hp2]
    show some _ = some _
    congr 1
    unfold recorded
    cases phs[1]? with
    | none =>
      cases phs[2]? with
      | none => rfl
      | some q =>
        dsimp only
        split <;> rfl
    | some p =>
      cases phs[2]? with
      | none =>
        dsimp only
        split <;> rfl
      | some q =>
        dsimp only
        split <;> split <;> rfl

/-- With two `PT_LOAD` headers, numbers 1 and 2, of which the first sets its base, each region
gets its own header. -/
theorem describes_of {as : AddrSpace} (hf : as.Fresh) (hk : ∀ ph ∈ phs, ph.Known)
    (hl : loads phs = [a, b]) (ha : phs[1]? = some a) (hb : phs[2]? = some b)
    (hbase : pageSize ≤ a.pVaddr) (h : loadElfInto as phs = some as') : as'.Describes a b := by
  have hat : a.pType = ptLoad := of_decide_eq_true (List.mem_filter.1
    (show a ∈ loads phs by rw [hl]; exact List.mem_cons_self)).2
  have hbt : b.pType = ptLoad := of_decide_eq_true (List.mem_filter.1
    (show b ∈ loads phs by rw [hl]; exact List.mem_cons_of_mem a List.mem_cons_self)).2
  obtain ⟨as₁, as₂, h1, h2, he⟩ := loadElfInto_two hf hk hl
  rw [ElfPhdr.region_first hf.1] at h1
  have hne : a.pVaddr - a.pVaddr % pageSize ≠ 0 := by
    rw [ne_eq, a.based_iff, ElfPhdr.Based, decide_eq_false_iff_not]
    exact fun hn => hn hbase
  have h1 := Option.some.inj h1
  have hv1 : as₁.vbase1 ≠ 0 := by
    rw [← h1]
    exact hne
  have hv2 : as₁.vbase2 = 0 := by
    rw [← h1]
    exact hf.2.2.1
  rw [ElfPhdr.region_second hv1 hv2] at h2
  subst h1
  cases h2
  rw [he] at h
  cases h
  constructor <;> simp [recorded, ha, hb, hat, hbt]

theorem recorded_forced (h : ∀ old, recorded o old = ph) : o = some ph ∧ ph.pType = ptLoad := by
  have h1 := h ⟨ph.pType, ph.pOffset + 1, ph.pVaddr, ph.pFilesz, ph.pMemsz⟩
  unfold recorded at h1
  have hne : (⟨ph.pType, ph.pOffset + 1, ph.pVaddr, ph.pFilesz, ph.pMemsz⟩ : ElfPhdr) ≠ ph := by
    intro he
    have := congrArg ElfPhdr.pOffset he
    simp at this
  split at h1
  · split at h1
    · rename_i hq
      subst h1
      exact ⟨rfl, hq⟩
    · exact absurd h1 hne
  · exact absurd h1 hne

/-- An address space that `as_create` made, with the given contents of the rest of its memory. -/
def asGarbage (old : ElfPhdr) (off : Nat) : AddrSpace := ⟨0, 0, 0, 0, old, old, 0, off, off⟩

theorem asGarbage_fresh (old : ElfPhdr) (off : Nat) : (asGarbage old off).Fresh := ⟨rfl, rfl, rfl, rfl⟩

/-- What it takes that an image with two `PT_LOAD` headers is loaded as it should be. -/
theorem Paired.two (h : Paired phs) (hk : ∀ ph ∈ phs, ph.Known) (hl : loads phs = [a, b]) :
    phs[1]? = some a ∧ phs[2]? = some b ∧ a.pType = ptLoad ∧ b.pType = ptLoad ∧
      pageSize ≤ a.pVaddr := by
  have hd : ∀ old off, ∃ as₁ as₂, a.region (asGarbage old off) = some as₁ ∧
      b.region as₁ = some as₂ ∧ ({ as₂ with
        ph1 := recorded phs[1]? old
        ph2 := recorded phs[2]? old } : AddrSpace).Describes a b := by
    intro old off
    obtain ⟨as₁, as₂, h1, h2, he⟩ := loadElfInto_two (asGarbage_fresh old off) hk hl
    exact ⟨as₁, as₂, h1, h2, (h _ (asGarbage_fresh old off)).1 a b _ hl he⟩
  have h1 : ∀ old, recorded phs[1]? old = a := by
    intro old
    obtain ⟨as₁, as₂, -, -, hd⟩ := hd old 0
    exact hd.ph1
  have h2 : ∀ old, recorded phs[2]? old = b := by
    intro old
    obtain ⟨as₁, as₂, -, -, hd⟩ := hd old 0
    exact hd.ph2
  obtain ⟨ha, hat⟩ := recorded_forced h1
  obtain ⟨hb, hbt⟩ := recorded_forced h2
  refine ⟨ha, hb, hat, hbt, ?_⟩
  by_contra hbase
  -- the second region goes into the place of the first, and the second offset stays as it was
  obtain ⟨as₁, as₂, hr1, hr2, hd⟩ := hd a (b.pVaddr % pageSize + 1)
  rw [ElfPhdr.region_first rfl] at hr1
  have hr1 := Option.some.inj hr1
  have hzero : a.pVaddr - a.pVaddr % pageSize = 0 := by
    rw [a.based_iff, ElfPhdr.Based, decide_eq_false_iff_not]
    exact hbase
  have hv1 : as₁.vbase1 = 0 := by
    rw [← hr1]
    exact hzero
  rw [ElfPhdr.region_first hv1] at hr2
  subst hr1
  cases hr2
  have hoff := hd.initialOffset2
  simp only [asGarbage] at hoff
  omega

/-- `load_elf` pairs the regions with their headers, and rejects the images with another number
of them, in the cases of `PairedWhen` and in no others. -/
theorem loadElf_paired (phs : List ElfPhdr) : Paired phs ↔ PairedWhen phs := by
  by_cases hk : ∀ ph ∈ phs, ph.Known
  · constructor
    · intro h
      by_cases hlen : (loads phs).length = 2
      · obtain ⟨a, b, hl⟩ := List.length_eq_two.1 hlen
        exact .inr (.inl ⟨hlen, a, b, h.two hk hl⟩)
      · have hf := asGarbage_fresh .zero 0
        exact .inr (.inr ⟨hlen, (loadElfInto_rejects hf hk).1 ((h _ hf).2 hlen)⟩)
    · intro h as₀ hf
      obtain ⟨ph, hph, hn⟩ | ⟨hlen, a, b, ha, hb, hat, hbt, hbase⟩ | ⟨hlen, htwo⟩ := h
      · exact absurd (hk ph hph) hn
      · refine ⟨?_, fun hne => absurd hlen hne⟩
        intro a' b' as hl he
        have hl' := loads_of_pair ha hb hat hbt hlen
        rw [hl'] at hl
        cases hl
        exact describes_of hf hk hl' ha hb hbase he
      · refine ⟨?_, fun _ => (loadElfInto_rejects hf hk).2 htwo⟩
        intro a b as hl
        rw [hl] at hlen
        exact absurd rfl hlen
  · have hex : ∃ ph ∈ phs, ¬ ph.Known := by
      by_contra hne
      exact hk fun ph hph => by_contra fun hn => hne ⟨ph, hph, hn⟩
    obtain ⟨ph, hph, hn⟩ := hex
    refine ⟨fun _ => .inl ⟨ph, hph, hn⟩, ?_⟩
    intro _ as₀ hf
    have hnone : loadElfInto as₀ phs = none := loadElfInto_none.2 (foldlM_unknown hph hn as₀)
    refine ⟨?_, fun _ => hnone⟩
    intro a b as _ he
    rw [hnone] at he
    cases he

/-- Two `PT_LOAD` headers that are the first of the image: the first region gets the second
header. -/
theorem loadElf_mispaired :
    let text : ElfPhdr := ⟨ptLoad, 0, 0x400000, 4096, 4096⟩
    let data : ElfPhdr := ⟨ptLoad, 4096, 0x10000000, 4096, 4096⟩
    (∃ as, loadElf 0 [text, data] = some as ∧ as.vbase1 = text.pVaddr ∧ as.ph1 = data) ∧
      ¬ Paired [text, data] := by
  refine ⟨⟨_, rfl, rfl, rfl⟩, ?_⟩
  intro h
  have hk : ∀ ph ∈ [⟨ptLoad, 0, 0x400000, 4096, 4096⟩, ⟨ptLoad, 4096, 0x10000000, 4096, 4096⟩],
      ElfPhdr.Known ph := by
    intro ph hph
    simp only [List.mem_cons, List.not_mem_nil, or_false] at hph
    obtain rfl | rfl := hph
    · exact .inr (.inr (.inr rfl))
    · exact .inr (.inr (.inr rfl))
  have hone := (h.two hk rfl).1
  exact absurd hone (by decide)

end Clape
