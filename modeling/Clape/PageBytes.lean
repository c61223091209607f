import Clape.PageContents

namespace Clape
set_option autoImplicit true

/-- The byte of a segment at an address: from the file up to `p_filesz`, then zeros. -/
def ElfPhdr.byte (ph : ElfPhdr) (f : File) (x : Nat) : UInt8 :=
  if ph.pVaddr ≤ x ∧ x < ph.pVaddr + ph.pFilesz then f.bytes (ph.pOffset + (x - ph.pVaddr)) else 0

/-- The fields of a header are 32-bit words, and the file part of the segment is in it. -/
structure ElfPhdr.Sized (ph : ElfPhdr) : Prop where
  vaddr : ph.pVaddr < 4294967296
  offset : ph.pOffset < 4294967296
  memsz : ph.pMemsz < 4294967296
  filesz : ph.pFilesz ≤ ph.pMemsz

/-- The plan leaves the given bytes in the frame, and the rest of the memory alone. -/
def LoadPlan.Makes (plan : LoadPlan) (f : File) (g : Nat → UInt8) : Prop :=
  ∀ paddr m, ∃ r, plan.build f m paddr = some r ∧ (∀ o < pageSize, r (paddr + o) = g o) ∧
    ∀ x, ¬ (paddr ≤ x ∧ x < paddr + pageSize) → r x = m x

/-- `load_page` builds the page at `v` of a segment, from every file that is long enough. -/
def AddrSpace.Builds (as : AddrSpace) (ph : ElfPhdr) (v : Nat) : Prop :=
  ∀ f paddr m, ph.pOffset + ph.pFilesz ≤ f.size → ∃ r, as.loadPage f none v paddr m = some r ∧
    (∀ o < pageSize, r (paddr + o) = ph.byte f (v + o)) ∧
    ∀ x, ¬ (paddr ≤ x ∧ x < paddr + pageSize) → r x = m x

theorem LoadPlan.makes_zero (h : ∀ o < pageSize, g o = 0) : LoadPlan.zero.Makes f g := by
  intro paddr m
  refine ⟨_, rfl, ?_, fun x hx => bzero_out hx⟩
  intro o ho
  rw [h o ho]
  exact bzero_in ⟨Nat.le_add_right .., Nat.add_lt_add_left ho paddr⟩

theorem LoadPlan.makes_read {f : File} (hlen : dst + len ≤ pageSize) (hf : 0 < len → offset + len ≤ f.size)
    (h : ∀ o < pageSize, g o = if dst ≤ o ∧ o < dst + len then f.bytes (offset + (o - dst)) else 0) :
    (LoadPlan.read true offset dst len).Makes f g := by
  intro paddr m
  have hmin : min len (f.size - offset) = len := by omega
  refine ⟨_, rfl, ?_, ?_⟩
  · intro o ho
    rw [h o ho]
    unfold File.readInto
    rw [hmin]
    by_cases hin : dst ≤ o ∧ o < dst + len
    · rw [if_pos hin, writeAt_in (by omega)]
      exact congrArg f.bytes (by omega)
    · rw [if_neg hin, writeAt_out (by omega)]
      exact bzero_in ⟨Nat.le_add_right .., Nat.add_lt_add_left ho paddr⟩
  · intro x hx
    unfold File.readInto
    rw [hmin, writeAt_out (by omega)]
    exact bzero_out hx

theorem LoadPlan.makes_whole {f : File} (hf : offset + pageSize ≤ f.size)
    (h : ∀ o < pageSize, g o = f.bytes (offset + o)) :
    (LoadPlan.read false offset 0 pageSize).Makes f g := by
  intro paddr m
  have hmin : min pageSize (f.size - offset) = pageSize := by omega
  refine ⟨_, rfl, ?_, ?_⟩
  · intro o ho
    rw [h o ho]
    unfold File.readInto
    rw [hmin, writeAt_in (by omega)]
    exact congrArg f.bytes (by omega)
  · intro x hx
    unfold File.readInto
    rw [hmin]
    exact writeAt_out hx

theorem LoadPlan.Makes.first_byte {f : File} (h : (LoadPlan.read bz offset 0 len).Makes f g) :
    g 0 = if offset < f.size ∧ 0 < len then f.bytes offset else 0 := by
  obtain ⟨r, hr, hg, -⟩ := h 0 fun _ => 0
  cases hr
  rw [← hg 0 (by decide)]
  unfold File.readInto
  by_cases hin : offset < f.size ∧ 0 < len
  · rw [if_pos hin, writeAt_in (by omega)]
    rfl
  · rw [if_neg hin, writeAt_out (by omega)]
    cases bz with
    | true => exact bzero_in (by decide)
    | false => rfl

theorem LoadPlan.Makes.zero (h : LoadPlan.zero.Makes f g) (ho : o < pageSize) : g o = 0 := by
  obtain ⟨r, hr, hg, -⟩ := h 0 fun _ => 0
  cases hr
  rw [← hg o ho]
  exact bzero_in ⟨Nat.le_add_right .., Nat.add_lt_add_left ho 0⟩

theorem LoadPlan.Makes.unread {f : File} (h : (LoadPlan.read true offset dst len).Makes f g)
    (ho : o < pageSize) (hout : ¬ (dst ≤ o ∧ o < dst + len)) : g o = 0 := by
  obtain ⟨r, hr, hg, -⟩ := h 0 fun _ => 0
  cases hr
  rw [← hg o ho]
  unfold File.readInto
  rw [writeAt_out (by omega)]
  exact bzero_in ⟨Nat.le_add_right .., Nat.add_lt_add_left ho 0⟩

theorem LoadPlan.not_makes_overrun {f : File} (hlen : pageSize < dst + len) (hd : dst ≤ pageSize)
    (hf : offset + len ≤ f.size) (hb : f.bytes (offset + (pageSize - dst)) ≠ 0) :
    ¬ (LoadPlan.read true offset dst len).Makes f g := by
  intro h
  obtain ⟨r, hr, -, hout⟩ := h 0 fun _ => 0
  cases hr
  apply hb
  rw [← hout pageSize (by omega)]
  unfold File.readInto
  rw [writeAt_in (by omega)]
  exact congrArg f.bytes (by omega)

/-- The plans that leave a frame of zeros. -/
def LoadPlan.Zeros : LoadPlan → Prop
  | .zero => True
  | .read bz _ dst len => bz = true ∧ dst ≤ pageSize ∧ len = 0
  | .segv => False

namespace ElfPhdr
variable {ph : ElfPhdr}

/-- The offset of the segment in its first page. -/
def lead (ph : ElfPhdr) : Nat := ph.pVaddr % pageSize

/-- The address of the first page of the segment. -/
def base (ph : ElfPhdr) : Nat := ph.pVaddr - ph.lead

/-- The page at `v` is the first one of a segment that does not start on a page boundary. -/
def First (ph : ElfPhdr) (v : Nat) : Prop := ph.lead ≠ 0 ∧ v = ph.base

/-- The page at `v` has bytes of the file. -/
def Filled (ph : ElfPhdr) (v : Nat) : Prop := Meets v ph.pVaddr ph.pFilesz

/-- The bytes of the page at `v` are where `load_page` looks for them in the file. -/
def Placed (ph : ElfPhdr) (v : Nat) : Prop :=
  ph.lead = 0 ∧ ph.pFilesz < 2147483648 ∧ ph.pOffset + (v - ph.pVaddr) < 4294967296

/-- The branch of `load_page` for the segment. -/
def plan (ph : ElfPhdr) (text : Bool) (v : Nat) : LoadPlan := ph.loadPlan ph.base ph.lead text v

theorem base_add_lead (ph : ElfPhdr) : ph.base + ph.lead = ph.pVaddr :=
  Nat.sub_add_cancel (Nat.mod_le ..)

theorem lead_lt (ph : ElfPhdr) : ph.lead < pageSize := Nat.mod_lt _ (by decide)

theorem base_mod (ph : ElfPhdr) : ph.base % pageSize = 0 := by
  unfold base lead pageSize
  omega

theorem toInt32_small (h : n < 2147483648) : toInt32 n = n := by
  unfold toInt32
  rw [Nat.mod_eq_of_lt (by omega), if_pos h]

/-- A length of 2 GiB or more is negative as an `int`, or wraps around to less than a page. -/
theorem toInt32_large (h : 2147483648 ≤ n) (hn : n < 4294967296 + pageSize) :
    toInt32 n < pageSize ∧ (n < 4294967296 → toInt32 n < 0) := by
  unfold toInt32 pageSize at *
  split
  · omega
  · omega

theorem plan_first (h : ph.First v) (hs : ph.Sized) (text : Bool) :
    ph.plan text v = .read true ph.pOffset ph.lead (min (if text
      then u32Sub (min (pageSize - ph.lead) ph.pFilesz) ph.lead
      else min (pageSize - ph.lead) ph.pFilesz) pageSize) := by
  obtain ⟨h1, rfl⟩ := h
  have hv := hs.vaddr
  have hb := ph.base_add_lead
  have hd : u32Sub ph.base ph.base = 0 := by
    rw [u32Sub_of_le (Nat.le_refl _) (by omega), Nat.sub_self]
  have hsz : (if pageSize - ph.lead ≤ ph.pFilesz then pageSize - ph.lead else ph.pFilesz) =
      min (pageSize - ph.lead) ph.pFilesz := (Nat.min_def ..).symm
  unfold plan loadPlan
  dsimp only
  rw [hd, if_pos ⟨h1, rfl⟩, Nat.add_zero, u32, Nat.mod_eq_of_lt hs.offset, hsz]

theorem plan_other (h : ¬ ph.First (ph.base + d)) (hv : ph.base + d < userStack) (text : Bool) :
    ph.plan text (ph.base + d) =
      if toInt32 (ph.pFilesz + ph.lead) - d < 0 then .zero
      else if u32Sub (u32 (ph.pFilesz + ph.lead)) d < pageSize
      then .read true (u32 (ph.pOffset + d)) 0
        (min (u32Sub (u32 (ph.pFilesz + ph.lead)) d) (u32Sub (u32 (ph.pMemsz + ph.lead)) d))
      else .read false (u32 (ph.pOffset + d)) 0 pageSize := by
  have hlt : d < 2147483648 := by
    unfold userStack at hv
    omega
  have hd : u32Sub (ph.base + d) ph.base = d := by
    rw [u32Sub_of_le (Nat.le_add_right ..) (by unfold userStack at hv; omega), Nat.add_sub_cancel_left]
  have hfirst : ¬ (ph.lead ≠ 0 ∧ d = 0) := by
    intro h'
    rw [h'.2] at h
    exact h ⟨h'.1, rfl⟩
  unfold plan loadPlan
  dsimp only
  rw [hd, if_neg hfirst, toInt32_small hlt]

theorem plan_past (h : ¬ ph.First (ph.base + d)) (hv : ph.base + d < userStack)
    (hd : ph.pFilesz + ph.lead ≤ d) (text : Bool) : (ph.plan text (ph.base + d)).Zeros := by
  have hlt : ph.pFilesz + ph.lead < 2147483648 := by
    unfold userStack at hv
    omega
  rw [plan_other h hv, toInt32_small hlt]
  split
  · trivial
  · have heq : ph.pFilesz + ph.lead = d := by omega
    rw [heq, u32, Nat.mod_eq_of_lt (by omega), u32Sub_of_le (Nat.le_refl d) (by omega), Nat.sub_self,
      if_pos (by decide), Nat.zero_min]
    exact ⟨rfl, Nat.zero_le _, rfl⟩

/-- A segment with 2 GiB in the file or more is taken to end before the page. -/
theorem plan_large (h : ¬ ph.First (ph.base + d)) (hv : ph.base + d < userStack) (hs : ph.Sized)
    (hp : (ph.base + d) % pageSize = 0) (hd : 2147483648 ≤ ph.pFilesz + ph.lead) (text : Bool) :
    ph.plan text (ph.base + d) = .zero := by
  have hl := ph.lead_lt
  have hf := hs.filesz
  have hm := hs.memsz
  obtain ⟨h1, h2⟩ := toInt32_large hd (by omega)
  have hneg : toInt32 (ph.pFilesz + ph.lead) - d < 0 := by
    by_cases hz : d = 0
    · have hl0 : ph.lead = 0 := by
        by_contra hne
        rw [hz] at h
        exact h ⟨hne, rfl⟩
      have := h2 (by omega)
      omega
    · -- `d` is a multiple of the page size
      have hb := ph.base_mod
      have : pageSize ≤ d := by
        unfold pageSize at *
        omega
      omega
  rw [plan_other h hv, if_pos hneg]

theorem plan_filled (h : ¬ ph.First (ph.base + d)) (hv : ph.base + d < userStack) (hs : ph.Sized)
    (hd : d < ph.pFilesz + ph.lead) (hf : ph.pFilesz + ph.lead < 2147483648) (text : Bool) :
    (∃ bz len, ph.plan text (ph.base + d) = .read bz (u32 (ph.pOffset + d)) 0 len) ∧
    (ph.lead = 0 → ph.plan text (ph.base + d) = if ph.pFilesz - d < pageSize
      then .read true (u32 (ph.pOffset + d)) 0 (ph.pFilesz - d)
      else .read false (u32 (ph.pOffset + d)) 0 pageSize) := by
  rw [plan_other h hv, toInt32_small hf, if_neg (by omega)]
  constructor
  · split
    · exact ⟨_, _, rfl⟩
    · exact ⟨_, _, rfl⟩
  · intro hl
    have hm := hs.memsz
    have hfm := hs.filesz
    rw [hl] at hd hf ⊢
    simp only [Nat.add_zero] at *
    rw [u32, Nat.mod_eq_of_lt (by omega), u32, u32, Nat.mod_eq_of_lt hm, u32Sub_of_le (by omega) (by omega),
      u32Sub_of_le (by omega) hm, Nat.min_eq_left (by omega)]

end ElfPhdr

/-- The plan builds the page at `v` of a segment, from every file that is long enough. -/
def LoadPlan.Exact (plan : LoadPlan) (ph : ElfPhdr) (v : Nat) : Prop :=
  ∀ f : File, ph.pOffset + ph.pFilesz ≤ f.size → plan.Makes f fun o => ph.byte f (v + o)

theorem AddrSpace.builds_iff {as : AddrSpace} : as.Builds ph v ↔ (as.loadPlan v).Exact ph v :=
  ⟨fun h f hf paddr m => h f paddr m hf, fun h f paddr m hf => h f hf paddr m⟩

/-- A file of ones. -/
def ones (n : Nat) : File := ⟨n, fun _ => 1⟩

/-- A file with a one at `k`. -/
def oneAt (k n : Nat) : File := ⟨n, fun x => if x = k then 1 else 0⟩

namespace ElfPhdr
variable {ph : ElfPhdr}

theorem byte_filled (f : File) (h : ph.Filled v) :
    ∃ o, o < pageSize ∧ ∃ x, ph.byte f (v + o) = f.bytes x := by
  obtain ⟨a, h1, h2, h3, h4⟩ := h
  refine ⟨a - v, by omega, ph.pOffset + (a - ph.pVaddr), ?_⟩
  rw [Nat.add_sub_of_le h1]
  exact if_pos ⟨h3, h4⟩

theorem byte_not_filled (f : File) (h : ¬ ph.Filled v) (ho : o < pageSize) : ph.byte f (v + o) = 0 := by
  apply if_neg
  intro hin
  exact h ⟨v + o, Nat.le_add_right .., Nat.add_lt_add_left ho v, hin.1, hin.2⟩

/-- The plans that leave zeros are right for the pages without bytes of the file. -/
theorem exact_zeros {p : LoadPlan} (hp : p.Zeros) : p.Exact ph v ↔ ¬ ph.Filled v := by
  constructor
  · intro h hfill
    have hm := h (ones (ph.pOffset + ph.pFilesz)) (Nat.le_refl _)
    obtain ⟨o, ho, x, hx⟩ := byte_filled (ones (ph.pOffset + ph.pFilesz)) hfill
    have hz : ph.byte (ones (ph.pOffset + ph.pFilesz)) (v + o) = 0 := by
      cases p with
      | zero => exact hm.zero ho
      | read bz offset dst len =>
        obtain ⟨rfl, -, rfl⟩ := hp
        exact hm.unread ho (by omega)
      | segv => cases hp
    exact absurd (hz.symm.trans hx) (by decide : (0 : UInt8) ≠ 1)
  · intro h f hf
    cases p with
    | zero => exact LoadPlan.makes_zero fun o ho => byte_not_filled f h ho
    | read bz offset dst len =>
      obtain ⟨rfl, hdst, rfl⟩ := hp
      apply LoadPlan.makes_read hdst (fun h => absurd h (by decide))
      intro o ho
      rw [byte_not_filled f h ho, if_neg (by omega)]
    | segv => cases hp

theorem lead_le (h : ¬ ph.First (ph.base + d)) (hp : (ph.base + d) % pageSize = 0) : ph.lead ≤ d := by
  have hl := ph.lead_lt
  have hbase := ph.base_mod
  by_cases hz : d = 0
  · by_contra hne
    exact h ⟨by omega, by omega⟩
  · unfold pageSize at *
    omega

theorem filled_iff (h : ¬ ph.First (ph.base + d)) (hp : (ph.base + d) % pageSize = 0) :
    ph.Filled (ph.base + d) ↔ d < ph.pFilesz + ph.lead := by
  have hb := ph.base_add_lead
  have hd := lead_le h hp
  constructor
  · intro hm
    obtain ⟨a, h1, h2, h3, h4⟩ := hm
    omega
  · intro hlt
    exact ⟨ph.base + d, Nat.le_refl _, by unfold pageSize; omega, by omega, by omega⟩

/-- The pages that are not the first one of an unaligned segment are right when they have no bytes
of the file, or these are in their place. -/
theorem exact_other (hs : ph.Sized) (hv : UserAddr v) (hb : ph.base ≤ v) (h : ¬ ph.First v)
    (text : Bool) : (ph.plan text v).Exact ph v ↔ (ph.Filled v → ph.Placed v) := by
  obtain ⟨d, rfl⟩ := Nat.exists_eq_add_of_le hb
  have hfill := filled_iff h hv.1
  have hd := lead_le h hv.1
  have hlead := ph.base_add_lead
  have hll := ph.lead_lt
  by_cases hpast : ph.pFilesz + ph.lead ≤ d
  · have hno : ¬ ph.Filled (ph.base + d) := fun hf => Nat.not_lt.2 hpast (hfill.1 hf)
    rw [exact_zeros (plan_past h hv.2 hpast text)]
    exact iff_of_true hno fun hf => absurd hf hno
  · have hyes : ph.Filled (ph.base + d) := hfill.2 (Nat.not_le.1 hpast)
    -- the byte of the page at its start
    have hbyte : ∀ f, ph.byte f (ph.base + d) = f.bytes (ph.pOffset + d - ph.lead) := by
      intro f
      unfold byte
      rw [if_pos (by omega)]
      exact congrArg f.bytes (by omega)
    rw [show (ph.Filled (ph.base + d) → ph.Placed (ph.base + d)) ↔ ph.Placed (ph.base + d) from
      ⟨fun hp => hp hyes, fun hp _ => hp⟩]
    by_cases hlarge : 2147483648 ≤ ph.pFilesz + ph.lead
    · rw [plan_large h hv.2 hs hv.1 hlarge text, exact_zeros (p := .zero) trivial]
      refine iff_of_false (fun hno => hno hyes) fun hp => ?_
      have := hp.1
      have := hp.2.1
      omega
    · obtain ⟨⟨bz, len, hplan⟩, haligned⟩ := plan_filled h hv.2 hs (by omega) (by omega) text
      constructor
      · intro hex
        rw [hplan] at hex
        -- a file with one byte that is not zero, where the first byte of the page should come from
        have hsize := hs.offset
        have hone := (hex (oneAt (ph.pOffset + d - ph.lead) (4294967296 + ph.pFilesz))
          (Nat.add_le_add_right (Nat.le_of_lt hsize) _)).first_byte
        rw [Nat.add_zero, hbyte] at hone
        have heq : u32 (ph.pOffset + d) = ph.pOffset + d - ph.lead := by
          by_contra hne
          simp only [oneAt, if_pos, if_neg hne, ite_self] at hone
          exact absurd hone (by decide)
        have htop := hv.2
        unfold u32 at heq
        unfold userStack at htop
        unfold pageSize at hll
        unfold Placed
        omega
      · intro hp f hf
        obtain ⟨hl, h2, h3⟩ := hp
        have hoff : u32 (ph.pOffset + d) = ph.pOffset + d := Nat.mod_eq_of_lt (by omega)
        rw [haligned hl, hoff]
        split
        · apply LoadPlan.makes_read (by omega) (by omega)
          intro o ho
          unfold byte
          by_cases hin : o < ph.pFilesz - d
          · rw [if_pos (by omega), if_pos (by omega)]
            exact congrArg f.bytes (by omega)
          · rw [if_neg (by omega), if_neg (by omega)]
        · apply LoadPlan.makes_whole (by omega)
          intro o ho
          unfold byte
          rw [if_pos (by omega)]
          exact congrArg f.bytes (by omega)

/-- The first page of an unaligned data segment is right. -/
theorem exact_first_data (hs : ph.Sized) (h : ph.First v) : (ph.plan false v).Exact ph v := by
  intro f hf
  rw [plan_first h hs]
  obtain ⟨-, rfl⟩ := h
  have hb := ph.base_add_lead
  have hl := ph.lead_lt
  rw [if_neg Bool.false_ne_true, Nat.min_eq_left (by omega)]
  apply LoadPlan.makes_read (by omega) (by omega)
  intro o ho
  unfold byte
  by_cases hin : ph.lead ≤ o ∧ o < ph.lead + ph.pFilesz
  · rw [if_pos (by omega), if_pos (by omega)]
    exact congrArg f.bytes (by omega)
  · rw [if_neg (by omega), if_neg (by omega)]

/-- A file of ones that is long enough for a page of one segment and for the bytes of another. -/
def filler (ph q : ElfPhdr) : File := ones (ph.pOffset + pageSize + (q.pOffset + q.pFilesz))

/-- The first page of an unaligned text segment with fewer bytes in it than come before it: the
length to read is negative. -/
theorem not_exact_overrun (hs : ph.Sized) (h : ph.First v)
    (hlt : min (pageSize - ph.lead) ph.pFilesz < ph.lead) : ¬ (ph.plan true v).Exact q v := by
  intro hex
  have hm := hex (filler ph q) (Nat.le_add_left ..)
  have hl := ph.lead_lt
  have hlen : min (u32Sub (min (pageSize - ph.lead) ph.pFilesz) ph.lead) pageSize = pageSize := by
    unfold u32Sub
    unfold pageSize at *
    omega
  rw [plan_first h hs, if_pos rfl, hlen] at hm
  exact LoadPlan.not_makes_overrun (by omega) (Nat.le_of_lt hl) (Nat.le_add_right ..)
    (by decide : (1 : UInt8) ≠ 0) hm

/-- The first page of an unaligned text segment is never right. -/
theorem not_exact_first_text (hs : ph.Sized) (h : ph.First v) : ¬ (ph.plan true v).Exact ph v := by
  by_cases hlt : min (pageSize - ph.lead) ph.pFilesz < ph.lead
  · exact not_exact_overrun hs h hlt
  · intro hex
    have hm := hex (ones (ph.pOffset + ph.pFilesz)) (Nat.le_refl _)
    have hb := ph.base_add_lead
    have hl := ph.lead_lt
    have hlen : min (u32Sub (min (pageSize - ph.lead) ph.pFilesz) ph.lead) pageSize =
        min (pageSize - ph.lead) ph.pFilesz - ph.lead := by
      rw [u32Sub_of_le (by omega) (by unfold pageSize at *; omega)]
      omega
    rw [plan_first h hs, if_pos rfl, hlen] at hm
    obtain ⟨hne, rfl⟩ := h
    -- the bytes at the end of what should be read are left at zero
    have hz := hm.unread (o := min (pageSize - ph.lead) ph.pFilesz) (by omega) (by omega)
    unfold byte at hz
    rw [if_pos (by omega)] at hz
    exact absurd hz (by decide : (1 : UInt8) ≠ 0)

/-- Pages that the range tests take for another segment than their own. -/
theorem exact_mistaken (hs : ph.Sized) (hv : UserAddr v) (hb : ph.base ≤ v)
    (hno : ¬ Meets v ph.pVaddr ph.pMemsz) (text : Bool) :
    (ph.plan text v).Exact q v ↔ ¬ (text = true ∧ ph.First v) ∧ ¬ q.Filled v := by
  have hlead := ph.base_add_lead
  have hfm := hs.filesz
  have hl := ph.lead_lt
  by_cases hf : ph.First v
  · have hz : ph.pMemsz = 0 := by
      by_contra hne
      apply hno
      rw [meets_iff (Nat.pos_of_ne_zero hne), hf.2]
      have := hf.1
      omega
    have hz' : ph.pFilesz = 0 := by omega
    cases text with
    | true =>
      refine iff_of_false (not_exact_overrun hs hf ?_) fun h => h.1 ⟨rfl, hf⟩
      rw [hz', Nat.min_zero]
      exact Nat.pos_of_ne_zero hf.1
    | false =>
      have hp : ph.plan false v = .read true ph.pOffset ph.lead 0 := by
        rw [plan_first hf hs, if_neg Bool.false_ne_true, hz', Nat.min_zero, Nat.zero_min]
      rw [hp, exact_zeros (p := .read true ph.pOffset ph.lead 0) ⟨rfl, Nat.le_of_lt hl, rfl⟩]
      exact ⟨fun h => ⟨nofun, h⟩, And.right⟩
  · rw [and_iff_right (show ¬ (text = true ∧ ph.First v) from fun h => hf h.2)]
    obtain ⟨d, rfl⟩ := Nat.exists_eq_add_of_le hb
    have hd := lead_le hf hv.1
    have hpast : ph.pFilesz + ph.lead ≤ d := by
      by_contra hlt
      exact hno ⟨ph.base + d, Nat.le_refl _, by unfold pageSize; omega, by omega, by omega⟩
    exact exact_zeros (plan_past hf hv.2 hpast text)

end ElfPhdr

namespace AddrSpace
variable {as : AddrSpace} {a b : ElfPhdr}

/-- When the page at `v` of the text segment is right. -/
def TextRight (as : AddrSpace) (a : ElfPhdr) (v : Nat) : Prop :=
  match as.pageSeg v with
  | some .text => ¬ a.First v ∧ (a.Filled v → a.Placed v)
  | some .data => ¬ a.Filled v
  | some .stack => ¬ a.Filled v
  | none => False

/-- When the page at `v` of the data segment is right. -/
def DataRight (as : AddrSpace) (a b : ElfPhdr) (v : Nat) : Prop :=
  match as.pageSeg v with
  | some .text => ¬ a.First v ∧ ¬ b.Filled v
  | some .data => b.First v ∨ (b.Filled v → b.Placed v)
  | some .stack => ¬ b.Filled v
  | none => False

theorem Describes.loadPlan (h : as.Describes a b) (v : Nat) :
    as.loadPlan v = match as.pageSeg v with
      | some .text => a.plan true v
      | some .data => b.plan false v
      | some .stack => .zero
      | none => .segv := by
  rw [loadPlan_pageSeg, h.ph1, h.ph2, h.vbase1, h.vbase2, h.initialOffset1, h.initialOffset2]
  rfl

theorem Describes.base_le_text (h : as.Describes a b) (hp : as.pageSeg v = some .text) :
    a.base ≤ v := by
  have hle := (inText_iff.1 (pageSeg_text.1 hp)).1
  rw [h.vbase1] at hle
  exact hle

theorem Describes.base_le_data (h : as.Describes a b) (hp : as.pageSeg v = some .data) :
    b.base ≤ v := by
  have hle := (inData_iff.1 (pageSeg_data.1 hp).2).1
  rw [h.vbase2] at hle
  exact hle

theorem not_exact_segv : ¬ LoadPlan.segv.Exact ph v := by
  intro h
  obtain ⟨r, hr, -⟩ := h (ones (ph.pOffset + ph.pFilesz)) (Nat.le_refl _) 0 fun _ => 0
  cases hr

/-- The pages of a segment are built as they should be, apart from the first page of an unaligned
text segment, the pages with bytes of the file of an unaligned or overlong segment, and those with
bytes of the file that the range tests take for another segment. -/
theorem pages_exact (h : as.Describes a b) (ha : a.Sized) (hb : b.Sized) (hv : UserAddr v) :
    (Meets v a.pVaddr a.pMemsz → ¬ Meets v b.pVaddr b.pMemsz →
      (as.Builds a v ↔ as.TextRight a v)) ∧
    (¬ Meets v a.pVaddr a.pMemsz → Meets v b.pVaddr b.pMemsz →
      (as.Builds b v ↔ as.DataRight a b v)) := by
  unfold TextRight DataRight
  simp only [builds_iff]
  rw [h.loadPlan]
  cases hp : as.pageSeg v with
  | none => exact ⟨fun _ _ => iff_of_false not_exact_segv id, fun _ _ => iff_of_false not_exact_segv id⟩
  | some sg =>
    cases sg with
    | text =>
      have hbase := h.base_le_text hp
      constructor
      · intro _ _
        by_cases hf : a.First v
        · exact iff_of_false (ElfPhdr.not_exact_first_text ha hf) fun h' => h'.1 hf
        · rw [ElfPhdr.exact_other ha hv hbase hf, and_iff_right hf]
      · intro hno _
        rw [ElfPhdr.exact_mistaken ha hv hbase hno, and_iff_right (rfl : true = true)]
    | data =>
      have hbase := h.base_le_data hp
      constructor
      · intro _ hno
        rw [ElfPhdr.exact_mistaken hb hv hbase hno]
        exact and_iff_right nofun
      · intro _ _
        by_cases hf : b.First v
        · exact iff_of_true (ElfPhdr.exact_first_data hb hf) (.inl hf)
        · rw [ElfPhdr.exact_other hb hv hbase hf, or_iff_right hf]
    | stack => exact ⟨fun _ _ => ElfPhdr.exact_zeros trivial, fun _ _ => ElfPhdr.exact_zeros trivial⟩

end AddrSpace

/-- The last page of a data segment of a page and a half. -/
theorem pages_exact_last : ∃ as, loadElf 0 [⟨ptMipsReginfo, 0, 0, 0, 0⟩,
    ⟨ptLoad, 0, 0x400000, 4096, 4096⟩, ⟨ptLoad, 4096, 0x10000000, 6000, 8000⟩] = some as ∧
      as.Builds ⟨ptLoad, 4096, 0x10000000, 6000, 8000⟩ 0x10001000 := by
  have hd : ∃ as, loadElf 0 [⟨ptMipsReginfo, 0, 0, 0, 0⟩, ⟨ptLoad, 0, 0x400000, 4096, 4096⟩,
      ⟨ptLoad, 4096, 0x10000000, 6000, 8000⟩] = some as ∧ as.pageSeg 0x10001000 = some .data ∧
        as.Describes ⟨ptLoad, 0, 0x400000, 4096, 4096⟩ ⟨ptLoad, 4096, 0x10000000, 6000, 8000⟩ :=
    ⟨_, rfl, by decide, rfl, rfl, rfl, rfl, rfl, rfl, rfl, rfl⟩
  obtain ⟨as, has, hseg, hdesc⟩ := hd
  refine ⟨as, has, ?_⟩
  apply ((AddrSpace.pages_exact hdesc ⟨by decide, by decide, by decide, by decide⟩
    ⟨by decide, by decide, by decide, by decide⟩ ⟨by decide, by decide⟩).2 ?_ ?_).2
  · unfold AddrSpace.DataRight
    rw [hseg]
    exact .inr fun _ => ⟨by decide, by decide, by decide⟩
  · rw [meets_iff (by decide)]
    decide
  · rw [meets_iff (by decide)]
    decide

/-- A text segment of 128 bytes that starts in the middle of a page: the length of the read wraps
around, and the read runs over the next frame. -/
theorem unaligned_text_overruns : ∃ as, loadElf 0 [⟨ptMipsReginfo, 0, 0, 0, 0⟩,
    ⟨ptLoad, 256, 0x400100, 128, 128⟩, ⟨ptLoad, 4096, 0x10000000, 4096, 4096⟩] = some as ∧
      as.Describes ⟨ptLoad, 256, 0x400100, 128, 128⟩ ⟨ptLoad, 4096, 0x10000000, 4096, 4096⟩ ∧
      Meets 0x400000 0x400100 128 ∧ ¬ Meets 0x400000 0x10000000 4096 ∧
      as.loadPlan 0x400000 = .read true 256 256 4096 ∧
      ¬ as.Builds ⟨ptLoad, 256, 0x400100, 128, 128⟩ 0x400000 := by
  have hd : ∃ as, loadElf 0 [⟨ptMipsReginfo, 0, 0, 0, 0⟩, ⟨ptLoad, 256, 0x400100, 128, 128⟩,
      ⟨ptLoad, 4096, 0x10000000, 4096, 4096⟩] = some as ∧ as.pageSeg 0x400000 = some .text ∧
        as.loadPlan 0x400000 = .read true 256 256 4096 ∧
        as.Describes ⟨ptLoad, 256, 0x400100, 128, 128⟩ ⟨ptLoad, 4096, 0x10000000, 4096, 4096⟩ :=
    ⟨_, rfl, by decide, by decide +kernel, rfl, rfl, rfl, rfl, rfl, rfl, rfl, rfl⟩
  obtain ⟨as, has, hseg, hplan, hdesc⟩ := hd
  refine ⟨as, has, hdesc, ?_, ?_, hplan, ?_⟩
  · rw [meets_iff (by decide)]
    decide
  · rw [meets_iff (by decide)]
    decide
  · rw [AddrSpace.builds_iff, hdesc.loadPlan, hseg]
    exact ElfPhdr.not_exact_first_text ⟨by decide, by decide, by decide, by decide⟩
      ⟨by decide, by decide⟩

end Clape
