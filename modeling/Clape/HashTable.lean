import Mathlib.Data.Finset.Card
import Clape.IntrusiveLists
import Clape.Machine

namespace Clape
set_option autoImplicit true

/-- The lists the nodes of the hash table are on: the pool and the chains of the table. -/
inductive HashList where
  | unused
  | bucket (b : Int)
  deriving DecidableEq, Repr

/-- `struct hash_table` with `unused_ptr_list` and the nodes `hashtable_init` allocates;
an `ipt_entry` of -1 is `none`. -/
structure HashTable where
  lists : Lists HashList Nat
  vad : Nat → Nat
  pid : Nat → Nat
  iptEntry : Nat → Option Nat
  size : Nat
  pool : Nat

/-- `get_hash_func`, in the 32-bit signed arithmetic of C. -/
def getHashFunc (size v p : Nat) : Int :=
  let val := (BitVec.ofNat 32 v).srem 24#32 + (BitVec.ofNat 32 p).srem 8#32 <<< 8
  ((val ^^^ 1234567891#32).srem (BitVec.ofNat 32 size)).toInt

namespace HashTable

def bucketOf (ht : HashTable) (v p : Nat) : HashList := .bucket (getHashFunc ht.size v p)

def matching (ht : HashTable) (v p : Nat) (c : Nat) : Bool := ht.vad c == v && ht.pid c == p

/-- The chains are empty and the nodes are pushed on the pool one after the other. -/
def initLists : Nat → Lists HashList Nat
  | 0 => ⟨fun _ => none, fun _ => none⟩
  | n + 1 => (initLists n).push .unused n

/-- `hashtable_init`. -/
def init (nEntry : Nat) : HashTable where
  lists := initLists nEntry
  vad := fun _ => 0
  pid := fun _ => 0
  iptEntry := fun _ => none
  size := 2 * nEntry
  pool := nEntry

def getIndexFromHash (ht : HashTable) (v p : Nat) : Except Fault (Option Nat) :=
  match ht.lists.search (ht.matching v p) ht.pool none (ht.lists.head (ht.bucketOf v p)) with
  | .found _ c => .ok (ht.iptEntry c)
  | .missing => .ok none
  | .endless => .error (.endless .getIndexFromHash)

def addInHash (ht : HashTable) (v p i : Nat) : Except Fault HashTable :=
  match ht.lists.head .unused with
  | none => .error (.kassert .addInHash .pool)
  | some c => .ok { ht with
      lists := (ht.lists.behead .unused c).push (ht.bucketOf v p) c
      vad := Function.update ht.vad c v
      pid := Function.update ht.pid c p
      iptEntry := Function.update ht.iptEntry c (some i) }

/-- `remove_from_hash`: only a node that is not the first of its chain loses its index. -/
def removeFromHash (ht : HashTable) (v p : Nat) : Except Fault HashTable :=
  match ht.lists.search (ht.matching v p) ht.pool none (ht.lists.head (ht.bucketOf v p)) with
  | .found prev c => .ok { ht with
      lists := (ht.lists.unlink (ht.bucketOf v p) prev c).push .unused c
      vad := Function.update ht.vad c 0
      pid := Function.update ht.pid c 0
      iptEntry := if prev.isSome then Function.update ht.iptEntry c none else ht.iptEntry }
  | .missing => .error (.panic .removeFromHash)
  | .endless => .error (.endless .removeFromHash)

/-- The table maps the keys `K i` to the indices `i`, with one node for each of them. -/
structure Rep (ht : HashTable) (K : Nat → Option (Nat × Nat)) (L : HashList → List Nat) : Prop where
  lists : ht.lists.Rep L
  pooled : ∀ c, (∃ k, c ∈ L k) ↔ c < ht.pool
  node : ∀ b c, c ∈ L (.bucket b) → b = getHashFunc ht.size (ht.vad c) (ht.pid c) ∧
    ∃ i, ht.iptEntry c = some i ∧ K i = some (ht.vad c, ht.pid c)
  chained : ∀ i v p, K i = some (v, p) → ∃ c, c ∈ L (ht.bucketOf v p) ∧ ht.iptEntry c = some i
  single : ∀ b c b' c', c ∈ L (.bucket b) → c' ∈ L (.bucket b') →
    ht.iptEntry c = ht.iptEntry c' → c = c'
  keys : ∀ i j key, K i = some key → K j = some key → i = j
  bound : ∀ i, K i ≠ none → i < ht.pool

theorem Rep.length_le (h : Rep ht K L) (k : HashList) : (L k).length ≤ ht.pool :=
  h.lists.length_le fun c hc => (h.pooled c).1 ⟨k, hc⟩

theorem Rep.matching_iff (h : Rep ht K L) (hc : c ∈ L (.bucket b)) :
    ht.matching v p c = true ↔ ∃ i, ht.iptEntry c = some i ∧ K i = some (v, p) := by
  obtain ⟨_, i, hi, hk⟩ := h.node b c hc
  simp only [matching, Bool.and_eq_true, beq_iff_eq]
  constructor
  · rintro ⟨rfl, rfl⟩
    exact ⟨i, hi, hk⟩
  · rintro ⟨j, hj, hkj⟩
    have he : j = i := by rw [hi] at hj; exact (Option.some.inj hj).symm
    subst he
    rw [hk] at hkj
    cases hkj
    exact ⟨rfl, rfl⟩

theorem Rep.search (h : Rep ht K L) (v p : Nat) :
    (∃ A c B i, L (ht.bucketOf v p) = A ++ c :: B ∧ ht.iptEntry c = some i ∧ K i = some (v, p) ∧
      ht.lists.search (ht.matching v p) ht.pool none (ht.lists.head (ht.bucketOf v p)) =
        .found A.getLast? c) ∨
    ((∀ i, K i ≠ some (v, p)) ∧
      ht.lists.search (ht.matching v p) ht.pool none (ht.lists.head (ht.bucketOf v p)) =
        .missing) := by
  rcases search_spec (p := ht.matching v p) (h.lists.chain (ht.bucketOf v p))
    (h.length_le (ht.bucketOf v p)) none with ⟨A, c, B, he, _, hc, hs⟩ | ⟨hA, hs⟩
  · have hm : c ∈ L (ht.bucketOf v p) := by rw [he]; simp
    obtain ⟨i, hi, hk⟩ := (h.matching_iff hm).1 hc
    refine .inl ⟨A, c, B, i, he, hi, hk, ?_⟩
    rw [hs, Option.or_none]
  · refine .inr ⟨?_, hs⟩
    intro i hk
    obtain ⟨c, hc, hi⟩ := h.chained i v p hk
    have hf := hA c hc
    rw [(h.matching_iff hc).2 ⟨i, hi, hk⟩] at hf
    cases hf

theorem Rep.getIndexFromHash_some (h : Rep ht K L) (hk : K i = some (v, p)) :
    ht.getIndexFromHash v p = .ok (some i) := by
  rcases h.search v p with ⟨A, c, B, j, _, hj, hkj, hs⟩ | ⟨hn, _⟩
  · simp only [getIndexFromHash, hs, hj, h.keys j i _ hkj hk]
  · exact (hn i hk).elim

theorem Rep.getIndexFromHash_none (h : Rep ht K L) (hk : ∀ i, K i ≠ some (v, p)) :
    ht.getIndexFromHash v p = .ok none := by
  rcases h.search v p with ⟨A, c, B, j, _, _, hkj, _⟩ | ⟨_, hs⟩
  · exact (hk j hkj).elim
  · rw [getIndexFromHash, hs]

theorem Rep.getIndexFromHash_iff (h : Rep ht K L) :
    ht.getIndexFromHash v p = .ok r ↔
      (∃ i, r = some i ∧ K i = some (v, p)) ∨ (r = none ∧ ∀ i, K i ≠ some (v, p)) := by
  by_cases hk : ∃ i, K i = some (v, p)
  · obtain ⟨i, hi⟩ := hk
    rw [h.getIndexFromHash_some hi]
    constructor
    · intro he
      cases he
      exact .inl ⟨i, rfl, hi⟩
    · rintro (⟨j, rfl, hj⟩ | ⟨_, hn⟩)
      · rw [h.keys i j _ hi hj]
      · exact (hn i hi).elim
  · have hn : ∀ i, K i ≠ some (v, p) := fun i hi => hk ⟨i, hi⟩
    rw [h.getIndexFromHash_none hn]
    constructor
    · intro he
      cases he
      exact .inr ⟨rfl, hn⟩
    · rintro (⟨j, _, hj⟩ | ⟨rfl, _⟩)
      · exact (hn j hj).elim
      · rfl

/-- An index without a key leaves a node in the pool. -/
theorem Rep.unused_ne_nil (h : Rep ht K L) (hi : i < ht.pool) (hk : K i = none) :
    L .unused ≠ [] := by
  intro hu
  have hch : ∀ c, c < ht.pool → ∃ b j, c ∈ L (.bucket b) ∧ ht.iptEntry c = some j ∧
      K j ≠ none := by
    intro c hc
    obtain ⟨k, hm⟩ := (h.pooled c).2 hc
    cases k with
    | unused => rw [hu] at hm; cases hm
    | bucket b =>
      obtain ⟨_, j, hj, hkj⟩ := h.node b c hm
      exact ⟨b, j, hm, hj, by rw [hkj]; simp⟩
  have hmap : ∀ c ∈ Finset.range ht.pool,
      (ht.iptEntry c).getD 0 ∈ (Finset.range ht.pool).erase i := by
    intro c hc
    obtain ⟨b, j, _, hj, hkj⟩ := hch c (Finset.mem_range.1 hc)
    rw [hj, Option.getD_some, Finset.mem_erase, Finset.mem_range]
    refine ⟨?_, h.bound j hkj⟩
    rintro rfl
    exact hkj hk
  have hcard : ((Finset.range ht.pool).erase i).card < (Finset.range ht.pool).card :=
    Finset.card_erase_lt_of_mem (Finset.mem_range.2 hi)
  obtain ⟨c, hc, d, hd, hne, he⟩ := Finset.exists_ne_map_eq_of_card_lt_of_maps_to hcard hmap
  obtain ⟨b, j, hcb, hj, _⟩ := hch c (Finset.mem_range.1 hc)
  obtain ⟨b', j', hdb, hj', _⟩ := hch d (Finset.mem_range.1 hd)
  rw [hj, hj', Option.getD_some, Option.getD_some] at he
  exact hne (h.single b c b' d hcb hdb (by rw [hj, hj', he]))

theorem Rep.addInHash (h : Rep ht K L) (hi : i < ht.pool) (hk : K i = none)
    (hn : ∀ j, K j ≠ some (v, p)) :
    ∃ ht' L', ht.addInHash v p i = .ok ht' ∧ ht'.size = ht.size ∧ ht'.pool = ht.pool ∧
      Rep ht' (Function.update K i (some (v, p))) L' := by
  obtain ⟨c, hc⟩ : ∃ c, ht.lists.head .unused = some c := by
    cases hh : ht.lists.head .unused with
    | none => exact (h.unused_ne_nil hi hk (h.lists.head_eq_none.1 hh)).elim
    | some c => exact ⟨c, rfl⟩
  obtain ⟨L₁, hrep₁, hmem₁⟩ := h.lists.behead_mem hc
  obtain ⟨L₂, hrep₂, hmem⟩ := hrep₁.push_removed (k := ht.bucketOf v p) hmem₁
  have hcu : c ∈ L .unused := h.lists.mem_head hc
  have hidx : ∀ b d, d ∈ L (.bucket b) → ht.iptEntry d ≠ some i := by
    intro b d hd he
    obtain ⟨_, j, hj, hkj⟩ := h.node b d hd
    rw [he] at hj
    cases hj
    rw [hk] at hkj
    cases hkj
  have hne : ∀ b d, d ∈ L (.bucket b) → d ≠ c := by
    rintro b d hd rfl
    cases h.lists.disjoint _ _ d hcu hd
  refine ⟨{ ht with
      lists := (ht.lists.behead .unused c).push (ht.bucketOf v p) c
      vad := Function.update ht.vad c v
      pid := Function.update ht.pid c p
      iptEntry := Function.update ht.iptEntry c (some i) }, L₂,
    by simp only [HashTable.addInHash, hc], rfl, rfl, ?_⟩
  constructor
  · exact hrep₂
  · intro d
    rw [← h.pooled d]
    constructor
    · rintro ⟨k, hd⟩
      rcases (hmem k d).1 hd with ⟨rfl, _⟩ | ⟨_, hd⟩
      · exact ⟨_, hcu⟩
      · exact ⟨k, hd⟩
    · rintro ⟨k, hd⟩
      by_cases hdc : d = c
      · exact ⟨_, (hmem _ d).2 (.inl ⟨hdc, rfl⟩)⟩
      · exact ⟨k, (hmem k d).2 (.inr ⟨hdc, hd⟩)⟩
  · intro b d hd
    rcases (hmem _ d).1 hd with ⟨rfl, hb⟩ | ⟨hdc, hd⟩
    · simp only [Function.update_self]
      exact ⟨HashList.bucket.inj hb, i, rfl, by simp⟩
    · simp only [Function.update_of_ne hdc]
      obtain ⟨hb, j, hj, hkj⟩ := h.node b d hd
      refine ⟨hb, j, hj, ?_⟩
      rw [Function.update_of_ne]
      · exact hkj
      · rintro rfl
        exact hidx b d hd hj
  · intro j v' p' hkj
    by_cases hji : j = i
    · subst hji
      rw [Function.update_self] at hkj
      cases hkj
      exact ⟨c, (hmem _ c).2 (.inl ⟨rfl, rfl⟩), by simp⟩
    · rw [Function.update_of_ne hji] at hkj
      obtain ⟨d, hd, hj⟩ := h.chained j v' p' hkj
      have hdc := hne _ d hd
      exact ⟨d, (hmem _ d).2 (.inr ⟨hdc, hd⟩), by simpa [hdc] using hj⟩
  · intro b d b' d' hd hd' he
    simp only at he
    rcases (hmem _ d).1 hd with ⟨rfl, _⟩ | ⟨hdc, hd⟩
    · rcases (hmem _ d').1 hd' with ⟨rfl, _⟩ | ⟨hdc', hd'⟩
      · rfl
      · rw [Function.update_self, Function.update_of_ne hdc'] at he
        exact (hidx b' d' hd' he.symm).elim
    · rcases (hmem _ d').1 hd' with ⟨rfl, _⟩ | ⟨hdc', hd'⟩
      · rw [Function.update_self, Function.update_of_ne hdc] at he
        exact (hidx b d hd he).elim
      · rw [Function.update_of_ne hdc, Function.update_of_ne hdc'] at he
        exact h.single b d b' d' hd hd' he
  · intro j j' key hj hj'
    by_cases hji : j = i
    · by_cases hji' : j' = i
      · rw [hji, hji']
      · rw [hji, Function.update_self] at hj
        rw [Function.update_of_ne hji'] at hj'
        cases hj
        exact (hn j' hj').elim
    · by_cases hji' : j' = i
      · rw [hji', Function.update_self] at hj'
        rw [Function.update_of_ne hji] at hj
        cases hj'
        exact (hn j hj).elim
      · rw [Function.update_of_ne hji] at hj
        rw [Function.update_of_ne hji'] at hj'
        exact h.keys j j' key hj hj'
  · intro j hj
    by_cases hji : j = i
    · subst hji
      exact hi
    · rw [Function.update_of_ne hji] at hj
      exact h.bound j hj

theorem Rep.removeFromHash (h : Rep ht K L) (hk : K i = some (v, p)) :
    ∃ ht' L', ht.removeFromHash v p = .ok ht' ∧ ht'.size = ht.size ∧ ht'.pool = ht.pool ∧
      Rep ht' (Function.update K i none) L' := by
  rcases h.search v p with ⟨A, c, B, j, hL, hj, hkj, hs⟩ | ⟨hn, _⟩
  swap
  · exact (hn i hk).elim
  have hji := h.keys j i _ hkj hk
  subst hji
  obtain ⟨L₁, hrep₁, hmem₁⟩ := h.lists.unlink_mem hL
  obtain ⟨L₂, hrep₂, hmem⟩ := hrep₁.push_removed (k := .unused) hmem₁
  have hcb : c ∈ L (ht.bucketOf v p) := by rw [hL]; simp
  have hcell : ∀ b d, d ∈ L₂ (.bucket b) → d ≠ c ∧ d ∈ L (.bucket b) := by
    intro b d hd
    rcases (hmem _ d).1 hd with ⟨_, hb⟩ | hd
    · cases hb
    · exact hd
  refine ⟨{ ht with
      lists := (ht.lists.unlink (ht.bucketOf v p) A.getLast? c).push .unused c
      vad := Function.update ht.vad c 0
      pid := Function.update ht.pid c 0
      iptEntry := if A.getLast?.isSome then Function.update ht.iptEntry c none else ht.iptEntry },
    L₂, by simp only [HashTable.removeFromHash, hs], rfl, rfl, ?_⟩
  have hipt : ∀ d, d ≠ c → (if A.getLast?.isSome then Function.update ht.iptEntry c none
      else ht.iptEntry) d = ht.iptEntry d := by
    intro d hd
    split
    · rw [Function.update_of_ne hd]
    · rfl
  constructor
  · exact hrep₂
  · intro d
    rw [← h.pooled d]
    constructor
    · rintro ⟨k, hd⟩
      rcases (hmem k d).1 hd with ⟨rfl, _⟩ | ⟨_, hd⟩
      · exact ⟨_, hcb⟩
      · exact ⟨k, hd⟩
    · rintro ⟨k, hd⟩
      by_cases hdc : d = c
      · exact ⟨_, (hmem _ d).2 (.inl ⟨hdc, rfl⟩)⟩
      · exact ⟨k, (hmem k d).2 (.inr ⟨hdc, hd⟩)⟩
  · intro b d hd
    obtain ⟨hdc, hd⟩ := hcell b d hd
    simp only [Function.update_of_ne hdc, hipt d hdc]
    obtain ⟨hb, m, hm, hkm⟩ := h.node b d hd
    refine ⟨hb, m, hm, ?_⟩
    rw [Function.update_of_ne]
    · exact hkm
    · rintro rfl
      exact hdc (h.single b d _ c hd hcb (hm.trans hj.symm))
  · intro m v' p' hkm
    by_cases hmj : m = j
    · subst hmj
      rw [Function.update_self] at hkm
      cases hkm
    · rw [Function.update_of_ne hmj] at hkm
      obtain ⟨d, hd, hm⟩ := h.chained m v' p' hkm
      have hdc : d ≠ c := by
        rintro rfl
        rw [hj] at hm
        exact hmj (Option.some.inj hm).symm
      exact ⟨d, (hmem _ d).2 (.inr ⟨hdc, hd⟩), (hipt d hdc).trans hm⟩
  · intro b d b' d' hd hd' he
    obtain ⟨hdc, hd⟩ := hcell b d hd
    obtain ⟨hdc', hd'⟩ := hcell b' d' hd'
    simp only [hipt d hdc, hipt d' hdc'] at he
    exact h.single b d b' d' hd hd' he
  · intro m m' key hm hm'
    have hup : ∀ m, Function.update K j none m = some key → K m = some key := by
      intro m hm
      by_cases hmj : m = j
      · rw [hmj, Function.update_self] at hm
        cases hm
      · rwa [Function.update_of_ne hmj] at hm
    exact h.keys m m' key (hup m hm) (hup m' hm')
  · intro m hm
    by_cases hmj : m = j
    · rw [hmj, Function.update_self] at hm
      exact (hm rfl).elim
    · rw [Function.update_of_ne hmj] at hm
      exact h.bound m hm

theorem initLists_rep (n : Nat) :
    ∃ L, (initLists n).Rep L ∧ ∀ k c, c ∈ L k ↔ k = .unused ∧ c < n := by
  induction n with
  | zero =>
    refine ⟨fun _ => [], ⟨fun _ => rfl, fun _ => List.nodup_nil, fun _ _ _ h => by cases h⟩, ?_⟩
    simp
  | succ n ih =>
    obtain ⟨L, hL, hmem⟩ := ih
    obtain ⟨M, hM, hmem'⟩ := hL.push_mem (k := .unused) (c := n) (by simp [hmem])
    refine ⟨M, hM, fun k c => ?_⟩
    rw [hmem', hmem]
    constructor
    · rintro (⟨rfl, rfl⟩ | ⟨rfl, hc⟩)
      · exact ⟨rfl, Nat.lt_succ_self _⟩
      · exact ⟨rfl, Nat.lt_succ_of_lt hc⟩
    · rintro ⟨rfl, hc⟩
      rcases Nat.lt_succ_iff_lt_or_eq.1 hc with hc | rfl
      · exact .inr ⟨rfl, hc⟩
      · exact .inl ⟨rfl, rfl⟩

theorem init_rep (n : Nat) : ∃ L, Rep (init n) (fun _ => none) L := by
  obtain ⟨L, hL, hmem⟩ := initLists_rep n
  refine ⟨L, hL, ?_, ?_, ?_, ?_, ?_, ?_⟩
  · intro c
    constructor
    · rintro ⟨k, hk⟩
      exact ((hmem k c).1 hk).2
    · intro hc
      exact ⟨.unused, (hmem _ c).2 ⟨rfl, hc⟩⟩
  · intro b c hc
    cases ((hmem _ c).1 hc).1
  · intro i v p hk
    cases hk
  · intro b c b' c' hc
    cases ((hmem _ c).1 hc).1
  · intro i j key hk
    cases hk
  · intro i hk
    exact (hk rfl).elim

end HashTable

/-- On user addresses and small pids the index computed in signed arithmetic is in the table. -/
theorem getHashFunc_range (hv : v < 2147483648) (hp : p < 2147483648) (hs : 0 < size)
    (hs' : size < 2147483648) : 0 ≤ getHashFunc size v p ∧ getHashFunc size v p < size := by
  have hmsb : ∀ n, n < 2147483648 → (BitVec.ofNat 32 n).msb = false := by
    intro n hn
    rw [BitVec.msb_eq_false_iff_two_mul_lt, BitVec.toNat_ofNat]
    omega
  have hmod : ∀ n m, n < 2147483648 → m < 2147483648 →
      ((BitVec.ofNat 32 n).srem (BitVec.ofNat 32 m)).toNat = n % m := by
    intro n m hn hm
    simp only [BitVec.srem, hmsb n hn, hmsb m hm, BitVec.umod_eq, BitVec.toNat_umod,
      BitVec.toNat_ofNat]
    congr 1 <;> omega
  have hval : ((BitVec.ofNat 32 v).srem 24#32 + (BitVec.ofNat 32 p).srem 8#32 <<< 8).msb =
      false := by
    rw [BitVec.msb_eq_false_iff_two_mul_lt, BitVec.toNat_add, BitVec.toNat_shiftLeft,
      hmod v 24 hv (by omega), hmod p 8 hp (by omega), Nat.shiftLeft_eq]
    omega
  unfold getHashFunc
  simp only
  generalize hx : (BitVec.ofNat 32 v).srem 24#32 + (BitVec.ofNat 32 p).srem 8#32 <<< 8 = x at hval ⊢
  have hxor : (x ^^^ 1234567891#32).msb = false := by
    rw [BitVec.msb_xor, hval]
    rfl
  rw [BitVec.toInt_srem, BitVec.toInt_eq_toNat_of_msb hxor,
    BitVec.toInt_eq_toNat_of_msb (hmsb size hs'), BitVec.toNat_ofNat,
    Nat.mod_eq_of_lt (by omega : size < 2 ^ 32), ← Int.ofNat_tmod]
  constructor
  · omega
  · exact_mod_cast Nat.mod_lt _ hs

end Clape
