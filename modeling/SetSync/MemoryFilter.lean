import SetSync.BloomBatch

/-!
# The filter in memory

`BloomFilter`, which keeps its bits in memory.  It takes the indices of a position apart in another
place than `FSBloomFilter`, so that its `addAll` sets the bits that `add` sets.

    add           setBits at the positions of the key, one element more              (add_ok)
    addAll        fails as one of the single calls fails, or does what they do   (addAll_eq_adds)
    containsAll   the index of the first key that is missing, or the count   (containsAll_agrees)
-/

namespace SetSync

open Program

variable {d : Nat}

/-- The array is allocated with `(filterSize_ + (BYTESIZE - 1)) / BYTESIZE` bytes. -/
@[ext] structure BloomFilter where
  filterSize : Nat
  itemCount : Nat
  functionCount : Nat
  hardMaximum : Bool
  maxElements : Nat
  bitArray : Bytes
  length_bitArray : bitArray.length = (filterSize + 7) / 8

abbrev BloomFilterM (d : Nat) (α : Type) : Type := Prog BloomFilter (Digest d × Digest d) Exn α

namespace BloomFilter

def init (filterSize functionCount : Nat) (hardMaximum : Bool) (numberOfElements : Nat) :
    BloomFilter where
  filterSize := filterSize
  itemCount := 0
  functionCount := functionCount
  hardMaximum := hardMaximum
  maxElements := numberOfElements
  bitArray := List.replicate ((filterSize + 7) / 8) 0
  length_bitArray := List.length_replicate

/-- `bit_index` and `bit`. -/
def computeIndices (f : BloomFilter) (hash : Nat) : Nat × Nat :=
  (hash % f.filterSize, hash % f.filterSize % 8)

/-- `bitArray_[bit_index / BYTESIZE] |= bit_mask[bit]` for the indices of a hash. -/
def mark (f : BloomFilter) (hash : Nat) : BloomFilter :=
  let (bit_index, bit) := f.computeIndices hash
  { f with
    bitArray := f.bitArray.modify (bit_index / 8) (· ||| FSBloomFilter.bit_mask.getD bit 0)
    length_bitArray := (List.length_modify ..).trans f.length_bitArray }

def clear : BloomFilterM d Unit := Prog.modify fun f =>
  init f.filterSize f.functionCount f.hardMaximum f.maxElements

/-- The loop of `add`, over the given functions. -/
def addBits (key : Digest d) : List Nat → BloomFilterM d Unit
  | [] => pure ()
  | i :: is => do
    let pos ← DoubleHashingScheme.hash key i
    Prog.modify fun f => f.mark pos
    addBits key is

def add (key : Digest d) : BloomFilterM d Unit := do
  let f ← Prog.get
  if f.hardMaximum && f.maxElements ≤ f.itemCount then
    throw (.text "Maximum of Elements reached, adding failed")
  else do
    addBits key (List.range f.functionCount)
    Prog.modify fun f =>
      if f.itemCount < 2 ^ 64 - 1 then { f with itemCount := f.itemCount + 1 } else f

def addAll (keys : List (Digest d)) : BloomFilterM d Unit := do
  let f ← Prog.get
  if f.hardMaximum && f.maxElements < (f.itemCount + keys.length) % 2 ^ 64 then
    throw (.text "Maximum of Elements reached, adding failed")
  else do
    let hashes ← DoubleHashingScheme.hashAll f.functionCount keys
    Prog.modify fun f => (hashes.insertionSort (· ≤ ·)).foldl mark f
    Prog.modify fun f =>
      if (f.itemCount + keys.length) % 2 ^ 64 < 2 ^ 64 - 1 then
        { f with itemCount := (f.itemCount + keys.length) % 2 ^ 64 }
      else { f with itemCount := 2 ^ 64 - 1 }

/-- The loop of `contains`, over the given functions. -/
def containsBits (key : Digest d) : List Nat → BloomFilterM d Bool
  | [] => pure true
  | i :: is => do
    let pos ← DoubleHashingScheme.hash key i
    let f ← Prog.get
    let (bit_index, bit) := f.computeIndices pos
    if f.bitArray.getD (bit_index / 8) 0 &&& FSBloomFilter.bit_mask.getD bit 0
        != FSBloomFilter.bit_mask.getD bit 0 then pure false
    else containsBits key is

def contains (key : Digest d) : BloomFilterM d Bool := do
  let f ← Prog.get
  containsBits key (List.range f.functionCount)

/-- The loop of `containsAll`, from the key `i` of the array on. -/
def containsFrom : Nat → List (Digest d) → BloomFilterM d Nat
  | i, [] => pure i
  | i, key :: keys => do
    if ← contains key then containsFrom (i + 1) keys else pure i

def containsAll (keys : List (Digest d)) : BloomFilterM d Nat := containsFrom 0 keys

/-! The operators are those for another filter of the class: `dynamic_cast` does not fail. -/

def andAssign (f filter : BloomFilter) : BloomFilter :=
  if f.filterSize = filter.filterSize then
    { f with
      bitArray := bytesAnd f.bitArray filter.bitArray
      length_bitArray := List.length_mapIdx.trans f.length_bitArray }
  else f

def orAssign (f filter : BloomFilter) : BloomFilter :=
  if f.filterSize = filter.filterSize then
    { f with
      bitArray := bytesOr f.bitArray filter.bitArray
      length_bitArray := List.length_mapIdx.trans f.length_bitArray }
  else f

def operatorEq (f filter : BloomFilter) : Bool :=
  if f.filterSize ≠ filter.filterSize then false
  else bitsEqual f.filterSize f.bitArray filter.bitArray

def operatorNe (f filter : BloomFilter) : Bool :=
  if f.filterSize ≠ filter.filterSize then true
  else bitsDiffer f.filterSize f.bitArray filter.bitArray

/-! ## `add` and `addAll` -/

/-- The filter with the bits of the positions. -/
def marked (f : BloomFilter) (ps : List Nat) : BloomFilter :=
  { f with
    bitArray := setBits f.bitArray ps
    length_bitArray := (length_setBits ..).trans f.length_bitArray }

/-- The filter with `n` elements more. -/
def grown (f : BloomFilter) (n : Nat) : BloomFilter := { f with itemCount := counted f.itemCount n }

theorem marked_grown (f : BloomFilter) (ps qs : List Nat) (m n : Nat) :
    (((f.marked ps).grown m).marked qs).grown n = (f.marked (ps ++ qs)).grown (m + n) := by
  have hcount : counted (counted f.itemCount m) n = counted f.itemCount (m + n) := by
    unfold counted
    omega
  exact BloomFilter.ext rfl hcount rfl rfl rfl (setBits_append _ _ _).symm

theorem mark_bits (f : BloomFilter) (hash : Nat) :
    (f.mark hash).bitArray = bitSet f.bitArray (hash % f.filterSize) := by
  show f.bitArray.modify _ _ = _
  simp only [bit_mask_mod]
  rfl

theorem foldl_mark_eq (f : BloomFilter) (hashes : List Nat) :
    hashes.foldl mark f = f.marked (hashes.map (· % f.filterSize)) := by
  induction hashes generalizing f with
  | nil => rfl
  | cons hash hashes ih =>
    rw [List.foldl_cons, ih]
    refine BloomFilter.ext rfl rfl rfl rfl rfl ?_
    show setBits (f.mark hash).bitArray _ = _
    rw [mark_bits]
    rfl

/-- The counter of `add`. -/
theorem grown_one {f : BloomFilter} (h : f.itemCount < 2 ^ 64) :
    (if f.itemCount < 2 ^ 64 - 1 then { f with itemCount := f.itemCount + 1 } else f) = f.grown 1 := by
  unfold grown counted
  split
  · rw [Nat.min_eq_left (by omega)]
  · rw [Nat.min_eq_right (by omega), show 2 ^ 64 - 1 = f.itemCount by omega]

/-- The counter of `addAll`. -/
theorem grown_all {f : BloomFilter} {n : Nat} (h : f.itemCount + n < 2 ^ 64) :
    (if (f.itemCount + n) % 2 ^ 64 < 2 ^ 64 - 1 then
      { f with itemCount := (f.itemCount + n) % 2 ^ 64 }
    else { f with itemCount := 2 ^ 64 - 1 }) = f.grown n := by
  rw [Nat.mod_eq_of_lt h]
  unfold grown counted
  split
  · rw [Nat.min_eq_left (by omega)]
  · rw [Nat.min_eq_right (by omega)]

/-- The hard maximum does not admit `n` elements more. -/
def Refused (f : BloomFilter) (n : Nat) : Prop :=
  f.hardMaximum = true ∧ f.maxElements < f.itemCount + n

/-- The check of `add`. -/
theorem refused_one (f : BloomFilter) :
    (f.hardMaximum && decide (f.maxElements ≤ f.itemCount)) = true ↔ f.Refused 1 := by
  rw [Bool.and_eq_true, decide_eq_true_eq]
  exact and_congr_right fun _ => Nat.lt_succ_iff.symm

/-- The check of `addAll`. -/
theorem refused_all {f : BloomFilter} {n : Nat} (h : f.itemCount + n < 2 ^ 64) :
    (f.hardMaximum && decide (f.maxElements < (f.itemCount + n) % 2 ^ 64)) = true ↔ f.Refused n := by
  rw [Nat.mod_eq_of_lt h, Bool.and_eq_true, decide_eq_true_eq]
  rfl

section Digests

variable (hd : 16 ≤ d)
include hd

theorem addBits_eq (key : Digest d) (is : List Nat) (f : BloomFilter) :
    addBits key is f = ⟨.ok (), f.marked (is.map fun i => doubleHash key i % f.filterSize), []⟩ := by
  have hmap : (is.map fun i => doubleHash key i % f.filterSize)
      = (is.map (doubleHash key)).map (· % f.filterSize) := by
    rw [List.map_map]
    rfl
  rw [hmap, ← foldl_mark_eq]
  clear hmap
  induction is generalizing f with
  | nil => rfl
  | cons i is ih =>
    unfold addBits
    rw [Prog.bind_of_ok (hash_ok hd key i f), Prog.bind_of_ok (Prog.modify_apply _ f), ih]
    rfl

theorem add_ok (key : Digest d) {f : BloomFilter} (hcount : f.itemCount < 2 ^ 64)
    (h : ¬f.Refused 1) :
    add key f
      = ⟨.ok (), (f.marked (positions f.filterSize f.functionCount key)).grown 1, []⟩ := by
  have hmarked : (f.marked (positions f.filterSize f.functionCount key)).itemCount < 2 ^ 64 := hcount
  unfold add
  rw [Prog.bind_of_ok (Prog.get_apply f), if_neg fun hr => h ((refused_one f).mp hr),
    Prog.bind_of_ok (addBits_eq hd key _ f), Prog.modify_apply]
  unfold positions at hmarked
  rw [grown_one hmarked]
  rfl

/-- Successive calls of `add`, none of which is refused. -/
theorem adds_ok (keys : List (Digest d)) {f : BloomFilter} (hcount : f.itemCount < 2 ^ 64)
    (h : ¬f.Refused keys.length) :
    Prog.each add keys f = ⟨.ok (keys.map fun _ => ()),
      (f.marked (keys.flatMap (positions f.filterSize f.functionCount))).grown keys.length, []⟩ := by
  induction keys generalizing f with
  | nil =>
    have hzero : f = (f.marked []).grown 0 := by
      refine BloomFilter.ext rfl ?_ rfl rfl rfl rfl
      show f.itemCount = counted f.itemCount 0
      unfold counted
      omega
    exact congrArg (fun g => Run.mk (.ok []) g []) hzero
  | cons key keys ih =>
    rw [List.length_cons] at h
    have hcounted : counted f.itemCount 1 < 2 ^ 64 ∧ counted f.itemCount 1 ≤ f.itemCount + 1 := by
      unfold counted
      omega
    have hfirst : ¬f.Refused 1 := fun hr => h ⟨hr.1, by have := hr.2; omega⟩
    unfold Prog.each
    rw [Prog.bind_of_ok (add_ok hd key hcount hfirst), Prog.bind_of_ok (ih hcounted.1 ?_),
      marked_grown, Nat.add_comm 1]
    · rfl
    · rintro ⟨hmax, hlt⟩
      have hlt' : f.maxElements < counted f.itemCount 1 + keys.length := hlt
      exact h ⟨hmax, by omega⟩

theorem addAll_eq (keys : List (Digest d)) {f : BloomFilter}
    (hcount : f.itemCount + keys.length < 2 ^ 64) (h : ¬f.Refused keys.length) :
    addAll keys f = ⟨.ok (),
      (f.marked (keys.flatMap (positions f.filterSize f.functionCount))).grown keys.length, []⟩ := by
  have hperm := (List.perm_insertionSort (· ≤ ·) (hashesOf f.functionCount keys)).map (· % f.filterSize)
  have hmarked : ((hashesOf f.functionCount keys).insertionSort (· ≤ ·)).foldl mark f
      = f.marked (keys.flatMap (positions f.filterSize f.functionCount)) := by
    rw [foldl_mark_eq, ← hashesOf_mod]
    exact BloomFilter.ext rfl rfl rfl rfl rfl (setBits_perm hperm f.bitArray)
  have hcount' : (f.marked (keys.flatMap (positions f.filterSize f.functionCount))).itemCount
      + keys.length < 2 ^ 64 := hcount
  unfold addAll
  rw [Prog.bind_of_ok (Prog.get_apply f), if_neg fun hr => h ((refused_all hcount).mp hr),
    Prog.bind_of_ok (hashAll_ok hd f.functionCount keys f), Prog.bind_of_ok (Prog.modify_apply _ f),
    Prog.modify_apply, hmarked, grown_all hcount']
  rfl

end Digests

/-! ## The calls that fail -/

/-- Digests that are too short for the hash functions. -/
theorem hash_error {σ : Type} (hd : d < 16) (key : Digest d) (i : Nat) (s : σ) :
    DoubleHashingScheme.hash key i s = ⟨.error (.text "Must be implemented"), s, []⟩ := by
  unfold DoubleHashingScheme.hash
  rw [if_pos hd]
  rfl

theorem hashAll_error {σ : Type} (hd : d < 16) {c : Nat} (hc : 1 ≤ c) {keys : List (Digest d)}
    (hkeys : keys ≠ []) (s : σ) :
    DoubleHashingScheme.hashAll c keys s = ⟨.error (.text "Must be implemented"), s, []⟩ := by
  obtain ⟨c, rfl⟩ := Nat.exists_eq_add_of_le' hc
  obtain ⟨key, keys, rfl⟩ := List.exists_cons_of_ne_nil hkeys
  have hkey : Prog.each (DoubleHashingScheme.hash (σ := σ) key) (List.range (c + 1)) s
      = ⟨.error (.text "Must be implemented"), s, []⟩ := by
    rw [List.range_succ_eq_map, Prog.each]
    exact Prog.bind_of_error (hash_error hd key 0 s) _
  unfold DoubleHashingScheme.hashAll
  rw [Prog.each, Prog.bind_of_error (Prog.bind_of_error hkey _)]

/-- A single call fails at short digests, or at the hard maximum. -/
theorem add_error (key : Digest d) {f : BloomFilter} (hfun : 1 ≤ f.functionCount)
    (h : d < 16 ∨ f.Refused 1) : ∃ e, add key f = ⟨.error e, f, []⟩ := by
  unfold add
  rw [Prog.bind_of_ok (Prog.get_apply f)]
  by_cases hr : f.Refused 1
  · rw [if_pos ((refused_one f).mpr hr)]
    exact ⟨_, rfl⟩
  · rw [if_neg fun hc => hr ((refused_one f).mp hc)]
    obtain ⟨c, hc⟩ := Nat.exists_eq_add_of_le' hfun
    rw [hc, List.range_succ_eq_map, addBits,
      Prog.bind_of_error (Prog.bind_of_error (hash_error (h.resolve_right hr) key 0 f) _)]
    exact ⟨_, rfl⟩

theorem addAll_error {keys : List (Digest d)} (hkeys : keys ≠ []) {f : BloomFilter}
    (hfun : 1 ≤ f.functionCount) (hcount : f.itemCount + keys.length < 2 ^ 64)
    (h : d < 16 ∨ f.Refused keys.length) : ∃ e, addAll keys f = ⟨.error e, f, []⟩ := by
  unfold addAll
  rw [Prog.bind_of_ok (Prog.get_apply f)]
  by_cases hr : f.Refused keys.length
  · rw [if_pos ((refused_all hcount).mpr hr)]
    exact ⟨_, rfl⟩
  · rw [if_neg fun hc => hr ((refused_all hcount).mp hc),
      Prog.bind_of_error (hashAll_error (h.resolve_right hr) hfun hkeys f)]
    exact ⟨_, rfl⟩

/-- Some call of the run is the one too many. -/
theorem adds_error {keys : List (Digest d)} (hkeys : keys ≠ []) {f : BloomFilter}
    (hfun : 1 ≤ f.functionCount) (hcount : f.itemCount + keys.length < 2 ^ 64)
    (h : d < 16 ∨ f.Refused keys.length) : ∃ e, (Prog.each add keys f).outcome = .error e := by
  induction keys generalizing f with
  | nil => exact absurd rfl hkeys
  | cons key keys ih =>
    unfold Prog.each
    by_cases hfirst : d < 16 ∨ f.Refused 1
    · obtain ⟨e, he⟩ := add_error key hfun hfirst
      exact ⟨e, by rw [Prog.bind_of_error he]⟩
    · have hd : 16 ≤ d := Nat.le_of_not_lt fun hlt => hfirst (Or.inl hlt)
      have hr : f.Refused (keys.length + 1) := h.resolve_left (Nat.not_lt.mpr hd)
      have hone : ¬f.Refused 1 := fun hc => hfirst (Or.inr hc)
      rw [List.length_cons] at hcount
      have hcounted : counted f.itemCount 1 = f.itemCount + 1 := by
        unfold counted
        omega
      -- the maximum admits this key, so one of the others is refused
      have hrest : keys ≠ [] := by
        rintro rfl
        exact hone hr
      rw [Prog.bind_of_ok (add_ok hd key (by omega) hone)]
      generalize hg : (f.marked (positions f.filterSize f.functionCount key)).grown 1 = g
      have hitems : g.itemCount = f.itemCount + 1 := by
        rw [← hg]
        exact hcounted
      have hmax : g.Refused keys.length := by
        subst hg
        refine ⟨hr.1, ?_⟩
        have := hr.2
        show f.maxElements < _
        omega
      have hfun' : 1 ≤ g.functionCount := by
        rw [← hg]
        exact hfun
      obtain ⟨e, he⟩ := ih hrest hfun' (by omega) (Or.inr hmax)
      exact ⟨e, Prog.bind_outcome_error he⟩

/-- The program throws. -/
def Throws {α : Type} (m : BloomFilterM d α) (f : BloomFilter) : Prop :=
  ∃ e, (m f).outcome = .error e

/-- **An array of keys is added as one key after the other.** -/
theorem addAll_eq_adds (f : BloomFilter) (hfun : 1 ≤ f.functionCount) (keys : List (Digest d))
    (hkeys : 1 ≤ keys.length) (hcount : f.itemCount + keys.length < 2 ^ 64) :
    (Throws (addAll keys) f ↔ Throws (Prog.each add keys) f) ∧
    (Throws (addAll keys) f → (addAll keys f).state = f) ∧
    (¬Throws (addAll keys) f → (addAll keys f).outcome = .ok () ∧
      (addAll keys f).state.bitArray = (Prog.each add keys f).state.bitArray ∧
      (addAll keys f).state.itemCount = (Prog.each add keys f).state.itemCount) := by
  have hne : keys ≠ [] := List.ne_nil_of_length_pos hkeys
  unfold Throws
  by_cases h : d < 16 ∨ f.Refused keys.length
  · obtain ⟨e, he⟩ := addAll_error hne hfun hcount h
    rw [he]
    refine ⟨⟨fun _ => adds_error hne hfun hcount h, fun _ => ⟨e, rfl⟩⟩, fun _ => rfl, fun hn => ?_⟩
    exact absurd ⟨e, rfl⟩ hn
  · have hd : 16 ≤ d := Nat.le_of_not_lt fun hlt => h (Or.inl hlt)
    have hr : ¬f.Refused keys.length := fun hr => h (Or.inr hr)
    rw [addAll_eq hd keys hcount hr, adds_ok hd keys (by omega) hr]
    refine ⟨⟨?_, ?_⟩, ?_, fun _ => ⟨rfl, rfl, rfl⟩⟩
    · rintro ⟨e, he⟩
      cases he
    · rintro ⟨e, he⟩
      cases he
    · rintro ⟨e, he⟩
      cases he

theorem addAll_eq_adds_sample :
    (Throws (addAll [wordKey 8 1, wordKey 3 1]) (init 9 2 true 1) ↔
      Throws (Prog.each add [wordKey 8 1, wordKey 3 1]) (init 9 2 true 1)) ∧
    (addAll [wordKey 8 1, wordKey 3 1] (init 9 2 true 2)).state.bitArray
      = (Prog.each add [wordKey 8 1, wordKey 3 1] (init 9 2 true 2)).state.bitArray := by
  refine ⟨(addAll_eq_adds _ (by decide) _ (by decide) (by decide)).1, ?_⟩
  refine ((addAll_eq_adds (init 9 2 true 2) (by decide) _ (by decide) (by decide)).2.2 ?_).2.1
  rintro ⟨e, he⟩
  rw [addAll_eq (by decide) _ (by decide) fun hr => absurd hr.2 (by decide)] at he
  cases he

/-! ## `contains` and `containsAll` -/

section Queries

variable (hd : 16 ≤ d) {f : BloomFilter}
include hd

theorem containsBits_eq (key : Digest d) (is : List Nat) :
    containsBits key is f = ⟨.ok (decide (∀ i ∈ is,
      bitTest f.bitArray (doubleHash key i % f.filterSize) = true)), f, []⟩ := by
  induction is with
  | nil => simp [containsBits]
  | cons i is ih =>
    unfold containsBits
    rw [Prog.bind_of_ok (hash_ok hd key i f), Prog.bind_of_ok (Prog.get_apply f)]
    simp only [computeIndices, bit_mask_mod, and_bitMask]
    have htest : (f.bitArray.getD (doubleHash key i % f.filterSize / 8) 0
        &&& bitMask (doubleHash key i % f.filterSize) != 0)
        = bitTest f.bitArray (doubleHash key i % f.filterSize) := rfl
    rw [htest]
    cases hb : bitTest f.bitArray (doubleHash key i % f.filterSize)
    · simp [hb]
    · simp [hb, ih]

theorem contains_eq (key : Digest d) :
    contains key f = ⟨.ok (decide (∀ p ∈ positions f.filterSize f.functionCount key,
      bitTest f.bitArray p = true)), f, []⟩ := by
  unfold contains
  rw [Prog.bind_of_ok (Prog.get_apply f), containsBits_eq hd]
  simp [positions]

/-- The answer is the index of the first key that is missing. -/
theorem containsFrom_ok (i : Nat) (keys : List (Digest d)) :
    containsFrom i keys f = ⟨.ok (i + keys.findIdx fun key =>
      !decide (∀ p ∈ positions f.filterSize f.functionCount key, bitTest f.bitArray p = true)),
      f, []⟩ := by
  induction keys generalizing i with
  | nil => rfl
  | cons key keys ih =>
    unfold containsFrom
    rw [Prog.bind_of_ok (contains_eq hd key), List.findIdx_cons]
    by_cases hfound : ∀ p ∈ positions f.filterSize f.functionCount key, bitTest f.bitArray p = true
    · rw [decide_eq_true hfound, if_pos rfl, ih, Bool.not_true, cond_false, Nat.add_right_comm,
        Nat.add_assoc]
      rfl
    · rw [decide_eq_false hfound, if_neg Bool.false_ne_true, Bool.not_false, cond_true, Nat.add_zero]
      rfl

/-- `containsAll` returns the count when each key is contained, and less otherwise. -/
theorem containsAll_agrees (f : BloomFilter) (keys : List (Digest d)) :
    ∃ n, (containsAll keys f).outcome = .ok n ∧
      (n = keys.length ↔ ∀ key ∈ keys, (contains key f).outcome = .ok true) ∧ n ≤ keys.length := by
  unfold containsAll
  rw [containsFrom_ok hd, Nat.zero_add]
  refine ⟨_, rfl, ?_, List.findIdx_le_length⟩
  rw [List.findIdx_eq_length]
  apply forall₂_congr
  intro key _
  rw [contains_eq hd, Bool.not_eq_false', Outcome.ok.injEq]

end Queries

end BloomFilter

end SetSync
