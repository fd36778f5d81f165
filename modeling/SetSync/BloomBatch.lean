import SetSync.BloomSpec
import SetSync.Lib.SortedSearch

/-!
# Arrays of keys

`FSBloomFilter::addAll` and `containsAll` take the hashes of all keys at once and sort them.

    addAll         sets the bit `place n h` of each hash; `add` sets the bit `h % n`.  They are the same
                   where `filterSize_` is a multiple of 8                         (addAll_is_adds_iff)
    containsAll    stops at the first clear bit of the sorted positions, and returns its index, or 1
                                                                             (containsAll_agrees_iff)
-/

namespace SetSync

open Program

variable {d : Nat}

/-! ## Setting bits in any order -/

theorem bitSet_comm (a : Bytes) (b c : Nat) : bitSet (bitSet a b) c = bitSet (bitSet a c) b := by
  unfold bitSet
  by_cases h : bitSlot b = bitSlot c
  · rw [h, List.modify_modify_eq, List.modify_modify_eq]
    congr 1
    funext x
    show x ||| bitMask b ||| bitMask c = x ||| bitMask c ||| bitMask b
    rw [UInt8.or_assoc, UInt8.or_assoc, UInt8.or_comm (bitMask b)]
  · exact List.modify_modify_ne _ _ _ h

theorem setBits_perm {ps qs : List Nat} (h : ps.Perm qs) (a : Bytes) : setBits a ps = setBits a qs :=
  h.foldl_eq' (fun x _ y _ b => bitSet_comm b x y) a

theorem setBits_append (a : Bytes) (ps qs : List Nat) : setBits a (ps ++ qs) = setBits (setBits a ps) qs :=
  List.foldl_append

/-- Two ways to set bits agree if each sets what the other sets, or what was set before. -/
theorem setBits_eq_iff {a : Bytes} {ps qs : List Nat} (hp : ∀ p ∈ ps, p < 8 * a.length)
    (hq : ∀ q ∈ qs, q < 8 * a.length) : setBits a ps = setBits a qs ↔
      (∀ p ∈ ps, bitTest a p = true ∨ p ∈ qs) ∧ ∀ q ∈ qs, bitTest a q = true ∨ q ∈ ps := by
  constructor
  · intro h
    have hbit : ∀ r, (bitTest a r = true ∨ r ∈ ps) ↔ (bitTest a r = true ∨ r ∈ qs) := by
      intro r
      have hr : bitTest (setBits a ps) r = bitTest (setBits a qs) r := by rw [h]
      rw [bitTest_setBits hp, bitTest_setBits hq, Bool.eq_iff_iff, Bool.or_eq_true, Bool.or_eq_true,
        decide_eq_true_eq, decide_eq_true_eq] at hr
      exact hr
    constructor
    · intro p hmem
      exact (hbit p).mp (Or.inr hmem)
    · intro q hmem
      exact (hbit q).mpr (Or.inr hmem)
  · rintro ⟨h, h'⟩
    apply bytes_eq_of_bits
    · rw [length_setBits, length_setBits]
    · intro r _
      rw [bitTest_setBits hp, bitTest_setBits hq, Bool.eq_iff_iff, Bool.or_eq_true, Bool.or_eq_true,
        decide_eq_true_eq, decide_eq_true_eq]
      constructor
      · rintro (hr | hr)
        · exact Or.inl hr
        · exact h r hr
      · rintro (hr | hr)
        · exact Or.inl hr
        · exact h' r hr

/-! ## The hashes of an array -/

/-- The hashes of all keys, as `addAll` and `containsAll` compute them. -/
def hashesOf (functionCount : Nat) (keys : List (Digest d)) : List Nat :=
  keys.flatMap fun key => (List.range functionCount).map (doubleHash key)

theorem hashesOf_mod (n c : Nat) (keys : List (Digest d)) :
    (hashesOf c keys).map (· % n) = keys.flatMap (positions n c) := by
  simp only [hashesOf, List.map_flatMap, List.map_map, Function.comp_def]
  rfl

theorem hashAll_ok {σ : Type} (hd : 16 ≤ d) (c : Nat) (keys : List (Digest d)) (s : σ) :
    DoubleHashingScheme.hashAll c keys s = ⟨.ok (hashesOf c keys), s, []⟩ := by
  unfold DoubleHashingScheme.hashAll
  have hkey : ∀ key : Digest d, Prog.each (DoubleHashingScheme.hash key) (List.range c) s
      = ⟨.ok ((List.range c).map (doubleHash key)), s, []⟩ := by
    intro key
    exact Prog.each_of_eq fun i _ => hash_ok hd key i s
  rw [Prog.bind_of_ok (Prog.each_of_eq fun key _ => hkey key), Prog.pure_apply, Run.after_nil, hashesOf,
    List.flatMap_def]

/-- The bit that `addAll` sets for a hash. -/
def place (n hash : Nat) : Nat := 8 * (hash % n / 8) + hash % 8

theorem place_eq {n : Nat} (h : 8 ∣ n) (hash : Nat) : place n hash = hash % n := by
  have hmod : hash % n % 8 = hash % 8 := Nat.mod_mod_of_dvd hash h
  unfold place
  omega

theorem mark_eq (f : FSBloomFilter) (hash : Nat) :
    f.mark hash = { f with bitArray := bitSet f.bitArray (place f.filterSize hash) } := by
  have hslot : place f.filterSize hash / 8 = hash % f.filterSize / 8 := by
    unfold place
    omega
  have hmask : bitMask (place f.filterSize hash) = bitMask hash := by
    unfold bitMask place
    rw [show (8 * (hash % f.filterSize / 8) + hash % 8) % 8 = hash % 8 by omega]
  unfold FSBloomFilter.mark
  simp only [FSBloomFilter.computeIndices, bit_mask_mod]
  rw [bitSet, bitSlot, hslot, hmask]

theorem foldl_mark (f : FSBloomFilter) (hashes : List Nat) : hashes.foldl FSBloomFilter.mark f
    = { f with bitArray := setBits f.bitArray (hashes.map (place f.filterSize)) } := by
  induction hashes generalizing f with
  | nil => rfl
  | cons hash hashes ih =>
    rw [List.foldl_cons, mark_eq, ih]
    rfl

/-! ## `addAll` -/

/-- The counter after `count` elements more. -/
def counted (itemCount count : Nat) : Nat := min (itemCount + count) (2 ^ 64 - 1)

theorem fsAdd_eq (hd : 16 ≤ d) {f : FSBloomFilter} (key : Digest d) (hcount : f.itemCount < 2 ^ 64)
    (h : (f.hardMaximum && decide (f.maxElements ≤ f.itemCount)) = false) :
    FSBloomFilter.add key f = ⟨.ok (), { f with
      bitArray := setBits f.bitArray (positions f.filterSize f.functionCount key)
      itemCount := counted f.itemCount 1 }, []⟩ := by
  unfold FSBloomFilter.add
  rw [Prog.bind_of_ok (Prog.get_apply f), h]
  simp only [Bool.false_eq_true, if_false]
  rw [Prog.bind_of_ok (addBits_ok hd key _), Prog.modify_apply, Run.after_nil]
  unfold counted
  by_cases hn : f.itemCount < 2 ^ 64 - 1
  · rw [if_pos hn, Nat.min_eq_left (by omega)]
    rfl
  · rw [if_neg hn, Nat.min_eq_right (by omega), show 2 ^ 64 - 1 = f.itemCount by omega]
    rfl

/-- Successive calls of `add`, none of which is refused. -/
theorem eachAdd_ok (hd : 16 ≤ d) (keys : List (Digest d)) {f : FSBloomFilter}
    (hcount : f.itemCount < 2 ^ 64)
    (hmax : f.hardMaximum = true → f.itemCount + keys.length ≤ f.maxElements) :
    Prog.each FSBloomFilter.add keys f = ⟨.ok (keys.map fun _ => ()), { f with
      bitArray := setBits f.bitArray (keys.flatMap (positions f.filterSize f.functionCount))
      itemCount := counted f.itemCount keys.length }, []⟩ := by
  induction keys generalizing f with
  | nil =>
    rw [counted, List.length_nil, Nat.add_zero, Nat.min_eq_left (by omega)]
    rfl
  | cons key keys ih =>
    have hroom : (f.hardMaximum && decide (f.maxElements ≤ f.itemCount)) = false := by
      cases hb : f.hardMaximum with
      | false => rfl
      | true =>
        have hle := hmax hb
        rw [List.length_cons] at hle
        exact decide_eq_false (by omega)
    have hlt : counted f.itemCount 1 < 2 ^ 64 := by
      unfold counted
      omega
    unfold Prog.each
    rw [Prog.bind_of_ok (fsAdd_eq hd key hcount hroom), Prog.bind_of_ok (ih hlt ?_)]
    · have hsum : counted (counted f.itemCount 1) keys.length = counted f.itemCount (keys.length + 1) := by
        unfold counted
        omega
      simp only [hsum, List.flatMap_cons, setBits_append, List.length_cons]
      rfl
    · intro hb
      have hle := hmax hb
      rw [List.length_cons] at hle
      show counted f.itemCount 1 + keys.length ≤ f.maxElements
      unfold counted
      omega

/-- The counter of `addAll`, where the sum is a `uint64_t`. -/
def countedAll (itemCount count : Nat) : Nat :=
  if (itemCount + count) % 2 ^ 64 < 2 ^ 64 - 1 then (itemCount + count) % 2 ^ 64 else 2 ^ 64 - 1

/-- The two counters part where the sum wraps around. -/
theorem countedAll_eq_iff {itemCount count : Nat} (h : itemCount < 2 ^ 64) (h' : count < 2 ^ 64) :
    countedAll itemCount count = counted itemCount count ↔ itemCount + count < 2 ^ 64 := by
  unfold countedAll counted
  split <;> omega

theorem addAll_ok (hd : 16 ≤ d) (keys : List (Digest d)) {f : FSBloomFilter}
    (hmax : f.hardMaximum = true → f.itemCount + keys.length ≤ f.maxElements)
    (hlast : f.maxElements < 2 ^ 64) :
    FSBloomFilter.addAll keys f = ⟨.ok (), { f with
      bitArray := setBits f.bitArray ((hashesOf f.functionCount keys).map (place f.filterSize))
      itemCount := countedAll f.itemCount keys.length }, []⟩ := by
  have hroom : (f.hardMaximum && decide (f.maxElements < (f.itemCount + keys.length) % 2 ^ 64)) = false := by
    cases hb : f.hardMaximum with
    | false => rfl
    | true =>
      have hle := hmax hb
      exact decide_eq_false (by omega)
  unfold FSBloomFilter.addAll
  rw [Prog.bind_of_ok (Prog.get_apply f), hroom]
  simp only [Bool.false_eq_true, if_false]
  rw [Prog.bind_of_ok (hashAll_ok hd f.functionCount keys f), Prog.bind_of_ok (Prog.modify_apply _ f),
    Prog.modify_apply, foldl_mark,
    setBits_perm ((List.perm_insertionSort _ (hashesOf f.functionCount keys)).map (place f.filterSize))]
  unfold countedAll
  split <;> rfl

/-- `addAll` leaves the bits and the count of the successive additions, and finds every key. -/
structure AddsAll (f : FSBloomFilter) (keys : List (Digest d)) : Prop where
  outcome : (FSBloomFilter.addAll keys f).outcome = .ok ()
  bits : (FSBloomFilter.addAll keys f).state.bitArray = (Prog.each FSBloomFilter.add keys f).state.bitArray
  count : (FSBloomFilter.addAll keys f).state.itemCount
    = (Prog.each FSBloomFilter.add keys f).state.itemCount
  found : ∀ key ∈ keys, (FSBloomFilter.contains key (FSBloomFilter.addAll keys f).state).outcome = .ok true

/-- The bits of the places and of the positions of the hashes are the same, but for bits that are set
already, and the counter does not run over. -/
structure PlacesRight (f : FSBloomFilter) (keys : List (Digest d)) : Prop where
  counts : f.itemCount + keys.length < 2 ^ 64
  places : ∀ h ∈ hashesOf f.functionCount keys, bitTest f.bitArray (place f.filterSize h) = true ∨
    ∃ h' ∈ hashesOf f.functionCount keys, h' % f.filterSize = place f.filterSize h
  positions : ∀ h ∈ hashesOf f.functionCount keys, bitTest f.bitArray (h % f.filterSize) = true ∨
    ∃ h' ∈ hashesOf f.functionCount keys, place f.filterSize h' = h % f.filterSize

/-- In a filter of whole bytes every place is right. -/
theorem placesRight_of_dvd {f : FSBloomFilter} {keys : List (Digest d)} (h : 8 ∣ f.filterSize)
    (hcount : f.itemCount + keys.length < 2 ^ 64) : PlacesRight f keys where
  counts := hcount
  places hash hmem := Or.inr ⟨hash, hmem, (place_eq h hash).symm⟩
  positions hash hmem := Or.inr ⟨hash, hmem, place_eq h hash⟩

/-- **An array of keys is added as one key after the other exactly when the places are right.** -/
theorem addAll_is_adds_iff (hd : 16 ≤ d) (f : FSBloomFilter) (hpos : 1 ≤ f.filterSize)
    (hsize : f.bitArray.length = f.size) (hcount : f.itemCount < 2 ^ 64) (hlast : f.maxElements < 2 ^ 64)
    (keys : List (Digest d)) (hkeys : keys.length < 2 ^ 64)
    (hmax : f.hardMaximum = true → f.itemCount + keys.length ≤ f.maxElements) :
    AddsAll f keys ↔ PlacesRight f keys := by
  have hsize' : f.bitArray.length = (f.filterSize + 7) / 8 := hsize
  have hall := addAll_ok hd keys hmax hlast
  have heach := eachAdd_ok hd keys hcount hmax
  have hmod : ∀ h, h % f.filterSize < f.filterSize := fun h => Nat.mod_lt h hpos
  have hplace : ∀ p ∈ (hashesOf f.functionCount keys).map (place f.filterSize),
      p < 8 * f.bitArray.length := by
    intro p hp
    obtain ⟨h, -, rfl⟩ := List.mem_map.mp hp
    have := hmod h
    unfold place
    omega
  have hposition : ∀ p ∈ (hashesOf f.functionCount keys).map (· % f.filterSize),
      p < 8 * f.bitArray.length := by
    intro p hp
    obtain ⟨h, -, rfl⟩ := List.mem_map.mp hp
    have := hmod h
    show h % f.filterSize < _
    omega
  have hbits := setBits_eq_iff hplace hposition
  rw [List.forall_mem_map, List.forall_mem_map] at hbits
  simp only [List.mem_map] at hbits
  rw [hashesOf_mod] at hbits hposition
  constructor
  · intro h
    have heq := h.bits
    have hc := h.count
    rw [hall, heach] at heq hc
    obtain ⟨hp, hq⟩ := hbits.mp heq
    exact ⟨(countedAll_eq_iff hcount hkeys).mp hc, hp, hq⟩
  · intro h
    have heq := hbits.mpr ⟨h.places, h.positions⟩
    refine ⟨by rw [hall], by rw [hall, heach]; exact heq, ?_, fun key hkey => ?_⟩
    · rw [hall, heach]
      exact (countedAll_eq_iff hcount hkeys).mpr h.counts
    · rw [hall, fsContains_ok hd]
      refine congrArg Outcome.ok (decide_eq_true fun p hp => ?_)
      show bitTest (setBits _ _) p = true
      rw [heq, bitTest_setBits hposition, Bool.or_eq_true, decide_eq_true_eq]
      exact Or.inr (List.mem_flatMap.mpr ⟨key, hkey, hp⟩)

theorem addAll_is_adds_sample : AddsAll (FSBloomFilter.init 12 1 true 4) [wordKey 2 1, wordKey 4 1] ↔
    PlacesRight (FSBloomFilter.init 12 1 true 4) [wordKey 2 1, wordKey 4 1] :=
  addAll_is_adds_iff (by decide) _ (by decide) (by decide) (by decide) (by decide) _ (by decide)
    (by decide)

/-- A filter of nine bits: the hash 9 is at position 0 for `add`, and at bit 1 for `addAll`. -/
theorem addAll_misplaces_key : ¬AddsAll (FSBloomFilter.init 9 1 false 0) [wordKey 8 1] := by
  intro h
  have hfound := h.found (wordKey 8 1) List.mem_cons_self
  rw [addAll_ok (by decide) _ (by decide) (by decide)] at hfound
  revert hfound
  decide +kernel

/-! ## `containsAll` -/

/-- The bit of a position is clear. -/
def clearAt (f : FSBloomFilter) (p : Nat) : Bool := !bitTest f.bitArray p

/-- The index of the first clear bit, which is never 0, and 1 if no bit is clear. -/
theorem containsFrom_eq (f : FSBloomFilter) (i : Nat) {ps : List Nat} (h : ∀ p ∈ ps, p < f.filterSize) :
    f.containsFrom i ps
      = if ∃ p ∈ ps, clearAt f p = true then max 1 (i + ps.findIdx (clearAt f)) else 1 := by
  induction ps generalizing i with
  | nil => simp [FSBloomFilter.containsFrom]
  | cons p ps ih =>
    have hp : p % f.filterSize = p := Nat.mod_eq_of_lt (h p List.mem_cons_self)
    have htest : (f.bitArray.getD (p / 8) 0 &&& bitMask p != 0) = bitTest f.bitArray p := rfl
    unfold FSBloomFilter.containsFrom
    simp only [FSBloomFilter.computeIndices, bit_mask_mod, hp, and_bitMask, htest]
    rw [List.findIdx_cons, show (!bitTest f.bitArray p) = clearAt f p from rfl]
    by_cases hc : clearAt f p = true
    · have hex : ∃ q ∈ p :: ps, clearAt f q = true := ⟨p, List.mem_cons_self, hc⟩
      rw [if_pos hc, if_pos hex, hc, cond_true, Nat.add_zero]
      split <;> omega
    · have hex : (∃ q ∈ p :: ps, clearAt f q = true) ↔ ∃ q ∈ ps, clearAt f q = true := by
        simp [hc]
      rw [if_neg hc, ih (i + 1) fun q hq => h q (List.mem_cons_of_mem p hq)]
      simp only [hex, hc, cond_false]
      congr 2
      omega

theorem containsAll_run (hd : 16 ≤ d) (f : FSBloomFilter) (keys : List (Digest d)) :
    FSBloomFilter.containsAll keys f = ⟨.ok (f.containsFrom 0
      ((keys.flatMap (positions f.filterSize f.functionCount)).insertionSort (· ≤ ·))), f, []⟩ := by
  unfold FSBloomFilter.containsAll
  rw [Prog.bind_of_ok (Prog.get_apply f), Prog.bind_of_ok (hashAll_ok hd f.functionCount keys f),
    hashesOf_mod]
  rfl

/-- The keys are contained when all bits of theirs are set. -/
theorem allContained_iff (hd : 16 ≤ d) (f : FSBloomFilter) (keys : List (Digest d)) :
    (∀ key ∈ keys, (FSBloomFilter.contains key f).outcome = .ok true) ↔
      ∀ p ∈ keys.flatMap (positions f.filterSize f.functionCount), bitTest f.bitArray p = true := by
  simp only [fsContains_ok hd, Outcome.ok.injEq, decide_eq_true_eq, List.mem_flatMap]
  constructor
  · rintro h p ⟨key, hkey, hp⟩
    exact h key hkey p hp
  · intro h key hkey p hp
    exact h p ⟨key, hkey, hp⟩

/-- `containsAll` returns the count when each key is contained, and less otherwise. -/
def AgreesWithContains (f : FSBloomFilter) (keys : List (Digest d)) : Prop :=
  ∃ n, (FSBloomFilter.containsAll keys f).outcome = .ok n ∧
    ((∀ key ∈ keys, (FSBloomFilter.contains key f).outcome = .ok true) → n = keys.length) ∧
    (¬(∀ key ∈ keys, (FSBloomFilter.contains key f).outcome = .ok true) → n < keys.length)

/-- One key whose bits are set; or several keys, with a clear bit that has fewer positions below it than
there are keys. -/
def FailsEarly (f : FSBloomFilter) (keys : List (Digest d)) : Prop :=
  (keys.length = 1 ∧ ∀ p ∈ keys.flatMap (positions f.filterSize f.functionCount),
    bitTest f.bitArray p = true) ∨
  (2 ≤ keys.length ∧ ∃ p ∈ keys.flatMap (positions f.filterSize f.functionCount),
    bitTest f.bitArray p = false ∧
      (keys.flatMap (positions f.filterSize f.functionCount)).countP (· < p) < keys.length)

/-- **The batch query agrees with the single query exactly when it fails early.**  The filter is one whose
bit array has its `(filterSize + 7) / 8` bytes; beyond the array the model reads clear bits. -/
theorem containsAll_agrees_iff (hd : 16 ≤ d) (f : FSBloomFilter) (hpos : 1 ≤ f.filterSize)
    (keys : List (Digest d)) : AgreesWithContains f keys ↔ FailsEarly f keys := by
  unfold AgreesWithContains FailsEarly
  rw [containsAll_run hd, allContained_iff hd]
  have hlt : ∀ p ∈ keys.flatMap (positions f.filterSize f.functionCount), p < f.filterSize := by
    intro p hp
    obtain ⟨key, -, hp⟩ := List.mem_flatMap.mp hp
    exact lt_of_mem_positions hpos hp
  generalize keys.flatMap (positions f.filterSize f.functionCount) = ps at *
  have hperm := List.perm_insertionSort (· ≤ ·) ps
  rw [containsFrom_eq f 0 fun p hp => hlt p (hperm.mem_iff.mp hp)]
  have hclear : (∃ p ∈ ps.insertionSort (· ≤ ·), clearAt f p = true) ↔
      ¬∀ p ∈ ps, bitTest f.bitArray p = true := by
    simp [hperm.mem_iff, clearAt]
  by_cases hall : ∀ p ∈ ps, bitTest f.bitArray p = true
  · -- every key is contained, and the answer is 1
    rw [if_neg (by rw [hclear]; exact fun hn => hn hall)]
    constructor
    · rintro ⟨_, ⟨⟩, hcount, -⟩
      exact Or.inl ⟨(hcount hall).symm, hall⟩
    · rintro (⟨hone, -⟩ | ⟨-, p, hp, hbit, -⟩)
      · exact ⟨1, rfl, fun _ => hone.symm, fun hn => absurd hall hn⟩
      · rw [hall p hp] at hbit
        cases hbit
  · -- a bit is clear, and the answer is the index of the first one
    have hsearch := SortedSearch.findIdx_lt_iff (List.pairwise_insertionSort (· ≤ ·) ps) (hclear.mpr hall)
      keys.length
    have hrank : (∃ p ∈ ps.insertionSort (· ≤ ·), clearAt f p = true ∧
        (ps.insertionSort (· ≤ ·)).countP (· < p) < keys.length) ↔
        ∃ p ∈ ps, bitTest f.bitArray p = false ∧ ps.countP (· < p) < keys.length := by
      simp [hperm.mem_iff, hperm.countP_eq, clearAt]
    rw [hrank] at hsearch
    rw [if_pos (hclear.mpr hall), Nat.zero_add]
    constructor
    · rintro ⟨_, ⟨⟩, -, hless⟩
      have hmax := hless hall
      exact Or.inr ⟨by omega, hsearch.mp (by omega)⟩
    · rintro (⟨-, h⟩ | ⟨htwo, h⟩)
      · exact absurd h hall
      · have hidx := hsearch.mpr h
        exact ⟨_, rfl, fun h => absurd h hall, fun _ => by omega⟩

/-- Of the positions 3, 4, 5, 6 the second one is clear; of 2, 3, 8, 9 the third one. -/
theorem containsAll_agrees_sample :
    let f := (Prog.each FSBloomFilter.add [wordKey 1 1, wordKey 4 1] (FSBloomFilter.init 16 2 false 0)).state
    AgreesWithContains f [wordKey 2 1, wordKey 4 1] ∧ ¬AgreesWithContains f [wordKey 1 1, wordKey 7 1] := by
  intro f
  have h := fun keys : List (Digest 16) => containsAll_agrees_iff (by decide) f (by decide +kernel) keys
  constructor
  · exact (h _).mpr (Or.inr ⟨by decide, 4, by decide +kernel, by decide +kernel, by decide +kernel⟩)
  · intro hagrees
    rcases (h _).mp hagrees with ⟨hone, -⟩ | ⟨-, hearly⟩
    · exact absurd hone (by decide)
    · revert hearly
      decide +kernel

/-- Two keys that were added, and the answer is 1. -/
theorem containsAll_of_two :
    ¬AgreesWithContains (Prog.each FSBloomFilter.add [wordKey 1 1, wordKey 2 1]
      (FSBloomFilter.init 16 2 false 0)).state [wordKey 1 1, wordKey 2 1] := by
  rintro ⟨n, hrun, hcount, -⟩
  have hone : (FSBloomFilter.containsAll [wordKey 1 1, wordKey 2 1]
      (Prog.each FSBloomFilter.add [wordKey 1 1, wordKey 2 1]
        (FSBloomFilter.init 16 2 false 0)).state).outcome = .ok 1 := by decide +kernel
  rw [hone] at hrun
  cases hrun
  exact absurd (hcount (by decide +kernel)) (by decide)

end SetSync
