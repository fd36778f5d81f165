import SetSync.MemoryFilter

/-!
# The operators of the filters

What `operator==`, `operator&=` and `operator|=` do to the bits, for both classes of filters.

    ==     compares the whole bytes, and the last bits of the last byte, where the filter has its
           first bits                                             (operatorEq_bitwise_iff)
    |=     sets the bits of both; the order of additions does not matter    (orAssign_adds)
    &=     keeps the keys that both contain                            (andAssign_contains)
-/

namespace SetSync

open Program

variable {d : Nat}

/-! ## Bytes -/

theorem byteBit_byteAnd (x y : UInt8) {i : Nat} (hi : i < 8) :
    byteBit (x &&& y) i = (byteBit x i && byteBit y i) := by
  rw [byteBit_eq_testBit _ hi, byteBit_eq_testBit _ hi, byteBit_eq_testBit _ hi, UInt8.toNat_and,
    Nat.testBit_and]

theorem toNat_shift (x : UInt8) {k : Nat} (hk : k < 8) :
    (x >>> UInt8.ofNat k).toNat = x.toNat >>> k := by
  rw [UInt8.toNat_shiftRight, UInt8.toNat_ofNat', Nat.mod_eq_of_lt (show k < 2 ^ 8 by omega),
    Nat.mod_eq_of_lt hk]

/-- Shifted by `k`, a byte is its bits from `k` on. -/
theorem shift_eq_iff (x y : UInt8) {k : Nat} (hk : k < 8) :
    x >>> UInt8.ofNat k = y >>> UInt8.ofNat k ↔ ∀ i, k ≤ i → i < 8 → byteBit x i = byteBit y i := by
  have hbit : ∀ (z : UInt8) (i : Nat), i < 8 →
      byteBit (z >>> UInt8.ofNat k) i = z.toNat.testBit (k + i) := by
    intro z i hi
    rw [byteBit_eq_testBit _ hi, toNat_shift z hk, Nat.testBit_shiftRight]
  constructor
  · intro h i hki hi
    have hsum : k + (i - k) = i := by omega
    rw [byteBit_eq_testBit x hi, byteBit_eq_testBit y hi, ← hsum, ← hbit x (i - k) (by omega),
      ← hbit y (i - k) (by omega), h]
  · intro h
    apply byte_eq_of_bits
    intro i hi
    rw [hbit x i hi, hbit y i hi]
    by_cases hsum : k + i < 8
    · rw [← byteBit_eq_testBit x hsum, ← byteBit_eq_testBit y hsum, h (k + i) (by omega) hsum]
    · rw [testBit_of_le x (Nat.le_of_not_lt hsum), testBit_of_le y (Nat.le_of_not_lt hsum)]

/-! ## Bit arrays -/

theorem getD_mapIdx (a : Bytes) (g : Nat → UInt8 → UInt8) (hg : ∀ i, g i 0 = 0) (i : Nat) :
    (a.mapIdx g).getD i 0 = g i (a.getD i 0) := by
  rw [List.getD_eq_getElem?_getD, List.getD_eq_getElem?_getD, List.getElem?_mapIdx]
  cases a[i]? with
  | none => exact (hg i).symm
  | some x => rfl

theorem bitTest_bytesAnd (a b : Bytes) (p : Nat) :
    bitTest (bytesAnd a b) p = (bitTest a p && bitTest b p) := by
  rw [bitTest_eq, bitTest_eq, bitTest_eq, bytesAnd,
    getD_mapIdx a (fun i x => x &&& b.getD i 0) fun _ => UInt8.zero_and,
    byteBit_byteAnd _ _ (Nat.mod_lt p (by decide))]

theorem bytesOr_bitSet {a b : Bytes} (h : a.length = b.length) (p : Nat) :
    bytesOr a (bitSet b p) = bitSet (bytesOr a b) p := by
  apply List.ext_getElem?
  intro i
  rw [bytesOr, bytesOr, bitSet, bitSet, List.getElem?_mapIdx, List.getElem?_modify,
    List.getElem?_mapIdx]
  cases ha : a[i]? with
  | none => simp
  | some x =>
    have hi : i < b.length := by
      rw [← h]
      exact (List.getElem?_eq_some_iff.mp ha).1
    by_cases hs : bitSlot p = i
    · subst hs
      rw [getD_modify, if_pos ⟨rfl, hi⟩]
      simp [UInt8.or_assoc]
    · rw [getD_modify, if_neg fun hc => hs hc.1]
      simp [hs]

theorem bytesOr_setBits {a b : Bytes} (h : a.length = b.length) (ps : List Nat) :
    bytesOr a (setBits b ps) = setBits (bytesOr a b) ps := by
  induction ps generalizing b with
  | nil => rfl
  | cons p ps ih =>
    show bytesOr a (setBits (bitSet b p) ps) = setBits (bitSet (bytesOr a b) p) ps
    rw [ih (h.trans (length_bitSet b p).symm), bytesOr_bitSet h]

theorem bytesOr_zero (a : Bytes) (n : Nat) : bytesOr a (List.replicate n 0) = a := by
  apply List.ext_getElem?
  intro i
  have hzero : (List.replicate n (0 : UInt8)).getD i 0 = 0 := by
    rw [List.getD_eq_getElem?_getD, List.getElem?_replicate]
    split <;> rfl
  rw [bytesOr, List.getElem?_mapIdx, hzero]
  cases a[i]? <;> simp

/-- The union of bits that were set in two empty arrays. -/
theorem bytesOr_union (n : Nat) {ps qs rs : List Nat} (h : rs.Perm (ps ++ qs)) :
    bytesOr (setBits (List.replicate n 0) ps) (setBits (List.replicate n 0) qs)
      = setBits (List.replicate n 0) rs := by
  rw [bytesOr_setBits (length_setBits _ _), bytesOr_zero, ← setBits_append, setBits_perm h]

/-- The arrays have the same bits from `lo` to `hi`. -/
def SameBits (lo hi : Nat) (a b : Bytes) : Prop := ∀ p, lo ≤ p → p < hi → bitTest a p = bitTest b p

theorem take_eq_iff {n : Nat} {a b : Bytes} (ha : n ≤ a.length) (hb : n ≤ b.length) :
    a.take n = b.take n ↔ SameBits 0 (8 * n) a b := by
  constructor
  · intro h p _ hp
    rw [← bitTest_take a hp, ← bitTest_take b hp, h]
  · intro h
    apply bytes_eq_of_bits
    · rw [List.length_take_of_le ha, List.length_take_of_le hb]
    · intro p hp
      rw [List.length_take_of_le ha] at hp
      rw [bitTest_take a hp, bitTest_take b hp, h p (Nat.zero_le p) hp]

theorem lastByte_eq_iff {n : Nat} {a b : Bytes} (hn : n % 8 ≠ 0) :
    lastByte n a = lastByte n b ↔ SameBits (8 * (n / 8) + (8 - n % 8)) (8 * (n / 8) + 8) a b := by
  unfold lastByte
  rw [shift_eq_iff _ _ (by omega)]
  constructor
  · intro h p hlo hhi
    have hslot : p / 8 = n / 8 := by omega
    rw [bitTest_eq, bitTest_eq, hslot]
    exact h (p % 8) (by omega) (by omega)
  · intro h i hlo hhi
    have hbit := h (8 * (n / 8) + i) (by omega) (by omega)
    rwa [bitTest_eq, bitTest_eq, show (8 * (n / 8) + i) / 8 = n / 8 by omega,
      show (8 * (n / 8) + i) % 8 = i by omega] at hbit

/-- What `operator==` compares. -/
theorem bitsEqual_iff {n : Nat} {a b : Bytes} (ha : (n + 7) / 8 ≤ a.length)
    (hb : (n + 7) / 8 ≤ b.length) : bitsEqual n a b = true ↔
      SameBits 0 (8 * (n / 8)) a b ∧
        (n % 8 ≠ 0 → SameBits (8 * (n / 8) + (8 - n % 8)) (8 * (n / 8) + 8) a b) := by
  unfold bitsEqual
  rw [← take_eq_iff (by omega) (by omega)]
  by_cases hwhole : a.take (n / 8) = b.take (n / 8)
  · rw [if_neg (not_not_intro hwhole)]
    by_cases hrest : n % 8 = 0
    · simp [hwhole, hrest]
    · rw [if_neg hrest, beq_iff_eq, lastByte_eq_iff hrest]
      simp [hwhole, hrest]
  · rw [if_pos hwhole]
    simp [hwhole]

theorem bitsDiffer_eq (n : Nat) (a b : Bytes) : bitsDiffer n a b = !bitsEqual n a b := by
  unfold bitsDiffer bitsEqual
  split
  · rfl
  · split <;> rfl

/-! ## `operator==` and `operator!=` -/

/-- `operator==` says whether the bits of the filters are the same, `operator!=` the contrary. -/
def ComparesBits (n : Nat) (a b : Bytes) (equal differ : Bool) : Prop :=
  (equal = true ↔ SameBits 0 n a b) ∧ differ = !equal

/-- A whole byte differs; or the bits of the filter in the last byte agree just when the last bits of
that byte agree, of which there are as many. -/
def TailReadsRight (n : Nat) (a b : Bytes) : Prop :=
  ¬SameBits 0 (8 * (n / 8)) a b ∨
    (SameBits (8 * (n / 8)) n a b ↔ SameBits (8 * (n / 8) + (8 - n % 8)) (8 * (n / 8) + 8) a b)

theorem sameBits_split {lo mid hi : Nat} (h : lo ≤ mid) (h' : mid ≤ hi) {a b : Bytes} :
    SameBits lo hi a b ↔ SameBits lo mid a b ∧ SameBits mid hi a b := by
  constructor
  · intro hs
    exact ⟨fun p hlo hhi => hs p hlo (by omega), fun p hlo hhi => hs p (by omega) hhi⟩
  · rintro ⟨hs, hs'⟩ p hlo hhi
    by_cases hp : p < mid
    · exact hs p hlo hp
    · exact hs' p (by omega) hhi

theorem comparesBits_iff {n : Nat} {a b : Bytes} (ha : (n + 7) / 8 ≤ a.length)
    (hb : (n + 7) / 8 ≤ b.length) :
    ComparesBits n a b (bitsEqual n a b) (bitsDiffer n a b) ↔ TailReadsRight n a b := by
  -- in a filter of whole bytes both tails are empty
  have htail : (n % 8 ≠ 0 → SameBits (8 * (n / 8) + (8 - n % 8)) (8 * (n / 8) + 8) a b) ↔
      SameBits (8 * (n / 8) + (8 - n % 8)) (8 * (n / 8) + 8) a b := by
    constructor
    · intro h p hlo hhi
      exact h (by omega) p hlo hhi
    · exact fun h _ => h
  unfold ComparesBits TailReadsRight
  rw [bitsDiffer_eq, bitsEqual_iff ha hb, htail,
    sameBits_split (Nat.zero_le _) (show 8 * (n / 8) ≤ n by omega)]
  by_cases hwhole : SameBits 0 (8 * (n / 8)) a b
  · simp only [hwhole, true_and, and_true, not_true, false_or]
    exact Iff.comm
  · simp [hwhole]

/-- **Equality is bitwise exactly when the tail reads right.** -/
theorem operatorEq_bitwise_iff (n : Nat) :
    (∀ f g : FSBloomFilter, f.filterSize = n → g.filterSize = n → f.bitArray.length = f.size →
      g.bitArray.length = g.size →
      (ComparesBits n f.bitArray g.bitArray (f.operatorEq g) (f.operatorNe g) ↔
        TailReadsRight n f.bitArray g.bitArray)) ∧
    (∀ f g : BloomFilter, f.filterSize = n → g.filterSize = n →
      (ComparesBits n f.bitArray g.bitArray (f.operatorEq g) (f.operatorNe g) ↔
        TailReadsRight n f.bitArray g.bitArray)) := by
  constructor
  · rintro f g rfl hsize hf hg
    unfold FSBloomFilter.operatorEq FSBloomFilter.operatorNe
    rw [if_neg (not_not_intro hsize.symm), if_neg (not_not_intro hsize.symm)]
    apply comparesBits_iff
    · exact Nat.le_of_eq hf.symm
    · rw [← hsize]
      exact Nat.le_of_eq hg.symm
  · rintro f g rfl hsize
    unfold BloomFilter.operatorEq BloomFilter.operatorNe
    rw [if_neg (not_not_intro hsize.symm), if_neg (not_not_intro hsize.symm)]
    apply comparesBits_iff
    · exact Nat.le_of_eq f.length_bitArray.symm
    · rw [← hsize]
      exact Nat.le_of_eq g.length_bitArray.symm

/-- Two filters with different keys differ in their first byte. -/
theorem operatorEq_bitwise_sample :
    (let f := (FSBloomFilter.add (wordKey 1 1) (FSBloomFilter.init 9 2 false 0)).state
      let g := (FSBloomFilter.add (wordKey 4 1) (FSBloomFilter.init 9 2 false 0)).state
      ComparesBits 9 f.bitArray g.bitArray (f.operatorEq g) (f.operatorNe g)) ∧
    (let f := (BloomFilter.add (wordKey 1 1) (BloomFilter.init 9 2 false 0)).state
      let g := (BloomFilter.add (wordKey 4 1) (BloomFilter.init 9 2 false 0)).state
      ComparesBits 9 f.bitArray g.bitArray (f.operatorEq g) (f.operatorNe g)) := by
  have hbyte : ¬SameBits 0 (8 * (9 / 8)) [0x0C, 0] [0x60, 0] := fun h =>
    absurd (h 2 (by decide) (by decide)) (by decide +kernel)
  exact ⟨((operatorEq_bitwise_iff 9).1 _ _ (by decide +kernel) (by decide +kernel) (by decide +kernel)
      (by decide +kernel)).mpr (Or.inl hbyte),
    ((operatorEq_bitwise_iff 9).2 _ _ (by decide +kernel) (by decide +kernel)).mpr (Or.inl hbyte)⟩

/-- Nine bits, of which the last is set in one of the filters. -/
theorem operatorEq_misses_bit :
    ¬(∀ f g : FSBloomFilter, f.filterSize = g.filterSize → f.bitArray.length = f.size →
      g.bitArray.length = g.size →
      ComparesBits f.filterSize f.bitArray g.bitArray (f.operatorEq g) (f.operatorNe g)) ∧
    ¬(∀ f g : BloomFilter, f.filterSize = g.filterSize →
      ComparesBits f.filterSize f.bitArray g.bitArray (f.operatorEq g) (f.operatorNe g)) := by
  constructor
  · intro h
    have hbits := (h (FSBloomFilter.add (wordKey 7 1) (FSBloomFilter.init 9 1 false 0)).state
      (FSBloomFilter.init 9 1 false 0) (by decide +kernel) (by decide +kernel) (by decide +kernel)).1.mp
      (by decide +kernel) 8 (by decide) (by decide +kernel)
    revert hbits
    decide +kernel
  · intro h
    have hbits := (h (BloomFilter.add (wordKey 7 1) (BloomFilter.init 9 1 false 0)).state
      (BloomFilter.init 9 1 false 0) (by decide +kernel)).1.mp
      (by decide +kernel) 8 (by decide) (by decide +kernel)
    revert hbits
    decide +kernel

/-! ## `operator|=` and `operator&=` -/

/-- The filter to which the keys were added has the bits of their positions. -/
theorem fsAdds_bits (hd : 16 ≤ d) (n c m : Nat) (keys : List (Digest d)) :
    (Prog.each FSBloomFilter.add keys (FSBloomFilter.init n c false m)).state =
      { FSBloomFilter.init n c false m with
        bitArray := setBits (FSBloomFilter.init n c false m).bitArray (keys.flatMap (positions n c))
        itemCount := counted 0 keys.length } := by
  rw [eachAdd_ok hd keys (show 0 < 2 ^ 64 by decide) (fun hmax => by cases hmax)]
  rfl

theorem adds_bits (hd : 16 ≤ d) (n c m : Nat) (keys : List (Digest d)) :
    (Prog.each BloomFilter.add keys (BloomFilter.init n c false m)).state =
      ((BloomFilter.init n c false m).marked (keys.flatMap (positions n c))).grown keys.length := by
  rw [BloomFilter.adds_ok hd keys (show 0 < 2 ^ 64 by decide) (fun hr => by cases hr.1)]
  rfl

theorem FSBloomFilter.orAssign_bits {f g : FSBloomFilter} (h : f.filterSize = g.filterSize) :
    (f.orAssign g).bitArray = bytesOr f.bitArray g.bitArray := by
  rw [orAssign, if_pos h]

theorem BloomFilter.orAssign_bits {f g : BloomFilter} (h : f.filterSize = g.filterSize) :
    (f.orAssign g).bitArray = bytesOr f.bitArray g.bitArray := by
  rw [orAssign, if_pos h]

/-- Each position is set in the intersection of two arrays when it is set in both. -/
theorem forall_bytesAnd (a b : Bytes) (ps : List Nat) :
    (∀ p ∈ ps, bitTest (bytesAnd a b) p = true) ↔
      (∀ p ∈ ps, bitTest a p = true) ∧ ∀ p ∈ ps, bitTest b p = true := by
  simp only [bitTest_bytesAnd, Bool.and_eq_true]
  exact forall₂_and

/-- **Union and intersection**, of filters whose bit arrays have their `(filterSize + 7) / 8` bytes; beyond an
array the model reads clear bits. -/
theorem union_and_intersection (hd : 16 ≤ d) :
    ((∀ n c m₁ m₂ m₃ (X Y Z : List (Digest d)), Z.Perm (X ++ Y) →
        ((Prog.each FSBloomFilter.add X (FSBloomFilter.init n c false m₁)).state.orAssign
          (Prog.each FSBloomFilter.add Y (FSBloomFilter.init n c false m₂)).state).bitArray
        = (Prog.each FSBloomFilter.add Z (FSBloomFilter.init n c false m₃)).state.bitArray) ∧
      ∀ (F G : FSBloomFilter) (k : Digest d), F.filterSize = G.filterSize →
        F.functionCount = G.functionCount →
        ((FSBloomFilter.contains k (F.andAssign G)).outcome = .ok true ↔
          (FSBloomFilter.contains k F).outcome = .ok true ∧
            (FSBloomFilter.contains k G).outcome = .ok true)) ∧
    ((∀ n c m₁ m₂ m₃ (X Y Z : List (Digest d)), Z.Perm (X ++ Y) →
        ((Prog.each BloomFilter.add X (BloomFilter.init n c false m₁)).state.orAssign
          (Prog.each BloomFilter.add Y (BloomFilter.init n c false m₂)).state).bitArray
        = (Prog.each BloomFilter.add Z (BloomFilter.init n c false m₃)).state.bitArray) ∧
      ∀ (F G : BloomFilter) (k : Digest d), F.filterSize = G.filterSize →
        F.functionCount = G.functionCount →
        ((BloomFilter.contains k (F.andAssign G)).outcome = .ok true ↔
          (BloomFilter.contains k F).outcome = .ok true ∧
            (BloomFilter.contains k G).outcome = .ok true)) := by
  refine ⟨⟨?_, ?_⟩, ?_, ?_⟩
  · intro n c m₁ m₂ m₃ X Y Z hperm
    rw [fsAdds_bits hd, fsAdds_bits hd, fsAdds_bits hd]
    refine (FSBloomFilter.orAssign_bits ?_).trans (bytesOr_union _ ?_)
    · rfl
    · rw [← List.flatMap_append]
      exact hperm.flatMap_right _
  · intro F G k hsize hfun
    rw [FSBloomFilter.andAssign, if_pos hsize, fsContains_ok hd, fsContains_ok hd, fsContains_ok hd]
    simp only [← hsize, ← hfun, Outcome.ok.injEq, decide_eq_true_eq]
    exact forall_bytesAnd _ _ _
  · intro n c m₁ m₂ m₃ X Y Z hperm
    rw [adds_bits hd, adds_bits hd, adds_bits hd]
    refine (BloomFilter.orAssign_bits ?_).trans (bytesOr_union _ ?_)
    · rfl
    · rw [← List.flatMap_append]
      exact hperm.flatMap_right _
  · intro F G k hsize hfun
    rw [BloomFilter.andAssign, if_pos hsize, BloomFilter.contains_eq hd, BloomFilter.contains_eq hd,
      BloomFilter.contains_eq hd]
    simp only [← hsize, ← hfun, Outcome.ok.injEq, decide_eq_true_eq]
    exact forall_bytesAnd _ _ _

/-- The one filter has two keys, the other has the second of them. -/
theorem union_and_intersection_sample :
    ((Prog.each BloomFilter.add [wordKey 1 1] (BloomFilter.init 9 2 false 0)).state.orAssign
        (Prog.each BloomFilter.add [wordKey 4 1] (BloomFilter.init 9 2 false 0)).state).bitArray
      = (Prog.each BloomFilter.add [wordKey 4 1, wordKey 1 1] (BloomFilter.init 9 2 false 0)).state.bitArray ∧
    let F := (Prog.each FSBloomFilter.add [wordKey 1 1, wordKey 4 1] (FSBloomFilter.init 9 2 false 0)).state
    let G := (FSBloomFilter.add (wordKey 4 1) (FSBloomFilter.init 9 2 true 4)).state
    (FSBloomFilter.contains (wordKey 4 1) (F.andAssign G)).outcome = .ok true ∧
      (FSBloomFilter.contains (wordKey 1 1) (F.andAssign G)).outcome ≠ .ok true := by
  refine ⟨(union_and_intersection (by decide)).2.1 9 2 0 0 0 _ _ _ (List.Perm.swap _ _ _), ?_⟩
  intro F G
  have h := fun k : Digest 16 => (union_and_intersection (by decide)).1.2 F G k (by decide +kernel)
    (by decide +kernel)
  refine ⟨(h _).mpr ⟨by decide +kernel, by decide +kernel⟩, fun hboth => ?_⟩
  exact absurd ((h _).mp hboth).2 (by decide +kernel)

end SetSync
