import Mathlib.Data.Nat.Bits
import Mathlib.Tactic.NormNum
import SetSync.Storage

/-!
# Bits and digests

The macros of `utils/bitset.h` on byte arrays, and `Digest d`, a byte string of the length
`getHashSize()` of the configured digest.  Bit `b` is bit `b % 8` of byte `b / 8`, least
significant first; a digest is its first `8 * d` bits (`Digest.eq_of_bits`).
-/

namespace SetSync

/-! ## `bitset.h` -/

/-- `BITMASK(b)` -/
def bitMask (b : Nat) : UInt8 := 1 <<< UInt8.ofNat (b % 8)

/-- `BITSLOT(b)` -/
def bitSlot (b : Nat) : Nat := b / 8

/-- `BITTEST(a, b)`, as a condition. -/
def bitTest (a : Bytes) (b : Nat) : Bool := a.getD (bitSlot b) 0 &&& bitMask b != 0

/-- `BITSET(a, b)` -/
def bitSet (a : Bytes) (b : Nat) : Bytes := a.modify (bitSlot b) (· ||| bitMask b)

/-- `BITCLEAR(a, b)` -/
def bitClear (a : Bytes) (b : Nat) : Bytes := a.modify (bitSlot b) (· &&& ~~~ bitMask b)

/-! ## Bits of a byte -/

def byteBit (x : UInt8) (i : Nat) : Bool := x &&& (1 <<< UInt8.ofNat i) != 0

theorem byteBit_eq_testBit_all : ∀ x : Fin 256, ∀ i : Fin 8,
    byteBit (UInt8.ofNat x) i = (x : Nat).testBit i := by
  decide +kernel

theorem byteBit_eq_testBit (x : UInt8) {i : Nat} (hi : i < 8) : byteBit x i = x.toNat.testBit i := by
  have h := byteBit_eq_testBit_all ⟨x.toNat, x.toNat_lt⟩ ⟨i, hi⟩
  simpa using h

theorem testBit_mask : ∀ i j : Fin 8, ((1 : UInt8) <<< UInt8.ofNat i).toNat.testBit j = (i == j) := by
  decide

theorem testBit_not_mask : ∀ i j : Fin 8,
    (~~~((1 : UInt8) <<< UInt8.ofNat i)).toNat.testBit j = (i != j) := by
  decide

theorem byteBit_or (x : UInt8) {i j : Nat} (hi : i < 8) (hj : j < 8) :
    byteBit (x ||| (1 <<< UInt8.ofNat i)) j = (byteBit x j || i == j) := by
  have h := testBit_mask ⟨i, hi⟩ ⟨j, hj⟩
  rw [byteBit_eq_testBit _ hj, byteBit_eq_testBit _ hj, UInt8.toNat_or, Nat.testBit_or, h]
  simp [Fin.ext_iff, beq_eq_decide]

theorem byteBit_clear (x : UInt8) {i j : Nat} (hi : i < 8) (hj : j < 8) :
    byteBit (x &&& ~~~ (1 <<< UInt8.ofNat i)) j = (byteBit x j && i != j) := by
  have h := testBit_not_mask ⟨i, hi⟩ ⟨j, hj⟩
  rw [byteBit_eq_testBit _ hj, byteBit_eq_testBit _ hj, UInt8.toNat_and, Nat.testBit_and, h]
  simp [Fin.ext_iff, bne, beq_eq_decide]

theorem bitTest_eq (a : Bytes) (b : Nat) : bitTest a b = byteBit (a.getD (b / 8) 0) (b % 8) := rfl

theorem testBit_of_le (x : UInt8) {i : Nat} (hi : 8 ≤ i) : x.toNat.testBit i = false := by
  have hpow : 2 ^ 8 ≤ 2 ^ i := Nat.pow_le_pow_right (by omega) hi
  have hx := x.toNat_lt
  exact Nat.testBit_lt_two_pow (by omega)

/-- A byte is its eight bits. -/
theorem byte_eq_of_bits {x y : UInt8} (h : ∀ i, i < 8 → byteBit x i = byteBit y i) : x = y := by
  apply UInt8.toNat_inj.mp
  apply Nat.eq_of_testBit_eq
  intro i
  by_cases hi : i < 8
  · rw [← byteBit_eq_testBit x hi, ← byteBit_eq_testBit y hi, h i hi]
  · rw [testBit_of_le x (Nat.le_of_not_lt hi), testBit_of_le y (Nat.le_of_not_lt hi)]

theorem length_bitSet (a : Bytes) (b : Nat) : (bitSet a b).length = a.length := by
  simp [bitSet]

theorem length_bitClear (a : Bytes) (b : Nat) : (bitClear a b).length = a.length := by
  simp [bitClear]

theorem getD_modify (a : Bytes) (f : UInt8 → UInt8) (i j : Nat) :
    (a.modify i f).getD j 0 = if i = j ∧ i < a.length then f (a.getD j 0) else a.getD j 0 := by
  rw [List.getD_eq_getElem?_getD, List.getD_eq_getElem?_getD, List.getElem?_modify]
  by_cases h : i = j
  · subst h
    by_cases hi : i < a.length
    · rw [if_pos ⟨rfl, hi⟩, List.getElem?_eq_getElem hi]; simp
    · rw [if_neg (fun hc => hi hc.2), List.getElem?_eq_none (by omega)]; simp
  · rw [if_neg (fun hc => h hc.1)]
    simp [h]

theorem bitTest_bitSet (a : Bytes) (b c : Nat) (hb : b < 8 * a.length) :
    bitTest (bitSet a b) c = (bitTest a c || b == c) := by
  have hs : b / 8 < a.length := by omega
  rw [bitTest_eq, bitTest_eq, bitSet, bitSlot, getD_modify]
  by_cases h : b / 8 = c / 8
  · have hbc : (b % 8 == c % 8) = (b == c) := by
      rw [Bool.eq_iff_iff, beq_iff_eq, beq_iff_eq]
      omega
    rw [if_pos ⟨h, hs⟩, bitMask, byteBit_or _ (by omega) (by omega), hbc]
  · have hne : (b == c) = false := by
      rw [beq_eq_false_iff_ne]
      rintro rfl
      exact h rfl
    rw [if_neg (fun hc => h hc.1), hne, Bool.or_false]

theorem bitTest_bitClear (a : Bytes) (b c : Nat) (hb : b < 8 * a.length) :
    bitTest (bitClear a b) c = (bitTest a c && b != c) := by
  have hs : b / 8 < a.length := by omega
  rw [bitTest_eq, bitTest_eq, bitClear, bitSlot, getD_modify]
  by_cases h : b / 8 = c / 8
  · have hbc : (b % 8 != c % 8) = (b != c) := by
      rw [Bool.eq_iff_iff, bne_iff_ne, bne_iff_ne]
      omega
    rw [if_pos ⟨h, hs⟩, bitMask, byteBit_clear _ (by omega) (by omega), hbc]
  · have hne : (b != c) = true := by
      rw [bne_iff_ne]
      rintro rfl
      exact h rfl
    rw [if_neg (fun hc => h hc.1), hne, Bool.and_true]

/-! ## Bits of parts of an array -/

theorem getD_drop (a : Bytes) (i j : Nat) : (a.drop i).getD j 0 = a.getD (i + j) 0 := by
  rw [List.getD_eq_getElem?_getD, List.getD_eq_getElem?_getD, List.getElem?_drop]

theorem bitTest_drop (a : Bytes) (i : Nat) {j : Nat} (hj : j < 8) :
    bitTest (a.drop i) j = bitTest a (8 * i + j) := by
  have h1 : j / 8 = 0 := by omega
  have h2 : (8 * i + j) / 8 = i := by omega
  have h3 : (8 * i + j) % 8 = j % 8 := by omega
  rw [bitTest_eq, bitTest_eq, h1, h2, h3, getD_drop, Nat.add_zero]

theorem bitTest_take (a : Bytes) {n p : Nat} (hp : p < 8 * n) : bitTest (a.take n) p = bitTest a p := by
  rw [bitTest_eq, bitTest_eq, List.getD_eq_getElem?_getD, List.getD_eq_getElem?_getD,
    List.getElem?_take_of_lt (by omega)]

theorem bitTest_replicate (n p : Nat) : bitTest (List.replicate n 0) p = false := by
  have hzero : (List.replicate n (0 : UInt8)).getD (bitSlot p) 0 = 0 := by
    rw [List.getD_eq_getElem?_getD, List.getElem?_replicate]
    split <;> rfl
  unfold bitTest
  rw [hzero, UInt8.zero_and]
  rfl

/-- Arrays of one length with the same bits are the same. -/
theorem bytes_eq_of_bits {a b : Bytes} (hlen : a.length = b.length)
    (h : ∀ p, p < 8 * a.length → bitTest a p = bitTest b p) : a = b := by
  refine List.ext_getElem hlen fun j hj hj' => byte_eq_of_bits fun i hi => ?_
  have hb := h (8 * j + i) (by omega)
  have h1 : (8 * j + i) / 8 = j := by omega
  have h2 : (8 * j + i) % 8 = i := by omega
  rw [bitTest_eq, bitTest_eq, h1, h2, List.getD_eq_getElem?_getD, List.getD_eq_getElem?_getD,
    List.getElem?_eq_getElem hj, List.getElem?_eq_getElem hj'] at hb
  exact hb

/-! ## `uint64_t` in memory -/

/-- `memcpy(&n, source + offset, sizeof(uint64_t))`, least significant byte first. -/
def readUint64 (source : Bytes) (offset : Nat) : Nat :=
  (List.range 8).foldr (fun i n => (source.getD (offset + i) 0).toNat + 256 * n) 0

/-- The bytes of a `uint64_t` that is a key in the storage. -/
def uint64Bytes (n : Nat) : Bytes := (List.range 8).map fun i => UInt8.ofNat (n / 256 ^ i)

theorem length_uint64Bytes (n : Nat) : (uint64Bytes n).length = 8 := by simp [uint64Bytes]

theorem readUint64_uint64Bytes {n : Nat} (hn : n < 2 ^ 64) : readUint64 (uint64Bytes n) 0 = n := by
  have hbyte : ∀ i ∈ List.range 8, ∀ m : Nat, ((uint64Bytes n).getD (0 + i) 0).toNat + 256 * m
      = n / 256 ^ i % 256 + 256 * m := by
    intro i hi m
    simp [uint64Bytes, List.getD_eq_getElem?_getD, List.mem_range.mp hi]
  rw [readUint64, List.foldr_ext _ _ 0 hbyte]
  norm_num [List.range_succ]
  norm_num at hn
  omega

theorem uint64Bytes_injective {a b : Nat} (ha : a < 2 ^ 64) (hb : b < 2 ^ 64)
    (h : uint64Bytes a = uint64Bytes b) : a = b := by
  rw [← readUint64_uint64Bytes ha, h, readUint64_uint64Bytes hb]

/-! ## Digests -/

/-- A byte string of the digest's length. -/
@[ext] structure Digest (d : Nat) where
  bytes : Bytes
  length_bytes : bytes.length = d
deriving DecidableEq

instance Digest.lawfulBEq {d : Nat} : LawfulBEq (Digest d) := inferInstance

namespace Digest

variable {d : Nat}

/-- Bit `i` of the digest. -/
def bit (a : Digest d) (i : Nat) : Bool := bitTest a.bytes i

theorem eq_of_bits {a b : Digest d} (h : ∀ i, i < 8 * d → a.bit i = b.bit i) : a = b := by
  refine Digest.ext (bytes_eq_of_bits (by rw [a.length_bytes, b.length_bytes]) fun p hp => h p ?_)
  rwa [a.length_bytes] at hp

/-- `memcpy(target, source + offset, getHashSize())` -/
def slice (source : Bytes) (offset : Nat) : Digest d :=
  ⟨(List.range d).map fun i => source.getD (offset + i) 0, by simp⟩

theorem slice_append (a b : Bytes) (x : Digest d) : slice (a ++ (x.bytes ++ b)) a.length = x := by
  apply Digest.ext
  apply List.ext_getElem
  · simp [slice, x.length_bytes]
  · intro i hi hi'
    simp only [slice, List.getElem_map, List.getElem_range]
    rw [List.getD_eq_getElem?_getD, List.getElem?_append_right (by omega), Nat.add_sub_cancel_left,
      List.getElem?_append_left hi', List.getElem?_eq_getElem hi', Option.getD_some]

theorem bytes_slice {source : Bytes} (offset : Nat) (h : offset + d ≤ source.length) :
    (slice source offset : Digest d).bytes = (source.drop offset).take d := by
  have hlen : ((source.drop offset).take d).length = d := by
    rw [List.length_take, List.length_drop]; omega
  refine List.ext_getElem (by rw [Digest.length_bytes, hlen]) fun i hi hi' => ?_
  have hlt : offset + i < source.length := by omega
  simp only [slice, List.getElem_map, List.getElem_range, List.getElem_take, List.getElem_drop]
  rw [List.getD_eq_getElem?_getD, List.getElem?_eq_getElem hlt, Option.getD_some]

theorem slice_bytes (x : Digest d) : slice x.bytes 0 = x := by
  have h := slice_append [] [] x
  rwa [List.append_nil] at h

end Digest

/-- The key whose first byte is `b`, all others 0. -/
def byteKey (d : Nat) (b : UInt8) : Digest d :=
  ⟨(List.range d).map fun i => if i = 0 then b else 0, by simp⟩

/-- The key with the words `a` and `b`. -/
def wordKey (a b : UInt8) : Digest 16 := ⟨[a, 0, 0, 0, 0, 0, 0, 0, b, 0, 0, 0, 0, 0, 0, 0], rfl⟩

/-- `crypto::CryptoHash`: the digest of a byte string. -/
structure CryptoHash (d : Nat) where
  digest : Bytes → Digest d

/-- The digest of the two child hashes in `hashscratch`. -/
def CryptoHash.pair {d : Nat} (hash : CryptoHash d) (smaller larger : Digest d) : Digest d :=
  hash.digest (smaller.bytes ++ larger.bytes)

end SetSync
