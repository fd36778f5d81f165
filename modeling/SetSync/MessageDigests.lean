import Mathlib.Tactic.IntervalCases
import SetSync.BlockDigest
import SetSync.StreamHash
import SetSync.TrieRuns

/-!
# The message digests

`crypto/md4.c`, `md5.c`, `sha1.c`, `sha2.c` and `sha4.c`, each a `BlockDigest` with its own `process`, and
the table of digests of `md.c` and `md_wrap.c`.

    md_finish_pieces           a message has one digest, in one call or in pieces, if a word can count it
    digest_collision           two messages with one digest hold a collision of `process`
    collisionFree_of_process   what is assumed of the hashes of a trie follows from the same about `process`
-/

namespace SetSync

open BlockStream

/-! ## Words in memory -/

def GET_UINT32_LE (b : Bytes) (i : Nat) : BitVec 32 :=
  BitVec.ofNat 32 (b.getD i 0).toNat ||| BitVec.ofNat 32 (b.getD (i + 1) 0).toNat <<< 8
    ||| BitVec.ofNat 32 (b.getD (i + 2) 0).toNat <<< 16 ||| BitVec.ofNat 32 (b.getD (i + 3) 0).toNat <<< 24

def GET_UINT32_BE (b : Bytes) (i : Nat) : BitVec 32 :=
  BitVec.ofNat 32 (b.getD i 0).toNat <<< 24 ||| BitVec.ofNat 32 (b.getD (i + 1) 0).toNat <<< 16
    ||| BitVec.ofNat 32 (b.getD (i + 2) 0).toNat <<< 8 ||| BitVec.ofNat 32 (b.getD (i + 3) 0).toNat

def GET_UINT64_BE (b : Bytes) (i : Nat) : BitVec 64 :=
  BitVec.ofNat 64 (b.getD i 0).toNat <<< 56 ||| BitVec.ofNat 64 (b.getD (i + 1) 0).toNat <<< 48
    ||| BitVec.ofNat 64 (b.getD (i + 2) 0).toNat <<< 40 ||| BitVec.ofNat 64 (b.getD (i + 3) 0).toNat <<< 32
    ||| BitVec.ofNat 64 (b.getD (i + 4) 0).toNat <<< 24 ||| BitVec.ofNat 64 (b.getD (i + 5) 0).toNat <<< 16
    ||| BitVec.ofNat 64 (b.getD (i + 6) 0).toNat <<< 8 ||| BitVec.ofNat 64 (b.getD (i + 7) 0).toNat

/-- `(unsigned char) (n >> k)` -/
def byteOf {w : Nat} (n : BitVec w) (k : Nat) : UInt8 := UInt8.ofNat (n >>> k).toNat

def PUT_UINT32_LE (n : BitVec 32) : Bytes := [byteOf n 0, byteOf n 8, byteOf n 16, byteOf n 24]

def PUT_UINT32_BE (n : BitVec 32) : Bytes := [byteOf n 24, byteOf n 16, byteOf n 8, byteOf n 0]

def PUT_UINT64_BE (n : BitVec 64) : Bytes :=
  [byteOf n 56, byteOf n 48, byteOf n 40, byteOf n 32, byteOf n 24, byteOf n 16, byteOf n 8, byteOf n 0]

theorem byteOf_eq {w : Nat} {n m : BitVec w} {k : Nat} (h : byteOf n k = byteOf m k) :
    n.toNat / 2 ^ k % 256 = m.toNat / 2 ^ k % 256 := by
  have hbyte := congrArg UInt8.toNat h
  simpa [byteOf, BitVec.toNat_ushiftRight, Nat.shiftRight_eq_div_pow] using hbyte

theorem div_succ_byte (n k : Nat) : n / 2 ^ k = 256 * (n / 2 ^ (k + 8)) + n / 2 ^ k % 256 := by
  rw [Nat.pow_add, ← Nat.div_div_eq_div_mul, Nat.div_add_mod]

/-- A word is its bytes. -/
theorem eq_of_bytes {k : Nat} {n m : BitVec (8 * k)}
    (h : ∀ i, i < k → byteOf n (8 * i) = byteOf m (8 * i)) : n = m := by
  have hfrom : ∀ i, i ≤ k → n.toNat / 2 ^ (8 * (k - i)) = m.toNat / 2 ^ (8 * (k - i)) := by
    intro i hi
    induction i with
    | zero => rw [Nat.sub_zero, Nat.div_eq_of_lt n.isLt, Nat.div_eq_of_lt m.isLt]
    | succ i ih =>
      have hnext : 8 * (k - (i + 1)) + 8 = 8 * (k - i) := by omega
      rw [div_succ_byte n.toNat, div_succ_byte m.toNat, hnext, ih (by omega),
        byteOf_eq (h (k - (i + 1)) (by omega))]
  have hwhole := hfrom k le_rfl
  rw [Nat.sub_self, Nat.mul_zero, Nat.pow_zero, Nat.div_one, Nat.div_one] at hwhole
  exact BitVec.eq_of_toNat_eq hwhole

theorem length_PUT_UINT32_LE (n : BitVec 32) : (PUT_UINT32_LE n).length = 4 := rfl

theorem length_PUT_UINT32_BE (n : BitVec 32) : (PUT_UINT32_BE n).length = 4 := rfl

theorem length_PUT_UINT64_BE (n : BitVec 64) : (PUT_UINT64_BE n).length = 8 := rfl

theorem PUT_UINT32_LE_inj {n m : BitVec 32} (h : PUT_UINT32_LE n = PUT_UINT32_LE m) : n = m := by
  simp only [PUT_UINT32_LE, List.cons.injEq, and_true] at h
  obtain ⟨h0, h1, h2, h3⟩ := h
  refine @eq_of_bytes 4 n m fun i hi => ?_
  interval_cases i <;> assumption

theorem PUT_UINT32_BE_inj {n m : BitVec 32} (h : PUT_UINT32_BE n = PUT_UINT32_BE m) : n = m :=
  PUT_UINT32_LE_inj (congrArg List.reverse h)

theorem PUT_UINT64_BE_inj {n m : BitVec 64} (h : PUT_UINT64_BE n = PUT_UINT64_BE m) : n = m := by
  simp only [PUT_UINT64_BE, List.cons.injEq, and_true] at h
  obtain ⟨h7, h6, h5, h4, h3, h2, h1, h0⟩ := h
  refine @eq_of_bytes 8 n m fun i hi => ?_
  interval_cases i <;> assumption

/-! ## MD4 and MD5 -/

/-- Four words; in a row of calls of `P`, the parameters of the next call. -/
abbrev Words4 := BitVec 32 × BitVec 32 × BitVec 32 × BitVec 32

def Words4.add : Words4 → Words4 → Words4
  | (a, b, c, d), (a', b', c', d') => (a + a', b + b', c + c', d + d')

/-- `S(x, n)` -/
def rotateLeft (x : BitVec 32) (n : Nat) : BitVec 32 := x <<< n ||| (x &&& 0xFFFFFFFF) >>> (32 - n)

namespace Md4

/-- The calls `P(a, b, c, d, X[k], s)` of a round, with its `F` and what its `P` adds. -/
def round (F : BitVec 32 → BitVec 32 → BitVec 32 → BitVec 32) (t : BitVec 32) (data : Bytes)
    (words : Words4) (calls : List (Nat × Nat)) : Words4 :=
  calls.foldl (fun (a, b, c, d) (k, s) =>
    (d, rotateLeft (a + (F b c d + GET_UINT32_LE data (4 * k) + t)) s, b, c)) words

def calls1 : List (Nat × Nat) := [
  (0, 3), (1, 7), (2, 11), (3, 19), (4, 3), (5, 7), (6, 11), (7, 19),
  (8, 3), (9, 7), (10, 11), (11, 19), (12, 3), (13, 7), (14, 11), (15, 19)]

def calls2 : List (Nat × Nat) := [
  (0, 3), (4, 5), (8, 9), (12, 13), (1, 3), (5, 5), (9, 9), (13, 13),
  (2, 3), (6, 5), (10, 9), (14, 13), (3, 3), (7, 5), (11, 9), (15, 13)]

def calls3 : List (Nat × Nat) := [
  (0, 3), (8, 9), (4, 11), (12, 15), (2, 3), (10, 9), (6, 11), (14, 15),
  (1, 3), (9, 9), (5, 11), (13, 15), (3, 3), (11, 9), (7, 11), (15, 15)]

end Md4

def md4_process (state : Words4) (data : Bytes) : Words4 :=
  let words := Md4.round (fun x y z => (x &&& y) ||| (~~~x &&& z)) 0 data state Md4.calls1
  let words := Md4.round (fun x y z => (x &&& y) ||| (x &&& z) ||| (y &&& z)) 0x5A827999 data words Md4.calls2
  let words := Md4.round (fun x y z => x ^^^ y ^^^ z) 0x6ED9EBA1 data words Md4.calls3
  state.add words

namespace Md5

/-- The calls `P(a, b, c, d, k, s, t)` of a round. -/
def round (F : BitVec 32 → BitVec 32 → BitVec 32 → BitVec 32) (data : Bytes) (words : Words4)
    (calls : List (Nat × Nat × BitVec 32)) : Words4 :=
  calls.foldl (fun (a, b, c, d) (k, s, t) =>
    (d, rotateLeft (a + (F b c d + GET_UINT32_LE data (4 * k) + t)) s + b, b, c)) words

def calls1 : List (Nat × Nat × BitVec 32) := [
  (0, 7, 0xD76AA478), (1, 12, 0xE8C7B756), (2, 17, 0x242070DB), (3, 22, 0xC1BDCEEE),
  (4, 7, 0xF57C0FAF), (5, 12, 0x4787C62A), (6, 17, 0xA8304613), (7, 22, 0xFD469501),
  (8, 7, 0x698098D8), (9, 12, 0x8B44F7AF), (10, 17, 0xFFFF5BB1), (11, 22, 0x895CD7BE),
  (12, 7, 0x6B901122), (13, 12, 0xFD987193), (14, 17, 0xA679438E), (15, 22, 0x49B40821)]

def calls2 : List (Nat × Nat × BitVec 32) := [
  (1, 5, 0xF61E2562), (6, 9, 0xC040B340), (11, 14, 0x265E5A51), (0, 20, 0xE9B6C7AA),
  (5, 5, 0xD62F105D), (10, 9, 0x02441453), (15, 14, 0xD8A1E681), (4, 20, 0xE7D3FBC8),
  (9, 5, 0x21E1CDE6), (14, 9, 0xC33707D6), (3, 14, 0xF4D50D87), (8, 20, 0x455A14ED),
  (13, 5, 0xA9E3E905), (2, 9, 0xFCEFA3F8), (7, 14, 0x676F02D9), (12, 20, 0x8D2A4C8A)]

def calls3 : List (Nat × Nat × BitVec 32) := [
  (5, 4, 0xFFFA3942), (8, 11, 0x8771F681), (11, 16, 0x6D9D6122), (14, 23, 0xFDE5380C),
  (1, 4, 0xA4BEEA44), (4, 11, 0x4BDECFA9), (7, 16, 0xF6BB4B60), (10, 23, 0xBEBFBC70),
  (13, 4, 0x289B7EC6), (0, 11, 0xEAA127FA), (3, 16, 0xD4EF3085), (6, 23, 0x04881D05),
  (9, 4, 0xD9D4D039), (12, 11, 0xE6DB99E5), (15, 16, 0x1FA27CF8), (2, 23, 0xC4AC5665)]

def calls4 : List (Nat × Nat × BitVec 32) := [
  (0, 6, 0xF4292244), (7, 10, 0x432AFF97), (14, 15, 0xAB9423A7), (5, 21, 0xFC93A039),
  (12, 6, 0x655B59C3), (3, 10, 0x8F0CCC92), (10, 15, 0xFFEFF47D), (1, 21, 0x85845DD1),
  (8, 6, 0x6FA87E4F), (15, 10, 0xFE2CE6E0), (6, 15, 0xA3014314), (13, 21, 0x4E0811A1),
  (4, 6, 0xF7537E82), (11, 10, 0xBD3AF235), (2, 15, 0x2AD7D2BB), (9, 21, 0xEB86D391)]

end Md5

def md5_process (state : Words4) (data : Bytes) : Words4 :=
  let words := Md5.round (fun x y z => z ^^^ (x &&& (y ^^^ z))) data state Md5.calls1
  let words := Md5.round (fun x y z => y ^^^ (z &&& (x ^^^ y))) data words Md5.calls2
  let words := Md5.round (fun x y z => x ^^^ y ^^^ z) data words Md5.calls3
  let words := Md5.round (fun x y z => y ^^^ (x ||| ~~~z)) data words Md5.calls4
  state.add words

/-! ## SHA-1 -/

abbrev Words5 := BitVec 32 × BitVec 32 × BitVec 32 × BitVec 32 × BitVec 32

def Words5.add : Words5 → Words5 → Words5
  | (a, b, c, d, e), (a', b', c', d', e') => (a + a', b + b', c + c', d + d', e + e')

namespace Sha1

/-- `W[t]` for the first 16 calls, then `R(t)`: the word, and the ring `W`. -/
def word (W : List (BitVec 32)) (t : Nat) : BitVec 32 × List (BitVec 32) :=
  if t < 16 then (W.getD t 0, W)
  else
    let temp := W.getD ((t - 3) % 16) 0 ^^^ W.getD ((t - 8) % 16) 0 ^^^ W.getD ((t - 14) % 16) 0
      ^^^ W.getD (t % 16) 0
    (rotateLeft temp 1, W.set (t % 16) (rotateLeft temp 1))

/-- The 20 calls `P(a, b, c, d, e, x)` with one `F` and one `K`. -/
def round (F : BitVec 32 → BitVec 32 → BitVec 32 → BitVec 32) (K : BitVec 32) (first : Nat)
    (p : Words5 × List (BitVec 32)) : Words5 × List (BitVec 32) :=
  (List.range' first 20).foldl (fun ((a, b, c, d, e), W) t =>
    let x := word W t
    ((e + (rotateLeft a 5 + F b c d + K + x.1), a, rotateLeft b 30, c, d), x.2)) p

end Sha1

def sha1_process (state : Words5) (data : Bytes) : Words5 :=
  let p := (state, (List.range 16).map fun i => GET_UINT32_BE data (4 * i))
  let p := Sha1.round (fun x y z => z ^^^ (x &&& (y ^^^ z))) 0x5A827999 0 p
  let p := Sha1.round (fun x y z => x ^^^ y ^^^ z) 0x6ED9EBA1 20 p
  let p := Sha1.round (fun x y z => (x &&& y) ||| (z &&& (x ||| y))) 0x8F1BBCDC 40 p
  let p := Sha1.round (fun x y z => x ^^^ y ^^^ z) 0xCA62C1D6 60 p
  state.add p.1

/-! ## SHA-2 -/

/-- The eight words of `state` of `sha2.c` and `sha4.c`. -/
abbrev Words8 (w : Nat) :=
  BitVec w × BitVec w × BitVec w × BitVec w × BitVec w × BitVec w × BitVec w × BitVec w

namespace Words8

variable {w : Nat}

def add : Words8 w → Words8 w → Words8 w
  | (a, b, c, d, e, f, g, h), (a', b', c', d', e', f', g', h') =>
    (a + a', b + b', c + c', d + d', e + e', f + f', g + g', h + h')

def F0 (x y z : BitVec w) : BitVec w := (x &&& y) ||| (z &&& (x ||| y))

def F1 (x y z : BitVec w) : BitVec w := z ^^^ (x &&& (y ^^^ z))

/-- `P(a, b, c, d, e, f, g, h, x, K)`, with the `S2` and `S3` of the file. -/
def P (S2 S3 : BitVec w → BitVec w) : Words8 w → BitVec w → BitVec w → Words8 w
  | (a, b, c, d, e, f, g, h), x, K =>
    let temp1 := h + S3 e + F1 e f g + K + x
    let temp2 := S2 a + F0 a b c
    (temp1 + temp2, a, b, c, d + temp1, e, f, g)

/-- What `R(t)` assigns to `W[t]`. -/
def R (S0 S1 : BitVec w → BitVec w) (W : List (BitVec w)) (t : Nat) : BitVec w :=
  S1 (W.getD (t - 2) 0) + W.getD (t - 7) 0 + S0 (W.getD (t - 15) 0) + W.getD (t - 16) 0

end Words8

open Words8

namespace Sha2

def SHR (x : BitVec 32) (n : Nat) : BitVec 32 := (x &&& 0xFFFFFFFF) >>> n
def ROTR (x : BitVec 32) (n : Nat) : BitVec 32 := SHR x n ||| x <<< (32 - n)

def S0 (x : BitVec 32) : BitVec 32 := ROTR x 7 ^^^ ROTR x 18 ^^^ SHR x 3
def S1 (x : BitVec 32) : BitVec 32 := ROTR x 17 ^^^ ROTR x 19 ^^^ SHR x 10
def S2 (x : BitVec 32) : BitVec 32 := ROTR x 2 ^^^ ROTR x 13 ^^^ ROTR x 22
def S3 (x : BitVec 32) : BitVec 32 := ROTR x 6 ^^^ ROTR x 11 ^^^ ROTR x 25

/-- The last parameters of the calls of `P`. -/
def K : List (BitVec 32) := [
  0x428A2F98, 0x71374491, 0xB5C0FBCF, 0xE9B5DBA5, 0x3956C25B, 0x59F111F1, 0x923F82A4, 0xAB1C5ED5,
  0xD807AA98, 0x12835B01, 0x243185BE, 0x550C7DC3, 0x72BE5D74, 0x80DEB1FE, 0x9BDC06A7, 0xC19BF174,
  0xE49B69C1, 0xEFBE4786, 0x0FC19DC6, 0x240CA1CC, 0x2DE92C6F, 0x4A7484AA, 0x5CB0A9DC, 0x76F988DA,
  0x983E5152, 0xA831C66D, 0xB00327C8, 0xBF597FC7, 0xC6E00BF3, 0xD5A79147, 0x06CA6351, 0x14292967,
  0x27B70A85, 0x2E1B2138, 0x4D2C6DFC, 0x53380D13, 0x650A7354, 0x766A0ABB, 0x81C2C92E, 0x92722C85,
  0xA2BFE8A1, 0xA81A664B, 0xC24B8B70, 0xC76C51A3, 0xD192E819, 0xD6990624, 0xF40E3585, 0x106AA070,
  0x19A4C116, 0x1E376C08, 0x2748774C, 0x34B0BCB5, 0x391C0CB3, 0x4ED8AA4A, 0x5B9CCA4F, 0x682E6FF3,
  0x748F82EE, 0x78A5636F, 0x84C87814, 0x8CC70208, 0x90BEFFFA, 0xA4506CEB, 0xBEF9A3F7, 0xC67178F2]

end Sha2

def sha2_process (state : Words8 32) (data : Bytes) : Words8 32 :=
  let W := (List.range 16).map fun i => GET_UINT32_BE data (4 * i)
  let p := (List.range 64).foldl (fun (words, W) t =>
    let W := if t < 16 then W else W ++ [R Sha2.S0 Sha2.S1 W t]
    (P Sha2.S2 Sha2.S3 words (W.getD t 0) (Sha2.K.getD t 0), W)) (state, W)
  state.add p.1

namespace Sha4

def SHR (x : BitVec 64) (n : Nat) : BitVec 64 := x >>> n
def ROTR (x : BitVec 64) (n : Nat) : BitVec 64 := SHR x n ||| x <<< (64 - n)

def S0 (x : BitVec 64) : BitVec 64 := ROTR x 1 ^^^ ROTR x 8 ^^^ SHR x 7
def S1 (x : BitVec 64) : BitVec 64 := ROTR x 19 ^^^ ROTR x 61 ^^^ SHR x 6
def S2 (x : BitVec 64) : BitVec 64 := ROTR x 28 ^^^ ROTR x 34 ^^^ ROTR x 39
def S3 (x : BitVec 64) : BitVec 64 := ROTR x 14 ^^^ ROTR x 18 ^^^ ROTR x 41

def K : List (BitVec 64) := [
  0x428A2F98D728AE22, 0x7137449123EF65CD, 0xB5C0FBCFEC4D3B2F, 0xE9B5DBA58189DBBC,
  0x3956C25BF348B538, 0x59F111F1B605D019, 0x923F82A4AF194F9B, 0xAB1C5ED5DA6D8118,
  0xD807AA98A3030242, 0x12835B0145706FBE, 0x243185BE4EE4B28C, 0x550C7DC3D5FFB4E2,
  0x72BE5D74F27B896F, 0x80DEB1FE3B1696B1, 0x9BDC06A725C71235, 0xC19BF174CF692694,
  0xE49B69C19EF14AD2, 0xEFBE4786384F25E3, 0x0FC19DC68B8CD5B5, 0x240CA1CC77AC9C65,
  0x2DE92C6F592B0275, 0x4A7484AA6EA6E483, 0x5CB0A9DCBD41FBD4, 0x76F988DA831153B5,
  0x983E5152EE66DFAB, 0xA831C66D2DB43210, 0xB00327C898FB213F, 0xBF597FC7BEEF0EE4,
  0xC6E00BF33DA88FC2, 0xD5A79147930AA725, 0x06CA6351E003826F, 0x142929670A0E6E70,
  0x27B70A8546D22FFC, 0x2E1B21385C26C926, 0x4D2C6DFC5AC42AED, 0x53380D139D95B3DF,
  0x650A73548BAF63DE, 0x766A0ABB3C77B2A8, 0x81C2C92E47EDAEE6, 0x92722C851482353B,
  0xA2BFE8A14CF10364, 0xA81A664BBC423001, 0xC24B8B70D0F89791, 0xC76C51A30654BE30,
  0xD192E819D6EF5218, 0xD69906245565A910, 0xF40E35855771202A, 0x106AA07032BBD1B8,
  0x19A4C116B8D2D0C8, 0x1E376C085141AB53, 0x2748774CDF8EEB99, 0x34B0BCB5E19B48A8,
  0x391C0CB3C5C95A63, 0x4ED8AA4AE3418ACB, 0x5B9CCA4F7763E373, 0x682E6FF3D6B2B8A3,
  0x748F82EE5DEFB2FC, 0x78A5636F43172F60, 0x84C87814A1F0AB72, 0x8CC702081A6439EC,
  0x90BEFFFA23631E28, 0xA4506CEBDE82BDE9, 0xBEF9A3F7B2C67915, 0xC67178F2E372532B,
  0xCA273ECEEA26619C, 0xD186B8C721C0C207, 0xEADA7DD6CDE0EB1E, 0xF57D4F7FEE6ED178,
  0x06F067AA72176FBA, 0x0A637DC5A2C898A6, 0x113F9804BEF90DAE, 0x1B710B35131C471B,
  0x28DB77F523047D84, 0x32CAAB7B40C72493, 0x3C9EBE0A15C9BEBC, 0x431D67C49C100D4C,
  0x4CC5D4BECB3E42B6, 0x597F299CFC657E2A, 0x5FCB6FAB3AD6FAEC, 0x6C44198C4A475817]

end Sha4

def sha4_process (state : Words8 64) (data : Bytes) : Words8 64 :=
  let W := (List.range 16).map fun i => GET_UINT64_BE data (8 * i)
  let W := (List.range' 16 64).foldl (fun W i => W ++ [R Sha4.S0 Sha4.S1 W i]) W
  let words := (List.range 80).foldl (fun words i =>
    P Sha4.S2 Sha4.S3 words (W.getD i 0) (Sha4.K.getD i 0)) state
  state.add words

/-! ## The functions of the files -/

theorem length_flatMap_put {w e : Nat} {put : BitVec w → Bytes} (hlen : ∀ n, (put n).length = e)
    (l : List (BitVec w)) : (l.flatMap put).length = l.length * e := by
  induction l with
  | nil => exact (Nat.zero_mul e).symm
  | cons n l ih =>
    rw [List.flatMap_cons, List.length_append, hlen, ih, List.length_cons, Nat.succ_mul, Nat.add_comm]

/-- Words are told apart by their bytes. -/
theorem flatMap_put_inj {w e : Nat} {put : BitVec w → Bytes} (hlen : ∀ n, (put n).length = e)
    (hinj : ∀ {n m}, put n = put m → n = m) {l l' : List (BitVec w)} (h : l.flatMap put = l'.flatMap put)
    (hsame : l.length = l'.length) : l = l' := by
  induction l generalizing l' with
  | nil => exact (List.eq_nil_of_length_eq_zero hsame.symm).symm
  | cons n l ih =>
    cases l' with
    | nil => exact absurd hsame (Nat.succ_ne_zero _)
    | cons m l' =>
      rw [List.flatMap_cons, List.flatMap_cons] at h
      obtain ⟨hput, hrest⟩ := List.append_inj h (by rw [hlen, hlen])
      rw [hinj hput, ih hrest (Nat.succ.inj hsame)]

/-- `md4.c` and `md5.c`. -/
def littleEndian (process : Words4 → Bytes → Words4) : BlockDigest 32 64 Words4 where
  initial := (0x67452301, 0xEFCDAB89, 0x98BADCFE, 0x10325476)
  process := process
  msglen high low := PUT_UINT32_LE low ++ PUT_UINT32_LE high
  output := fun (a, b, c, d) => [a, b, c, d].flatMap PUT_UINT32_LE
  size := 16
  three_le := by decide
  room := by decide
  dvd := by decide
  length_msglen := fun _ _ => rfl
  msglen_inj := fun _ _ _ _ h => by
    obtain ⟨hlow, hhigh⟩ := List.append_inj h (by rw [length_PUT_UINT32_LE, length_PUT_UINT32_LE])
    exact ⟨PUT_UINT32_LE_inj hhigh, PUT_UINT32_LE_inj hlow⟩
  length_output := fun _ => length_flatMap_put length_PUT_UINT32_LE _

def md4Digest : BlockDigest 32 64 Words4 := littleEndian md4_process

def md5Digest : BlockDigest 32 64 Words4 := littleEndian md5_process

theorem msglen32_inj (high low high' low' : BitVec 32)
    (h : PUT_UINT32_BE high ++ PUT_UINT32_BE low = PUT_UINT32_BE high' ++ PUT_UINT32_BE low') :
    high = high' ∧ low = low' := by
  obtain ⟨hhigh, hlow⟩ := List.append_inj h (by rw [length_PUT_UINT32_BE, length_PUT_UINT32_BE])
  exact ⟨PUT_UINT32_BE_inj hhigh, PUT_UINT32_BE_inj hlow⟩

theorem msglen64_inj (high low high' low' : BitVec 64)
    (h : PUT_UINT64_BE high ++ PUT_UINT64_BE low = PUT_UINT64_BE high' ++ PUT_UINT64_BE low') :
    high = high' ∧ low = low' := by
  obtain ⟨hhigh, hlow⟩ := List.append_inj h (by rw [length_PUT_UINT64_BE, length_PUT_UINT64_BE])
  exact ⟨PUT_UINT64_BE_inj hhigh, PUT_UINT64_BE_inj hlow⟩

def sha1Digest : BlockDigest 32 64 Words5 where
  initial := (0x67452301, 0xEFCDAB89, 0x98BADCFE, 0x10325476, 0xC3D2E1F0)
  process := sha1_process
  msglen high low := PUT_UINT32_BE high ++ PUT_UINT32_BE low
  output := fun (a, b, c, d, e) => [a, b, c, d, e].flatMap PUT_UINT32_BE
  size := 20
  three_le := by decide
  room := by decide
  dvd := by decide
  length_msglen := fun _ _ => rfl
  msglen_inj := msglen32_inj
  length_output := fun _ => length_flatMap_put length_PUT_UINT32_BE _

/-- SHA-256 for `is224 == 0`, otherwise SHA-224. -/
def sha2Digest (is224 : Int) : BlockDigest 32 64 (Words8 32) where
  initial :=
    if is224 == 0 then
      (0x6A09E667, 0xBB67AE85, 0x3C6EF372, 0xA54FF53A, 0x510E527F, 0x9B05688C, 0x1F83D9AB, 0x5BE0CD19)
    else
      (0xC1059ED8, 0x367CD507, 0x3070DD17, 0xF70E5939, 0xFFC00B31, 0x68581511, 0x64F98FA7, 0xBEFA4FA4)
  process := sha2_process
  msglen high low := PUT_UINT32_BE high ++ PUT_UINT32_BE low
  output := fun (a, b, c, d, e, f, g, h) =>
    ([a, b, c, d, e, f, g] ++ if is224 == 0 then [h] else []).flatMap PUT_UINT32_BE
  size := if is224 == 0 then 32 else 28
  three_le := by decide
  room := by decide
  dvd := by decide
  length_msglen := fun _ _ => rfl
  msglen_inj := msglen32_inj
  length_output := fun _ => by
    rw [length_flatMap_put length_PUT_UINT32_BE]
    cases is224 == 0 <;> rfl

/-- SHA-512 for `is384 == 0`, otherwise SHA-384. -/
def sha4Digest (is384 : Int) : BlockDigest 64 128 (Words8 64) where
  initial :=
    if is384 == 0 then
      (0x6A09E667F3BCC908, 0xBB67AE8584CAA73B, 0x3C6EF372FE94F82B, 0xA54FF53A5F1D36F1,
        0x510E527FADE682D1, 0x9B05688C2B3E6C1F, 0x1F83D9ABFB41BD6B, 0x5BE0CD19137E2179)
    else
      (0xCBBB9D5DC1059ED8, 0x629A292A367CD507, 0x9159015A3070DD17, 0x152FECD8F70E5939,
        0x67332667FFC00B31, 0x8EB44A8768581511, 0xDB0C2E0D64F98FA7, 0x47B5481DBEFA4FA4)
  process := sha4_process
  msglen high low := PUT_UINT64_BE high ++ PUT_UINT64_BE low
  output := fun (a, b, c, d, e, f, g, h) =>
    ([a, b, c, d, e, f] ++ if is384 == 0 then [g, h] else []).flatMap PUT_UINT64_BE
  size := if is384 == 0 then 64 else 48
  three_le := by decide
  room := by decide
  dvd := by decide
  length_msglen := fun _ _ => rfl
  msglen_inj := msglen64_inj
  length_output := fun _ => by
    rw [length_flatMap_put length_PUT_UINT64_BE]
    cases is384 == 0 <;> rfl

abbrev Md4Context := BlockContext 32 64 Words4

def md4_starts (ctx : Md4Context) : Md4Context := md4Digest.start ctx
def md4_update (ctx : Md4Context) (input : Bytes) : Md4Context := md4Digest.update ctx input
def md4_finish (ctx : Md4Context) : Md4Context × Bytes := md4Digest.finish ctx
def md4 (stack : Md4Context) (input : Bytes) : Bytes := (md4_finish (md4_update (md4_starts stack) input)).2

abbrev Md5Context := BlockContext 32 64 Words4

def md5_starts (ctx : Md5Context) : Md5Context := md5Digest.start ctx
def md5_update (ctx : Md5Context) (input : Bytes) : Md5Context := md5Digest.update ctx input
def md5_finish (ctx : Md5Context) : Md5Context × Bytes := md5Digest.finish ctx
def md5 (stack : Md5Context) (input : Bytes) : Bytes := (md5_finish (md5_update (md5_starts stack) input)).2

abbrev Sha1Context := BlockContext 32 64 Words5

def sha1_starts (ctx : Sha1Context) : Sha1Context := sha1Digest.start ctx
def sha1_update (ctx : Sha1Context) (input : Bytes) : Sha1Context := sha1Digest.update ctx input
def sha1_finish (ctx : Sha1Context) : Sha1Context × Bytes := sha1Digest.finish ctx
def sha1 (stack : Sha1Context) (input : Bytes) : Bytes :=
  (sha1_finish (sha1_update (sha1_starts stack) input)).2

structure Sha2Context extends BlockContext 32 64 (Words8 32) where
  is224 : Int

def sha2_starts (ctx : Sha2Context) (is224 : Int) : Sha2Context :=
  ⟨(sha2Digest is224).start ctx.toBlockContext, is224⟩
def sha2_update (ctx : Sha2Context) (input : Bytes) : Sha2Context :=
  ⟨(sha2Digest ctx.is224).update ctx.toBlockContext input, ctx.is224⟩
def sha2_finish (ctx : Sha2Context) : Sha2Context × Bytes :=
  let p := (sha2Digest ctx.is224).finish ctx.toBlockContext
  (⟨p.1, ctx.is224⟩, p.2)
def sha2 (stack : Sha2Context) (input : Bytes) (is224 : Int) : Bytes :=
  (sha2_finish (sha2_update (sha2_starts stack is224) input)).2

structure Sha4Context extends BlockContext 64 128 (Words8 64) where
  is384 : Int

def sha4_starts (ctx : Sha4Context) (is384 : Int) : Sha4Context :=
  ⟨(sha4Digest is384).start ctx.toBlockContext, is384⟩
def sha4_update (ctx : Sha4Context) (input : Bytes) : Sha4Context :=
  ⟨(sha4Digest ctx.is384).update ctx.toBlockContext input, ctx.is384⟩
def sha4_finish (ctx : Sha4Context) : Sha4Context × Bytes :=
  let p := (sha4Digest ctx.is384).finish ctx.toBlockContext
  (⟨p.1, ctx.is384⟩, p.2)
def sha4 (stack : Sha4Context) (input : Bytes) (is384 : Int) : Bytes :=
  (sha4_finish (sha4_update (sha4_starts stack is384) input)).2

/-! ## `md_wrap.c` and the table of `md.c` -/

def md4_info (alloc : Option Md4Context) (stack : Md4Context) : MdInfo Md4Context :=
  ⟨16, md4_starts, md4_update, md4_finish, md4 stack, alloc⟩

def md5_info (alloc : Option Md5Context) (stack : Md5Context) : MdInfo Md5Context :=
  ⟨16, md5_starts, md5_update, md5_finish, md5 stack, alloc⟩

def sha1_info (alloc : Option Sha1Context) (stack : Sha1Context) : MdInfo Sha1Context :=
  ⟨20, sha1_starts, sha1_update, sha1_finish, sha1 stack, alloc⟩

def sha224_info (alloc : Option Sha2Context) (stack : Sha2Context) : MdInfo Sha2Context :=
  ⟨28, (sha2_starts · 1), sha2_update, sha2_finish, (sha2 stack · 1), alloc⟩

def sha256_info (alloc : Option Sha2Context) (stack : Sha2Context) : MdInfo Sha2Context :=
  ⟨32, (sha2_starts · 0), sha2_update, sha2_finish, (sha2 stack · 0), alloc⟩

def sha384_info (alloc : Option Sha4Context) (stack : Sha4Context) : MdInfo Sha4Context :=
  ⟨48, (sha4_starts · 1), sha4_update, sha4_finish, (sha4 stack · 1), alloc⟩

def sha512_info (alloc : Option Sha4Context) (stack : Sha4Context) : MdInfo Sha4Context :=
  ⟨64, (sha4_starts · 0), sha4_update, sha4_finish, (sha4 stack · 0), alloc⟩

/-- `md_type_t` -/
inductive MdType
  | md2 | md4 | md5 | sha1 | sha224 | sha256 | sha384 | sha512
deriving DecidableEq

namespace MdType

/-- What the `md_ctx` of a digest points to. -/
def Ctx : MdType → Type
  | md2 => Md2Context
  | md4 => Md4Context
  | md5 => Md5Context
  | sha1 => Sha1Context
  | sha224 => Sha2Context
  | sha256 => Sha2Context
  | sha384 => Sha4Context
  | sha512 => Sha4Context

end MdType

def md_info_from_type : (md_type : MdType) → Option md_type.Ctx → md_type.Ctx → MdInfo md_type.Ctx
  | .md2 => md2_info
  | .md4 => md4_info
  | .md5 => md5_info
  | .sha1 => sha1_info
  | .sha224 => sha224_info
  | .sha256 => sha256_info
  | .sha384 => sha384_info
  | .sha512 => sha512_info

/-! ## What the digests are -/

theorem sha2_updates (ctx : Sha2Context) (pieces : List Bytes) :
    pieces.foldl sha2_update ctx
      = ⟨pieces.foldl (sha2Digest ctx.is224).update ctx.toBlockContext, ctx.is224⟩ := by
  induction pieces generalizing ctx with
  | nil => rfl
  | cons piece pieces ih => exact ih (sha2_update ctx piece)

theorem sha4_updates (ctx : Sha4Context) (pieces : List Bytes) :
    pieces.foldl sha4_update ctx
      = ⟨pieces.foldl (sha4Digest ctx.is384).update ctx.toBlockContext, ctx.is384⟩ := by
  induction pieces generalizing ctx with
  | nil => rfl
  | cons piece pieces ih => exact ih (sha4_update ctx piece)

theorem sha2_pieces (ctx : Sha2Context) (is224 : Int) (pieces : List Bytes) :
    (sha2_finish (pieces.foldl sha2_update (sha2_starts ctx is224))).2
      = (sha2Digest is224).standard (BlockDigest.counted 32 pieces) pieces.flatten := by
  rw [sha2_updates]
  simp only [sha2_finish, sha2_starts, BlockDigest.finish_pieces]

theorem sha4_pieces (ctx : Sha4Context) (is384 : Int) (pieces : List Bytes) :
    (sha4_finish (pieces.foldl sha4_update (sha4_starts ctx is384))).2
      = (sha4Digest is384).standard (BlockDigest.counted 64 pieces) pieces.flatten := by
  rw [sha4_updates]
  simp only [sha4_finish, sha4_starts, BlockDigest.finish_pieces]

namespace MdType

/-- The words in which the length of a message is counted. -/
def width : MdType → Nat
  | sha384 | sha512 => 64
  | _ => 32

/-- The digest of a message of which `count` bytes are counted. -/
def standard : MdType → Nat → Bytes → Bytes
  | md2, _, message => SetSync.md2 zeroContext message
  | md4, count, message => md4Digest.standard count message
  | md5, count, message => md5Digest.standard count message
  | sha1, count, message => sha1Digest.standard count message
  | sha224, count, message => (sha2Digest 1).standard count message
  | sha256, count, message => (sha2Digest 0).standard count message
  | sha384, count, message => (sha4Digest 1).standard count message
  | sha512, count, message => (sha4Digest 0).standard count message

theorem finish_pieces (t : MdType) (alloc : Option t.Ctx) (stack ctx : t.Ctx) (pieces : List Bytes) :
    let info := md_info_from_type t alloc stack
    (info.finish_func (pieces.foldl info.update_func (info.starts_func ctx))).2
      = t.standard (BlockDigest.counted t.width pieces) pieces.flatten := by
  cases t with
  | md2 => exact md2_pieces ctx zeroContext pieces
  | md4 => exact md4Digest.finish_pieces ctx pieces
  | md5 => exact md5Digest.finish_pieces ctx pieces
  | sha1 => exact sha1Digest.finish_pieces ctx pieces
  | sha224 => exact sha2_pieces ctx 1 pieces
  | sha256 => exact sha2_pieces ctx 0 pieces
  | sha384 => exact sha4_pieces ctx 1 pieces
  | sha512 => exact sha4_pieces ctx 0 pieces

theorem digest_func_eq (t : MdType) (alloc : Option t.Ctx) (stack : t.Ctx) (message : Bytes) :
    (md_info_from_type t alloc stack).digest_func message
      = t.standard (message.length % 2 ^ t.width) message := by
  have h := t.finish_pieces alloc stack stack [message]
  have hcount : BlockDigest.counted t.width [message] = message.length % 2 ^ t.width := Nat.add_zero _
  have hwhole : [message].flatten = message := List.append_nil message
  rw [hcount, hwhole] at h
  refine Eq.trans ?_ h
  show _ = ((md_info_from_type t alloc stack).finish_func
    ((md_info_from_type t alloc stack).update_func ((md_info_from_type t alloc stack).starts_func stack)
      message)).2
  cases t with
  | md2 => simp only [md_info_from_type, md2_info, SetSync.md2]
  | md4 => simp only [md_info_from_type, md4_info, SetSync.md4]
  | md5 => simp only [md_info_from_type, md5_info, SetSync.md5]
  | sha1 => simp only [md_info_from_type, sha1_info, SetSync.sha1]
  | sha224 => simp only [md_info_from_type, sha224_info, sha2]
  | sha256 => simp only [md_info_from_type, sha256_info, sha2]
  | sha384 => simp only [md_info_from_type, sha384_info, sha4]
  | sha512 => simp only [md_info_from_type, sha512_info, sha4]

/-- The pieces of a message do not matter if a word counts it. -/
theorem piecewise (t : MdType) (alloc : Option t.Ctx) (stack : t.Ctx) {s : Bytes}
    (hlt : s.length < 2 ^ t.width) : (md_info_from_type t alloc stack).Piecewise s := by
  rintro ctx pieces rfl
  have hshort : ∀ piece ∈ pieces, piece.length < 2 ^ t.width := fun piece hp =>
    Nat.lt_of_le_of_lt (List.sublist_flatten_of_mem hp).length_le hlt
  rw [t.finish_pieces, t.digest_func_eq, BlockDigest.counted_eq hshort, Nat.mod_eq_of_lt hlt]

/-- What is assumed of a digest by `hash_stream_iff` is true of all of them. -/
theorem finishesEmpty (t : MdType) (alloc : Option t.Ctx) (stack : t.Ctx) :
    (md_info_from_type t alloc stack).FinishesEmpty :=
  (t.piecewise alloc stack (Nat.pow_pos (by decide))).finishesEmpty

end MdType

theorem md_updates {Ctx : Type} (info : MdInfo Ctx) (ctx : Ctx) (pieces : List Bytes) :
    pieces.foldl (fun c piece => (md_update c piece).2) ⟨some info, some ctx⟩
      = ⟨some info, some (pieces.foldl info.update_func ctx)⟩ := by
  induction pieces generalizing ctx with
  | nil => rfl
  | cons piece pieces ih => exact ih (info.update_func ctx piece)

theorem MdType.length_standard (t : MdType) (alloc : Option t.Ctx) (stack : t.Ctx) (count : Nat)
    (message : Bytes) : (t.standard count message).length = (md_info_from_type t alloc stack).size := by
  cases t with
  | md2 => exact length_md2 zeroContext message
  | md4 => exact md4Digest.length_output _
  | md5 => exact md5Digest.length_output _
  | sha1 => exact sha1Digest.length_output _
  | sha224 => exact (sha2Digest 1).length_output _
  | sha256 => exact (sha2Digest 0).length_output _
  | sha384 => exact (sha4Digest 1).length_output _
  | sha512 => exact (sha4Digest 0).length_output _

/-- **Digests in pieces.**  The layer counts the length of each piece in one word, and a message that is
shorter than a word can count has one digest, in one call or in pieces. -/
theorem md_finish_pieces (t : MdType) (ctx stack : t.Ctx) (mdctx : MdContext t.Ctx)
    (pieces : List Bytes) (output : Bytes) :
    let info := md_info_from_type t (some ctx) stack
    let streamed := (md_finish (pieces.foldl (fun c piece => (md_update c piece).2)
      (md_starts (md_init_ctx mdctx (some info)).2).2) output).2.2
    let whole := (md (some info) pieces.flatten output).2
    streamed = t.standard (BlockDigest.counted t.width pieces) pieces.flatten ∧
      whole = t.standard (pieces.flatten.length % 2 ^ t.width) pieces.flatten ∧
      streamed.length = info.size ∧
      (pieces.flatten.length < 2 ^ t.width → streamed = whole) := by
  intro info streamed whole
  have hrun : streamed = (info.finish_func
      (pieces.foldl info.update_func (info.starts_func (info.starts_func ctx)))).2 := by
    have hstart : (md_starts (md_init_ctx mdctx (some info)).2).2
        = ⟨some info, some (info.starts_func (info.starts_func ctx))⟩ := by
      have halloc : info.ctx_alloc_func = some ctx := by cases t <;> rfl
      simp only [md_starts, md_init_ctx, halloc, Option.map_some]
    simp only [streamed, hstart, md_updates, md_finish]
  have hstreamed : streamed = t.standard (BlockDigest.counted t.width pieces) pieces.flatten :=
    hrun.trans (t.finish_pieces (some ctx) stack (info.starts_func ctx) pieces)
  refine ⟨hstreamed, t.digest_func_eq (some ctx) stack pieces.flatten, ?_, fun hlt => ?_⟩
  · rw [hstreamed]
    exact t.length_standard (some ctx) stack _ _
  · exact hrun.trans (t.piecewise (some ctx) stack hlt (info.starts_func ctx) pieces rfl)

/-- A context on a stack that holds zeros. -/
def BlockDigest.zeroStack {w B : Nat} {σ : Type} (dg : BlockDigest w B σ) : BlockContext w B σ :=
  ⟨0, 0, dg.initial, byteKey B 0⟩

theorem md_finish_pieces_sample :
    let info := md_info_from_type .md5 (some md5Digest.zeroStack) md5Digest.zeroStack
    (md_finish ([[0x61], [], [0x62, 0x63]].foldl (fun c piece => (md_update c piece).2)
      (md_starts (md_init_ctx ⟨none, none⟩ (some info)).2).2) []).2.2
      = (md (some info) [0x61, 0x62, 0x63] []).2 :=
  (md_finish_pieces .md5 md5Digest.zeroStack md5Digest.zeroStack ⟨none, none⟩ [[0x61], [], [0x62, 0x63]]
    []).2.2.2 (by decide)

/-- The first message of the self test. -/
example : sha1 sha1Digest.zeroStack [0x61, 0x62, 0x63]
    = [0xA9, 0x99, 0x3E, 0x36, 0x47, 0x06, 0x81, 0x6A, 0xBA, 0x3E,
       0x25, 0x71, 0x78, 0x50, 0xC2, 0x6C, 0x9C, 0xD0, 0xD8, 0x9D] := by decide +kernel

/-! ## Collisions -/

/-- A digest of this kind. -/
structure AnyBlockDigest where
  width : Nat
  block : Nat
  State : Type
  dg : BlockDigest width block State

/-- The digests whose output is the whole state: not MD2, SHA-224 and SHA-384. -/
def wholeDigests : List AnyBlockDigest :=
  [⟨32, 64, Words4, md4Digest⟩, ⟨32, 64, Words4, md5Digest⟩, ⟨32, 64, Words5, sha1Digest⟩,
    ⟨32, 64, Words8 32, sha2Digest 0⟩, ⟨64, 128, Words8 64, sha4Digest 0⟩]

theorem littleEndian_whole (process : Words4 → Bytes → Words4) : (littleEndian process).Whole := by
  rintro ⟨a, b, c, d⟩ ⟨a', b', c', d'⟩ h
  have hall : [a, b, c, d].flatMap PUT_UINT32_LE = [a', b', c', d'].flatMap PUT_UINT32_LE := h
  have hwords := flatMap_put_inj length_PUT_UINT32_LE PUT_UINT32_LE_inj hall rfl
  simpa using hwords

theorem sha1_whole : sha1Digest.Whole := by
  rintro ⟨a, b, c, d, e⟩ ⟨a', b', c', d', e'⟩ h
  have hall : [a, b, c, d, e].flatMap PUT_UINT32_BE = [a', b', c', d', e'].flatMap PUT_UINT32_BE := h
  have hwords := flatMap_put_inj length_PUT_UINT32_BE PUT_UINT32_BE_inj hall rfl
  simpa using hwords

theorem sha256_whole : (sha2Digest 0).Whole := by
  rintro ⟨a, b, c, d, e, f, g, x⟩ ⟨a', b', c', d', e', f', g', x'⟩ h
  have hall : [a, b, c, d, e, f, g, x].flatMap PUT_UINT32_BE
      = [a', b', c', d', e', f', g', x'].flatMap PUT_UINT32_BE := h
  have hwords := flatMap_put_inj length_PUT_UINT32_BE PUT_UINT32_BE_inj hall rfl
  simpa using hwords

theorem sha512_whole : (sha4Digest 0).Whole := by
  rintro ⟨a, b, c, d, e, f, g, x⟩ ⟨a', b', c', d', e', f', g', x'⟩ h
  have hall : [a, b, c, d, e, f, g, x].flatMap PUT_UINT64_BE
      = [a', b', c', d', e', f', g', x'].flatMap PUT_UINT64_BE := h
  have hwords := flatMap_put_inj length_PUT_UINT64_BE PUT_UINT64_BE_inj hall rfl
  simpa using hwords

theorem whole_of_mem {D : AnyBlockDigest} (hD : D ∈ wholeDigests) : D.dg.Whole := by
  simp only [wholeDigests, List.mem_cons, List.not_mem_nil, or_false] at hD
  rcases hD with rfl | rfl | rfl | rfl | rfl
  · exact littleEndian_whole md4_process
  · exact littleEndian_whole md5_process
  · exact sha1_whole
  · exact sha256_whole
  · exact sha512_whole

/-- **Collisions of digests.**  Two messages with one digest hold two blocks that are processed from two
states, or are two blocks, with one result. -/
theorem digest_collision {D : AnyBlockDigest} (hD : D ∈ wholeDigests)
    (stack : BlockContext D.width D.block D.State) {m m' : Bytes} (hm : m.length < 2 ^ D.width)
    (hm' : m'.length < 2 ^ D.width) (hne : m ≠ m') (h : D.dg.digest stack m = D.dg.digest stack m') :
    Collision D.dg.process (D.dg.messageCalls m) (D.dg.messageCalls m') :=
  D.dg.exists_collision_of_digest (whole_of_mem hD) stack hm hm' hne h

/-- Two messages with one MD4 digest. -/
def md4Messages : List Bytes :=
  [[0x83, 0x9c, 0x7a, 0x4d, 0x7a, 0x92, 0xcb, 0x56, 0x78, 0xa5, 0xd5, 0xb9, 0xee, 0xa5, 0xa7, 0x57,
    0x3c, 0x8a, 0x74, 0xde, 0xb3, 0x66, 0xc3, 0xdc, 0x20, 0xa0, 0x83, 0xb6, 0x9f, 0x5d, 0x2a, 0x3b,
    0xb3, 0x71, 0x9d, 0xc6, 0x98, 0x91, 0xe9, 0xf9, 0x5e, 0x80, 0x9f, 0xd7, 0xe8, 0xb2, 0x3b, 0xa6,
    0x31, 0x8e, 0xdd, 0x45, 0xe5, 0x1f, 0xe3, 0x97, 0x08, 0xbf, 0x94, 0x27, 0xe9, 0xc3, 0xe8, 0xb9],
   [0x83, 0x9c, 0x7a, 0x4d, 0x7a, 0x92, 0xcb, 0xd6, 0x78, 0xa5, 0xd5, 0x29, 0xee, 0xa5, 0xa7, 0x57,
    0x3c, 0x8a, 0x74, 0xde, 0xb3, 0x66, 0xc3, 0xdc, 0x20, 0xa0, 0x83, 0xb6, 0x9f, 0x5d, 0x2a, 0x3b,
    0xb3, 0x71, 0x9d, 0xc6, 0x98, 0x91, 0xe9, 0xf9, 0x5e, 0x80, 0x9f, 0xd7, 0xe8, 0xb2, 0x3b, 0xa6,
    0x31, 0x8e, 0xdc, 0x45, 0xe5, 0x1f, 0xe3, 0x97, 0x08, 0xbf, 0x94, 0x27, 0xe9, 0xc3, 0xe8, 0xb9]]

theorem md4Messages_digest : md4Messages.map (md4Digest.digest md4Digest.zeroStack)
    = List.replicate 2 [77, 126, 106, 29, 239, 169, 61, 45, 222, 5, 180, 93, 134, 76, 66, 155] := by
  decide +kernel

theorem digest_collision_sample : Collision md4_process
    (md4Digest.messageCalls (md4Messages.getD 0 [])) (md4Digest.messageCalls (md4Messages.getD 1 [])) := by
  have hmem : (⟨32, 64, Words4, md4Digest⟩ : AnyBlockDigest) ∈ wholeDigests := List.mem_cons_self
  obtain ⟨h0, h1, -⟩ := List.cons.inj md4Messages_digest |>.imp id List.cons.inj
  exact digest_collision hmem md4Digest.zeroStack (by decide) (by decide) (by decide) (h0.trans h1.symm)

/-- The digest function of a set with this digest. -/
def BlockDigest.hash {w B : Nat} {σ : Type} (dg : BlockDigest w B σ) (stack : BlockContext w B σ) :
    CryptoHash dg.size where
  digest data := ⟨dg.digest stack data, dg.length_digest stack data⟩

/-- The calls of `process` for the two hashes in `hashscratch`. -/
def BlockDigest.pairCalls {w B : Nat} {σ : Type} (dg : BlockDigest w B σ)
    (p : Digest dg.size × Digest dg.size) : List (σ × Bytes) :=
  dg.messageCalls (p.1.bytes ++ p.2.bytes)

theorem size_of_mem {D : AnyBlockDigest} (hD : D ∈ wholeDigests) :
    D.dg.size + D.dg.size < 2 ^ D.width := by
  simp only [wholeDigests, List.mem_cons, List.not_mem_nil, or_false] at hD
  rcases hD with rfl | rfl | rfl | rfl | rfl <;> decide

/-- What is assumed of the hashes of a trie follows from the same about `process`. -/
theorem collisionFree_of_process {D : AnyBlockDigest} (hD : D ∈ wholeDigests)
    (stack : BlockContext D.width D.block D.State) (l : List (Digest D.dg.size × Digest D.dg.size))
    (h : ∀ p ∈ l, ∀ q ∈ l, ¬ Collision D.dg.process (D.dg.pairCalls p) (D.dg.pairCalls q)) :
    CollisionFree (D.dg.hash stack) l := by
  intro p hp q hq heq
  by_contra hne
  have hshort : ∀ r : Digest D.dg.size × Digest D.dg.size,
      (r.1.bytes ++ r.2.bytes).length < 2 ^ D.width := by
    intro r
    rw [List.length_append, r.1.length_bytes, r.2.length_bytes]
    exact size_of_mem hD
  have hbytes : p.1.bytes ++ p.2.bytes ≠ q.1.bytes ++ q.2.bytes := by
    intro hsame
    obtain ⟨h1, h2⟩ := List.append_inj hsame (by rw [p.1.length_bytes, q.1.length_bytes])
    exact hne (Prod.ext (Digest.ext h1) (Digest.ext h2))
  exact h p hp q hq (digest_collision hD stack (hshort p) (hshort q) hbytes (congrArg Digest.bytes heq))

def md5Pairs : List (Digest 16 × Digest 16) :=
  [(byteKey 16 1, byteKey 16 2), (byteKey 16 2, byteKey 16 1)]

instance {σ β : Type} [DecidableEq σ] [DecidableEq β] (f : σ → β → σ) (l l' : List (σ × β)) :
    Decidable (Collision f l l') := inferInstanceAs (Decidable (∃ p ∈ l, ∃ q ∈ l', p ≠ q ∧ _ = _))

theorem md5Pairs_separate : ∀ p ∈ md5Pairs, ∀ q ∈ md5Pairs,
    ¬ Collision md5Digest.process (md5Digest.pairCalls p) (md5Digest.pairCalls q) := by
  have hcalls : ∀ p ∈ md5Pairs.map md5Digest.pairCalls, ∀ q ∈ md5Pairs.map md5Digest.pairCalls,
      ¬ Collision md5Digest.process p q := by decide +kernel
  exact fun p hp q hq => hcalls _ (List.mem_map_of_mem hp) _ (List.mem_map_of_mem hq)

theorem collisionFree_of_process_sample :
    (md5Digest.hash md5Digest.zeroStack).pair (byteKey 16 1) (byteKey 16 2)
      ≠ (md5Digest.hash md5Digest.zeroStack).pair (byteKey 16 2) (byteKey 16 1) := by
  have hmem : (⟨32, 64, Words4, md5Digest⟩ : AnyBlockDigest) ∈ wholeDigests :=
    List.mem_cons_of_mem _ List.mem_cons_self
  have hfree := collisionFree_of_process hmem md5Digest.zeroStack md5Pairs md5Pairs_separate
  intro heq
  have hpair := hfree _ List.mem_cons_self _ (List.mem_cons_of_mem _ List.mem_cons_self) heq
  have hbytes : (byteKey 16 1).bytes = (byteKey 16 2).bytes := congrArg (fun p => p.1.bytes) hpair
  exact absurd hbytes (by decide)

end SetSync
