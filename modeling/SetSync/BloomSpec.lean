import SetSync.BloomFilter
import SetSync.Lib.CountingFilter
import Mathlib.Tactic.NormNum

/-!
# The bloom filter covers the keys of the set

`Covers f S`: each list of the filter `f` has at least `d` bytes for each time its position is hit by
a key of `S`, and the bits of all these positions are set.  The lists hold stale and broken entries
after a removal at a shared position; the invariant is about their lengths alone.

    add       Covers f S → Covers f' (insert k S), unless the loop finds the key listed     (add_ok)
    remove    Covers f S → Covers f' (S.erase k)                          (removeAt_cases, remove_ok)
    contains  all bits set; true for every key of S                                    (contains_true)

The byte count of the filter has to fit into `mmapLength_` (`Fits`).
-/

namespace SetSync

open Program CountingFilter

variable {d : Nat}

/-! ## Stored positions -/

/-- The bytes stored for the position. -/
def Storage.listOf (st : Storage) (p : Nat) : Bytes := (st.table.lookup (uint64Bytes p)).getD []

theorem Storage.listOf_insert {st : Storage} {p q : Nat} (hp : p < 2 ^ 64) (hq : q < 2 ^ 64)
    (value : Bytes) : Storage.listOf ⟨st.table.insert (uint64Bytes p) value, none⟩ q =
      if q = p then value else st.listOf q := by
  unfold Storage.listOf
  by_cases h : q = p
  · rw [h, if_pos rfl, Finmap.lookup_insert, Option.getD_some]
  · rw [if_neg h, Finmap.lookup_insert_of_ne _ fun he => h (uint64Bytes_injective hq hp he)]

theorem Storage.listOf_erase {st : Storage} {p q : Nat} (hp : p < 2 ^ 64) (hq : q < 2 ^ 64) :
    Storage.listOf ⟨st.table.erase (uint64Bytes p), none⟩ q = if q = p then [] else st.listOf q := by
  unfold Storage.listOf
  by_cases h : q = p
  · rw [h, if_pos rfl, Finmap.lookup_erase, Option.getD_none]
  · rw [if_neg h, Finmap.lookup_erase_ne fun he => h (uint64Bytes_injective hq hp he)]

theorem length_flatMap_bytes (keys : List (Digest d)) :
    (keys.flatMap Digest.bytes).length = keys.length * d := by
  induction keys with
  | nil => simp
  | cons k keys ih =>
    rw [List.flatMap_cons, List.length_append, k.length_bytes, ih, List.length_cons, Nat.add_mul,
      Nat.one_mul, Nat.add_comm]

theorem entries_flatMap (hd : 0 < d) (xs : List (Digest d)) :
    entries d (xs.flatMap Digest.bytes) = xs := by
  refine List.ext_getElem ?_ fun i hi hi' => ?_
  · unfold entries
    rw [List.length_map, List.length_range, length_flatMap_bytes, Nat.mul_div_cancel _ hd]
  · have hsplit : xs.flatMap Digest.bytes = (xs.take i).flatMap Digest.bytes
        ++ (xs[i].bytes ++ (xs.drop (i + 1)).flatMap Digest.bytes) := by
      conv_lhs => rw [← List.take_append_drop i xs, List.drop_eq_getElem_cons hi']
      rw [List.flatMap_append, List.flatMap_cons]
    have htake : ((xs.take i).flatMap Digest.bytes).length = i * d := by
      rw [length_flatMap_bytes, List.length_take, Nat.min_eq_left (by omega)]
    simp only [entries, List.getElem_map, List.getElem_range]
    rw [hsplit, ← htake, Digest.slice_append]

/-- A buffer that was filled with digests is read up to its size. -/
theorem entries_take (hd : 0 < d) (xs : List (Digest d)) :
    entries d ((xs.flatMap Digest.bytes).take (xs.length * d)) = xs := by
  rw [← length_flatMap_bytes xs, List.take_length, entries_flatMap hd]

/-! ## Bits of `FSBloomFilter` -/

section Bits

theorem bit_mask_eq : ∀ i : Fin 8, FSBloomFilter.bit_mask.getD i 0 = bitMask i := by decide

theorem bit_mask_mod (p : Nat) : FSBloomFilter.bit_mask.getD (p % 8) 0 = bitMask p := by
  have h := bit_mask_eq ⟨p % 8, Nat.mod_lt p (by decide)⟩
  rw [h, bitMask, bitMask]
  simp

theorem and_bitMask_all : ∀ x : Fin 256, ∀ i : Fin 8,
    (UInt8.ofNat x &&& bitMask i != bitMask i) = !(UInt8.ofNat x &&& bitMask i != 0) := by
  decide +kernel

theorem and_bitMask (x : UInt8) (p : Nat) :
    (x &&& bitMask p != bitMask p) = !(x &&& bitMask p != 0) := by
  have h := and_bitMask_all ⟨x.toNat, x.toNat_lt⟩ ⟨p % 8, Nat.mod_lt p (by decide)⟩
  have hp : bitMask (p % 8) = bitMask p := by simp [bitMask]
  simpa [hp] using h

/-- Set the bits of all positions. -/
def setBits (a : Bytes) (ps : List Nat) : Bytes := ps.foldl bitSet a

theorem length_setBits (a : Bytes) (ps : List Nat) : (setBits a ps).length = a.length := by
  induction ps generalizing a with
  | nil => rfl
  | cons p ps ih => exact (ih (bitSet a p)).trans (length_bitSet a p)

theorem bitTest_setBits {a : Bytes} {ps : List Nat} (h : ∀ p ∈ ps, p < 8 * a.length) (q : Nat) :
    bitTest (setBits a ps) q = (bitTest a q || decide (q ∈ ps)) := by
  induction ps generalizing a with
  | nil => simp [setBits]
  | cons p ps ih =>
    have hp := h p List.mem_cons_self
    show bitTest (setBits (bitSet a p) ps) q = _
    rw [ih (fun r hr => by rw [length_bitSet]; exact h r (List.mem_cons_of_mem p hr)),
      bitTest_bitSet a p q hp, Bool.or_assoc]
    congr 1
    rw [Bool.eq_iff_iff, Bool.or_eq_true, beq_iff_eq, decide_eq_true_eq, decide_eq_true_eq,
      List.mem_cons, eq_comm]

variable (hd : 16 ≤ d) {f : FSBloomFilter}

include hd

theorem hash_ok {σ : Type} (key : Digest d) (i : Nat) (s : σ) :
    DoubleHashingScheme.hash key i s = ⟨.ok (doubleHash key i), s, []⟩ := by
  unfold DoubleHashingScheme.hash
  rw [if_neg (by omega)]
  rfl

theorem addBits_ok (key : Digest d) (is : List Nat) :
    FSBloomFilter.addBits key is f = ⟨.ok (), { f with
      bitArray := setBits f.bitArray (is.map fun i => doubleHash key i % f.filterSize) }, []⟩ := by
  induction is generalizing f with
  | nil => rfl
  | cons i is ih =>
    unfold FSBloomFilter.addBits
    rw [Prog.bind_of_ok (hash_ok hd key i f)]
    rw [Prog.bind_of_ok (Prog.modify_apply _ _), ih]
    simp only [FSBloomFilter.computeIndices, bit_mask_mod, Nat.mod_mod]
    rfl

/-- The positions of a key in a filter of `n` bits with `c` functions. -/
def positions (n c : Nat) (key : Digest d) : List Nat :=
  (List.range c).map fun i => doubleHash key i % n

omit hd in
theorem lt_of_mem_positions {n c p : Nat} (hn : 0 < n) {key : Digest d} (h : p ∈ positions n c key) :
    p < n := by
  obtain ⟨i, _, rfl⟩ := List.mem_map.mp h
  exact Nat.mod_lt _ hn

theorem fsAdd_ok (key : Digest d) (h : (f.hardMaximum && decide (f.maxElements ≤ f.itemCount)) = false) :
    ∃ n, (f.itemCount < 2 ^ 64 → n < 2 ^ 64) ∧ FSBloomFilter.add key f = ⟨.ok (), { f with
      bitArray := setBits f.bitArray (positions f.filterSize f.functionCount key)
      itemCount := n }, []⟩ := by
  unfold FSBloomFilter.add
  rw [Prog.bind_of_ok (Prog.get_apply f), h]
  simp only [Bool.false_eq_true, if_false]
  rw [Prog.bind_of_ok (addBits_ok hd key _)]
  by_cases hn : f.itemCount < 2 ^ 64 - 1
  · refine ⟨f.itemCount + 1, fun _ => by omega, ?_⟩
    rw [Prog.modify_apply, if_pos hn]
    rfl
  · refine ⟨f.itemCount, id, ?_⟩
    rw [Prog.modify_apply, if_neg hn]
    rfl

theorem containsBits_ok (key : Digest d) (is : List Nat) :
    FSBloomFilter.containsBits key is f = ⟨.ok (decide (∀ i ∈ is,
      bitTest f.bitArray (doubleHash key i % f.filterSize) = true)), f, []⟩ := by
  induction is with
  | nil =>
    show (⟨.ok true, f, []⟩ : Run _ _ _ _) = _
    simp
  | cons i is ih =>
    unfold FSBloomFilter.containsBits
    rw [Prog.bind_of_ok (hash_ok hd key i f),
      Prog.bind_of_ok (Prog.get_apply f)]
    simp only [FSBloomFilter.computeIndices, bit_mask_mod, Nat.mod_mod, and_bitMask]
    have htest : (f.bitArray.getD (doubleHash key i % f.filterSize / 8) 0
        &&& bitMask (doubleHash key i % f.filterSize) != 0)
        = bitTest f.bitArray (doubleHash key i % f.filterSize) := rfl
    rw [htest]
    cases hb : bitTest f.bitArray (doubleHash key i % f.filterSize)
    · simp [hb]
    · simp [hb, ih]

theorem fsContains_ok (key : Digest d) :
    FSBloomFilter.contains key f = ⟨.ok (decide (∀ p ∈ positions f.filterSize f.functionCount key,
      bitTest f.bitArray p = true)), f, []⟩ := by
  unfold FSBloomFilter.contains
  rw [Prog.bind_of_ok (Prog.get_apply f), containsBits_ok hd]
  simp [positions]

end Bits

/-! ## Lists of `KeyValueCountingBloomFilter` -/

/-- What the constructor fixed. -/
structure FilterParams where
  filterSize : Nat
  functionCount : Nat
  hardMaximum : Bool
  maxElements : Nat

/-- The byte count fits into `mmapLength_`, and there is a bit. -/
def FilterParams.Fits (q : FilterParams) : Prop := 0 < q.filterSize ∧ (q.filterSize + 7) / 8 < 2 ^ 32

def FilterParams.positions (q : FilterParams) (key : Digest d) : List Nat :=
  SetSync.positions q.filterSize q.functionCount key

/-- The loop of `add` finds the key in a list: from before, or because an earlier function of the same
key has just appended it there. -/
def listsKey (key : Digest d) (lists : Nat → Bytes) : List Nat → Bool
  | [] => false
  | p :: ps => decide (key ∈ entries d (lists p)) ||
      listsKey key (Function.update lists p (lists p ++ key.bytes)) ps

theorem listsKey_congr {key : Digest d} {lists lists' : Nat → Bytes} {ps : List Nat}
    (h : ∀ p ∈ ps, lists p = lists' p) : listsKey key lists ps = listsKey key lists' ps := by
  induction ps generalizing lists lists' with
  | nil => rfl
  | cons p ps ih =>
    have hp := h p List.mem_cons_self
    rw [listsKey, listsKey, hp]
    congr 1
    apply ih
    intro q hq
    by_cases hqp : q = p
    · rw [hqp, Function.update_self, Function.update_self]
    · rw [Function.update_of_ne hqp, Function.update_of_ne hqp]
      exact h q (List.mem_cons_of_mem p hq)

namespace KeyValueCountingBloomFilter

def params (f : KeyValueCountingBloomFilter) : FilterParams :=
  ⟨f.filterSize, f.functionCount, f.hardMaximum, f.maxElements⟩

/-- The loop of `add` stops at a list that has the key. -/
def listed (f : KeyValueCountingBloomFilter) (key : Digest d) : Bool :=
  listsKey key f.storage.listOf (f.params.positions key)

/-- The filter as cells: lengths of lists, and bits. -/
def cells (f : KeyValueCountingBloomFilter) : Cells Nat where
  cell p := if p < f.filterSize then (f.storage.listOf p).length else 0
  bit p := bitTest f.bitArray p = true

end KeyValueCountingBloomFilter

open KeyValueCountingBloomFilter

/-- **The invariant of the filter.** -/
structure BloomCovers (q : FilterParams) (f : KeyValueCountingBloomFilter) (S : Finset (Digest d)) :
    Prop where
  failure : f.storage.failure = none
  params : f.params = q
  length : f.bitArray.length = FSBloomFilter.mmapLength q.filterSize
  covers : Covers d q.positions S f.cells

theorem FilterParams.Fits.le_bits {q : FilterParams} (h : q.Fits) :
    q.filterSize ≤ 8 * FSBloomFilter.mmapLength q.filterSize := by
  unfold FSBloomFilter.mmapLength
  rw [Nat.mod_eq_of_lt h.2]
  omega

theorem FilterParams.Fits.lt {q : FilterParams} (h : q.Fits) : q.filterSize < 2 ^ 64 := by
  have := h.2
  omega

section Methods

variable {q : FilterParams} (hd : 16 ≤ d) {f : KeyValueCountingBloomFilter} {S : Finset (Digest d)}

theorem onStorage_get (h : f.storage.failure = none) (key : Bytes) :
    (onStorage (Storage.get key) : BloomM d _) f = ⟨.ok (f.storage.table.lookup key), f, []⟩ :=
  Prog.zoom_of_eq (Storage.get_ok key h)

theorem onBloomStorage_put (h : f.storage.failure = none) (key value : Bytes) :
    (onStorage (Storage.put key value) : BloomM d _) f
      = ⟨.ok (), { f with storage := ⟨f.storage.table.insert key value, none⟩ }, []⟩ :=
  Prog.zoom_of_eq (Storage.put_ok key value h)

theorem onBloomStorage_del (h : f.storage.failure = none) (key : Bytes) :
    (onStorage (Storage.del key) : BloomM d _) f
      = ⟨.ok (), { f with storage := ⟨f.storage.table.erase key, none⟩ }, []⟩ :=
  Prog.zoom_of_eq (Storage.del_ok key h)

/-- The lists of the other positions are as they were. -/
theorem listsKey_put (hf : f.filterSize < 2 ^ 64) (hn : 0 < f.filterSize) (key : Digest d) (is : List Nat)
    {p : Nat} (hp : p < f.filterSize) (v : Bytes) :
    listsKey key (Storage.listOf ⟨f.storage.table.insert (uint64Bytes p) v, none⟩)
        (is.map fun i => doubleHash key i % f.filterSize)
      = listsKey key (Function.update f.storage.listOf p v)
        (is.map fun i => doubleHash key i % f.filterSize) := by
  apply listsKey_congr
  intro r hr
  have hrn : r < f.filterSize := by
    obtain ⟨j, _, rfl⟩ := List.mem_map.mp hr
    exact Nat.mod_lt _ hn
  rw [Storage.listOf_insert (by omega) (by omega), Function.update_apply]

include hd

/-- One turn of the loop of `add`: it ends at a list that has the key, and appends the key to another. -/
theorem addLoop_cons (h : f.storage.failure = none) (key : Digest d) (i : Nat) (is : List Nat) {p : Nat}
    (hp : doubleHash key i % f.filterSize = p) :
    addLoop key (i :: is) f = if key ∈ entries d (f.storage.listOf p) then ⟨.ok (), f, []⟩
      else addLoop key is { f with storage :=
        ⟨f.storage.table.insert (uint64Bytes p) (f.storage.listOf p ++ key.bytes), none⟩ } := by
  rw [addLoop, Prog.bind_of_ok (hash_ok hd key i f), Prog.bind_of_ok (Prog.get_apply f)]
  simp only [hp]
  rw [Prog.bind_of_ok (onStorage_get h _)]
  cases hlook : f.storage.table.lookup (uint64Bytes p) with
  | none =>
    have hlist : f.storage.listOf p = [] := by simp [Storage.listOf, hlook]
    rw [hlist, if_neg (by simp [entries])]
    simp only
    rw [Prog.bind_of_ok (onBloomStorage_put h _ _)]
    rfl
  | some result =>
    have hlist : f.storage.listOf p = result := by simp [Storage.listOf, hlook]
    rw [hlist]
    by_cases hin : key ∈ entries d result
    · rw [if_pos hin]
      simp only [if_pos hin]
      rfl
    · rw [if_neg hin]
      simp only [if_neg hin]
      rw [Prog.bind_of_ok (onBloomStorage_put h _ _)]
      rfl

/-- The loop of `add` when it stops at no list: the key is appended at each position. -/
theorem addLoop_ok (hf : f.filterSize < 2 ^ 64) (hn : 0 < f.filterSize)
    (h : f.storage.failure = none) (key : Digest d) (is : List Nat)
    (hl : listsKey key f.storage.listOf (is.map fun i => doubleHash key i % f.filterSize) = false) :
    ∃ st : Storage, st.failure = none ∧
      (∀ p, p < f.filterSize → (st.listOf p).length = (f.storage.listOf p).length
        + d * (is.map fun i => doubleHash key i % f.filterSize).count p) ∧
      addLoop key is f = onFilter (FSBloomFilter.add key) { f with storage := st } := by
  induction is generalizing f with
  | nil => exact ⟨f.storage, h, fun p _ => by simp, rfl⟩
  | cons i is ih =>
    generalize hp : doubleHash key i % f.filterSize = p at hl
    have hpn : p < f.filterSize := by rw [← hp]; exact Nat.mod_lt _ hn
    simp only [List.map_cons, hp, listsKey, Bool.or_eq_false_iff, decide_eq_false_iff_not] at hl
    obtain ⟨hnot, hrest⟩ := hl
    -- what is put at `p`
    have hput : addLoop key (i :: is) f = addLoop key is { f with storage :=
        ⟨f.storage.table.insert (uint64Bytes p) (f.storage.listOf p ++ key.bytes), none⟩ } := by
      rw [addLoop_cons hd h key i is hp, if_neg hnot]
    obtain ⟨st, hst, hlen, hrun⟩ := @ih { f with storage :=
        ⟨f.storage.table.insert (uint64Bytes p) (f.storage.listOf p ++ key.bytes), none⟩ } hf hn rfl
      ((listsKey_put hf hn key is hpn _).trans hrest)
    refine ⟨st, hst, fun r hr => ?_, hput.trans hrun⟩
    have hlr : (st.listOf r).length = (Storage.listOf ⟨f.storage.table.insert (uint64Bytes p)
        (f.storage.listOf p ++ key.bytes), none⟩ r).length
          + d * (is.map fun i => doubleHash key i % f.filterSize).count r := hlen r hr
    rw [hlr, Storage.listOf_insert (by omega) (by omega), List.map_cons, hp]
    by_cases hrp : r = p
    · subst hrp
      rw [if_pos rfl, List.length_append, key.length_bytes, List.count_cons_self, Nat.mul_add]
      omega
    · rw [if_neg hrp, List.count_cons_of_ne (Ne.symm hrp)]

/-- **Adding to the filter.** -/
theorem bloomAdd_ok (hq : q.Fits) (h : BloomCovers q f S) {key : Digest d} (hk : key ∉ S)
    (hl : f.listed key = false)
    (hroom : (q.hardMaximum && decide (q.maxElements ≤ f.itemCount)) = false) :
    ∃ f', KeyValueCountingBloomFilter.add key f = ⟨.ok (), f', []⟩ ∧
      BloomCovers q f' (insert key S) := by
  have hparams := h.params
  have hsize : f.filterSize = q.filterSize := congrArg FilterParams.filterSize hparams
  have hcount : f.functionCount = q.functionCount := congrArg FilterParams.functionCount hparams
  have hhard : f.hardMaximum = q.hardMaximum := congrArg FilterParams.hardMaximum hparams
  have hmax : f.maxElements = q.maxElements := congrArg FilterParams.maxElements hparams
  have hbits : ∀ p ∈ positions f.filterSize f.functionCount key, p < 8 * f.bitArray.length := by
    intro p hp
    have hlt := lt_of_mem_positions (by rw [hsize]; exact hq.1) hp
    have hle := hq.le_bits
    rw [hsize] at hlt
    rw [h.length]
    omega
  have hlists : listsKey key f.storage.listOf ((List.range f.functionCount).map fun i =>
      doubleHash key i % f.filterSize) = false := hl
  obtain ⟨st, hst, hlen, hrun⟩ := addLoop_ok hd (by rw [hsize]; exact hq.lt)
    (by rw [hsize]; exact hq.1) h.failure key (List.range f.functionCount) hlists
  obtain ⟨n, -, hadd⟩ := fsAdd_ok hd (f := f.toFSBloomFilter) key (by rw [hhard, hmax]; exact hroom)
  refine ⟨{ f with
    bitArray := setBits f.bitArray (positions f.filterSize f.functionCount key)
    itemCount := n
    storage := st }, ?_, ?_, ?_, ?_, ?_⟩
  · unfold KeyValueCountingBloomFilter.add
    rw [Prog.bind_of_ok (Prog.get_apply f), hrun]
    have hbase : FSBloomFilter.add key
        ({ f with storage := st } : KeyValueCountingBloomFilter).toFSBloomFilter = _ := hadd
    unfold onFilter
    rw [Prog.zoom_of_eq hbase]
    rfl
  · exact hst
  · exact hparams
  · rw [← h.length]
    exact length_setBits _ _
  · refine h.covers.add hk ⟨fun p => ?_, fun p => ?_⟩
    · show (if p < f.filterSize then _ else 0) = (if p < f.filterSize then _ else 0) + _
      by_cases hp : p < f.filterSize
      · rw [if_pos hp, if_pos hp, hlen p hp]
        show _ = _ + d * (positions q.filterSize q.functionCount key).count p
        rw [← hsize, ← hcount]
        rfl
      · have hnot : p ∉ q.positions key := fun hmem =>
          hp (by rw [hsize]; exact lt_of_mem_positions hq.1 hmem)
        rw [if_neg hp, if_neg hp, List.count_eq_zero.mpr hnot, Nat.mul_zero]
    · show bitTest (setBits f.bitArray _) p = true ↔ bitTest f.bitArray p = true ∨ _
      rw [bitTest_setBits hbits, Bool.or_eq_true, decide_eq_true_eq, hsize, hcount]
      exact Iff.rfl

theorem bloomContains_ok (h : BloomCovers q f S) (key : Digest d) :
    KeyValueCountingBloomFilter.contains key f
      = ⟨.ok (decide (∀ p ∈ q.positions key, bitTest f.bitArray p = true)), f, []⟩ := by
  unfold KeyValueCountingBloomFilter.contains
  rw [onFilter, Prog.zoom_of_eq (fsContains_ok hd key)]
  rw [← h.params]
  rfl

/-- No false negative. -/
theorem contains_true (h : BloomCovers q f S) {key : Digest d} (hk : key ∈ S) :
    KeyValueCountingBloomFilter.contains key f = ⟨.ok true, f, []⟩ := by
  have hall : ∀ p ∈ q.positions key, bitTest f.bitArray p = true :=
    fun p hp => h.covers.bit_of_mem hk hp
  rw [bloomContains_ok hd h, decide_eq_true hall]

omit hd in
theorem length_overwrite {buffer source : Bytes} {offset : Nat}
    (h : offset + source.length ≤ buffer.length) :
    (overwrite buffer offset source).length = buffer.length := by
  simp only [overwrite, List.length_append, List.length_take, List.length_drop]
  omega

omit hd in
/-- The loop of `remove` stays inside the buffer: it writes where it reads, or before. -/
theorem length_compact (key : Digest d) (n : Nat) : ∀ (j output : Nat) (buffer : Bytes), output ≤ j →
    (j + n) * d ≤ buffer.length →
    (compact key (List.range' j n) output buffer).length = buffer.length := by
  induction n with
  | zero => intro j output buffer _ _; rfl
  | succ n ih =>
    intro j output buffer hle hlen
    have hout : output * d + d ≤ buffer.length := by
      have hmul : (output + 1) * d ≤ (j + (n + 1)) * d := Nat.mul_le_mul_right d (by omega)
      rw [Nat.add_mul, Nat.one_mul] at hmul
      omega
    have hw : (overwrite buffer (output * d) (Digest.slice buffer (j * d) : Digest d).bytes).length
        = buffer.length := length_overwrite (by rw [Digest.length_bytes]; exact hout)
    rw [List.range'_succ, compact]
    rw [ih, hw]
    · split <;> omega
    · rw [hw, show j + 1 + n = j + (n + 1) by omega]
      exact hlen

omit hd in
/-- What one function of a removal finds at its position `p`, and does. -/
inductive RemovedAt (d p : Nat) (f : KeyValueCountingBloomFilter) :
    Bool → KeyValueCountingBloomFilter → Prop where
  | absent (h : f.storage.table.lookup (uint64Bytes p) = none) : RemovedAt d p f false f
  | shared {result value : Bytes} (h : f.storage.table.lookup (uint64Bytes p) = some result)
      (hmany : 2 * d ≤ result.length) (hlen : value.length + 1 = result.length) :
      RemovedAt d p f false
        { f with storage := ⟨f.storage.table.insert (uint64Bytes p) value, none⟩ }
  | last {result : Bytes} (h : f.storage.table.lookup (uint64Bytes p) = some result)
      (hfew : result.length < 2 * d) :
      RemovedAt d p f true { f with
        bitArray := bitClear f.bitArray p
        storage := ⟨f.storage.table.erase (uint64Bytes p), none⟩ }

theorem removeAt_cases (h : f.storage.failure = none) (key : Digest d) (func : Nat) :
    ∃ b f', removeAt key func f = ⟨.ok b, f', []⟩ ∧
      RemovedAt d (doubleHash key func % f.filterSize) f b f' := by
  generalize hp : doubleHash key func % f.filterSize = p
  unfold removeAt
  rw [Prog.bind_of_ok (hash_ok hd key func f), Prog.bind_of_ok (Prog.get_apply f)]
  simp only [hp]
  rw [Prog.bind_of_ok (onStorage_get h _)]
  cases hlook : f.storage.table.lookup (uint64Bytes p) with
  | none => exact ⟨false, f, rfl, .absent hlook⟩
  | some result =>
    simp only
    by_cases hmany : result.length / d > 1
    · rw [if_pos hmany, Prog.bind_of_ok (onBloomStorage_put h _ _)]
      have hlen : (compact key (List.range (result.length / d)) 0 result).length = result.length := by
        rw [List.range_eq_range']
        apply length_compact key _ 0 0 result (Nat.le_refl 0)
        rw [Nat.zero_add]
        exact Nat.div_mul_le_self _ _
      have hbig : 2 * d ≤ result.length := by
        have := (Nat.le_div_iff_mul_le (by omega)).mp hmany
        omega
      refine ⟨false, _, rfl, .shared hlook hbig ?_⟩
      rw [List.length_take, hlen]
      omega
    · have hsmall : result.length < 2 * d := by
        by_contra hge
        exact hmany ((Nat.le_div_iff_mul_le (by omega)).mpr (by omega))
      rw [if_neg hmany, Prog.bind_of_ok (onBloomStorage_del h _)]
      exact ⟨true, _, rfl, .last hlook hsmall⟩

/-- **One position of a removal.** -/
theorem removeAt_ok (hf : f.filterSize < 2 ^ 64) (hn : 0 < f.filterSize)
    (hb : f.filterSize ≤ 8 * f.bitArray.length) (h : f.storage.failure = none) (key : Digest d)
    (func : Nat) :
    ∃ b f', removeAt key func f = ⟨.ok b, f', []⟩ ∧ f'.storage.failure = none ∧
      f'.params = f.params ∧ f'.bitArray.length = f.bitArray.length ∧
      Removes d (doubleHash key func % f.filterSize) f.cells f'.cells := by
  obtain ⟨b, f', hrun, hcase⟩ := removeAt_cases hd h key func
  refine ⟨b, f', hrun, ?_⟩
  generalize hp : doubleHash key func % f.filterSize = p at hcase
  have hpn : p < f.filterSize := by rw [← hp]; exact Nat.mod_lt _ hn
  have hcell : f.cells.cell p = (f.storage.listOf p).length := if_pos hpn
  -- the length of the list at another position
  have hother : ∀ {f' : KeyValueCountingBloomFilter} {value : Bytes}, f'.filterSize = f.filterSize →
      (∀ r, r < 2 ^ 64 → f'.storage.listOf r = if r = p then value else f.storage.listOf r) →
      f'.cells.cell p = value.length ∧ ∀ r, r ≠ p → f'.cells.cell r = f.cells.cell r := by
    intro f' value hsize hlist
    constructor
    · show (if p < f'.filterSize then _ else 0) = _
      rw [hsize, if_pos hpn, hlist p (by omega), if_pos rfl]
    · intro r hr
      show (if r < f'.filterSize then _ else 0) = if r < f.filterSize then _ else 0
      rw [hsize]
      by_cases hrn : r < f.filterSize
      · rw [if_pos hrn, if_pos hrn, hlist r (by omega), if_neg hr]
      · rw [if_neg hrn, if_neg hrn]
  cases hcase with
  | absent hlook =>
    have hnil : f.storage.listOf p = [] := by rw [Storage.listOf, hlook, Option.getD_none]
    refine ⟨h, rfl, rfl, ?_, fun r _ => rfl, fun r hr => Or.inl hr⟩
    rw [hcell, hnil]
    simp
  | @shared result value hlook hmany hlen =>
    have hsome : f.storage.listOf p = result := by rw [Storage.listOf, hlook, Option.getD_some]
    obtain ⟨hat, hrest⟩ := @hother
      { f with storage := ⟨f.storage.table.insert (uint64Bytes p) value, none⟩ } value rfl
      fun r hr => Storage.listOf_insert (by omega) hr value
    refine ⟨rfl, rfl, rfl, ?_, hrest, fun r hr => Or.inl hr⟩
    rw [hat, hcell, hsome, if_neg (by omega)]
    omega
  | @last result hlook hfew =>
    have hsome : f.storage.listOf p = result := by rw [Storage.listOf, hlook, Option.getD_some]
    obtain ⟨hat, hrest⟩ := @hother { f with
      bitArray := bitClear f.bitArray p
      storage := ⟨f.storage.table.erase (uint64Bytes p), none⟩ }
      [] rfl fun r hr => Storage.listOf_erase (by omega) hr
    refine ⟨rfl, rfl, length_bitClear _ _, ?_, hrest, fun r hr => ?_⟩
    · rw [hcell, hsome, if_pos hfew]
      exact hat
    · by_cases hrp : r = p
      · exact Or.inr ⟨hrp, by rw [hcell, hsome]; exact hfew⟩
      · apply Or.inl
        show bitTest (bitClear f.bitArray p) r = true
        rw [bitTest_bitClear _ _ _ (by omega), show bitTest f.bitArray r = true from hr]
        simp [Ne.symm hrp]

theorem removeLoop_ok (hq : q.Fits) (key : Digest d) (funcs : List Nat) (r : Bool) {m : Nat → Nat}
    (h : f.storage.failure = none) (hparams : f.params = q)
    (hlen : f.bitArray.length = FSBloomFilter.mmapLength q.filterSize)
    (hc : Covering d m (funcs.map fun i => doubleHash key i % q.filterSize) f.cells) :
    ∃ b f', removeLoop key funcs r f = ⟨.ok b, f', []⟩ ∧ f'.storage.failure = none ∧ f'.params = q ∧
      f'.bitArray.length = FSBloomFilter.mmapLength q.filterSize ∧ Covering d m [] f'.cells := by
  induction funcs generalizing f r with
  | nil => exact ⟨r, f, rfl, h, hparams, hlen, hc⟩
  | cons func funcs ih =>
    have hsize : f.filterSize = q.filterSize := congrArg FilterParams.filterSize hparams
    obtain ⟨b, f₁, hrun, h₁, hp₁, hl₁, hr⟩ := removeAt_ok hd (by rw [hsize]; exact hq.lt)
      (by rw [hsize]; exact hq.1) (by rw [hsize, hlen]; exact hq.le_bits) h key func
    rw [hsize] at hr
    obtain ⟨b', f₂, hrest, h₂⟩ := ih (r || b) h₁ (hp₁.trans hparams) (hl₁.trans hlen)
      (hc.removes (by omega) hr)
    refine ⟨b', f₂, ?_, h₂⟩
    unfold removeLoop
    rw [Prog.bind_of_ok hrun, hrest]
    rfl

/-- **Removing from the filter.** -/
theorem bloomRemove_ok (hq : q.Fits) (h : BloomCovers q f S) {key : Digest d} (hk : key ∈ S) :
    ∃ b f', KeyValueCountingBloomFilter.remove key f = ⟨.ok b, f', []⟩ ∧
      BloomCovers q f' (S.erase key) := by
  have hcount : f.functionCount = q.functionCount := congrArg FilterParams.functionCount h.params
  have hstart : Covering d (load q.positions (S.erase key)) (q.positions key) f.cells :=
    h.covers.covering hk
  obtain ⟨b, f', hrun, h', hp, hl, hcov⟩ := removeLoop_ok hd hq key (List.range q.functionCount) false
    h.failure h.params h.length hstart
  refine ⟨b, f', ?_, h', hp, hl, hcov.covers⟩
  unfold KeyValueCountingBloomFilter.remove
  rw [Prog.bind_of_ok (contains_true hd h hk)]
  simp only [Bool.not_true, Bool.false_eq_true, if_false]
  rw [Prog.bind_of_ok (Prog.get_apply f), hcount, hrun]
  rfl

omit hd in
theorem bloomInit (q : FilterParams) : BloomCovers q (KeyValueCountingBloomFilter.init q.filterSize
    q.functionCount q.hardMaximum q.maxElements) (∅ : Finset (Digest d)) :=
  ⟨rfl, rfl, List.length_replicate, covers_empty⟩

omit hd in
theorem bloomClear_run (h : f.storage.failure = none) :
    (KeyValueCountingBloomFilter.clear : BloomM d Unit) f = ⟨.ok (), { f with
      bitArray := List.replicate (FSBloomFilter.mmapLength f.filterSize) 0
      itemCount := 0
      storage := ⟨∅, none⟩ }, []⟩ := by
  have hclear : (onStorage Storage.clear : BloomM d Unit) f
      = ⟨.ok (), { f with storage := ⟨∅, none⟩ }, []⟩ := Prog.zoom_of_eq (Storage.clear_ok h)
  unfold KeyValueCountingBloomFilter.clear
  rw [Prog.bind_of_ok hclear]
  rfl

omit hd in
theorem bloomClear_ok (h : BloomCovers q f S) :
    ∃ f', (KeyValueCountingBloomFilter.clear : BloomM d Unit) f = ⟨.ok (), f', []⟩ ∧
      BloomCovers q f' (∅ : Finset (Digest d)) := by
  have hsize : f.filterSize = q.filterSize := congrArg FilterParams.filterSize h.params
  refine ⟨_, bloomClear_run h.failure, rfl, h.params, ?_, covers_empty⟩
  show (List.replicate (FSBloomFilter.mmapLength f.filterSize) (0 : UInt8)).length = _
  rw [List.length_replicate, hsize]

end Methods

end SetSync
