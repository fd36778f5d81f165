import SetSync.BloomLists
import SetSync.Lib.Simulation

/-!
# Reopening the bloom filter

The destructor writes the number of elements, and nothing else; the constructor clears the bits and sets
those of the positions that have a list.  So a filter comes back as it was just when its bits are the
positions of its lists (`reopens_iff`).  Removals and clearing keep this.  An addition keeps it if it gets
to the bits, or if it appends at positions whose bits are set already.

    reopen      bits are the positions with a list, and the number of elements        (reopen_ok)
    one call    Agrees f → (Agrees f' ↔ the call is harmless)                      (step_agrees)
    a run       reopening is invisible at every moment ↔ every call is harmless
                                                                            (reopens_iff_harmless)
-/

namespace SetSync

open Program KeyValueCountingBloomFilter

variable {d : Nat}

/-! ## What the constructor reads -/

/-- What the iterator gives: positions, and perhaps the name of the number of elements. -/
def IsKey (q : FilterParams) (key : Bytes) : Prop :=
  key = sizeKey ∨ ∃ p, p < q.filterSize ∧ key = uint64Bytes p

/-- The positions among the keys. -/
def positionsOf (keys : List Bytes) : List Nat :=
  (keys.filter fun key => key.length = 8).map fun key => readUint64 key 0

theorem mem_positionsOf {q : FilterParams} (hq : q.Fits) {keys : List Bytes}
    (hkeys : ∀ key ∈ keys, IsKey q key) {p : Nat} :
    p ∈ positionsOf keys ↔ p < q.filterSize ∧ uint64Bytes p ∈ keys := by
  have hlt := hq.lt
  simp only [positionsOf, List.mem_map, List.mem_filter, decide_eq_true_eq]
  constructor
  · rintro ⟨key, ⟨hmem, hlen⟩, rfl⟩
    rcases hkeys key hmem with rfl | ⟨r, hr, rfl⟩
    · cases hlen
    · rw [readUint64_uint64Bytes (by omega)]
      exact ⟨hr, hmem⟩
  · rintro ⟨hp, hmem⟩
    exact ⟨uint64Bytes p, ⟨hmem, length_uint64Bytes p⟩, readUint64_uint64Bytes (by omega)⟩

section Loading

variable {q : FilterParams} {f : KeyValueCountingBloomFilter}

theorem loadKey_size (h : f.storage.failure = none) {n : Nat} (hn : n < 2 ^ 64)
    (hlook : f.storage.table.lookup sizeKey = some (uint64Bytes n)) :
    (loadKey sizeKey : BloomM d Unit) f = ⟨.ok (), { f with itemCount := n }, []⟩ := by
  unfold loadKey
  rw [if_neg (by decide), if_pos rfl, Prog.bind_of_ok (onStorage_get h _), hlook]
  simp only [length_uint64Bytes, if_true, readUint64_uint64Bytes hn]
  rfl

theorem loadKey_position {p : Nat} (hp : p < f.filterSize) (hlt : f.filterSize < 2 ^ 64) :
    (loadKey (uint64Bytes p) : BloomM d Unit) f
      = ⟨.ok (), { f with bitArray := bitSet f.bitArray p }, []⟩ := by
  unfold loadKey
  rw [if_pos (length_uint64Bytes p), readUint64_uint64Bytes (by omega)]
  simp only [FSBloomFilter.computeIndices, bit_mask_mod]
  show (⟨.ok (), { f with bitArray := f.bitArray.modify (p % f.filterSize / 8) _ }, []⟩ :
    Run _ _ _ _) = _
  rw [Nat.mod_eq_of_lt hp]
  rfl

theorem loadKeys_ok (hq : q.Fits) (hsize : f.filterSize = q.filterSize)
    (h : f.storage.failure = none) {n : Nat} (hn : n < 2 ^ 64) {keys : List Bytes}
    (hkeys : ∀ key ∈ keys, IsKey q key)
    (hcount : sizeKey ∈ keys → f.storage.table.lookup sizeKey = some (uint64Bytes n)) :
    (loadKeys keys : BloomM d Unit) f = ⟨.ok (), { f with
      bitArray := setBits f.bitArray (positionsOf keys)
      itemCount := if sizeKey ∈ keys then n else f.itemCount }, []⟩ := by
  have hlt := hq.lt
  induction keys generalizing f with
  | nil => rfl
  | cons key keys ih =>
    have hrest : ∀ k ∈ keys, IsKey q k := fun k hk => hkeys k (List.mem_cons_of_mem _ hk)
    unfold loadKeys
    rcases hkeys key List.mem_cons_self with rfl | ⟨p, hp, rfl⟩
    · have hlook := hcount List.mem_cons_self
      have hrun := ih (f := { f with itemCount := n }) hsize h hrest fun _ => hlook
      have hpos : positionsOf (sizeKey :: keys) = positionsOf keys := by simp [positionsOf, sizeKey]
      rw [Prog.bind_of_ok (loadKey_size h hn hlook), Run.after_nil, hrun, hpos]
      simp
    · have hne : sizeKey ≠ uint64Bytes p := fun he => by
        have := congrArg List.length he
        rw [length_uint64Bytes] at this
        cases this
      have hpos : positionsOf (uint64Bytes p :: keys) = p :: positionsOf keys := by
        simp [positionsOf, length_uint64Bytes, readUint64_uint64Bytes (show p < 2 ^ 64 by omega)]
      have hrun := ih (f := { f with bitArray := bitSet f.bitArray p }) hsize h hrest
        fun hmem => hcount (List.mem_cons_of_mem _ hmem)
      rw [Prog.bind_of_ok (loadKey_position (by rwa [hsize]) (by rwa [hsize])), Run.after_nil, hrun,
        hpos]
      simp [setBits, hne]

/-- **Reopening**: the bits are the positions that have a list. -/
theorem reopen_ok (hq : q.Fits) (h : BloomStored q f) :
    ∃ f', (reopen : BloomM d Unit) f = ⟨.ok (), f', []⟩ ∧ f'.params = q ∧
      f'.bitArray.length = f.bitArray.length ∧ f'.itemCount = f.itemCount ∧
      ∀ p, bitTest f'.bitArray p = true ↔ p < q.filterSize ∧ uint64Bytes p ∈ f.storage.table := by
  have hlt := hq.lt
  have hnot : sizeKey ∉ f.storage.table := by
    intro hmem
    obtain ⟨p, -, he⟩ := h.keys _ hmem
    have := congrArg List.length he
    rw [length_uint64Bytes] at this
    cases this
  -- the storage when the filter is gone
  obtain ⟨st, hst, hmem, hcount, hdestruct⟩ : ∃ st : Storage, st.failure = none ∧
      (∀ key, key ∈ st.table ↔ (0 < f.itemCount ∧ key = sizeKey) ∨ key ∈ f.storage.table) ∧
      (0 < f.itemCount → st.table.lookup sizeKey = some (uint64Bytes f.itemCount)) ∧
      (destruct : BloomM d Unit) f = ⟨.ok (), { f with storage := st }, []⟩ := by
    by_cases hpos : f.itemCount > 0
    · refine ⟨⟨f.storage.table.insert sizeKey (uint64Bytes f.itemCount), none⟩, rfl, fun key => ?_,
        fun _ => Finmap.lookup_insert _, ?_⟩
      · rw [Finmap.mem_insert]
        simp [hpos]
      · unfold destruct
        rw [Prog.bind_of_ok (Prog.get_apply f), if_pos hpos, onBloomStorage_put h.failure]
        rfl
    · refine ⟨f.storage, h.failure, fun key => ?_, fun hno => absurd hno hpos, ?_⟩
      · simp [hpos]
      · unfold destruct
        rw [Prog.bind_of_ok (Prog.get_apply f), if_neg hpos]
        rfl
  have hkeys : ∀ key ∈ st.table.iterator, IsKey q key := by
    intro key hkey
    rw [Table.mem_iterator, hmem] at hkey
    rcases hkey with ⟨-, rfl⟩ | hkey
    · exact Or.inl rfl
    · exact Or.inr (h.keys key hkey)
  have hname : sizeKey ∈ st.table.iterator ↔ 0 < f.itemCount := by
    rw [Table.mem_iterator, hmem]
    simp [hnot]
  let f₀ : KeyValueCountingBloomFilter :=
    ⟨FSBloomFilter.init f.filterSize f.functionCount f.hardMaximum f.maxElements, st⟩
  have hload : (loadKeys st.table.iterator : BloomM d Unit) f₀ = _ :=
    loadKeys_ok (f := f₀) hq h.size_eq hst h.count hkeys fun hin => hcount (hname.mp hin)
  have hlength : f₀.bitArray.length = f.bitArray.length := by
    rw [h.length, ← h.size_eq]
    exact List.length_replicate
  refine ⟨{ f₀ with
    bitArray := setBits f₀.bitArray (positionsOf st.table.iterator)
    itemCount := if sizeKey ∈ st.table.iterator then f.itemCount else f₀.itemCount }, ?_, h.params,
    (length_setBits _ _).trans hlength, ?_, fun p => ?_⟩
  · unfold reopen
    rw [Prog.bind_of_ok hdestruct, construct, Prog.bind_of_ok (Prog.modify_apply _ _),
      Prog.bind_of_ok (Prog.get_apply _)]
    simp only [Run.after_nil]
    exact hload
  · show (if sizeKey ∈ st.table.iterator then f.itemCount else 0) = f.itemCount
    split
    · rfl
    · rename_i hno
      rw [hname] at hno
      omega
  · have hbits : ∀ r ∈ positionsOf st.table.iterator, r < 8 * f₀.bitArray.length := by
      intro r hr
      rw [hlength]
      exact h.lt_bits hq ((mem_positionsOf hq hkeys).mp hr).1
    show bitTest (setBits f₀.bitArray (positionsOf st.table.iterator)) p = true ↔ _
    rw [bitTest_setBits hbits, show bitTest f₀.bitArray p = false from bitTest_replicate _ p,
      Bool.false_or, decide_eq_true_eq, mem_positionsOf hq hkeys, Table.mem_iterator, hmem]
    apply and_congr_right
    intro _
    apply or_iff_right
    rintro ⟨-, he⟩
    have := congrArg List.length he
    rw [length_uint64Bytes] at this
    cases this

end Loading

/-! ## When reopening is invisible -/

/-- A filter that is destroyed and constructed again has the same bits and the same number of elements. -/
def Reopens (d : Nat) (f : KeyValueCountingBloomFilter) : Prop :=
  ((reopen : BloomM d Unit) f).state.bitArray = f.bitArray ∧
    numberOfElements ((reopen : BloomM d Unit) f).state = numberOfElements f

/-- Each bit is set just when its position has a list. -/
def Agrees (f : KeyValueCountingBloomFilter) : Prop :=
  ∀ p, p < f.filterSize → (bitTest f.bitArray p = true ↔ uint64Bytes p ∈ f.storage.table)

section Agreement

variable {q : FilterParams} {f : KeyValueCountingBloomFilter}

theorem reopens_iff (d : Nat) (hq : q.Fits) (h : BloomStored q f) : Reopens d f ↔ Agrees f := by
  obtain ⟨f', hrun, -, hlength, hcount, hbits⟩ := reopen_ok (d := d) hq h
  rw [Reopens, hrun]
  constructor
  · rintro ⟨hsame, -⟩ p hp
    have hp' := hbits p
    rw [show f'.bitArray = f.bitArray from hsame] at hp'
    rw [hp', ← h.size_eq]
    exact and_iff_right hp
  · refine fun hagree => ⟨bytes_eq_of_bits hlength fun p _ => ?_, hcount⟩
    rw [Bool.eq_iff_iff, hbits p, ← h.size_eq]
    by_cases hp : p < f.filterSize
    · rw [hagree p hp]
      exact and_iff_right hp
    · have hclear : ¬bitTest f.bitArray p = true := fun hb =>
        hp (by rw [h.size_eq]; exact (h.bits p hb).1)
      simp [hp, hclear]

theorem RemovedAt.agrees (hq : q.Fits) {p : Nat} (hp : p < q.filterSize) {b : Bool}
    {f' : KeyValueCountingBloomFilter} (hr : RemovedAt d p f b f') (h : BloomStored q f)
    (ha : Agrees f) : Agrees f' := by
  have hlt := hq.lt
  cases hr with
  | absent _ => exact ha
  | @shared result value hlook _ _ =>
    intro r hr
    have hin : uint64Bytes p ∈ f.storage.table := Finmap.mem_of_lookup_eq_some hlook
    show bitTest f.bitArray r = true ↔ uint64Bytes r ∈ f.storage.table.insert (uint64Bytes p) value
    rw [ha r hr, Finmap.mem_insert]
    refine (or_iff_right_of_imp fun he => ?_).symm
    rw [he]
    exact hin
  | @last result hlook _ =>
    intro r hr
    have hrn : r < q.filterSize := h.size_eq ▸ hr
    show bitTest (bitClear f.bitArray p) r = true ↔ uint64Bytes r ∈ f.storage.table.erase (uint64Bytes p)
    rw [bitTest_bitClear _ _ _ (h.lt_bits hq hp), Bool.and_eq_true, bne_iff_ne, ha r hr,
      Finmap.mem_erase, and_comm]
    apply and_congr_left
    intro _
    exact ⟨fun hne he => hne (uint64Bytes_injective (by omega) (by omega) he).symm,
      fun hne he => hne (by rw [he])⟩

theorem RemovedAll.agrees (hd : 16 ≤ d) (hq : q.Fits) {ps : List Nat} (hps : ∀ p ∈ ps, p < q.filterSize)
    {b : Bool} {f' : KeyValueCountingBloomFilter} (hr : RemovedAll d ps f b f') (h : BloomStored q f)
    (ha : Agrees f) : Agrees f' := by
  induction hr with
  | nil => exact ha
  | cons first _ ih =>
    have hp := hps _ List.mem_cons_self
    exact ih (fun p hp => hps p (List.mem_cons_of_mem _ hp)) (first.stored hd hq hp h)
      (first.agrees hq hp h ha)

end Agreement

/-! ## Runs -/

inductive BloomOp (d : Nat) where
  | add (key : Digest d)
  | remove (key : Digest d)
  | clear

namespace BloomOp

/-- The answer of a removal. -/
def exec : BloomOp d → BloomM d (Option Bool)
  | add key => do
    KeyValueCountingBloomFilter.add key
    pure none
  | remove key => do
    let b ← KeyValueCountingBloomFilter.remove key
    pure (some b)
  | clear => do
    KeyValueCountingBloomFilter.clear
    pure none

/-- An addition gets to the bits, or appends at positions whose bits are set. -/
def harmless : BloomOp d → KeyValueCountingBloomFilter → Bool
  | add key, f => f.sets key ||
      (appends key f.storage.listOf (f.params.positions key)).all fun p => bitTest f.bitArray p
  | _, _ => true

end BloomOp

section Runs

variable {q : FilterParams} {f : KeyValueCountingBloomFilter}

/-- **One call.** -/
theorem step_agrees (hd : 16 ≤ d) (hq : q.Fits) (h : BloomStored q f) (ha : Agrees f) (op : BloomOp d) :
    BloomStored q (op.exec f).state ∧ (Agrees (op.exec f).state ↔ op.harmless f = true) := by
  cases op with
  | add key =>
    obtain ⟨f', hrun, hf', hlists, hbits, -⟩ := bloomAdd_lists hd hq h key
    have hstate : ((BloomOp.add key).exec f).state = f' := by
      cases hout : !f.listed key && f.full
      · rw [hout, if_neg (by decide)] at hrun
        rw [BloomOp.exec, Prog.bind_of_ok hrun]
        rfl
      · rw [hout, if_pos rfl] at hrun
        rw [BloomOp.exec, Prog.bind_of_error hrun]
    rw [hstate]
    refine ⟨hf', ?_⟩
    have hlisted : ∀ p, p < q.filterSize → (uint64Bytes p ∈ f'.storage.table ↔
        uint64Bytes p ∈ f.storage.table ∨ p ∈ appends key f.storage.listOf (q.positions key)) := by
      intro p hp
      rw [hf'.mem_iff, h.mem_iff, hlists p hp]
      exact appended_ne_nil (by omega)
    have happ : f.sets key = true →
        appends key f.storage.listOf (q.positions key) = q.positions key := by
      intro hs
      rw [sets, Bool.and_eq_true, Bool.not_eq_true', listed, h.positions_eq] at hs
      exact appends_eq hs.1
    unfold BloomOp.harmless
    rw [Bool.or_eq_true, List.all_eq_true, h.positions_eq]
    constructor
    · intro hagree
      cases hs : f.sets key with
      | true => exact Or.inl rfl
      | false =>
        apply Or.inr
        intro p hp
        have hpn := lt_of_mem_positions hq.1 (appends_subset hp)
        have hbit := (hagree p (by rwa [hf'.size_eq])).mpr ((hlisted p hpn).mpr (Or.inr hp))
        rw [hbits, hs] at hbit
        simpa using hbit
    · intro hgood p hp
      rw [hf'.size_eq] at hp
      rw [hbits, Bool.or_eq_true, ha p (by rwa [h.size_eq]), hlisted p hp, Bool.and_eq_true,
        decide_eq_true_eq]
      rcases hgood with hs | hset
      · rw [happ hs]
        simp [hs]
      · constructor
        · rintro (hold | ⟨hs, hnew⟩)
          · exact Or.inl hold
          · rw [happ hs]
            exact Or.inr hnew
        · rintro (hold | hnew)
          · exact Or.inl hold
          · exact Or.inl ((ha p (by rwa [h.size_eq])).mp (hset p hnew))
  | remove key =>
    have hgood : (BloomOp.remove key).harmless f = true := rfl
    rw [hgood]
    rcases remove_cases hd hq h key with ⟨-, hrun⟩ | ⟨-, b, f', hrun, hall⟩
    · rw [BloomOp.exec, Prog.bind_of_ok hrun]
      exact ⟨h, fun _ => rfl, fun _ => ha⟩
    · rw [BloomOp.exec, Prog.bind_of_ok hrun]
      have hps : ∀ p ∈ q.positions key, p < q.filterSize := fun p hp => lt_of_mem_positions hq.1 hp
      exact ⟨hall.stored hd hq hps h, fun _ => rfl, fun _ => hall.agrees hd hq hps h ha⟩
  | clear =>
    obtain ⟨f', hrun, hf', hempty, -, hbits⟩ := bloomClear_stored (d := d) h
    rw [BloomOp.exec, Prog.bind_of_ok hrun]
    refine ⟨hf', fun _ => rfl, fun _ p hp => ?_⟩
    show bitTest f'.bitArray p = true ↔ uint64Bytes p ∈ f'.storage.table
    rw [hbits, hempty]
    exact iff_of_false Bool.false_ne_true Finmap.notMem_empty

/-- **Closing and reopening is invisible at every moment exactly when every call is harmless.** -/
theorem reopens_iff_harmless (hd : 16 ≤ d) (filterSize functionCount maxElements : Nat)
    (hardMaximum : Bool) (hpos : 1 ≤ filterSize) (hfits : (filterSize + 7) / 8 < 2 ^ 32)
    (ops : List (BloomOp d)) :
    Prog.EachRun BloomOp.exec (fun _ r => Reopens d r.state ∧
        ∀ p, p < filterSize →
          (bitTest r.state.bitArray p = true ↔ uint64Bytes p ∈ r.state.storage.table))
        (KeyValueCountingBloomFilter.init filterSize functionCount hardMaximum maxElements) ops ↔
      Prog.Throughout BloomOp.exec BloomOp.harmless
        (KeyValueCountingBloomFilter.init filterSize functionCount hardMaximum maxElements) ops = true := by
  have hq : FilterParams.Fits ⟨filterSize, functionCount, hardMaximum, maxElements⟩ := ⟨hpos, hfits⟩
  have hinit := BloomStored.init ⟨filterSize, functionCount, hardMaximum, maxElements⟩
  refine Prog.eachRun_iff (I := fun f =>
    BloomStored ⟨filterSize, functionCount, hardMaximum, maxElements⟩ f ∧ Agrees f)
    (D := fun _ _ => true) (fun op _ f h _ => ?_) ⟨hinit, fun p _ => ?_⟩ (Prog.throughout_true _ _)
  · obtain ⟨hstored, hiff⟩ := step_agrees hd hq h.1 h.2 op
    refine ⟨?_, fun hc => ⟨hstored, hiff.mpr hc⟩⟩
    rw [reopens_iff d hq hstored, ← hiff]
    refine ⟨fun hr => hr.1, fun hagree => ⟨hagree, fun p hp => hagree p ?_⟩⟩
    rwa [hstored.size_eq]
  · show bitTest (List.replicate _ 0) p = true ↔ uint64Bytes p ∈ (∅ : Table)
    rw [bitTest_replicate]
    exact iff_of_false Bool.false_ne_true Finmap.notMem_empty

theorem reopens_iff_harmless_sample :
    Prog.EachRun BloomOp.exec (fun _ r => Reopens 16 r.state ∧
        ∀ p, p < 8 → (bitTest r.state.bitArray p = true ↔ uint64Bytes p ∈ r.state.storage.table))
        (KeyValueCountingBloomFilter.init 8 2 false 0)
        [.add (byteKey 16 1), .remove (byteKey 16 1)] ↔
      Prog.Throughout BloomOp.exec BloomOp.harmless (KeyValueCountingBloomFilter.init 8 2 false 0)
        [.add (byteKey 16 1), .remove (byteKey 16 1)] = true :=
  reopens_iff_harmless (by decide) 8 2 0 false (by decide) (by decide) _

/-- The second key is refused when it is in the list of its position already. -/
theorem refused_key_comes_back :
    ¬Reopens 16 (((BloomOp.add (byteKey 16 2)).exec ((BloomOp.add (byteKey 16 1)).exec
      (KeyValueCountingBloomFilter.init 8 1 true 1)).state).state) := by
  intro h
  exact absurd h.1 (by decide +kernel)

end Runs

end SetSync
