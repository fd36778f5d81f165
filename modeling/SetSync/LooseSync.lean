import SetSync.BloomSpec
import SetSync.SyncProcess

/-!
# Loose synchronization

The bits of one filter are sent in chunks of any length, and the other side reports the keys at the
positions whose bit is missing.  Sender and receiver count their offsets separately.

    diff        the calls are the entries of the positions with a missing bit           (diff_ok)
    one chunk   both offsets move by the same number of bytes                          (round_ok)
    all chunks  the reported keys are those that the sender's filter does not contain
                                                                      (loose_sync_reports)
-/

namespace SetSync

open Program KeyValueCountingBloomFilter

variable {d : Nat}

/-! ## `diff` -/

/-- The calls for bit `j` of byte `i` of a chunk. -/
def diffCalls (d : Nat) (f : KeyValueCountingBloomFilter) (externalBF : Bytes) (offset : Nat)
    (b : Nat × Nat) : DiffHandler d :=
  if !bitTest (externalBF.drop b.1) b.2 && bitTest (f.bitArray.drop (b.1 + offset)) b.2
      && decide ((offset + b.1) * 8 + b.2 ≤ f.filterSize) then
    (entries d (f.storage.listOf ((offset + b.1) * 8 + b.2))).map fun k => (k, true)
  else []

section Diff

variable {f : KeyValueCountingBloomFilter} {handled : DiffHandler d}

theorem diffBit_ok (h : f.storage.failure = none) (externalBF : Bytes) (offset i j : Nat) :
    diffBit externalBF offset i j (f, handled)
      = ⟨.ok (), (f, handled ++ diffCalls d f externalBF offset (i, j)), []⟩ := by
  have hget : Prog.zoom Prod.fst (fun g p => (g, p.2))
      (KeyValueCountingBloomFilter.onStorage (Storage.get (uint64Bytes ((offset + i) * 8 + j)))
        : BloomM d _) (f, handled)
      = ⟨.ok (f.storage.table.lookup (uint64Bytes ((offset + i) * 8 + j))), (f, handled), []⟩ :=
    Prog.zoom_of_eq (onStorage_get h _)
  unfold diffBit
  rw [Prog.bind_of_ok (Prog.get_apply _)]
  simp only [diffCalls, Storage.listOf]
  by_cases hbit : (!bitTest (externalBF.drop i) j && bitTest (f.bitArray.drop (i + offset)) j) = true
  · rw [hbit]
    by_cases hpos : f.filterSize < (offset + i) * 8 + j
    · have hnot : ¬(offset + i) * 8 + j ≤ f.filterSize := by omega
      simp [hpos, hnot]
    · have hle : (offset + i) * 8 + j ≤ f.filterSize := by omega
      simp only [hpos, if_true, if_false, hle, decide_true, Bool.and_true]
      rw [Prog.bind_of_ok hget]
      cases f.storage.table.lookup (uint64Bytes ((offset + i) * 8 + j)) with
      | none => simp [entries]
      | some result => simp
  · rw [Bool.not_eq_true] at hbit
    rw [hbit]
    simp

theorem diffBits_ok (h : f.storage.failure = none) (externalBF : Bytes) (offset : Nat)
    (l : List (Nat × Nat)) :
    diffBits externalBF offset l (f, handled)
      = ⟨.ok (), (f, handled ++ l.flatMap (diffCalls d f externalBF offset)), []⟩ := by
  induction l generalizing handled with
  | nil => simp [diffBits]
  | cons b l ih =>
    unfold diffBits
    rw [Prog.bind_of_ok (diffBit_ok h externalBF offset b.1 b.2), ih, List.flatMap_cons,
      List.append_assoc]
    rfl

/-- A chunk that ends inside the filter. -/
theorem diff_ok (h : f.storage.failure = none) {externalBF : Bytes} {length offset : Nat}
    (hlen : length + offset ≤ FSBloomFilter.mmapLength f.filterSize) :
    diff externalBF length offset (f, handled)
      = ⟨.ok (), (f, handled ++ (chunkBits length).flatMap (diffCalls d f externalBF offset)), []⟩ := by
  unfold diff
  rw [Prog.bind_of_ok (Prog.get_apply _)]
  simp only
  rw [if_neg (by omega), diffBits_ok h]
  rfl

theorem mem_chunkBits {length : Nat} {b : Nat × Nat} :
    b ∈ chunkBits length ↔ b.1 < length ∧ b.2 < 8 := by
  obtain ⟨i, j⟩ := b
  simp [chunkBits]

end Diff

/-! ## Sender and receiver -/

/-- In the filter `f`, the list of each position has the live keys that are hashed to it, and a bit is
set if the list has a key. -/
structure Lists (f : KeyValueCountingBloomFilter) (live : Finset (Digest d)) : Prop where
  failure : f.storage.failure = none
  length : f.bitArray.length = f.size
  listed : ∀ p, p < 8 * f.bitArray.length → ∀ k : Digest d, k ∈ entries d (f.storage.listOf p) ↔
    k ∈ live ∧ p ∈ positions f.filterSize f.functionCount k
  bits : ∀ p, p < 8 * f.bitArray.length →
    (bitTest f.bitArray p = true ↔ entries d (f.storage.listOf p) ≠ [])

/-- One chunk from the first peer to the second. -/
def looseRound (length : Nat) : Prog (Peer d × Peer d) (Digest d × Digest d) Exn Bytes := do
  let chunk ← Prog.zoom Prod.fst (fun a p => (a, p.2)) (SyncProcess.readNextBloomFilterChunk length)
  Prog.zoom Prod.snd (fun b p => (p.1, b)) (SyncProcess.processBloomFilterChunk chunk chunk.length)
  pure chunk

/-- Chunks into buffers of the given lengths, while there is output; the chunks in order. -/
def looseSync : List Nat → Prog (Peer d × Peer d) (Digest d × Digest d) Exn (List Bytes)
  | [] => pure []
  | length :: lengths => do
    let (a, _) ← Prog.get
    if SyncProcess.isBloomFilterOutputAvail a then do
      let chunk ← looseRound length
      let chunks ← looseSync lengths
      pure (chunk :: chunks)
    else pure []

/-- What both sides agree on after `pos` bytes of the array `bits`. -/
structure LooseInv (bits : Bytes) (f : KeyValueCountingBloomFilter) (pos : Nat) (p : Peer d × Peer d) :
    Prop where
  bitArray : p.1.set.bf.bitArray = bits
  size : p.1.set.bf.size = bits.length
  filter : p.2.set.bf = f
  sent : p.1.sync.bloomfilterOut_pos = pos
  received : p.2.sync.bloomfilterIn_pos = pos
  le : pos ≤ bits.length
  finished : p.1.sync.bfOutIsFinished = true → pos = bits.length
  reported : ∀ x, x ∈ p.2.handled ↔ x.2 = true ∧ ∃ q, q < 8 * pos ∧ bitTest bits q = false ∧
    bitTest f.bitArray q = true ∧ q ≤ f.filterSize ∧ x.1 ∈ entries d (f.storage.listOf q)

section Rounds

variable {bits : Bytes} {f : KeyValueCountingBloomFilter} {pos : Nat} {p : Peer d × Peer d}

/-- The calls for a chunk that starts at `pos`. -/
theorem mem_chunk_calls {n : Nat} (x : Digest d × Bool) :
    x ∈ (chunkBits n).flatMap (diffCalls d f ((bits.drop pos).take n) pos) ↔ x.2 = true ∧
      ∃ q, 8 * pos ≤ q ∧ q < 8 * (pos + n) ∧ bitTest bits q = false ∧ bitTest f.bitArray q = true ∧
        q ≤ f.filterSize ∧ x.1 ∈ entries d (f.storage.listOf q) := by
  have hbit : ∀ i j, i < n → j < 8 →
      bitTest (((bits.drop pos).take n).drop i) j = bitTest bits (8 * (pos + i) + j) ∧
      bitTest (f.bitArray.drop (i + pos)) j = bitTest f.bitArray (8 * (pos + i) + j) := by
    intro i j hi hj
    refine ⟨?_, ?_⟩
    · rw [bitTest_drop _ _ hj, bitTest_take _ (by omega),
        show 8 * (pos + i) + j = 8 * pos + (8 * i + j) by omega]
      have h1 : (8 * pos + (8 * i + j)) / 8 = pos + (8 * i + j) / 8 := by omega
      have h2 : (8 * pos + (8 * i + j)) % 8 = (8 * i + j) % 8 := by omega
      rw [bitTest_eq, bitTest_eq, getD_drop, h1, h2]
    · rw [bitTest_drop _ _ hj, show i + pos = pos + i by omega]
  constructor
  · intro hx
    obtain ⟨⟨i, j⟩, hb, hx⟩ := List.mem_flatMap.mp hx
    obtain ⟨hi, hj⟩ := mem_chunkBits.mp hb
    obtain ⟨h1, h2⟩ := hbit i j hi hj
    rw [diffCalls] at hx
    simp only at hx
    rw [h1, h2, show (pos + i) * 8 + j = 8 * (pos + i) + j by omega] at hx
    split at hx
    · rename_i hcond
      obtain ⟨k, hk, rfl⟩ := List.mem_map.mp hx
      simp only [Bool.and_eq_true, Bool.not_eq_true', decide_eq_true_eq] at hcond
      exact ⟨rfl, 8 * (pos + i) + j, by omega, by omega, hcond.1.1, hcond.1.2, hcond.2, hk⟩
    · cases hx
  · rintro ⟨htrue, q, hlo, hhi, hA, hB, hsize, hk⟩
    have hi : q / 8 - pos < n := by omega
    have hj : q % 8 < 8 := by omega
    have hq : 8 * (pos + (q / 8 - pos)) + q % 8 = q := by omega
    obtain ⟨h1, h2⟩ := hbit _ _ hi hj
    refine List.mem_flatMap.mpr ⟨(q / 8 - pos, q % 8), mem_chunkBits.mpr ⟨hi, hj⟩, ?_⟩
    unfold diffCalls
    simp only
    rw [h1, h2, show (pos + (q / 8 - pos)) * 8 + q % 8 = q by omega, hq, hA, hB,
      decide_eq_true hsize]
    exact List.mem_map.mpr ⟨x.1, hk, Prod.ext rfl htrue.symm⟩

/-- **One chunk.** -/
theorem round_ok (hf : f.storage.failure = none)
    (hmap : FSBloomFilter.mmapLength f.filterSize = bits.length) (length : Nat)
    (h : LooseInv bits f pos p) :
    ∃ p', looseRound length p = ⟨.ok ((bits.drop pos).take length), p', []⟩ ∧
      LooseInv bits f (pos + min length (bits.length - pos)) p' ∧
      p'.1.sync.bfOutIsFinished
        = (p.1.sync.bfOutIsFinished || decide (bits.length - pos < length)) := by
  obtain ⟨a, b⟩ := p
  have hle := h.le
  have hout : a.sync.bloomfilterOut_pos = pos := h.sent
  have hin : b.sync.bloomfilterIn_pos = pos := h.received
  have hchunk : a.set.bf.getChunk length pos = (bits.drop pos).take length := by
    unfold getChunk
    rw [show a.set.bf.size = bits.length from h.size,
      show a.set.bf.bitArray = bits from h.bitArray]
    by_cases hend : bits.length ≤ pos
    · rw [if_pos hend, List.drop_eq_nil_of_le hend, List.take_nil]
    · rw [if_neg hend]
      rcases Nat.le_total length (bits.length - pos) with hl | hl
      · rw [Nat.min_eq_left hl]
      · rw [Nat.min_eq_right hl, List.take_of_length_le (by rw [List.length_drop]),
          List.take_of_length_le (by rw [List.length_drop]; exact hl)]
  generalize hn : min length (bits.length - pos) = n
  have htake : (bits.drop pos).take length = (bits.drop pos).take n := by
    rw [← hn, List.take_eq_take_min, List.length_drop]
  have hlen : ((bits.drop pos).take n).length = n := by
    rw [List.length_take, List.length_drop]
    omega
  rw [htake] at hchunk ⊢
  have hread : SyncProcess.readNextBloomFilterChunk length a = ⟨.ok ((bits.drop pos).take n),
      { a with sync := { a.sync with
          bloomfilterOut_pos := pos + n
          bfOutIsFinished := a.sync.bfOutIsFinished || decide (n < length)
          sentBytes := a.sync.sentBytes + n } }, []⟩ := by
    unfold SyncProcess.readNextBloomFilterChunk
    rw [Prog.bind_of_ok (Prog.get_apply a)]
    simp only [hout, hchunk, hlen]
    rw [Prog.bind_of_ok (SyncProcess.modifySync_apply _ a), hout]
    rfl
  have hdiff : diff ((bits.drop pos).take n) n pos (f, b.handled) = ⟨.ok (), (f, b.handled ++
      (chunkBits n).flatMap (diffCalls d f ((bits.drop pos).take n) pos)), []⟩ :=
    diff_ok hf (by rw [hmap]; omega)
  have hprocess : SyncProcess.processBloomFilterChunk ((bits.drop pos).take n) n b = ⟨.ok (), { b with
      set := { b.set with bf := f }
      handled := b.handled ++ (chunkBits n).flatMap (diffCalls d f ((bits.drop pos).take n) pos)
      sync := { b.sync with
        bloomfilterIn_pos := pos + n
        receivedBytes := b.sync.receivedBytes + n } }, []⟩ := by
    rw [← show b.set.bf = f from h.filter] at hdiff ⊢
    have hzoom := @Prog.zoom_of_eq _ _ _ _ _ (fun p : Peer d => (p.set.bf, p.handled))
      (fun r p => { p with set := { p.set with bf := r.1 }, handled := r.2 }) _ b _ _ _ hdiff
    unfold SyncProcess.processBloomFilterChunk
    rw [Prog.bind_of_ok (Prog.get_apply b), hin,
      Prog.bind_of_ok hzoom, SyncProcess.modifySync_apply]
    simp only [hin]
    rfl
  refine ⟨({ a with sync := { a.sync with
        bloomfilterOut_pos := pos + n
        bfOutIsFinished := a.sync.bfOutIsFinished || decide (n < length)
        sentBytes := a.sync.sentBytes + n } },
      { b with
        set := { b.set with bf := f }
        handled := b.handled ++ (chunkBits n).flatMap (diffCalls d f ((bits.drop pos).take n) pos)
        sync := { b.sync with
          bloomfilterIn_pos := pos + n
          receivedBytes := b.sync.receivedBytes + n } }),
    ?_, ⟨h.bitArray, h.size, rfl, rfl, rfl, by omega, ?_, ?_⟩, ?_⟩
  · unfold looseRound
    rw [Prog.bind_of_ok (Prog.zoom_of_eq hread), hlen,
      Prog.bind_of_ok (Prog.zoom_of_eq hprocess)]
    rfl
  · intro hfin
    rcases (Bool.or_eq_true _ _).mp hfin with hfin | hfin
    · have := h.finished hfin
      omega
    · have := of_decide_eq_true hfin
      omega
  · intro x
    show x ∈ b.handled ++ _ ↔ _
    rw [List.mem_append, h.reported x, mem_chunk_calls]
    constructor
    · rintro (⟨hx, q, hq, hrest⟩ | ⟨hx, q, _, hq, hrest⟩)
      · exact ⟨hx, q, by omega, hrest⟩
      · exact ⟨hx, q, hq, hrest⟩
    · rintro ⟨hx, q, hq, hrest⟩
      by_cases hold : q < 8 * pos
      · exact Or.inl ⟨hx, q, hold, hrest⟩
      · exact Or.inr ⟨hx, q, by omega, hq, hrest⟩
  · show (a.sync.bfOutIsFinished || decide (n < length)) = (a.sync.bfOutIsFinished || _)
    congr 1
    rw [Bool.eq_iff_iff, decide_eq_true_eq, decide_eq_true_eq]
    omega

/-- **All chunks.**  A chunk that leaves output has moved the offset, so the bytes that are left bound
the number of chunks. -/
theorem rounds_ok (hf : f.storage.failure = none)
    (hmap : FSBloomFilter.mmapLength f.filterSize = bits.length) (lengths : List Nat)
    (hlengths : ∀ length ∈ lengths, 1 ≤ length) (hmany : bits.length - pos < lengths.length)
    (hopen : p.1.sync.bfOutIsFinished = false) (h : LooseInv bits f pos p) :
    ∃ chunks p', looseSync lengths p = ⟨.ok chunks, p', []⟩ ∧ chunks.flatten = bits.drop pos ∧
      chunks.length ≤ bits.length - pos + 1 ∧ p'.1.sync.bfOutIsFinished = true ∧
      LooseInv bits f bits.length p' := by
  induction lengths generalizing pos p with
  | nil => cases hmany
  | cons length lengths ih =>
    have h1 := hlengths length List.mem_cons_self
    obtain ⟨p₁, hround, h₁, hfin₁⟩ := round_ok hf hmap length h
    rw [hopen, Bool.false_or] at hfin₁
    have hstart : ∀ {chunks p'}, looseSync lengths p₁ = ⟨.ok chunks, p', []⟩ →
        looseSync (length :: lengths) p
          = ⟨.ok ((bits.drop pos).take length :: chunks), p', []⟩ := by
      intro chunks p' hrest
      unfold looseSync
      rw [Prog.bind_of_ok (Prog.get_apply p)]
      simp only [SyncProcess.isBloomFilterOutputAvail, hopen, Bool.not_false, if_true]
      rw [Prog.bind_of_ok hround, Prog.bind_of_ok hrest]
      rfl
    by_cases hlast : bits.length - pos < length
    · -- the last chunk
      rw [decide_eq_true hlast] at hfin₁
      have hle := h.le
      rw [show pos + min length (bits.length - pos) = bits.length by omega] at h₁
      have hstop : looseSync lengths p₁ = ⟨.ok [], p₁, []⟩ := by
        cases lengths with
        | nil => rfl
        | cons next rest =>
          unfold looseSync
          rw [Prog.bind_of_ok (Prog.get_apply p₁)]
          simp [SyncProcess.isBloomFilterOutputAvail, hfin₁]
      refine ⟨_, p₁, hstart hstop, ?_, ?_, hfin₁, h₁⟩
      · rw [List.flatten_cons, List.flatten_nil, List.append_nil,
          List.take_of_length_le (by rw [List.length_drop]; omega)]
      · rw [List.length_singleton]
        omega
    · rw [decide_eq_false hlast] at hfin₁
      rw [show pos + min length (bits.length - pos) = pos + length by omega] at h₁
      obtain ⟨chunks, p₂, hrest, hflat, hcount, hfin₂, h₂⟩ := ih
        (fun n hn => hlengths n (List.mem_cons_of_mem length hn))
        (by rw [List.length_cons] at hmany; omega) hfin₁ h₁
      refine ⟨_, p₂, hstart hrest, ?_, ?_, hfin₂, h₂⟩
      · rw [List.flatten_cons, hflat, ← List.drop_drop, List.take_append_drop]
      · rw [List.length_cons]
        omega

end Rounds

/-! ## The reported keys -/

/-- The lists of a filter, entry by entry. -/
theorem Lists.of_entries {f : KeyValueCountingBloomFilter} {live : Finset (Digest d)}
    (hf : f.storage.failure = none) (hlen : f.bitArray.length = f.size)
    (hlisted : ∀ p < 8 * f.bitArray.length, ∀ k ∈ entries d (f.storage.listOf p),
      k ∈ live ∧ p ∈ positions f.filterSize f.functionCount k)
    (hlive : ∀ k ∈ live, ∀ p ∈ positions f.filterSize f.functionCount k,
      k ∈ entries d (f.storage.listOf p))
    (hbits : ∀ p < 8 * f.bitArray.length,
      (bitTest f.bitArray p = true ↔ entries d (f.storage.listOf p) ≠ [])) : Lists f live :=
  ⟨hf, hlen, fun p hp k => ⟨hlisted p hp k, fun h => hlive k h.1 p h.2⟩, hbits⟩

/-- **Loose synchronization reports what the sender's filter lacks.** -/
theorem loose_sync_reports (hd : 16 ≤ d) (A B : SetState d) (live : Finset (Digest d))
    (hsize : A.bf.filterSize = B.bf.filterSize) (hcount : A.bf.functionCount = B.bf.functionCount)
    (hpos : 0 < B.bf.filterSize) (hfit : B.bf.size < 2 ^ 32) (hA : A.bf.bitArray.length = A.bf.size)
    (hB : Lists B.bf live) (lengths : Nat → Nat) (hlengths : ∀ i, 1 ≤ lengths i) (n : Nat)
    (hn : A.bf.size < n) :
    ∃ chunks p', looseSync ((List.range n).map lengths) (Peer.fresh A, Peer.fresh B)
        = ⟨.ok chunks, p', []⟩ ∧
      SyncProcess.isBloomFilterOutputAvail p'.1 = false ∧ chunks.length ≤ A.bf.size + 1 ∧
      chunks.flatten = A.bf.bitArray ∧ (∀ x ∈ p'.2.handled, x.2 = true) ∧
      ∀ k : Digest d, (k, true) ∈ p'.2.handled ↔ k ∈ live ∧
        (KeyValueCountingBloomFilter.contains k A.bf).outcome = .ok false := by
  have hsz : A.bf.size = B.bf.size := by
    rw [FSBloomFilter.size, FSBloomFilter.size, hsize]
  have hmap : FSBloomFilter.mmapLength B.bf.filterSize = A.bf.bitArray.length := by
    rw [hA, hsz, FSBloomFilter.mmapLength]
    exact Nat.mod_eq_of_lt hfit
  have hstart : LooseInv A.bf.bitArray B.bf 0 (Peer.fresh A, Peer.fresh B) := by
    refine ⟨rfl, hA.symm, rfl, rfl, rfl, Nat.zero_le _, fun hf => (by cases hf), fun x => ?_⟩
    simp [Peer.fresh]
  obtain ⟨chunks, p', hrun, hflat, hlen, hfin, hinv⟩ := rounds_ok hB.failure hmap
    ((List.range n).map lengths) (by simpa using fun i _ => hlengths i)
    (by rw [List.length_map, List.length_range, hA]; omega) rfl hstart
  refine ⟨chunks, p', hrun, ?_, ?_, hflat, fun x hx => ((hinv.reported x).mp hx).1, fun k => ?_⟩
  · unfold SyncProcess.isBloomFilterOutputAvail
    rw [hfin, Bool.not_true]
  · rw [← hA]
    exact hlen
  · have hcontains : (KeyValueCountingBloomFilter.contains k A.bf).outcome
        = .ok (decide (∀ p ∈ positions B.bf.filterSize B.bf.functionCount k,
          bitTest A.bf.bitArray p = true)) := by
      unfold KeyValueCountingBloomFilter.contains
      rw [onFilter, Prog.zoom_of_eq (fsContains_ok hd k),
        hsize, hcount]
    have hbytes : B.bf.filterSize ≤ 8 * A.bf.size := by
      rw [hsz, FSBloomFilter.size]
      omega
    rw [hcontains, hinv.reported, hA]
    constructor
    · rintro ⟨_, q, hq, hAbit, _, _, hk⟩
      rw [hsz, ← hB.length] at hq
      obtain ⟨hlive, hposition⟩ := (hB.listed q hq k).mp hk
      refine ⟨hlive, ?_⟩
      rw [decide_eq_false fun hall => ?_]
      rw [hall q hposition] at hAbit
      cases hAbit
    · rintro ⟨hlive, hmiss⟩
      obtain ⟨q, hposition, hAbit⟩ : ∃ q ∈ positions B.bf.filterSize B.bf.functionCount k,
          bitTest A.bf.bitArray q = false := by
        by_contra hno
        rw [decide_eq_true fun q hq => ?_] at hmiss
        · cases hmiss
        · by_contra hbit
          exact hno ⟨q, hq, Bool.not_eq_true _ ▸ hbit⟩
      have hlt := lt_of_mem_positions hpos hposition
      have hin : q < 8 * B.bf.bitArray.length := by
        rw [hB.length, ← hsz]
        omega
      have hk := (hB.listed q hin k).mpr ⟨hlive, hposition⟩
      exact ⟨rfl, q, by omega, hAbit, (hB.bits q hin).mpr (List.ne_nil_of_mem hk), by omega, hk⟩

/-- A filter with one key, built by `insert`. -/
def oneKey : SetState 16 :=
  (SetState.insert (mixHash 16) (byteKey 16 0) 256 (byteKey 16 3) (SetState.create 16 12 1 false 4)).state

theorem loose_sync_reports_sample :
    ∃ chunks p', looseSync ((List.range 3).map fun _ => 1)
        (Peer.fresh (SetState.create 16 12 1 false 4), Peer.fresh oneKey) = ⟨.ok chunks, p', []⟩ ∧
      chunks.flatten = [0, 0] ∧ (byteKey 16 3, true) ∈ p'.2.handled := by
  have hB : Lists oneKey.bf {byteKey 16 3} :=
    .of_entries (by decide +kernel) (by decide +kernel) (by decide +kernel) (by decide +kernel)
      (by decide +kernel)
  obtain ⟨chunks, p', hrun, _, _, hflat, _, hreported⟩ := loose_sync_reports (by decide)
    (SetState.create 16 12 1 false 4) oneKey {byteKey 16 3} (by decide +kernel) (by decide +kernel)
    (by decide +kernel) (by decide +kernel) (by decide +kernel) hB (fun _ => 1)
    (fun _ => Nat.le_refl 1) 3 (by decide)
  refine ⟨chunks, p', hrun, hflat, (hreported _).mpr ⟨Finset.mem_singleton_self _, ?_⟩⟩
  decide +kernel

end SetSync
