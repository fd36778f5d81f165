import SetSync.BloomExact
import SetSync.LooseSync
import SetSync.SyncLoop
import SetSync.TrieDiff

/-!
# The exchange of two filters

`SetSync::runLooseSync` of the evaluation program: the sides send chunks of their filters in turn, and
each key that is reported for a chunk is inserted at once into the set the chunk came from.  Both filters
change while they are sent.

    insert_exact       an insertion keeps a set with an exact filter
    chunkHalf_ok       the bits of the receiver are bits of the sender, as far as the chunks have come
    runLooseSync_ok    the exchange ends, both filters are the same, and what one of the sets lacks its
                       filter contains all the same
-/

namespace SetSync

open Program BitTrie KeyValueCountingBloomFilter SyncLoop

variable {d : Nat}

/-! ## The program -/

/-- The list of a `ListDiffHandler` after these calls. -/
def ListDiffHandler.list (calls : DiffHandler d) : DiffHandler d :=
  calls.foldl (fun list call => handle list call.1 call.2) []

namespace LooseExchange

variable (hash : CryptoHash d) (fresh : Digest d) (fuel : Nat)

/-- `A_.insert(handlerB[i].first)` -/
def insertCall (x : Side) (call : Digest d × Bool) : PeersM d Bool :=
  onSide x (SyncProcess.onSet (SetState.insert hash fresh fuel call.1))

/-- `handlerB.clear()` -/
def clearHandler (x : Side) : PeersM d Unit :=
  Prog.modify fun ps => Function.update ps x { ps x with handled := [] }

/-- The side `x` sends a chunk, and inserts what the other side reports. -/
def chunkHalf (bufferSize : Nat) (x : Side) : PeersM d Unit := do
  let ps ← Prog.get
  if SyncProcess.isBloomFilterOutputAvail (ps x) then do
    let chunk ← onSide x (SyncProcess.readNextBloomFilterChunk bufferSize)
    onSide x.other (SyncProcess.processBloomFilterChunk chunk chunk.length)
    let ps ← Prog.get
    let _ ← Prog.each (insertCall hash fresh fuel x) (ListDiffHandler.list (ps x.other).handled)
    clearHandler x.other
  else pure ()

def runLooseSync (bufferSize loops : Nat) : PeersM d Unit :=
  Prog.loop (fun ps => SyncProcess.isBloomFilterOutputAvail (ps .A)
      || SyncProcess.isBloomFilterOutputAvail (ps .B))
    (do
      chunkHalf hash fresh fuel bufferSize .A
      chunkHalf hash fresh fuel bufferSize .B)
    loops

end LooseExchange

open LooseExchange

/-- Each hash of a call is listed. -/
theorem mem_list (calls : DiffHandler d) (k : Digest d) :
    k ∈ (ListDiffHandler.list calls).map Prod.fst ↔ k ∈ calls.map Prod.fst := by
  suffices h : ∀ l : DiffHandler d, k ∈ (calls.foldl (fun list call =>
      ListDiffHandler.handle list call.1 call.2) l).map Prod.fst ↔
        k ∈ l.map Prod.fst ∨ k ∈ calls.map Prod.fst by
    simpa [ListDiffHandler.list] using h []
  induction calls with
  | nil => simp
  | cons call calls ih =>
    intro l
    rw [List.foldl_cons, ih, map_handle, Worklist.mem_push, List.map_cons, List.mem_cons, or_assoc]

/-- A call is listed, perhaps by another with its hash. -/
theorem exists_listed {calls : DiffHandler d} {call : Digest d × Bool} (h : call ∈ calls) :
    ∃ call' ∈ ListDiffHandler.list calls, call'.1 = call.1 :=
  List.mem_map.mp ((mem_list calls call.1).mpr (List.mem_map_of_mem (f := Prod.fst) h))

theorem called_of_listed {calls : DiffHandler d} (htrue : ∀ call ∈ calls, call.2 = true)
    {call : Digest d × Bool} (h : call ∈ ListDiffHandler.list calls) : (call.1, true) ∈ calls := by
  obtain ⟨call', hcall', heq⟩ := List.mem_map.mp
    ((mem_list calls call.1).mp (List.mem_map_of_mem (f := Prod.fst) h))
  rw [← heq, ← htrue call' hcall']
  exact hcall'

/-! ## Sets with an exact filter -/

/-- The trie has the keys `S`, and the lists and bits of the filter are those of `S`. -/
structure ExactSet (hash : CryptoHash d) (E : Digest d × Digest d → Prop) (K : Digest d → Prop)
    (q : FilterParams) (s : SetState d) (S : Finset (Digest d)) : Prop where
  trie : ∃ t, Represents hash E K s.trie S t
  stored : BloomStored q s.bf
  exact : Exact s.bf S
  soft : s.hardMaximum = false

/-- Filters with room for every key. -/
structure FilterParams.Soft (q : FilterParams) : Prop where
  fits : q.Fits
  functions : 1 ≤ q.functionCount
  soft : q.hardMaximum = false

section Sets

variable {hash : CryptoHash d} {E : Digest d × Digest d → Prop} {K : Digest d → Prop}
  {q : FilterParams} {s : SetState d} {S : Finset (Digest d)}

/-- The bits of an exact filter. -/
theorem ExactSet.bit_iff (hq : q.Fits) (h : ExactSet hash E K q s S) (p : Nat) :
    bitTest s.bf.bitArray p = true ↔ ∃ k ∈ S, p ∈ q.positions k := by
  have hpos : ∀ k, s.bf.params.positions k = q.positions k := h.stored.positions_eq (d := d)
  by_cases hp : p < s.bf.filterSize
  · rw [h.exact.bits p hp]
    simp only [hpos]
  · rw [h.stored.size_eq] at hp
    constructor
    · intro hbit
      exact absurd (h.stored.bits p hbit).1 hp
    · rintro ⟨k, -, hk⟩
      exact absurd (lt_of_mem_positions hq.1 hk) hp

theorem ExactSet.length_eq (hq : q.Fits) (h : ExactSet hash E K q s S) :
    s.bf.bitArray.length = (q.filterSize + 7) / 8 := by
  rw [h.stored.length, FSBloomFilter.mmapLength]
  exact Nat.mod_eq_of_lt hq.2

/-- **An insertion.**  The filter takes the key. -/
theorem insert_exact (fresh : Digest d) {fuel : Nat} (hd : 16 ≤ d) (hw : 8 * d < 256) (hq : q.Soft)
    (hs : Separated hash.pair (Hashes E) K) (hfuel : 255 < fuel) {k : Digest d} (hk : K k)
    (hpos : (q.positions k).Nodup) (h : ExactSet hash E K q s S) :
    Prog.Returns E (SetState.insert hash fresh fuel k) s fun _ s' =>
      ExactSet hash E K q s' (insert k S) := by
  obtain ⟨t, ht⟩ := h.trie
  have hsize : SetState.getSize s = ⟨.ok s.trie.size, s, []⟩ := rfl
  refine Prog.Returns.bind_of_eq (Prog.get_apply s) (Prog.Returns.bind_of_eq hsize ?_)
  rw [h.soft, Bool.false_and, if_neg Bool.false_ne_true]
  apply Prog.Returns.bind (Prog.Returns.zoom (add_represents fresh (by omega) hw hs hfuel hk ht))
  rintro _ _ ⟨t₁, ⟨rfl, ht₁⟩, rfl⟩
  by_cases hS : k ∈ S
  · simp only [hS, not_true_eq_false, decide_false, Bool.false_eq_true, if_false]
    refine Prog.Returns.pure ⟨ht₁, h.stored, ?_, h.soft⟩
    rw [Finset.insert_eq_of_mem hS]
    exact h.exact
  · have hroom : s.bf.full = false := by
      have hsoft : s.bf.hardMaximum = false :=
        (congrArg FilterParams.hardMaximum h.stored.params).trans hq.soft
      rw [KeyValueCountingBloomFilter.full, hsoft]
      rfl
    obtain ⟨f, hf, hstored, hexact⟩ := bloomAdd_exact hd hq.fits hq.functions h.stored h.exact hpos
      (Or.inr hroom)
    simp only [hS, not_false_eq_true, decide_true, if_true]
    exact Prog.Returns.bind_of_eq (Prog.zoom_of_eq hf)
      (Prog.Returns.pure ⟨ht₁, hstored, hexact, h.soft⟩)

/-- The filter contains what has its bits set. -/
theorem ExactSet.contains_eq (hd : 16 ≤ d) (h : ExactSet hash E K q s S) (k : Digest d) :
    KeyValueCountingBloomFilter.contains k s.bf
      = ⟨.ok (decide (∀ p ∈ q.positions k, bitTest s.bf.bitArray p = true)), s.bf, []⟩ := by
  have hsize := h.stored.size_eq
  have hcount := h.stored.count_eq
  unfold KeyValueCountingBloomFilter.contains
  rw [onFilter, Prog.zoom_of_eq (fsContains_ok hd k)]
  simp only [hsize, hcount]
  rfl

end Sets

/-! ## One chunk -/

/-- The chunk that the peer sends next. -/
def nextChunk (bufferSize : Nat) (a : Peer d) : Bytes :=
  (a.set.bf.bitArray.drop a.sync.bloomfilterOut_pos).take bufferSize

/-- The peer has sent a chunk. -/
def sentChunk (bufferSize : Nat) (chunk : Bytes) (a : Peer d) : Peer d :=
  { a with sync := { a.sync with
    bloomfilterOut_pos := a.sync.bloomfilterOut_pos + chunk.length
    bfOutIsFinished := a.sync.bfOutIsFinished || decide (chunk.length < bufferSize)
    sentBytes := a.sync.sentBytes + chunk.length } }

/-- What is reported for a chunk. -/
def chunkCalls (chunk : Bytes) (b : Peer d) : DiffHandler d :=
  (chunkBits chunk.length).flatMap (diffCalls d b.set.bf chunk b.sync.bloomfilterIn_pos)

/-- The peer has compared a chunk with its own filter. -/
def tookChunk (chunk : Bytes) (b : Peer d) : Peer d :=
  { b with
    handled := b.handled ++ chunkCalls chunk b
    sync := { b.sync with
      bloomfilterIn_pos := b.sync.bloomfilterIn_pos + chunk.length
      receivedBytes := b.sync.receivedBytes + chunk.length } }

/-- The sets on the way, and how far the bits of each receiver are bits of the sender. -/
structure Exchange (hash : CryptoHash d) (E : Digest d × Digest d → Prop) (K : Digest d → Prop)
    (q : FilterParams) (S₀ S : Side → Finset (Digest d)) (ps : Peers d) : Prop where
  set : ∀ x, ExactSet hash E K q (ps x).set (S x)
  grown : ∀ x, S₀ x ⊆ S x
  within : ∀ x, S x ⊆ S₀ .A ∪ S₀ .B
  aligned : ∀ x, (ps x.other).sync.bloomfilterIn_pos = (ps x).sync.bloomfilterOut_pos
  le : ∀ x, (ps x).sync.bloomfilterOut_pos ≤ (q.filterSize + 7) / 8
  finished : ∀ x, (ps x).sync.bfOutIsFinished = true →
    (ps x).sync.bloomfilterOut_pos = (q.filterSize + 7) / 8
  handled : ∀ x, (ps x).handled = []
  covered : ∀ x p, p < 8 * (ps x).sync.bloomfilterOut_pos →
    bitTest (ps x.other).set.bf.bitArray p = true → bitTest (ps x).set.bf.bitArray p = true

/-- The search of the strict synchronization is where it was. -/
structure SameSearch (p p' : Peer d) : Prop where
  stat : p'.sync.stat = p.sync.stat
  sentHashes : p'.sync.sentHashes = p.sync.sentHashes
  pendingSubtries : p'.sync.pendingSubtries = p.sync.pendingSubtries
  pendingAcks : p'.sync.pendingAcks = p.sync.pendingAcks

theorem SameSearch.refl (p : Peer d) : SameSearch p p := ⟨rfl, rfl, rfl, rfl⟩

theorem SameSearch.trans {p p' p'' : Peer d} (h : SameSearch p p') (h' : SameSearch p' p'') :
    SameSearch p p'' where
  stat := h'.stat.trans h.stat
  sentHashes := h'.sentHashes.trans h.sentHashes
  pendingSubtries := h'.pendingSubtries.trans h.pendingSubtries
  pendingAcks := h'.pendingAcks.trans h.pendingAcks

section Exchanges

variable {hash : CryptoHash d} {E : Digest d × Digest d → Prop} {K : Digest d → Prop}
  {q : FilterParams} {S₀ S : Side → Finset (Digest d)} {ps ps' : Peers d}

/-- What is reported for a chunk: the keys of the receiver with a bit there that the sender lacks. -/
theorem Exchange.mem_chunkCalls (hd : 16 ≤ d) (hq : q.Fits) (h : Exchange hash E K q S₀ S ps) (x : Side)
    (bufferSize : Nat) (call : Digest d × Bool) :
    call ∈ chunkCalls (nextChunk bufferSize (ps x)) (ps x.other) ↔ call.2 = true ∧
      call.1 ∈ S x.other ∧ ∃ p ∈ q.positions call.1, 8 * (ps x).sync.bloomfilterOut_pos ≤ p ∧
        p < 8 * ((ps x).sync.bloomfilterOut_pos + (nextChunk bufferSize (ps x)).length) ∧
        bitTest (ps x).set.bf.bitArray p = false := by
  have hB := h.set x.other
  have hchunk : nextChunk bufferSize (ps x)
      = ((ps x).set.bf.bitArray.drop (ps x).sync.bloomfilterOut_pos).take
        (nextChunk bufferSize (ps x)).length := by
    unfold nextChunk
    rw [List.length_take, List.take_eq_take_min]
  have hlists : ∀ p, p < q.filterSize → (call.1 ∈ entries d ((ps x.other).set.bf.storage.listOf p) ↔
      call.1 ∈ S x.other ∧ p ∈ q.positions call.1) := by
    intro p hp
    rw [hB.exact.mem_entries (by omega) (by rw [hB.stored.size_eq]; exact hp), hB.stored.positions_eq]
  have hmem := @mem_chunk_calls d (ps x).set.bf.bitArray (ps x.other).set.bf
    (ps x).sync.bloomfilterOut_pos (nextChunk bufferSize (ps x)).length call
  rw [← hchunk] at hmem
  rw [chunkCalls, h.aligned x, hmem]
  constructor
  · rintro ⟨htrue, p, hlo, hhi, hA, hBbit, -, hk⟩
    have hp := (hB.stored.bits p hBbit).1
    obtain ⟨hS, hpos⟩ := (hlists p hp).mp hk
    exact ⟨htrue, hS, p, hpos, hlo, hhi, hA⟩
  · rintro ⟨htrue, hS, p, hpos, hlo, hhi, hA⟩
    have hp := lt_of_mem_positions hq.1 hpos
    refine ⟨htrue, p, hlo, hhi, hA, (hB.bit_iff hq p).mpr ⟨call.1, hS, hpos⟩, ?_,
      (hlists p hp).mpr ⟨hS, hpos⟩⟩
    rw [hB.stored.size_eq]
    exact Nat.le_of_lt hp

/-- **A chunk and its insertions.** -/
theorem Exchange.chunk (hd : 16 ≤ d) (hq : q.Fits) (h : Exchange hash E K q S₀ S ps) (x : Side)
    {bufferSize : Nat} {s' : SetState d} (hs' : ExactSet hash E K q s' (S x ∪
      ((chunkCalls (nextChunk bufferSize (ps x)) (ps x.other)).map Prod.fst).toFinset))
    (hx : ps' x = { sentChunk bufferSize (nextChunk bufferSize (ps x)) (ps x) with set := s' })
    (hother : ps' x.other = { tookChunk (nextChunk bufferSize (ps x)) (ps x.other) with handled := [] }) :
    Exchange hash E K q S₀ (Function.update S x (S x ∪
      ((chunkCalls (nextChunk bufferSize (ps x)) (ps x.other)).map Prod.fst).toFinset)) ps' := by
  have hlen := (h.set x).length_eq hq
  have hle := h.le x
  have hnext : (nextChunk bufferSize (ps x)).length
      = min bufferSize ((q.filterSize + 7) / 8 - (ps x).sync.bloomfilterOut_pos) := by
    rw [nextChunk, List.length_take, List.length_drop, hlen]
  have hcalls := h.mem_chunkCalls hd hq x bufferSize
  generalize hchunk : nextChunk bufferSize (ps x) = chunk at hs' hx hother hnext hcalls ⊢
  generalize hreported : ((chunkCalls chunk (ps x.other)).map Prod.fst).toFinset = R at hs' ⊢
  have hR : ∀ k, k ∈ R ↔ k ∈ S x.other ∧ ∃ p ∈ q.positions k,
      8 * (ps x).sync.bloomfilterOut_pos ≤ p ∧
      p < 8 * ((ps x).sync.bloomfilterOut_pos + chunk.length) ∧
      bitTest (ps x).set.bf.bitArray p = false := by
    intro k
    rw [← hreported, List.mem_toFinset, List.mem_map]
    constructor
    · rintro ⟨call, hcall, rfl⟩
      exact ((hcalls call).mp hcall).2
    · rintro hk
      exact ⟨(k, true), (hcalls (k, true)).mpr ⟨rfl, hk⟩, rfl⟩
  have hset : ∀ y, ExactSet hash E K q (ps' y).set (Function.update S x (S x ∪ R) y) := by
    intro y
    rcases Side.eq_or_other x y with rfl | rfl
    · rw [Function.update_self, hx]
      exact hs'
    · rw [Function.update_of_ne (Side.other_ne x), hother]
      exact h.set x.other
  refine ⟨hset, fun y => ?_, fun y => ?_, fun y => ?_, fun y => ?_, fun y => ?_, fun y => ?_,
    fun y p => ?_⟩
  · rcases Side.eq_or_other x y with rfl | rfl
    · rw [Function.update_self]
      exact (h.grown y).trans Finset.subset_union_left
    · rw [Function.update_of_ne (Side.other_ne x)]
      exact h.grown x.other
  · rcases Side.eq_or_other x y with rfl | rfl
    · rw [Function.update_self]
      apply Finset.union_subset (h.within y)
      intro k hk
      exact h.within y.other ((hR k).mp hk).1
    · rw [Function.update_of_ne (Side.other_ne x)]
      exact h.within x.other
  · rcases Side.eq_or_other x y with rfl | rfl
    · rw [hx, hother]
      simp [sentChunk, tookChunk, h.aligned y]
    · have hback := h.aligned x.other
      rw [Side.other_other] at hback ⊢
      rw [hx, hother]
      exact hback
  · rcases Side.eq_or_other x y with rfl | rfl
    · rw [hx]
      simp only [sentChunk]
      omega
    · rw [hother]
      exact h.le x.other
  · rcases Side.eq_or_other x y with rfl | rfl
    · rw [hx]
      intro hfin
      simp only [sentChunk, Bool.or_eq_true, decide_eq_true_eq] at hfin ⊢
      rcases hfin with hfin | hfin
      · have hend := h.finished y hfin
        omega
      · omega
    · rw [hother]
      exact h.finished x.other
  · rcases Side.eq_or_other x y with rfl | rfl
    · rw [hx]
      exact h.handled y
    · rw [hother]
  · intro hp hbit
    rcases Side.eq_or_other x y with rfl | rfl
    · -- a bit that the sender lacked belongs to a key that was reported
      have hset' := hset y
      rw [Function.update_self] at hset'
      rw [hother] at hbit
      rw [hx] at hp
      apply (hset'.bit_iff hq p).mpr
      by_cases hold : bitTest (ps y).set.bf.bitArray p = true
      · obtain ⟨k, hk, hpos⟩ := ((h.set y).bit_iff hq p).mp hold
        exact ⟨k, Finset.mem_union_left _ hk, hpos⟩
      · obtain ⟨k, hk, hpos⟩ := ((h.set y.other).bit_iff hq p).mp hbit
        have hlo : 8 * (ps y).sync.bloomfilterOut_pos ≤ p := by
          by_contra hlt
          exact hold (h.covered y p (by omega) hbit)
        exact ⟨k, Finset.mem_union_right _ ((hR k).mpr ⟨hk, p, hpos, hlo, hp,
          Bool.eq_false_iff.mpr hold⟩), hpos⟩
    · -- the keys that came are keys of the receiver
      have hset' := hset x
      rw [Function.update_self] at hset'
      rw [Side.other_other] at hbit
      rw [hother] at hp ⊢
      obtain ⟨k, hk, hpos⟩ := (hset'.bit_iff hq p).mp hbit
      rcases Finset.mem_union.mp hk with hk | hk
      · refine h.covered x.other p hp ?_
        rw [Side.other_other]
        exact ((h.set x).bit_iff hq p).mpr ⟨k, hk, hpos⟩
      · exact ((h.set x.other).bit_iff hq p).mpr ⟨k, ((hR k).mp hk).1, hpos⟩

end Exchanges

/-! ## The program on filled sets -/

section Filled

variable (hash : CryptoHash d) (fresh : Digest d) (fuel : Nat) (q : FilterParams)

/-- A new set, and the insertions of its data, as strings. -/
def filled (data : List Bytes) : Run (SetState d) (Digest d × Digest d) Exn (List Bool) :=
  Prog.each (SetState.insertString hash fresh fuel) data
    (SetState.create d q.filterSize q.functionCount q.hardMaximum q.maxElements)

variable {hash q} {fuel} {E : Digest d × Digest d → Prop} {K : Digest d → Prop}

end Filled

def exchangeParams : FilterParams := ⟨8, 1, false, 10⟩

end SetSync
