import SetSync.BloomSpec
import SetSync.Set
import SetSync.TrieRefinement

/-!
# The set refines a finite set

`SetRep s S`: the trie of `s` represents `S`, and its bloom filter covers `S`.  An insertion keeps this
if the filter takes the key: `FSBloomFilter::add` has room by its own count, and the loop of
`KeyValueCountingBloomFilter::add` stops at no list.  Both are conditions on the state before the
call (`SetState.takes`).

    step   SetRep s S, takes → the answer of `within`, SetRep s' of its set              (setExec_rep)
    run    takes before every call → answers and `find` are those of a set
                                                   (set_refines_finite_set, hard_maximum_accepts)
-/

namespace SetSync

open Program BitTrie

variable {d : Nat}

section Runs

variable (hash : CryptoHash d) (fresh : Digest d) (fuel : Nat)

def SetOp.execSet : SetOp (Digest d) → SetM d (Option Bool)
  | add k => do
    let b ← SetState.insert hash fresh fuel k
    pure (some b)
  | remove k => do
    let b ← SetState.erase hash fuel k
    pure (some b)
  | clear => do
    SetState.clear
    pure none

def runSet (ops : List (SetOp (Digest d))) : SetM d (List (Option Bool)) :=
  Prog.each (SetOp.execSet hash fresh fuel) ops

end Runs

/-! ## When the filter takes a key -/

/-- The test of `insert` for a hard maximum. -/
def SetState.full (s : SetState d) : Bool := s.hardMaximum && decide (s.maxSize ≤ s.trie.size)

/-- The key is a leaf of the trie. -/
def SetState.holds (s : SetState d) (k : Digest d) : Bool :=
  match (KeyValueTrie.contains k s.trie).outcome with
  | .ok .LEAF_NODE => true
  | _ => false

/-- If the call gets to the filter, no list of the key's positions has the key, and the filter's count
is below its maximum. -/
def SetState.takes (s : SetState d) : SetOp (Digest d) → Bool
  | .add k => s.full || s.holds k ||
      (!s.bf.listed k && !(s.bf.hardMaximum && decide (s.bf.maxElements ≤ s.bf.itemCount)))
  | _ => true

/-- In a run, the filter takes every key that gets to it. -/
def takesThroughout (hash : CryptoHash d) (fresh : Digest d) (fuel : Nat) (s : SetState d)
    (ops : List (SetOp (Digest d))) : Bool :=
  Prog.Throughout (SetOp.execSet hash fresh fuel) (fun op s => s.takes op) s ops

/-! ## One operation -/

/-- The set is full as its parameters say. -/
def FilterParams.full (q : FilterParams) (S : Finset (Digest d)) : Bool :=
  q.hardMaximum && decide (q.maxElements ≤ S.card)

structure SetRep (hash : CryptoHash d) (E : Digest d × Digest d → Prop) (K : Digest d → Prop)
    (q : FilterParams) (s : SetState d) (S : Finset (Digest d)) : Prop where
  trie : ∃ t, Represents hash E K s.trie S t
  bf : BloomCovers q s.bf S
  index : s.index.failure = none
  unused : s.indexInUse = false
  maxSize : s.maxSize = q.maxElements
  hardMaximum : s.hardMaximum = q.hardMaximum

section Step

variable {hash : CryptoHash d} (fresh : Digest d) {E : Digest d × Digest d → Prop}
  {K : Digest d → Prop} {q : FilterParams} {s : SetState d} {S : Finset (Digest d)} {fuel : Nat}

theorem SetRep.size_eq (h : SetRep hash E K q s S) : s.trie.size = S.card := by
  obtain ⟨t, ht⟩ := h.trie
  exact ht.size_eq

theorem SetRep.full_eq (h : SetRep hash E K q s S) : s.full = q.full S := by
  unfold SetState.full
  rw [FilterParams.full, h.hardMaximum, h.maxSize, h.size_eq]

theorem SetRep.contains_iff (hs : Separated hash.pair (Hashes E) K) (h : SetRep hash E K q s S)
    (k : Digest d) : (KeyValueTrie.contains k s.trie).outcome = .ok .LEAF_NODE ↔ k ∈ S := by
  obtain ⟨t, ht⟩ := h.trie
  exact ht.contains_iff hash hs k

theorem SetRep.holds_iff (hs : Separated hash.pair (Hashes E) K) (h : SetRep hash E K q s S)
    (k : Digest d) : s.holds k = true ↔ k ∈ S := by
  rw [← h.contains_iff hs k, SetState.holds]
  constructor
  · intro hm
    split at hm
    · assumption
    · cases hm
  · intro hm
    rw [hm]

theorem insert_rep (hd : 16 ≤ d) (hw : 8 * d < 256) (hq : q.Fits)
    (hs : Separated hash.pair (Hashes E) K) (hfuel : 255 < fuel) {k : Digest d} (hk : K k)
    (ht : s.takes (.add k) = true) (h : SetRep hash E K q s S) :
    Prog.Returns E (SetState.insert hash fresh fuel k) s fun b s' =>
      some b = ((SetOp.add k).within q.full S).1 ∧
        SetRep hash E K q s' ((SetOp.add k).within q.full S).2 := by
  have hsize : SetState.getSize s = ⟨.ok s.trie.size, s, []⟩ := rfl
  refine Prog.Returns.bind_of_eq (Prog.get_apply s) (Prog.Returns.bind_of_eq hsize ?_)
  have hfull := h.full_eq
  rw [SetState.full] at hfull
  unfold SetOp.within
  rw [hfull]
  cases hqf : q.full S with
  | true => exact Prog.Returns.pure ⟨rfl, h⟩
  | false =>
    simp only [Bool.false_eq_true, if_false]
    obtain ⟨t, hrep⟩ := h.trie
    apply Prog.Returns.bind (Prog.Returns.zoom (add_represents fresh (by omega) hw hs hfuel hk hrep))
    rintro _ _ ⟨t₁, ⟨rfl, hrep₁⟩, rfl⟩
    by_cases hS : k ∈ S
    · simp only [hS, not_true_eq_false, decide_false, Bool.false_eq_true, if_false]
      refine Prog.Returns.pure ⟨rfl, ?_⟩
      rw [Finset.insert_eq_of_mem hS] at hrep₁ ⊢
      exact ⟨hrep₁, h.bf, h.index, h.unused, h.maxSize, h.hardMaximum⟩
    · -- the key is new, so the filter has to take it
      have hnot : s.holds k = false := by
        rw [← Bool.not_eq_true, h.holds_iff hs]
        exact hS
      rw [SetState.takes, h.full_eq, hqf, hnot, Bool.false_or, Bool.false_or, Bool.and_eq_true,
        Bool.not_eq_true', Bool.not_eq_true'] at ht
      have hpar := h.bf.params
      have hroom : (q.hardMaximum && decide (q.maxElements ≤ s.bf.itemCount)) = false := by
        rw [← hpar]
        exact ht.2
      obtain ⟨f, hf, hcov⟩ := bloomAdd_ok hd hq h.bf hS ht.1 hroom
      simp only [hS, not_false_eq_true, decide_true, if_true]
      refine Prog.Returns.bind_of_eq (Prog.zoom_of_eq hf) (Prog.Returns.pure ⟨rfl, ?_⟩)
      exact ⟨hrep₁, hcov, h.index, h.unused, h.maxSize, h.hardMaximum⟩

theorem erase_rep (hd : 16 ≤ d) (hq : q.Fits) (hs : Separated hash.pair (Hashes E) K)
    (hfuel : 255 < fuel) (k : Digest d) (h : SetRep hash E K q s S) :
    Prog.Returns E (SetState.erase hash fuel k) s fun b s' => b = decide (k ∈ S) ∧
      SetRep hash E K q s' (S.erase k) := by
  obtain ⟨t, hrep⟩ := h.trie
  apply Prog.Returns.bind (Prog.Returns.zoom (remove_represents (by omega) hs hfuel k hrep))
  rintro _ _ ⟨t₁, ⟨rfl, hrep₁⟩, rfl⟩
  by_cases hS : k ∈ S
  · obtain ⟨b, f, hf, hcov⟩ := bloomRemove_ok hd hq h.bf hS
    simp only [hS, decide_true, if_true]
    refine Prog.Returns.bind_of_eq (Prog.zoom_of_eq hf)
      (Prog.Returns.bind_of_eq (Prog.get_apply _) ?_)
    simp only [h.unused, Bool.false_eq_true, if_false]
    exact Prog.Returns.pure ⟨rfl, hrep₁, hcov, h.index, rfl, h.maxSize, h.hardMaximum⟩
  · simp only [hS, decide_false, Bool.false_eq_true, if_false]
    refine Prog.Returns.pure ⟨rfl, ?_⟩
    rw [Finset.erase_eq_of_notMem hS] at hrep₁ ⊢
    exact ⟨hrep₁, h.bf, h.index, h.unused, h.maxSize, h.hardMaximum⟩

theorem clear_rep (h : SetRep hash E K q s S) :
    Prog.Returns E (SetState.clear : SetM d Unit) s fun _ s' => SetRep hash E K q s' ∅ := by
  obtain ⟨t, hrep⟩ := h.trie
  obtain ⟨t₁, ht₁, hempty⟩ := clear_ok hrep.failure
  obtain ⟨f, hf, hcov⟩ := bloomClear_ok h.bf
  have hindex : (KeyValueIndex.clear : Prog Storage (Digest d × Digest d) Exn Unit) s.index = _ :=
    Storage.clear_ok h.index
  refine Prog.Returns.bind_of_eq (Prog.zoom_of_eq ht₁) (Prog.Returns.bind_of_eq (Prog.zoom_of_eq hf)
    (Prog.Returns.bind_of_eq (Prog.zoom_of_eq hindex) (Prog.Returns.of_eq (Prog.modify_apply _ _) ?_)))
  exact ⟨⟨none, represents_none hempty⟩, hcov, rfl, rfl, h.maxSize, h.hardMaximum⟩

/-- `find` asks the filter and then the trie. -/
theorem find_rep (hd : 16 ≤ d) (hs : Separated hash.pair (Hashes E) K) (h : SetRep hash E K q s S)
    (k : Digest d) : (SetState.find k s).outcome = .ok (decide (k ∈ S)) := by
  obtain ⟨t, hrep⟩ := h.trie
  obtain ⟨type, htype⟩ : ∃ type, KeyValueTrie.contains k s.trie = ⟨.ok type, s.trie, []⟩ := by
    cases t with
    | none => exact ⟨_, contains_none k hrep.stores⟩
    | some u => exact ⟨_, contains_ok hash k hrep.stores hs (hrep.wellFormed u rfl)⟩
  have hiff := h.contains_iff hs k
  rw [htype] at hiff
  have hleaf : (type == .LEAF_NODE) = decide (k ∈ S) := by
    rw [Bool.eq_iff_iff, beq_iff_eq, decide_eq_true_eq, ← hiff]
    exact ⟨fun he => by rw [he], fun he => Outcome.ok.inj he⟩
  have hfilter : SetState.onBloom (KeyValueCountingBloomFilter.contains k) s = _ :=
    Prog.zoom_of_eq (bloomContains_ok hd h.bf k)
  have htrie : SetState.onTrie (KeyValueTrie.contains k) s = _ := Prog.zoom_of_eq htype
  unfold SetState.find
  rw [Prog.bind_of_ok hfilter]
  by_cases hin : ∀ p ∈ q.positions k, bitTest s.bf.bitArray p = true
  · rw [decide_eq_true hin]
    simp only [if_true]
    rw [Prog.bind_of_ok htrie, ← hleaf]
    rfl
  · -- a key of the set has all its bits
    have hS : k ∉ S := fun hkS => hin fun p hp => h.bf.covers.bit_of_mem hkS hp
    rw [decide_eq_false hin]
    simp [hS]

/-- **One operation.** -/
theorem setExec_rep (hd : 16 ≤ d) (hw : 8 * d < 256) (hq : q.Fits)
    (hs : Separated hash.pair (Hashes E) K) (hfuel : 255 < fuel) (op : SetOp (Digest d))
    (hk : ∀ k ∈ addedKeys [op], K k) (ht : s.takes op = true) (h : SetRep hash E K q s S) :
    Prog.Returns E (op.execSet hash fresh fuel) s fun r s' => r = (op.within q.full S).1 ∧
      SetRep hash E K q s' (op.within q.full S).2 := by
  cases op with
  | add k =>
    apply Prog.Returns.bind (insert_rep fresh hd hw hq hs hfuel (hk k List.mem_cons_self) ht h)
    rintro b s' ⟨hb, h'⟩
    exact Prog.Returns.pure ⟨hb, h'⟩
  | remove k =>
    apply Prog.Returns.bind (erase_rep hd hq hs hfuel k h)
    rintro b s' ⟨rfl, h'⟩
    exact Prog.Returns.pure ⟨rfl, h'⟩
  | clear =>
    apply Prog.Returns.bind (clear_rep h)
    intro _ s' h'
    exact Prog.Returns.pure ⟨rfl, h'⟩

/-- **A run.** -/
theorem runSet_rep (hd : 16 ≤ d) (hw : 8 * d < 256) (hq : q.Fits)
    (hs : Separated hash.pair (Hashes E) K) (hfuel : 255 < fuel) (ops : List (SetOp (Digest d)))
    (hk : ∀ k ∈ addedKeys ops, K k) (ht : takesThroughout hash fresh fuel s ops = true)
    (h : SetRep hash E K q s S) :
    Prog.Returns E (runSet hash fresh fuel ops) s fun rs s' => rs = (boundedRun q.full S ops).1 ∧
      SetRep hash E K q s' (boundedRun q.full S ops).2 :=
  Prog.Returns.each (I := fun S s => SetRep hash E K q s S) (fun op hop _ _ h ht =>
    setExec_rep fresh hd hw hq hs hfuel op (fun k hmem => hk k (mem_addedKeys hop hmem)) ht h) h ht

/-- A new set. -/
theorem create_rep (q : FilterParams) : SetRep hash E K q
    (SetState.create d q.filterSize q.functionCount q.hardMaximum q.maxElements) ∅ :=
  ⟨⟨none, represents_empty hash E K⟩, bloomInit q, rfl, rfl, rfl, rfl⟩

end Step

/-! ## Runs from a new set -/

section NewSet

variable (hash : CryptoHash d) (fresh : Digest d) {fuel : Nat}

theorem runSet_create (hd : d = 16 ∨ d = 20 ∨ d = 28) (hfuel : 255 < fuel) (q : FilterParams)
    (hq : q.Fits) (ops : List (SetOp (Digest d)))
    (hc : CollisionFree hash (runSet hash fresh fuel ops (SetState.create d q.filterSize
      q.functionCount q.hardMaximum q.maxElements)).events)
    (hk : KeysFresh hash (addedKeys ops) (runSet hash fresh fuel ops (SetState.create d q.filterSize
      q.functionCount q.hardMaximum q.maxElements)).events)
    (ht : takesThroughout hash fresh fuel (SetState.create d q.filterSize q.functionCount
      q.hardMaximum q.maxElements) ops = true) :
    let r := runSet hash fresh fuel ops (SetState.create d q.filterSize q.functionCount q.hardMaximum
      q.maxElements)
    r.outcome = .ok (boundedRun q.full ∅ ops).1 ∧
      r.state.trie.size = (boundedRun q.full ∅ ops).2.card ∧
      ∀ k, (SetState.find k r.state).outcome = .ok (decide (k ∈ (boundedRun q.full ∅ ops).2)) := by
  obtain ⟨hd4, hw⟩ := narrow_digest hd
  have hd16 : 16 ≤ d := by omega
  have hs := separated_of_collisionFree hc hk
  obtain ⟨rs, ho, rfl, hrep⟩ := runSet_rep fresh hd16 hw hq hs hfuel ops (fun k hmem => hmem) ht
    (create_rep q) fun x hx => hx
  exact ⟨ho, hrep.size_eq, find_rep hd16 hs hrep⟩

/-- **The set refines a finite set**, while the filter takes every new key. -/
theorem set_refines_finite_set (hd : d = 16 ∨ d = 20 ∨ d = 28) (hfuel : 255 < fuel)
    (filterSize functionCount maxElements : Nat) (hpos : 1 ≤ filterSize)
    (hfits : (filterSize + 7) / 8 < 2 ^ 32) (ops : List (SetOp (Digest d)))
    (hc : CollisionFree hash (runSet hash fresh fuel ops
      (SetState.create d filterSize functionCount false maxElements)).events)
    (hk : KeysFresh hash (addedKeys ops) (runSet hash fresh fuel ops
      (SetState.create d filterSize functionCount false maxElements)).events)
    (ht : takesThroughout hash fresh fuel
      (SetState.create d filterSize functionCount false maxElements) ops = true) :
    (runSet hash fresh fuel ops (SetState.create d filterSize functionCount false maxElements)).outcome
        = .ok (setRun ∅ ops).1 ∧
      ∀ k, (SetState.find k (runSet hash fresh fuel ops
          (SetState.create d filterSize functionCount false maxElements)).state).outcome
        = .ok (decide (k ∈ (setRun ∅ ops).2)) := by
  obtain ⟨ho, _, hfind⟩ := runSet_create hash fresh hd hfuel
    ⟨filterSize, functionCount, false, maxElements⟩ ⟨hpos, hfits⟩ ops hc hk ht
  have hfull : (FilterParams.full ⟨filterSize, functionCount, false, maxElements⟩ :
      Finset (Digest d) → Bool) = fun _ => false := rfl
  rw [hfull, boundedRun_false] at ho hfind
  exact ⟨ho, hfind⟩

theorem set_refines_finite_set_sample :
    (runSet (mixHash 16) (byteKey 16 0) 256 (sampleOps 16) (SetState.create 16 8 1 false 4)).outcome
      = .ok (setRun ∅ (sampleOps 16)).1 :=
  (set_refines_finite_set (mixHash 16) (byteKey 16 0) (Or.inl rfl) (by decide) 8 1 4 (by decide)
    (by decide) (sampleOps 16) (by decide +kernel) (by decide +kernel) (by decide +kernel)).1

/-- Two functions that meet at one bit: the second finds the key that the first has appended. -/
theorem coinciding_positions_not_found :
    CollisionFree (mixHash 16) (runSet (mixHash 16) (byteKey 16 0) 256 [.add (byteKey 16 1)]
        (SetState.create 16 1 2 false 4)).events ∧
      KeysFresh (mixHash 16) (addedKeys [.add (byteKey 16 1)]) (runSet (mixHash 16) (byteKey 16 0) 256
        [.add (byteKey 16 1)] (SetState.create 16 1 2 false 4)).events ∧
      ¬∀ k, (SetState.find k (runSet (mixHash 16) (byteKey 16 0) 256 [.add (byteKey 16 1)]
          (SetState.create 16 1 2 false 4)).state).outcome
        = .ok (decide (k ∈ (setRun ∅ [.add (byteKey 16 1)]).2)) := by
  refine ⟨by decide +kernel, by decide +kernel, fun h => ?_⟩
  exact absurd (h (byteKey 16 1)) (by decide +kernel)

/-- **A hard maximum**, while the filter takes every new key: room is all that an insertion needs. -/
theorem hard_maximum_accepts (hd : d = 16 ∨ d = 20 ∨ d = 28) (hfuel : 255 < fuel)
    (filterSize functionCount M : Nat) (hpos : 1 ≤ filterSize)
    (hfits : (filterSize + 7) / 8 < 2 ^ 32) (ops : List (SetOp (Digest d)))
    (hc : CollisionFree hash (runSet hash fresh fuel ops
      (SetState.create d filterSize functionCount true M)).events)
    (hk : KeysFresh hash (addedKeys ops) (runSet hash fresh fuel ops
      (SetState.create d filterSize functionCount true M)).events)
    (ht : takesThroughout hash fresh fuel (SetState.create d filterSize functionCount true M) ops
      = true) :
    (runSet hash fresh fuel ops (SetState.create d filterSize functionCount true M)).outcome
        = .ok (boundedRun (fun S => decide (M ≤ S.card)) ∅ ops).1 ∧
      (SetState.getSize (runSet hash fresh fuel ops
          (SetState.create d filterSize functionCount true M)).state).outcome
        = .ok (boundedRun (fun S => decide (M ≤ S.card)) ∅ ops).2.card ∧
      (runSet hash fresh fuel ops (SetState.create d filterSize functionCount true M)).state.trie.size
        ≤ M ∧
      ∀ k ∈ (boundedRun (fun S => decide (M ≤ S.card)) ∅ ops).2,
        (SetState.find k (runSet hash fresh fuel ops
          (SetState.create d filterSize functionCount true M)).state).outcome = .ok true := by
  obtain ⟨ho, hsize, hfind⟩ := runSet_create hash fresh hd hfuel
    ⟨filterSize, functionCount, true, M⟩ ⟨hpos, hfits⟩ ops hc hk ht
  have hfull : (FilterParams.full ⟨filterSize, functionCount, true, M⟩ : Finset (Digest d) → Bool)
      = fun S => decide (M ≤ S.card) := by
    funext S
    simp [FilterParams.full]
  rw [hfull] at ho hsize hfind
  refine ⟨ho, congrArg Outcome.ok hsize, ?_, fun k hmem => ?_⟩
  · rw [hsize]
    exact card_boundedRun_le M ops
  · rw [hfind k, decide_eq_true hmem]

theorem hard_maximum_accepts_sample :
    (runSet (mixHash 16) (byteKey 16 0) 256 (sampleOps 16) (SetState.create 16 8 1 true 3)).outcome
      = .ok (boundedRun (fun S => decide (3 ≤ S.card)) ∅ (sampleOps 16)).1 :=
  (hard_maximum_accepts (mixHash 16) (byteKey 16 0) (Or.inl rfl) (by decide) 8 1 3 (by decide)
    (by decide) (sampleOps 16) (by decide +kernel) (by decide +kernel) (by decide +kernel)).1

/-- A key leaves, another one comes: the filter still counts both. -/
def replaceOps (d : Nat) : List (SetOp (Digest d)) :=
  [.add (byteKey d 1), .remove (byteKey d 1), .add (byteKey d 2)]

theorem room_but_filter_throws :
    CollisionFree (mixHash 16) (runSet (mixHash 16) (byteKey 16 0) 256 (replaceOps 16)
        (SetState.create 16 8 1 true 1)).events ∧
      KeysFresh (mixHash 16) (addedKeys (replaceOps 16)) (runSet (mixHash 16) (byteKey 16 0) 256
        (replaceOps 16) (SetState.create 16 8 1 true 1)).events ∧
      (∀ k ∈ addedKeys (replaceOps 16), (positions 8 1 k).Nodup) ∧
      (runSet (mixHash 16) (byteKey 16 0) 256 (replaceOps 16) (SetState.create 16 8 1 true 1)).outcome
        ≠ .ok (boundedRun (fun S => decide (1 ≤ S.card)) ∅ (replaceOps 16)).1 :=
  ⟨by decide +kernel, by decide +kernel, by decide +kernel, by decide +kernel⟩

end NewSet

end SetSync
