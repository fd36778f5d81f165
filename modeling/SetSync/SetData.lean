import SetSync.SetRuns

/-!
# Data behind the keys

`Set::insert(data, length)` puts the data into the index and its digest into the set; `Set::get` is to
give it back.  Its last line returns false also when it has found the data, so a set reads back right just
when there is nothing to read (`reads_back_iff`).
-/

namespace SetSync

open Program

variable {d : Nat}

inductive DataOp (d : Nat) where
  | insertData (data : Bytes)
  | insert (key : Digest d)
  | erase (key : Digest d)
  | clear
  | reopen

namespace DataOp

variable (hash : CryptoHash d) (fresh : Digest d) (fuel : Nat)

def exec : DataOp d → SetM d (Option Bool)
  | insertData data => do
    let b ← SetState.insertData hash fresh fuel data
    pure (some b)
  | insert key => do
    let b ← SetState.insert hash fresh fuel key
    pure (some b)
  | erase key => do
    let b ← SetState.erase hash fuel key
    pure (some b)
  | clear => do
    SetState.clear
    pure none
  | reopen => do
    SetState.reopen
    pure none

/-- The data that is stored after the call: an insertion counts when it has returned true. -/
def stored (D : Digest d → Option Bytes) : DataOp d → Outcome Exn (Option Bool) → Digest d → Option Bytes
  | insertData data, .ok (some true) => Function.update D (hash.digest data) (some data)
  | erase key, _ => Function.update D key none
  | clear, _ => fun _ => none
  | _, _ => D

/-- One call, beside the data that is stored. -/
def after (p : SetState d × (Digest d → Option Bytes)) (op : DataOp d) :
    SetState d × (Digest d → Option Bytes) :=
  ((op.exec hash fresh fuel p.1).state, op.stored hash p.2 (op.exec hash fresh fuel p.1).outcome)

/-- The calls one after the other, on a new set. -/
def run (filterSize functionCount maxElements : Nat) (ops : List (DataOp d)) :
    SetState d × (Digest d → Option Bytes) :=
  ops.foldl (after hash fresh fuel)
    (SetState.create d filterSize functionCount false maxElements, fun _ => none)

end DataOp

/-- `get` gives the stored data, and nothing where there is none. -/
def ReadsBack (s : SetState d) (D : Digest d → Option Bytes) : Prop := ∀ key,
  (SetState.get key s).outcome = match D key with
    | some data => .ok (true, some data, data.length)
    | none => .ok (false, none, 0)

section Reading

variable (hd : 16 ≤ d) (s : SetState d) (key : Digest d)

/-- `contains` answers on every storage. -/
theorem contains_returns (t : TrieState d) :
    Prog.Returns (fun _ => True) (KeyValueTrie.contains key) t fun _ _ => True :=
  Prog.Leaves.catch TrieNodeType.NOT_FOUND
    ((TrieNode.load_ends key).bind fun _ => Prog.Ends.pure _).leaves

include hd

/-- `find` always answers. -/
theorem find_returns : Prog.Returns (fun _ => True) (SetState.find key) s fun _ s' =>
    s'.indexInUse = s.indexInUse := by
  have hfilter : SetState.onBloom (KeyValueCountingBloomFilter.contains key) s
      = ⟨.ok (decide (∀ p ∈ positions s.bf.filterSize s.bf.functionCount key,
          bitTest s.bf.bitArray p = true)), s, []⟩ := by
    apply Prog.zoom_of_eq
    unfold KeyValueCountingBloomFilter.contains
    rw [KeyValueCountingBloomFilter.onFilter,
      Prog.zoom_of_eq (fsContains_ok hd key)]
  apply Prog.Returns.bind_of_eq hfilter
  split
  · apply Prog.Returns.bind (Prog.Returns.zoom (contains_returns key s.trie))
    rintro type _ ⟨t', -, rfl⟩
    exact Prog.Returns.pure rfl
  · exact Prog.Returns.pure rfl

/-- **What `get` answers**: false in any case, and a block when the key is found and the index in use. -/
theorem get_answers :
    ((SetState.find key s).outcome = .ok true ∧ s.indexInUse = true ∧
      ∀ r, (SetState.get key s).outcome = .ok r → ∃ value size, r = (false, some value, size)) ∨
    (¬((SetState.find key s).outcome = .ok true ∧ s.indexInUse = true) ∧
      (SetState.get key s).outcome = .ok (false, none, 0)) := by
  obtain ⟨found, hfound, huse⟩ := find_returns hd s key fun _ _ => trivial
  rcases hrun : SetState.find key s with ⟨o, s₁, l⟩
  rw [hrun] at hfound huse
  obtain rfl : o = .ok found := hfound
  have hstart : (SetState.get key s).outcome = ((if found = true then do
      let s ← Prog.get
      if s.indexInUse then do
        let valueSize ← SetState.onIndex (KeyValueIndex.getSizeOf key.bytes)
        let read ← SetState.onIndex
          (KeyValueIndex.get key.bytes (SetState.malloc valueSize) valueSize)
        pure (false, some read.2.1, read.2.2)
      else pure (false, none, 0)
    else pure (false, none, 0) : SetM d (Bool × Option Bytes × Nat)) s₁).outcome := by
    unfold SetState.get
    rw [Prog.bind_of_ok hrun]
    rfl
  rw [hstart]
  cases found with
  | false =>
    refine Or.inr ⟨?_, rfl⟩
    rintro ⟨h, -⟩
    cases h
  | true =>
    rw [if_pos rfl, Prog.bind_of_ok (Prog.get_apply s₁), Run.after_nil]
    cases hin : s.indexInUse with
    | false =>
      rw [if_neg (by rw [huse, hin]; decide)]
      refine Or.inr ⟨?_, rfl⟩
      rintro ⟨-, h⟩
      cases h
    | true =>
      rw [if_pos (huse.trans hin)]
      refine Or.inl ⟨rfl, rfl, fun r hr => ?_⟩
      obtain ⟨size, s₂, _, _, -, h, -⟩ := Prog.bind_eq_ok (Run.ext hr rfl rfl)
      obtain ⟨⟨_, value, size'⟩, s₃, _, _, -, hpure, -⟩ := Prog.bind_eq_ok h
      exact ⟨value, size', (Outcome.ok.inj (congrArg Run.outcome hpure)).symm⟩

end Reading

/-- **Reading back works exactly when no data is stored**, and no key is found while the index is in
use. -/
theorem reads_back_iff (hash : CryptoHash d) (fresh : Digest d) (fuel : Nat) (hd : 16 ≤ d)
    (filterSize functionCount maxElements : Nat) (ops : List (DataOp d)) :
    let p := DataOp.run hash fresh fuel filterSize functionCount maxElements ops
    ReadsBack p.1 p.2 ↔ (∀ key, p.2 key = none) ∧
      ∀ key, ¬((SetState.find key p.1).outcome = .ok true ∧ p.1.indexInUse = true) := by
  intro p
  constructor
  · intro h
    have hnone : ∀ key, p.2 key = none := by
      intro key
      cases hdata : p.2 key with
      | none => rfl
      | some data =>
        have hget := h key
        rw [hdata] at hget
        rcases get_answers hd p.1 key with ⟨-, -, hfalse⟩ | ⟨-, hfalse⟩
        · obtain ⟨value, size, heq⟩ := hfalse _ hget
          cases heq
        · rw [hfalse] at hget
          cases hget
    refine ⟨hnone, fun key hfound => ?_⟩
    have hget := h key
    rw [hnone key] at hget
    rcases get_answers hd p.1 key with ⟨-, -, hblock⟩ | ⟨hnot, -⟩
    · obtain ⟨value, size, heq⟩ := hblock _ hget
      cases heq
    · exact hnot hfound
  · rintro ⟨hnone, hnot⟩ key
    rw [hnone key]
    rcases get_answers hd p.1 key with ⟨hfound, hin, -⟩ | ⟨-, hget⟩
    · exact absurd ⟨hfound, hin⟩ (hnot key)
    · exact hget

/-- Data that was stored, until the set is cleared. -/
theorem reads_back_sample :
    let p := DataOp.run (mixHash 16) (byteKey 16 0) 256 8 1 4 [.insertData [1, 2, 3], .clear]
    ReadsBack p.1 p.2 :=
  (reads_back_iff (mixHash 16) (byteKey 16 0) 256 (by decide) 8 1 4 _).mpr
    ⟨fun _ => rfl, fun _ h => absurd h.2 (by decide +kernel)⟩

/-- The data is there, its size and its bytes are right, and the answer is false. -/
theorem get_never_true :
    (DataOp.exec (mixHash 16) (byteKey 16 0) 256 (.insertData [1, 2, 3])
        (SetState.create 16 8 1 false 4)).outcome = .ok (some true) ∧
      (SetState.get ((mixHash 16).digest [1, 2, 3]) (DataOp.run (mixHash 16) (byteKey 16 0) 256 8 1 4
        [.insertData [1, 2, 3]]).1).outcome = .ok (false, some [1, 2, 3], 3) ∧
      ¬ReadsBack (DataOp.run (mixHash 16) (byteKey 16 0) 256 8 1 4 [.insertData [1, 2, 3]]).1
        (DataOp.run (mixHash 16) (byteKey 16 0) 256 8 1 4 [.insertData [1, 2, 3]]).2 := by
  refine ⟨by decide +kernel, by decide +kernel, fun h => ?_⟩
  exact absurd (h ((mixHash 16).digest [1, 2, 3])) (by decide +kernel)

end SetSync
