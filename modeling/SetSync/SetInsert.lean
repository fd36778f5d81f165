import SetSync.SetRuns

/-!
# Insertion whatever the filter does

`Set::insert` adds to the trie first and to the filter then, and the filter may raise an exception.
On a filter in any state the addition ends, so an application that catches the exception goes on with
the key in the trie.

    addition to any filter ends                                                (bloomAdd_ends)
    the trie has the key, or the set has refused it              (insert_leaves, insert_represents)
-/

namespace SetSync

open Program BitTrie

variable {d : Nat}

/-! ## Any filter -/

section AnyFilter

open KeyValueCountingBloomFilter

theorem hash_ends {σ : Type} (key : Digest d) (i : Nat) :
    Prog.Ends (DoubleHashingScheme.hash key i : Prog σ (Digest d × Digest d) Exn Nat) := by
  unfold DoubleHashingScheme.hash
  split
  · exact Prog.Ends.throw _
  · exact Prog.Ends.pure _

theorem addBits_ends (key : Digest d) (is : List Nat) : Prog.Ends (FSBloomFilter.addBits key is) := by
  induction is with
  | nil => exact Prog.Ends.pure _
  | cons i is ih => exact (hash_ends key i).bind fun n => (Prog.Ends.modify _).bind fun _ => ih

theorem fsAdd_ends (key : Digest d) : Prog.Ends (FSBloomFilter.add key) := by
  refine Prog.Ends.get.bind fun f => ?_
  split
  · exact Prog.Ends.throw _
  · exact (addBits_ends key _).bind fun _ => Prog.Ends.modify _

theorem containsBits_ends (key : Digest d) (is : List Nat) :
    Prog.Ends (FSBloomFilter.containsBits key is) := by
  induction is with
  | nil => exact Prog.Ends.pure _
  | cons i is ih =>
    refine (hash_ends key i).bind fun n => Prog.Ends.get.bind fun f => ?_
    simp only
    split
    · exact Prog.Ends.pure _
    · exact ih

/-- An operation on the storage of the filter. -/
theorem onFilterStorage_ends {α : Type} (f : Table → α × Table) :
    Prog.Ends (KeyValueCountingBloomFilter.onStorage (Storage.operation f) : BloomM d α) :=
  Prog.Ends.zoom (Storage.operation_ends f)

theorem addLoop_ends (key : Digest d) (is : List Nat) : Prog.Ends (addLoop key is) := by
  induction is with
  | nil => exact Prog.Ends.zoom (fsAdd_ends key)
  | cons i is ih =>
    refine (hash_ends key i).bind fun n => Prog.Ends.get.bind fun f =>
      (onFilterStorage_ends _).bind fun found => ?_
    cases found with
    | none => exact (onFilterStorage_ends _).bind fun _ => ih
    | some result =>
      simp only
      split
      · exact Prog.Ends.pure _
      · exact (onFilterStorage_ends _).bind fun _ => ih

/-- Adding to any filter ends. -/
theorem bloomAdd_ends (key : Digest d) : Prog.Ends (KeyValueCountingBloomFilter.add key) :=
  Prog.Ends.get.bind fun _ => addLoop_ends key _

theorem removeAt_ends (key : Digest d) (func : Nat) : Prog.Ends (removeAt key func) := by
  refine (hash_ends key func).bind fun n => Prog.Ends.get.bind fun f =>
    (onFilterStorage_ends _).bind fun found => ?_
  cases found with
  | none => exact Prog.Ends.pure _
  | some result =>
    simp only
    split
    · exact (onFilterStorage_ends _).bind fun _ => Prog.Ends.pure _
    · exact (onFilterStorage_ends _).bind fun _ =>
        (Prog.Ends.zoom (Prog.Ends.modify _)).bind fun _ => Prog.Ends.pure _

theorem removeLoop_ends (key : Digest d) (funcs : List Nat) (result : Bool) :
    Prog.Ends (removeLoop key funcs result) := by
  induction funcs generalizing result with
  | nil => exact Prog.Ends.pure _
  | cons func funcs ih => exact (removeAt_ends key func).bind fun _ => ih _

theorem bloomContains_ends (key : Digest d) : Prog.Ends (KeyValueCountingBloomFilter.contains key) :=
  Prog.Ends.zoom (Prog.Ends.get.bind fun _ => containsBits_ends key _)

/-- Removing from any filter ends. -/
theorem bloomRemove_ends (key : Digest d) : Prog.Ends (KeyValueCountingBloomFilter.remove key) := by
  refine (bloomContains_ends key).bind fun present => ?_
  split
  · exact Prog.Ends.pure _
  · exact Prog.Ends.get.bind fun _ => removeLoop_ends key _ _

theorem bloomClear_ends : Prog.Ends (KeyValueCountingBloomFilter.clear : BloomM d Unit) :=
  (onFilterStorage_ends _).bind fun _ => Prog.Ends.zoom (Prog.Ends.modify _)

theorem bloomDestruct_ends : Prog.Ends (KeyValueCountingBloomFilter.destruct : BloomM d Unit) := by
  refine Prog.Ends.get.bind fun f => ?_
  split
  · exact onFilterStorage_ends _
  · exact Prog.Ends.pure _

theorem loadKey_ends (key : Bytes) : Prog.Ends (loadKey key : BloomM d Unit) := by
  unfold loadKey
  split
  · exact Prog.Ends.zoom (Prog.Ends.modify _)
  · split
    · refine (onFilterStorage_ends _).bind fun found => ?_
      cases found with
      | none => exact Prog.Ends.pure _
      | some value =>
        simp only
        split
        · exact Prog.Ends.zoom (Prog.Ends.modify _)
        · exact Prog.Ends.pure _
    · exact Prog.Ends.pure _

theorem bloomConstruct_ends : Prog.Ends (KeyValueCountingBloomFilter.construct : BloomM d Unit) := by
  refine (Prog.Ends.modify _).bind fun _ => Prog.Ends.get.bind fun f => ?_
  induction f.storage.table.iterator with
  | nil => exact Prog.Ends.pure _
  | cons key keys ih => exact (loadKey_ends key).bind fun _ => ih

end AnyFilter

/-! ## Insertion -/

section Programs

variable (hash : CryptoHash d) (fresh : Digest d) (fuel : Nat)

/-- An insertion whose exception is caught. -/
def insertCaught (k : Digest d) : SetM d Bool :=
  tryCatch (SetState.insert hash fresh fuel k) fun _ => pure false

/-- Insert the keys one after the other; an exception is caught. -/
def insertAll (keys : List (Digest d)) : SetM d (List Bool) := Prog.each (insertCaught hash fresh fuel) keys

/-- No insertion of the keys finds the set at its hard maximum. -/
def noneRefused (s : SetState d) (keys : List (Digest d)) : Bool :=
  Prog.Throughout (insertCaught hash fresh fuel) (fun _ s => !s.full) s keys

end Programs

section Insertion

variable {hash : CryptoHash d} (fresh : Digest d) {fuel : Nat} {E : Digest d × Digest d → Prop}
  {K : Digest d → Prop} {s : SetState d} {S : Finset (Digest d)} {t : Option (Trie (Digest d))}

/-- What an insertion leaves, whether it returns or the filter raises an exception. -/
theorem insert_leaves (hd : d ≠ 4) (hw : 8 * d < 256) (hs : Separated hash.pair (Hashes E) K)
    (hfuel : 255 < fuel) {k : Digest d} (hk : K k) (h : Represents hash E K s.trie S t) :
    Prog.Leaves E (SetState.insert hash fresh fuel k) s fun s' =>
      ∃ S' t', Represents hash E K s'.trie S' t' ∧
        (S' = S ∨ S' = insert k S) ∧ (s.full = false → S' = insert k S) := by
  have hsize : SetState.getSize s = ⟨.ok s.trie.size, s, []⟩ := rfl
  refine Prog.Leaves.bind_of_eq (Prog.get_apply s) (Prog.Leaves.bind_of_eq hsize ?_)
  by_cases hfull : (s.hardMaximum && decide (s.maxSize ≤ s.trie.size)) = true
  · rw [if_pos hfull]
    exact Prog.Leaves.pure ⟨S, t, h, Or.inl rfl, fun hno => absurd (hfull.symm.trans hno) (by decide)⟩
  · rw [if_neg hfull]
    apply Prog.Leaves.bind_of_returns (Prog.Returns.zoom (add_represents fresh hd hw hs hfuel hk h))
    rintro added s₁ ⟨trie, ⟨-, t', ht'⟩, rfl⟩
    have hdone : ∃ S' t', Represents hash E K trie S' t' ∧
        (S' = S ∨ S' = insert k S) ∧ (s.full = false → S' = insert k S) :=
      ⟨insert k S, t', ht', Or.inr rfl, fun _ => rfl⟩
    cases added with
    | false => exact Prog.Leaves.pure hdone
    | true =>
      refine Prog.Leaves.bind (R := fun s' => s'.trie = trie)
        (Prog.Leaves.zoom (bloomAdd_ends k).leaves fun _ _ => rfl) ?_ ?_
      · rintro s' rfl
        exact hdone
      · rintro _ s' rfl
        exact Prog.Leaves.pure hdone

/-- **An insertion, whatever the filter does.**  An exception of the filter comes after the key is in
the trie; a set at its maximum refuses the key. -/
theorem insert_represents (hd : d ≠ 4) (hw : 8 * d < 256) (hs : Separated hash.pair (Hashes E) K)
    (hfuel : 255 < fuel) {k : Digest d} (hk : K k) (h : Represents hash E K s.trie S t) :
    Prog.Returns E (insertCaught hash fresh fuel k) s fun _ s' =>
      ∃ S' t', Represents hash E K s'.trie S' t' ∧
        (S' = S ∨ S' = insert k S) ∧ (s.full = false → S' = insert k S) :=
  Prog.Leaves.catch false (insert_leaves fresh hd hw hs hfuel hk h)

/-- A set that refuses none of the keys takes all of them. -/
theorem insertAll_represents (hd : d ≠ 4) (hw : 8 * d < 256) (hs : Separated hash.pair (Hashes E) K)
    (hfuel : 255 < fuel) {keys : List (Digest d)} (hk : ∀ k ∈ keys, K k)
    (hroom : noneRefused hash fresh fuel s keys = true) (h : Represents hash E K s.trie S t) :
    Prog.Returns E (insertAll hash fresh fuel keys) s fun _ s' =>
      ∃ t', Represents hash E K s'.trie (S ∪ keys.toFinset) t' := by
  induction keys generalizing s S t with
  | nil =>
    rw [List.toFinset_nil, Finset.union_empty]
    exact Prog.Returns.pure ⟨t, h⟩
  | cons k keys ih =>
    rw [noneRefused, Prog.Throughout, Bool.and_eq_true, Bool.not_eq_true'] at hroom
    have hone := insert_represents fresh hd hw hs hfuel (hk k List.mem_cons_self) h
    apply Prog.Returns.bind hone.with_state
    rintro b s₁ ⟨rfl, S₁, t₁, h₁, -, hS₁⟩
    obtain rfl := hS₁ hroom.1
    refine Prog.Returns.bind (ih (fun k' hk' => hk k' (List.mem_cons_of_mem k hk')) hroom.2 h₁) ?_
    rintro bs s₂ ⟨t₂, h₂⟩
    refine Prog.Returns.pure ⟨t₂, ?_⟩
    rw [List.toFinset_cons, Finset.union_insert, ← Finset.insert_union]
    exact h₂

end Insertion

end SetSync
