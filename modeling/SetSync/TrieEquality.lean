import SetSync.TrieRefinement

/-!
# The root hash is a function of the set

Two runs with the same digest function, on two storages.  An up-to-date trie over `S` has the label
`MerkleRoot S`, whatever its history; the other way round its label fixes its keys.

    getRoot returns MerkleRoot S                                     (Represents.getRoot_ok)
    == compares mask, flags and hash of the two roots                (operatorEq_of_stores)
    the same set ↔ the same root                                     (root_history_independent)
-/

namespace SetSync

open Program BitTrie

variable {d : Nat}

/-! ## Reading the root -/

section Root

variable {s : TrieState d} {t : Trie (Digest d)}

/-- A node object that was loaded as the root of `t`. -/
abbrev ShowsRoot (n : TrieNode d) (t : Trie (Digest d)) : Prop :=
  Shows n t.label (t.entry (leafMask d) none)

theorem rootGet_stores (h : Stores s (some t)) :
    ∃ n, KeyValueRootNode.get s = ⟨.ok n, s, []⟩ ∧ ShowsRoot n t :=
  rootGet_ok h (content_label none t)

theorem hasRoot_some (h : Stores s (some t)) : KeyValueTrie.hasRoot s = ⟨.ok true, s, []⟩ := by
  obtain ⟨n, hn, _⟩ := rootGet_stores h
  refine Prog.tryCatch_of_ok ?_ _
  rw [Prog.bind_of_ok hn]
  rfl

theorem hasRoot_none (h : Stores s none) : KeyValueTrie.hasRoot s = ⟨.ok false, s, []⟩ := by
  have hget : ((do let _ ← KeyValueRootNode.get; pure true) : TrieM d Bool) s
      = ⟨.error .trieRootNotFound, s, []⟩ := Prog.bind_of_error (rootGet_error h) _
  exact Prog.tryCatch_of_error hget _

theorem getRoot_some (h : Stores s (some t)) :
    KeyValueTrie.getRoot s = ⟨.ok (some t.label), s, []⟩ := by
  obtain ⟨n, hn, hs⟩ := rootGet_stores h
  have hsize : s.size ≠ 0 := by
    have hk := t.keys_ne_nil
    have hsz : s.size = t.keys.length := Holds.size h
    rw [hsz]
    exact fun h0 => hk (List.length_eq_zero_iff.mp h0)
  have hget : KeyValueTrie.getSize s = ⟨.ok s.size, s, []⟩ := rfl
  unfold KeyValueTrie.getRoot
  rw [Prog.bind_of_ok hget]
  simp only [hsize, if_false]
  have hroot : ((do let root ← KeyValueRootNode.get; pure (some root.hash)) : TrieM d _) s
      = ⟨.ok (some t.label), s, []⟩ := by
    rw [Prog.bind_of_ok hn, hs.hash]
    rfl
  exact congrArg (Run.after []) (Prog.tryCatch_of_ok hroot _)

end Root

/-! ## `operator==` -/

section OperatorEq

variable {s₁ s₂ : TrieState d} {t₁ t₂ : Trie (Digest d)}

/-- Two tries of which one is empty. -/
theorem operatorEq_of_none {o₁ o₂ : Option (Trie (Digest d))} (h₁ : Stores s₁ o₁)
    (h₂ : Stores s₂ o₂) (hnone : o₁ = none ∨ o₂ = none) :
    (KeyValueTrie.operatorEq (s₁, s₂)).outcome = .ok (decide (o₁ = none ∧ o₂ = none)) := by
  have has : ∀ {s : TrieState d} {o : Option (Trie (Digest d))}, Stores s o →
      KeyValueTrie.hasRoot s = ⟨.ok o.isSome, s, []⟩ := by
    intro s o h
    cases o with
    | none => exact hasRoot_none h
    | some t => exact hasRoot_some h
  unfold KeyValueTrie.operatorEq
  simp only
  rw [Prog.bind_of_ok (Prog.zoom_of_eq (has h₁)), Prog.bind_of_ok (Prog.zoom_of_eq (has h₂))]
  rcases hnone with rfl | rfl
  · cases o₂ <;> rfl
  · cases o₁ <;> rfl

theorem operatorEq_of_stores (h₁ : Stores s₁ (some t₁)) (h₂ : Stores s₂ (some t₂)) :
    ∃ n₁ n₂, (KeyValueTrie.operatorEq (s₁, s₂)).outcome = .ok (TrieNode.operatorEq n₁ n₂) ∧
      ShowsRoot n₁ t₁ ∧ ShowsRoot n₂ t₂ := by
  obtain ⟨n₁, hn₁, hs₁⟩ := rootGet_stores h₁
  obtain ⟨n₂, hn₂, hs₂⟩ := rootGet_stores h₂
  refine ⟨n₁, n₂, ?_, hs₁, hs₂⟩
  unfold KeyValueTrie.operatorEq
  simp only
  rw [Prog.bind_of_ok (Prog.zoom_of_eq (hasRoot_some h₁)),
    Prog.bind_of_ok (Prog.zoom_of_eq (hasRoot_some h₂))]
  simp only [Bool.not_true, Bool.false_eq_true, if_false]
  rw [Prog.bind_of_ok (Prog.zoom_of_eq hn₁), Prog.bind_of_ok (Prog.zoom_of_eq hn₂)]
  rfl

/-- Two copies of up-to-date root entries are compared by mask, kind and hash. -/
theorem operatorEq_roots {n₁ n₂ : TrieNode d} {x₁ x₂ : Digest d} {e₁ e₂ : Entry (Digest d)}
    (h₁ : Shows n₁ x₁ e₁) (h₂ : Shows n₂ x₂ e₂) (hp₁ : e₁.parent = none) (hp₂ : e₂.parent = none)
    (hc₁ : e₁.stale = false) (hc₂ : e₂.stale = false) :
    n₁.operatorEq n₂ = decide (e₁.len = e₂.len ∧ e₁.children.isSome = e₂.children.isSome ∧ x₁ = x₂) := by
  have hd₁ : n₁.dirty = false := by rw [← hc₁, ← h₁.view]; rfl
  have hd₂ : n₂.dirty = false := by rw [← hc₂, ← h₂.view]; rfl
  have hm : n₁.prefixMask = n₂.prefixMask ↔ e₁.len = e₂.len := by
    rw [← h₁.len, ← h₂.len]
    exact UInt8.toNat_inj.symm
  unfold TrieNode.operatorEq
  rw [hd₁, hd₂, h₁.hasParent, h₂.hasParent, hp₁, hp₂, h₁.hasChildren, h₂.hasChildren, h₁.hash, h₂.hash]
  by_cases hl : e₁.len = e₂.len
  · have := hm.mpr hl
    by_cases hch : e₁.children.isSome = e₂.children.isSome
    · by_cases hx : x₁ = x₂ <;> simp [*]
    · simp [*]
  · have : n₁.prefixMask ≠ n₂.prefixMask := fun he => hl (hm.mp he)
    simp [*]

end OperatorEq

/-! ## Up-to-date tries -/

section Represents

variable {hash : CryptoHash d} {E : Digest d × Digest d → Prop} {K : Digest d → Prop}
  {s₁ s₂ : TrieState d} {S₁ S₂ : Finset (Digest d)} {o₁ o₂ : Option (Trie (Digest d))}

theorem Represents.getRoot_ok (h : Represents hash E K s₁ S₁ o₁) (hne : S₁ ≠ ∅) :
    ∃ x, (KeyValueTrie.getRoot s₁).outcome = .ok (some x) ∧
      MerkleRoot Digest.bit hash.pair (S₁ : Set (Digest d)) x := by
  cases o₁ with
  | none => exact absurd (h.eq_empty_iff.mpr rfl) hne
  | some t =>
    refine ⟨t.label, by rw [getRoot_some h.stores], ?_⟩
    have hset : (S₁ : Set (Digest d)) = {k | k ∈ t.keys} := by
      ext k
      exact (h.keys k).symm
    rw [hset]
    exact (h.hashed t rfl).merkleRoot (h.ordered t rfl)

theorem Represents.getRoot_eq (h : Represents hash E K s₁ S₁ o₁) :
    KeyValueTrie.getRoot s₁ = ⟨.ok (o₁.map Trie.label), s₁, []⟩ := by
  cases o₁ with
  | some t => exact getRoot_some h.stores
  | none =>
    have hsize : KeyValueTrie.getSize s₁ = ⟨.ok 0, s₁, []⟩ := by
      rw [show (0 : Nat) = s₁.size from (Holds.size h.stores).symm]
      rfl
    unfold KeyValueTrie.getRoot
    rw [Prog.bind_of_ok hsize]
    rfl

/-- Two tries over the same set have the same root. -/
theorem Represents.getRoot_unique (h₁ : Represents hash E K s₁ S₁ o₁)
    (h₂ : Represents hash E K s₂ S₁ o₂) :
    (KeyValueTrie.getRoot s₁).outcome = (KeyValueTrie.getRoot s₂).outcome := by
  by_cases hne : S₁ = ∅
  · have ho₁ := h₁.eq_empty_iff.mp hne
    have ho₂ := h₂.eq_empty_iff.mp hne
    rw [h₁.getRoot_eq, h₂.getRoot_eq, ho₁, ho₂]
  · obtain ⟨x, hx, hmx⟩ := h₁.getRoot_ok hne
    obtain ⟨y, hy, hmy⟩ := h₂.getRoot_ok hne
    rw [hx, hy, hmx.unique hmy]

/-- An inner node has fewer common bits than a leaf. -/
theorem entry_children_isSome {t : Trie (Digest d)} (ho : Ordered Digest.bit (leafMask d) t)
    (par : Option (Digest d)) :
    (t.entry (leafMask d) par).children.isSome = decide (t.len (leafMask d) < leafMask d) := by
  cases t with
  | leaf k => simp [Trie.entry, Trie.len]
  | node lab p m st l r =>
    have hl := ho.2.2.2.2.1.len_le
    have hm : m < leafMask d := by
      have := ho.1
      omega
    simp [Trie.entry, Trie.len, hm]

theorem Represents.operatorEq_iff (hs : Separated hash.pair (Hashes E) K)
    (h₁ : Represents hash E K s₁ S₁ o₁) (h₂ : Represents hash E K s₂ S₂ o₂) :
    (KeyValueTrie.operatorEq (s₁, s₂)).outcome = .ok (decide (S₁ = S₂)) := by
  by_cases hnone : o₁ = none ∨ o₂ = none
  · rw [operatorEq_of_none h₁.stores h₂.stores hnone]
    rw [← h₁.eq_empty_iff, ← h₂.eq_empty_iff] at hnone
    congr 2
    rw [eq_iff_iff, ← h₁.eq_empty_iff, ← h₂.eq_empty_iff]
    constructor
    · rintro ⟨rfl, rfl⟩
      rfl
    · rintro rfl
      rcases hnone with rfl | rfl <;> exact ⟨rfl, rfl⟩
  · rw [not_or] at hnone
    obtain ⟨t₁, rfl⟩ := Option.ne_none_iff_exists'.mp hnone.1
    obtain ⟨t₂, rfl⟩ := Option.ne_none_iff_exists'.mp hnone.2
    have ho₁ := h₁.ordered t₁ rfl
    have ho₂ := h₂.ordered t₂ rfl
    have hh₁ := h₁.hashed t₁ rfl
    have hh₂ := h₂.hashed t₂ rfl
    have hclean : ∀ {t : Trie (Digest d)}, Hashed hash.pair (Hashes E) K t →
        (t.entry (leafMask d) none).stale = false := by
      intro t ht
      cases t with
      | leaf k => rfl
      | node lab p m st l r => exact ht.2.2.1
    obtain ⟨n₁, n₂, heq, hn₁, hn₂⟩ := operatorEq_of_stores h₁.stores h₂.stores
    rw [heq, operatorEq_roots hn₁ hn₂ (by cases t₁ <;> rfl) (by cases t₂ <;> rfl) (hclean hh₁)
      (hclean hh₂), entry_len_eq, entry_len_eq, entry_children_isSome ho₁, entry_children_isSome ho₂]
    congr 2
    rw [eq_iff_iff]
    constructor
    · rintro ⟨_, _, hlab⟩
      ext k
      rw [← h₁.keys, ← h₂.keys, keysOf, keysOf, hh₁.keys_eq hs hh₂ hlab]
    · rintro rfl
      have hkeys : ∀ k, k ∈ t₁.keys ↔ k ∈ t₂.keys := fun k => (h₁.keys k).trans (h₂.keys k).symm
      have hlen := ho₁.len_eq ho₂ hkeys
      have hset : {k | k ∈ t₁.keys} = {k | k ∈ t₂.keys} := Set.ext hkeys
      have hroot := hh₁.merkleRoot ho₁
      rw [hset] at hroot
      exact ⟨hlen, by rw [hlen], hroot.unique (hh₂.merkleRoot ho₂)⟩

end Represents

/-- **The root is independent of the history, and `==` decides set equality.** -/
theorem root_history_independent (hash : CryptoHash d) (fresh₁ fresh₂ : Digest d) {fuel : Nat}
    (hd : d = 16 ∨ d = 20 ∨ d = 28) (hfuel : 255 < fuel) (ops₁ ops₂ : List (SetOp (Digest d)))
    (hc : CollisionFree hash
      ((runTrie hash fresh₁ fuel ops₁).events ++ (runTrie hash fresh₂ fuel ops₂).events))
    (hk : KeysFresh hash (addedKeys ops₁ ++ addedKeys ops₂)
      ((runTrie hash fresh₁ fuel ops₁).events ++ (runTrie hash fresh₂ fuel ops₂).events)) :
    ((setRun ∅ ops₁).2 = (setRun ∅ ops₂).2 → (setRun ∅ ops₁).2 ≠ ∅ →
      ∃ x, MerkleRoot Digest.bit hash.pair ((setRun ∅ ops₁).2 : Set (Digest d)) x ∧
        (KeyValueTrie.getRoot (runTrie hash fresh₁ fuel ops₁).state).outcome = .ok (some x) ∧
        (KeyValueTrie.getRoot (runTrie hash fresh₂ fuel ops₂).state).outcome = .ok (some x)) ∧
      (KeyValueTrie.operatorEq
          ((runTrie hash fresh₁ fuel ops₁).state, (runTrie hash fresh₂ fuel ops₂).state)).outcome
        = .ok (decide ((setRun ∅ ops₁).2 = (setRun ∅ ops₂).2)) := by
  obtain ⟨_, t₁, h₁⟩ := runTrie_represents hash fresh₁ hd hfuel hc hk
    (List.subset_append_left _ _) (List.subset_append_left _ _)
  obtain ⟨_, t₂, h₂⟩ := runTrie_represents hash fresh₂ hd hfuel hc hk
    (List.subset_append_right _ _) (List.subset_append_right _ _)
  refine ⟨fun heq hne => ?_, h₁.operatorEq_iff (separated_of_collisionFree hc hk) h₂⟩
  obtain ⟨x, hx, hmx⟩ := h₁.getRoot_ok hne
  obtain ⟨y, hy, hmy⟩ := h₂.getRoot_ok (heq ▸ hne)
  rw [← heq] at hmy
  rw [← hmx.unique hmy] at hy
  exact ⟨x, hmx, hx, hy⟩

theorem root_history_independent_sample :
    (KeyValueTrie.operatorEq ((runTrie (mixHash 16) (byteKey 16 0) 256 (sampleOps 16)).state,
        (runTrie (mixHash 16) (byteKey 16 0) 256
          [.add (byteKey 16 7), .add (byteKey 16 2)]).state)).outcome
      = .ok (decide ((setRun ∅ (sampleOps 16)).2
          = (setRun ∅ [.add (byteKey 16 7), .add (byteKey 16 2)]).2)) :=
  (root_history_independent (mixHash 16) (byteKey 16 0) (byteKey 16 0) (Or.inl rfl) (by decide)
    (sampleOps 16) [.add (byteKey 16 7), .add (byteKey 16 2)] (by decide +kernel)
    (by decide +kernel)).2

end SetSync
