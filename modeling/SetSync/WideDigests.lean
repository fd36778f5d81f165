import SetSync.TrieRefinement

/-!
# Digests of more than 255 bits

`prefix_mask` is a `uint8_t`, and a leaf gets `8 * hashsize`.  From 32 bytes on the mask of a leaf is
`leafMask d = 8 * d % 256`: two keys that agree on that many bits are the same leaf for `similar`, but
not for `isLarger` and `isSmaller`, which take it for an inner node.  `insert` throws, `add` catches
everything and makes the key a new root.

    keys that differ within leafMask d bits      a run like that of a short digest (runAdds_represents)
    two keys that agree on them                  the second one replaces the trie       (add_replaces)
-/

namespace SetSync

open Program BitTrie

variable {d : Nat}

/-! ## The accepted digests -/

/-- The functions of `SET_CONFIG`. -/
inductive SetFunction where
  | SHA_1 | MD_2 | MD_4 | MD_5 | SHA_224 | SHA_256 | SHA_384 | SHA_512
deriving DecidableEq

/-- Bytes of its digest. -/
def SetFunction.size : SetFunction → Nat
  | SHA_1 => 20
  | MD_2 | MD_4 | MD_5 => 16
  | SHA_224 => 28
  | SHA_256 => 32
  | SHA_384 => 48
  | SHA_512 => 64

theorem SetFunction.size_ne (f : SetFunction) : f.size ≠ 4 := by
  cases f <;> decide

/-! ## What a run of additions should do -/

/-- After `add` of all `keys`: the answers are right, each key is a leaf below the root, and the size
counts them. -/
structure AddsRight (hash : CryptoHash d) (fresh : Digest d) (fuel : Nat) (keys : List (Digest d)) :
    Prop where
  answers : (runTrie hash fresh fuel (keys.map .add)).outcome = .ok (setRun ∅ (keys.map .add)).1
  reached : ∀ k ∈ keys, ∃ x, (runTrie hash fresh fuel (keys.map .add)).state.storage.table.lookup
      KeyValueRootNode.rootName = some x.bytes ∧
    LeafBelow (runTrie hash fresh fuel (keys.map .add)).state k x
  size : (runTrie hash fresh fuel (keys.map .add)).state.size = keys.toFinset.card

section Adds

variable {hash : CryptoHash d} (fresh : Digest d) {E : Digest d × Digest d → Prop}
  {K : Digest d → Prop} {s : TrieState d} {S : Finset (Digest d)} {t : Option (Trie (Digest d))}
  {fuel : Nat} {keys : List (Digest d)}

/-- The keys differ from each other and from those that are there. -/
theorem runAdds_represents (hd : d ≠ 4) (hs : Separated hash.pair (Hashes E) K) (hfuel : 255 < fuel)
    (hk : ∀ k ∈ keys, K k) (hp : keys.Pairwise fun a b => ¬Agree Digest.bit (leafMask d) a b)
    (hS : ∀ a ∈ S, ∀ k ∈ keys, ¬Agree Digest.bit (leafMask d) a k)
    (h : Represents hash E K s S t) :
    Prog.Returns E (runOps hash fresh fuel (keys.map .add)) s fun rs s' =>
      rs = (setRun S (keys.map .add)).1 ∧
        ∃ t', Represents hash E K s' (setRun S (keys.map .add)).2 t' := by
  induction keys generalizing s S t with
  | nil => exact Prog.Returns.pure ⟨rfl, t, h⟩
  | cons k keys ih =>
    obtain ⟨hfirst, hrest⟩ := List.pairwise_cons.mp hp
    have hkS : k ∉ S := fun hmem => hS k hmem k List.mem_cons_self (Agree.refl _ _)
    have hadd := add_represents_new fresh hd hs hfuel (hk k List.mem_cons_self)
      (fun a ha => hS a ha k List.mem_cons_self) h fun gs _ _ _ _ => ⟨id, granted_self hash gs _⟩
    refine Prog.Returns.bind (Prog.Returns.bind hadd fun b s' hq => Prog.Returns.pure
      (Q := fun r s' => r = some true ∧ ∃ t', Represents hash E K s' (insert k S) t') ?_) ?_
    · obtain ⟨rfl, h'⟩ := hq
      exact ⟨rfl, h'⟩
    rintro r s' ⟨rfl, t', h'⟩
    have hS' : ∀ a ∈ insert k S, ∀ b ∈ keys, ¬Agree Digest.bit (leafMask d) a b := by
      intro a ha b hb
      rcases Finset.mem_insert.mp ha with rfl | ha
      · exact hfirst b hb
      · exact hS a ha b (List.mem_cons_of_mem k hb)
    apply Prog.Returns.bind (ih (fun b hb => hk b (List.mem_cons_of_mem k hb)) hrest hS' h')
    rintro rs s'' ⟨rfl, h''⟩
    refine Prog.Returns.pure ⟨?_, h''⟩
    show _ = some (decide (k ∉ S)) :: (setRun (insert k S) (keys.map .add)).1
    simp [hkS]

/-- `add` of a key that `insert` takes for one that is there. -/
theorem add_replaces (hd : d ≠ 4) (hw : ¬8 * d < 256) (hs : Separated hash.pair (Hashes E) K)
    (hfuel : 255 < fuel) {k k' : Digest d} (hk : K k) (hk' : k' ∈ S)
    (ha : Agree Digest.bit (leafMask d) k' k) (h : Represents hash E K s S t) :
    ∃ s' M, KeyValueTrie.add hash fresh fuel k true s = ⟨.ok true, s', []⟩ ∧
      Holds s' (Function.update M k (some ((Trie.leaf k).entry (leafMask d) none))) (some k)
        (s.size + 1) := by
  cases t with
  | none => exact absurd ((h.keys k').mpr hk') List.not_mem_nil
  | some u =>
    obtain ⟨root, hroot, hrun⟩ := insert_duplicate fresh hs hfuel true hk h.stores
      (h.wellFormed u rfl) ((h.keys k').mpr hk') ha
    rw [onDuplicate, if_neg hw] at hrun
    obtain ⟨s', hs', h'⟩ := add_root fresh hd k h.stores
    rw [← Holds.size h.stores] at h'
    refine ⟨s', _, ?_, h'⟩
    have hthrow := Prog.bind_of_ok hroot fun root => do
      let inserted ← TrieNode.insert hash fuel fuel root (TrieNode.newone fresh k) true
      if inserted then
        KeyValueTrie.incSize
        pure inserted
      else pure inserted
    rw [Prog.bind_of_error hrun] at hthrow
    unfold KeyValueTrie.add
    rw [Prog.tryCatch_of_error hthrow, hs']
    rfl

/-- Below a leaf there is nothing else. -/
theorem eq_of_leafBelow_leaf {k k' : Digest d} {e : Entry (Digest d)} (he : s.record k = some e)
    (hc : e.children = none) (h : LeafBelow s k' k) : k' = k := by
  cases h with
  | leaf => rfl
  | smaller hrec hch =>
    rw [he] at hrec
    cases hrec
    rw [hc] at hch
    cases hch
  | larger hrec hch =>
    rw [he] at hrec
    cases hrec
    rw [hc] at hch
    cases hch

end Adds

section Sequences

variable (hash : CryptoHash d) (fresh : Digest d) {fuel : Nat}

theorem Represents.addsRight {E : Digest d × Digest d → Prop} {K : Digest d → Prop}
    {keys : List (Digest d)} {t : Option (Trie (Digest d))} (hs : Separated hash.pair (Hashes E) K)
    (ho : (runTrie hash fresh fuel (keys.map .add)).outcome = .ok (setRun ∅ (keys.map .add)).1)
    (h : Represents hash E K (runTrie hash fresh fuel (keys.map .add)).state
      (setRun ∅ (keys.map .add)).2 t) : AddsRight hash fresh fuel keys := by
  have hS : (setRun ∅ (keys.map .add)).2 = keys.toFinset := by
    rw [setRun_adds, Finset.empty_union]
  rw [hS] at h
  refine ⟨ho, fun k hk => ?_, h.size_eq⟩
  have hkt := (h.keys k).mpr (List.mem_toFinset.mpr hk)
  cases t with
  | none => exact absurd hkt List.not_mem_nil
  | some u =>
    have hn := (h.wellFormed u rfl).nodup hash hs
    refine ⟨u.label, ?_, (leafBelow_iff [] h.stores hn).mpr hkt⟩
    rw [Holds.root h.stores]
    rfl

variable {l : List (Digest d × Digest d)} {all : List (Digest d)}

theorem addsRight_of_separate (hd : d ≠ 4) (hfuel : 255 < fuel) {keys : List (Digest d)}
    (hc : CollisionFree hash l) (hk : KeysFresh hash all l) (hkeys : keys ⊆ all)
    (hl : (runTrie hash fresh fuel (keys.map .add)).events ⊆ l)
    (h : 8 * d < 256 ∨ keys.Pairwise fun a b => ¬Agree Digest.bit (leafMask d) a b) :
    (∃ t, Represents hash (· ∈ l) (· ∈ all) (runTrie hash fresh fuel (keys.map .add)).state
        (setRun ∅ (keys.map .add)).2 t) ∧ AddsRight hash fresh fuel keys := by
  have hs := separated_of_collisionFree hc hk
  have hempty := represents_empty hash (· ∈ l) (· ∈ all)
  have hrun : ∃ rs, (runTrie hash fresh fuel (keys.map .add)).outcome = .ok rs ∧
      rs = (setRun ∅ (keys.map .add)).1 ∧
        ∃ t, Represents hash (· ∈ l) (· ∈ all) (runTrie hash fresh fuel (keys.map .add)).state
          (setRun ∅ (keys.map .add)).2 t := by
    rcases h with hw | hp
    · refine runOps_represents fresh hd hw hs hfuel (keys.map .add) (fun k hmem => ?_) hempty
        fun x hx => hl hx
      rw [addedKeys_adds] at hmem
      exact hkeys hmem
    · exact runAdds_represents fresh hd hs hfuel (fun k hmem => hkeys hmem) hp (by simp) hempty
        fun x hx => hl hx
  obtain ⟨_, ho, rfl, t, ht⟩ := hrun
  exact ⟨⟨t, ht⟩, ht.addsRight hash fresh hs ho⟩

/-- Every prefix of a run that does what it should has keys that differ within the mask. -/
theorem pairwise_of_addsRight (hd : d ≠ 4) (hw : ¬8 * d < 256) (hfuel : 255 < fuel)
    (hc : CollisionFree hash l) (hk : KeysFresh hash all l) {keys : List (Digest d)}
    (hkeys : keys ⊆ all) (hl : (runTrie hash fresh fuel (keys.map .add)).events ⊆ l)
    (h : ∀ front rest, keys = front ++ rest → AddsRight hash fresh fuel front) :
    keys.Pairwise fun a b => ¬Agree Digest.bit (leafMask d) a b := by
  induction keys using List.reverseRecOn with
  | nil => exact List.Pairwise.nil
  | append_singleton front k ih =>
    rw [List.map_append] at hl
    have hfront : (runTrie hash fresh fuel (front.map .add)).events ⊆ l :=
      fun x hx => hl (Prog.each_events_subset _ _ _ hx)
    have hsub : front ⊆ all := fun x hx => hkeys (List.mem_append_left _ hx)
    have hp := ih hsub hfront fun f r he => h f (r ++ [k]) (by rw [he, List.append_assoc])
    refine List.pairwise_append.mpr ⟨hp, List.pairwise_singleton _ _, fun a ha b hb hagree => ?_⟩
    obtain rfl := List.mem_singleton.mp hb
    obtain ⟨⟨t, ht⟩, hright⟩ := addsRight_of_separate hash fresh hd hfuel hc hk hsub hfront (Or.inr hp)
    have hS : (setRun ∅ (front.map .add)).2 = front.toFinset := by
      rw [setRun_adds, Finset.empty_union]
    rw [hS] at ht
    obtain ⟨s', M, hadd, hholds⟩ := add_replaces fresh hd hw (separated_of_collisionFree hc hk) hfuel
      (hkeys (List.mem_append_right _ List.mem_cons_self)) (List.mem_toFinset.mpr ha) hagree ht
    -- the whole run: the answers of the front, then true
    have hrun : runTrie hash fresh fuel (front.map .add) = ⟨.ok (setRun ∅ (front.map .add)).1,
        (runTrie hash fresh fuel (front.map .add)).state,
        (runTrie hash fresh fuel (front.map .add)).events⟩ := by
      rw [← hright.answers]
    have hexec : (SetOp.add b).exec hash fresh fuel (runTrie hash fresh fuel (front.map .add)).state
        = ⟨.ok (some true), s', []⟩ := by
      rw [SetOp.exec, Prog.bind_of_ok hadd]
      rfl
    have hlast := Prog.each_singleton hexec
    have hwhole : runOps hash fresh fuel (front.map .add ++ [.add b]) (KeyValueTrie.empty d) = _ :=
      Prog.each_append hrun hlast
    have hfull := h (front ++ [b]) [] (List.append_nil _).symm
    have hanswers := hfull.answers
    have hreach := hfull.reached a (List.mem_append_left _ ha)
    rw [List.map_append] at hanswers hreach
    unfold runTrie at hanswers hreach
    rw [List.map_singleton, hwhole] at hanswers hreach
    rw [setRun_append, hS] at hanswers
    have hnew : b ∉ front := by
      have hlists := List.append_cancel_left (Outcome.ok.inj hanswers)
      simpa [setRun, simulate, SetOp.onSet] using hlists
    obtain ⟨x, hroot, hbelow⟩ := hreach
    rw [show s'.storage.table.lookup KeyValueRootNode.rootName = some b.bytes from hholds.root] at hroot
    obtain rfl := Digest.bytes_inj (Option.some.inj hroot)
    have hrec : s'.record b = some ((Trie.leaf b).entry (leafMask d) none) := by
      rw [hholds.record, Function.update_self]
    exact hnew (eq_of_leafBelow_leaf hrec rfl hbelow ▸ ha)

end Sequences

/-- **Which digests and keys the trie works for.**  All of less than 256 bits; the others as long as
the added keys differ in their first `8 * d % 256` bits.  The mask of a leaf is right for the first. -/
theorem adds_right_iff (hash : CryptoHash d) (fresh : Digest d) {fuel : Nat}
    (hd : ∃ f : SetFunction, f.size = d) (hfuel : 255 < fuel) (keys : List (Digest d))
    (hc : CollisionFree hash (runTrie hash fresh fuel (keys.map .add)).events)
    (hk : KeysFresh hash keys (runTrie hash fresh fuel (keys.map .add)).events) :
    ((∀ front rest, keys = front ++ rest → AddsRight hash fresh fuel front) ↔
      8 * d < 256 ∨ keys.Pairwise fun a b => ¬Agree Digest.bit (leafMask d) a b) ∧
    ((∀ key, (TrieNode.newone fresh key).prefixMask.toNat = 8 * d) ↔ 8 * d < 256) := by
  obtain ⟨f, rfl⟩ := hd
  have hf := f.size_ne
  refine ⟨⟨fun h => ?_, fun h front rest hsplit => ?_⟩, fun h => ?_, fun hw key => ?_⟩
  · by_cases hw : 8 * f.size < 256
    · exact Or.inl hw
    · exact Or.inr (pairwise_of_addsRight hash fresh hf hw hfuel hc hk (List.Subset.refl _)
        (List.Subset.refl _) h)
  · have hsub : front ⊆ keys := by
      rw [hsplit]
      exact List.subset_append_left _ _
    have hevents : (runTrie hash fresh fuel (front.map .add)).events
        ⊆ (runTrie hash fresh fuel (keys.map .add)).events := by
      rw [hsplit, List.map_append]
      exact Prog.each_events_subset _ _ _
    refine (addsRight_of_separate hash fresh hf hfuel hc hk hsub hevents (h.imp_right ?_)).2
    intro hp
    rw [hsplit] at hp
    exact (List.pairwise_append.mp hp).1
  · rw [← h fresh]
    exact UInt8.toNat_lt _
  · rw [(shows_newone fresh key).len]
    exact leafMask_eq hw

theorem adds_right_iff_sha1 :
    AddsRight (mixHash 20) (byteKey 20 0) 256 [byteKey 20 1, byteKey 20 2] ∧
      (TrieNode.newone (byteKey 20 0) (byteKey 20 1)).prefixMask.toNat = 160 := by
  have h := adds_right_iff (mixHash 20) (byteKey 20 0) ⟨.SHA_1, rfl⟩ (show 255 < 256 by decide)
    [byteKey 20 1, byteKey 20 2] (by decide +kernel) (by decide +kernel)
  refine ⟨h.1.mpr (Or.inl (by decide)) _ [] (List.append_nil _).symm, ?_⟩
  exact h.2.mpr (by decide) (byteKey 20 1)

/-- The second key of a SHA-256 trie replaces the first. -/
theorem sha256_loses_first_key :
    CollisionFree (mixHash 32) (runTrie (mixHash 32) (byteKey 32 0) 256
        ([byteKey 32 1, byteKey 32 2].map .add)).events ∧
      KeysFresh (mixHash 32) [byteKey 32 1, byteKey 32 2] (runTrie (mixHash 32) (byteKey 32 0) 256
        ([byteKey 32 1, byteKey 32 2].map .add)).events ∧
      ¬AddsRight (mixHash 32) (byteKey 32 0) 256 [byteKey 32 1, byteKey 32 2] := by
  refine ⟨by decide +kernel, by decide +kernel, fun h => ?_⟩
  obtain ⟨x, hroot, hbelow⟩ := h.reached (byteKey 32 1) List.mem_cons_self
  have hlookup : (runTrie (mixHash 32) (byteKey 32 0) 256
      ([byteKey 32 1, byteKey 32 2].map .add)).state.storage.table.lookup KeyValueRootNode.rootName
        = some (byteKey 32 2).bytes := by decide +kernel
  have hleaf : ((runTrie (mixHash 32) (byteKey 32 0) 256
      ([byteKey 32 1, byteKey 32 2].map .add)).state.record (byteKey 32 2)).map Entry.children
        = some none := by decide +kernel
  rw [hlookup] at hroot
  obtain rfl := Digest.bytes_inj (Option.some.inj hroot)
  obtain ⟨e, he, hc⟩ := Option.map_eq_some_iff.mp hleaf
  exact absurd (eq_of_leafBelow_leaf he hc hbelow) (by decide)

end SetSync
