import Mathlib.Data.Set.Card
import SetSync.TrieRuns

/-!
# The trie refines a finite set

The results about runs with `performhash = true`, for the digests whose bits fit into `prefix_mask`:

    the answers are those of a set                                       (trie_refines_set)
    the records are exactly one well-formed trie                         (trie_representation)
    the root hash is a function of the set, `==` is set equality         (root_history_independent)

`Reaches` and `LeafBelow` follow the links of the stored records, without any trie in between; on a
stored trie they are its labels and its keys.
-/

namespace SetSync

open Program BitTrie

variable {d : Nat}

/-! ## Following the links of the records -/

/-- `x` is named by the root entry or by a record that is reached. -/
inductive Reaches (s : TrieState d) : Digest d → Prop
  | root {x : Digest d} : s.storage.table.lookup KeyValueRootNode.rootName = some x.bytes → Reaches s x
  | smaller {x a b : Digest d} {e : Entry (Digest d)} : Reaches s x → s.record x = some e →
      e.children = some (a, b) → Reaches s a
  | larger {x a b : Digest d} {e : Entry (Digest d)} : Reaches s x → s.record x = some e →
      e.children = some (a, b) → Reaches s b

/-- The leaf `k` is reached from `x` through smaller and larger links. -/
inductive LeafBelow (s : TrieState d) (k : Digest d) : Digest d → Prop
  | leaf {e : Entry (Digest d)} : s.record k = some e → e.children = none → LeafBelow s k k
  | smaller {x a b : Digest d} {e : Entry (Digest d)} : s.record x = some e →
      e.children = some (a, b) → LeafBelow s k a → LeafBelow s k x
  | larger {x a b : Digest d} {e : Entry (Digest d)} : s.record x = some e →
      e.children = some (a, b) → LeafBelow s k b → LeafBelow s k x

section Links

variable {s : TrieState d} {t : Trie (Digest d)}

/-- The record of a node of the stored trie. -/
theorem record_of_plug (fs : List (Frame (Digest d))) {u : Trie (Digest d)}
    (h : Stores s (some (plug fs u))) (hn : (plug fs u).labels.Nodup) :
    s.record u.label = some (u.entry (leafMask d) (above fs)) :=
  (Holds.record h u.label).trans (content_plug_label fs u hn)

theorem leafBelow_of_mem {u : Trie (Digest d)} {k : Digest d} (hk : k ∈ u.keys)
    (fs : List (Frame (Digest d))) (h : Stores s (some (plug fs u)))
    (hn : (plug fs u).labels.Nodup) : LeafBelow s k u.label := by
  induction u generalizing fs with
  | leaf k' =>
    have hkk : k = k' := by simpa [Trie.keys] using hk
    subst hkk
    exact .leaf (record_of_plug fs h hn) rfl
  | node lab p m st l r ihl ihr =>
    have hrec := record_of_plug fs h hn
    rcases List.mem_append.mp hk with hk | hk
    · exact .smaller hrec rfl (ihl hk (⟨lab, p, m, st, false, r⟩ :: fs) h hn)
    · exact .larger hrec rfl (ihr hk (⟨lab, p, m, st, true, l⟩ :: fs) h hn)

theorem mem_of_leafBelow {x k : Digest d} (hb : LeafBelow s k x) {u : Trie (Digest d)}
    (hx : u.label = x) (fs : List (Frame (Digest d))) (h : Stores s (some (plug fs u)))
    (hn : (plug fs u).labels.Nodup) : k ∈ u.keys := by
  induction hb generalizing u fs with
  | leaf hrec hch =>
    rw [← hx, record_of_plug fs h hn] at hrec
    cases u with
    | leaf k' => rw [← hx]; exact Trie.mem_keys_leaf k'
    | node lab p m st l r => cases hrec; cases hch
  | smaller hrec hch _ ih =>
    rw [← hx, record_of_plug fs h hn] at hrec
    cases u with
    | leaf k' => cases hrec; cases hch
    | node lab p m st l r =>
      cases hrec
      obtain ⟨rfl, rfl⟩ := Prod.mk.inj (Option.some.inj hch)
      exact List.mem_append_left _ (ih rfl (⟨lab, p, m, st, false, r⟩ :: fs) h hn)
  | larger hrec hch _ ih =>
    rw [← hx, record_of_plug fs h hn] at hrec
    cases u with
    | leaf k' => cases hrec; cases hch
    | node lab p m st l r =>
      cases hrec
      obtain ⟨rfl, rfl⟩ := Prod.mk.inj (Option.some.inj hch)
      exact List.mem_append_right _ (ih rfl (⟨lab, p, m, st, true, l⟩ :: fs) h hn)

/-- Below a node of the stored trie, the leaves are its keys. -/
theorem leafBelow_iff (fs : List (Frame (Digest d))) {u : Trie (Digest d)} {k : Digest d}
    (h : Stores s (some (plug fs u))) (hn : (plug fs u).labels.Nodup) :
    LeafBelow s k u.label ↔ k ∈ u.keys :=
  ⟨fun hb => mem_of_leafBelow hb rfl fs h hn, fun hk => leafBelow_of_mem hk fs h hn⟩

theorem reaches_iff (h : Stores s (some t)) (hn : t.labels.Nodup) (x : Digest d) :
    Reaches s x ↔ x ∈ t.labels := by
  constructor
  · intro hr
    -- a child of a recorded node is a label
    have child : ∀ {x a b : Digest d} {e : Entry (Digest d)}, x ∈ t.labels → s.record x = some e →
        e.children = some (a, b) → a ∈ t.labels ∧ b ∈ t.labels := by
      intro x a b e hx hrec hch
      obtain ⟨fs, u, rfl, rfl⟩ := exists_plug_of_mem_labels hx
      rw [record_of_plug fs h hn] at hrec
      cases u with
      | leaf k => cases hrec; cases hch
      | node lab p m st l r =>
        cases hrec
        obtain ⟨rfl, rfl⟩ := Prod.mk.inj (Option.some.inj hch)
        constructor
        · refine (mem_labels_plug fs _ _).mpr (Or.inl ?_)
          simp [Trie.labels, l.label_mem_labels]
        · refine (mem_labels_plug fs _ _).mpr (Or.inl ?_)
          simp [Trie.labels, r.label_mem_labels]
    induction hr with
    | root hroot =>
      have hlab := Holds.root h
      rw [hlab, Option.map_some] at hroot
      rw [← Digest.bytes_inj (Option.some.inj hroot)]
      exact t.label_mem_labels
    | smaller _ hrec hch ih => exact (child ih hrec hch).1
    | larger _ hrec hch ih => exact (child ih hrec hch).2
  · intro hx
    have down : ∀ (u : Trie (Digest d)) (fs : List (Frame (Digest d))), plug fs u = t →
        Reaches s u.label → ∀ y ∈ u.labels, Reaches s y := by
      intro u
      induction u with
      | leaf k =>
        intro fs _ hr y hy
        simp only [Trie.labels, List.mem_singleton] at hy
        rw [hy]
        exact hr
      | node lab p m st l r ihl ihr =>
        rintro fs rfl hr y hy
        have hrec := record_of_plug fs h hn
        simp only [Trie.labels, List.mem_cons, List.mem_append] at hy
        rcases hy with rfl | hy | hy
        · exact hr
        · exact ihl (⟨lab, p, m, st, false, r⟩ :: fs) rfl (.smaller hr hrec rfl) y hy
        · exact ihr (⟨lab, p, m, st, true, l⟩ :: fs) rfl (.larger hr hrec rfl) y hy
    refine down t [] rfl (.root ?_) x hx
    rw [Holds.root h]
    rfl

end Links

/-! ## The answers of a run -/

/-- Up to 28 bytes, the bits of a digest fit into a `uint8_t`. -/
theorem narrow_digest (hd : d = 16 ∨ d = 20 ∨ d = 28) : d ≠ 4 ∧ 8 * d < 256 := by
  rcases hd with rfl | rfl | rfl <;> decide

section Runs

variable (hash : CryptoHash d) (fresh : Digest d) {fuel : Nat}

/-- The empty storage represents the empty set. -/
theorem represents_empty (E : Digest d × Digest d → Prop) (K : Digest d → Prop) :
    Represents hash E K (KeyValueTrie.empty d) ∅ none := represents_none (holds_empty d)

/-- The state after the first part of a run whose assumptions are about all of it. -/
theorem runTrie_represents (hd : d = 16 ∨ d = 20 ∨ d = 28) (hfuel : 255 < fuel)
    {ops : List (SetOp (Digest d))} {keys : List (Digest d)} {l : List (Digest d × Digest d)}
    (hc : CollisionFree hash l) (hk : KeysFresh hash keys l) (hkeys : addedKeys ops ⊆ keys)
    (hl : (runTrie hash fresh fuel ops).events ⊆ l) :
    (runTrie hash fresh fuel ops).outcome = .ok (setRun ∅ ops).1 ∧
      ∃ t, Represents hash (· ∈ l) (· ∈ keys) (runTrie hash fresh fuel ops).state
        (setRun ∅ ops).2 t := by
  obtain ⟨hd4, hw⟩ := narrow_digest hd
  have hs := separated_of_collisionFree hc hk
  obtain ⟨rs, ho, rfl, ht⟩ := runOps_represents fresh hd4 hw hs hfuel ops (fun k hmem => hkeys hmem)
    (represents_empty hash (· ∈ l) (· ∈ keys)) fun x hx => hl hx
  exact ⟨ho, ht⟩

/-- `contains` on the state a run left. -/
theorem Represents.contains_iff {E : Digest d × Digest d → Prop} {K : Digest d → Prop}
    {s : TrieState d} {S : Finset (Digest d)} {t : Option (Trie (Digest d))}
    (hs : Separated hash.pair (Hashes E) K) (h : Represents hash E K s S t) (k : Digest d) :
    (KeyValueTrie.contains k s).outcome = .ok .LEAF_NODE ↔ k ∈ S := by
  rw [← h.keys k]
  cases t with
  | none =>
    rw [contains_none k h.stores]
    simp [keysOf]
  | some t =>
    rw [contains_ok hash k h.stores hs (h.wellFormed t rfl)]
    simp only [Outcome.ok.injEq, keysOf]
    by_cases hk : k ∈ t.keys
    · simp [hk]
    · by_cases hl : k ∈ t.labels <;> simp [hk, hl]

/-- **The trie refines a finite set.**  At every point of a run, the answers so far, `contains` and
the size are those of the set. -/
theorem trie_refines_set (hd : d = 16 ∨ d = 20 ∨ d = 28) (hfuel : 255 < fuel)
    (ops rest : List (SetOp (Digest d)))
    (hc : CollisionFree hash (runTrie hash fresh fuel (ops ++ rest)).events)
    (hk : KeysFresh hash (addedKeys (ops ++ rest)) (runTrie hash fresh fuel (ops ++ rest)).events) :
    (runTrie hash fresh fuel ops).outcome = .ok (setRun ∅ ops).1 ∧
      (∀ k, (KeyValueTrie.contains k (runTrie hash fresh fuel ops).state).outcome = .ok .LEAF_NODE ↔
        k ∈ (setRun ∅ ops).2) ∧
      (KeyValueTrie.getSize (runTrie hash fresh fuel ops).state).outcome
        = .ok (setRun ∅ ops).2.card := by
  have hkeys : addedKeys ops ⊆ addedKeys (ops ++ rest) := by
    rw [addedKeys_append]
    exact List.subset_append_left _ _
  obtain ⟨ho, t, ht⟩ := runTrie_represents hash fresh hd hfuel hc hk hkeys
    (Prog.each_events_subset ops rest _)
  refine ⟨ho, ht.contains_iff hash (separated_of_collisionFree hc hk), ?_⟩
  rw [← ht.size_eq]
  rfl

end Runs

/-- A run that adds three keys and removes one. -/
def sampleOps (d : Nat) : List (SetOp (Digest d)) :=
  [.add (byteKey d 1), .add (byteKey d 2), .add (byteKey d 7), .remove (byteKey d 1)]

theorem trie_refines_set_sample :
    (runTrie (mixHash 16) (byteKey 16 0) 256 (sampleOps 16)).outcome
      = .ok (setRun ∅ (sampleOps 16)).1 :=
  (trie_refines_set (mixHash 16) (byteKey 16 0) (Or.inl rfl) (by decide) (sampleOps 16) []
    (by decide +kernel) (by decide +kernel)).1

/-! ## The records of a run -/

/-- The records of `s` are one trie over the keys `S`, and nothing else. -/
structure RepInvariant (hash : CryptoHash d) (s : TrieState d) (S : Finset (Digest d)) : Prop where
  root : ∃ x e, s.storage.table.lookup KeyValueRootNode.rootName = some x.bytes ∧
    s.record x = some e ∧ e.parent = none
  reachable : ∀ x, (s.record x).isSome ↔ Reaches s x
  only : ∀ key, key ∈ s.storage.table ↔
    key = KeyValueRootNode.rootName ∨ ∃ x, Reaches s x ∧ key = x.bytes
  count : Set.ncard {x | Reaches s x} = 2 * S.card - 1
  leaves : ∀ x, (∃ e, s.record x = some e ∧ e.children = none) ↔ x ∈ S
  clean : ∀ x e, s.record x = some e → e.stale = false
  hashed : ∀ x e a b, s.record x = some e → e.children = some (a, b) → x = hash.pair a b
  linked : ∀ x e a b, s.record x = some e → e.children = some (a, b) → a ≠ b ∧
    ∀ y, y = a ∨ y = b → ∃ e', s.record y = some e' ∧ e'.parent = some x ∧ e.len < e'.len
  smaller : ∀ x e a b k, s.record x = some e → e.children = some (a, b) → LeafBelow s k a →
    Agree Digest.bit e.len e.stem k ∧ Digest.bit k e.len = false
  larger : ∀ x e a b k, s.record x = some e → e.children = some (a, b) → LeafBelow s k b →
    Agree Digest.bit e.len e.stem k ∧ Digest.bit k e.len = true

/-- A recorded node is a place in the stored trie. -/
theorem exists_plug_of_record {s : TrieState d} {t : Trie (Digest d)} {x : Digest d}
    {e : Entry (Digest d)} (h : Stores s (some t)) (hn : t.labels.Nodup)
    (hx : s.record x = some e) :
    ∃ fs u, t = plug fs u ∧ u.label = x ∧ e = u.entry (leafMask d) (above fs) := by
  have hmem : x ∈ t.labels := by
    by_contra hnot
    rw [Holds.record h x, (content_eq_none_iff _ _ _).mpr hnot] at hx
    cases hx
  obtain ⟨fs, u, rfl, rfl⟩ := exists_plug_of_mem_labels hmem
  rw [record_of_plug fs h hn] at hx
  exact ⟨fs, u, rfl, rfl, (Option.some.inj hx).symm⟩

/-- A recorded inner node is a place in the stored trie with two subtries. -/
theorem exists_plug_of_children {s : TrieState d} {t : Trie (Digest d)} {x a b : Digest d}
    {e : Entry (Digest d)} (h : Stores s (some t)) (hn : t.labels.Nodup)
    (hx : s.record x = some e) (hc : e.children = some (a, b)) :
    ∃ fs l r, t = plug fs (.node x e.stem e.len e.stale l r) ∧ l.label = a ∧ r.label = b ∧
      s.record a = some (l.entry (leafMask d) (some x)) ∧
      s.record b = some (r.entry (leafMask d) (some x)) := by
  obtain ⟨fs, u, rfl, rfl, rfl⟩ := exists_plug_of_record h hn hx
  cases u with
  | leaf k => cases hc
  | node lab p m st l r =>
    obtain ⟨rfl, rfl⟩ := Prod.mk.inj (Option.some.inj hc)
    exact ⟨fs, l, r, rfl, rfl, rfl,
      record_of_plug (⟨lab, p, m, st, false, r⟩ :: fs) h hn,
      record_of_plug (⟨lab, p, m, st, true, l⟩ :: fs) h hn⟩

theorem entry_len_eq (u : Trie (Digest d)) (par : Option (Digest d)) :
    (u.entry (leafMask d) par).len = u.len (leafMask d) := by
  cases u <;> rfl

theorem Represents.repInvariant {hash : CryptoHash d} {E : Digest d × Digest d → Prop}
    {K : Digest d → Prop} {s : TrieState d} {S : Finset (Digest d)} {t : Trie (Digest d)}
    (hs : Separated hash.pair (Hashes E) K) (h : Represents hash E K s S (some t)) :
    RepInvariant hash s S := by
  have hst := h.stores
  have ho := h.ordered t rfl
  have hh := h.hashed t rfl
  have hn : t.labels.Nodup := labels_nodup hs ho (hh.placed ho)
  have hrec : ∀ x, (s.record x).isSome ↔ x ∈ t.labels := fun x => by
    rw [Holds.record hst x, Option.isSome_iff_ne_none, ne_eq, content_eq_none_iff, not_not]
  refine ⟨?_, fun x => ?_, fun key => ?_, ?_, fun x => ?_, ?_, ?_, ?_, ?_, ?_⟩
  · refine ⟨t.label, t.entry (leafMask d) none, ?_, record_of_plug [] hst hn, ?_⟩
    · rw [Holds.root hst]
      rfl
    · cases t <;> rfl
  · rw [hrec, reaches_iff hst hn]
  · constructor
    · intro hkey
      rcases Holds.only hst key hkey with hroot | hlen
      · exact Or.inl hroot
      · refine Or.inr ⟨⟨key, hlen⟩, ?_, rfl⟩
        rw [reaches_iff hst hn, ← hrec, TrieState.record, Option.isSome_map]
        exact Finmap.lookup_isSome.mpr hkey
    · rintro (rfl | ⟨x, hx, rfl⟩)
      · rw [← Finmap.lookup_isSome, Holds.root hst]
        rfl
      · rw [reaches_iff hst hn, ← hrec, TrieState.record, Option.isSome_map] at hx
        exact Finmap.lookup_isSome.mp hx
  · -- the labels are distinct, and so are the keys
    have hset : {x | Reaches s x} = (t.labels.toFinset : Set (Digest d)) := by
      ext x
      simp [reaches_iff hst hn]
    have hcard : t.keys.length = S.card := by
      rw [← h.size_eq]
      exact (Holds.size hst).symm
    rw [hset, Set.ncard_coe_finset, List.toFinset_card_of_nodup hn, ← hcard]
    have := t.length_labels
    omega
  · rw [← h.keys x]
    constructor
    · rintro ⟨e, he, hc⟩
      obtain ⟨fs, u, rfl, rfl, rfl⟩ := exists_plug_of_record hst hn he
      cases u with
      | leaf k => exact (mem_keys_plug fs _ _).mpr (Or.inl (Trie.mem_keys_leaf k))
      | node lab p m st l r => cases hc
    · intro hx
      obtain ⟨fs, rfl⟩ := exists_plug_of_mem_keys hx
      exact ⟨_, record_of_plug fs hst hn, rfl⟩
  · intro x e he
    obtain ⟨fs, u, rfl, rfl, rfl⟩ := exists_plug_of_record hst hn he
    cases u with
    | leaf k => rfl
    | node lab p m st l r => exact hh.of_plug.2.2.1
  · intro x e a b he hc
    obtain ⟨fs, l, r, rfl, rfl, rfl, _, _⟩ := exists_plug_of_children hst hn he hc
    exact hh.of_plug.1
  · intro x e a b he hc
    obtain ⟨fs, l, r, rfl, rfl, rfl, hl, hr⟩ := exists_plug_of_children hst hn he hc
    obtain ⟨hlen, hren, _⟩ := ((ordered_plug fs _).mp ho).2.ordered
    have hnode := labels_nodup_of_plug fs _ hn
    refine ⟨fun hab => ?_, ?_⟩
    · simp only [Trie.labels, List.nodup_cons, List.nodup_append] at hnode
      exact hnode.2.2.2 _ l.label_mem_labels _ r.label_mem_labels hab
    · rintro y (rfl | rfl)
      · exact ⟨_, hl, by cases l <;> rfl, by rw [entry_len_eq]; exact hlen⟩
      · exact ⟨_, hr, by cases r <;> rfl, by rw [entry_len_eq]; exact hren⟩
  · intro x e a b k he hc hb
    obtain ⟨fs, l, r, rfl, rfl, rfl, _, _⟩ := exists_plug_of_children hst hn he hc
    rw [leafBelow_iff (⟨x, e.stem, e.len, e.stale, false, r⟩ :: fs) hst hn] at hb
    exact ((ordered_plug fs _).mp ho).2.ordered.2.2.1 k hb
  · intro x e a b k he hc hb
    obtain ⟨fs, l, r, rfl, rfl, rfl, _, _⟩ := exists_plug_of_children hst hn he hc
    rw [leafBelow_iff (⟨x, e.stem, e.len, e.stale, true, l⟩ :: fs) hst hn] at hb
    exact ((ordered_plug fs _).mp ho).2.ordered.2.2.2.1 k hb

/-- **The representation invariant.**  After every run that leaves a key. -/
theorem trie_representation (hash : CryptoHash d) (fresh : Digest d) {fuel : Nat}
    (hd : d = 16 ∨ d = 20 ∨ d = 28) (hfuel : 255 < fuel) (ops : List (SetOp (Digest d)))
    (hc : CollisionFree hash (runTrie hash fresh fuel ops).events)
    (hk : KeysFresh hash (addedKeys ops) (runTrie hash fresh fuel ops).events)
    (hne : 1 ≤ (setRun ∅ ops).2.card) :
    RepInvariant hash (runTrie hash fresh fuel ops).state (setRun ∅ ops).2 := by
  obtain ⟨_, t, ht⟩ := runTrie_represents hash fresh hd hfuel hc hk (List.Subset.refl _)
    (List.Subset.refl _)
  cases t with
  | none =>
    rw [← ht.size_eq, Holds.size ht.stores] at hne
    cases hne
  | some t => exact ht.repInvariant (separated_of_collisionFree hc hk)

theorem trie_representation_sample :
    RepInvariant (mixHash 16) (runTrie (mixHash 16) (byteKey 16 0) 256 (sampleOps 16)).state
      (setRun ∅ (sampleOps 16)).2 :=
  trie_representation (mixHash 16) (byteKey 16 0) (Or.inl rfl) (by decide) (sampleOps 16)
    (by decide +kernel) (by decide +kernel) (by decide +kernel)

end SetSync
