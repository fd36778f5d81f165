import SetSync.SubTrieCut

/-!
# The trie behind the representation invariant

`RepInvariant` is about records and links.  With the leaf records as `insert` writes them, it is all that
the refinement needs: the records are those of a trie, which can be read off from the root downwards.

    a record         is the root of a trie whose records are those below it          (exists_recorded)
    that trie        is ordered and hashed, and the records are its own
                                                (Recorded.ordered, Recorded.hashed, Recorded.content)
    the invariant    gives a trie that represents the keys, and back
                                                  (StoredTrie.represents, Represents.storedTrie)
-/

namespace SetSync

open Program BitTrie

variable {d : Nat}

/-- The representation invariant on a working storage, with the leaf records in full. -/
structure StoredTrie (hash : CryptoHash d) (s : TrieState d) (S : Finset (Digest d)) : Prop extends
    RepInvariant hash s S where
  working : s.storage.failure = none
  size : s.size = S.card
  leafRecords : ∀ x e, s.record x = some e → e.children = none → e.stem = x ∧ e.len = leafMask d

/-- A pair of children in a record. -/
def StoredPair (s : TrieState d) (p : Digest d × Digest d) : Prop :=
  ∃ x e, s.record x = some e ∧ e.children = some p

/-- The records of a trie, hung under `par`. -/
def Recorded (s : TrieState d) : Option (Digest d) → Trie (Digest d) → Prop
  | par, .leaf k => s.record k = some ((Trie.leaf k).entry (leafMask d) par)
  | par, .node x p m st l r =>
    s.record x = some ((Trie.node x p m st l r).entry (leafMask d) par) ∧
      Recorded s (some x) l ∧ Recorded s (some x) r

section Reading

variable {hash : CryptoHash d} {s : TrieState d} {S : Finset (Digest d)} {par : Option (Digest d)}
  {u : Trie (Digest d)}

theorem Recorded.record (h : Recorded s par u) : s.record u.label = some (u.entry (leafMask d) par) := by
  cases u with
  | leaf k => exact h
  | node x p m st l r => exact h.1

theorem Recorded.unfolds (h : Recorded s par u) : Unfolds s u := by
  induction u generalizing par with
  | leaf k => exact ⟨_, h, rfl⟩
  | node x p m st l r ihl ihr => exact ⟨⟨_, h.1, rfl⟩, ihl h.2.1, ihr h.2.2⟩

/-- The children of a label are labels. -/
theorem Recorded.children_mem (h : Recorded s par u) {x a b : Digest d} {e : Entry (Digest d)}
    (hmem : x ∈ u.labels) (hx : s.record x = some e) (hch : e.children = some (a, b)) :
    a ∈ u.labels ∧ b ∈ u.labels := by
  induction u generalizing par with
  | leaf k =>
    obtain rfl := List.mem_singleton.mp hmem
    obtain rfl := Option.some.inj (hx.symm.trans h)
    cases hch
  | node y p m st l r ihl ihr =>
    simp only [Trie.labels, List.mem_cons, List.mem_append] at hmem ⊢
    rcases hmem with rfl | hmem | hmem
    · rw [h.1] at hx
      obtain rfl := Option.some.inj hx
      obtain ⟨rfl, rfl⟩ := Prod.mk.inj (Option.some.inj hch)
      exact ⟨Or.inr (Or.inl l.label_mem_labels), Or.inr (Or.inr r.label_mem_labels)⟩
    · obtain ⟨ha, hb⟩ := ihl h.2.1 hmem
      exact ⟨Or.inr (Or.inl ha), Or.inr (Or.inl hb)⟩
    · obtain ⟨ha, hb⟩ := ihr h.2.2 hmem
      exact ⟨Or.inr (Or.inr ha), Or.inr (Or.inr hb)⟩

/-- The records of the labels. -/
theorem Recorded.content (h : Recorded s par u) (hn : u.labels.Nodup) {x : Digest d}
    (hx : x ∈ u.labels) : s.record x = BitTrie.content (leafMask d) par u x := by
  induction u generalizing par with
  | leaf k =>
    obtain rfl := List.mem_singleton.mp hx
    exact Eq.trans h (content_label par (.leaf x)).symm
  | node y p m st l r ihl ihr =>
    simp only [Trie.labels, List.nodup_cons, List.nodup_append, List.mem_append, not_or] at hn
    obtain ⟨⟨hyl, hyr⟩, hnl, hnr, hlr⟩ := hn
    simp only [Trie.labels, List.mem_cons, List.mem_append] at hx
    rcases hx with rfl | hx | hx
    · rw [h.1, BitTrie.content, if_pos rfl]
    · have hne : x ≠ y := fun he => hyl (he ▸ hx)
      rw [BitTrie.content, if_neg hne, ihl h.2.1 hnl hx,
        (content_eq_none_iff _ r x).mpr fun hxr => hlr x hx x hxr rfl, Option.or_none]
    · have hne : x ≠ y := fun he => hyr (he ▸ hx)
      rw [BitTrie.content, if_neg hne, ihr h.2.2 hnr hx,
        (content_eq_none_iff _ l x).mpr fun hxl => hlr x hxl x hx rfl, Option.none_or]

/-- A label whose record has no children is a key. -/
theorem Recorded.mem_keys (h : Recorded s par u) {x : Digest d} {e : Entry (Digest d)}
    (hmem : x ∈ u.labels) (hx : s.record x = some e) (hch : e.children = none) : x ∈ u.keys := by
  induction u generalizing par with
  | leaf k => exact hmem
  | node y p m st l r ihl ihr =>
    simp only [Trie.labels, List.mem_cons, List.mem_append] at hmem
    rcases hmem with rfl | hmem | hmem
    · rw [h.1] at hx
      obtain rfl := Option.some.inj hx
      cases hch
    · exact List.mem_append_left _ (ihl h.2.1 hmem)
    · exact List.mem_append_right _ (ihr h.2.2 hmem)

theorem LeafBelow.record {k x : Digest d} (h : LeafBelow s k x) :
    ∃ e, s.record k = some e ∧ e.children = none := by
  induction h with
  | leaf hrec hch => exact ⟨_, hrec, hch⟩
  | smaller _ _ _ ih => exact ih
  | larger _ _ _ ih => exact ih

end Reading

section Invariant

variable {hash : CryptoHash d} {s : TrieState d} {S : Finset (Digest d)}
  {E : Digest d × Digest d → Prop} {K : Digest d → Prop} {par : Option (Digest d)}
  {u : Trie (Digest d)}

/-- The trie below a record: the lengths grow on the way down. -/
theorem exists_recorded (h : StoredTrie hash s S) (n : Nat) :
    ∀ {x : Digest d} {e : Entry (Digest d)}, s.record x = some e → 256 - e.len ≤ n →
      ∃ u, u.label = x ∧ Recorded s e.parent u := by
  induction n with
  | zero =>
    intro x e hx hn
    have := record_len_lt hx
    omega
  | succ n ih =>
    intro x e hx hn
    have hstale := h.clean x e hx
    obtain ⟨parent, children, stem, len, stale⟩ := e
    cases children with
    | none =>
      obtain ⟨rfl, rfl⟩ := h.leafRecords x _ hx rfl
      obtain rfl : stale = false := hstale
      exact ⟨.leaf _, rfl, hx⟩
    | some ab =>
      obtain ⟨a, b⟩ := ab
      have hlinked := (h.linked x _ a b hx rfl).2
      obtain ⟨ea, ha, hpa, hlena⟩ := hlinked a (Or.inl rfl)
      obtain ⟨eb, hb, hpb, hlenb⟩ := hlinked b (Or.inr rfl)
      obtain ⟨l, rfl, hl⟩ := ih ha (by simp only at hn hlena; omega)
      obtain ⟨r, rfl, hr⟩ := ih hb (by simp only at hn hlenb; omega)
      rw [hpa] at hl
      rw [hpb] at hr
      exact ⟨.node x stem len stale l r, rfl, hx, hl, hr⟩

theorem Recorded.ordered (h : StoredTrie hash s S) (hu : Recorded s par u) :
    Ordered Digest.bit (leafMask d) u := by
  induction u generalizing par with
  | leaf k => trivial
  | node x p m st l r ihl ihr =>
    obtain ⟨hx, hl, hr⟩ := hu
    have hlinked := (h.linked x _ l.label r.label hx rfl).2
    obtain ⟨ea, ha, -, hlena⟩ := hlinked _ (Or.inl rfl)
    obtain ⟨eb, hb, -, hlenb⟩ := hlinked _ (Or.inr rfl)
    obtain rfl := Option.some.inj (ha.symm.trans hl.record)
    obtain rfl := Option.some.inj (hb.symm.trans hr.record)
    exact ⟨(entry_len_eq l (some x)).subst hlena, (entry_len_eq r (some x)).subst hlenb,
      fun k hk => h.smaller x _ _ _ k hx rfl (hl.unfolds.leafBelow hk),
      fun k hk => h.larger x _ _ _ k hx rfl (hr.unfolds.leafBelow hk), ihl hl, ihr hr⟩

theorem Recorded.hashed (h : StoredTrie hash s S) (hE : ∀ p, StoredPair s p → E p)
    (hK : ∀ k ∈ S, K k) (hu : Recorded s par u) : Hashed hash.pair (Hashes E) K u := by
  induction u generalizing par with
  | leaf k => exact hK k ((h.leaves k).mp ⟨_, hu, rfl⟩)
  | node x p m st l r ihl ihr =>
    obtain ⟨hx, hl, hr⟩ := hu
    exact ⟨h.hashed x _ _ _ hx rfl, hE _ ⟨x, _, hx, rfl⟩, h.clean x _ hx, ihl hl, ihr hr⟩

/-- **A stored trie represents its keys.** -/
theorem StoredTrie.represents (h : StoredTrie hash s S) (hE : ∀ p, StoredPair s p → E p)
    (hK : ∀ k ∈ S, K k) (hs : Separated hash.pair (Hashes E) K) :
    ∃ t, Represents hash E K s S (some t) := by
  obtain ⟨x, e, hroot, hx, hpar⟩ := h.root
  obtain ⟨t, rfl, ht⟩ := exists_recorded h 256 hx (Nat.sub_le _ _)
  rw [hpar] at ht
  have ho := ht.ordered h
  have hh := ht.hashed h hE hK
  have hn := labels_nodup hs ho (hh.placed ho)
  have hmem : ∀ y, Reaches s y → y ∈ t.labels := by
    intro y hy
    induction hy with
    | root hy =>
      rw [Digest.bytes_inj (Option.some.inj (hy.symm.trans hroot))]
      exact t.label_mem_labels
    | smaller _ he hch ih => exact (ht.children_mem ih he hch).1
    | larger _ he hch ih => exact (ht.children_mem ih he hch).2
  have hkeys : ∀ k, k ∈ t.keys ↔ k ∈ S := by
    intro k
    rw [← h.leaves k]
    constructor
    · exact fun hk => (ht.unfolds.leafBelow hk).record
    · rintro ⟨e, he, hch⟩
      exact ht.mem_keys (hmem k ((h.reachable k).mp (by rw [he]; rfl))) he hch
  refine ⟨t, ⟨h.working, fun y => ?_, ?_, fun key hkey => ?_, ?_⟩, ?_, ?_, hkeys⟩
  · by_cases hy : y ∈ t.labels
    · exact ht.content hn hy
    · rw [(content_eq_none_iff _ t y).mpr hy, ← Option.not_isSome_iff_eq_none, h.reachable]
      exact fun hr => hy (hmem y hr)
  · rw [hroot]
    rfl
  · rcases (h.only key).mp hkey with hk | ⟨y, -, rfl⟩
    · exact Or.inl hk
    · exact Or.inr y.length_bytes
  · rw [h.size]
    exact (length_keysOf (t := some t) (fun u hu => Option.some.inj hu ▸ ho) hkeys).symm
  · exact fun u hu => Option.some.inj hu ▸ ho
  · exact fun u hu => Option.some.inj hu ▸ hh

theorem Represents.storedTrie {t : Trie (Digest d)} (hs : Separated hash.pair (Hashes E) K)
    (h : Represents hash E K s S (some t)) : StoredTrie hash s S where
  toRepInvariant := h.repInvariant hs
  working := Holds.failure h.stores
  size := h.size_eq
  leafRecords x e hx hch := by
    have ht := h.wellFormed t rfl
    obtain ⟨fs, u, rfl, rfl, rfl⟩ := exists_plug_of_record h.stores (ht.nodup hash hs) hx
    cases u with
    | leaf k => exact ⟨rfl, rfl⟩
    | node lab p m st l r => cases hch

/-- The pairs of the records are among the hashed ones. -/
theorem Represents.storedPair {t : Trie (Digest d)} (hs : Separated hash.pair (Hashes E) K)
    (h : Represents hash E K s S (some t)) {p : Digest d × Digest d} (hp : StoredPair s p) : E p := by
  obtain ⟨x, e, hx, hch⟩ := hp
  have ht := h.wellFormed t rfl
  obtain ⟨a, b⟩ := p
  obtain ⟨fs, l, r, rfl, rfl, rfl, -, -⟩ :=
    exists_plug_of_children h.stores (ht.nodup hash hs) hx hch
  exact (h.hashed _ rfl).of_plug.2.1

end Invariant

end SetSync
