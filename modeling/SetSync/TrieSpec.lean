import SetSync.TrieErase

/-!
# The operations of the trie

`Stores s t`: the storage of `s` holds exactly the records of the trie `t` (`none` when empty), the
root entry names it, and the size counts its keys.  Each operation is a step from one stored trie to
another:

    add of a new key       split in front of it, then rebuild or dirty the path     (add_new)
    add of a present key   nothing happens                                          (add_present)
    remove of a key        its sibling takes the place of its parent                (remove_present)
    remove of another      nothing happens                                          (remove_absent)

The proofs only need every node to sit where its label says (`Placed`); whether the labels are up to
date (`Hashed`) is a matter of the runs.
-/

namespace SetSync

open Program BitTrie TrieNode

variable {d : Nat}

/-- The storage holds the trie and nothing else. -/
def Stores (s : TrieState d) : Option (Trie (Digest d)) → Prop
  | none => Holds s (fun _ => none) none 0
  | some t => Holds s (content (leafMask d) none t) (some t.label) t.keys.length

/-- The keys of a trie that may be empty. -/
def keysOf : Option (Trie (Digest d)) → List (Digest d)
  | none => []
  | some t => t.keys

section Keys

variable {s : TrieState d} {t : Option (Trie (Digest d))} {S : Finset (Digest d)}

theorem Stores.size_eq (h : Stores s t) : s.size = (keysOf t).length := by
  cases t with
  | none => exact Holds.size h
  | some t => exact Holds.size h

theorem keysOf_eq_empty_iff (h : ∀ k, k ∈ keysOf t ↔ k ∈ S) : S = ∅ ↔ t = none := by
  constructor
  · rintro rfl
    cases t with
    | none => rfl
    | some t =>
      obtain ⟨k, hk⟩ := t.exists_mem_keys
      exact absurd ((h k).mp hk) (Finset.notMem_empty k)
  · rintro rfl
    exact Finset.eq_empty_of_forall_notMem fun k hk => List.not_mem_nil ((h k).mpr hk)

theorem length_keysOf (ho : ∀ u, t = some u → Ordered Digest.bit (leafMask d) u)
    (h : ∀ k, k ∈ keysOf t ↔ k ∈ S) : (keysOf t).length = S.card := by
  have hn : (keysOf t).Nodup := by
    cases t with
    | none => exact List.nodup_nil
    | some u => exact (ho u rfl).keys_nodup
  have hS : (keysOf t).toFinset = S := by
    ext k
    rw [List.mem_toFinset]
    exact h k
  rw [← hS, List.toFinset_card_of_nodup hn]

end Keys

variable (hash : CryptoHash d) (fresh : Digest d) {A E : Digest d × Digest d → Prop}
  {K : Digest d → Prop} {s : TrieState d}

/-- What every stored trie satisfies, up to date or not. -/
structure WellFormed (hash : CryptoHash d) (E : Digest d × Digest d → Prop) (K : Digest d → Prop)
    (t : Trie (Digest d)) : Prop where
  ordered : Ordered Digest.bit (leafMask d) t
  placed : Placed Digest.bit (leafMask d) hash.pair (Hashes E) K t

theorem WellFormed.nodup (hs : Separated hash.pair (Hashes E) K) {t : Trie (Digest d)}
    (h : WellFormed hash E K t) : t.labels.Nodup := labels_nodup hs h.ordered h.placed

/-! ## Looking up -/

theorem contains_ok (k : Digest d) {t : Trie (Digest d)} (h : Stores s (some t))
    (hs : Separated hash.pair (Hashes E) K) (ht : WellFormed hash E K t) :
    KeyValueTrie.contains k s = ⟨.ok (if k ∈ t.keys then .LEAF_NODE
      else if k ∈ t.labels then .INNER_NODE else .NOT_FOUND), s, []⟩ := by
  by_cases hl : k ∈ t.labels
  · obtain ⟨fs, u, rfl, rfl⟩ := exists_plug_of_mem_labels hl
    obtain ⟨n, hload, hn⟩ := load_ok h (content_plug_label fs u (ht.nodup hash hs))
    have hrun : ∀ b : TrieNodeType, (if n.hasChildren then TrieNodeType.INNER_NODE else .LEAF_NODE) = b →
        KeyValueTrie.contains u.label s = ⟨.ok b, s, []⟩ := by
      rintro _ rfl
      refine Prog.tryCatch_of_ok ?_ _
      rw [Prog.bind_of_ok hload]
      rfl
    cases u with
    | leaf k' =>
      have hk : k' ∈ (plug fs (.leaf k')).keys :=
        (mem_keys_plug _ _ _).mpr (Or.inl (Trie.mem_keys_leaf k'))
      apply hrun
      rw [show n.hasChildren = false from hn.hasChildren]
      simp [Trie.label, hk]
    | node lab p m st l g =>
      -- an inner label is no key: keys sit at all bits
      have hk : lab ∉ (plug fs (.node lab p m st l g)).keys := by
        intro hk
        have hsit : Sits Digest.bit (leafMask d) hash.pair (Hashes E) K lab m p :=
          (ht.placed.of_plug).1
        have hlen := (hsit.unique hs (.key (ht.placed.keys _ hk))).1
        have hdeep := ((ordered_plug fs _).mp ht.ordered).2.ordered
        have hle := hdeep.2.2.2.2.1.len_le
        have hlt := hdeep.1
        omega
      apply hrun
      rw [show n.hasChildren = true from hn.hasChildren]
      have hmem : lab ∈ (plug fs (.node lab p m st l g)).labels := hl
      simp [Trie.label, hk, hmem]
  · have hk : k ∉ t.keys := fun hk => hl (t.keys_subset_labels k hk)
    rw [if_neg hk, if_neg hl]
    have hload := load_error h ((content_eq_none_iff none t k).mpr hl)
    unfold KeyValueTrie.contains
    rw [Prog.tryCatch_of_error (Prog.bind_of_error hload _)]
    rfl

theorem contains_none (k : Digest d) (h : Stores s none) :
    KeyValueTrie.contains k s = ⟨.ok .NOT_FOUND, s, []⟩ := by
  have hload := load_error h (x := k) rfl
  unfold KeyValueTrie.contains
  rw [Prog.tryCatch_of_error (Prog.bind_of_error hload _)]
  rfl

/-! ## Adding -/

/-- The state after `add` has made the key a new root, whatever was there before. -/
theorem add_root (hd : d ≠ 4) {M : Entries d} {r : Option (Digest d)} {size : Nat} (k : Digest d)
    (h : Holds s M r size) :
    ∃ s', (do
        (TrieNode.newone fresh k).toDb
        KeyValueRootNode.set k
        KeyValueTrie.incSize
        pure true : TrieM d Bool) s = ⟨.ok true, s', []⟩ ∧
      Holds s' (Function.update M k (some ((Trie.leaf k).entry (leafMask d) none))) (some k)
        (size + 1) := by
  have hnew := shows_newone fresh k
  obtain ⟨s₁, hs₁, h₁⟩ := toDb_ok hd h (TrieNode.newone fresh k)
  obtain ⟨s₂, hs₂, h₂⟩ := rootSet_ok hd h₁ k
  rw [hnew.hash, hnew.view] at h₂
  refine ⟨{ s₂ with size := s₂.size + 1 }, ?_, h₂.failure, h₂.record, h₂.root, h₂.only, ?_⟩
  · rw [Prog.bind_of_ok hs₁, Prog.bind_of_ok hs₂]
    rfl
  · rw [h₂.size]

theorem add_none (hd : d ≠ 4) (fuel : Nat) (k : Digest d) (perf : Bool) (h : Stores s none) :
    ∃ s', KeyValueTrie.add hash fresh fuel k perf s = ⟨.ok true, s', []⟩ ∧
      Stores s' (some (.leaf k)) := by
  obtain ⟨s', hs', h'⟩ := add_root fresh hd k h
  refine ⟨s', ?_, h'.congr fun x => ?_⟩
  · unfold KeyValueTrie.add
    rw [Prog.tryCatch_of_error (Prog.bind_of_error (rootGet_error h) _), hs']
    rfl
  · by_cases hx : x = k
    · rw [hx, Function.update_self]
      simp [content]
    · rw [Function.update_of_ne hx]
      simp [content, hx]

/-- `insert` on the root is what `add` runs. -/
theorem add_of_insert {fuel : Nat} {k : Digest d} {perf : Bool} {root : TrieNode d}
    {Q : TrieState d → Prop} (hroot : KeyValueRootNode.get s = ⟨.ok root, s, []⟩)
    (h : Prog.Returns E (TrieNode.insert hash fuel fuel root (TrieNode.newone fresh k) perf) s
      fun b s' => b = true ∧ Q { s' with size := s'.size + 1 }) :
    Prog.Returns E (KeyValueTrie.add hash fresh fuel k perf) s fun b s' => b = true ∧ Q s' := by
  refine Prog.Returns.tryCatch (Prog.Returns.bind_of_eq hroot (Prog.Returns.bind h ?_))
  rintro _ s' ⟨rfl, hq⟩
  exact Prog.Returns.of_eq rfl ⟨rfl, hq⟩

theorem length_of_mem_iff {a b : List (Digest d)} {k : Digest d} (ha : a.Nodup) (hb : b.Nodup)
    (hk : k ∉ b) (h : ∀ x, x ∈ a ↔ x = k ∨ x ∈ b) : a.length = b.length + 1 := by
  have hperm : a.Perm (k :: b) :=
    (List.perm_ext_iff_of_nodup ha (List.nodup_cons.mpr ⟨hk, hb⟩)).mpr fun x => by
      rw [h, List.mem_cons]
  rw [hperm.length_eq, List.length_cons]

/-- The place at which `add` ends up: the key itself, or a node to be split. -/
theorem add_descends (hs : Separated hash.pair (Hashes E) K) {t : Trie (Digest d)} {k : Digest d}
    (h : Stores s (some t)) (ht : WellFormed hash E K t) (hk : K k) {fuel : Nat} (hfuel : 255 < fuel)
    (perf : Bool) :
    ∃ root, KeyValueRootNode.get s = ⟨.ok root, s, []⟩ ∧
      ((∃ k' ∈ t.keys, Agree Digest.bit (leafMask d) k' k ∧
          TrieNode.insert hash fuel fuel root (TrieNode.newone fresh k) perf s = onDuplicate s) ∨
        ∃ gs u this c, plug gs u = t ∧
          SplitsAt Digest.bit (leafMask d) hash.pair (Hashes E) K gs u k c ∧
          Shows this u.label (u.entry (leafMask d) (above gs)) ∧
          TrieNode.insert hash fuel fuel root (TrieNode.newone fresh k) perf s
            = (insertSplit hash fuel this (TrieNode.newone fresh k) perf >>= fun _ => pure true) s) := by
  have hn := ht.nodup hash hs
  obtain ⟨root, hroot, hsr⟩ := rootGet_ok h (content_label none t)
  have hmask : leafMask d < 256 := Nat.mod_lt _ (by omega)
  obtain ⟨gs, u, this, hgu, hsu, hlead, hres⟩ := insert_descends hash fuel perf t [] h hn ht.ordered
    hsr (show (TrieNode.newone fresh k).nodePrefix = k from rfl)
    (fun f hf => absurd hf List.not_mem_nil) (show leafMask d - t.len (leafMask d) < fuel by omega)
  have hplug : plug gs u = t := hgu
  refine ⟨root, hroot, ?_⟩
  rcases hres with ⟨k', rfl, ha, hrun⟩ | ⟨c, hc, ha, hdiff, hrun⟩
  · refine Or.inl ⟨k', ?_, ha, hrun⟩
    rw [← hplug, mem_keys_plug]
    exact Or.inl (Trie.mem_keys_leaf k')
  · have ho := ht.ordered
    have hp := ht.placed
    rw [← hplug] at ho hp
    obtain ⟨hframed, hfits⟩ := (ordered_plug gs u).mp ho
    exact Or.inr ⟨gs, u, this, c, hplug, ⟨hframed, hfits, hp, hk, hlead, hc, ha, hdiff⟩, hsu, hrun⟩

theorem hashed_split {u : Trie (Digest d)} {k : Digest d} {c : Nat}
    (hu : Hashed hash.pair (Hashes E) K u) (hk : K k)
    (hp : Hashes E ((splitFrame Digest.bit c u k).children u.label).1
      ((splitFrame Digest.bit c u k).children u.label).2) :
    Hashed hash.pair (Hashes E) K (split Digest.bit hash.pair c u k) := by
  rw [split_eq_rehash, hashed_rehash]
  exact ⟨hp, hu, hk⟩

theorem stores_succ {M : Entries d} {r : Option (Digest d)} {t t' : Trie (Digest d)} {k : Digest d}
    (ht : Ordered Digest.bit (leafMask d) t) (ht' : Ordered Digest.bit (leafMask d) t')
    (hk : k ∉ t.keys) (hmem : ∀ x, x ∈ t'.keys ↔ x = k ∨ x ∈ t.keys)
    (h : Holds s M r t.keys.length) :
    Holds { s with size := s.size + 1 } M r t'.keys.length := by
  refine ⟨h.failure, h.record, h.root, h.only, ?_⟩
  rw [length_of_mem_iff ht'.keys_nodup ht.keys_nodup hk hmem]
  show s.size + 1 = _
  rw [h.size]

/-- **One insertion.**  The new trie has the new key, and an up-to-date trie stays up to date. -/
theorem insert_new (hd : d ≠ 4) (hs : Separated hash.pair (Hashes E) K) {gs : List (Frame (Digest d))}
    {u : Trie (Digest d)} {k : Digest d} {c : Nat} {this root : TrieNode d} {fuel : Nat} {perf : Bool}
    (h : Stores s (some (plug gs u))) (ht : WellFormed hash E K (plug gs u))
    (hat : SplitsAt Digest.bit (leafMask d) hash.pair (Hashes E) K gs u k c)
    (hfuel : 255 < fuel)
    (hthis : Shows this u.label (u.entry (leafMask d) (above gs)))
    (hrun : TrieNode.insert hash fuel fuel root (TrieNode.newone fresh k) perf s
      = (insertSplit hash fuel this (TrieNode.newone fresh k) perf >>= fun _ => pure true) s)
    (hA₀ : Grants A E ((splitFrame Digest.bit c u k).children u.label).1
      ((splitFrame Digest.bit c u k).children u.label).2)
    (hA : Rehashed hash.pair (Grants A E) gs (split Digest.bit hash.pair c u k))
    (hm : perf = true → Hashes E ((splitFrame Digest.bit c u k).children u.label).1
        ((splitFrame Digest.bit c u k).children u.label).2 →
      Moves hash.pair (Hashes E) gs (split Digest.bit hash.pair c u k)) :
    Prog.Returns A (TrieNode.insert hash fuel fuel root (TrieNode.newone fresh k) perf) s fun b s' =>
      b = true ∧ ∃ t', Stores { s' with size := s'.size + 1 } (some t') ∧ WellFormed hash E K t' ∧
        (∀ x, x ∈ t'.keys ↔ x = k ∨ x ∈ (plug gs u).keys) ∧
        (perf = true → Hashed hash.pair (Hashes E) K (plug gs u) →
          Hashed hash.pair (Hashes E) K t') := by
  have hnode := shows_newone fresh k
  have hkn := hat.key_not_mem
  have hlen : gs.length < fuel := by
    have h1 := hat.fits.length_le hat.framed
    have h2 := hat.fits.ordered.len_le
    have h3 : leafMask d < 256 := Nat.mod_lt _ (by omega)
    omega
  apply Prog.Returns.congr hrun
  cases perf with
  | true =>
    apply Prog.Returns.bind (insertSplit_ok hash hd hs hlen h hthis hnode hat hA₀ hA (hm rfl))
    rintro _ s' ⟨hpair, hreh, hpl, h'⟩
    have ho' := ordered_rebuild hash.pair hat.framed (hat.fits_split (H := hash.pair))
    have hmem : ∀ x, x ∈ (rebuild hash.pair gs (split Digest.bit hash.pair c u k)).keys ↔
        x = k ∨ x ∈ (plug gs u).keys := fun x => by
      rw [mem_keys_rebuild, mem_keys_split, mem_keys_plug, or_assoc]
    refine Prog.Returns.pure ⟨rfl, _, stores_succ ht.ordered ho' hkn hmem h', ⟨ho', hpl⟩, hmem, ?_⟩
    exact fun _ hh => hreh.hashed hh (hashed_split hash hh.of_plug hat.key hpair)
  | false =>
    apply Prog.Returns.bind (insertSplit_lazy hash hd hs h hthis hnode hat hA₀)
    rintro _ s' ⟨hrw, h'⟩
    have hmem : ∀ x, x ∈ (plug (dirtyAbove gs) (split Digest.bit hash.pair c u k)).keys ↔
        x = k ∨ x ∈ (plug gs u).keys := fun x => by
      rw [mem_keys_dirtyAbove, mem_keys_plug, mem_keys_split, mem_keys_plug, or_assoc]
    exact Prog.Returns.pure ⟨rfl, _, stores_succ ht.ordered hrw.ordered_dirtyAbove hkn hmem h',
      ⟨hrw.ordered_dirtyAbove, hrw.placed_dirtyAbove⟩, hmem, fun hc => by cases hc⟩

/-- `add` of a new key. -/
theorem add_new (hd : d ≠ 4) (hs : Separated hash.pair (Hashes E) K) {gs : List (Frame (Digest d))}
    {u : Trie (Digest d)} {k : Digest d} {c : Nat} {this root : TrieNode d} {fuel : Nat} {perf : Bool}
    (h : Stores s (some (plug gs u))) (ht : WellFormed hash E K (plug gs u))
    (hat : SplitsAt Digest.bit (leafMask d) hash.pair (Hashes E) K gs u k c)
    (hfuel : 255 < fuel) (hroot : KeyValueRootNode.get s = ⟨.ok root, s, []⟩)
    (hthis : Shows this u.label (u.entry (leafMask d) (above gs)))
    (hrun : TrieNode.insert hash fuel fuel root (TrieNode.newone fresh k) perf s
      = (insertSplit hash fuel this (TrieNode.newone fresh k) perf >>= fun _ => pure true) s)
    (hA₀ : Grants A E ((splitFrame Digest.bit c u k).children u.label).1
      ((splitFrame Digest.bit c u k).children u.label).2)
    (hA : Rehashed hash.pair (Grants A E) gs (split Digest.bit hash.pair c u k))
    (hm : perf = true → Hashes E ((splitFrame Digest.bit c u k).children u.label).1
        ((splitFrame Digest.bit c u k).children u.label).2 →
      Moves hash.pair (Hashes E) gs (split Digest.bit hash.pair c u k)) :
    Prog.Returns A (KeyValueTrie.add hash fresh fuel k perf) s fun b s' => b = true ∧
      ∃ t', Stores s' (some t') ∧ WellFormed hash E K t' ∧
        (∀ x, x ∈ t'.keys ↔ x = k ∨ x ∈ (plug gs u).keys) ∧
        (perf = true → Hashed hash.pair (Hashes E) K (plug gs u) →
          Hashed hash.pair (Hashes E) K t') :=
  add_of_insert hash fresh hroot (insert_new hash fresh hd hs h ht hat hfuel hthis hrun hA₀ hA hm)

/-! ## Removing -/

theorem remove_none (fuel : Nat) (k : Digest d) (perf : Bool) (h : Stores s none) :
    KeyValueTrie.remove hash fuel k perf s = ⟨.ok false, s, []⟩ := by
  unfold KeyValueTrie.remove
  rw [Prog.tryCatch_of_error (Prog.bind_of_error (rootGet_error h) _)]
  rfl

/-- The hash of an inner node is not a leaf. -/
theorem erase_inner (fuel : Nat) {k : Digest d} (perf : Bool) {n : TrieNode d}
    (hload : TrieNode.load k s = ⟨.ok n, s, []⟩) (hn : n.hasChildren = true) :
    TrieNode.erase hash fuel k perf s = ⟨.error (.dbTrieException "This node is not a leaf"), s, []⟩ := by
  have herase : eraseNode hash fuel k perf s
      = ⟨.error (.dbTrieException "This node is not a leaf"), s, []⟩ := by
    unfold eraseNode
    rw [Prog.bind_of_ok hload, hn, if_pos rfl]
    rfl
  unfold TrieNode.erase
  rw [Prog.tryCatch_of_error (Prog.bind_of_error herase _)]
  rfl

/-- A hash that is not stored. -/
theorem erase_missing {M : Entries d} {r : Option (Digest d)} {size : Nat} (fuel : Nat) {k : Digest d}
    (perf : Bool) (h : Holds s M r size) (hk : M k = none) :
    TrieNode.erase hash fuel k perf s = ⟨.ok false, s, []⟩ := by
  have herase : eraseNode hash fuel k perf s = ⟨.error .trieNodeNotFound, s, []⟩ := by
    unfold eraseNode
    rw [Prog.bind_of_error (load_error h hk)]
  unfold TrieNode.erase
  rw [Prog.tryCatch_of_error (Prog.bind_of_error herase _)]
  rfl

theorem remove_absent (hs : Separated hash.pair (Hashes E) K) {t : Trie (Digest d)} (fuel : Nat)
    {k : Digest d} (perf : Bool) (h : Stores s (some t)) (ht : WellFormed hash E K t)
    (hk : k ∉ t.keys) : KeyValueTrie.remove hash fuel k perf s = ⟨.ok false, s, []⟩ := by
  obtain ⟨root, hroot, _⟩ := rootGet_ok h (content_label none t)
  unfold KeyValueTrie.remove
  by_cases hl : k ∈ t.labels
  · obtain ⟨fs, u, rfl, rfl⟩ := exists_plug_of_mem_labels hl
    obtain ⟨n, hload, hn⟩ := load_ok h (content_plug_label fs u (ht.nodup hash hs))
    cases u with
    | leaf k' => exact absurd ((mem_keys_plug fs _ k').mpr (Or.inl (Trie.mem_keys_leaf k'))) hk
    | node lab p m st l g =>
      have hcatch := erase_inner hash fuel perf hload hn.hasChildren
      rw [Prog.tryCatch_of_error (by rw [Prog.bind_of_ok hroot, Prog.bind_of_error hcatch]; rfl)]
      rfl
  · have hcatch := erase_missing hash fuel perf h ((content_eq_none_iff none t k).mpr hl)
    have hsize : s.size ≠ 0 := by
      rw [show s.size = t.keys.length from Holds.size h]
      exact fun he => t.keys_ne_nil (List.length_eq_zero_iff.mp he)
    refine Prog.tryCatch_of_ok ?_ _
    rw [Prog.bind_of_ok hroot, Prog.bind_of_ok hcatch]
    simp [Prog.bind_apply, KeyValueTrie.getSize, hsize]

/-- What `remove` does after `erase` has taken a key out of a larger trie. -/
theorem remove_of_erase {fuel : Nat} {k : Digest d} {perf : Bool} {root : TrieNode d}
    {Q : TrieState d → Prop} (hroot : KeyValueRootNode.get s = ⟨.ok root, s, []⟩)
    (h : Prog.Returns E (eraseNode hash fuel k perf) s
      fun _ s' => 2 ≤ s'.size ∧ Q { s' with size := s'.size - 1 }) :
    Prog.Returns E (KeyValueTrie.remove hash fuel k perf) s fun b s' => b = true ∧ Q s' := by
  have hcatch : Prog.Returns E (TrieNode.erase hash fuel k perf) s
      fun b s' => b = true ∧ 2 ≤ s'.size ∧ Q { s' with size := s'.size - 1 } :=
    Prog.Returns.tryCatch (Prog.Returns.bind h fun _ s' hq => Prog.Returns.pure ⟨rfl, hq⟩)
  refine Prog.Returns.tryCatch (Prog.Returns.bind_of_eq hroot (Prog.Returns.bind hcatch ?_))
  rintro _ s' ⟨rfl, hsize, hq⟩
  have h0 : s'.size ≠ 0 := by omega
  have h1 : s'.size - 1 ≠ 0 := by omega
  have hdec : (KeyValueTrie.decSize : TrieM d Unit) s' = ⟨.ok (), { s' with size := s'.size - 1 }, []⟩ := by
    simp [KeyValueTrie.decSize, h0]
  have hget : (KeyValueTrie.getSize : TrieM d Nat) { s' with size := s'.size - 1 }
      = ⟨.ok (s'.size - 1), { s' with size := s'.size - 1 }, []⟩ := rfl
  rw [if_pos rfl]
  refine Prog.Returns.bind_of_eq hdec (Prog.Returns.bind_of_eq hget ?_)
  rw [if_neg h1]
  exact Prog.Returns.of_eq rfl ⟨rfl, hq⟩

/-- The records of a leaf and its parent, as `erase` loads them. -/
theorem load_leaf (hs : Separated hash.pair (Hashes E) K) {fs : List (Frame (Digest d))} {k : Digest d}
    (h : Stores s (some (plug fs (.leaf k)))) (ht : WellFormed hash E K (plug fs (.leaf k))) :
    ∃ n, TrieNode.load k s = ⟨.ok n, s, []⟩ ∧
      Shows n k ((Trie.leaf k).entry (leafMask d) (above fs)) :=
  load_ok h (content_plug_label fs (.leaf k) (ht.nodup hash hs))

theorem load_parent (hs : Separated hash.pair (Hashes E) K) {p : Frame (Digest d)}
    {fs : List (Frame (Digest d))} {t : Trie (Digest d)} (h : Stores s (some (plug (p :: fs) t)))
    (ht : WellFormed hash E K (plug (p :: fs) t)) :
    ∃ n, TrieNode.load p.label s = ⟨.ok n, s, []⟩ ∧
      Shows n p.label ((p.fill t).entry (leafMask d) (above fs)) := by
  have hlab := content_plug_label (w := leafMask d) fs (p.fill t) (ht.nodup hash hs)
  rw [Frame.label_fill] at hlab
  exact load_ok h hlab

theorem erase_lone (hd : d ≠ 4) (fuel : Nat) (k : Digest d) (perf : Bool)
    (h : Stores s (some (.leaf k))) :
    ∃ s', TrieNode.erase hash fuel k perf s = ⟨.ok true, s', []⟩ ∧ s'.size = 1 ∧
      s'.storage.failure = none := by
  obtain ⟨n, hload, hn⟩ := load_ok h (show content (leafMask d) none (.leaf k) k = _ from
    content_label none (.leaf k))
  obtain ⟨s₁, hs₁, h₁⟩ := rootDel_ok hd h
  obtain ⟨s₂, hs₂, h₂⟩ := deleteFromDb_ok hd h₁ n
  have hch : n.hasChildren = false := hn.hasChildren
  have hpar : n.hasParent = false := hn.hasParent
  have herase : eraseNode hash fuel k perf s = ⟨.ok (), s₂, []⟩ := by
    unfold eraseNode
    rw [Prog.bind_of_ok hload, hch, hpar]
    simp only [Bool.false_eq_true, if_false, Bool.not_false, if_true]
    rw [Prog.bind_of_ok hs₁, hs₂]
    rfl
  refine ⟨s₂, ?_, h₂.size, h₂.failure⟩
  unfold TrieNode.erase
  refine Prog.tryCatch_of_ok ?_ _
  rw [Prog.bind_of_ok herase]
  rfl

theorem remove_lone (hd : d ≠ 4) (fuel : Nat) (k : Digest d) (perf : Bool)
    (h : Stores s (some (.leaf k))) :
    ∃ s', KeyValueTrie.remove hash fuel k perf s = ⟨.ok true, s', []⟩ ∧ Stores s' none := by
  obtain ⟨root, hroot, _⟩ := rootGet_ok h (content_label none (.leaf k))
  obtain ⟨s₂, hcatch, hsize, hfail⟩ := erase_lone hash hd fuel k perf h
  obtain ⟨s₃, hs₃, h₃⟩ := clear_ok (s := ({ s₂ with size := 0 } : TrieState d)) hfail
  refine ⟨s₃, ?_, h₃⟩
  unfold KeyValueTrie.remove
  refine Prog.tryCatch_of_ok ?_ _
  rw [Prog.bind_of_ok hroot, Prog.bind_of_ok hcatch]
  simp [Prog.bind_apply, KeyValueTrie.getSize, KeyValueTrie.decSize, hsize, hs₃]

/-- The frames that get new labels when the path below them changes. -/
def movedFrames (perf : Bool) (g : Frame (Digest d)) (gs : List (Frame (Digest d))) :
    List (Frame (Digest d)) := if perf then g :: gs else [g]

/-- The trie after the leaf below `p` is gone, whose sibling hangs below `g` now. -/
def collapsed (hash : CryptoHash d) (perf : Bool) (p g : Frame (Digest d))
    (gs : List (Frame (Digest d))) : Trie (Digest d) :=
  if perf then rebuild hash.pair (g :: gs) p.other
  else plug (dirtyAbove gs) (g.rehash hash.pair p.other)

theorem mem_keys_collapsed (perf : Bool) (p g : Frame (Digest d)) (gs : List (Frame (Digest d)))
    (x : Digest d) :
    x ∈ (collapsed hash perf p g gs).keys ↔ x ∈ p.other.keys ∨ ∃ f ∈ g :: gs, x ∈ f.other.keys := by
  unfold collapsed
  split
  · rw [mem_keys_rebuild]
  · rw [mem_keys_dirtyAbove, mem_keys_plug, Frame.mem_keys_rehash]
    simp [or_assoc]

theorem mem_keys_plug_leaf {fs : List (Frame (Digest d))} {k : Digest d}
    (ho : Ordered Digest.bit (leafMask d) (plug fs (.leaf k))) (x : Digest d) :
    (∃ f ∈ fs, x ∈ f.other.keys) ↔ x ∈ (plug fs (.leaf k)).keys ∧ x ≠ k := by
  have hframed := ((ordered_plug fs _).mp ho).1
  have hlead := ((ordered_plug fs _).mp ho).2.leads k (Trie.mem_keys_leaf k)
  rw [mem_keys_plug]
  constructor
  · rintro ⟨f, hf, hx⟩
    refine ⟨Or.inr ⟨f, hf, hx⟩, ?_⟩
    rintro rfl
    exact leaves_of_framed hframed f hf x hx hlead
  · rintro ⟨hx | hx, hne⟩
    · exact absurd (by simpa [Trie.keys] using hx) hne
    · exact hx

theorem stores_pred {M : Entries d} {r : Option (Digest d)} {t t' : Trie (Digest d)} {k : Digest d}
    (ht : Ordered Digest.bit (leafMask d) t) (ht' : Ordered Digest.bit (leafMask d) t')
    (hk : k ∈ t.keys) (hmem : ∀ x, x ∈ t'.keys ↔ x ∈ t.keys ∧ x ≠ k)
    (h : Holds s M r t.keys.length) :
    2 ≤ s.size ∧ Holds { s with size := s.size - 1 } M r t'.keys.length := by
  have hlen : t.keys.length = t'.keys.length + 1 := by
    apply length_of_mem_iff ht.keys_nodup ht'.keys_nodup (fun hc => ((hmem k).mp hc).2 rfl)
    intro x
    by_cases hx : x = k
    · simp [hx, hk]
    · simp [hx, hmem]
  have hpos : t'.keys.length ≠ 0 := fun he => t'.keys_ne_nil (List.length_eq_zero_iff.mp he)
  have hsize := h.size
  refine ⟨by omega, h.failure, h.record, h.root, h.only, ?_⟩
  show s.size - 1 = _
  omega

/-- **One deletion**, of a key that is not the only one. -/
theorem erase_present (hd : d ≠ 4) (hs : Separated hash.pair (Hashes E) K) {p : Frame (Digest d)}
    {fs : List (Frame (Digest d))} {k : Digest d} {fuel : Nat} {perf : Bool}
    (h : Stores s (some (plug (p :: fs) (.leaf k)))) (ht : WellFormed hash E K (plug (p :: fs) (.leaf k)))
    (hfuel : 255 < fuel)
    (hm : ∀ g gs, fs = g :: gs → Moves hash.pair (Hashes E) (movedFrames perf g gs) p.other) :
    Prog.Returns E (eraseNode hash fuel k perf) s fun _ s' => 2 ≤ s'.size ∧
      ∃ t', Stores { s' with size := s'.size - 1 } t' ∧ (∀ u, t' = some u → WellFormed hash E K u) ∧
        (∀ x, x ∈ keysOf t' ↔ x ∈ (plug (p :: fs) (.leaf k)).keys ∧ x ≠ k) ∧
        (perf = true → Hashed hash.pair (Hashes E) K (plug (p :: fs) (.leaf k)) →
          ∀ u, t' = some u → Hashed hash.pair (Hashes E) K u) := by
  have hkeys := fun x => mem_keys_plug_leaf ht.ordered x
  have hk : k ∈ (plug (p :: fs) (.leaf k)).keys :=
    (mem_keys_plug (p :: fs) _ k).mpr (Or.inl (Trie.mem_keys_leaf k))
  obtain ⟨n, hload, hn⟩ := load_leaf hash hs h ht
  have hch : n.hasChildren = false := hn.hasChildren
  have hpar : n.hasParent = true := by rw [hn.hasParent, Trie.entry_parent]; rfl
  rcases fs with _ | ⟨g, gs⟩
  · -- a child of the root
    obtain ⟨np, hlp, hsp⟩ := load_parent hash hs h ht
    have hpp : np.hasParent = false := by rw [hsp.hasParent, Trie.entry_parent]; rfl
    obtain ⟨s', hs', h'⟩ := eraseUnderRoot_ok hash hd hs h hn.hash hsp ht.ordered ht.placed
    have herase : eraseNode hash fuel k perf s = ⟨.ok (), s', []⟩ := by
      unfold eraseNode
      rw [Prog.bind_of_ok hload, hch, hpar,
        hn.getParent (Trie.entry_parent _ _)]
      simp only [Bool.false_eq_true, if_false, Bool.not_true]
      rw [Prog.bind_of_ok hlp, hpp]
      simp only [Bool.not_false, if_true]
      rw [hs']
      rfl
    have hoth : ∀ x, x ∈ p.other.keys ↔ x ∈ (plug [p] (.leaf k)).keys ∧ x ≠ k := fun x => by
      rw [← hkeys]
      simp
    have ho := (((ordered_plug [p] _).mp ht.ordered).1).2.1
    obtain ⟨hsize, hstore⟩ := stores_pred ht.ordered ho hk hoth h'
    refine Prog.Returns.of_eq herase ⟨hsize, some p.other, hstore, ?_, hoth, ?_⟩
    · rintro u ⟨⟩
      exact ⟨ho, (Placed.other_of_plug (show Placed _ _ _ _ K (plug [p] (.leaf k)) from ht.placed)).2.2⟩
    · rintro _ hh u ⟨⟩
      exact ((hashed_fill p _).mp hh).2.2.2.2
  · -- its sibling goes to its grandparent
    obtain ⟨np, hlp, hsp⟩ := load_parent hash hs h ht
    have hpp : np.hasParent = true := by rw [hsp.hasParent, Trie.entry_parent]; rfl
    have hrun : eraseNode hash fuel k perf s = eraseUnderGrandparent hash fuel n np perf s := by
      unfold eraseNode
      rw [Prog.bind_of_ok hload, hch, hpar,
        hn.getParent (Trie.entry_parent _ _)]
      simp only [Bool.false_eq_true, if_false, Bool.not_true]
      rw [Prog.bind_of_ok hlp, hpp]
      rfl
    have hmem : ∀ x, x ∈ (collapsed hash perf p g gs).keys ↔
        x ∈ (plug (p :: g :: gs) (.leaf k)).keys ∧ x ≠ k := fun x => by
      rw [mem_keys_collapsed, ← hkeys]
      simp
    have hrw := Rewriting.of_collapse hs ht.ordered ht.placed
    have hlen : gs.length < fuel := by
      have h1 := ((ordered_plug (p :: g :: gs) (.leaf k)).mp ht.ordered).2.length_le
        ((ordered_plug (p :: g :: gs) (.leaf k)).mp ht.ordered).1
      have h3 : leafMask d < 256 := Nat.mod_lt _ (by omega)
      simp only [List.length_cons, Trie.len] at h1
      omega
    have hmv := hm g gs rfl
    -- the result, once the new trie is known to be stored and in its place
    have hdone : ∀ s', Placed Digest.bit (leafMask d) hash.pair (Hashes E) K
          (collapsed hash perf p g gs) → Ordered Digest.bit (leafMask d) (collapsed hash perf p g gs) →
        (perf = true → Rehashed hash.pair (Hashes E) (g :: gs) p.other) →
        Holds s' (content (leafMask d) none (collapsed hash perf p g gs))
          (some (collapsed hash perf p g gs).label) (plug (p :: g :: gs) (.leaf k)).keys.length →
        2 ≤ s'.size ∧ ∃ t', Stores { s' with size := s'.size - 1 } t' ∧
          (∀ u, t' = some u → WellFormed hash E K u) ∧
          (∀ x, x ∈ keysOf t' ↔ x ∈ (plug (p :: g :: gs) (.leaf k)).keys ∧ x ≠ k) ∧
          (perf = true → Hashed hash.pair (Hashes E) K (plug (p :: g :: gs) (.leaf k)) →
            ∀ u, t' = some u → Hashed hash.pair (Hashes E) K u) := by
      intro s' hpl ho hreh h'
      obtain ⟨hsize, hstore⟩ := stores_pred ht.ordered ho hk hmem h'
      refine ⟨hsize, some _, hstore, ?_, hmem, ?_⟩
      · rintro u ⟨⟩
        exact ⟨ho, hpl⟩
      · rintro hp hh u ⟨⟩
        unfold collapsed
        rw [if_pos hp]
        have hpo : Hashed hash.pair (Hashes E) K (plug (g :: gs) (p.fill (.leaf k))) := hh
        exact (hreh hp).hashed hpo ((hashed_fill p _).mp (Hashed.of_plug hpo)).2.2.2.2
    apply Prog.Returns.congr hrun
    cases perf with
    | true =>
      refine Prog.Returns.mono (eraseUnderGrandparent_ok hash true (Or.inl rfl) hd hs hlen h hn.hash hsp
        ht.ordered ht.placed hmv) ?_
      rintro _ s' ⟨hreh, hpl, h'⟩
      exact hdone s' hpl (ordered_rebuild hash.pair hrw.framed hrw.new) (fun _ => hreh) h'
    | false =>
      cases gs with
      | nil =>
        refine Prog.Returns.mono (eraseUnderGrandparent_ok hash false (Or.inr rfl) hd hs hlen h hn.hash hsp
          ht.ordered ht.placed hmv) ?_
        rintro _ s' ⟨_, hpl, h'⟩
        exact hdone s' hpl (ordered_rebuild hash.pair hrw.framed hrw.new) (fun hc => by cases hc) h'
      | cons f gs =>
        refine Prog.Returns.mono (eraseUnderGrandparent_lazy hash hd hs h hn.hash hsp ht.ordered ht.placed
          fun hp => (hmv hp).1) ?_
        rintro _ s' ⟨hrw', h'⟩
        apply hdone s' hrw'.placed_dirtied hrw'.ordered_dirtied (fun hc => by cases hc)
        have hlab : (plug (f.dirtied :: gs) (g.rehash hash.pair p.other)).label
            = (plug (p :: g :: f :: gs) (.leaf k)).label :=
          label_plug_cons f.dirtied f gs _ (g.fill (p.fill (.leaf k))) rfl
        show Holds s' _ (some (plug (f.dirtied :: gs) (g.rehash hash.pair p.other)).label) _
        rw [hlab]
        exact h'

/-- `remove` of a key. -/
theorem remove_present (hd : d ≠ 4) (hs : Separated hash.pair (Hashes E) K)
    {fs : List (Frame (Digest d))} {k : Digest d} {fuel : Nat} {perf : Bool}
    (h : Stores s (some (plug fs (.leaf k)))) (ht : WellFormed hash E K (plug fs (.leaf k)))
    (hfuel : 255 < fuel)
    (hm : ∀ p g gs, fs = p :: g :: gs →
      Moves hash.pair (Hashes E) (movedFrames perf g gs) p.other) :
    Prog.Returns E (KeyValueTrie.remove hash fuel k perf) s fun b s' => b = true ∧
      ∃ t', Stores s' t' ∧ (∀ u, t' = some u → WellFormed hash E K u) ∧
        (∀ x, x ∈ keysOf t' ↔ x ∈ (plug fs (.leaf k)).keys ∧ x ≠ k) ∧
        (perf = true → Hashed hash.pair (Hashes E) K (plug fs (.leaf k)) →
          ∀ u, t' = some u → Hashed hash.pair (Hashes E) K u) := by
  cases fs with
  | nil =>
    -- the only key
    obtain ⟨s', hs', h'⟩ := remove_lone hash hd fuel k perf h
    refine Prog.Returns.of_eq hs' ⟨rfl, none, h', by simp, fun x => ?_, by simp⟩
    rw [← mem_keys_plug_leaf ht.ordered]
    simp [keysOf]
  | cons p fs =>
    obtain ⟨root, hroot, _⟩ := rootGet_ok h (content_label none _)
    apply remove_of_erase hash hroot
    exact erase_present hash hd hs h ht hfuel fun g gs hfs => hm p g gs (by rw [hfs])

end SetSync
