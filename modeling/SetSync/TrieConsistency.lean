import SetSync.TrieRefinement

/-!
# The consistency errors of the trie

`add` and `remove` catch every exception: `add` makes the key the root then, `remove` returns false.
In a run neither happens for a reason that is not there by design.

    insert     returns on every key                                            (insert_returns)
    erase      returns on every key that is not the hash of an inner node       (erase_returns)
    add        comes to its catch block on the empty trie only
                                                              (consistency_errors_unreachable)
-/

namespace SetSync

open Program BitTrie

variable {d : Nat}

namespace KeyValueTrie

variable (hash : CryptoHash d) (fresh : Digest d) (fuel : Nat)

/-- The `try` block of `add`. -/
def addTry (key : Digest d) (performhash : Bool) : TrieM d Bool := do
  let root ← KeyValueRootNode.get
  let inserted ← TrieNode.insert hash fuel fuel root (TrieNode.newone fresh key) performhash
  if inserted then
    incSize
    pure inserted
  else pure inserted

/-- The `catch` block of `add`. -/
def addCatch (key : Digest d) : TrieM d Bool := do
  (TrieNode.newone fresh key).toDb
  KeyValueRootNode.set key
  incSize
  pure true

theorem add_eq_try (key : Digest d) (performhash : Bool) : add hash fresh fuel key performhash
    = tryCatch (addTry hash fresh fuel key performhash) fun _ => addCatch fresh key := rfl

end KeyValueTrie

section Step

variable {hash : CryptoHash d} (fresh : Digest d) {E : Digest d × Digest d → Prop}
  {K : Digest d → Prop} {s : TrieState d} {S : Finset (Digest d)} {fuel : Nat}

theorem insert_returns (hd : d ≠ 4) (hw : 8 * d < 256) (hs : Separated hash.pair (Hashes E) K)
    (hfuel : 255 < fuel) {k : Digest d} (hk : K k) {t : Trie (Digest d)}
    (h : Represents hash E K s S (some t)) :
    ∃ root, KeyValueRootNode.get s = ⟨.ok root, s, []⟩ ∧
      Prog.Returns E (TrieNode.insert hash fuel fuel root (TrieNode.newone fresh k) true) s
        fun b _ => b = decide (k ∉ S) := by
  have ht := h.wellFormed t rfl
  by_cases hS : k ∈ S
  · obtain ⟨root, hroot, hrun⟩ := insert_duplicate fresh hs hfuel true hk h.stores ht
      ((h.keys k).mpr hS) (Agree.refl (leafMask d) k)
    rw [onDuplicate, if_pos hw] at hrun
    exact ⟨root, hroot, Prog.Returns.of_eq hrun (by simp [hS])⟩
  · obtain ⟨root, hroot, hplace⟩ := add_descends hash fresh hs h.stores ht hk hfuel true
    refine ⟨root, hroot, ?_⟩
    rcases hplace with ⟨k', hk', ha, _⟩ | ⟨gs, u, this, c, rfl, hat, hsu, hrun⟩
    · have hkk : k' = k := Digest.eq_of_bits fun i hi => ha i (by rw [leafMask_eq hw]; exact hi)
      exact absurd ((h.keys k').mp hk') (hkk ▸ hS)
    · refine Prog.Returns.mono (insert_new hash fresh hd hs h.stores ht hat hfuel hsu hrun id
        (granted_self hash gs _) fun _ hpair => moves_of_split hs (h.hashed _ rfl) hat hpair) ?_
      rintro b s' ⟨rfl, -⟩
      simp [hS]

/-- On a trie with a key, the `try` block of `add` returns. -/
theorem addTry_returns (hd : d = 16 ∨ d = 20 ∨ d = 28) (hs : Separated hash.pair (Hashes E) K)
    (hfuel : 255 < fuel) {k : Digest d} (hk : K k) {t : Trie (Digest d)}
    (h : Represents hash E K s S (some t)) :
    Prog.Returns E (KeyValueTrie.addTry hash fresh fuel k true) s fun _ _ => True := by
  obtain ⟨hd4, hw⟩ := narrow_digest hd
  obtain ⟨root, hroot, hinsert⟩ := insert_returns fresh hd4 hw hs hfuel hk h
  apply Prog.Returns.bind_of_eq hroot
  apply Prog.Returns.bind hinsert
  intro inserted s₁ _
  cases inserted with
  | false => exact Prog.Returns.pure trivial
  | true => exact Prog.Returns.of_eq rfl trivial

theorem erase_returns (hd : d ≠ 4) (hs : Separated hash.pair (Hashes E) K) (hfuel : 255 < fuel)
    {k : Digest d} {t : Option (Trie (Digest d))} (h : Represents hash E K s S t)
    (hinner : (KeyValueTrie.contains k s).outcome ≠ .ok .INNER_NODE) :
    Prog.Returns E (TrieNode.erase hash fuel k true) s fun b _ => b = decide (k ∈ S) := by
  cases t with
  | none =>
    have hS : k ∉ S := fun hkS => List.not_mem_nil ((h.keys k).mpr hkS)
    exact Prog.Returns.of_eq (erase_missing hash fuel true h.stores rfl) (by simp [hS])
  | some t =>
    have ht := h.wellFormed t rfl
    by_cases hk : k ∈ t.keys
    · have hS : k ∈ S := (h.keys k).mp hk
      obtain ⟨fs, rfl⟩ := exists_plug_of_mem_keys hk
      cases fs with
      | nil =>
        obtain ⟨s', hs', -⟩ := erase_lone hash hd fuel k true h.stores
        exact Prog.Returns.of_eq hs' (by simp [hS])
      | cons p fs =>
        refine Prog.Returns.tryCatch (Prog.Returns.bind
          (erase_present hash hd hs h.stores ht hfuel ?_) fun _ s' _ => Prog.Returns.pure ?_)
        · rintro g gs rfl
          exact moves_of_removal hs ht.ordered (h.hashed _ rfl)
        · simp [hS]
    · have hS : k ∉ S := fun hkS => hk ((h.keys k).mpr hkS)
      have hl : k ∉ t.labels := by
        intro hl
        apply hinner
        rw [contains_ok hash k h.stores hs ht, if_neg hk, if_pos hl]
      exact Prog.Returns.of_eq
        (erase_missing hash fuel true h.stores ((content_eq_none_iff none t k).mpr hl)) (by simp [hS])

/-! The pairs that a part of a call hashes are among those of the call. -/

theorem addTry_events (k : Digest d) : (KeyValueTrie.addTry hash fresh fuel k true s).events
    ⊆ ((SetOp.add k).exec hash fresh fuel s).events := by
  refine List.Subset.trans ?_ (Prog.bind_head_events _ _ s)
  rw [KeyValueTrie.add_eq_try]
  exact Prog.tryCatch_events _ _ s

theorem insert_events {k : Digest d} {root : TrieNode d}
    (hroot : KeyValueRootNode.get s = ⟨.ok root, s, []⟩) :
    (TrieNode.insert hash fuel fuel root (TrieNode.newone fresh k) true s).events
      ⊆ (KeyValueTrie.addTry hash fresh fuel k true s).events := by
  unfold KeyValueTrie.addTry
  rw [Prog.bind_of_ok hroot]
  exact Prog.bind_head_events _ _ s

theorem erase_events {k : Digest d} {root : TrieNode d}
    (hroot : KeyValueRootNode.get s = ⟨.ok root, s, []⟩) :
    (TrieNode.erase hash fuel k true s).events
      ⊆ ((SetOp.remove k).exec hash fresh fuel s).events := by
  refine List.Subset.trans ?_ (Prog.bind_head_events _ _ s)
  unfold KeyValueTrie.remove
  refine List.Subset.trans ?_ (Prog.tryCatch_events _ _ s)
  rw [Prog.bind_of_ok hroot]
  exact Prog.bind_head_events _ _ s

end Step

/-! ## Runs -/

section Runs

variable (hash : CryptoHash d) (fresh : Digest d) (fuel : Nat)

/-- No collision in a run, and no key that is the hash of an inner node. -/
def Unclashed (ops : List (SetOp (Digest d))) : Prop :=
  CollisionFree hash (runTrie hash fresh fuel ops).events ∧
    KeysFresh hash (addedKeys ops) (runTrie hash fresh fuel ops).events

variable {hash fresh fuel}

/-- The state before a call, in terms of all child pairs. -/
theorem Unclashed.represents (hd : d = 16 ∨ d = 20 ∨ d = 28) (hfuel : 255 < fuel)
    {ops : List (SetOp (Digest d))} {op : SetOp (Digest d)}
    (h : Unclashed hash fresh fuel (ops ++ [op])) :
    ∃ E K, Separated hash.pair (Hashes E) K ∧ (∀ k ∈ addedKeys [op], K k) ∧
      (∀ x ∈ (op.exec hash fresh fuel (runTrie hash fresh fuel ops).state).events, E x) ∧
      ∃ t, Represents hash E K (runTrie hash fresh fuel ops).state (setRun ∅ ops).2 t := by
  obtain ⟨hc, hk⟩ := h
  have hkeys : addedKeys ops ⊆ addedKeys (ops ++ [op]) := by
    rw [addedKeys_append]
    exact List.subset_append_left _ _
  obtain ⟨ho, ht⟩ := runTrie_represents hash fresh hd hfuel hc hk hkeys
    (Prog.each_events_subset ops [op] _)
  refine ⟨_, _, separated_of_collisionFree hc hk, fun k hmem => ?_, ?_, ht⟩
  · rw [addedKeys_append]
    exact List.mem_append_right _ hmem
  · rcases hrun : runTrie hash fresh fuel ops with ⟨o, s, l⟩
    rw [hrun] at ho
    subst ho
    exact fun x hx => Prog.next_events_subset hrun op hx

/-- **The consistency errors are unreachable.** -/
theorem consistency_errors_unreachable (hash : CryptoHash d) (fresh : Digest d) {fuel : Nat}
    (hd : d = 16 ∨ d = 20 ∨ d = 28) (hfuel : 255 < fuel) (ops : List (SetOp (Digest d))) :
    (∀ k, Unclashed hash fresh fuel (ops ++ [.add k]) →
      (∀ root, (KeyValueRootNode.get (runTrie hash fresh fuel ops).state).outcome = .ok root →
        (TrieNode.insert hash fuel fuel root (TrieNode.newone fresh k) true
          (runTrie hash fresh fuel ops).state).outcome = .ok (decide (k ∉ (setRun ∅ ops).2))) ∧
      ((∃ e, (KeyValueTrie.addTry hash fresh fuel k true
          (runTrie hash fresh fuel ops).state).outcome = .error e) ↔ (setRun ∅ ops).2 = ∅)) ∧
    (∀ k, Unclashed hash fresh fuel (ops ++ [.remove k]) →
      (KeyValueTrie.contains k (runTrie hash fresh fuel ops).state).outcome ≠ .ok .INNER_NODE →
      (TrieNode.erase hash fuel k true (runTrie hash fresh fuel ops).state).outcome
        = .ok (decide (k ∈ (setRun ∅ ops).2))) := by
  obtain ⟨hd4, hw⟩ := narrow_digest hd
  constructor
  · intro k h
    obtain ⟨E, K, hs, hk, hE, t, ht⟩ := h.represents hd hfuel
    generalize (runTrie hash fresh fuel ops).state = s at hE ht ⊢
    generalize (setRun ∅ ops).2 = S at ht ⊢
    cases t with
    | none =>
      -- the empty trie: there is no root
      have hS : S = ∅ := ht.eq_empty_iff.mpr rfl
      have hget := rootGet_error ht.stores
      constructor
      · intro root hroot
        rw [hget] at hroot
        cases hroot
      · refine iff_of_true ⟨.trieRootNotFound, ?_⟩ hS
        unfold KeyValueTrie.addTry
        rw [Prog.bind_of_error hget]
    | some t =>
      obtain ⟨root, hroot, hins⟩ := insert_returns fresh hd4 hw hs hfuel (hk k List.mem_cons_self) ht
      have hblock : ∀ x ∈ (KeyValueTrie.addTry hash fresh fuel k true s).events, E x :=
        fun x hx => hE x (addTry_events fresh k hx)
      obtain ⟨b, ho, rfl⟩ := hins fun x hx => hblock x (insert_events fresh hroot hx)
      have hne : S ≠ ∅ := by
        rw [ne_eq, ht.eq_empty_iff]
        exact Option.some_ne_none t
      constructor
      · intro root' hroot'
        rw [hroot] at hroot'
        cases hroot'
        exact ho
      · apply iff_of_false _ hne
        rintro ⟨e, he⟩
        obtain ⟨_, hreturns, -⟩ := addTry_returns fresh hd hs hfuel (hk k List.mem_cons_self) ht hblock
        rw [he] at hreturns
        cases hreturns
  · intro k h hinner
    obtain ⟨E, K, hs, hk, hE, t, ht⟩ := h.represents hd hfuel
    generalize (runTrie hash fresh fuel ops).state = s at hE ht hinner ⊢
    generalize (setRun ∅ ops).2 = S at ht ⊢
    cases t with
    | none =>
      have hS : k ∉ S := fun hkS => List.not_mem_nil ((ht.keys k).mpr hkS)
      rw [erase_missing hash fuel true ht.stores rfl]
      simp [hS]
    | some t =>
      obtain ⟨root, hroot, -⟩ := rootGet_ok ht.stores (content_label none t)
      obtain ⟨b, ho, rfl⟩ := erase_returns hd4 hs hfuel ht hinner fun x hx =>
        hE x (erase_events fresh hroot hx)
      exact ho

end Runs

/-- A run that adds two keys. -/
def twoKeyOps : List (SetOp (Digest 16)) := [.add (byteKey 16 1), .add (byteKey 16 2)]

theorem consistency_errors_sample :
    (TrieNode.erase (mixHash 16) 256 (byteKey 16 2) true
      (runTrie (mixHash 16) (byteKey 16 0) 256 twoKeyOps).state).outcome
        = .ok (decide (byteKey 16 2 ∈ (setRun ∅ twoKeyOps).2)) ∧
    ((∃ e, (KeyValueTrie.addTry (mixHash 16) (byteKey 16 0) 256 (byteKey 16 4) true
      (runTrie (mixHash 16) (byteKey 16 0) 256 twoKeyOps).state).outcome = .error e) ↔
        (setRun ∅ twoKeyOps).2 = ∅) := by
  have h := consistency_errors_unreachable (mixHash 16) (byteKey 16 0) (Or.inl rfl)
    (show 255 < 256 by decide) twoKeyOps
  exact ⟨h.2 (byteKey 16 2) ⟨by decide +kernel, by decide +kernel⟩ (by decide +kernel),
    (h.1 (byteKey 16 4) ⟨by decide +kernel, by decide +kernel⟩).2⟩

end SetSync
