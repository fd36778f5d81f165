import SetSync.TrieRefinement

/-!
# Lazy and eager updates in one run

With `performhash = false` the ancestors of a change keep the hash they are stored under and are
marked dirty.  A later call that hashes such a node may compute the very hash it is stored under
already: the node is written, and then deleted as the old one.  `FlaggedOp.rekeys` looks at the
records before a call and says that this does not happen on the path that the call rewrites.

    one level   rekeys at a stored node → Moves for its frames                 (moves_of_rekeys)
    step        rekeys → the trie after the call is well formed over op.onSet S  (flagged_keeps)
    run         rekeys before every call → root and size are right    (lazy_and_eager_mixed)

The tries of such a run are ordered and `Placed`, but not `Hashed`.
-/

namespace SetSync

open Program BitTrie

variable {d : Nat}

/-! ## Runs with a flag in each call -/

inductive FlaggedOp (κ : Type) where
  | add (key : κ) (performhash : Bool)
  | remove (key : κ) (performhash : Bool)

/-- The operation without its flag. -/
def FlaggedOp.plain {κ : Type} : FlaggedOp κ → SetOp κ
  | add k _ => .add k
  | remove k _ => .remove k

section Runs

variable (hash : CryptoHash d) (fresh : Digest d) (fuel : Nat)

def FlaggedOp.exec : FlaggedOp (Digest d) → TrieM d (Option Bool)
  | add k performhash => do
    let b ← KeyValueTrie.add hash fresh fuel k performhash
    pure (some b)
  | remove k performhash => do
    let b ← KeyValueTrie.remove hash fuel k performhash
    pure (some b)

def runFlagged (ops : List (FlaggedOp (Digest d))) : TrieM d (List (Option Bool)) :=
  Prog.each (FlaggedOp.exec hash fresh fuel) ops

/-! ## What a call rewrites -/

/-- Above the stored node `y`, whose place a node with hash `x` takes, no recomputed hash is the one
its node is stored under; on the whole path, or at the first node of it. -/
def rekeys (s : TrieState d) (whole : Bool) : Nat → Digest d → Digest d → Bool
  | 0, _, _ => true
  | n + 1, y, x =>
    match (s.record y).bind Entry.parent with
    | none => true
    | some p =>
      match (s.record p).bind Entry.children with
      | none => true
      | some (a, b) =>
        let x' := if y = a then hash.pair x b else hash.pair a x
        x' != p && (!whole || rekeys s whole n p x')

/-- The stored node that is split for the key `k`, and the first bit at which they differ. -/
def splitPoint (s : TrieState d) (k : Digest d) : Nat → Digest d → Option (Digest d × Nat)
  | 0, _ => none
  | n + 1, y =>
    match s.record y with
    | none => none
    | some e =>
      match (List.range e.len).find? fun i => Digest.bit e.stem i != Digest.bit k i with
      | some c => some (y, c)
      | none =>
        match e.children with
        | none => none
        | some (a, b) => splitPoint s k n (if Digest.bit k e.len then b else a)

/-- The node above a leaf.  A call that removes what is no leaf is refused before it writes. -/
def leafParent (s : TrieState d) (k : Digest d) : Option (Digest d) :=
  match s.record k with
  | none => none
  | some e => if e.children.isSome then none else e.parent

/-- A path has at most 255 nodes: their `prefix_mask` grows. -/
def FlaggedOp.rekeys (s : TrieState d) : FlaggedOp (Digest d) → Bool
  | add k performhash =>
    match (s.storage.table.lookup KeyValueRootNode.rootName).bind fun root =>
        splitPoint s k 256 (Digest.slice root 0) with
    | none => true
    | some (y, c) => !performhash || SetSync.rekeys hash s true 256 y
        (if Digest.bit k c then hash.pair y k else hash.pair k y)
  | remove k performhash =>
    match leafParent s k with
    | none => true
    | some p =>
      match (s.record p).bind Entry.children with
      | none => true
      | some (a, b) => SetSync.rekeys hash s performhash 256 p (if k = a then b else a)

/-- Every call of the run meets the condition in the state it finds. -/
def rekeysThroughout (s : TrieState d) (ops : List (FlaggedOp (Digest d))) : Bool :=
  Prog.Throughout (FlaggedOp.exec hash fresh fuel) (fun op s => op.rekeys hash s) s ops

end Runs

/-! ## The condition on the stored trie -/

section Condition

variable {hash : CryptoHash d} {s : TrieState d}

theorem moves_of_rekeys {P : Digest d → Digest d → Prop} (whole : Bool) (gs : List (Frame (Digest d)))
    {u t : Trie (Digest d)} {n : Nat} (h : Stores s (some (plug gs u)))
    (hn : (plug gs u).labels.Nodup) (hlen : gs.length ≤ n)
    (hr : rekeys hash s whole n u.label t.label = true) :
    Moves hash.pair P (if whole then gs else gs.take 1) t := by
  induction gs generalizing u t n with
  | nil => cases whole <;> exact trivial
  | cons f fs ih =>
    obtain ⟨m, rfl⟩ : ∃ m, n = m + 1 := ⟨n - 1, by rw [List.length_cons] at hlen; omega⟩
    have hnf := labels_nodup_of_plug fs (f.fill u) hn
    have hrec := record_of_plug (f :: fs) h hn
    have hup := record_of_plug fs (u := f.fill u) h hn
    rw [Frame.label_fill] at hup
    have hpar : (s.record u.label).bind Entry.parent = some f.label := by
      rw [hrec]
      cases u <;> rfl
    have hchild : (s.record f.label).bind Entry.children = some (f.children u.label) := by
      rw [hup, Option.bind_some, Frame.entry_fill]
    -- the hash computed at the frame
    have hnew : (if u.label = (f.children u.label).1 then hash.pair t.label (f.children u.label).2
        else hash.pair (f.children u.label).1 t.label) = (f.rehash hash.pair t).label := by
      have hne : u.label ≠ f.other.label := fun he => ((labels_fill_nodup f u).mp hnf).2.2.2
        u.label u.label_mem_labels (he ▸ f.other.label_mem_labels)
      unfold Frame.rehash
      rw [Frame.label_fill, Frame.relabel]
      unfold Frame.children
      cases f.large
      · simp
      · simp [hne]
    simp only [rekeys, hpar, hchild, hnew, Bool.and_eq_true, Bool.or_eq_true, Bool.not_eq_true',
      bne_iff_ne, ne_eq] at hr
    cases whole with
    | false => exact fun _ => ⟨hr.1, trivial⟩
    | true =>
      refine fun _ => ⟨hr.1, ih (u := f.fill u) (n := m) h hn (Nat.le_of_succ_le_succ hlen) ?_⟩
      rw [Frame.label_fill]
      exact hr.2.resolve_left (by decide)

/-- Down the frames that the key leads through. -/
theorem splitPoint_plug {gs : List (Frame (Digest d))} {u : Trie (Digest d)} {k : Digest d} (n : Nat)
    (h : Stores s (some (plug gs u))) (hn : (plug gs u).labels.Nodup) (hk : Leads Digest.bit gs k) :
    splitPoint s k (n + gs.length) (plug gs u).label = splitPoint s k n u.label := by
  induction gs generalizing u n with
  | nil => rfl
  | cons f fs ih =>
    have hup := record_of_plug fs (u := f.fill u) h hn
    rw [Frame.label_fill, Frame.entry_fill] at hup
    obtain ⟨hagree, hside⟩ := hk f List.mem_cons_self
    have hfind : (List.range f.len).find? (fun i => Digest.bit f.stem i != Digest.bit k i) = none := by
      rw [List.find?_eq_none]
      intro i hi
      rw [hagree i (List.mem_range.mp hi)]
      simp
    rw [List.length_cons, ← Nat.add_assoc, Nat.add_right_comm, plug, ih (n + 1) h hn hk.tail,
      Frame.label_fill]
    simp only [splitPoint, hup, hfind, hside, Frame.children]
    cases f.large <;> rfl

theorem splitPoint_of_splitsAt {P : Digest d → Digest d → Prop} {K : Digest d → Prop}
    {gs : List (Frame (Digest d))} {u : Trie (Digest d)} {k : Digest d} {c : Nat}
    (h : Stores s (some (plug gs u))) (hn : (plug gs u).labels.Nodup)
    (hat : SplitsAt Digest.bit (leafMask d) hash.pair P K gs u k c) :
    splitPoint s k 256 (plug gs u).label = some (u.label, c) := by
  have hlen := Nat.le_trans (hat.fits.length_le hat.framed) hat.fits.ordered.len_le
  have hmask : leafMask d < 256 := Nat.mod_lt _ (by omega)
  have hrec := record_of_plug gs h hn
  have hstem : (u.entry (leafMask d) (above gs)).stem = u.stem := by cases u <;> rfl
  have hfind : (List.range (u.len (leafMask d))).find?
      (fun i => Digest.bit u.stem i != Digest.bit k i) = some c := by
    rw [List.find?_range_eq_some]
    refine ⟨by simpa using hat.differ, List.mem_range.mpr hat.lt, fun j hj => ?_⟩
    simp [hat.agree j hj]
  have hfuel : 256 = (255 - gs.length + 1) + gs.length := by omega
  rw [hfuel, splitPoint_plug _ h hn hat.leads]
  simp only [splitPoint, hrec, hstem, entry_len_eq, hfind]

end Condition

/-! ## One call -/

/-- The storage holds a trie over the keys `S`, up to date or not. -/
structure Keeps (hash : CryptoHash d) (E : Digest d × Digest d → Prop) (K : Digest d → Prop)
    (s : TrieState d) (S : Finset (Digest d)) (t : Option (Trie (Digest d))) : Prop where
  stores : Stores s t
  wellFormed : ∀ u, t = some u → WellFormed hash E K u
  keys : ∀ k, k ∈ keysOf t ↔ k ∈ S

section Step

variable {hash : CryptoHash d} (fresh : Digest d) {E : Digest d × Digest d → Prop}
  {K : Digest d → Prop} {s : TrieState d} {S : Finset (Digest d)} {t : Option (Trie (Digest d))}
  {fuel : Nat}

theorem add_keeps (hd : d ≠ 4) (hw : 8 * d < 256) (hs : Separated hash.pair (Hashes E) K)
    (hfuel : 255 < fuel) {k : Digest d} {performhash : Bool} (hk : K k)
    (hr : (FlaggedOp.add k performhash).rekeys hash s = true) (h : Keeps hash E K s S t) :
    Prog.Returns E (KeyValueTrie.add hash fresh fuel k performhash) s fun b s' =>
      b = decide (k ∉ S) ∧ ∃ t', Keeps hash E K s' (insert k S) t' := by
  cases t with
  | none =>
    have hS : k ∉ S := fun hkS => List.not_mem_nil ((h.keys k).mpr hkS)
    obtain ⟨s', hs', h'⟩ := add_none hash fresh hd fuel k performhash h.stores
    refine Prog.Returns.of_eq hs' ⟨by simp [hS], _, h', ?_, fun x => ?_⟩
    · rintro u ⟨⟩
      exact ⟨trivial, hk⟩
    · rw [Finset.mem_insert, ← h.keys x]
      simp [keysOf, Trie.keys]
  | some t =>
    have ht := h.wellFormed t rfl
    by_cases hkt : k ∈ t.keys
    · have hadd := add_duplicate fresh hw hs hfuel performhash hk h.stores ht hkt
      have hS : k ∈ S := (h.keys k).mp hkt
      refine Prog.Returns.of_eq hadd ⟨by simp [hS], some t, ?_⟩
      rw [Finset.insert_eq_of_mem hS]
      exact h
    obtain ⟨root, hroot, hplace⟩ := add_descends hash fresh hs h.stores ht hk hfuel performhash
    rcases hplace with ⟨k', hk', ha, _⟩ | ⟨gs, u, this, c, rfl, hat, hsu, hrun⟩
    · have hkk : k' = k := Digest.eq_of_bits fun i hi => ha i (by rw [leafMask_eq hw]; exact hi)
      exact absurd (hkk ▸ hk') hkt
    · have hn := ht.nodup hash hs
      have hmoves : performhash = true →
          Hashes E ((splitFrame Digest.bit c u k).children u.label).1
            ((splitFrame Digest.bit c u k).children u.label).2 →
          Moves hash.pair (Hashes E) gs (split Digest.bit hash.pair c u k) := by
        rintro rfl _
        have hlen := Nat.le_trans (hat.fits.length_le hat.framed) hat.fits.ordered.len_le
        have hmask : leafMask d < 256 := Nat.mod_lt _ (by omega)
        have hlab : (split Digest.bit hash.pair c u k).label
            = if Digest.bit k c then hash.pair u.label k else hash.pair k u.label := by
          unfold split
          split <;> rfl
        have hstart : (s.storage.table.lookup KeyValueRootNode.rootName).bind
            (fun root => splitPoint s k 256 (Digest.slice root 0)) = some (u.label, c) := by
          rw [Holds.root h.stores, Option.map_some, Option.bind_some, Digest.slice_bytes,
            splitPoint_of_splitsAt h.stores hn hat]
        simp only [FlaggedOp.rekeys, hstart, Bool.not_true, Bool.false_or, ← hlab] at hr
        exact moves_of_rekeys true gs h.stores hn (by omega) hr
      refine Prog.Returns.mono (add_new hash fresh hd hs h.stores ht hat hfuel hroot hsu hrun id
        (granted_self hash gs _) hmoves) ?_
      rintro _ s' ⟨rfl, t', hst, hwf, hkeys, _⟩
      have hS : k ∉ S := fun hkS => hkt ((h.keys k).mpr hkS)
      refine ⟨by simp [hS], some t', hst, ?_, fun x => ?_⟩
      · rintro _ ⟨⟩
        exact hwf
      · rw [Finset.mem_insert, ← h.keys x]
        exact hkeys x

theorem remove_keeps (hd : d ≠ 4) (hs : Separated hash.pair (Hashes E) K) (hfuel : 255 < fuel)
    {k : Digest d} {performhash : Bool} (hr : (FlaggedOp.remove k performhash).rekeys hash s = true)
    (h : Keeps hash E K s S t) :
    Prog.Returns E (KeyValueTrie.remove hash fuel k performhash) s fun b s' =>
      b = decide (k ∈ S) ∧ ∃ t', Keeps hash E K s' (S.erase k) t' := by
  cases t with
  | none =>
    have hS : k ∉ S := fun hkS => List.not_mem_nil ((h.keys k).mpr hkS)
    refine Prog.Returns.of_eq (remove_none hash fuel k performhash h.stores) ⟨by simp [hS], none, ?_⟩
    rw [Finset.erase_eq_of_notMem hS]
    exact h
  | some t =>
    have ht := h.wellFormed t rfl
    by_cases hk : k ∈ t.keys
    · obtain ⟨fs, rfl⟩ := exists_plug_of_mem_keys hk
      have hn := ht.nodup hash hs
      have hmoves : ∀ p g gs, fs = p :: g :: gs →
          Moves hash.pair (Hashes E) (movedFrames performhash g gs) p.other := by
        rintro p g gs rfl
        have hfits := ((ordered_plug (p :: g :: gs) _).mp ht.ordered)
        have hlen := Nat.le_trans (hfits.2.length_le hfits.1) hfits.2.ordered.len_le
        have hmask : leafMask d < 256 := Nat.mod_lt _ (by omega)
        have hrec := record_of_plug (p :: g :: gs) h.stores hn
        have hup := record_of_plug (u := p.fill (.leaf k)) (g :: gs) h.stores hn
        have hnf := labels_nodup_of_plug (g :: gs) (p.fill (.leaf k)) hn
        rw [Frame.label_fill] at hup
        have hpar : leafParent s k = some p.label := by
          unfold leafParent
          rw [show s.record k = _ from hrec]
          rfl
        have hchild : (s.record p.label).bind Entry.children = some (p.children k) := by
          rw [hup, Option.bind_some, Frame.entry_fill]
          rfl
        have hother : (if k = (p.children k).1 then (p.children k).2 else (p.children k).1)
            = p.other.label := by
          have hne : k ≠ p.other.label := fun he => ((labels_fill_nodup p (.leaf k)).mp hnf).2.2.2
            k List.mem_cons_self (he ▸ p.other.label_mem_labels)
          unfold Frame.children
          cases p.large
          · simp
          · simp [hne]
        simp only [FlaggedOp.rekeys, hpar, hchild, hother] at hr
        have hlong : (g :: gs).length ≤ 256 := by
          rw [List.length_cons] at hlen
          omega
        have hm := moves_of_rekeys (P := Hashes E) (u := p.fill (.leaf k)) (t := p.other) performhash
          (g :: gs) h.stores hn hlong (by rw [Frame.label_fill]; exact hr)
        unfold movedFrames
        exact hm
      apply Prog.Returns.mono (remove_present hash hd hs h.stores ht hfuel hmoves)
      rintro _ s' ⟨rfl, t', hst, hwf, hkeys, _⟩
      have hS : k ∈ S := (h.keys k).mp hk
      refine ⟨by simp [hS], t', hst, hwf, fun x => ?_⟩
      rw [hkeys, Finset.mem_erase, ← h.keys x, and_comm]
      exact Iff.rfl
    · have hS : k ∉ S := fun hkS => hk ((h.keys k).mpr hkS)
      refine Prog.Returns.of_eq (remove_absent hash hs fuel performhash h.stores ht hk)
        ⟨by simp [hS], some t, ?_⟩
      rw [Finset.erase_eq_of_notMem hS]
      exact h

/-- **One call.** -/
theorem flagged_keeps (hd : d ≠ 4) (hw : 8 * d < 256) (hs : Separated hash.pair (Hashes E) K)
    (hfuel : 255 < fuel) (op : FlaggedOp (Digest d)) (hk : ∀ k ∈ addedKeys [op.plain], K k)
    (hr : op.rekeys hash s = true) (h : Keeps hash E K s S t) :
    Prog.Returns E (op.exec hash fresh fuel) s fun r s' => r = (op.plain.onSet S).1 ∧
      ∃ t', Keeps hash E K s' (op.plain.onSet S).2 t' := by
  cases op with
  | add k performhash =>
    apply Prog.Returns.bind (add_keeps fresh hd hw hs hfuel (hk k List.mem_cons_self) hr h)
    rintro b s' ⟨rfl, h'⟩
    exact Prog.Returns.pure ⟨rfl, h'⟩
  | remove k performhash =>
    apply Prog.Returns.bind (remove_keeps hd hs hfuel hr h)
    rintro b s' ⟨rfl, h'⟩
    exact Prog.Returns.pure ⟨rfl, h'⟩

/-- **A run.** -/
theorem runFlagged_keeps (hd : d ≠ 4) (hw : 8 * d < 256) (hs : Separated hash.pair (Hashes E) K)
    (hfuel : 255 < fuel) (ops : List (FlaggedOp (Digest d)))
    (hk : ∀ k ∈ addedKeys (ops.map FlaggedOp.plain), K k)
    (hr : rekeysThroughout hash fresh fuel s ops = true) (h : Keeps hash E K s S t) :
    Prog.Returns E (runFlagged hash fresh fuel ops) s fun rs s' =>
      rs = (setRun S (ops.map FlaggedOp.plain)).1 ∧
        ∃ t', Keeps hash E K s' (setRun S (ops.map FlaggedOp.plain)).2 t' := by
  unfold setRun
  rw [simulate_map]
  refine Prog.Returns.each (I := fun S s => ∃ t, Keeps hash E K s S t) (fun op hop S s h hr => ?_)
    ⟨t, h⟩ hr
  obtain ⟨t, ht⟩ := h
  refine flagged_keeps fresh hd hw hs hfuel op (fun k hmem => hk k ?_) hr ht
  exact mem_addedKeys (List.mem_map_of_mem hop) hmem

end Step

/-! ## A whole run -/

/-- The size is that of `S`, and from the root exactly the keys `S` are reached as leaves. -/
def KeysReachable (s : TrieState d) (S : Finset (Digest d)) : Prop :=
  s.size = S.card ∧ (s.size ≠ 0 → ∃ x, s.storage.table.lookup KeyValueRootNode.rootName = some x.bytes ∧
    (s.record x).isSome ∧ ∀ k, LeafBelow s k x ↔ k ∈ S)

theorem Keeps.keysReachable {hash : CryptoHash d} {E : Digest d × Digest d → Prop}
    {K : Digest d → Prop} {s : TrieState d} {S : Finset (Digest d)} {t : Option (Trie (Digest d))}
    (hs : Separated hash.pair (Hashes E) K) (h : Keeps hash E K s S t) : KeysReachable s S := by
  have hsize : s.size = S.card := by
    rw [h.stores.size_eq]
    exact length_keysOf (fun u hu => (h.wellFormed u hu).ordered) h.keys
  refine ⟨hsize, fun hne => ?_⟩
  cases t with
  | none => exact absurd (Holds.size h.stores) hne
  | some t =>
    have ht := h.wellFormed t rfl
    have hn := ht.nodup hash hs
    refine ⟨t.label, ?_, ?_, fun k => ?_⟩
    · rw [Holds.root h.stores]
      rfl
    · rw [record_of_plug [] h.stores hn]
      rfl
    · rw [leafBelow_iff [] h.stores hn]
      exact h.keys k

/-- **Lazy and eager calls in one run.**  No key is lost if no call rewrites a node under the hash it
is stored under. -/
theorem lazy_and_eager_mixed (hash : CryptoHash d) (fresh : Digest d) {fuel : Nat}
    (hd : d = 16 ∨ d = 20 ∨ d = 28) (hfuel : 255 < fuel) (ops : List (FlaggedOp (Digest d)))
    (hc : CollisionFree hash (runFlagged hash fresh fuel ops (KeyValueTrie.empty d)).events)
    (hk : KeysFresh hash (addedKeys (ops.map FlaggedOp.plain))
      (runFlagged hash fresh fuel ops (KeyValueTrie.empty d)).events)
    (hr : rekeysThroughout hash fresh fuel (KeyValueTrie.empty d) ops = true) :
    KeysReachable (runFlagged hash fresh fuel ops (KeyValueTrie.empty d)).state
      (setRun ∅ (ops.map FlaggedOp.plain)).2 := by
  obtain ⟨hd4, hw⟩ := narrow_digest hd
  have hs := separated_of_collisionFree hc hk
  obtain ⟨_, _, _, t, ht⟩ := runFlagged_keeps fresh hd4 hw hs hfuel ops (fun k hmem => hmem) hr
    (⟨holds_empty d, by simp, by simp [keysOf]⟩ : Keeps hash _ _ _ ∅ none) fun x hx => hx
  exact ht.keysReachable hs

/-- A lazy addition below the root, and an eager one after it. -/
def mixedOps (d : Nat) : List (FlaggedOp (Digest d)) :=
  [.add (byteKey d 1) true, .add (byteKey d 2) true, .add (byteKey d 5) false,
    .add (byteKey d 6) true]

theorem lazy_and_eager_mixed_sample :
    KeysReachable (runFlagged (mixHash 16) (byteKey 16 0) 256 (mixedOps 16)
      (KeyValueTrie.empty 16)).state (setRun ∅ ((mixedOps 16).map FlaggedOp.plain)).2 :=
  lazy_and_eager_mixed (mixHash 16) (byteKey 16 0) (Or.inl rfl) (by decide) (mixedOps 16)
    (by decide +kernel) (by decide +kernel) (by decide +kernel)

/-- The key that a lazy call added is removed by an eager one. -/
def undoneOps (d : Nat) : List (FlaggedOp (Digest d)) :=
  [.add (byteKey d 1) true, .add (byteKey d 2) true, .add (byteKey d 5) false,
    .remove (byteKey d 5) true]

/-- The root gets the hash it still has as its key, and is deleted. -/
theorem lazy_add_eager_remove_loses_root :
    CollisionFree (mixHash 16) (runFlagged (mixHash 16) (byteKey 16 0) 256 (undoneOps 16)
        (KeyValueTrie.empty 16)).events ∧
      KeysFresh (mixHash 16) (addedKeys ((undoneOps 16).map FlaggedOp.plain))
        (runFlagged (mixHash 16) (byteKey 16 0) 256 (undoneOps 16) (KeyValueTrie.empty 16)).events ∧
      ¬KeysReachable (runFlagged (mixHash 16) (byteKey 16 0) 256 (undoneOps 16)
          (KeyValueTrie.empty 16)).state (setRun ∅ ((undoneOps 16).map FlaggedOp.plain)).2 := by
  refine ⟨by decide +kernel, by decide +kernel, ?_⟩
  have hsize : (runFlagged (mixHash 16) (byteKey 16 0) 256 (undoneOps 16)
      (KeyValueTrie.empty 16)).state.size ≠ 0 := by decide +kernel
  have hgone : ((runFlagged (mixHash 16) (byteKey 16 0) 256 (undoneOps 16)
      (KeyValueTrie.empty 16)).state.storage.table.lookup KeyValueRootNode.rootName).all
        (fun root => ((runFlagged (mixHash 16) (byteKey 16 0) 256 (undoneOps 16)
          (KeyValueTrie.empty 16)).state.record (Digest.slice root 0)).isNone) = true := by
    decide +kernel
  rintro ⟨_, hreach⟩
  obtain ⟨x, hroot, hrec, _⟩ := hreach hsize
  rw [hroot, Option.all_some, Digest.slice_bytes] at hgone
  rw [Option.isNone_iff_eq_none.mp hgone] at hrec
  cases hrec

end SetSync
