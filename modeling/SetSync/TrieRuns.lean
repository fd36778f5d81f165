import SetSync.SetOps
import SetSync.TrieSpec

/-!
# Runs of the trie

Sequences of `add`, `remove` and `clear` with `performhash = true`, from an empty storage.  In such a
run every label is up to date, so a node's label fixes its keys and no ancestor is ever written
under the label it had (`moves_of_keys`).  The invariant is `Represents s S`: the storage holds an
ordered, hashed trie whose keys are `S`.

    step   Represents s S → op returns what op.onSet S says, Represents s' (op.onSet S).2
                                                                               (exec_represents)
    run    from the empty storage, the answers and the set of setRun             (runOps_represents)
-/

namespace SetSync

open Program BitTrie

variable {d : Nat}

/-! ## Assumptions on the digest function -/

/-- No collision among the child pairs `l`. -/
def CollisionFree (hash : CryptoHash d) (l : List (Digest d × Digest d)) : Prop :=
  ∀ p ∈ l, ∀ q ∈ l, hash.pair p.1 p.2 = hash.pair q.1 q.2 → p = q

/-- No key is the hash of one of the child pairs `l`. -/
def KeysFresh (hash : CryptoHash d) (keys : List (Digest d)) (l : List (Digest d × Digest d)) : Prop :=
  ∀ k ∈ keys, ∀ p ∈ l, hash.pair p.1 p.2 ≠ k

theorem separated_of_collisionFree {hash : CryptoHash d} {keys : List (Digest d)}
    {l : List (Digest d × Digest d)} (hc : CollisionFree hash l) (hk : KeysFresh hash keys l) :
    Separated hash.pair (Hashes (· ∈ l)) (· ∈ keys) where
  inj := fun hx hy he => Prod.mk.inj (hc _ hx _ hy he)
  fresh := fun hk' hp => hk _ hk' _ hp

instance (hash : CryptoHash d) (l : List (Digest d × Digest d)) : Decidable (CollisionFree hash l) :=
  inferInstanceAs (Decidable (∀ p ∈ l, ∀ q ∈ l, _ → _))

instance (hash : CryptoHash d) (keys : List (Digest d)) (l : List (Digest d × Digest d)) :
    Decidable (KeysFresh hash keys l) := inferInstanceAs (Decidable (∀ k ∈ keys, ∀ p ∈ l, _))

/-- A digest to run the model on: each byte from one byte of each child. -/
def mixHash (d : Nat) : CryptoHash d where
  digest b := ⟨(List.range d).map fun i => b.getD i 0 + 2 * b.getD (d + i) 0 + 1, by simp⟩

/-! ## Runs -/

section Runs

variable (hash : CryptoHash d) (fresh : Digest d) (fuel : Nat)

/-- `Trie::add(hash)` and `Trie::remove(hash)` pass `performhash = true`. -/
def SetOp.exec : SetOp (Digest d) → TrieM d (Option Bool)
  | add k => do
    let b ← KeyValueTrie.add hash fresh fuel k true
    pure (some b)
  | remove k => do
    let b ← KeyValueTrie.remove hash fuel k true
    pure (some b)
  | clear => do
    KeyValueTrie.clear
    pure none

def runOps (ops : List (SetOp (Digest d))) : TrieM d (List (Option Bool)) :=
  Prog.each (SetOp.exec hash fresh fuel) ops

/-- The run from an empty storage. -/
def runTrie (ops : List (SetOp (Digest d))) :
    Run (TrieState d) (Digest d × Digest d) Exn (List (Option Bool)) :=
  runOps hash fresh fuel ops (KeyValueTrie.empty d)

end Runs

/-! ## The invariant -/

/-- The storage holds an up-to-date trie over the keys `S`. -/
structure Represents (hash : CryptoHash d) (E : Digest d × Digest d → Prop) (K : Digest d → Prop)
    (s : TrieState d) (S : Finset (Digest d)) (t : Option (Trie (Digest d))) : Prop where
  stores : Stores s t
  ordered : ∀ u, t = some u → Ordered Digest.bit (leafMask d) u
  hashed : ∀ u, t = some u → Hashed hash.pair (Hashes E) K u
  keys : ∀ k, k ∈ keysOf t ↔ k ∈ S

section Step

variable {hash : CryptoHash d} (fresh : Digest d) {A E : Digest d × Digest d → Prop}
  {K : Digest d → Prop} {s : TrieState d} {S : Finset (Digest d)} {t : Option (Trie (Digest d))}
  {fuel : Nat}

theorem Represents.wellFormed (h : Represents hash E K s S t) :
    ∀ u, t = some u → WellFormed hash E K u :=
  fun u hu => ⟨h.ordered u hu, (h.hashed u hu).placed (h.ordered u hu)⟩

theorem Represents.size_eq (h : Represents hash E K s S t) : s.size = S.card := by
  rw [h.stores.size_eq]
  exact length_keysOf h.ordered h.keys

theorem Represents.eq_empty_iff (h : Represents hash E K s S t) : S = ∅ ↔ t = none :=
  keysOf_eq_empty_iff h.keys

theorem leafMask_eq (hd : 8 * d < 256) : leafMask d = 8 * d := Nat.mod_eq_of_lt hd

/-- Above the place where a new key goes, no node keeps its label. -/
theorem moves_of_split (hs : Separated hash.pair (Hashes E) K) {gs : List (Frame (Digest d))}
    {u : Trie (Digest d)} {k : Digest d} {c : Nat} (hh : Hashed hash.pair (Hashes E) K (plug gs u))
    (hat : SplitsAt Digest.bit (leafMask d) hash.pair (Hashes E) K gs u k c)
    (hpair : Hashes E ((splitFrame Digest.bit c u k).children u.label).1
      ((splitFrame Digest.bit c u k).children u.label).2) :
    Moves hash.pair (Hashes E) gs (split Digest.bit hash.pair c u k) := by
  have hkn := hat.key_not_mem
  rw [mem_keys_plug, not_or] at hkn
  refine moves_of_keys hs hh (hashed_split hash hh.of_plug hat.key hpair)
    (fun hiff => hkn.1 (hiff.mp ((mem_keys_split _ _ _ _ _).mpr (Or.inl rfl)))) ?_
  exact fun f hf hkf => hkn.2 ⟨f, hf, hkf⟩

/-- Above a key that is removed, no node keeps its label. -/
theorem moves_of_removal (hs : Separated hash.pair (Hashes E) K) {p g : Frame (Digest d)}
    {gs : List (Frame (Digest d))} {k : Digest d}
    (ho : Ordered Digest.bit (leafMask d) (plug (p :: g :: gs) (.leaf k)))
    (hh : Hashed hash.pair (Hashes E) K (plug (p :: g :: gs) (.leaf k))) :
    Moves hash.pair (Hashes E) (movedFrames true g gs) p.other := by
  have hnot : ∀ f ∈ p :: g :: gs, k ∉ f.other.keys := fun f hf hkf =>
    ((mem_keys_plug_leaf ho k).mp ⟨f, hf, hkf⟩).2 rfl
  have hpo : Hashed hash.pair (Hashes E) K (plug (g :: gs) (p.fill (.leaf k))) := hh
  refine moves_of_keys hs hpo ((hashed_fill p _).mp hpo.of_plug).2.2.2.2 (k := k) (fun hiff => ?_)
    fun f hf => hnot f (List.mem_cons_of_mem p hf)
  exact hnot p List.mem_cons_self
    (hiff.mpr ((Frame.mem_keys_fill p _ k).mpr (Or.inl (Trie.mem_keys_leaf k))))

/-- A key that agrees with no key of the trie. -/
theorem add_represents_new (hd : d ≠ 4) (hs : Separated hash.pair (Hashes E) K) (hfuel : 255 < fuel)
    {k : Digest d} (hk : K k) (hnew : ∀ k' ∈ S, ¬Agree Digest.bit (leafMask d) k' k)
    (h : Represents hash E K s S t)
    (hA : ∀ gs u c, t = some (plug gs u) →
      SplitsAt Digest.bit (leafMask d) hash.pair (Hashes E) K gs u k c →
      Grants A E ((splitFrame Digest.bit c u k).children u.label).1
          ((splitFrame Digest.bit c u k).children u.label).2 ∧
        Rehashed hash.pair (Grants A E) gs (split Digest.bit hash.pair c u k)) :
    Prog.Returns A (KeyValueTrie.add hash fresh fuel k true) s fun b s' => b = true ∧
      ∃ t', Represents hash E K s' (insert k S) t' := by
  cases t with
  | none =>
    obtain ⟨s', hs', h'⟩ := add_none hash fresh hd fuel k true h.stores
    refine Prog.Returns.of_eq hs' ⟨rfl, _, h', ?_, ?_, fun x => ?_⟩
    · rintro u ⟨⟩
      exact trivial
    · rintro u ⟨⟩
      exact hk
    · rw [Finset.mem_insert, ← h.keys x]
      simp [keysOf, Trie.keys]
  | some t =>
    have ht := h.wellFormed t rfl
    obtain ⟨root, hroot, hplace⟩ := add_descends hash fresh hs h.stores ht hk hfuel true
    rcases hplace with ⟨k', hk', ha, _⟩ | ⟨gs, u, this, c, rfl, hat, hsu, hrun⟩
    · exact absurd ha (hnew k' ((h.keys k').mp hk'))
    · have hh := h.hashed _ rfl
      obtain ⟨hA₀, hA⟩ := hA gs u c rfl hat
      refine Prog.Returns.mono (add_new hash fresh hd hs h.stores ht hat hfuel hroot hsu hrun hA₀ hA
        fun _ hpair => moves_of_split hs hh hat hpair) ?_
      rintro _ s' ⟨rfl, t', hst, hwf, hkeys, hhash⟩
      refine ⟨rfl, some t', hst, ?_, ?_, fun x => ?_⟩
      · rintro _ ⟨⟩
        exact hwf.ordered
      · rintro _ ⟨⟩
        exact hhash rfl hh
      · rw [Finset.mem_insert, ← h.keys x]
        exact hkeys x

/-- A key that agrees with a key of the trie: `insert` decides without changing anything. -/
theorem insert_duplicate {u : Trie (Digest d)} (hs : Separated hash.pair (Hashes E) K)
    (hfuel : 255 < fuel) {k k' : Digest d} (perf : Bool) (hk : K k) (h : Stores s (some u))
    (hu : WellFormed hash E K u) (hk' : k' ∈ u.keys) (ha : Agree Digest.bit (leafMask d) k' k) :
    ∃ root, KeyValueRootNode.get s = ⟨.ok root, s, []⟩ ∧
      TrieNode.insert hash fuel fuel root (TrieNode.newone fresh k) perf s = onDuplicate s := by
  obtain ⟨root, hroot, hplace⟩ := add_descends hash fresh hs h hu hk hfuel perf
  refine ⟨root, hroot, ?_⟩
  rcases hplace with ⟨_, _, _, hrun⟩ | ⟨gs, u, this, c, rfl, hat, hsu, hrun⟩
  · exact hrun
  · exact absurd ha (hat.not_agree k' hk')

/-- `add` of a key that is there, while its bits fit into `prefix_mask`. -/
theorem add_duplicate {u : Trie (Digest d)} (hw : 8 * d < 256) (hs : Separated hash.pair (Hashes E) K)
    (hfuel : 255 < fuel) {k : Digest d} (perf : Bool) (hk : K k) (h : Stores s (some u))
    (hu : WellFormed hash E K u) (hku : k ∈ u.keys) :
    KeyValueTrie.add hash fresh fuel k perf s = ⟨.ok false, s, []⟩ := by
  obtain ⟨root, hroot, hrun⟩ := insert_duplicate fresh hs hfuel perf hk h hu hku
    (Agree.refl (leafMask d) k)
  rw [onDuplicate, if_pos hw] at hrun
  refine Prog.tryCatch_of_ok ?_ _
  rw [Prog.bind_of_ok hroot, Prog.bind_of_ok hrun]
  rfl

theorem add_represents (hd : d ≠ 4) (hw : 8 * d < 256) (hs : Separated hash.pair (Hashes E) K)
    (hfuel : 255 < fuel) {k : Digest d} (hk : K k) (h : Represents hash E K s S t) :
    Prog.Returns E (KeyValueTrie.add hash fresh fuel k true) s fun b s' => b = decide (k ∉ S) ∧
      ∃ t', Represents hash E K s' (insert k S) t' := by
  by_cases hS : k ∈ S
  · cases t with
    | none => exact absurd ((h.keys k).mpr hS) List.not_mem_nil
    | some t =>
      have hadd := add_duplicate fresh hw hs hfuel true hk h.stores (h.wellFormed t rfl)
        ((h.keys k).mpr hS)
      refine Prog.Returns.of_eq hadd ⟨by simp [hS], some t, ?_⟩
      rw [Finset.insert_eq_of_mem hS]
      exact h
  · have hnew : ∀ k' ∈ S, ¬Agree Digest.bit (leafMask d) k' k := by
      intro k' hk' ha
      have hkk : k' = k := Digest.eq_of_bits fun i hi => ha i (by rw [leafMask_eq hw]; exact hi)
      exact hS (hkk ▸ hk')
    refine Prog.Returns.mono (add_represents_new fresh hd hs hfuel hk hnew h
      fun gs _ _ _ _ => ⟨id, granted_self hash gs _⟩) ?_
    rintro _ s' ⟨rfl, h'⟩
    exact ⟨by simp [hS], h'⟩

theorem remove_represents (hd : d ≠ 4) (hs : Separated hash.pair (Hashes E) K) (hfuel : 255 < fuel)
    (k : Digest d) (h : Represents hash E K s S t) :
    Prog.Returns E (KeyValueTrie.remove hash fuel k true) s fun b s' => b = decide (k ∈ S) ∧
      ∃ t', Represents hash E K s' (S.erase k) t' := by
  cases t with
  | none =>
    have hS : k ∉ S := fun hkS => List.not_mem_nil ((h.keys k).mpr hkS)
    refine Prog.Returns.of_eq (remove_none hash fuel k true h.stores) ⟨by simp [hS], none, ?_⟩
    rw [Finset.erase_eq_of_notMem hS]
    exact h
  | some t =>
    have ht := h.wellFormed t rfl
    by_cases hk : k ∈ t.keys
    · have hS : k ∈ S := (h.keys k).mp hk
      obtain ⟨fs, rfl⟩ := exists_plug_of_mem_keys hk
      have hh := h.hashed _ rfl
      have hmoves : ∀ p g gs, fs = p :: g :: gs →
          Moves hash.pair (Hashes E) (movedFrames true g gs) p.other := by
        rintro p g gs rfl
        exact moves_of_removal hs ht.ordered hh
      apply Prog.Returns.mono (remove_present hash hd hs h.stores ht hfuel hmoves)
      rintro _ s' ⟨rfl, t', hst, hwf, hkeys, hhash⟩
      refine ⟨by simp [hS], t', hst, fun u hu => (hwf u hu).ordered, hhash rfl hh, fun x => ?_⟩
      rw [hkeys, Finset.mem_erase, ← h.keys x, and_comm]
      exact Iff.rfl
    · have hS : k ∉ S := fun hkS => hk ((h.keys k).mpr hkS)
      refine Prog.Returns.of_eq (remove_absent hash hs fuel true h.stores ht hk)
        ⟨by simp [hS], some t, ?_⟩
      rw [Finset.erase_eq_of_notMem hS]
      exact h

theorem Represents.failure (h : Represents hash E K s S t) : s.storage.failure = none := by
  cases t with
  | none => exact Holds.failure h.stores
  | some u => exact Holds.failure h.stores

theorem represents_none (h : Stores s none) : Represents hash E K s ∅ none :=
  ⟨h, by simp, by simp, by simp [keysOf]⟩

/-- **One operation.** -/
theorem exec_represents (hd : d ≠ 4) (hw : 8 * d < 256) (hs : Separated hash.pair (Hashes E) K)
    (hfuel : 255 < fuel) (op : SetOp (Digest d)) (hk : ∀ k ∈ addedKeys [op], K k)
    (h : Represents hash E K s S t) :
    Prog.Returns E (op.exec hash fresh fuel) s fun r s' => r = (op.onSet S).1 ∧
      ∃ t', Represents hash E K s' (op.onSet S).2 t' := by
  cases op with
  | add k =>
    apply Prog.Returns.bind (add_represents fresh hd hw hs hfuel (hk k List.mem_cons_self) h)
    rintro b s' ⟨rfl, h'⟩
    exact Prog.Returns.pure ⟨rfl, h'⟩
  | remove k =>
    apply Prog.Returns.bind (remove_represents hd hs hfuel k h)
    rintro b s' ⟨rfl, h'⟩
    exact Prog.Returns.pure ⟨rfl, h'⟩
  | clear =>
    obtain ⟨s', hs', h'⟩ := clear_ok h.failure
    exact Prog.Returns.bind_of_eq hs' (Prog.Returns.pure ⟨rfl, none, represents_none h'⟩)

/-- **A run.** -/
theorem runOps_represents (hd : d ≠ 4) (hw : 8 * d < 256) (hs : Separated hash.pair (Hashes E) K)
    (hfuel : 255 < fuel) (ops : List (SetOp (Digest d))) (hk : ∀ k ∈ addedKeys ops, K k)
    (h : Represents hash E K s S t) :
    Prog.Returns E (runOps hash fresh fuel ops) s fun rs s' => rs = (setRun S ops).1 ∧
      ∃ t', Represents hash E K s' (setRun S ops).2 t' := by
  refine Prog.Returns.each (I := fun S s => ∃ t, Represents hash E K s S t) (C := fun _ _ => true)
    (fun op hop S s h _ => ?_) ⟨t, h⟩ (Prog.throughout_true s ops)
  obtain ⟨t, ht⟩ := h
  exact exec_represents fresh hd hw hs hfuel op (fun k hmem => hk k (mem_addedKeys hop hmem)) ht

end Step

end SetSync
