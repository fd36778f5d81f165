import SetSync.TrieConsistency
import SetSync.TrieInvariant
import SetSync.TrieMethods

/-!
# A storage failure during an insertion

The `catch` block of `add` is there for the empty trie: it makes the key a leaf and the root.  It takes every
exception, and so one of the storage too, from whatever operation of the insertion it comes.

    a storage that fails once    a method ends as on a working one, or with the exception  (failing_closed)
    add                          the failure ends the `try` block                         (addTry_fails)
    afterwards                   the key is the root, and nothing else is reached   (failed_add_reaches)
-/

namespace SetSync

open Program BitTrie

variable {d : Nat}

/-- The trie, on a storage whose operation number `n` raises an exception; the first one has number 0. -/
def TrieState.failingAt (s : TrieState d) (n : Nat) : TrieState d :=
  { s with storage := { s.storage with failure := some n } }

/-- A key that is reached from the root. -/
def KeyReached (s : TrieState d) (x : Digest d) : Prop :=
  Reaches s x ∧ ∃ e, s.record x = some e ∧ e.children = none

section Failure

variable (hash : CryptoHash d) (fresh : Digest d) (fuel : Nat) (s : TrieState d) (k : Digest d) (n : Nat)

/-- The trie after `add`, when the operation number `n` fails. -/
def failedAdd : Run (TrieState d) (Digest d × Digest d) Exn Bool :=
  KeyValueTrie.add hash fresh fuel k true (s.failingAt n)

/-- The operation is one of `add`: the failure is no longer to come. -/
def FailsInside : Prop := (failedAdd hash fresh fuel s k n).state.storage.failure = none

instance : Decidable (FailsInside hash fresh fuel s k n) :=
  inferInstanceAs (Decidable (_ = none))

/-- No key gets lost, and the size does not count a key that is not there. -/
structure SurvivesFailure : Prop where
  kept : ∀ x, KeyReached s x → KeyReached (failedAdd hash fresh fuel s k n).state x
  counted : s.size < (failedAdd hash fresh fuel s k n).state.size →
    KeyReached (failedAdd hash fresh fuel s k n).state k

/-- No collision among the pairs that are stored and those that adding `k` hashes; no key is the hash of one
of them. -/
def AddSeparated (S : Finset (Digest d)) : Prop :=
  Separated hash.pair (Hashes fun p => StoredPair s p ∨
    p ∈ (KeyValueTrie.add hash fresh fuel k true s).events) (· ∈ insert k S)

end Failure

/-! ## Methods on a failing storage -/

/-- The same trie, but the storage is to fail. -/
def Failing (s s' : TrieState d) : Prop := s.storage.failure = none ∧ ∃ n, s' = s.failingAt n

/-- A method on a storage that is to fail: it is cut short by the failure, which is over then. -/
abbrev CutByFailure {α : Type} (m : TrieM d α) : Prop :=
  Prog.CutShort Failing .storageException (fun s' => s'.storage.failure = none) m

theorem operation_cut {α : Type} (f : Table → α × Table) :
    CutByFailure (onStorage (Storage.operation f) : TrieM d α) := by
  rintro s s' ⟨hst, n, rfl⟩
  rw [onTrieStorage_ok f hst]
  cases n with
  | zero => exact Or.inr ⟨rfl, rfl⟩
  | succ n => exact Or.inl ⟨rfl, rfl, n, rfl⟩

theorem failing_closed : Closed (d := d) fun _ m => CutByFailure m where
  toCongruence := Prog.cutShort_congruence _ _ _
  get _ _ := operation_cut _
  put _ _ := operation_cut _
  del _ := operation_cut _

theorem addTry_cut (hash : CryptoHash d) (fresh : Digest d) (fuel : Nat) (k : Digest d) (hd : d ≠ 8) :
    CutByFailure (KeyValueTrie.addTry hash fresh fuel k true) := by
  refine failing_closed.bind (failing_closed.getRootNode hd) fun root => ?_
  refine failing_closed.bind (failing_closed.insert hd hash fuel fuel _ _ _) fun inserted => ?_
  cases inserted with
  | false => exact failing_closed.pure _
  | true =>
    refine failing_closed.bind (Prog.CutShort.modify ?_) fun _ => failing_closed.pure _
    rintro s s' ⟨hst, n, rfl⟩
    exact ⟨hst, n, rfl⟩

section Add

variable {hash : CryptoHash d} (fresh : Digest d) {E : Digest d × Digest d → Prop}
  {K : Digest d → Prop} {s : TrieState d} {S : Finset (Digest d)} {fuel : Nat} {k : Digest d}

/-- **The failure ends the `try` block.** -/
theorem addTry_fails (hd : d = 16 ∨ d = 20 ∨ d = 28) (hs : Separated hash.pair (Hashes E) K)
    (hfuel : 255 < fuel) (hk : K k) {t : Trie (Digest d)} (h : Represents hash E K s S (some t))
    (hE : ∀ x ∈ (KeyValueTrie.add hash fresh fuel k true s).events, E x) {n : Nat}
    (hn : FailsInside hash fresh fuel s k n) :
    ∃ s₁ l, KeyValueTrie.addTry hash fresh fuel k true (s.failingAt n)
        = ⟨.error .storageException, s₁, l⟩ ∧ s₁.storage.failure = none := by
  obtain ⟨b, ho, -⟩ := addTry_returns fresh hd hs hfuel hk h fun x hx =>
    hE x (Prog.tryCatch_events _ _ s hx)
  have hcut := addTry_cut hash fresh fuel k (by omega) s (s.failingAt n)
    ⟨Holds.failure h.stores, n, rfl⟩
  rcases hrun : KeyValueTrie.addTry hash fresh fuel k true (s.failingAt n) with ⟨o', s₁, l⟩
  rw [hrun] at hcut
  rcases hcut with ⟨ho', -, n', hstate⟩ | ⟨ho', hworks⟩
  · -- the call returns, and the failure is still to come
    obtain rfl : o' = .ok b := ho'.trans ho
    rw [FailsInside, failedAdd, KeyValueTrie.add_eq_try, Prog.tryCatch_of_ok hrun] at hn
    have hstate' : s₁ = _ := hstate
    rw [hstate'] at hn
    cases hn
  · exact ⟨s₁, l, by rw [← show o' = .error .storageException from ho'], hworks⟩

/-- The trie that the `catch` block leaves. -/
theorem addCatch_ok (hst : s.storage.failure = none) :
    KeyValueTrie.addCatch fresh k s = ⟨.ok true, ⟨⟨(s.storage.table.insert k.bytes
      (TrieNode.newone fresh k).marshall).insert KeyValueRootNode.rootName k.bytes, none⟩,
        s.size + 1⟩, []⟩ := by
  have hleaf : (TrieNode.newone fresh k).toDb s = ⟨.ok (), { s with storage :=
      ⟨s.storage.table.insert k.bytes (TrieNode.newone fresh k).marshall, none⟩ }, []⟩ :=
    onStorage_put hst _ _
  have hroot : ∀ s' : TrieState d, s'.storage.failure = none → KeyValueRootNode.set k s' = ⟨.ok (),
      { s' with storage := ⟨s'.storage.table.insert KeyValueRootNode.rootName k.bytes, none⟩ }, []⟩ :=
    fun s' hst' => onStorage_put hst' _ _
  unfold KeyValueTrie.addCatch
  rw [Prog.bind_of_ok hleaf, Prog.bind_of_ok (hroot _ rfl)]
  rfl

/-- **After a failure the key is the root**, and nothing else is reached. -/
theorem failed_add_reaches (hd : d = 16 ∨ d = 20 ∨ d = 28) (hfuel : 255 < fuel)
    (h : StoredTrie hash s S) (hc : AddSeparated hash fresh fuel s k S) {n : Nat}
    (hn : FailsInside hash fresh fuel s k n) (x : Digest d) :
    KeyReached (failedAdd hash fresh fuel s k n).state x ↔ x = k := by
  obtain ⟨t, ht⟩ := h.represents (fun _ => Or.inl) (fun _ => Finset.mem_insert_of_mem) hc
  obtain ⟨s₁, l, hrun, hst⟩ := addTry_fails fresh hd hc hfuel (Finset.mem_insert_self k S) ht
    (fun _ => Or.inr) hn
  rw [failedAdd, KeyValueTrie.add_eq_try, Prog.tryCatch_of_error hrun, addCatch_ok fresh hst,
    Run.after_state]
  set s₂ : TrieState d := ⟨⟨(s₁.storage.table.insert k.bytes
    (TrieNode.newone fresh k).marshall).insert KeyValueRootNode.rootName k.bytes, none⟩, s₁.size + 1⟩
  have hroot : s₂.storage.table.lookup KeyValueRootNode.rootName = some k.bytes :=
    Finmap.lookup_insert _
  have hrecord : s₂.record k = some (TrieNode.newone fresh k).view := by
    have hne : k.bytes ≠ KeyValueRootNode.rootName := by
      intro he
      have hlen := congrArg List.length he
      rw [k.length_bytes] at hlen
      exact absurd hlen (by simp only [KeyValueRootNode.rootName, List.length_cons, List.length_nil]; omega)
    show ((_ : Table).lookup k.bytes).map _ = _
    rw [Finmap.lookup_insert_of_ne _ hne, Finmap.lookup_insert]
    exact congrArg some (record_marshall (TrieNode.newone fresh k))
  have hleaf : ∀ e, s₂.record k = some e → e.children = none := by
    intro e he
    rw [hrecord] at he
    rw [← Option.some.inj he]
    rfl
  constructor
  · rintro ⟨hreach, -⟩
    -- the root has no children
    induction hreach with
    | root hx => exact Digest.bytes_inj (Option.some.inj (hx.symm.trans hroot))
    | smaller _ he hch ih =>
      subst ih
      rw [hleaf _ he] at hch
      cases hch
    | larger _ he hch ih =>
      subst ih
      rw [hleaf _ he] at hch
      cases hch
  · rintro rfl
    exact ⟨.root hroot, _, hrecord, hleaf _ hrecord⟩

theorem StoredTrie.keyReached (h : StoredTrie hash s S) {x : Digest d} (hx : x ∈ S) : KeyReached s x := by
  obtain ⟨e, he, hch⟩ := (h.leaves x).mpr hx
  exact ⟨(h.reachable x).mp (by rw [he]; rfl), e, he, hch⟩

/-- **A storage failure during `add` throws the set away**, wherever it comes: the trie does not survive, and
the new key is all that is reached. -/
theorem failed_add_loses_keys (hash : CryptoHash d) (fresh : Digest d) {fuel : Nat}
    (hd : d = 16 ∨ d = 20 ∨ d = 28) (hfuel : 255 < fuel) {s : TrieState d} {S : Finset (Digest d)}
    (h : StoredTrie hash s S) (hne : S.Nonempty) (k : Digest d) (hnew : k ∉ S)
    (hc : AddSeparated hash fresh fuel s k S) (n : Nat) (hn : FailsInside hash fresh fuel s k n) :
    ¬SurvivesFailure hash fresh fuel s k n ∧
      ∀ x, KeyReached (failedAdd hash fresh fuel s k n).state x ↔ x = k := by
  have hreach := failed_add_reaches fresh hd hfuel h hc hn
  refine ⟨fun hsurvives => ?_, hreach⟩
  obtain ⟨x, hx⟩ := hne
  have hxk : x = k := (hreach x).mp (hsurvives.kept x (h.keyReached hx))
  exact hnew (hxk ▸ hx)

end Add

/-! ## A trie of two keys -/

/-- The trie after `twoKeyOps`, and the key 4. -/
theorem twoKey_stored :
    StoredTrie (mixHash 16) (runTrie (mixHash 16) (byteKey 16 0) 256 twoKeyOps).state
        (setRun ∅ twoKeyOps).2 ∧
      AddSeparated (mixHash 16) (byteKey 16 0) 256 (runTrie (mixHash 16) (byteKey 16 0) 256 twoKeyOps).state
        (byteKey 16 4) (setRun ∅ twoKeyOps).2 := by
  have hun : Unclashed (mixHash 16) (byteKey 16 0) 256 (twoKeyOps ++ [.add (byteKey 16 4)]) :=
    ⟨by decide +kernel, by decide +kernel⟩
  obtain ⟨E, K, hs, hk, hE, t, ht⟩ := hun.represents (Or.inl rfl) (by decide)
  cases t with
  | none =>
    have hmem : byteKey 16 1 ∈ (setRun ∅ twoKeyOps).2 := by decide +kernel
    exact absurd ((ht.keys _).mpr hmem) List.not_mem_nil
  | some t =>
    refine ⟨ht.storedTrie hs, hs.mono (fun a b hp => ?_) fun x hx => ?_⟩
    · rcases hp with hp | hp
      · exact ht.storedPair hs hp
      · exact hE _ (Prog.bind_head_events _ _ _ hp)
    · rcases Finset.mem_insert.mp hx with rfl | hx
      · exact hk _ List.mem_cons_self
      · exact (ht.wellFormed t rfl).placed.keys x ((ht.keys x).mpr hx)

theorem failed_add_loses_keys_sample :
    ¬SurvivesFailure (mixHash 16) (byteKey 16 0) 256
      (runTrie (mixHash 16) (byteKey 16 0) 256 twoKeyOps).state (byteKey 16 4) 3 :=
  (failed_add_loses_keys (mixHash 16) (byteKey 16 0) (Or.inl rfl) (by decide) twoKey_stored.1
    (by decide +kernel) (byteKey 16 4) (by decide +kernel) twoKey_stored.2 3 (by decide +kernel)).1

/-- The first operation fails, which reads the root entry: the key 1 is lost. -/
theorem failed_read_loses_key :
    let s := (runTrie (mixHash 16) (byteKey 16 0) 256 twoKeyOps).state
    StoredTrie (mixHash 16) s (setRun ∅ twoKeyOps).2 ∧ byteKey 16 4 ∉ (setRun ∅ twoKeyOps).2 ∧
      AddSeparated (mixHash 16) (byteKey 16 0) 256 s (byteKey 16 4) (setRun ∅ twoKeyOps).2 ∧
      FailsInside (mixHash 16) (byteKey 16 0) 256 s (byteKey 16 4) 0 ∧ KeyReached s (byteKey 16 1) ∧
      ¬KeyReached (failedAdd (mixHash 16) (byteKey 16 0) 256 s (byteKey 16 4) 0).state (byteKey 16 1) ∧
      ¬SurvivesFailure (mixHash 16) (byteKey 16 0) 256 s (byteKey 16 4) 0 := by
  intro s
  obtain ⟨hstored, hsep⟩ := twoKey_stored
  have hfails : FailsInside (mixHash 16) (byteKey 16 0) 256 s (byteKey 16 4) 0 := by decide +kernel
  have hmem : byteKey 16 1 ∈ (setRun ∅ twoKeyOps).2 := by decide +kernel
  have hbefore : KeyReached s (byteKey 16 1) := hstored.keyReached hmem
  have hafter : ¬KeyReached (failedAdd (mixHash 16) (byteKey 16 0) 256 s (byteKey 16 4) 0).state
      (byteKey 16 1) := by
    rw [failed_add_reaches (byteKey 16 0) (Or.inl rfl) (by decide) hstored hsep hfails]
    decide
  exact ⟨hstored, by decide +kernel, hsep, hfails, hbefore, hafter, fun h => hafter (h.kept _ hbefore)⟩

end SetSync
