import SetSync.KeyValueTrie
import SetSync.Lib.Merkle

/-!
# The storage of a trie as a map of entries

`Holds s M root n`: the storage of `s` works, the record under a hash is the entry that `M` gives,
the `"root"` entry is `root`, there is nothing else, and the size is `n`.  `Shows n x e`: the
in-memory node `n` is a copy of the entry `e` under `x`.  Every method of a single node is one
update of `M` (`toDb_ok`, `deleteFromDb_ok`) or one field of `e` (`Shows.setParent`, ...), and the
proofs about insertion and deletion use nothing else.

The name of the root entry has four bytes, so it is no hash of a digest of another length.
-/

namespace SetSync

open Program BitTrie

variable {d : Nat}

/-- Number of bits that `prefix_mask` says a leaf has: all of them if they fit into a `uint8_t`. -/
def leafMask (d : Nat) : Nat := 8 * d % 256

abbrev Entries (d : Nat) : Type := Digest d → Option (Entry (Digest d))

/-- The part of a node that the trie reads. -/
def TrieNode.view (n : TrieNode d) : Entry (Digest d) where
  parent := if n.hasParent then some n.parent else none
  children := if n.hasChildren then some (n.smaller, n.larger) else none
  stem := n.nodePrefix
  len := n.prefixMask.toNat
  stale := n.dirty

/-- The record stored under a hash. -/
def TrieState.record (s : TrieState d) (x : Digest d) : Option (Entry (Digest d)) :=
  (s.storage.table.lookup x.bytes).map fun v => (TrieNode.unmarshall x v).view

structure Holds (s : TrieState d) (M : Entries d) (root : Option (Digest d)) (n : Nat) : Prop where
  failure : s.storage.failure = none
  record : ∀ x, s.record x = M x
  root : s.storage.table.lookup KeyValueRootNode.rootName = root.map Digest.bytes
  only : ∀ key, key ∈ s.storage.table → key = KeyValueRootNode.rootName ∨ key.length = d
  size : s.size = n

structure Shows (n : TrieNode d) (x : Digest d) (e : Entry (Digest d)) : Prop where
  hash : n.hash = x
  view : n.view = e

/-! ## Copies of an entry -/

namespace Shows

variable {n : TrieNode d} {x : Digest d} {e : Entry (Digest d)}

theorem refl (n : TrieNode d) : Shows n n.hash n.view := ⟨rfl, rfl⟩

theorem stem (h : Shows n x e) : n.nodePrefix = e.stem := by rw [← h.view]; rfl

theorem len (h : Shows n x e) : n.prefixMask.toNat = e.len := by rw [← h.view]; rfl

theorem hasParent (h : Shows n x e) : n.hasParent = e.parent.isSome := by
  rw [← h.view, TrieNode.view]
  cases n.hasParent <;> rfl

theorem hasChildren (h : Shows n x e) : n.hasChildren = e.children.isSome := by
  rw [← h.view, TrieNode.view]
  cases n.hasChildren <;> rfl

theorem parent {p : Digest d} (h : Shows n x e) (hp : e.parent = some p) : n.parent = p := by
  have hs := h.hasParent
  rw [hp] at hs
  rw [← h.view, TrieNode.view, hs] at hp
  exact Option.some.inj hp

theorem children {a b : Digest d} (h : Shows n x e) (hc : e.children = some (a, b)) :
    n.smaller = a ∧ n.larger = b := by
  have hs := h.hasChildren
  rw [hc] at hs
  rw [← h.view, TrieNode.view, hs] at hc
  exact Prod.mk.inj (Option.some.inj hc)

theorem setParent (h : Shows n x e) (p : TrieNode d) :
    Shows (n.setParent p) x { e with parent := some p.hash } := by
  refine ⟨h.hash, ?_⟩
  rw [← h.view]
  rfl

theorem setChildren (h : Shows n x e) (a b : TrieNode d) :
    Shows (n.setChildren a b) x { e with children := some (a.hash, b.hash), stale := true } := by
  refine ⟨h.hash, ?_⟩
  rw [← h.view]
  rfl

theorem setSmaller {a b : Digest d} (h : Shows n x e) (hc : e.children = some (a, b))
    (c : TrieNode d) (s : TrieState d) :
    ∃ n', n.setSmaller c s = ⟨.ok n', s, []⟩ ∧
      Shows n' x { e with children := some (c.hash, b), stale := true } := by
  have hs := h.hasChildren
  rw [hc] at hs
  refine ⟨{ n with smaller := c.hash, dirty := true }, ?_, h.hash, ?_⟩
  · simp [TrieNode.setSmaller, hs]
  · rw [← (h.children hc).2, ← h.view]
    simp [TrieNode.view, hs]

theorem setLarger {a b : Digest d} (h : Shows n x e) (hc : e.children = some (a, b))
    (c : TrieNode d) (s : TrieState d) :
    ∃ n', n.setLarger c s = ⟨.ok n', s, []⟩ ∧
      Shows n' x { e with children := some (a, c.hash), stale := true } := by
  have hs := h.hasChildren
  rw [hc] at hs
  refine ⟨{ n with larger := c.hash, dirty := true }, ?_, h.hash, ?_⟩
  · simp [TrieNode.setLarger, hs]
  · rw [← (h.children hc).1, ← h.view]
    simp [TrieNode.view, hs]

theorem updateHash {a b : Digest d} (h : Shows n x e) (hc : e.children = some (a, b))
    (hash : CryptoHash d) (s : TrieState d) :
    ∃ n', n.updateHash hash s = ⟨.ok n', s, [(a, b)]⟩ ∧
      Shows n' (hash.pair a b) { e with stale := false } := by
  have hs := h.hasChildren
  rw [hc] at hs
  obtain ⟨ha, hb⟩ := h.children hc
  refine ⟨{ n with hash := hash.pair a b, dirty := false }, ?_, rfl, ?_⟩
  · simp only [TrieNode.updateHash, hs, ha, hb]
    rfl
  · rw [← h.view]
    rfl

theorem getParent {p : Digest d} (h : Shows n x e) (hp : e.parent = some p) :
    n.getParent = TrieNode.load p := by
  have hs := h.hasParent
  rw [hp] at hs
  simp [TrieNode.getParent, hs, h.parent hp]

theorem getSmaller {a b : Digest d} (h : Shows n x e) (hc : e.children = some (a, b)) :
    n.getSmaller = TrieNode.load a := by
  have hs := h.hasChildren
  rw [hc] at hs
  simp [TrieNode.getSmaller, hs, (h.children hc).1]

theorem getLarger {a b : Digest d} (h : Shows n x e) (hc : e.children = some (a, b)) :
    n.getLarger = TrieNode.load b := by
  have hs := h.hasChildren
  rw [hc] at hs
  simp [TrieNode.getLarger, hs, (h.children hc).2]

theorem isEqualToSmaller {a b : Digest d} (h : Shows n x e) (hc : e.children = some (a, b))
    (c : TrieNode d) : n.isEqualToSmaller c = (c.hash == a) := by
  unfold TrieNode.isEqualToSmaller
  rw [(h.children hc).1]

theorem isEqualToLarger {a b : Digest d} (h : Shows n x e) (hc : e.children = some (a, b))
    (c : TrieNode d) : n.isEqualToLarger c = (c.hash == b) := by
  unfold TrieNode.isEqualToLarger
  rw [(h.children hc).2]

end Shows

/-- A new leaf, as `add` and `insert` create it. -/
theorem shows_newone (fresh k : Digest d) :
    Shows (TrieNode.newone fresh k) k ((Trie.leaf k).entry (leafMask d) none) := by
  refine ⟨rfl, ?_⟩
  simp [TrieNode.view, TrieNode.newone, Trie.entry, leafMask]

/-! ## Operations on the storage -/

theorem onStorage_put {s : TrieState d} (h : s.storage.failure = none) (key value : Bytes) :
    onStorage (Storage.put key value) s =
      ⟨.ok (), ⟨⟨s.storage.table.insert key value, none⟩, s.size⟩, []⟩ :=
  Prog.zoom_of_eq (Storage.put_ok key value h)

theorem onStorage_del {s : TrieState d} (h : s.storage.failure = none) (key : Bytes) :
    onStorage (Storage.del key) s = ⟨.ok (), ⟨⟨s.storage.table.erase key, none⟩, s.size⟩, []⟩ :=
  Prog.zoom_of_eq (Storage.del_ok key h)

theorem onStorage_read {s : TrieState d} (h : s.storage.failure = none) (key : Bytes) :
    onStorage (Storage.get key) s = ⟨.ok (s.storage.table.lookup key), s, []⟩ :=
  Prog.zoom_of_eq (Storage.get_ok key h)

theorem load_found {s : TrieState d} (h : s.storage.failure = none) {x : Digest d} {v : Bytes}
    (hx : s.storage.table.lookup x.bytes = some v) :
    TrieNode.load x s = ⟨.ok (TrieNode.unmarshall x v), s, []⟩ := by
  rw [TrieNode.load, Prog.bind_of_ok (onStorage_read h _), hx]
  rfl

theorem load_missing {s : TrieState d} (h : s.storage.failure = none) {x : Digest d}
    (hx : s.storage.table.lookup x.bytes = none) :
    TrieNode.load x s = ⟨.error .trieNodeNotFound, s, []⟩ := by
  rw [TrieNode.load, Prog.bind_of_ok (onStorage_read h _), hx]
  rfl

theorem rootGet_missing {s : TrieState d} (h : s.storage.failure = none)
    (hroot : s.storage.table.lookup KeyValueRootNode.rootName = none) :
    KeyValueRootNode.get s = ⟨.error .trieRootNotFound, s, []⟩ := by
  rw [KeyValueRootNode.get, Prog.bind_of_ok (onStorage_read h _), hroot]
  rfl

/-- Clearing a working trie leaves an empty one. -/
theorem clear_empties {s : TrieState d} (h : s.storage.failure = none) :
    KeyValueTrie.clear s = ⟨.ok (), KeyValueTrie.empty d, []⟩ := by
  have hclear : onStorage Storage.clear s = ⟨.ok (), { s with storage := ⟨∅, none⟩ }, []⟩ :=
    Prog.zoom_of_eq (Storage.clear_ok h)
  unfold KeyValueTrie.clear
  rw [Prog.bind_of_ok hclear]
  rfl

theorem bytes_ne_rootName (hd : d ≠ 4) (x : Digest d) : x.bytes ≠ KeyValueRootNode.rootName := by
  intro h
  have hl := x.length_bytes
  rw [h] at hl
  exact hd hl.symm

theorem record_marshall (n : TrieNode d) : (TrieNode.unmarshall n.hash n.marshall).view = n.view := by
  rw [TrieNode.unmarshall_marshall]

theorem Digest.bytes_inj {x y : Digest d} (h : x.bytes = y.bytes) : x = y := Digest.ext h

section Operations

variable {s : TrieState d} {M : Entries d} {r : Option (Digest d)} {size : Nat}

theorem Holds.congr {M' : Entries d} (h : Holds s M r size) (hM : ∀ x, M x = M' x) :
    Holds s M' r size :=
  ⟨h.failure, fun x => (h.record x).trans (hM x), h.root, h.only, h.size⟩

theorem load_ok {x : Digest d} {e : Entry (Digest d)} (h : Holds s M r size) (hx : M x = some e) :
    ∃ n, TrieNode.load x s = ⟨.ok n, s, []⟩ ∧ Shows n x e := by
  have hrec := h.record x
  rw [hx, TrieState.record] at hrec
  obtain ⟨v, hv, he⟩ := Option.map_eq_some_iff.mp hrec
  exact ⟨TrieNode.unmarshall x v, load_found h.failure hv, rfl, he⟩

theorem load_error {x : Digest d} (h : Holds s M r size) (hx : M x = none) :
    TrieNode.load x s = ⟨.error .trieNodeNotFound, s, []⟩ := by
  have hrec := h.record x
  rw [hx, TrieState.record, Option.map_eq_none_iff] at hrec
  exact load_missing h.failure hrec

theorem toDb_ok (hd : d ≠ 4) (h : Holds s M r size) (n : TrieNode d) :
    ∃ s', n.toDb s = ⟨.ok (), s', []⟩ ∧
      Holds s' (Function.update M n.hash (some n.view)) r size := by
  refine ⟨⟨⟨s.storage.table.insert n.hash.bytes n.marshall, none⟩, s.size⟩,
    onStorage_put h.failure _ _, rfl, ?_, ?_, ?_, h.size⟩
  · intro x
    by_cases hx : x = n.hash
    · subst hx
      simp [TrieState.record, record_marshall]
    · have hb : x.bytes ≠ n.hash.bytes := fun hc => hx (Digest.bytes_inj hc)
      simp only [TrieState.record, Finmap.lookup_insert_of_ne _ hb, Function.update_of_ne hx]
      exact h.record x
  · rw [Finmap.lookup_insert_of_ne _ (bytes_ne_rootName hd n.hash).symm]
    exact h.root
  · intro key hkey
    rcases Finmap.mem_insert.mp hkey with rfl | hkey
    · exact Or.inr n.hash.length_bytes
    · exact h.only key hkey

theorem deleteFromDb_ok (hd : d ≠ 4) (h : Holds s M r size) (n : TrieNode d) :
    ∃ s', n.deleteFromDb s = ⟨.ok (), s', []⟩ ∧ Holds s' (Function.update M n.hash none) r size := by
  refine ⟨⟨⟨s.storage.table.erase n.hash.bytes, none⟩, s.size⟩,
    onStorage_del h.failure _, rfl, ?_, ?_, ?_, h.size⟩
  · intro x
    by_cases hx : x = n.hash
    · subst hx
      simp [TrieState.record]
    · have hb : x.bytes ≠ n.hash.bytes := fun hc => hx (Digest.bytes_inj hc)
      simp only [TrieState.record, Finmap.lookup_erase_ne hb, Function.update_of_ne hx]
      exact h.record x
  · rw [Finmap.lookup_erase_ne (bytes_ne_rootName hd n.hash).symm]
    exact h.root
  · intro key hkey
    exact h.only key (Finmap.mem_erase.mp hkey).2

theorem rootSet_ok (hd : d ≠ 4) (h : Holds s M r size) (x : Digest d) :
    ∃ s', KeyValueRootNode.set x s = ⟨.ok (), s', []⟩ ∧ Holds s' M (some x) size := by
  refine ⟨⟨⟨s.storage.table.insert KeyValueRootNode.rootName x.bytes, none⟩, s.size⟩,
    onStorage_put h.failure _ _, rfl, ?_, ?_, ?_, h.size⟩
  · intro y
    simp only [TrieState.record, Finmap.lookup_insert_of_ne _ (bytes_ne_rootName hd y)]
    exact h.record y
  · rw [Finmap.lookup_insert, Option.map_some]
  · intro key hkey
    rcases Finmap.mem_insert.mp hkey with rfl | hkey
    · exact Or.inl rfl
    · exact h.only key hkey

theorem rootDel_ok (hd : d ≠ 4) (h : Holds s M r size) :
    ∃ s', KeyValueRootNode.del s = ⟨.ok (), s', []⟩ ∧ Holds s' M none size := by
  refine ⟨⟨⟨s.storage.table.erase KeyValueRootNode.rootName, none⟩, s.size⟩,
    onStorage_del h.failure _, rfl, ?_, ?_, ?_, h.size⟩
  · intro y
    simp only [TrieState.record, Finmap.lookup_erase_ne (bytes_ne_rootName hd y)]
    exact h.record y
  · rw [Finmap.lookup_erase, Option.map_none]
  · intro key hkey
    exact h.only key (Finmap.mem_erase.mp hkey).2

theorem rootGet_ok {x : Digest d} {e : Entry (Digest d)} (h : Holds s M (some x) size)
    (hx : M x = some e) : ∃ n, KeyValueRootNode.get s = ⟨.ok n, s, []⟩ ∧ Shows n x e := by
  obtain ⟨n, hn, hs⟩ := load_ok h hx
  have hget : onStorage (Storage.get KeyValueRootNode.rootName) s = ⟨.ok (some x.bytes), s, []⟩ := by
    rw [onStorage_read h.failure, h.root, Option.map_some]
  refine ⟨n, ?_, hs⟩
  unfold KeyValueRootNode.get
  rw [Prog.bind_of_ok hget]
  simp only [x.length_bytes, dif_pos]
  rw [hn]
  rfl

theorem rootGet_error (h : Holds s M none size) :
    KeyValueRootNode.get s = ⟨.error .trieRootNotFound, s, []⟩ := rootGet_missing h.failure h.root

theorem deleteAll_ok (hd : d ≠ 4) (ns : List (TrieNode d)) (h : Holds s M r size) :
    ∃ s', TrieNode.deleteAll ns s = ⟨.ok (), s', []⟩ ∧
      Holds s' (fun x => if x ∈ ns.map TrieNode.hash then none else M x) r size := by
  induction ns generalizing s M with
  | nil => exact ⟨s, rfl, h.congr fun x => by simp⟩
  | cons n ns ih =>
    obtain ⟨s₁, hs₁, h₁⟩ := deleteFromDb_ok hd h n
    obtain ⟨s₂, hs₂, h₂⟩ := ih h₁
    refine ⟨s₂, ?_, h₂.congr fun x => ?_⟩
    · unfold TrieNode.deleteAll
      rw [Prog.bind_of_ok hs₁, hs₂]
      rfl
    · by_cases hx : x = n.hash
      · subst hx; simp
      · simp [hx]

theorem holds_empty (d : Nat) : Holds (KeyValueTrie.empty d) (fun _ => none) none 0 :=
  ⟨rfl, fun _ => rfl, rfl, fun _ hkey => absurd hkey Finmap.notMem_empty, rfl⟩

theorem clear_ok (h : s.storage.failure = none) :
    ∃ s', KeyValueTrie.clear s = ⟨.ok (), s', []⟩ ∧ Holds s' (fun _ => none) none 0 :=
  ⟨_, clear_empties h, holds_empty d⟩

end Operations

end SetSync
