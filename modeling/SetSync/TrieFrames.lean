import SetSync.TrieMethods
import SetSync.TrieRuns

/-!
# The size entry of the trie

The destructor of the trie keeps the size in an entry of its own.  No other method looks at that entry: on
storages that differ in it alone, every method does the same (`SameTrie`).

    a storage operation on another key         get_frames, put_frames, del_frames
    a method                                   as its parts do      (frames_closed, exec_frames)
-/

namespace SetSync

open Program BitTrie KeyValueTrie

variable {d : Nat}

/-- Two tries whose storages differ at most in the size entry. -/
structure SameTrie (s s' : TrieState d) : Prop where
  working : s.storage.failure = none
  working' : s'.storage.failure = none
  lookup : ∀ key, key ≠ sizeKey → s'.storage.table.lookup key = s.storage.table.lookup key
  size : s'.size = s.size

/-- The method does the same on both. -/
abbrev Frames {α : Type} (m : TrieM d α) : Prop := Prog.Respects SameTrie m

/-! ## Storage operations -/

section Operations

variable {key : Bytes}

theorem get_frames (h : key ≠ sizeKey) : Frames (onStorage (Storage.get key) : TrieM d (Option Bytes)) := by
  intro s s' hs
  unfold Storage.get
  rw [onTrieStorage_ok _ hs.working, onTrieStorage_ok _ hs.working']
  exact ⟨congrArg Outcome.ok (hs.lookup key h), rfl, rfl, rfl, hs.lookup, hs.size⟩

theorem put_frames (value : Bytes) : Frames (onStorage (Storage.put key value) : TrieM d Unit) := by
  intro s s' hs
  unfold Storage.put
  rw [onTrieStorage_ok _ hs.working, onTrieStorage_ok _ hs.working']
  refine ⟨rfl, rfl, rfl, rfl, fun k hk => ?_, hs.size⟩
  show (s'.storage.table.insert key value).lookup k = (s.storage.table.insert key value).lookup k
  by_cases hkey : k = key
  · rw [hkey, Finmap.lookup_insert, Finmap.lookup_insert]
  · rw [Finmap.lookup_insert_of_ne _ hkey, Finmap.lookup_insert_of_ne _ hkey, hs.lookup k hk]

theorem del_frames : Frames (onStorage (Storage.del key) : TrieM d Unit) := by
  intro s s' hs
  unfold Storage.del
  rw [onTrieStorage_ok _ hs.working, onTrieStorage_ok _ hs.working']
  refine ⟨rfl, rfl, rfl, rfl, fun k hk => ?_, hs.size⟩
  show (s'.storage.table.erase key).lookup k = (s.storage.table.erase key).lookup k
  by_cases hkey : k = key
  · rw [hkey, Finmap.lookup_erase, Finmap.lookup_erase]
  · rw [Finmap.lookup_erase_ne hkey, Finmap.lookup_erase_ne hkey, hs.lookup k hk]

theorem clearStorage_frames : Frames (onStorage Storage.clear : TrieM d Unit) := by
  intro s s' hs
  unfold Storage.clear
  rw [onTrieStorage_ok _ hs.working, onTrieStorage_ok _ hs.working']
  exact ⟨rfl, rfl, rfl, rfl, fun _ _ => rfl, hs.size⟩

end Operations

/-- **The methods of a node.** -/
theorem frames_closed : Closed (d := d) fun _ m => Frames m where
  toCongruence := Prog.respects_congruence SameTrie
  get _ h := get_frames h
  put _ value := put_frames value
  del _ := del_frames

/-! ## The trie -/

section Methods

variable (hd : d ≠ 8)

include hd

theorem erase_frames (hash : CryptoHash d) (fuel : Nat) (key : Digest d) (performHash : Bool) :
    Frames (TrieNode.erase hash fuel key performHash) := by
  refine Prog.Respects.tryCatch ?_ fun e => ?_
  · exact (frames_closed.eraseNode hd hash fuel key performHash).bind fun _ => Prog.Respects.pure _
  · split
    · exact Prog.Respects.pure _
    · exact Prog.Respects.throw _

omit hd in
theorem getSize_frames : Frames (getSize : TrieM d Nat) := fun _ _ hs =>
  ⟨congrArg Outcome.ok hs.size, rfl, hs⟩

omit hd in
theorem setSize_frames {f : Nat → Nat} :
    Frames (Prog.modify fun s : TrieState d => { s with size := f s.size } : TrieM d Unit) :=
  Prog.Respects.modify fun _ _ hs => ⟨hs.working, hs.working', hs.lookup, congrArg f hs.size⟩

omit hd in
theorem clear_frames : Frames (KeyValueTrie.clear : TrieM d Unit) :=
  clearStorage_frames.bind fun _ => setSize_frames (f := fun _ => 0)

theorem add_frames (hash : CryptoHash d) (fresh : Digest d) (fuel : Nat) (key : Digest d)
    (performhash : Bool) : Frames (KeyValueTrie.add hash fresh fuel key performhash) := by
  refine Prog.Respects.tryCatch ?_ fun e => ?_
  · apply (frames_closed.getRootNode hd).bind
    intro root
    apply (frames_closed.insert hd hash fuel fuel _ _ _).bind
    intro inserted
    split
    · exact (setSize_frames (f := (· + 1))).bind fun _ => Prog.Respects.pure _
    · exact Prog.Respects.pure _
  · refine (frames_closed.toDb _).bind fun _ => (frames_closed.setRoot _).bind fun _ => ?_
    exact (setSize_frames (f := (· + 1))).bind fun _ => Prog.Respects.pure _

theorem remove_frames (hash : CryptoHash d) (fuel : Nat) (key : Digest d) (performhash : Bool) :
    Frames (KeyValueTrie.remove hash fuel key performhash) := by
  refine Prog.Respects.tryCatch ?_ fun e => Prog.Respects.pure _
  apply (frames_closed.getRootNode hd).bind
  intro root
  apply (erase_frames hd hash fuel key performhash).bind
  intro removed
  refine Prog.Respects.bind ?_ fun _ => getSize_frames.bind fun size => Prog.Respects.bind ?_ fun _ =>
    Prog.Respects.pure _
  · split
    · exact setSize_frames (f := fun n => if n = 0 then 2 ^ 64 - 1 else n - 1)
    · exact Prog.Respects.pure _
  · split
    · exact clear_frames
    · exact Prog.Respects.pure _

theorem contains_frames (key : Digest d) : Frames (KeyValueTrie.contains key) := by
  refine Prog.Respects.tryCatch ?_ fun e => Prog.Respects.pure _
  exact (frames_closed.load hd key).bind fun node => Prog.Respects.pure _

theorem getRoot_frames : Frames (KeyValueTrie.getRoot : TrieM d (Option (Digest d))) := by
  apply getSize_frames.bind
  intro size
  split
  · exact Prog.Respects.pure _
  · refine Prog.Respects.tryCatch ?_ fun e => ?_
    · exact (frames_closed.getRootNode hd).bind fun root => Prog.Respects.pure _
    · split
      · exact Prog.Respects.pure _
      · exact Prog.Respects.throw _

theorem exec_frames (hash : CryptoHash d) (fresh : Digest d) (fuel : Nat) (op : SetOp (Digest d)) :
    Frames (op.exec hash fresh fuel) := by
  cases op with
  | add k => exact (add_frames hd hash fresh fuel k true).bind fun _ => Prog.Respects.pure _
  | remove k => exact (remove_frames hd hash fuel k true).bind fun _ => Prog.Respects.pure _
  | clear => exact clear_frames.bind fun _ => Prog.Respects.pure _

end Methods

end SetSync
