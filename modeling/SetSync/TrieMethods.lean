import SetSync.KeyValueTrie

/-!
# What the methods of the trie are built of

The methods of a node sequence storage operations on records and the root entry.  A property of programs
that holds of these operations, of the programs that do nothing, throw or emit, and of sequences of
programs that have it, holds of the methods (`Closed`, one lemma a method, in the order of
`KeyValueTrie.lean`).

    Closed C → C (insert ..), C (eraseNode ..)                       (Closed.insert, Closed.eraseNode)
-/

namespace SetSync

open Program KeyValueTrie

variable {d : Nat}

/-- The property `C` holds of the storage operations, and composes. -/
structure Closed (C : ∀ α : Type, TrieM d α → Prop) : Prop extends Prog.Congruence C where
  get : ∀ key, key ≠ sizeKey → C _ (onStorage (Storage.get key))
  put : ∀ key value, C _ (onStorage (Storage.put key value))
  del : ∀ key, C _ (onStorage (Storage.del key))

/-- An operation on a working storage. -/
theorem onTrieStorage_ok {α : Type} (f : Table → α × Table) {s : TrieState d}
    (h : s.storage.failure = none) : (onStorage (Storage.operation f) : TrieM d α) s
      = ⟨.ok (f s.storage.table).1, { s with storage := ⟨(f s.storage.table).2, none⟩ }, []⟩ :=
  Prog.zoom_of_eq (Storage.operation_ok f h)

/-! ## Nodes -/

section Nodes

theorem bytes_ne_sizeKey (hd : d ≠ 8) (x : Digest d) : x.bytes ≠ sizeKey := by
  intro he
  have hlen := congrArg List.length he
  rw [x.length_bytes] at hlen
  exact hd hlen

variable {C : ∀ α : Type, TrieM d α → Prop} (hC : Closed C) (hd : d ≠ 8)

include hC hd

theorem Closed.load (x : Digest d) : C _ (TrieNode.load x) := by
  apply hC.bind (hC.get _ (bytes_ne_sizeKey hd x))
  intro found
  cases found with
  | none => exact hC.throw _
  | some result => exact hC.pure _

omit hd in
theorem Closed.toDb (n : TrieNode d) : C _ n.toDb := hC.put _ _

omit hd in
theorem Closed.deleteFromDb (n : TrieNode d) : C _ n.deleteFromDb := hC.del _

theorem Closed.getSmaller (n : TrieNode d) : C _ n.getSmaller := by
  unfold TrieNode.getSmaller
  split
  · exact hC.load hd _
  · exact hC.throw _

theorem Closed.getLarger (n : TrieNode d) : C _ n.getLarger := by
  unfold TrieNode.getLarger
  split
  · exact hC.load hd _
  · exact hC.throw _

theorem Closed.getParent (n : TrieNode d) : C _ n.getParent := by
  unfold TrieNode.getParent
  split
  · exact hC.load hd _
  · exact hC.throw _

omit hd in
theorem Closed.setSmaller (n c : TrieNode d) : C _ (n.setSmaller c) := by
  unfold TrieNode.setSmaller
  split
  · exact hC.throw _
  · exact hC.pure _

omit hd in
theorem Closed.setLarger (n c : TrieNode d) : C _ (n.setLarger c) := by
  unfold TrieNode.setLarger
  split
  · exact hC.throw _
  · exact hC.pure _

omit hd in
theorem Closed.updateHash (hash : CryptoHash d) (n : TrieNode d) : C _ (n.updateHash hash) := by
  unfold TrieNode.updateHash
  split
  · exact hC.bind (hC.emit _) fun _ => hC.pure _
  · exact hC.pure _

omit hd in
theorem Closed.deleteAll (ns : List (TrieNode d)) : C _ (TrieNode.deleteAll ns) := by
  induction ns with
  | nil => exact hC.pure _
  | cons n ns ih => exact hC.bind (hC.deleteFromDb n) fun _ => ih

omit hd in
theorem Closed.commonPrefixLoop (this other : TrieNode d) (fuel : Nat) (i common : UInt8) :
    C _ (TrieNode.commonPrefixLoop this other fuel i common) := by
  induction fuel generalizing i common with
  | zero => exact hC.diverge
  | succ fuel ih =>
    unfold TrieNode.commonPrefixLoop
    split
    · split
      · exact hC.pure _
      · exact ih _ _
    · exact hC.pure _

theorem Closed.getRootNode : C _ (KeyValueRootNode.get : TrieM d (TrieNode d)) := by
  apply hC.bind (hC.get _ (by decide))
  intro found
  cases found with
  | none => exact hC.throw _
  | some rootHash =>
    simp only
    split
    · exact hC.load hd _
    · exact hC.throw _

omit hd in
theorem Closed.setRoot (x : Digest d) : C _ (KeyValueRootNode.set x) := hC.put _ _

/-! ## Insertion -/

theorem Closed.insertReplace (oldparent oldchild newchild : TrieNode d) :
    C _ (TrieNode.insertReplace oldparent oldchild newchild) := by
  apply hC.bind (hC.getLarger hd oldparent)
  intro otherchild
  split
  · exact hC.bind (hC.setSmaller _ _) fun _ => hC.pure _
  · split
    · apply hC.bind (hC.getSmaller hd _)
      intro _
      exact hC.bind (hC.setLarger _ _) fun _ => hC.pure _
    · exact hC.throw _

theorem Closed.insertLoop (hash : CryptoHash d) (fuel : Nat) (oldchild child : TrieNode d)
    (roothash : Digest d) (toBeDeleted : List (TrieNode d)) :
    C _ (TrieNode.insertLoop hash fuel oldchild child roothash toBeDeleted) := by
  induction fuel generalizing oldchild child roothash toBeDeleted with
  | zero => exact hC.diverge
  | succ fuel ih =>
    unfold TrieNode.insertLoop
    split
    · apply hC.bind (hC.getParent hd _)
      intro oldparent
      apply hC.bind (hC.insertReplace hd _ _ _)
      rintro ⟨parent, otherchild⟩
      apply hC.bind (hC.updateHash hash parent)
      intro parent
      refine hC.bind (hC.toDb _) fun _ => hC.bind (hC.toDb _) fun _ => ?_
      exact hC.bind (hC.toDb _) fun _ => ih _ _ _ _
    · exact hC.pure _

theorem Closed.insertLazy (oldnode intermediate : TrieNode d) :
    C _ (TrieNode.insertLazy oldnode intermediate) := by
  unfold TrieNode.insertLazy
  refine hC.bind ?_ fun _ => hC.toDb _
  split
  · apply hC.bind (hC.getParent hd _)
    intro parent
    simp only
    split
    · exact hC.bind (hC.setSmaller _ _) fun _ => hC.toDb _
    · split
      · exact hC.bind (hC.setLarger _ _) fun _ => hC.toDb _
      · exact hC.throw _
  · exact hC.setRoot _

omit hd in
theorem Closed.insertIntermediate (hash : CryptoHash d) (this node : TrieNode d) :
    C _ (TrieNode.insertIntermediate hash this node) := by
  apply hC.bind (hC.commonPrefixLoop this node 257 0 0)
  intro common
  refine hC.bind ?_ fun intermediate => ?_
  · split
    · exact hC.pure _
    · split
      · exact hC.pure _
      · exact hC.throw _
  · apply hC.bind (hC.updateHash hash _)
    intro intermediate
    refine hC.bind (hC.toDb _) fun _ => hC.bind (hC.toDb _) fun _ => ?_
    split
    · exact hC.bind (hC.toDb _) fun _ => hC.pure _
    · exact hC.pure _

theorem Closed.insertSplit (hash : CryptoHash d) (fuel : Nat) (this node : TrieNode d)
    (performHash : Bool) : C _ (TrieNode.insertSplit hash fuel this node performHash) := by
  apply hC.bind (hC.insertIntermediate hash this node)
  intro intermediate
  split
  · apply hC.bind (hC.insertLoop hd hash fuel _ _ _ _)
    rintro ⟨roothash, toBeDeleted⟩
    exact hC.bind (hC.setRoot _) fun _ => hC.deleteAll _
  · exact hC.insertLazy hd _ _

theorem Closed.insert (hash : CryptoHash d) (fuel depth : Nat) (this node : TrieNode d)
    (performHash : Bool) : C _ (TrieNode.insert hash fuel depth this node performHash) := by
  induction depth generalizing this with
  | zero => exact hC.diverge
  | succ depth ih =>
    unfold TrieNode.insert
    split
    · split
      · exact hC.bind (hC.getLarger hd _) fun larger => ih larger
      · split
        · exact hC.bind (hC.getSmaller hd _) fun smaller => ih smaller
        · split
          · exact hC.pure _
          · exact hC.throw _
    · exact hC.bind (hC.insertSplit hd hash fuel this node performHash) fun _ => hC.pure _

/-! ## Deletion -/

theorem Closed.eraseReplace (what : String) (oldparent oldchild newchild : TrieNode d) :
    C _ (TrieNode.eraseReplace what oldparent oldchild newchild) := by
  unfold TrieNode.eraseReplace
  split
  · apply hC.bind (hC.getSmaller hd _)
    intro _
    exact hC.bind (hC.setLarger _ _) fun _ => hC.pure _
  · split
    · apply hC.bind (hC.getLarger hd _)
      intro _
      exact hC.bind (hC.setSmaller _ _) fun _ => hC.pure _
    · exact hC.throw _

theorem Closed.eraseLoop (hash : CryptoHash d) (fuel : Nat) (oldgrandparent newgrandparent : TrieNode d)
    (oldnodes : List (TrieNode d)) :
    C _ (TrieNode.eraseLoop hash fuel oldgrandparent newgrandparent oldnodes) := by
  induction fuel generalizing oldgrandparent newgrandparent oldnodes with
  | zero => exact hC.diverge
  | succ fuel ih =>
    unfold TrieNode.eraseLoop
    split
    · apply hC.bind (hC.getParent hd _)
      intro oldgrandgrandparent
      apply hC.bind (hC.eraseReplace hd _ _ _ _)
      rintro ⟨newgrandgrandparent, otherchild⟩
      apply hC.bind (hC.updateHash hash _)
      intro newgrandgrandparent
      refine hC.bind (hC.toDb _) fun _ => hC.bind (hC.toDb _) fun _ => ?_
      exact hC.bind (hC.toDb _) fun _ => ih _ _ _
    · exact hC.pure _

theorem Closed.eraseLazy (oldgrandparent newgrandparent : TrieNode d) :
    C _ (TrieNode.eraseLazy oldgrandparent newgrandparent) := by
  apply hC.bind (hC.getParent hd _)
  intro oldgrandgrandparent
  split
  · exact hC.bind (hC.setLarger _ _) fun _ => hC.toDb _
  · split
    · exact hC.bind (hC.setSmaller _ _) fun _ => hC.toDb _
    · exact hC.throw _

theorem Closed.eraseUnderRoot (toBeDeleted parent : TrieNode d) :
    C _ (TrieNode.eraseUnderRoot toBeDeleted parent) := by
  unfold TrieNode.eraseUnderRoot
  refine hC.bind ?_ fun childOfParent => ?_
  · split
    · exact hC.getSmaller hd _
    · exact hC.getLarger hd _
  · refine hC.bind (hC.toDb _) fun _ => hC.bind (hC.setRoot _) fun _ => ?_
    exact hC.bind (hC.deleteFromDb _) fun _ => hC.deleteFromDb _

theorem Closed.eraseGrandparent (hash : CryptoHash d) (toBeDeleted parent : TrieNode d) :
    C _ (TrieNode.eraseGrandparent hash toBeDeleted parent) := by
  apply hC.bind (hC.getParent hd _)
  intro oldgrandparent
  refine hC.bind ?_ fun childOfParent => ?_
  · split
    · exact hC.getSmaller hd _
    · split
      · exact hC.getLarger hd _
      · exact hC.throw _
  · apply hC.bind (hC.eraseReplace hd _ _ _ _)
    rintro ⟨newgrandparent, childOfGrandParent⟩
    apply hC.bind (hC.updateHash hash _)
    intro newgrandparent
    refine hC.bind (hC.toDb _) fun _ => hC.bind (hC.toDb _) fun _ => ?_
    exact hC.bind (hC.toDb _) fun _ => hC.pure _

theorem Closed.eraseUnderGrandparent (hash : CryptoHash d) (fuel : Nat) (toBeDeleted parent : TrieNode d)
    (performHash : Bool) :
    C _ (TrieNode.eraseUnderGrandparent hash fuel toBeDeleted parent performHash) := by
  apply hC.bind (hC.eraseGrandparent hd hash _ _)
  rintro ⟨oldgrandparent, newgrandparent⟩
  simp only
  split
  · exact hC.bind (hC.setRoot _) fun _ => hC.deleteAll _
  · split
    · apply hC.bind (hC.eraseLoop hd hash fuel _ _ _)
      rintro ⟨newroot, oldnodes⟩
      exact hC.bind (hC.setRoot _) fun _ => hC.deleteAll _
    · exact hC.bind (hC.eraseLazy hd _ _) fun _ => hC.deleteAll _

theorem Closed.eraseNode (hash : CryptoHash d) (fuel : Nat) (key : Digest d) (performHash : Bool) :
    C _ (TrieNode.eraseNode hash fuel key performHash) := by
  apply hC.bind (hC.load hd key)
  intro toBeDeleted
  split
  · exact hC.throw _
  · split
    · exact hC.bind (hC.del _) fun _ => hC.deleteFromDb _
    · apply hC.bind (hC.getParent hd _)
      intro parent
      split
      · exact hC.eraseUnderRoot hd _ _
      · exact hC.eraseUnderGrandparent hd hash fuel _ _ _

end Nodes

end SetSync
