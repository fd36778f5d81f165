import SetSync.TrieNode

/-!
# The key-value trie

`KeyValueRootNode`, the methods of `TrieNode` that rewrite a path of the trie, and `KeyValueTrie`
itself, from `trie/KeyValueTrie.cpp`.  An in-memory node is a copy of its record: every method works
on copies, writes them back one by one, and deletes the replaced records at the end.

`performHash = true` recomputes the hashes of all ancestors and moves their records to the new
keys; `performHash = false` rewrites the parent alone and marks it dirty.

The descent of `insert` and the two loops up to the root take fuel.  There are at most 255 nodes
between the root and a leaf, since `prefix_mask` is a `uint8_t` and grows on the way down.
-/

namespace SetSync

open Program

variable {d : Nat}

/-! ## The root entry -/

namespace KeyValueRootNode

/-- The bytes of `"root"`. -/
def rootName : Bytes := [114, 111, 111, 116]

def get : TrieM d (TrieNode d) := do
  match ← onStorage (Storage.get rootName) with
  | some rootHash =>
    if h : rootHash.length = d then TrieNode.load ⟨rootHash, h⟩
    else throw (.trieException "wrong root key size")
  | none => throw .trieRootNotFound

def set (hash : Digest d) : TrieM d Unit := onStorage (Storage.put rootName hash.bytes)

def del : TrieM d Unit := onStorage (Storage.del rootName)

end KeyValueRootNode

namespace TrieNode

/-! ## Insertion -/

/-- The new parent and its other child, when `newchild` takes the place of `oldchild`. -/
def insertReplace (oldparent oldchild newchild : TrieNode d) : TrieM d (TrieNode d × TrieNode d) := do
  let otherchild ← oldparent.getLarger
  if oldparent.isEqualToSmaller oldchild then
    let parent ← oldparent.setSmaller newchild
    pure (parent, otherchild)
  else if oldparent.isEqualToLarger oldchild then
    let otherchild ← oldparent.getSmaller
    let parent ← oldparent.setLarger newchild
    pure (parent, otherchild)
  else throw (.dbTrieException "Child hasn't been correct child of parent")

/-- `while (oldchild.hasParent_)`: returns the new root hash and the replaced nodes. -/
def insertLoop (hash : CryptoHash d) :
    Nat → TrieNode d → TrieNode d → Digest d → List (TrieNode d) →
    TrieM d (Digest d × List (TrieNode d))
  | 0, _, _, _, _ => Prog.diverge
  | fuel + 1, oldchild, child, roothash, toBeDeleted =>
    if oldchild.hasParent then do
      let oldparent ← oldchild.getParent
      let (parent, otherchild) ← insertReplace oldparent oldchild child
      let parent ← parent.updateHash hash
      (otherchild.setParent parent).toDb
      (child.setParent parent).toDb
      let roothash := if !parent.hasParent then parent.hash else roothash
      parent.toDb
      insertLoop hash fuel oldparent parent roothash (toBeDeleted ++ [oldparent])
    else pure (roothash, toBeDeleted)

/-- The branch for `performHash == false`. -/
def insertLazy (oldnode intermediate : TrieNode d) : TrieM d Unit := do
  (if intermediate.hasParent then do
      let parent ← intermediate.getParent
      let parent := { parent with dirty := true }
      if parent.isEqualToSmaller oldnode then
        let parent ← parent.setSmaller intermediate
        parent.toDb
      else if parent.isEqualToLarger oldnode then
        let parent ← parent.setLarger intermediate
        parent.toDb
      else throw (.dbTrieException "Old Node hasn't been correct child")
    else KeyValueRootNode.set intermediate.hash : TrieM d Unit)
  intermediate.toDb

/-- "Not the same: Need to split": the new node above `this` and `node`, which are hung under it. -/
def insertIntermediate (hash : CryptoHash d) (this node : TrieNode d) : TrieM d (TrieNode d) := do
  let common ← this.commonPrefixSize node
  let intermediate := { this with prefixMask := common }
  let intermediate ← (
    if intermediate.isLarger node then pure (intermediate.setChildren this node)
    else if intermediate.isSmaller node then pure (intermediate.setChildren node this)
    else throw (.dbTrieException "ERROR") : TrieM d (TrieNode d))
  let intermediate ← intermediate.updateHash hash
  (node.setParent intermediate).toDb
  (this.setParent intermediate).toDb
  if !intermediate.hasParent then
    intermediate.toDb
    pure intermediate
  else pure intermediate

def insertSplit (hash : CryptoHash d) (fuel : Nat) (this node : TrieNode d) (performHash : Bool) :
    TrieM d Unit := do
  let intermediate ← insertIntermediate hash this node
  if performHash then
    let (roothash, toBeDeleted) ← insertLoop hash fuel this intermediate intermediate.hash []
    KeyValueRootNode.set roothash
    deleteAll toBeDeleted
  else insertLazy this intermediate

/-- The first number is the fuel of the descent, `fuel` that of the loop back up. -/
def insert (hash : CryptoHash d) (fuel : Nat) :
    Nat → TrieNode d → TrieNode d → Bool → TrieM d Bool
  | 0, _, _, _ => Prog.diverge
  | depth + 1, this, node, performHash =>
    if this.similar node then
      if this.isLarger node then do
        let larger ← this.getLarger
        insert hash fuel depth larger node performHash
      else if this.isSmaller node then do
        let smaller ← this.getSmaller
        insert hash fuel depth smaller node performHash
      -- Duplicated key
      else if this.prefixMask.toNat == 8 * d then pure false
      else throw (.dbTrieException "Missing Child!")
    else do
      insertSplit hash fuel this node performHash
      pure true

/-! ## Deletion -/

/-- A parent under its new child, and its other child; `larger` first, as `erase` asks. -/
def eraseReplace (what : String) (oldparent oldchild newchild : TrieNode d) :
    TrieM d (TrieNode d × TrieNode d) := do
  if oldparent.isEqualToLarger oldchild then
    let otherchild ← oldparent.getSmaller
    let parent ← oldparent.setLarger newchild
    pure (parent, otherchild)
  else if oldparent.isEqualToSmaller oldchild then
    let otherchild ← oldparent.getLarger
    let parent ← oldparent.setSmaller newchild
    pure (parent, otherchild)
  else throw (.dbTrieException what)

/-- `while (oldgrandparent.hasParent_)`: returns the new root and the replaced nodes. -/
def eraseLoop (hash : CryptoHash d) :
    Nat → TrieNode d → TrieNode d → List (TrieNode d) → TrieM d (TrieNode d × List (TrieNode d))
  | 0, _, _, _ => Prog.diverge
  | fuel + 1, oldgrandparent, newgrandparent, oldnodes =>
    if oldgrandparent.hasParent then do
      let oldgrandgrandparent ← oldgrandparent.getParent
      let (newgrandgrandparent, otherchild) ← eraseReplace
        "a old grandparent hasn't been child of a old grandgrandparent"
        oldgrandgrandparent oldgrandparent newgrandparent
      let newgrandgrandparent ← newgrandgrandparent.updateHash hash
      newgrandgrandparent.toDb
      (newgrandparent.setParent newgrandgrandparent).toDb
      (otherchild.setParent newgrandgrandparent).toDb
      eraseLoop hash fuel oldgrandgrandparent newgrandgrandparent (oldnodes ++ [oldgrandgrandparent])
    else pure (newgrandparent, oldnodes)

/-- The branch for `performHash == false`. -/
def eraseLazy (oldgrandparent newgrandparent : TrieNode d) : TrieM d Unit := do
  let oldgrandgrandparent ← oldgrandparent.getParent
  if oldgrandgrandparent.isEqualToLarger oldgrandparent then
    let oldgrandgrandparent ← oldgrandgrandparent.setLarger newgrandparent
    oldgrandgrandparent.toDb
  else if oldgrandgrandparent.isEqualToSmaller oldgrandparent then
    let oldgrandgrandparent ← oldgrandgrandparent.setSmaller newgrandparent
    oldgrandgrandparent.toDb
  else throw (.dbTrieException "grandparent hasn't been child of grandgrandparent")

/-- "Other Child has to become the new root". -/
def eraseUnderRoot (toBeDeleted parent : TrieNode d) : TrieM d Unit := do
  let childOfParent ← (
    if parent.isEqualToLarger toBeDeleted then parent.getSmaller
    else parent.getLarger : TrieM d (TrieNode d))
  let childOfParent := { childOfParent with hasParent := false }
  childOfParent.toDb
  KeyValueRootNode.set childOfParent.hash
  parent.deleteFromDb
  toBeDeleted.deleteFromDb

/-- The grandparent before and after it takes the leaf's sibling for the parent. -/
def eraseGrandparent (hash : CryptoHash d) (toBeDeleted parent : TrieNode d) :
    TrieM d (TrieNode d × TrieNode d) := do
  let oldgrandparent ← parent.getParent
  let childOfParent ← (
    if parent.isEqualToLarger toBeDeleted then parent.getSmaller
    else if parent.isEqualToSmaller toBeDeleted then parent.getLarger
    else throw (.dbTrieException "Parent has wrong children") : TrieM d (TrieNode d))
  let (newgrandparent, childOfGrandParent) ←
    eraseReplace "Grandparent has wrong children" oldgrandparent parent childOfParent
  let newgrandparent ← newgrandparent.updateHash hash
  newgrandparent.toDb
  (childOfParent.setParent newgrandparent).toDb
  (childOfGrandParent.setParent newgrandparent).toDb
  pure (oldgrandparent, newgrandparent)

/-- "found node and his parent has to be deleted. His grandparent has to be updated." -/
def eraseUnderGrandparent (hash : CryptoHash d) (fuel : Nat) (toBeDeleted parent : TrieNode d)
    (performHash : Bool) : TrieM d Unit := do
  let (oldgrandparent, newgrandparent) ← eraseGrandparent hash toBeDeleted parent
  let oldnodes := [parent, toBeDeleted, oldgrandparent]
  if !oldgrandparent.hasParent then
    KeyValueRootNode.set newgrandparent.hash
    deleteAll oldnodes
  else if performHash then
    let (newroot, oldnodes) ← eraseLoop hash fuel oldgrandparent newgrandparent oldnodes
    KeyValueRootNode.set newroot.hash
    deleteAll oldnodes
  else
    eraseLazy oldgrandparent newgrandparent
    deleteAll oldnodes

/-- The `try` block of `erase`. -/
def eraseNode (hash : CryptoHash d) (fuel : Nat) (key : Digest d) (performHash : Bool) :
    TrieM d Unit := do
  let toBeDeleted ← load key
  if toBeDeleted.hasChildren then throw (.dbTrieException "This node is not a leaf")
  else if !toBeDeleted.hasParent then
    KeyValueRootNode.del
    toBeDeleted.deleteFromDb
  else
    let parent ← toBeDeleted.getParent
    if !parent.hasParent then eraseUnderRoot toBeDeleted parent
    else eraseUnderGrandparent hash fuel toBeDeleted parent performHash

/-- Called on the root node, which it does not look at. -/
def erase (hash : CryptoHash d) (fuel : Nat) (key : Digest d) (performHash : Bool) : TrieM d Bool :=
  tryCatch (do eraseNode hash fuel key performHash; pure true) fun e =>
    if e = .trieNodeNotFound then pure false else throw e

end TrieNode

/-! ## The trie -/

inductive TrieNodeType where
  | NOT_FOUND
  | INNER_NODE
  | LEAF_NODE
deriving DecidableEq, Repr

namespace KeyValueTrie

/-- A trie on an empty storage. -/
def empty (d : Nat) : TrieState d := ⟨Storage.empty, 0⟩

def getSize : TrieM d Nat := do
  let s ← Prog.get
  pure s.size

def setSize (size : Nat) : TrieM d Unit := Prog.modify fun s => { s with size := size }

/-- A `size_t` never gets to its end by counting records. -/
def incSize : TrieM d Unit := Prog.modify fun s => { s with size := s.size + 1 }

/-- `size--` on a `size_t`, which wraps around at 0. -/
def decSize : TrieM d Unit := Prog.modify fun s =>
  { s with size := if s.size = 0 then 2 ^ 64 - 1 else s.size - 1 }

def clear : TrieM d Unit := do
  onStorage Storage.clear
  setSize 0

/-- The bytes of `"triesize"`. -/
def sizeKey : Bytes := [116, 114, 105, 101, 115, 105, 122, 101]

/-- The constructor on a storage, after that of `Trie`; a `size_t` has eight bytes. -/
def construct : TrieM d Unit := do
  setSize 0
  match ← onStorage (Storage.get sizeKey) with
  | some sp => if sp.length = 8 then setSize (readUint64 sp 0) else pure ()
  | none => pure ()

/-- The destructor. -/
def destruct : TrieM d Unit := do
  let size ← getSize
  if size > 0 then onStorage (Storage.put sizeKey (uint64Bytes size))
  else pure ()

/-- Destroy the trie and construct one on its storage. -/
def reopen : TrieM d Unit := do
  destruct
  construct

section

variable (hash : CryptoHash d) (fresh : Digest d) (fuel : Nat)

/-- Whatever is thrown while the root is read or changed, the key becomes a new root. -/
def add (key : Digest d) (performhash : Bool) : TrieM d Bool :=
  tryCatch
    (do
      let root ← KeyValueRootNode.get
      let inserted ← TrieNode.insert hash fuel fuel root (TrieNode.newone fresh key) performhash
      if inserted then
        incSize
        pure inserted
      else pure inserted)
    fun _ => do
      (TrieNode.newone fresh key).toDb
      KeyValueRootNode.set key
      incSize
      pure true

def remove (key : Digest d) (performhash : Bool) : TrieM d Bool :=
  tryCatch
    (do
      let _ ← KeyValueRootNode.get
      let removed ← TrieNode.erase hash fuel key performhash
      (if removed then decSize else pure () : TrieM d Unit)
      let size ← getSize
      (if size = 0 then clear else pure () : TrieM d Unit)
      pure removed)
    fun _ => pure false

end

def contains (key : Digest d) : TrieM d TrieNodeType :=
  tryCatch
    (do
      let node ← TrieNode.load key
      pure (if node.hasChildren then .INNER_NODE else .LEAF_NODE))
    fun _ => pure .NOT_FOUND

/-- The root hash, if the call returns true. -/
def getRoot : TrieM d (Option (Digest d)) := do
  let size ← getSize
  if size = 0 then pure none
  else
    tryCatch
      (do
        let root ← KeyValueRootNode.get
        pure (some root.hash))
      fun e => if e.isTrieException then pure none else throw e

/-- Whether a root is there, as `operator==` asks each of its tries. -/
def hasRoot : TrieM d Bool :=
  tryCatch
    (do
      let _ ← KeyValueRootNode.get
      pure true)
    fun e => if e = .trieRootNotFound then pure false else throw e

/-- `operator==` on two tries. -/
def operatorEq : Prog (TrieState d × TrieState d) (Digest d × Digest d) Exn Bool := do
  let onThis {α : Type} (m : TrieM d α) : Prog (TrieState d × TrieState d) (Digest d × Digest d) Exn α :=
    Prog.zoom Prod.fst (fun s p => (s, p.2)) m
  let onOther {α : Type} (m : TrieM d α) : Prog (TrieState d × TrieState d) (Digest d × Digest d) Exn α :=
    Prog.zoom Prod.snd (fun s p => (p.1, s)) m
  let mine ← onThis hasRoot
  let other ← onOther hasRoot
  if !mine then pure !other
  else if !other then pure false
  else
    let mynode ← onThis KeyValueRootNode.get
    let othernode ← onOther KeyValueRootNode.get
    pure (mynode.operatorEq othernode)

end KeyValueTrie

end SetSync
