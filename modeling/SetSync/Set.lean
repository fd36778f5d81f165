import SetSync.BloomFilter
import SetSync.KeyValueTrie

/-!
# The set

`Set` of `Set.cpp`: a trie that holds the keys, a bloom filter in front of it, and an index of binary
data under their keys.  The methods with a `const unsigned char * key` are the ones the others end in;
`insert(data, length)` is `insertData`, `erase(data, length)` is `eraseData`, `insert(str)` is
`insertString`, `find(str)` is `findString`.
-/

namespace SetSync

open Program

variable {d : Nat}

structure SetState (d : Nat) where
  trie : TrieState d
  bf : KeyValueCountingBloomFilter
  index : Storage
  indexInUse : Bool
  maxSize : Nat
  hardMaximum : Bool

abbrev SetM (d : Nat) (α : Type) : Type := Prog (SetState d) (Digest d × Digest d) Exn α

/-! ## `KeyValueIndex` -/

namespace KeyValueIndex

def remove {ω : Type} (hash : Bytes) : Prog Storage ω Exn Bool :=
  tryCatch
    (do
      Storage.del hash
      pure true)
    fun _ => pure false

def clear {ω : Type} : Prog Storage ω Exn Unit := Storage.clear

/-- A storage that does not find the key sets the size to 0. -/
def getSizeOf {ω : Type} (hash : Bytes) : Prog Storage ω Exn Nat := do
  match ← Storage.get hash with
  | some result => pure result.length
  | none => pure 0

/-- The answer, the buffer and `*buffersize` after the call. -/
def get {ω : Type} (hash buffer : Bytes) (buffersize : Nat) :
    Prog Storage ω Exn (Bool × Bytes × Nat) := do
  match ← Storage.get hash with
  | some result =>
    let size := min result.length buffersize
    pure (true, overwrite buffer 0 (result.take size), size)
  | none => pure (false, buffer, buffersize)

def put {ω : Type} (hash data : Bytes) : Prog Storage ω Exn Bool :=
  tryCatch
    (do
      Storage.put hash data
      pure true)
    fun _ => pure false

end KeyValueIndex

namespace SetState

/-- A new set over empty storages. -/
def create (d filterSize functionCount : Nat) (hardMaximum : Bool) (maxElements : Nat) :
    SetState d where
  trie := KeyValueTrie.empty d
  bf := KeyValueCountingBloomFilter.init filterSize functionCount hardMaximum maxElements
  index := Storage.empty
  indexInUse := false
  maxSize := maxElements
  hardMaximum := hardMaximum

def onTrie {α : Type} (m : TrieM d α) : SetM d α :=
  Prog.zoom trie (fun t s => { s with trie := t }) m

def onBloom {α : Type} (m : BloomM d α) : SetM d α :=
  Prog.zoom bf (fun f s => { s with bf := f }) m

def onIndex {α : Type} (m : Prog Storage (Digest d × Digest d) Exn α) : SetM d α :=
  Prog.zoom index (fun st s => { s with index := st }) m

def getSize : SetM d Nat := onTrie KeyValueTrie.getSize

section Methods

variable (hash : CryptoHash d) (fresh : Digest d) (fuel : Nat)

def insert (key : Digest d) : SetM d Bool := do
  let s ← Prog.get
  let size ← getSize
  if s.hardMaximum && s.maxSize ≤ size then pure false
  else do
    let added ← onTrie (KeyValueTrie.add hash fresh fuel key true)
    if added then do
      onBloom (KeyValueCountingBloomFilter.add key)
      pure true
    else pure false

/-- The `catch` of `erase` is for `std::bad_cast` only. -/
def erase (key : Digest d) : SetM d Bool := do
  let removed ← onTrie (KeyValueTrie.remove hash fuel key true)
  if removed then do
    let _ ← onBloom (KeyValueCountingBloomFilter.remove key)
    let s ← Prog.get
    if s.indexInUse then do
      let _ ← onIndex (KeyValueIndex.remove key.bytes)
      pure true
    else pure true
  else pure false

/-- `erase(data, length)` -/
def eraseData (data : Bytes) : SetM d Bool := erase hash fuel (hash.digest data)

/-- `insert(data, length)` -/
def insertData (data : Bytes) : SetM d Bool := do
  let k := hash.digest data
  let stored ← onIndex (KeyValueIndex.put k.bytes data)
  if stored then do
    let success ← insert hash fresh fuel k
    if success then do
      Prog.modify fun s => { s with indexInUse := true }
      pure true
    else do
      let _ ← onIndex (KeyValueIndex.remove k.bytes)
      pure false
  else pure false

/-- The key of a `const char *`: what follows the first zero byte is not hashed. -/
def stringKey (str : Bytes) : Digest d := hash.digest (str.takeWhile (· != 0))

/-- `insert(str)`, of a `const char *` or a `std::string`.  The index does not get the data. -/
def insertString (str : Bytes) : SetM d Bool := insert hash fresh fuel (stringKey hash str)

end Methods

def find (key : Digest d) : SetM d Bool := do
  let inFilter ← onBloom (KeyValueCountingBloomFilter.contains key)
  if inFilter then do
    let type ← onTrie (KeyValueTrie.contains key)
    pure (type == .LEAF_NODE)
  else pure false

/-- `malloc(size)`: a block, also for size 0; what is in it is overwritten. -/
def malloc (size : Nat) : Bytes := List.replicate size 0

/-- The answer, `*value` and `*valueSize`; `none` is `NULL`. -/
def get (key : Digest d) : SetM d (Bool × Option Bytes × Nat) := do
  let found ← find key
  if found then do
    let s ← Prog.get
    if s.indexInUse then do
      let valueSize ← onIndex (KeyValueIndex.getSizeOf key.bytes)
      let (_, value, valueSize) ← onIndex (KeyValueIndex.get key.bytes (malloc valueSize) valueSize)
      -- every way out of the method returns false
      pure (false, some value, valueSize)
    else pure (false, none, 0)
  else pure (false, none, 0)

def clear : SetM d Unit := do
  onTrie KeyValueTrie.clear
  onBloom KeyValueCountingBloomFilter.clear
  onIndex KeyValueIndex.clear
  Prog.modify fun s => { s with indexInUse := false }

/-- Destroy the set and construct one with its configuration on its path. -/
def reopen : SetM d Unit := do
  onBloom KeyValueCountingBloomFilter.destruct
  onTrie KeyValueTrie.destruct
  onTrie KeyValueTrie.construct
  onBloom KeyValueCountingBloomFilter.construct
  Prog.modify fun s => { s with indexInUse := false }

end SetState

end SetSync
