import SetSync.Bits
import SetSync.Lib.Simulation

/-!
# The bloom filter

`FSBloomFilter` with its `DoubleHashingScheme`, and `KeyValueCountingBloomFilter`, which keeps for
each bit position the list of the keys that were added there, one behind the other as bytes.

    add       the key into the list of each of its positions, then its bits; it returns at once when a
              list has the key already
    remove    the key out of these lists; a bit goes with the last key of its list
    diff      the keys at the positions whose bit is missing in the bytes of another filter

`filterSize_` and `functionCount_` are parameters here; `init` computes them from logarithms of the
false positive rate.
-/

namespace SetSync

open Program

variable {d : Nat}

/-- A handler, as the calls it got: key and `existsLocally`. -/
abbrev DiffHandler (d : Nat) : Type := List (Digest d × Bool)

/-! ## `DoubleHashingScheme` -/

/-- The sum of `DoubleHashingScheme::hash`, on `uint64_t`. -/
def doubleHash (key : Digest d) (function : Nat) : Nat :=
  (readUint64 key.bytes 0 + (function + 1) * readUint64 key.bytes 8) % 2 ^ 64

def DoubleHashingScheme.hash {σ : Type} (key : Digest d) (function : Nat) :
    Prog σ (Digest d × Digest d) Exn Nat :=
  if d < 16 then throw (.text "Must be implemented") else pure (doubleHash key function)

/-- The hashes of an array of keys, key by key and function by function. -/
def DoubleHashingScheme.hashAll {σ : Type} (functionCount : Nat) (keys : List (Digest d)) :
    Prog σ (Digest d × Digest d) Exn (List Nat) := do
  let hashes ← Prog.each (fun key =>
    Prog.each (DoubleHashingScheme.hash key) (List.range functionCount)) keys
  pure hashes.flatten

/-! ## Bit arrays

What the operators of the filters do with two bit arrays; `filterSize` is the number of bits. -/

/-- The loop of `operator&=`. -/
def bytesAnd (a b : Bytes) : Bytes := a.mapIdx fun i x => x &&& b.getD i 0

/-- The loop of `operator|=`. -/
def bytesOr (a b : Bytes) : Bytes := a.mapIdx fun i x => x ||| b.getD i 0

/-- The last byte of an array, shifted by `BYTESIZE - remainder`. -/
def lastByte (filterSize : Nat) (a : Bytes) : UInt8 :=
  a.getD (filterSize / 8) 0 >>> UInt8.ofNat (8 - filterSize % 8)

/-- `operator==`: `memcmp` for the whole bytes, a shift for the rest. -/
def bitsEqual (filterSize : Nat) (a b : Bytes) : Bool :=
  if a.take (filterSize / 8) ≠ b.take (filterSize / 8) then false
  else if filterSize % 8 = 0 then true
  else lastByte filterSize a == lastByte filterSize b

/-- `operator!=` -/
def bitsDiffer (filterSize : Nat) (a b : Bytes) : Bool :=
  if a.take (filterSize / 8) ≠ b.take (filterSize / 8) then true
  else if filterSize % 8 = 0 then false
  else lastByte filterSize a != lastByte filterSize b

/-! ## `FSBloomFilter` -/

structure FSBloomFilter where
  filterSize : Nat
  itemCount : Nat
  functionCount : Nat
  hardMaximum : Bool
  maxElements : Nat
  bitArray : Bytes

abbrev FSBloomM (d : Nat) (α : Type) : Type := Prog FSBloomFilter (Digest d × Digest d) Exn α

namespace FSBloomFilter

/-- `mmapLength_`, an `unsigned int`. -/
def mmapLength (filterSize : Nat) : Nat := (filterSize + 7) / 8 % 2 ^ 32

def init (filterSize functionCount : Nat) (hardMaximum : Bool) (numberOfElements : Nat) :
    FSBloomFilter where
  filterSize := filterSize
  itemCount := 0
  functionCount := functionCount
  hardMaximum := hardMaximum
  maxElements := numberOfElements
  bitArray := List.replicate (mmapLength filterSize) 0

/-- `AbstractBloomFilter::size` -/
def size (f : FSBloomFilter) : Nat := (f.filterSize + 7) / 8

/-- `AbstractBloomFilter::bit_mask` -/
def bit_mask : List UInt8 := [0x01, 0x02, 0x04, 0x08, 0x10, 0x20, 0x40, 0x80]

/-- `bit_index` and `bit`. -/
def computeIndices (f : FSBloomFilter) (hash : Nat) : Nat × Nat :=
  (hash % f.filterSize / 8, hash % 8)

def clear : FSBloomM d Unit := Prog.modify fun f =>
  { f with bitArray := List.replicate (mmapLength f.filterSize) 0, itemCount := 0 }

/-- The loop of `add`, over the given functions. -/
def addBits (key : Digest d) : List Nat → FSBloomM d Unit
  | [] => pure ()
  | i :: is => do
    let hash ← DoubleHashingScheme.hash key i
    Prog.modify fun f =>
      let (bit_index, bit) := f.computeIndices (hash % f.filterSize)
      { f with bitArray := f.bitArray.modify bit_index (· ||| bit_mask.getD bit 0) }
    addBits key is

def add (key : Digest d) : FSBloomM d Unit := do
  let f ← Prog.get
  if f.hardMaximum && f.maxElements ≤ f.itemCount then
    throw (.runtimeError "Maximum of Elements reached, adding failed")
  else do
    addBits key (List.range f.functionCount)
    Prog.modify fun f =>
      if f.itemCount < 2 ^ 64 - 1 then { f with itemCount := f.itemCount + 1 } else f

/-- The loop of `contains`, over the given functions. -/
def containsBits (key : Digest d) : List Nat → FSBloomM d Bool
  | [] => pure true
  | i :: is => do
    let hash ← DoubleHashingScheme.hash key i
    let f ← Prog.get
    let (bit_index, bit) := f.computeIndices (hash % f.filterSize)
    if f.bitArray.getD bit_index 0 &&& bit_mask.getD bit 0 != bit_mask.getD bit 0 then pure false
    else containsBits key is

def contains (key : Digest d) : FSBloomM d Bool := do
  let f ← Prog.get
  containsBits key (List.range f.functionCount)

/-- `bitArray_[bit_index] |= bit_mask[bit]` for the indices of a hash. -/
def mark (f : FSBloomFilter) (hash : Nat) : FSBloomFilter :=
  let (bit_index, bit) := f.computeIndices hash
  { f with bitArray := f.bitArray.modify bit_index (· ||| bit_mask.getD bit 0) }

/-- `add` reduces a hash modulo `filterSize_` before it takes the indices, this does not. -/
def addAll (keys : List (Digest d)) : FSBloomM d Unit := do
  let f ← Prog.get
  if f.hardMaximum && f.maxElements < (f.itemCount + keys.length) % 2 ^ 64 then
    throw (.runtimeError "Maximum of Elements reached, adding failed")
  else do
    let hashes ← DoubleHashingScheme.hashAll f.functionCount keys
    Prog.modify fun f => (hashes.insertionSort (· ≤ ·)).foldl mark f
    Prog.modify fun f =>
      if (f.itemCount + keys.length) % 2 ^ 64 < 2 ^ 64 - 1 then
        { f with itemCount := (f.itemCount + keys.length) % 2 ^ 64 }
      else { f with itemCount := 2 ^ 64 - 1 }

/-- The last loop of `containsAll`, from the position `i` of the array on.  `return true` is 1. -/
def containsFrom (f : FSBloomFilter) : Nat → List Nat → Nat
  | _, [] => 1
  | i, hash :: hashes =>
    let (bit_index, bit) := f.computeIndices hash
    if f.bitArray.getD bit_index 0 &&& bit_mask.getD bit 0 != bit_mask.getD bit 0 then
      if i = 0 then 1 else i
    else containsFrom f (i + 1) hashes

def containsAll (keys : List (Digest d)) : FSBloomM d Nat := do
  let f ← Prog.get
  let hashes ← DoubleHashingScheme.hashAll f.functionCount keys
  pure (f.containsFrom 0 ((hashes.map (· % f.filterSize)).insertionSort (· ≤ ·)))

/-! The operators are those for another filter of the class: `dynamic_cast` does not fail. -/

def andAssign (f filter : FSBloomFilter) : FSBloomFilter :=
  if f.filterSize = filter.filterSize then
    { f with bitArray := bytesAnd f.bitArray filter.bitArray }
  else f

def orAssign (f filter : FSBloomFilter) : FSBloomFilter :=
  if f.filterSize = filter.filterSize then
    { f with bitArray := bytesOr f.bitArray filter.bitArray }
  else f

def operatorEq (f filter : FSBloomFilter) : Bool :=
  if f.filterSize ≠ filter.filterSize then false
  else bitsEqual f.filterSize f.bitArray filter.bitArray

def operatorNe (f filter : FSBloomFilter) : Bool :=
  if f.filterSize ≠ filter.filterSize then true
  else bitsDiffer f.filterSize f.bitArray filter.bitArray

end FSBloomFilter

/-! ## `KeyValueCountingBloomFilter` -/

structure KeyValueCountingBloomFilter extends FSBloomFilter where
  storage : Storage

abbrev BloomM (d : Nat) (α : Type) : Type :=
  Prog KeyValueCountingBloomFilter (Digest d × Digest d) Exn α

/-- The keys that lie behind each other in a stored list. -/
def entries (d : Nat) (result : Bytes) : List (Digest d) :=
  (List.range (result.length / d)).map fun j => Digest.slice result (j * d)

/-- `memcpy(buffer + offset, source, length)` -/
def overwrite (buffer : Bytes) (offset : Nat) (source : Bytes) : Bytes :=
  buffer.take offset ++ source ++ buffer.drop (offset + source.length)

namespace KeyValueCountingBloomFilter

def init (filterSize functionCount : Nat) (hardMaximum : Bool) (maxNumberOfElements : Nat) :
    KeyValueCountingBloomFilter where
  toFSBloomFilter := FSBloomFilter.init filterSize functionCount hardMaximum maxNumberOfElements
  storage := Storage.empty

/-- A storage operation of the filter. -/
def onStorage {α : Type} (m : Prog Storage (Digest d × Digest d) Exn α) : BloomM d α :=
  Prog.zoom storage (fun st f => { f with storage := st }) m

/-- A method of the base class. -/
def onFilter {α : Type} (m : FSBloomM d α) : BloomM d α :=
  Prog.zoom toFSBloomFilter (fun base f => { f with toFSBloomFilter := base }) m

/-- The bytes of `"bfsize"`. -/
def sizeKey : Bytes := [98, 102, 115, 105, 122, 101]

/-- One key in the constructor: eight bytes are a position, six bytes are `sizeKey`. -/
def loadKey (key : Bytes) : BloomM d Unit :=
  if key.length = 8 then
    onFilter (Prog.modify fun f =>
      let (bit_index, bit) := f.computeIndices (readUint64 key 0)
      { f with bitArray := f.bitArray.modify bit_index (· ||| FSBloomFilter.bit_mask.getD bit 0) })
  else if key.length = sizeKey.length then do
    match ← onStorage (Storage.get sizeKey) with
    | some value =>
      if value.length = 8 then
        onFilter (Prog.modify fun f => { f with itemCount := readUint64 value 0 })
      else pure ()
    | none => pure ()
  else pure ()

/-- The loop of the constructor. -/
def loadKeys : List Bytes → BloomM d Unit
  | [] => pure ()
  | key :: keys => do
    loadKey key
    loadKeys keys

/-- The constructor, with the parameters of `f`, on the storage of `f`. -/
def construct : BloomM d Unit := do
  Prog.modify fun f => { f with
    toFSBloomFilter := FSBloomFilter.init f.filterSize f.functionCount f.hardMaximum f.maxElements }
  let f ← Prog.get
  loadKeys f.storage.table.iterator

/-- The destructor. -/
def destruct : BloomM d Unit := do
  let f ← Prog.get
  if f.itemCount > 0 then onStorage (Storage.put sizeKey (uint64Bytes f.itemCount))
  else pure ()

/-- Destroy the filter and construct one on its storage. -/
def reopen : BloomM d Unit := do
  destruct
  construct

/-- `AbstractBloomFilter::numberOfElements` -/
def numberOfElements (f : KeyValueCountingBloomFilter) : Nat := f.itemCount

/-- The loop of `add`, over the given functions, and the call after it. -/
def addLoop (key : Digest d) : List Nat → BloomM d Unit
  | [] => onFilter (FSBloomFilter.add key)
  | i :: is => do
    let hash ← DoubleHashingScheme.hash key i
    let f ← Prog.get
    let k := hash % f.filterSize
    match ← onStorage (Storage.get (uint64Bytes k)) with
    | none => do
      onStorage (Storage.put (uint64Bytes k) key.bytes)
      addLoop key is
    | some result =>
      -- the key exists, so it is skipped, and with it all that is left to do
      if key ∈ entries d result then pure ()
      else do
        onStorage (Storage.put (uint64Bytes k) (result ++ key.bytes))
        addLoop key is

def add (key : Digest d) : BloomM d Unit := do
  let f ← Prog.get
  addLoop key (List.range f.functionCount)

def contains (key : Digest d) : BloomM d Bool := onFilter (FSBloomFilter.contains key)

def clear : BloomM d Unit := do
  onStorage Storage.clear
  onFilter FSBloomFilter.clear

/-- The loop of `remove` over the entries `js` of the buffer: an entry moves to the place `output`,
which stays when it is the key. -/
def compact (key : Digest d) : List Nat → Nat → Bytes → Bytes
  | [], _, buffer => buffer
  | j :: js, output, buffer =>
    let buffer := overwrite buffer (output * d) (Digest.slice buffer (j * d) : Digest d).bytes
    compact key js (if (Digest.slice buffer (j * d) : Digest d) = key then output else output + 1)
      buffer

/-- One function of `remove`: whether the last entry of its position was deleted. -/
def removeAt (key : Digest d) (func : Nat) : BloomM d Bool := do
  let hash ← DoubleHashingScheme.hash key func
  let f ← Prog.get
  let pos := hash % f.filterSize
  match ← onStorage (Storage.get (uint64Bytes pos)) with
  | none => pure false
  | some result =>
    let numberOfResults := result.length / d
    if numberOfResults > 1 then do
      let result := compact key (List.range numberOfResults) 0 result
      onStorage (Storage.put (uint64Bytes pos) (result.take (result.length - 1)))
      pure false
    else do
      onStorage (Storage.del (uint64Bytes pos))
      onFilter (Prog.modify fun f => { f with bitArray := bitClear f.bitArray pos })
      pure true

/-- The loop of `remove`, over the given functions. -/
def removeLoop (key : Digest d) : List Nat → Bool → BloomM d Bool
  | [], result => pure result
  | func :: funcs, result => do
    let hash_found ← removeAt key func
    removeLoop key funcs (result || hash_found)

def remove (key : Digest d) : BloomM d Bool := do
  let present ← contains key
  if !present then pure false
  else do
    let f ← Prog.get
    removeLoop key (List.range f.functionCount) false

/-- The bytes written to the buffer. -/
def getChunk (f : KeyValueCountingBloomFilter) (maxlength offset : Nat) : Bytes :=
  if f.size ≤ offset then []
  else (f.bitArray.drop offset).take (min maxlength (f.size - offset))

/-- `diff` calls a handler, which is part of the state here. -/
abbrev DiffM (d : Nat) (α : Type) : Type :=
  Prog (KeyValueCountingBloomFilter × DiffHandler d) (Digest d × Digest d) Exn α

/-- The bit `j` of byte `i`. -/
def diffBit (externalBF : Bytes) (offset i j : Nat) : DiffM d Unit := do
  let (f, _) ← Prog.get
  if !bitTest (externalBF.drop i) j && bitTest (f.bitArray.drop (i + offset)) j then
    let pos := (offset + i) * 8 + j
    if f.filterSize < pos then pure ()
    else do
      let found ← Prog.zoom Prod.fst (fun f p => (f, p.2)) (onStorage (Storage.get (uint64Bytes pos)))
      match found with
      | none => pure ()
      | some result => Prog.modify fun p => (p.1, p.2 ++ (entries d result).map fun k => (k, true))
  else pure ()

/-- The loops of `diff`, over the given bits of the chunk. -/
def diffBits (externalBF : Bytes) (offset : Nat) : List (Nat × Nat) → DiffM d Unit
  | [] => pure ()
  | (i, j) :: rest => do
    diffBit externalBF offset i j
    diffBits externalBF offset rest

/-- All bits of a chunk, byte by byte. -/
def chunkBits (length : Nat) : List (Nat × Nat) :=
  (List.range length).flatMap fun i => (List.range 8).map fun j => (i, j)

def diff (externalBF : Bytes) (length offset : Nat) : DiffM d Unit := do
  let (f, _) ← Prog.get
  if FSBloomFilter.mmapLength f.filterSize < length + offset then throw (.text "")
  else diffBits externalBF offset (chunkBits length)

end KeyValueCountingBloomFilter

end SetSync
