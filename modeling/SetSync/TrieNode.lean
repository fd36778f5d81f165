import SetSync.Bits

/-!
# Trie nodes

`TrieNode` of `trie/KeyValueTrie.cpp`: the in-memory copy of a node, its record in the storage
(`marshall`, `unmarshall`), and the methods that read or change one node.  A node is stored under
its hash, so the record itself does not contain it.

    unmarshall n.hash (marshall n) = n                                        (unmarshall_marshall)
    marshall (unmarshall hash record) = record                                (marshall_unmarshall)

The second needs a record of the right length whose flag byte has no bits but the three flags.

A node that is created and not loaded has no parent and no children; these fields are what `malloc`
returned, `fresh` below, and are written to the storage as they are.
-/

namespace SetSync

open Program

variable {d : Nat}

structure TrieNode (d : Nat) where
  hash : Digest d
  parent : Digest d
  smaller : Digest d
  larger : Digest d
  nodePrefix : Digest d
  hasChildren : Bool
  hasParent : Bool
  prefixMask : UInt8
  dirty : Bool
deriving DecidableEq

/-- A `KeyValueTrie` object. -/
structure TrieState (d : Nat) where
  storage : Storage
  size : Nat

/-- A method of the trie; its events are the pairs of child hashes that go through `hashscratch`. -/
abbrev TrieM (d : Nat) (α : Type) : Type := Prog (TrieState d) (Digest d × Digest d) Exn α

/-- A storage operation of the trie. -/
def onStorage {α : Type} (m : Prog Storage (Digest d × Digest d) Exn α) : TrieM d α :=
  Prog.zoom TrieState.storage (fun st s => { s with storage := st }) m

namespace TrieNode

/-! ## Records -/

def HAS_PARENT : UInt8 := 0x01
def HAS_CHILDREN : UInt8 := 0x02
def DIRTY : UInt8 := 0x04

def getFlags (n : TrieNode d) : UInt8 :=
  let flags : UInt8 := if n.hasChildren then HAS_CHILDREN else 0
  let flags := if n.hasParent then flags ||| HAS_PARENT else flags
  if n.dirty then flags ||| DIRTY else flags

def getMarshallBufferSize (d : Nat) : Nat := 4 * d + 2

def marshall (source : TrieNode d) : Bytes :=
  source.parent.bytes ++ (source.smaller.bytes ++ (source.larger.bytes ++
    (source.nodePrefix.bytes ++ [source.prefixMask, source.getFlags])))

def unmarshall (hash : Digest d) (loadedValue : Bytes) : TrieNode d :=
  let flags := loadedValue.getD (4 * d + 1) 0
  { hash := hash
    parent := Digest.slice loadedValue 0
    smaller := Digest.slice loadedValue d
    larger := Digest.slice loadedValue (2 * d)
    nodePrefix := Digest.slice loadedValue (3 * d)
    prefixMask := loadedValue.getD (4 * d) 0
    dirty := flags &&& DIRTY == DIRTY
    hasChildren := flags &&& HAS_CHILDREN == HAS_CHILDREN
    hasParent := flags &&& HAS_PARENT == HAS_PARENT }

theorem length_marshall (n : TrieNode d) : n.marshall.length = getMarshallBufferSize d := by
  simp only [marshall, List.length_append, Digest.length_bytes, List.length_cons, List.length_nil,
    getMarshallBufferSize]
  omega

theorem getFlags_bits (n : TrieNode d) :
    (n.getFlags &&& DIRTY == DIRTY) = n.dirty ∧
    (n.getFlags &&& HAS_CHILDREN == HAS_CHILDREN) = n.hasChildren ∧
    (n.getFlags &&& HAS_PARENT == HAS_PARENT) = n.hasParent := by
  unfold getFlags
  cases n.hasChildren <;> cases n.hasParent <;> cases n.dirty <;> decide

theorem unmarshall_marshall (n : TrieNode d) : unmarshall n.hash n.marshall = n := by
  obtain ⟨h, p, s, l, q, hc, hp, m, di⟩ := n
  set n : TrieNode d := ⟨h, p, s, l, q, hc, hp, m, di⟩
  have hlen : (p.bytes ++ (s.bytes ++ (l.bytes ++ q.bytes))).length = 4 * d := by
    simp only [List.length_append, Digest.length_bytes]; omega
  have hsplit : n.marshall
      = (p.bytes ++ (s.bytes ++ (l.bytes ++ q.bytes))) ++ [m, n.getFlags] := by
    simp [marshall, n]
  have e0 : Digest.slice n.marshall 0 = p := Digest.slice_append [] _ p
  have e1 : Digest.slice n.marshall d = s := by
    have := Digest.slice_append p.bytes (l.bytes ++ (q.bytes ++ [m, n.getFlags])) s
    rwa [p.length_bytes] at this
  have e2 : Digest.slice n.marshall (2 * d) = l := by
    have := Digest.slice_append (p.bytes ++ s.bytes) (q.bytes ++ [m, n.getFlags]) l
    rw [List.length_append, p.length_bytes, s.length_bytes, ← Nat.two_mul,
      List.append_assoc] at this
    exact this
  have e3 : Digest.slice n.marshall (3 * d) = q := by
    have := Digest.slice_append (p.bytes ++ (s.bytes ++ l.bytes)) [m, n.getFlags] q
    simp only [List.length_append, Digest.length_bytes, List.append_assoc] at this
    have h3 : d + (d + d) = 3 * d := by omega
    rw [h3] at this
    exact this
  have e4 : n.marshall.getD (4 * d) 0 = m := by
    rw [hsplit, List.getD_eq_getElem?_getD, List.getElem?_append_right (by omega), hlen]
    simp
  have e5 : n.marshall.getD (4 * d + 1) 0 = n.getFlags := by
    rw [hsplit, List.getD_eq_getElem?_getD, List.getElem?_append_right (by omega), hlen,
      Nat.add_sub_cancel_left]
    rfl
  obtain ⟨f1, f2, f3⟩ := n.getFlags_bits
  simp only [unmarshall, e0, e1, e2, e3, e4, e5, f1, f2, f3]
  rfl

/-- The bits of the flag byte that stand for a flag. -/
def FLAGS : UInt8 := HAS_PARENT ||| HAS_CHILDREN ||| DIRTY

theorem flags_byte_all : ∀ x : Fin 256, UInt8.ofNat x &&& ~~~ FLAGS = 0 →
    (let flags : UInt8 :=
      if UInt8.ofNat x &&& HAS_CHILDREN == HAS_CHILDREN then HAS_CHILDREN else 0
     let flags :=
      if UInt8.ofNat x &&& HAS_PARENT == HAS_PARENT then flags ||| HAS_PARENT else flags
     if UInt8.ofNat x &&& DIRTY == DIRTY then flags ||| DIRTY else flags) = UInt8.ofNat x := by
  decide +kernel

/-- A record without other bits in its flag byte has the flag byte of the node it is loaded to. -/
theorem getFlags_unmarshall (hash : Digest d) {record : Bytes}
    (hflags : record.getD (4 * d + 1) 0 &&& ~~~ FLAGS = 0) :
    (unmarshall hash record).getFlags = record.getD (4 * d + 1) 0 := by
  have hbyte := flags_byte_all ⟨(record.getD (4 * d + 1) 0).toNat, UInt8.toNat_lt _⟩
  simp only [UInt8.ofNat_toNat] at hbyte
  exact hbyte hflags

/-- Four digests and two bytes: a record is its six parts. -/
theorem record_parts {record : Bytes} (hlen : record.length = getMarshallBufferSize d) :
    record = record.take d ++ ((record.drop d).take d ++ ((record.drop (2 * d)).take d ++
      ((record.drop (3 * d)).take d ++
        [record.getD (4 * d) 0, record.getD (4 * d + 1) 0]))) := by
  have hsize : record.length = 4 * d + 2 := hlen
  have hlast : record.drop (4 * d) = [record.getD (4 * d) 0, record.getD (4 * d + 1) 0] := by
    rw [List.drop_eq_getElem_cons (by omega), List.drop_eq_getElem_cons (by omega),
      List.drop_eq_nil_of_le (by omega), List.getD_eq_getElem?_getD, List.getD_eq_getElem?_getD,
      List.getElem?_eq_getElem (by omega), List.getElem?_eq_getElem (by omega)]
    rfl
  have hcut : ∀ i, record.drop (i * d) = (record.drop (i * d)).take d ++ record.drop ((i + 1) * d) := by
    intro i
    have h := (List.take_append_drop d (record.drop (i * d))).symm
    rwa [List.drop_drop, ← Nat.succ_mul] at h
  calc record = record.take d ++ record.drop d := (List.take_append_drop d record).symm
    _ = _ := by
      have h1 := hcut 1
      have h2 := hcut 2
      have h3 := hcut 3
      rw [Nat.one_mul] at h1
      rw [← hlast, ← h3, ← h2, ← h1]

theorem marshall_unmarshall (hash : Digest d) {record : Bytes}
    (hlen : record.length = getMarshallBufferSize d)
    (hflags : record.getD (4 * d + 1) 0 &&& ~~~ FLAGS = 0) :
    (unmarshall hash record).marshall = record := by
  have hsize : record.length = 4 * d + 2 := hlen
  have hparent := Digest.bytes_slice (d := d) 0 (show _ ≤ record.length by omega)
  have hsmaller := Digest.bytes_slice (d := d) d (show _ ≤ record.length by omega)
  have hlarger := Digest.bytes_slice (d := d) (2 * d) (show _ ≤ record.length by omega)
  have hprefix := Digest.bytes_slice (d := d) (3 * d) (show _ ≤ record.length by omega)
  rw [List.drop_zero] at hparent
  calc (unmarshall hash record).marshall
      = record.take d ++ ((record.drop d).take d ++ ((record.drop (2 * d)).take d ++
          ((record.drop (3 * d)).take d ++
            [record.getD (4 * d) 0, (unmarshall hash record).getFlags]))) := by
        rw [← hparent, ← hsmaller, ← hlarger, ← hprefix]
        rfl
    _ = record := by
        rw [getFlags_unmarshall hash hflags]
        exact (record_parts hlen).symm

/-- Every record is read back as it was written, and every record that no flag byte rules out is
written as it was read. -/
theorem record_round_trip (d : Nat) :
    (∀ (n : TrieNode d) (hash : Digest d),
      n.marshall.length = getMarshallBufferSize d ∧ getMarshallBufferSize d = 4 * d + 2 ∧
      unmarshall hash n.marshall = { n with hash := hash }) ∧
    ∀ (hash : Digest d) (record : Bytes), record.length = 4 * d + 2 →
      record.getD (4 * d + 1) 0 &&& ~~~ FLAGS = 0 → (unmarshall hash record).marshall = record := by
  refine ⟨fun n hash => ⟨n.length_marshall, rfl, ?_⟩, fun hash record hlen hflags =>
    marshall_unmarshall hash hlen hflags⟩
  -- the record does not contain the hash, and is the one of the node under the other hash
  exact unmarshall_marshall { n with hash := hash }

theorem record_round_trip_sample :
    (unmarshall (byteKey 1 3) [7, 8, 9, 10, 4, 5]).marshall = [7, 8, 9, 10, 4, 5] ∧
    (unmarshall (byteKey 1 3) [7, 8, 9, 10, 4, 5]).dirty = true :=
  ⟨(record_round_trip 1).2 _ [7, 8, 9, 10, 4, 5] rfl (by decide), by decide⟩

/-! ## One node -/

/-- `TrieNode(trie, hash, storage, hash, true)`: a leaf that is not stored yet. -/
def newone (fresh hash : Digest d) : TrieNode d where
  hash := hash
  parent := fresh
  smaller := fresh
  larger := fresh
  nodePrefix := hash
  hasChildren := false
  hasParent := false
  -- a `uint8_t`: only the low byte of the number of bits is kept
  prefixMask := UInt8.ofNat (8 * d)
  dirty := false

def similar (this node : TrieNode d) : Bool :=
  (List.range this.prefixMask.toNat).all fun i => this.nodePrefix.bit i == node.nodePrefix.bit i

/-- The counters are `uint8_t`: from 256 bits on, the loop never reaches its bound. -/
def commonPrefixLoop (this other : TrieNode d) : Nat → UInt8 → UInt8 → TrieM d UInt8
  | 0, _, _ => Prog.diverge
  | fuel + 1, i, common =>
    if i.toNat < 8 * d then
      if this.nodePrefix.bit i.toNat != other.nodePrefix.bit i.toNat then pure common
      else commonPrefixLoop this other fuel (i + 1) (common + 1)
    else pure common

/-- 257 rounds visit every value of the counter and return to the first one. -/
def commonPrefixSize (this other : TrieNode d) : TrieM d UInt8 :=
  commonPrefixLoop this other 257 0 0

def setChildren (this smaller larger : TrieNode d) : TrieNode d :=
  { this with hasChildren := true, smaller := smaller.hash, larger := larger.hash, dirty := true }

def setParent (this parent : TrieNode d) : TrieNode d :=
  { this with hasParent := true, parent := parent.hash }

def setSmaller (this smaller : TrieNode d) : TrieM d (TrieNode d) :=
  if !this.hasChildren then throw (.dbTrieException "ERROR this node does not have any children")
  else pure { this with smaller := smaller.hash, dirty := true }

def setLarger (this larger : TrieNode d) : TrieM d (TrieNode d) :=
  if !this.hasChildren then throw (.dbTrieException "ERROR this node does not have any children")
  else pure { this with larger := larger.hash, dirty := true }

def isSmaller (this smaller : TrieNode d) : Bool :=
  if this.prefixMask.toNat == 8 * d then false
  else !smaller.nodePrefix.bit this.prefixMask.toNat

def isLarger (this larger : TrieNode d) : Bool :=
  if this.prefixMask.toNat == 8 * d then false
  else larger.nodePrefix.bit this.prefixMask.toNat

def isEqualToSmaller (this node : TrieNode d) : Bool := node.hash == this.smaller

def isEqualToLarger (this node : TrieNode d) : Bool := node.hash == this.larger

/-- `TrieNode::operator==` -/
def operatorEq (this other : TrieNode d) : Bool :=
  if this.prefixMask != other.prefixMask then false
  else if this.dirty != other.dirty then false
  else if this.hasChildren != other.hasChildren then false
  else if this.hasParent != other.hasParent then false
  else if this.hash != other.hash then false
  else if this.hasParent && this.parent != other.parent then false
  else if this.dirty && this.smaller != other.smaller then false
  else if this.dirty && this.larger != other.larger then false
  else true

def updateHash (hash : CryptoHash d) (this : TrieNode d) : TrieM d (TrieNode d) :=
  if this.hasChildren then do
    Prog.emit (this.smaller, this.larger)
    pure { this with hash := hash.pair this.smaller this.larger, dirty := false }
  else pure this

/-! ## Nodes in the storage -/

/-- `TrieNode(trie, hash, storage, hash)`: loads the node stored under `hash`. -/
def load (hash : Digest d) : TrieM d (TrieNode d) := do
  match ← onStorage (Storage.get hash.bytes) with
  | some result => pure (unmarshall hash result)
  | none => throw .trieNodeNotFound

theorem load_ends (hash : Digest d) : Prog.Ends (load hash) := by
  refine (Prog.Ends.zoom (Storage.operation_ends _)).bind fun found => ?_
  cases found with
  | none => exact Prog.Ends.throw _
  | some result => exact Prog.Ends.pure _

/-- Only a `KeyValueStoreException` would make the result false, and none can be constructed; no
caller looks at it. -/
def toDb (this : TrieNode d) : TrieM d Unit := onStorage (Storage.put this.hash.bytes this.marshall)

def deleteFromDb (this : TrieNode d) : TrieM d Unit := onStorage (Storage.del this.hash.bytes)

def getSmaller (this : TrieNode d) : TrieM d (TrieNode d) :=
  if this.hasChildren then load this.smaller
  else throw (.dbTrieException "THERE ARE NO CHILDREN")

def getLarger (this : TrieNode d) : TrieM d (TrieNode d) :=
  if this.hasChildren then load this.larger
  else throw (.dbTrieException "THERE ARE NO CHILDREN")

def getParent (this : TrieNode d) : TrieM d (TrieNode d) :=
  if this.hasParent then load this.parent
  else throw (.dbTrieException "THERE IS NO PARENT")

/-- Delete the nodes collected in `toBeDeleted` or `oldnodes`. -/
def deleteAll : List (TrieNode d) → TrieM d Unit
  | [] => pure ()
  | n :: ns => do
    n.deleteFromDb
    deleteAll ns

end TrieNode

end SetSync
