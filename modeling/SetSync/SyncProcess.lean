import SetSync.Set
import SetSync.SubTrie

/-!
# The synchronization process

`SynchronizationProcess` of `Set.cpp`: one side of a synchronization, with the offsets of the bloom
filter exchange and the queues of the trie exchange.

    pendingSubtries   hashes of local subtries that are still to be sent, a stack
    sentHashes        hashes that were sent and are not acknowledged, a queue
    pendingAcks       answers to received hashes that are still to be sent, a queue

An acknowledgement is true when the receiver does not know the hash.  A `Peer` is a process with its
set and the handler that the caller passes to it.
-/

namespace SetSync

open Program

variable {d : Nat}

inductive SyncStatus where
  | START | BF | TRIE | EQUAL
deriving DecidableEq

structure SyncProcess (d : Nat) where
  stat : SyncStatus
  bloomfilterOut_pos : Nat
  bloomfilterIn_pos : Nat
  bfOutIsFinished : Bool
  sentBytes : Nat
  receivedBytes : Nat
  sentHashes : List (Digest d)
  pendingSubtries : List (Digest d)
  pendingAcks : List Bool

structure Peer (d : Nat) where
  set : SetState d
  sync : SyncProcess d
  handled : DiffHandler d

abbrev SyncM (d : Nat) (α : Type) : Type := Prog (Peer d) (Digest d × Digest d) Exn α

namespace SyncProcess

/-- `createSyncProcess` -/
def create (d : Nat) : SyncProcess d where
  stat := .START
  bloomfilterOut_pos := 0
  bloomfilterIn_pos := 0
  bfOutIsFinished := false
  sentBytes := 0
  receivedBytes := 0
  sentHashes := []
  pendingSubtries := []
  pendingAcks := []

def onSet {α : Type} (m : SetM d α) : SyncM d α :=
  Prog.zoom Peer.set (fun s p => { p with set := s }) m

def onTrie {α : Type} (m : TrieM d α) : SyncM d α := onSet (SetState.onTrie m)

def modifySync (f : SyncProcess d → SyncProcess d) : SyncM d Unit :=
  Prog.modify fun p => { p with sync := f p.sync }

@[simp] theorem modifySync_apply (f : SyncProcess d → SyncProcess d) (p : Peer d) :
    modifySync f p = ⟨.ok (), { p with sync := f p.sync }, []⟩ := rfl

/-! ## The bloom filter -/

def isBloomFilterOutputAvail (p : Peer d) : Bool := !p.sync.bfOutIsFinished

def readNextBloomFilterChunk (length : Nat) : SyncM d Bytes := do
  let p ← Prog.get
  let chunk := p.set.bf.getChunk length p.sync.bloomfilterOut_pos
  modifySync fun y => { y with
    bloomfilterOut_pos := y.bloomfilterOut_pos + chunk.length
    bfOutIsFinished := y.bfOutIsFinished || decide (chunk.length < length)
    sentBytes := y.sentBytes + chunk.length }
  pure chunk

def processBloomFilterChunk (buffer : Bytes) (length : Nat) : SyncM d Unit := do
  let p ← Prog.get
  Prog.zoom (fun p : Peer d => (p.set.bf, p.handled))
    (fun r p => { p with set := { p.set with bf := r.1 }, handled := r.2 })
    (KeyValueCountingBloomFilter.diff buffer length p.sync.bloomfilterIn_pos)
  modifySync fun y => { y with
    bloomfilterIn_pos := y.bloomfilterIn_pos + length
    receivedBytes := y.receivedBytes + length }

/-! ## The trie -/

def isAckOutputAvailable (p : Peer d) : Bool := decide (p.sync.pendingAcks.length > 0)

def isSubtrieUnacked (p : Peer d) : Bool := decide (p.sync.sentHashes.length > 0)

def getRootHash : SyncM d (Option (Digest d)) := onTrie KeyValueTrie.getRoot

/-- The size of the hash is counted before it is known whether there is one. -/
def getRootHashForSending : SyncM d (Option (Digest d)) := do
  modifySync fun y => { y with sentBytes := y.sentBytes + d }
  getRootHash

def isEqual (hash : Digest d) : SyncM d Bool := do
  let p ← Prog.get
  if p.sync.stat = .EQUAL then pure true
  else
    match ← onTrie KeyValueTrie.getRoot with
    | none => pure false
    | some localroothash =>
      if localroothash = hash then do
        modifySync fun y => { y with stat := .EQUAL }
        pure true
      else pure false

/-- The recursive call is for a process that is not in `START` any more. -/
def isSubtrieOutputAvailable : SyncM d Bool := do
  let p ← Prog.get
  if p.sync.stat = .START then
    match ← getRootHash with
    | some root => do
      modifySync fun y => { y with stat := .TRIE, pendingSubtries := root :: y.pendingSubtries }
      let p ← Prog.get
      pure (decide (p.sync.pendingSubtries.length > 0))
    | none => pure false
  else pure (decide (p.sync.pendingSubtries.length > 0))

/-- `getSubTrie` on the stack: a hash that raises anything is dropped, and the next one is tried. -/
def getSubTrieOn (buffersize : Nat) : List (Digest d) → SyncM d Bytes
  | [] => pure []
  | top :: rest => do
    let found ← tryCatch
      (do
        let r ← onTrie (KeyValueTrie.getSubTrie top buffersize)
        pure (some r))
      fun _ => pure none
    modifySync fun y => { y with pendingSubtries := rest }
    match found with
    | none => getSubTrieOn buffersize rest
    | some (buffer, subtriesize) => do
      modifySync fun y => { y with
        sentHashes := y.sentHashes ++ entries d (buffer.take subtriesize)
        sentBytes := y.sentBytes + subtriesize }
      pure (buffer.take subtriesize)

/-- The part of the buffer that was written. -/
def getSubTrie (buffersize : Nat) : SyncM d Bytes := do
  let p ← Prog.get
  getSubTrieOn buffersize p.sync.pendingSubtries

/-- The loop of `processSubTrie`. -/
def answerHashes : List (Digest d) → SyncM d Unit
  | [] => pure ()
  | x :: xs => do
    let type ← onTrie (KeyValueTrie.contains x)
    modifySync fun y => { y with pendingAcks := y.pendingAcks ++ [type == .NOT_FOUND] }
    answerHashes xs

def processSubTrie (buffer : Bytes) (length : Nat) : SyncM d Nat := do
  answerHashes (entries d (buffer.take length))
  modifySync fun y => { y with receivedBytes := y.receivedBytes + length }
  let p ← Prog.get
  pure ((p.sync.pendingAcks.length + 7) / 8)

/-- The loop of `readSomeTrieAcks`: bit `i` of the buffer for the answer `i`. -/
def packAcks (buffer : Bytes) (acks : List Bool) : Bytes :=
  acks.zipIdx.foldl (fun buffer b => if b.1 then bitSet buffer b.2 else buffer) buffer

/-- The bytes written and `numberOfAcks`, if there is an answer. -/
def readSomeTrieAcks (length : Nat) : SyncM d (Option (Bytes × Nat)) := do
  let p ← Prog.get
  if p.sync.pendingAcks.length > 0 then do
    let number := min (length * 8) p.sync.pendingAcks.length
    let buffer := packAcks (List.replicate length 0) (p.sync.pendingAcks.take number)
    let resultsize := (number + 7) / 8
    modifySync fun y => { y with
      pendingAcks := y.pendingAcks.drop number
      sentBytes := y.sentBytes + resultsize }
    pure (some (buffer.take resultsize, number))
  else pure none

/-- The hash at the front of `sentHashes` is not known to the other side. -/
def handleUnknown (front : Digest d) : SyncM d Unit := do
  let type ← onTrie (KeyValueTrie.contains front)
  match type with
  | .LEAF_NODE => Prog.modify fun p => { p with handled := p.handled ++ [(front, true)] }
  | .INNER_NODE => modifySync fun y => { y with pendingSubtries := front :: y.pendingSubtries }
  | _ => do
    -- the local trie has changed: the search starts again at the root
    modifySync fun y => { y with pendingSubtries := [] }
    match ← getRootHash with
    | some newroot => modifySync fun y => { y with pendingSubtries := newroot :: y.pendingSubtries }
    | none => pure ()

/-- The loop of `processAcks`, over the given bits. -/
def processAckBits (buffer : Bytes) : List Nat → SyncM d Unit
  | [] => pure ()
  | i :: is => do
    let p ← Prog.get
    match p.sync.sentHashes with
    | [] => pure ()
    | front :: rest => do
      (if bitTest buffer i then handleUnknown front else pure () : SyncM d Unit)
      modifySync fun y => { y with sentHashes := rest }
      processAckBits buffer is

def processAcks (buffer : Bytes) (length numberOfAcks : Nat) : SyncM d Unit := do
  let p ← Prog.get
  if length < (numberOfAcks + 7) / 8 then throw (.text "illegal input length")
  else if p.sync.sentHashes.length < numberOfAcks then throw (.text "illegal input length")
  else do
    processAckBits buffer (List.range numberOfAcks)
    modifySync fun y => { y with receivedBytes := y.receivedBytes + (numberOfAcks + 7) / 8 }

def done (p : Peer d) : Bool :=
  if p.sync.stat = .EQUAL then true
  else if p.sync.pendingAcks.length > 0 then false
  else if p.sync.pendingSubtries.length > 0 then false
  else if p.sync.sentHashes.length > 0 then false
  else if p.sync.stat = .START then false
  else true

/-- `sentBytes` is the sum that the `size_t` counts modulo its range. -/
def getSentBytes (p : Peer d) : Nat := p.sync.sentBytes % 2 ^ 64

def getReceivedBytes (p : Peer d) : Nat := p.sync.receivedBytes % 2 ^ 64

end SyncProcess

/-- A new process on the set, with a handler that was not called. -/
def Peer.fresh (s : SetState d) : Peer d := ⟨s, SyncProcess.create d, []⟩

end SetSync
