import SetSync.LooseSync
import SetSync.SyncSystem

/-!
# The transfer counters

Two processes that exchange every kind of message the library has: root hashes, chunks of the bloom filter,
subtries and answers.  Each side has one channel to the other; its messages are delivered whole and in order,
and a message that is delivered to a call which raises an exception was refused.

The sender adds the bytes of a message to `sentBytes`, the receiver adds them to `receivedBytes`, except for
root hashes: `getRootHashForSending` counts them, and `isEqual` does not.

    sent = received + bytes on the way + bytes refused + d * calls of getRootHashForSending     (Balanced)
    nothing on the way or refused  →  (sent = received  ↔  no such call)         (counters_agree_iff)

It holds of every run, whatever the sets are and however their storages fail.
-/

namespace SetSync

open Program

variable {d : Nat}

/-! ## Messages -/

inductive Message (d : Nat) where
  | rootHash (hash : Digest d)
  | bloomFilterChunk (chunk : Bytes)
  | subTrie (hashes : Bytes)
  | acks (buffer : Bytes) (numberOfAcks : Nat)
deriving DecidableEq

namespace Message

/-- The call that processes the message. -/
def process : Message d → SyncM d Unit
  | rootHash hash => do
    let _ ← SyncProcess.isEqual hash
    pure ()
  | bloomFilterChunk chunk => SyncProcess.processBloomFilterChunk chunk chunk.length
  | subTrie hashes => do
    let _ ← SyncProcess.processSubTrie hashes hashes.length
    pure ()
  | acks buffer numberOfAcks => SyncProcess.processAcks buffer buffer.length numberOfAcks

/-- What the receiver counts of it. -/
def counted : Message d → Nat
  | rootHash _ => 0
  | bloomFilterChunk chunk => chunk.length
  | subTrie hashes => hashes.length
  | acks _ numberOfAcks => (numberOfAcks + 7) / 8

/-- What the receiver counts of some messages. -/
def total (messages : List (Message d)) : Nat := (messages.map counted).sum

theorem total_append (ms ms' : List (Message d)) : total (ms ++ ms') = total ms + total ms' := by
  simp [total]

end Message

/-- The calls that write messages; `isSubtrieOutputAvailable` prepares the first subtrie. -/
inductive SendCall where
  | getRootHashForSending
  | readNextBloomFilterChunk (length : Nat)
  | isSubtrieOutputAvailable
  | getSubTrie (buffersize : Nat)
  | readSomeTrieAcks (length : Nat)
deriving DecidableEq

namespace SendCall

/-- The call, and the message that the caller sends then: none if nothing was written. -/
def exec : SendCall → SyncM d (Option (Message d))
  | getRootHashForSending => do
    let root ← SyncProcess.getRootHashForSending
    pure (root.map .rootHash)
  | readNextBloomFilterChunk length => do
    let chunk ← SyncProcess.readNextBloomFilterChunk length
    pure (if chunk = [] then none else some (.bloomFilterChunk chunk))
  | isSubtrieOutputAvailable => do
    let _ ← SyncProcess.isSubtrieOutputAvailable
    pure none
  | getSubTrie buffersize => do
    let hashes ← SyncProcess.getSubTrie buffersize
    pure (if hashes = [] then none else some (.subTrie hashes))
  | readSomeTrieAcks length => do
    let acks ← SyncProcess.readSomeTrieAcks length
    pure (acks.map fun m => .acks m.1 m.2)

/-- What the sender counts and no receiver does. -/
def uncounted (d : Nat) : SendCall → Nat
  | getRootHashForSending => d
  | _ => 0

end SendCall

/-! ## The system -/

structure TransferSystem (d : Nat) where
  peer : Side → Peer d
  channel : Side → List (Message d)
  refused : Side → List (Message d)

inductive TransferAction (d : Nat) where
  | call (x : Side) (c : SendCall)
  | deliver (x : Side)
  /-- The set after any insertions and erasures. -/
  | change (x : Side) (set : SetState d)

namespace TransferSystem

def start (A B : SetState d) : TransferSystem d where
  peer
    | .A => Peer.fresh A
    | .B => Peer.fresh B
  channel _ := []
  refused _ := []

def setPeer (x : Side) (p : Peer d) (c : TransferSystem d) : TransferSystem d :=
  { c with peer := Function.update c.peer x p }

def onPeer {α : Type} (x : Side) (m : SyncM d α) :
    Prog (TransferSystem d) (Digest d × Digest d) Exn α :=
  Prog.zoom (fun c => c.peer x) (setPeer x) m

/-- The message enters the channel of `x`. -/
def send (x : Side) (message : Option (Message d)) (c : TransferSystem d) : TransferSystem d :=
  { c with channel := Function.update c.channel x (c.channel x ++ message.toList) }

/-- The first message of `x` has left its channel. -/
def take (x : Side) (message : Message d) (rest : List (Message d)) (processed : Bool)
    (c : TransferSystem d) : TransferSystem d :=
  { c with
    channel := Function.update c.channel x rest
    refused := Function.update c.refused x
      (if processed then c.refused x else c.refused x ++ [message]) }

end TransferSystem

open TransferSystem

namespace TransferAction

/-- An exception of a call is caught; a sender that was left by one sends nothing. -/
def exec : TransferAction d → Prog (TransferSystem d) (Digest d × Digest d) Exn Unit
  | call x c => do
    let message ← tryCatch (onPeer x c.exec) fun _ => pure none
    Prog.modify (send x message)
  | deliver x => do
    let c ← Prog.get
    match c.channel x.other with
    | [] => pure ()
    | message :: rest => do
      let processed ← tryCatch
        (do
          onPeer x message.process
          pure true)
        fun _ => pure false
      Prog.modify (take x.other message rest processed)
  | change x set => Prog.modify fun c => setPeer x { c.peer x with set := set } c

def run (actions : List (TransferAction d)) :
    Prog (TransferSystem d) (Digest d × Digest d) Exn (List Unit) := Prog.each exec actions

end TransferAction

/-! ## What one call counts -/

/-- What the process has sent and received. -/
def Peer.counters (p : Peer d) : Nat × Nat := (p.sync.sentBytes, p.sync.receivedBytes)

namespace SyncProcess

/-- The call ends, and counts nothing. -/
def Uncounted {α : Type} (m : SyncM d α) : Prop := ∀ p : Peer d,
  Prog.Triple m p (fun _ p' => p'.counters = p.counters) fun p' => p'.counters = p.counters

/-- The call ends; it counts `n` received bytes when it returns, and none when it raises an exception. -/
def Receives {α : Type} (n : Nat) (m : SyncM d α) : Prop := ∀ p : Peer d,
  Prog.Triple m p (fun _ p' => p'.counters = (p.counters.1, p.counters.2 + n))
    fun p' => p'.counters = p.counters

section Uncounted

variable {α β : Type} {n : Nat}

theorem Receives.after {m : SyncM d α} {f : α → SyncM d β} (hm : Uncounted m)
    (hf : ∀ a, Receives n (f a)) : Receives n (m >>= f) := by
  intro p
  refine (hm p).bind fun a p₁ h₁ => ?_
  have hrest := hf a p₁
  rwa [h₁] at hrest

theorem Receives.modifySync {f : SyncProcess d → SyncProcess d}
    (hf : ∀ y, (f y).sentBytes = y.sentBytes ∧ (f y).receivedBytes = y.receivedBytes + n) :
    Receives n (SyncProcess.modifySync f : SyncM d Unit) := fun p =>
  Prog.Triple.modify (Prod.ext (hf p.sync).1 (hf p.sync).2)

theorem Uncounted.pure (a : α) : Uncounted (pure a : SyncM d α) := fun _ => Prog.Triple.pure rfl

theorem Uncounted.get : Uncounted (Prog.get : SyncM d (Peer d)) := fun _ => Prog.Triple.get rfl

theorem Uncounted.modify {f : Peer d → Peer d} (h : ∀ p, (f p).counters = p.counters) :
    Uncounted (Prog.modify f : SyncM d Unit) := fun p => Prog.Triple.modify (h p)

-- A call that counts nothing is one that receives no byte.
theorem Uncounted.modifySync {f : SyncProcess d → SyncProcess d}
    (h : ∀ y, (f y).sentBytes = y.sentBytes ∧ (f y).receivedBytes = y.receivedBytes) :
    Uncounted (SyncProcess.modifySync f : SyncM d Unit) := Receives.modifySync (n := 0) h

theorem Uncounted.bind {m : SyncM d α} {f : α → SyncM d β} (hm : Uncounted m)
    (hf : ∀ a, Uncounted (f a)) : Uncounted (m >>= f) := Receives.after (n := 0) hm hf

/-- The trie has no counters. -/
theorem onTrie_triple {m : TrieM d α} {p : Peer d} {Q : α → Prop}
    (h : Prog.Triple m p.set.trie (fun a _ => Q a) fun _ => True) :
    Prog.Triple (SyncProcess.onTrie m) p (fun a p' => Q a ∧ p'.counters = p.counters)
      fun p' => p'.counters = p.counters := by
  have hset : Prog.Triple (SetState.onTrie m) p.set (fun a _ => Q a) fun _ => True :=
    h.zoom (fun _ _ ha => ha) fun _ _ => trivial
  show Prog.Triple (Prog.zoom Peer.set (fun s p => { p with set := s }) (SetState.onTrie m)) p _ _
  exact hset.zoom (fun _ _ ha => ⟨ha, rfl⟩) fun _ _ => rfl

theorem Uncounted.onTrie {m : TrieM d α} (h : Prog.Ends m) : Uncounted (SyncProcess.onTrie m) :=
  fun p => (onTrie_triple (h.triple p.set.trie)).mono (fun _ _ ha => ha.2) fun _ => id

end Uncounted

section Methods

theorem contains_ends (key : Digest d) : Prog.Ends (KeyValueTrie.contains key) :=
  ((TrieNode.load_ends key).bind fun _ => Prog.Ends.pure _).tryCatch fun _ => Prog.Ends.pure _

theorem rootGet_ends : Prog.Ends (KeyValueRootNode.get : TrieM d (TrieNode d)) := by
  refine (Prog.Ends.zoom (Storage.operation_ends _)).bind fun found => ?_
  cases found with
  | none => exact Prog.Ends.throw _
  | some rootHash =>
    show Prog.Ends (if h : rootHash.length = d then TrieNode.load ⟨rootHash, h⟩ else throw _)
    split
    · exact TrieNode.load_ends _
    · exact Prog.Ends.throw _

theorem getRoot_ends : Prog.Ends (KeyValueTrie.getRoot : TrieM d (Option (Digest d))) := by
  have hsize : Prog.Ends (KeyValueTrie.getSize : TrieM d Nat) := fun _ => nofun
  refine hsize.bind fun size => ?_
  split
  · exact Prog.Ends.pure _
  · refine (rootGet_ends.bind fun _ => Prog.Ends.pure _).tryCatch fun e => ?_
    split
    · exact Prog.Ends.pure _
    · exact Prog.Ends.throw _

theorem diffBit_ends (externalBF : Bytes) (offset i j : Nat) :
    Prog.Ends (KeyValueCountingBloomFilter.diffBit (d := d) externalBF offset i j) := by
  refine Prog.Ends.get.bind fun r => ?_
  obtain ⟨f, handled⟩ := r
  simp only
  split
  · split
    · exact Prog.Ends.pure _
    · refine (Prog.Ends.zoom (Prog.Ends.zoom (Storage.operation_ends _))).bind fun found => ?_
      cases found with
      | none => exact Prog.Ends.pure _
      | some result => exact Prog.Ends.modify _
  · exact Prog.Ends.pure _

theorem diff_ends (externalBF : Bytes) (length offset : Nat) :
    Prog.Ends (KeyValueCountingBloomFilter.diff (d := d) externalBF length offset) := by
  have hbits : ∀ bits : List (Nat × Nat),
      Prog.Ends (KeyValueCountingBloomFilter.diffBits (d := d) externalBF offset bits) := by
    intro bits
    induction bits with
    | nil => exact Prog.Ends.pure _
    | cons b bits ih => exact (diffBit_ends externalBF offset b.1 b.2).bind fun _ => ih
  refine Prog.Ends.get.bind fun r => ?_
  obtain ⟨f, handled⟩ := r
  simp only
  split
  · exact Prog.Ends.throw _
  · exact hbits _

end Methods

/-! ## Receiving -/

section Receives

variable {α β : Type} {n : Nat}

/-- What follows only reads. -/
theorem Receives.before {m : SyncM d α} {f : α → SyncM d β} (hm : Receives n m)
    (hf : ∀ a p, ∃ b, f a p = ⟨.ok b, p, []⟩) : Receives n (m >>= f) := by
  intro p
  refine (hm p).bind fun a p₁ h₁ => ?_
  obtain ⟨b, hb⟩ := hf a p₁
  rw [Prog.Triple, hb]
  exact Or.inl ⟨b, rfl, h₁⟩

theorem isEqual_uncounted (hash : Digest d) : Uncounted (isEqual hash) := by
  refine Uncounted.get.bind fun p => ?_
  split
  · exact Uncounted.pure _
  · refine (Uncounted.onTrie getRoot_ends).bind fun root => ?_
    cases root with
    | none => exact Uncounted.pure _
    | some localroothash =>
      show Uncounted (if localroothash = hash then _ else _)
      split
      · exact Uncounted.bind (Uncounted.modifySync fun _ => ⟨rfl, rfl⟩) fun _ => Uncounted.pure _
      · exact Uncounted.pure _

theorem processBloomFilterChunk_receives (chunk : Bytes) :
    Receives chunk.length (processBloomFilterChunk (d := d) chunk chunk.length) := by
  refine Receives.after Uncounted.get fun p => Receives.after (fun q => ?_) fun _ =>
    Receives.modifySync fun _ => ⟨rfl, rfl⟩
  exact ((diff_ends chunk chunk.length _).triple _).zoom (fun _ _ _ => rfl) fun _ _ => rfl

theorem answerHashes_uncounted (hashes : List (Digest d)) : Uncounted (answerHashes hashes) := by
  induction hashes with
  | nil => exact Uncounted.pure _
  | cons x xs ih =>
    exact Uncounted.bind (Uncounted.onTrie (contains_ends x)) fun _ =>
      Uncounted.bind (Uncounted.modifySync fun _ => ⟨rfl, rfl⟩) fun _ => ih

theorem processSubTrie_receives (hashes : Bytes) :
    Receives hashes.length (processSubTrie (d := d) hashes hashes.length) := by
  refine Receives.after (answerHashes_uncounted _) fun _ => ?_
  exact Receives.before (Receives.modifySync fun _ => ⟨rfl, rfl⟩) fun _ p => ⟨_, rfl⟩

theorem handleUnknown_uncounted (front : Digest d) : Uncounted (handleUnknown front) := by
  refine (Uncounted.onTrie (contains_ends front)).bind fun type => ?_
  cases type with
  | LEAF_NODE => exact Uncounted.modify fun _ => rfl
  | INNER_NODE => exact Uncounted.modifySync fun _ => ⟨rfl, rfl⟩
  | NOT_FOUND =>
    refine Uncounted.bind (Uncounted.modifySync fun _ => ⟨rfl, rfl⟩) fun _ =>
      Uncounted.bind (Uncounted.onTrie getRoot_ends) fun r => ?_
    cases r with
    | none => exact Uncounted.pure _
    | some newroot => exact Uncounted.modifySync fun _ => ⟨rfl, rfl⟩

theorem processAckBits_uncounted (buffer : Bytes) (is : List Nat) :
    Uncounted (processAckBits (d := d) buffer is) := by
  induction is with
  | nil => exact Uncounted.pure _
  | cons i is ih =>
    refine Uncounted.get.bind fun p => ?_
    cases p.sync.sentHashes with
    | nil => exact Uncounted.pure _
    | cons front rest =>
      refine Uncounted.bind ?_ fun _ => Uncounted.bind (Uncounted.modifySync fun _ => ⟨rfl, rfl⟩) fun _ => ih
      split
      · exact handleUnknown_uncounted front
      · exact Uncounted.pure _

theorem processAcks_receives (buffer : Bytes) (length numberOfAcks : Nat) :
    Receives ((numberOfAcks + 7) / 8) (processAcks (d := d) buffer length numberOfAcks) := by
  refine Receives.after Uncounted.get fun p => ?_
  split
  · exact fun q => Prog.Triple.throw rfl
  · split
    · exact fun q => Prog.Triple.throw rfl
    · exact Receives.after (processAckBits_uncounted buffer _) fun _ => Receives.modifySync fun _ => ⟨rfl, rfl⟩

end Receives

end SyncProcess

open SyncProcess

/-- What `process` counts of a message. -/
theorem Message.process_receives (message : Message d) : Receives message.counted message.process := by
  cases message with
  | rootHash hash => exact (isEqual_uncounted hash).bind fun _ => Uncounted.pure _
  | bloomFilterChunk chunk => exact processBloomFilterChunk_receives chunk
  | subTrie hashes => exact (processSubTrie_receives hashes).before fun _ _ => ⟨_, rfl⟩
  | acks buffer numberOfAcks => exact processAcks_receives buffer _ numberOfAcks

/-! ## Sending -/

namespace SyncProcess

theorem isSubtrieOutputAvailable_uncounted : Uncounted (isSubtrieOutputAvailable : SyncM d Bool) := by
  refine Uncounted.get.bind fun p => ?_
  split
  · refine (Uncounted.onTrie getRoot_ends).bind fun root => ?_
    cases root with
    | none => exact Uncounted.pure _
    | some root =>
      exact Uncounted.bind (Uncounted.modifySync fun _ => ⟨rfl, rfl⟩) fun _ =>
        Uncounted.get.bind fun _ => Uncounted.pure _
  · exact Uncounted.pure _

/-- A cut, on any storage. -/
theorem getSubTrie_triple (x : Digest d) (buffersize : Nat) (s : TrieState d) :
    Prog.Triple (KeyValueTrie.getSubTrie x buffersize) s (fun r _ => r.1.length = r.2) fun _ => True :=
  getSubTrie_pushes Prog.triple_contract (fun x s => (TrieNode.load_ends x).triple s) x buffersize s

theorem getSubTrieOn_sends (buffersize : Nat) (pending : List (Digest d)) (p : Peer d) :
    Prog.Triple (getSubTrieOn buffersize pending) p
      (fun hashes p' => p'.counters = (p.counters.1 + hashes.length, p.counters.2))
      fun p' => p'.counters = p.counters := by
  induction pending generalizing p with
  | nil => exact Prog.Triple.pure rfl
  | cons top rest ih =>
    have htry : Prog.Triple (tryCatch
        (do
          let r ← onTrie (KeyValueTrie.getSubTrie top buffersize)
          pure (some r))
        fun _ => pure none : SyncM d (Option (Bytes × Nat))) p
        (fun found p' => (∀ r, found = some r → r.1.length = r.2) ∧ p'.counters = p.counters)
        fun p' => p'.counters = p.counters := by
      have hcut := onTrie_triple (p := p) (getSubTrie_triple top buffersize p.set.trie)
      refine Prog.Triple.tryCatch (hcut.bind fun r p₁ h₁ => Prog.Triple.pure ⟨?_, h₁.2⟩) fun _ p₁ h₁ =>
        Prog.Triple.pure ⟨nofun, h₁⟩
      intro r' hr
      cases hr
      exact h₁.1
    refine htry.bind fun found p₁ h₁ => ?_
    refine Prog.Triple.bind (Q := fun _ p' => p'.counters = p.counters) (Prog.Triple.modify h₁.2)
      fun _ p₂ h₂ => ?_
    cases found with
    | none =>
      have hrest := ih p₂
      rwa [h₂] at hrest
    | some r =>
      obtain ⟨buffer, size⟩ := r
      have hsize : buffer.length = size := h₁.1 _ rfl
      have hlen : (buffer.take size).length = size := by rw [← hsize, List.take_length]
      refine Prog.Triple.bind (Q := fun _ p' => p'.counters = (p.counters.1 + size, p.counters.2))
        (Prog.Triple.modify ?_) fun _ p₃ h₃ => Prog.Triple.pure ?_
      · rw [← h₂]
        rfl
      · rw [h₃, hlen]

/-- What a call counts: the bytes of its message, and `n` more. -/
def Sends (n : Nat) (m : SyncM d (Option (Message d))) : Prop := ∀ p : Peer d,
  Prog.Triple m p
    (fun message p' => p'.counters = (p.counters.1 + Message.total message.toList + n, p.counters.2))
    fun p' => p'.counters = (p.counters.1 + n, p.counters.2)

/-- A message that is sent unless it has no bytes. -/
theorem total_unless_nil (bytes : Bytes) {message : Message d} (h : message.counted = bytes.length) :
    Message.total (if bytes = [] then none else some message).toList = bytes.length := by
  split
  · rename_i hnil
    rw [hnil]
    rfl
  · simp [Message.total, h]

theorem getRootHashForSending_sends : Sends d (SendCall.exec .getRootHashForSending : SyncM d _) := by
  intro p
  have hcall : Prog.Triple getRootHashForSending p
      (fun _ p' => p'.counters = (p.counters.1 + d, p.counters.2))
      fun p' => p'.counters = (p.counters.1 + d, p.counters.2) := by
    refine Prog.Triple.bind (Q := fun _ p' => p'.counters = (p.counters.1 + d, p.counters.2))
      (Prog.Triple.modify rfl) fun _ p₁ h₁ => ?_
    have hroot := Uncounted.onTrie getRoot_ends p₁
    rwa [h₁] at hroot
  refine hcall.bind fun root p₁ h₁ => Prog.Triple.pure ?_
  cases root <;> exact h₁

theorem readNextBloomFilterChunk_sends (length : Nat) :
    Sends 0 (SendCall.exec (.readNextBloomFilterChunk length) : SyncM d _) := by
  intro p
  have hcall : Prog.Triple (readNextBloomFilterChunk length) p
      (fun chunk p' => p'.counters = (p.counters.1 + chunk.length, p.counters.2))
      fun p' => p'.counters = (p.counters.1 + 0, p.counters.2) := Or.inl ⟨_, rfl, rfl⟩
  refine hcall.bind fun chunk p₁ h₁ => Prog.Triple.pure ?_
  rw [total_unless_nil (d := d) chunk rfl]
  exact h₁

theorem getSubTrie_sends (buffersize : Nat) :
    Sends 0 (SendCall.exec (.getSubTrie buffersize) : SyncM d _) := by
  intro p
  have hcall : Prog.Triple (getSubTrie buffersize) p
      (fun hashes p' => p'.counters = (p.counters.1 + hashes.length, p.counters.2))
      fun p' => p'.counters = (p.counters.1 + 0, p.counters.2) :=
    getSubTrieOn_sends buffersize p.sync.pendingSubtries p
  refine hcall.bind fun hashes p₁ h₁ => Prog.Triple.pure ?_
  rw [total_unless_nil (d := d) hashes rfl]
  exact h₁

theorem readSomeTrieAcks_sends (length : Nat) :
    Sends 0 (SendCall.exec (.readSomeTrieAcks length) : SyncM d _) := by
  intro p
  by_cases hacks : p.sync.pendingAcks = []
  · rw [Prog.Triple, SendCall.exec, Prog.bind_of_ok (readSomeTrieAcks_none length hacks)]
    exact Or.inl ⟨none, rfl, rfl⟩
  · obtain ⟨buffer, number, -, -, -, hcall⟩ := readSomeTrieAcks_ok length hacks
    rw [Prog.Triple, SendCall.exec, Prog.bind_of_ok hcall]
    exact Or.inl ⟨some (.acks buffer number), rfl, rfl⟩

theorem isSubtrieOutputAvailable_sends :
    Sends 0 (SendCall.exec .isSubtrieOutputAvailable : SyncM d _) := by
  intro p
  have hcall : Prog.Triple isSubtrieOutputAvailable p (fun _ p' => p'.counters = p.counters)
      fun p' => p'.counters = (p.counters.1 + 0, p.counters.2) := isSubtrieOutputAvailable_uncounted p
  exact hcall.bind fun _ p₁ h₁ => Prog.Triple.pure h₁

end SyncProcess

/-- What `exec` counts of a call. -/
theorem SendCall.exec_sends (c : SendCall) : Sends (c.uncounted d) (c.exec : SyncM d _) := by
  cases c with
  | getRootHashForSending => exact getRootHashForSending_sends
  | readNextBloomFilterChunk length => exact readNextBloomFilterChunk_sends length
  | isSubtrieOutputAvailable => exact isSubtrieOutputAvailable_sends
  | getSubTrie buffersize => exact getSubTrie_sends buffersize
  | readSomeTrieAcks length => exact readSomeTrieAcks_sends length

/-! ## The balance of a system -/

namespace TransferAction

/-- The calls of `getRootHashForSending` on the side `x`. -/
def rootHashCalls (x : Side) : TransferAction d → Nat
  | call y .getRootHashForSending => if y = x then 1 else 0
  | _ => 0

theorem rootHashCalls_call (x y : Side) (c : SendCall) : rootHashCalls y (call x c : TransferAction d)
    = if y = x then rootHashCalls x (call x c : TransferAction d) else 0 := by
  cases c <;> simp [rootHashCalls, eq_comm]

theorem uncounted_eq (x : Side) (c : SendCall) :
    c.uncounted d = d * rootHashCalls x (call x c : TransferAction d) := by
  cases c <;> simp [rootHashCalls, SendCall.uncounted]

end TransferAction

/-- What a side has sent is what the other side has received, what is on the way and what was refused, and
the size of a hash for each of its `n` calls of `getRootHashForSending`. -/
def Balanced (n : Side → Nat) (c : TransferSystem d) : Prop := ∀ x,
  (c.peer x).counters.1 = (c.peer x.other).counters.2 + Message.total (c.channel x)
    + Message.total (c.refused x) + d * n x

section Balanced

variable {n : Side → Nat} {c : TransferSystem d}

theorem balanced_start (A B : SetState d) : Balanced (fun _ => 0) (start A B) := by
  intro x
  cases x <;> rfl

/-- One side has sent a message. -/
theorem Balanced.send (h : Balanced n c) {x : Side} {p : Peer d} {message : Option (Message d)} {k : Nat}
    (hp : p.counters = ((c.peer x).counters.1 + Message.total message.toList + d * k,
      (c.peer x).counters.2)) :
    Balanced (fun y => n y + if y = x then k else 0) (send x message (setPeer x p c)) := by
  intro y
  have hy := h y
  rcases Side.eq_or_other x y with rfl | rfl
  · simp only [TransferSystem.send, setPeer, Function.update_self, ne_eq, Side.other_ne,
      not_false_eq_true, Function.update_of_ne, hp, Message.total_append, if_true, Nat.mul_add]
    omega
  · simpa [TransferSystem.send, setPeer, hp] using hy

/-- One side has taken a message of the other side. -/
theorem Balanced.take (h : Balanced n c) {x : Side} {p : Peer d} {message : Message d}
    {rest : List (Message d)} {processed : Bool} (hchannel : c.channel x.other = message :: rest)
    (hp : p.counters = ((c.peer x).counters.1,
      (c.peer x).counters.2 + if processed then message.counted else 0)) :
    Balanced n (take x.other message rest processed (setPeer x p c)) := by
  intro y
  have hy := h y
  rcases Side.eq_or_other x y with rfl | rfl
  · simpa [TransferSystem.take, setPeer, hp] using hy
  · have hfirst : Message.total (c.channel x.other) = message.counted + Message.total rest := by
      rw [hchannel]
      rfl
    have hrefused : Message.total (c.refused x.other ++ [message])
        = Message.total (c.refused x.other) + message.counted := Message.total_append _ _
    cases processed <;> simp [TransferSystem.take, setPeer, hp, hfirst, hrefused] at hy ⊢ <;> omega

/-- The set of a side is replaced. -/
theorem Balanced.change (h : Balanced n c) (x : Side) (set : SetState d) :
    Balanced n (setPeer x { c.peer x with set := set } c) := by
  intro y
  have hy := h y
  rcases Side.eq_or_other x y with rfl | rfl
  · simpa [setPeer, Peer.counters] using hy
  · simpa [setPeer, Peer.counters] using hy

/-- A call whose exception is caught: the caller has the message that was counted, or none. -/
theorem call_caught (x : Side) (s : SendCall) (c : TransferSystem d) :
    Prog.Triple (tryCatch (onPeer x s.exec) fun _ => pure none) c
      (fun message c' => ∃ p, c' = setPeer x p c ∧ p.counters = ((c.peer x).counters.1
        + Message.total message.toList + s.uncounted d, (c.peer x).counters.2)) fun _ => False := by
  have hcall : Prog.Triple (onPeer x s.exec) c
      (fun message c' => ∃ p, c' = setPeer x p c ∧ p.counters = ((c.peer x).counters.1
        + Message.total message.toList + s.uncounted d, (c.peer x).counters.2))
      fun c' => ∃ p, c' = setPeer x p c ∧
        p.counters = ((c.peer x).counters.1 + s.uncounted d, (c.peer x).counters.2) :=
    Prog.Triple.zoom (s.exec_sends (c.peer x)) (fun _ p hp => ⟨p, rfl, hp⟩) fun p hp => ⟨p, rfl, hp⟩
  exact hcall.tryCatch fun _ _ hp => Prog.Triple.pure hp

/-- A message that is processed or refused. -/
theorem process_caught (x : Side) (message : Message d) (c : TransferSystem d) :
    Prog.Triple (tryCatch
        (do
          onPeer x message.process
          pure true)
        fun _ => pure false) c
      (fun processed c' => ∃ p, c' = setPeer x p c ∧ p.counters = ((c.peer x).counters.1,
        (c.peer x).counters.2 + if processed then message.counted else 0)) fun _ => False := by
  have hcall : Prog.Triple (onPeer x message.process) c
      (fun _ c' => ∃ p, c' = setPeer x p c ∧
        p.counters = ((c.peer x).counters.1, (c.peer x).counters.2 + message.counted))
      fun c' => ∃ p, c' = setPeer x p c ∧ p.counters = (c.peer x).counters :=
    Prog.Triple.zoom (message.process_receives (c.peer x)) (fun _ p hp => ⟨p, rfl, hp⟩)
      fun p hp => ⟨p, rfl, hp⟩
  have hdone := hcall.bind fun _ _ hp => Prog.Triple.pure (Q := fun processed c' =>
    ∃ p, c' = setPeer x p c ∧ p.counters = ((c.peer x).counters.1,
      (c.peer x).counters.2 + if processed then message.counted else 0)) (a := true) hp
  exact hdone.tryCatch fun _ _ hp => Prog.Triple.pure hp

/-- **One action.** -/
theorem exec_balanced (h : Balanced n c) (a : TransferAction d) :
    Prog.Returns (fun _ => True) a.exec c fun _ c' => Balanced (fun x => n x + a.rootHashCalls x) c' := by
  apply Prog.Triple.returns
  cases a with
  | call x s =>
    refine (call_caught x s c).bind ?_
    rintro message _ ⟨p, rfl, hp⟩
    rw [TransferAction.uncounted_eq x] at hp
    refine Prog.Triple.modify ?_
    have hsent := h.send hp
    simp only [← TransferAction.rootHashCalls_call] at hsent
    exact hsent
  | deliver x =>
    refine Prog.Triple.bind (Q := fun b c' => b = c ∧ c' = c) (Prog.Triple.get ⟨rfl, rfl⟩) ?_
    intro b c' hget
    rw [hget.1, hget.2]
    cases hchannel : c.channel x.other with
    | nil => exact Prog.Triple.pure h
    | cons message rest =>
      refine (process_caught x message c).bind ?_
      rintro processed _ ⟨p, rfl, hp⟩
      exact Prog.Triple.modify (h.take hchannel hp)
  | change x set => exact Prog.Triple.modify (h.change x set)

end Balanced

/-! ## Runs -/

/-- The calls of `getRootHashForSending` in a run. -/
def rootHashCount (actions : List (TransferAction d)) (x : Side) : Nat :=
  (actions.map (TransferAction.rootHashCalls x)).sum

theorem rootHashCount_eq_zero_iff (actions : List (TransferAction d)) (x : Side) :
    rootHashCount actions x = 0 ↔ .call x .getRootHashForSending ∉ actions := by
  have hzero : ∀ a : TransferAction d,
      a.rootHashCalls x = 0 ↔ a ≠ .call x .getRootHashForSending := by
    intro a
    cases a with
    | call y c => cases c <;> simp [TransferAction.rootHashCalls]
    | deliver y => simp [TransferAction.rootHashCalls]
    | change y set => simp [TransferAction.rootHashCalls]
  induction actions with
  | nil => simp [rootHashCount]
  | cons a actions ih =>
    have hcons : rootHashCount (a :: actions) x = a.rootHashCalls x + rootHashCount actions x := rfl
    rw [hcons, Nat.add_eq_zero_iff, List.mem_cons, not_or]
    exact and_congr ((hzero a).trans ne_comm) ih

/-- The calls so far, and those of one more action. -/
def countStep (n : Side → Nat) (a : TransferAction d) : Unit × (Side → Nat) :=
  ((), fun x => n x + a.rootHashCalls x)

theorem simulate_countStep (n : Side → Nat) (actions : List (TransferAction d)) :
    (simulate countStep n actions).2 = fun x => n x + rootHashCount actions x := by
  induction actions generalizing n with
  | nil => rfl
  | cons a actions ih =>
    funext x
    have hrest := congrFun (ih fun x => n x + a.rootHashCalls x) x
    have hcons : rootHashCount (a :: actions) x = a.rootHashCalls x + rootHashCount actions x := rfl
    rw [hcons, ← Nat.add_assoc]
    exact hrest

/-- **The invariant of all runs.** -/
theorem run_balanced (A B : SetState d) (actions : List (TransferAction d)) :
    Prog.Returns (fun _ => True) (TransferAction.run actions) (start A B)
      fun _ c => Balanced (rootHashCount actions) c := by
  have hrun : Prog.Returns (fun _ => True) (TransferAction.run actions) (start A B) fun as c =>
      as = (simulate countStep (fun _ => 0) actions).1 ∧
        Balanced (simulate countStep (fun _ => 0) actions).2 c :=
    Prog.Returns.each (I := fun n c => Balanced n c) (C := fun _ _ => true)
      (fun a _ n c h _ => (exec_balanced h a).mono fun _ _ h' => ⟨rfl, h'⟩) (balanced_start A B)
      (Prog.throughout_true _ _)
  refine hrun.mono fun as c hc => ?_
  have hbalanced := hc.2
  simp only [simulate_countStep, Nat.zero_add] at hbalanced
  exact hbalanced

/-- Once everything is processed, the counters of a side and of the other agree exactly if it has not sent
its root hash: the sums, and what `getSentBytes` and `getReceivedBytes` return before they wrap. -/
theorem counters_agree_iff (hd : 0 < d) (A B : SetState d) (actions : List (TransferAction d)) :
    let r := TransferAction.run actions (start A B)
    (∃ as, r.outcome = .ok as) ∧ ∀ x, r.state.channel x = [] → r.state.refused x = [] →
      ((r.state.peer x).sync.sentBytes = (r.state.peer x.other).sync.receivedBytes ↔
        .call x .getRootHashForSending ∉ actions) ∧
      ((r.state.peer x).sync.sentBytes < 2 ^ 64 →
        (SyncProcess.getSentBytes (r.state.peer x) = SyncProcess.getReceivedBytes (r.state.peer x.other) ↔
          .call x .getRootHashForSending ∉ actions)) := by
  intro r
  obtain ⟨as, ho, hbalanced⟩ := run_balanced A B actions fun _ _ => trivial
  refine ⟨⟨as, ho⟩, fun x hchannel hrefused => ?_⟩
  have hx : (r.state.peer x).sync.sentBytes = (r.state.peer x.other).sync.receivedBytes
      + Message.total (r.state.channel x) + Message.total (r.state.refused x)
      + d * rootHashCount actions x := hbalanced x
  have hnone : Message.total ([] : List (Message d)) = 0 := rfl
  rw [hchannel, hrefused, hnone, Nat.add_zero] at hx
  have hsums : (r.state.peer x).sync.sentBytes = (r.state.peer x.other).sync.receivedBytes ↔
      .call x .getRootHashForSending ∉ actions := by
    rw [hx, ← rootHashCount_eq_zero_iff]
    constructor
    · intro h
      have hmul : d * rootHashCount actions x = 0 := by omega
      exact (Nat.mul_eq_zero.mp hmul).resolve_left (Nat.ne_of_gt hd)
    · intro h
      rw [h]
      rfl
  refine ⟨hsums, fun hlt => ?_⟩
  have hreceived : (r.state.peer x.other).sync.receivedBytes < 2 ^ 64 := by omega
  rw [SyncProcess.getSentBytes, SyncProcess.getReceivedBytes, Nat.mod_eq_of_lt hlt,
    Nat.mod_eq_of_lt hreceived]
  exact hsums

theorem counters_agree_sample :
    let r := TransferAction.run [.call .A (.readNextBloomFilterChunk 2), .deliver .B] (start oneKey oneKey)
    SyncProcess.getSentBytes (r.state.peer .A) = SyncProcess.getReceivedBytes (r.state.peer .B) ∧
      SyncProcess.getSentBytes (r.state.peer .A) = 2 := by
  have h := counters_agree_iff (by decide) oneKey oneKey
    [.call .A (.readNextBloomFilterChunk 2), .deliver .B]
  exact ⟨((h.2 .A (by decide +kernel) (by decide +kernel)).2 (by decide +kernel)).mpr (by simp),
    by decide +kernel⟩

/-- One side sends its root hash, and the other compares it: the hash is counted once. -/
theorem root_hash_counted_once :
    let r := TransferAction.run [.call .A .getRootHashForSending, .deliver .B] (start oneKey oneKey)
    (∀ x, r.state.channel x = [] ∧ r.state.refused x = []) ∧ (r.state.peer .B).sync.stat = .EQUAL ∧
      SyncProcess.getSentBytes (r.state.peer .A) = 16 ∧ SyncProcess.getReceivedBytes (r.state.peer .B) = 0 ∧
      (r.state.peer .A).sync.sentBytes ≠ (r.state.peer .B).sync.receivedBytes := by
  intro r
  have hempty : ∀ x, r.state.channel x = [] ∧ r.state.refused x = [] := by
    intro x
    cases x <;> decide +kernel
  have hsent : (r.state.peer .A).sync.sentBytes = 16 := by decide +kernel
  have hreceived : (r.state.peer .B).sync.receivedBytes = 0 := by decide +kernel
  exact ⟨hempty, by decide +kernel, by decide +kernel, by decide +kernel, by rw [hsent, hreceived]; decide⟩

end SetSync
