import SetSync.SyncProcess
import SetSync.TrieEquality

/-!
# The steps of a process

What every call of a process does, on a storage that works.  A trie matters only through the kind of
its records (`nodeType`) and its root, and no call changes the set.

    isSubtrieOutputAvailable    the root becomes pending, once                             (poll_ok)
    getSubTrie                  pending hashes are dropped up to one that can be cut  (getSubTrie_spec)
    processSubTrie              an answer for each hash                           (processSubTrie_ok)
    readSomeTrieAcks            the first answers, as bits                     (readSomeTrieAcks_ok)
    processAcks                 `ackStep` for each bit and the hash it answers       (processAcks_ok)
-/

namespace SetSync

open Program BitTrie

variable {d : Nat}

/-! ## Reading a trie -/

/-- The answer of `contains` for a record. -/
def nodeType : Option (Entry (Digest d)) → TrieNodeType
  | none => .NOT_FOUND
  | some e => if e.children.isSome then .INNER_NODE else .LEAF_NODE

/-- `processSubTrie` answers true for a hash that is not found. -/
def absent (s : TrieState d) (x : Digest d) : Bool := nodeType (s.record x) == .NOT_FOUND

section Tries

variable {s : TrieState d}

theorem absent_iff {x : Digest d} : absent s x = true ↔ s.record x = none := by
  unfold absent
  cases s.record x with
  | none => exact iff_of_true rfl rfl
  | some e =>
    apply iff_of_false _ (Option.some_ne_none e)
    rw [nodeType]
    split <;> decide

theorem contains_record (h : s.storage.failure = none) (x : Digest d) :
    KeyValueTrie.contains x s = ⟨.ok (nodeType (s.record x)), s, []⟩ := by
  unfold TrieState.record
  cases hv : s.storage.table.lookup x.bytes with
  | none => exact Prog.tryCatch_of_error (Prog.bind_of_error (load_missing h hv) _) _
  | some v =>
    refine Prog.tryCatch_of_ok ?_ _
    rw [Prog.bind_of_ok (load_found h hv), Option.map_some, nodeType, TrieNode.view]
    cases (TrieNode.unmarshall x v).hasChildren <;> rfl

theorem rootGet_reads (h : s.storage.failure = none) :
    (∃ n, KeyValueRootNode.get s = ⟨.ok n, s, []⟩) ∨
      ∃ e, KeyValueRootNode.get s = ⟨.error e, s, []⟩ ∧ e.isTrieException = true := by
  cases hroot : s.storage.table.lookup KeyValueRootNode.rootName with
  | none => exact Or.inr ⟨_, rootGet_missing h hroot, rfl⟩
  | some v =>
    rw [KeyValueRootNode.get, Prog.bind_of_ok (onStorage_read h _), hroot, Run.after_nil]
    simp only
    by_cases hv : v.length = d
    · rw [dif_pos hv]
      cases hx : s.storage.table.lookup (Digest.mk v hv).bytes with
      | none => exact Or.inr ⟨_, load_missing h hx, rfl⟩
      | some r => exact Or.inl ⟨_, load_found h hx⟩
    · rw [dif_neg hv]
      exact Or.inr ⟨_, rfl, rfl⟩

/-- `getRoot` returns on any records. -/
theorem getRoot_total (h : s.storage.failure = none) :
    ∃ r, KeyValueTrie.getRoot s = ⟨.ok r, s, []⟩ := by
  have hsize : KeyValueTrie.getSize s = ⟨.ok s.size, s, []⟩ := rfl
  rw [KeyValueTrie.getRoot, Prog.bind_of_ok hsize, Run.after_nil]
  by_cases h0 : s.size = 0
  · rw [if_pos h0]
    exact ⟨none, rfl⟩
  · rw [if_neg h0]
    rcases rootGet_reads h with ⟨n, hn⟩ | ⟨e, he, htrie⟩
    · refine ⟨some n.hash, Prog.tryCatch_of_ok ?_ _⟩
      rw [Prog.bind_of_ok hn]
      rfl
    · refine ⟨none, (Prog.tryCatch_of_error (Prog.bind_of_error he _) _).trans ?_⟩
      simp [htrie]

end Tries

namespace SyncProcess

/-- A call on the trie that only reads. -/
theorem onTrie_of_eq {α : Type} {m : TrieM d α} {p : Peer d} {o : Outcome Exn α}
    (h : m p.set.trie = ⟨o, p.set.trie, []⟩) : onTrie m p = ⟨o, p, []⟩ := by
  have hset : SetState.onTrie m p.set = ⟨o, p.set, []⟩ := by
    rw [SetState.onTrie, Prog.zoom_of_eq h]
  rw [onTrie, onSet, Prog.zoom_of_eq hset]

variable {p : Peer d} {r : Option (Digest d)}

theorem getRootHash_ok (hr : KeyValueTrie.getRoot p.set.trie = ⟨.ok r, p.set.trie, []⟩) :
    getRootHash p = ⟨.ok r, p, []⟩ := onTrie_of_eq hr

/-- The process after it compared the root of the other side with its own. -/
def compared (r : Option (Digest d)) (key : Digest d) (p : Peer d) : Peer d :=
  if r = some key then { p with sync := { p.sync with stat := .EQUAL } } else p

theorem isEqual_ok (hr : KeyValueTrie.getRoot p.set.trie = ⟨.ok r, p.set.trie, []⟩) (key : Digest d) :
    ∃ b, isEqual key p = ⟨.ok b, compared r key p, []⟩ := by
  rw [isEqual, Prog.bind_of_ok (Prog.get_apply p), Run.after_nil]
  by_cases hs : p.sync.stat = .EQUAL
  · have hsame : compared r key p = p := by
      rw [compared, ← hs]
      exact ite_self p
    rw [if_pos hs, hsame]
    exact ⟨true, rfl⟩
  · rw [if_neg hs, Prog.bind_of_ok (onTrie_of_eq hr), Run.after_nil]
    cases r with
    | none => exact ⟨false, rfl⟩
    | some root =>
      by_cases hkey : root = key
      · subst hkey
        refine ⟨true, ?_⟩
        simp only [compared, if_true]
        exact Prog.bind_of_ok (modifySync_apply _ p) _
      · refine ⟨false, ?_⟩
        simp [compared, hkey]

/-! ## Sending -/

/-- The process after it was asked for output. -/
def polled (r : Option (Digest d)) (p : Peer d) : Peer d :=
  if p.sync.stat = .START then
    match r with
    | some root => { p with sync := { p.sync with
        stat := .TRIE, pendingSubtries := root :: p.sync.pendingSubtries } }
    | none => p
  else p

theorem poll_ok (hr : KeyValueTrie.getRoot p.set.trie = ⟨.ok r, p.set.trie, []⟩) :
    isSubtrieOutputAvailable p = ⟨.ok (decide ((polled r p).sync.stat ≠ .START ∧
      0 < (polled r p).sync.pendingSubtries.length)), polled r p, []⟩ := by
  rw [isSubtrieOutputAvailable, Prog.bind_of_ok (Prog.get_apply p), Run.after_nil]
  by_cases hs : p.sync.stat = .START
  · rw [if_pos hs, Prog.bind_of_ok (getRootHash_ok hr), Run.after_nil]
    cases r with
    | none => simp [polled, hs]
    | some root =>
      simp only
      rw [Prog.bind_of_ok (modifySync_apply _ p), Run.after_nil,
        Prog.bind_of_ok (Prog.get_apply _), Run.after_nil]
      simp [polled, hs]
  · rw [if_neg hs]
    simp [polled, hs]

/-- The process after a cut of a pending hash was sent. -/
def sentCut (rest : List (Digest d)) (message : Bytes) (size : Nat) (p : Peer d) : Peer d :=
  { p with sync := { p.sync with
      pendingSubtries := rest
      sentHashes := p.sync.sentHashes ++ entries d message
      sentBytes := p.sync.sentBytes + size } }

/-- The process whose pending hashes could all not be cut. -/
def noCut (p : Peer d) : Peer d := { p with sync := { p.sync with pendingSubtries := [] } }

/-- `KeyValueTrie::getSubTrie` raises an exception. -/
def Uncut (s : TrieState d) (buffersize : Nat) (x : Digest d) : Prop :=
  ∃ e, KeyValueTrie.getSubTrie x buffersize s = ⟨.error e, s, []⟩

theorem not_uncut_of_ok {s : TrieState d} {buffersize : Nat} {x : Digest d} {cut : Bytes × Nat}
    (h : KeyValueTrie.getSubTrie x buffersize s = ⟨.ok cut, s, []⟩) : ¬Uncut s buffersize x := by
  rintro ⟨e, he⟩
  rw [h] at he
  cases he

/-- A cut is sent, of the first pending hash that can be cut; there may be none. -/
theorem getSubTrieOn_spec (buffersize : Nat) (pending : List (Digest d))
    (hp : p.sync.pendingSubtries = pending) (h : p.set.trie.storage.failure = none) :
    ((∀ x ∈ pending, Uncut p.set.trie buffersize x) ∧
      getSubTrieOn buffersize pending p = ⟨.ok [], noCut p, []⟩) ∨
    ∃ dropped top rest buffer size, pending = dropped ++ top :: rest ∧
      (∀ x ∈ dropped, Uncut p.set.trie buffersize x) ∧
      KeyValueTrie.getSubTrie top buffersize p.set.trie
        = ⟨.ok (buffer, size), p.set.trie, []⟩ ∧
      getSubTrieOn buffersize pending p
        = ⟨.ok (buffer.take size), sentCut rest (buffer.take size) size p, []⟩ := by
  induction pending generalizing p with
  | nil =>
    left
    refine ⟨by simp, ?_⟩
    rw [getSubTrieOn, noCut, ← hp]
    rfl
  | cons top rest ih =>
    rcases getSubTrie_reads h top buffersize with ⟨⟨buffer, size⟩, hrun, _⟩ | ⟨e, he⟩
    · -- the top is cut
      right
      refine ⟨[], top, rest, buffer, size, rfl, by simp, hrun, ?_⟩
      have htry : (tryCatch
          (do
            let r ← onTrie (KeyValueTrie.getSubTrie top buffersize)
            pure (some r))
          fun _ => pure none : SyncM d (Option (Bytes × Nat))) p
          = ⟨.ok (some (buffer, size)), p, []⟩ := by
        refine Prog.tryCatch_of_ok ?_ _
        rw [Prog.bind_of_ok (onTrie_of_eq hrun)]
        rfl
      rw [getSubTrieOn, Prog.bind_of_ok htry, Run.after_nil,
        Prog.bind_of_ok (modifySync_apply _ p), Run.after_nil]
      simp only
      rw [Prog.bind_of_ok (modifySync_apply _ _), Run.after_nil]
      rfl
    · -- the top is dropped
      have htry : (tryCatch
          (do
            let r ← onTrie (KeyValueTrie.getSubTrie top buffersize)
            pure (some r))
          fun _ => pure none : SyncM d (Option (Bytes × Nat))) p = ⟨.ok none, p, []⟩ :=
        Prog.tryCatch_of_error (Prog.bind_of_error (onTrie_of_eq he) _) _
      have hstep : getSubTrieOn buffersize (top :: rest) p = getSubTrieOn buffersize rest
          { p with sync := { p.sync with pendingSubtries := rest } } := by
        rw [getSubTrieOn, Prog.bind_of_ok htry, Run.after_nil,
          Prog.bind_of_ok (modifySync_apply _ p), Run.after_nil]
      rw [hstep]
      rcases @ih { p with sync := { p.sync with pendingSubtries := rest } } rfl h with
        ⟨hall, hrun⟩ | ⟨dropped, t, rest', buffer, size, hsplit, hdrop, hcut, hrun⟩
      · left
        refine ⟨fun x hx => ?_, hrun⟩
        rcases List.mem_cons.mp hx with rfl | hx
        · exact ⟨e, he⟩
        · exact hall x hx
      · right
        refine ⟨top :: dropped, t, rest', buffer, size, by rw [hsplit]; rfl, fun x hx => ?_, hcut,
          hrun⟩
        rcases List.mem_cons.mp hx with rfl | hx
        · exact ⟨e, he⟩
        · exact hdrop x hx

/-- **`getSubTrie`** -/
theorem getSubTrie_spec (buffersize : Nat) (h : p.set.trie.storage.failure = none) :
    ((∀ x ∈ p.sync.pendingSubtries, Uncut p.set.trie buffersize x) ∧
      getSubTrie buffersize p = ⟨.ok [], noCut p, []⟩) ∨
    ∃ dropped top rest buffer size, p.sync.pendingSubtries = dropped ++ top :: rest ∧
      (∀ x ∈ dropped, Uncut p.set.trie buffersize x) ∧
      KeyValueTrie.getSubTrie top buffersize p.set.trie
        = ⟨.ok (buffer, size), p.set.trie, []⟩ ∧
      getSubTrie buffersize p
        = ⟨.ok (buffer.take size), sentCut rest (buffer.take size) size p, []⟩ := by
  rw [getSubTrie, Prog.bind_of_ok (Prog.get_apply p), Run.after_nil]
  exact getSubTrieOn_spec buffersize p.sync.pendingSubtries rfl h

/-! ## Answering -/

/-- The process with more answers to send. -/
def withAcks (acks : List Bool) (p : Peer d) : Peer d :=
  { p with sync := { p.sync with pendingAcks := p.sync.pendingAcks ++ acks } }

theorem answerHashes_ok (h : p.set.trie.storage.failure = none) (xs : List (Digest d)) :
    answerHashes xs p = ⟨.ok (), withAcks (xs.map (absent p.set.trie)) p, []⟩ := by
  induction xs generalizing p with
  | nil =>
    rw [List.map_nil, withAcks, List.append_nil]
    rfl
  | cons x xs ih =>
    rw [answerHashes, Prog.bind_of_ok (onTrie_of_eq (contains_record h x)), Run.after_nil,
      Prog.bind_of_ok (modifySync_apply _ p), Run.after_nil]
    have hrest := @ih (withAcks [absent p.set.trie x] p) h
    apply hrest.trans
    simp only [withAcks, List.append_assoc]
    rfl

/-- The process after it answered the hashes of a message. -/
def answeredAll (message : Bytes) (p : Peer d) : Peer d :=
  { p with sync := { p.sync with
      pendingAcks := p.sync.pendingAcks ++ (entries d message).map (absent p.set.trie)
      receivedBytes := p.sync.receivedBytes + message.length } }

/-- **`processSubTrie`** -/
theorem processSubTrie_ok (h : p.set.trie.storage.failure = none) (message : Bytes) :
    processSubTrie message message.length p = ⟨.ok
      (((answeredAll message p).sync.pendingAcks.length + 7) / 8), answeredAll message p, []⟩ := by
  rw [processSubTrie, List.take_length, Prog.bind_of_ok (answerHashes_ok h _), Run.after_nil,
    Prog.bind_of_ok (modifySync_apply _ _), Run.after_nil, Prog.bind_of_ok (Prog.get_apply _)]
  rfl

/-! ## Bits of answers -/

/-- The answers in a message, `number` of them. -/
def ackBits (buffer : Bytes) (number : Nat) : List Bool := (List.range number).map (bitTest buffer)

theorem length_packAcks (buffer : Bytes) (acks : List Bool) :
    (packAcks buffer acks).length = buffer.length := by
  unfold packAcks
  generalize acks.zipIdx = l
  induction l generalizing buffer with
  | nil => rfl
  | cons b l ih =>
    rw [List.foldl_cons, ih]
    split
    · exact length_bitSet _ _
    · rfl

/-- A set bit was there before, or is set for an answer. -/
theorem bitTest_foldl (l : List (Bool × Nat)) (buffer : Bytes) (h : ∀ b ∈ l, b.2 < 8 * buffer.length)
    (i : Nat) : bitTest (l.foldl (fun buffer b => if b.1 then bitSet buffer b.2 else buffer) buffer) i
      = (bitTest buffer i || decide ((true, i) ∈ l)) := by
  induction l generalizing buffer with
  | nil => simp
  | cons b l ih =>
    obtain ⟨v, j⟩ := b
    have hj := h _ List.mem_cons_self
    have hl : ∀ b ∈ l, b.2 < 8 * buffer.length := fun b hb => h b (List.mem_cons_of_mem _ hb)
    rw [List.foldl_cons]
    cases v with
    | false =>
      simp only [Bool.false_eq_true, if_false]
      rw [ih buffer hl]
      simp
    | true =>
      simp only [if_true]
      rw [ih _ (by rw [length_bitSet]; exact hl), bitTest_bitSet _ _ _ hj, Bool.or_assoc]
      congr 1
      rw [Bool.eq_iff_iff, Bool.or_eq_true, beq_iff_eq, decide_eq_true_eq, decide_eq_true_eq,
        List.mem_cons, Prod.mk.injEq, eq_comm (a := i)]
      simp

/-- **The bits of a message are the answers it was made of.** -/
theorem ackBits_packAcks {length : Nat} {acks : List Bool} (h : acks.length ≤ 8 * length) :
    ackBits ((packAcks (List.replicate length 0) acks).take ((acks.length + 7) / 8)) acks.length
      = acks := by
  have hidx : ∀ b ∈ acks.zipIdx, b.2 < 8 * (List.replicate length (0 : UInt8)).length := by
    intro b hb
    have hlt := (List.mem_zipIdx' (x := b.1) (i := b.2) hb).1
    rw [List.length_replicate]
    omega
  apply List.ext_getElem (by rw [ackBits, List.length_map, List.length_range])
  intro i hi hi'
  simp only [ackBits, List.getElem_map, List.getElem_range]
  rw [bitTest_take _ (by omega), packAcks, bitTest_foldl _ _ hidx, bitTest_replicate, Bool.false_or]
  rw [Bool.eq_iff_iff, decide_eq_true_eq, List.mem_zipIdx_iff_getElem?]
  simp [List.getElem?_eq_getElem hi']

/-- The process after it sent its first answers. -/
def tookAcks (number : Nat) (p : Peer d) : Peer d :=
  { p with sync := { p.sync with
      pendingAcks := p.sync.pendingAcks.drop number
      sentBytes := p.sync.sentBytes + (number + 7) / 8 } }

theorem readSomeTrieAcks_none (length : Nat) (h : p.sync.pendingAcks = []) :
    readSomeTrieAcks length p = ⟨.ok none, p, []⟩ := by
  rw [readSomeTrieAcks, Prog.bind_of_ok (Prog.get_apply p), Run.after_nil, h]
  rfl

/-- **`readSomeTrieAcks`**, when there are answers. -/
theorem readSomeTrieAcks_ok (length : Nat) (h : p.sync.pendingAcks ≠ []) :
    ∃ buffer number, number = min (length * 8) p.sync.pendingAcks.length ∧
      ackBits buffer number = p.sync.pendingAcks.take number ∧ buffer.length = (number + 7) / 8 ∧
      readSomeTrieAcks length p = ⟨.ok (some (buffer, number)), tookAcks number p, []⟩ := by
  have hpos : p.sync.pendingAcks.length > 0 := List.length_pos_of_ne_nil h
  generalize hn : min (length * 8) p.sync.pendingAcks.length = number
  have htake : (p.sync.pendingAcks.take number).length = number := by
    rw [List.length_take]
    omega
  refine ⟨(packAcks (List.replicate length 0) (p.sync.pendingAcks.take number)).take ((number + 7) / 8),
    number, rfl, ?_, ?_, ?_⟩
  · have hle : (p.sync.pendingAcks.take number).length ≤ 8 * length := by omega
    have hbits := ackBits_packAcks hle
    rwa [htake] at hbits
  · rw [List.length_take, length_packAcks, List.length_replicate]
    omega
  · rw [readSomeTrieAcks, Prog.bind_of_ok (Prog.get_apply p), Run.after_nil, if_pos hpos]
    simp only [hn]
    rw [Prog.bind_of_ok (modifySync_apply _ p)]
    rfl

/-! ## Acknowledging -/

/-- What an acknowledged hash does to the pending hashes and the handler. -/
def ackStep (s : TrieState d) (root : Option (Digest d)) (w : List (Digest d) × DiffHandler d)
    (b : Digest d × Bool) : List (Digest d) × DiffHandler d :=
  if b.2 then
    match nodeType (s.record b.1) with
    | .LEAF_NODE => (w.1, w.2 ++ [(b.1, true)])
    | .INNER_NODE => (b.1 :: w.1, w.2)
    | .NOT_FOUND => (root.toList, w.2)
  else w

/-- The process with other pending hashes and handler calls. -/
def searching (w : List (Digest d) × DiffHandler d) (p : Peer d) : Peer d :=
  { p with handled := w.2, sync := { p.sync with pendingSubtries := w.1 } }

theorem handleUnknown_ok (h : p.set.trie.storage.failure = none)
    (hr : KeyValueTrie.getRoot p.set.trie = ⟨.ok r, p.set.trie, []⟩) (front : Digest d) :
    handleUnknown front p = ⟨.ok (), searching
      (ackStep p.set.trie r (p.sync.pendingSubtries, p.handled) (front, true)) p, []⟩ := by
  rw [handleUnknown, Prog.bind_of_ok (onTrie_of_eq (contains_record h front)), Run.after_nil]
  cases ht : nodeType (p.set.trie.record front) with
  | LEAF_NODE => simp [ackStep, ht, searching]
  | INNER_NODE => simp [ackStep, ht, searching]
  | NOT_FOUND =>
    simp only
    have hroot : getRootHash { p with sync := { p.sync with pendingSubtries := [] } }
        = ⟨.ok r, { p with sync := { p.sync with pendingSubtries := [] } }, []⟩ := getRootHash_ok hr
    rw [Prog.bind_of_ok (modifySync_apply _ p), Run.after_nil, Prog.bind_of_ok hroot, Run.after_nil]
    cases r with
    | none => simp [ackStep, ht, searching]
    | some root => simp [ackStep, ht, searching]

/-- The process after it acknowledged its first hashes. -/
def acknowledged (bits : List Bool) (r : Option (Digest d)) (p : Peer d) : Peer d :=
  let w := ((p.sync.sentHashes.take bits.length).zip bits).foldl (ackStep p.set.trie r)
    (p.sync.pendingSubtries, p.handled)
  { p with
    handled := w.2
    sync := { p.sync with
      pendingSubtries := w.1
      sentHashes := p.sync.sentHashes.drop bits.length } }

theorem processAckBits_ok (buffer : Bytes) (is : List Nat) (h : p.set.trie.storage.failure = none)
    (hr : KeyValueTrie.getRoot p.set.trie = ⟨.ok r, p.set.trie, []⟩)
    (hlen : is.length ≤ p.sync.sentHashes.length) :
    processAckBits buffer is p = ⟨.ok (), acknowledged (is.map (bitTest buffer)) r p, []⟩ := by
  induction is generalizing p with
  | nil => rfl
  | cons i is ih =>
    cases hsent : p.sync.sentHashes with
    | nil =>
      rw [hsent] at hlen
      cases hlen
    | cons front rest =>
      rw [hsent, List.length_cons, List.length_cons] at hlen
      -- the bit
      have hbit : ((if bitTest buffer i then handleUnknown front else pure () : SyncM d Unit)) p
          = ⟨.ok (), searching (ackStep p.set.trie r (p.sync.pendingSubtries, p.handled)
              (front, bitTest buffer i)) p, []⟩ := by
        cases bitTest buffer i with
        | true => exact handleUnknown_ok h hr front
        | false => rfl
      rw [processAckBits, Prog.bind_of_ok (Prog.get_apply p), Run.after_nil]
      simp only [hsent]
      rw [Prog.bind_of_ok hbit, Run.after_nil, Prog.bind_of_ok (modifySync_apply _ _), Run.after_nil]
      have hrest := @ih { searching (ackStep p.set.trie r (p.sync.pendingSubtries, p.handled)
          (front, bitTest buffer i)) p with sync := { (searching (ackStep p.set.trie r
            (p.sync.pendingSubtries, p.handled) (front, bitTest buffer i)) p).sync with
              sentHashes := rest } } h hr (by simpa using hlen)
      apply hrest.trans
      simp only [acknowledged, searching, List.length_map, List.length_cons, List.map_cons, hsent,
        List.take_succ_cons, List.zip_cons_cons, List.foldl_cons, List.drop_succ_cons]

/-- The process after it counted a received message. -/
def received (bytes : Nat) (p : Peer d) : Peer d :=
  { p with sync := { p.sync with receivedBytes := p.sync.receivedBytes + bytes } }

/-- **`processAcks`** -/
theorem processAcks_ok (buffer : Bytes) (number : Nat) (h : p.set.trie.storage.failure = none)
    (hr : KeyValueTrie.getRoot p.set.trie = ⟨.ok r, p.set.trie, []⟩)
    (hbuf : (number + 7) / 8 ≤ buffer.length) (hlen : number ≤ p.sync.sentHashes.length) :
    processAcks buffer buffer.length number p
      = ⟨.ok (), received ((number + 7) / 8) (acknowledged (ackBits buffer number) r p), []⟩ := by
  have hbits := processAckBits_ok buffer (List.range number) h hr
    (by rw [List.length_range]; exact hlen)
  rw [processAcks, Prog.bind_of_ok (Prog.get_apply p), Run.after_nil, if_neg (by omega),
    if_neg (by omega), Prog.bind_of_ok hbits, Run.after_nil, modifySync_apply]
  rfl

end SyncProcess

end SetSync
