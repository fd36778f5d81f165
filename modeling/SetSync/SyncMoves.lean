import SetSync.SyncRuns

/-!
# Calls that do something

A call of a running synchronization finds something to do or changes nothing (`exec_moves`).  It finds
something just when the root is still to be queued, a queue has an entry, or a message has arrived
(`productive`), and a state is quiet when no call finds anything (`quiet_iff`).
-/

namespace SetSync

open Program BitTrie SyncSystem

variable {d : Nat}

/-- `getRoot` answers with a root. -/
def rooted (s : SetState d) : Bool :=
  match (KeyValueTrie.getRoot s.trie).outcome with
  | .ok (some _) => true
  | _ => false

/-- The call finds something to do. -/
def productive (c : SyncSystem d) : SyncAction d → Bool
  | .poll x => decide ((c.peer x).sync.stat = .START) && rooted (c.peer x).set
  | .getSubTrie x _ => !(c.peer x).sync.pendingSubtries.isEmpty
  | .processSubTrie x => !(c.subtries x.other).isEmpty
  | .readSomeTrieAcks x _ => !(c.peer x).sync.pendingAcks.isEmpty
  | .processAcks x => !(c.acks x.other).isEmpty
  | _ => false

/-- What a productive call leaves. -/
inductive Moved (c : SyncSystem d) : SyncAction d → SyncSystem d → Prop
  | polled {x : Side} {root : Digest d} (start : (c.peer x).sync.stat = .START)
      (found : KeyValueTrie.getRoot (c.peer x).set.trie
        = ⟨.ok (some root), (c.peer x).set.trie, []⟩) :
      Moved c (.poll x) (setPeer x (SyncProcess.polled (some root) (c.peer x)) c)
  | uncut {x : Side} {buffersize : Nat} (some : (c.peer x).sync.pendingSubtries ≠ [])
      (pending : ∀ h ∈ (c.peer x).sync.pendingSubtries,
        SyncProcess.Uncut (c.peer x).set.trie buffersize h) :
      Moved c (.getSubTrie x buffersize)
        (sendSubtrie x [] (setPeer x (SyncProcess.noCut (c.peer x)) c))
  | cut {x : Side} {buffersize : Nat} {dropped rest : List (Digest d)} {top : Digest d}
      {buffer : Bytes} {size : Nat}
      (pending : (c.peer x).sync.pendingSubtries = dropped ++ top :: rest)
      (lost : ∀ h ∈ dropped, SyncProcess.Uncut (c.peer x).set.trie buffersize h)
      (found : KeyValueTrie.getSubTrie top buffersize (c.peer x).set.trie
        = ⟨.ok (buffer, size), (c.peer x).set.trie, []⟩) :
      Moved c (.getSubTrie x buffersize) (sendSubtrie x (buffer.take size)
        (setPeer x (SyncProcess.sentCut rest (buffer.take size) size (c.peer x)) c))
  | answered {x : Side} {message : Bytes} {rest : List Bytes}
      (channel : c.subtries x.other = message :: rest) :
      Moved c (.processSubTrie x) (answerSubtrie x message rest (c.peer x).set.trie
        (setPeer x (SyncProcess.answeredAll message (c.peer x)) c))
  | replied {x : Side} {length : Nat} {buffer : Bytes} {number : Nat} (pos : 1 ≤ number)
      (bits : SyncProcess.ackBits buffer number = (c.peer x).sync.pendingAcks.take number)
      (size : buffer.length = (number + 7) / 8) :
      Moved c (.readSomeTrieAcks x length)
        (sendAcks x (buffer, number) (setPeer x (SyncProcess.tookAcks number (c.peer x)) c))
  | acked {x : Side} {buffer : Bytes} {number : Nat} {rest : List (Bytes × Nat)}
      {r : Option (Digest d)} (channel : c.acks x.other = (buffer, number) :: rest)
      (root : KeyValueTrie.getRoot (c.peer x).set.trie = ⟨.ok r, (c.peer x).set.trie, []⟩) :
      Moved c (.processAcks x) (acknowledge x rest (c.peer x).sync.sentHashes
        (SyncProcess.ackBits buffer number) (setPeer x (SyncProcess.received ((number + 7) / 8)
          (SyncProcess.acknowledged (SyncProcess.ackBits buffer number) r (c.peer x))) c))

section Moves

variable {hash : CryptoHash d} {fresh : Digest d} {fuel : Nat} {c c' : SyncSystem d} {a : SyncAction d}

theorem Moved.stepped (h : Moved c a c') : Stepped c a c' := by
  cases h with
  | polled start found => exact .polled found
  | uncut some pending => exact .uncut pending
  | cut pending lost found => exact .cut pending lost found
  | answered channel => exact .answered channel
  | replied pos bits size => exact .replied bits size
  | acked channel root => exact .acked channel root

theorem setPeer_self (x : Side) : setPeer x (c.peer x) c = c := by
  unfold setPeer
  rw [Function.update_eq_self]

theorem sendSubtrie_nil (x : Side) : sendSubtrie x [] c = c := by
  unfold sendSubtrie
  rw [if_pos rfl, entries_nil, List.append_nil, Function.update_eq_self]
  exact congrArg (fun log => { c with log := log }) (Function.update_eq_self x c.log)

theorem rooted_of_eq {s : SetState d} {r : Option (Digest d)}
    (hr : KeyValueTrie.getRoot s.trie = ⟨.ok r, s.trie, []⟩) : rooted s = r.isSome := by
  unfold rooted
  rw [hr]
  cases r <;> rfl

variable (hash) (fresh) (fuel) in
/-- **A call.** -/
theorem exec_moves (h : Synced c) (a : SyncAction d) (ha : a.IsCall) :
    (productive c a = false ∧ a.exec hash fresh fuel c = ⟨.ok (), c, []⟩) ∨
    (productive c a = true ∧ ∃ c', a.exec hash fresh fuel c = ⟨.ok (), c', []⟩ ∧ Moved c a c') := by
  cases a with
  | insert x key => exact absurd ha id
  | change x set => exact absurd ha id
  | isEqual x key => exact absurd ha id
  | poll x =>
    obtain ⟨r, hr⟩ := getRoot_total (h.works x)
    have hexec : (SyncAction.poll x).exec hash fresh fuel c
        = ⟨.ok (), setPeer x (SyncProcess.polled r (c.peer x)) c, []⟩ := by
      rw [SyncAction.exec, Prog.bind_of_ok (onPeer_of_eq (SyncProcess.poll_ok hr))]
      rfl
    have hprod : productive c (.poll x) = (decide ((c.peer x).sync.stat = .START) && r.isSome) := by
      rw [productive, rooted_of_eq hr]
    by_cases hs : (c.peer x).sync.stat = .START
    · cases r with
      | none =>
        left
        have hsame : SyncProcess.polled none (c.peer x) = c.peer x := by
          unfold SyncProcess.polled
          rw [if_pos hs]
        rw [hexec, hprod, hsame, setPeer_self]
        exact ⟨Bool.and_false _, rfl⟩
      | some root =>
        right
        refine ⟨?_, _, hexec, .polled hs hr⟩
        rw [hprod, decide_eq_true hs]
        rfl
    · left
      have hsame : SyncProcess.polled r (c.peer x) = c.peer x := by
        unfold SyncProcess.polled
        rw [if_neg hs]
      rw [hexec, hprod, hsame, setPeer_self, decide_eq_false hs]
      exact ⟨rfl, rfl⟩
  | getSubTrie x buffersize =>
    rcases SyncProcess.getSubTrie_spec buffersize (h.works x) with
      ⟨hall, hrun⟩ | ⟨dropped, top, rest, buffer, size, hsplit, hlost, hcut, hrun⟩
    · have hexec : (SyncAction.getSubTrie x buffersize).exec hash fresh fuel c
          = ⟨.ok (), sendSubtrie x [] (setPeer x (SyncProcess.noCut (c.peer x)) c), []⟩ := by
        rw [SyncAction.exec, Prog.bind_of_ok (onPeer_of_eq hrun)]
        rfl
      by_cases hnil : (c.peer x).sync.pendingSubtries = []
      · left
        have hsame : SyncProcess.noCut (c.peer x) = c.peer x := by
          rw [SyncProcess.noCut, ← hnil]
        rw [hexec, hsame, setPeer_self, sendSubtrie_nil, productive, hnil]
        exact ⟨rfl, rfl⟩
      · right
        refine ⟨?_, _, hexec, .uncut hnil hall⟩
        simpa [productive] using hnil
    · right
      refine ⟨by simp [productive, hsplit], _, ?_, .cut hsplit hlost hcut⟩
      rw [SyncAction.exec, Prog.bind_of_ok (onPeer_of_eq hrun)]
      rfl
  | processSubTrie x =>
    cases hsub : c.subtries x.other with
    | nil =>
      left
      refine ⟨by simp [productive, hsub], ?_⟩
      rw [SyncAction.exec, Prog.bind_of_ok (Prog.get_apply c)]
      simp only [hsub]
      rfl
    | cons message rest =>
      right
      refine ⟨by simp [productive, hsub], _, ?_, .answered hsub⟩
      rw [SyncAction.exec, Prog.bind_of_ok (Prog.get_apply c)]
      simp only [hsub]
      rw [Prog.bind_of_ok (onPeer_of_eq (SyncProcess.processSubTrie_ok (h.works x) message))]
      rfl
  | readSomeTrieAcks x length =>
    by_cases hacks : (c.peer x).sync.pendingAcks = []
    · left
      refine ⟨by simp [productive, hacks], ?_⟩
      rw [SyncAction.exec,
        Prog.bind_of_ok (onPeer_of_eq (SyncProcess.readSomeTrieAcks_none length hacks)), setPeer_self]
      rfl
    · right
      obtain ⟨buffer, number, hnumber, hbits, hsize, hrun⟩ :=
        SyncProcess.readSomeTrieAcks_ok length hacks
      have hpos : 1 ≤ number := by
        have hsome : 0 < (c.peer x).sync.pendingAcks.length := List.length_pos_of_ne_nil hacks
        have hroom : 1 ≤ length := ha
        omega
      refine ⟨by simpa [productive] using hacks, _, ?_, .replied hpos hbits hsize⟩
      rw [SyncAction.exec, Prog.bind_of_ok (onPeer_of_eq hrun)]
      rfl
  | processAcks x =>
    cases hacks : c.acks x.other with
    | nil =>
      left
      refine ⟨by simp [productive, hacks], ?_⟩
      rw [SyncAction.exec, Prog.bind_of_ok (Prog.get_apply c)]
      simp only [hacks]
      rfl
    | cons m rest =>
      obtain ⟨buffer, number⟩ := m
      obtain ⟨r, hr⟩ := getRoot_total (h.works x)
      have hwhole := h.whole x.other (buffer, number) (by rw [hacks]; exact List.mem_cons_self)
      have hrun := SyncProcess.processAcks_ok buffer number (h.works x) hr hwhole (h.number_le hacks)
      right
      refine ⟨by simp [productive, hacks], _, ?_, .acked hacks hr⟩
      rw [SyncAction.exec, Prog.bind_of_ok (Prog.get_apply c)]
      simp only [hacks]
      rw [Prog.bind_of_ok (onPeer_of_eq hrun)]
      rfl

/-! ## Quiet states -/

/-- A hash that waits for its answer is in a channel or in the queue of answers. -/
theorem Synced.sent_eq_nil (h : Synced c) {x : Side} (hsub : c.subtries x = [])
    (hacks : c.acks x.other = []) (hqueue : (c.peer x.other).sync.pendingAcks = []) :
    (c.peer x).sync.sentHashes = [] := by
  have hlen := (h.aligned x).length_waiting
  simp only [pipeline, hsub, hacks, hqueue, List.flatMap_nil, List.length_nil] at hlen
  exact List.length_eq_zero_iff.mp hlen

/-- **A state is quiet when no call finds anything to do.**  Nothing is pending before the search. -/
theorem quiet_iff (hd : 0 < d) (h : Synced c)
    (hstart : ∀ x, (c.peer x).sync.stat = .START → (c.peer x).sync.pendingSubtries = []) :
    Quiet c ↔ ∀ a : SyncAction d, a.IsCall → productive c a = false := by
  constructor
  · intro hq a ha
    cases a with
    | insert x key => exact absurd ha id
    | change x set => exact absurd ha id
    | isEqual x key => exact absurd ha id
    | poll x =>
      obtain ⟨r, hr⟩ := getRoot_total (h.works x)
      by_cases hs : (c.peer x).sync.stat = .START
      · have hnone := hq.no_root h x hs
        rw [productive, rooted_of_eq hr]
        cases r with
        | none => exact Bool.and_false _
        | some root => exact absurd (by simp [HasRoot, hr]) hnone
      · rw [productive, decide_eq_false hs]
        rfl
    | getSubTrie x buffersize =>
      by_cases hs : (c.peer x).sync.stat = .START
      · simp [productive, hstart x hs]
      · simp [productive, hq.pending h x hs]
    | processSubTrie x => simp [productive, (hq x.other).2.2.2.1]
    | readSomeTrieAcks x length =>
      have hnone : ¬(c.peer x).sync.pendingAcks.length > 0 := of_decide_eq_false (hq x).2.1
      have hnil : (c.peer x).sync.pendingAcks = [] := List.length_eq_zero_iff.mp (by omega)
      simp [productive, hnil]
    | processAcks x => simp [productive, (hq x.other).2.2.2.2]
  · intro hnone x
    have hsub : ∀ y, c.subtries y = [] := fun y => by
      simpa [productive] using hnone (.processSubTrie y.other) trivial
    have hacks : ∀ y, c.acks y = [] := fun y => by
      simpa [productive] using hnone (.processAcks y.other) trivial
    have hqueue : ∀ y, (c.peer y).sync.pendingAcks = [] := fun y => by
      simpa [productive] using hnone (.readSomeTrieAcks y 1) (Nat.le_refl 1)
    refine ⟨?_, ?_, ?_, hsub x, hacks x⟩
    · -- neither a root to be queued nor a pending hash
      obtain ⟨r, hr⟩ := getRoot_total (h.works x)
      have hpoll := hnone (.poll x) trivial
      rw [productive, rooted_of_eq hr] at hpoll
      have hroom : 2 ≤ 2 * d / d := by rw [Nat.mul_div_cancel _ hd]
      have hpending : (c.peer x).sync.pendingSubtries = [] := by
        simpa [productive] using hnone (.getSubTrie x (2 * d)) hroom
      rw [SyncProcess.poll_ok hr]
      by_cases hs : (c.peer x).sync.stat = .START
      · obtain rfl : r = none := by simpa [hs] using hpoll
        simp [SyncProcess.polled, hs]
      · simp [SyncProcess.polled, hs, hpending]
    · unfold SyncProcess.isAckOutputAvailable
      rw [hqueue x]
      rfl
    · unfold SyncProcess.isSubtrieUnacked
      rw [h.sent_eq_nil (hsub x) (hacks x.other) (hqueue x.other)]
      rfl

end Moves

end SetSync
