import SetSync.Lib.Pipeline
import SetSync.SyncSteps

/-!
# Two processes and their channels

The system of a strict synchronization: two peers, and for each of them the subtries and the answers
it has sent that are not delivered yet.  Messages are delivered whole and in order.  An action is one
call, or the delivery of one message to the call that processes it; a run is any list of actions.
`SyncLog` is history that no call reads.

    exec_ok                 what an action does to the system, case by case                    (Stepped)
    acks_never_slip         each acknowledged bit answers its hash, whatever happens to the sets
-/

namespace SetSync

open Program BitTrie

variable {d : Nat}

inductive Side where
  | A | B
deriving DecidableEq

namespace Side

def other : Side → Side
  | A => B
  | B => A

/-- One value for each side. -/
def pick {α : Type} (a b : α) : Side → α
  | A => a
  | B => b

@[simp] theorem other_other (x : Side) : x.other.other = x := by cases x <;> rfl

@[simp] theorem other_ne (x : Side) : x.other ≠ x := by cases x <;> decide

@[simp] theorem ne_other (x : Side) : x ≠ x.other := by cases x <;> decide

theorem eq_or_other (x y : Side) : y = x ∨ y = x.other := by cases x <;> cases y <;> decide

end Side

/-- The hashes a side has sent, those that were answered and the answers, and those that it took as
acknowledged with the bits it read. -/
structure SyncLog (d : Nat) where
  sent : List (Digest d)
  answered : List (Digest d × Bool)
  acked : List (Digest d × Bool)

structure SyncSystem (d : Nat) where
  peer : Side → Peer d
  subtries : Side → List Bytes
  acks : Side → List (Bytes × Nat)
  log : Side → SyncLog d

abbrev SystemM (d : Nat) (α : Type) : Type := Prog (SyncSystem d) (Digest d × Digest d) Exn α

inductive SyncAction (d : Nat) where
  | poll (x : Side)
  | getSubTrie (x : Side) (buffersize : Nat)
  | processSubTrie (x : Side)
  | readSomeTrieAcks (x : Side) (length : Nat)
  | processAcks (x : Side)
  | isEqual (x : Side) (hash : Digest d)
  /-- `Set::insert` of a key, when the other side has reported it. -/
  | insert (x : Side) (key : Digest d)
  /-- The set after any insertions and erasures. -/
  | change (x : Side) (set : SetState d)

namespace SyncSystem

/-- Two new processes. -/
def start (A B : SetState d) : SyncSystem d where
  peer
    | .A => Peer.fresh A
    | .B => Peer.fresh B
  subtries _ := []
  acks _ := []
  log _ := ⟨[], [], []⟩

def setPeer (x : Side) (p : Peer d) (c : SyncSystem d) : SyncSystem d :=
  { c with peer := Function.update c.peer x p }

/-- A subtrie enters the channel, unless the call wrote nothing. -/
def sendSubtrie (x : Side) (message : Bytes) (c : SyncSystem d) : SyncSystem d :=
  { c with
    subtries := Function.update c.subtries x
      (if message = [] then c.subtries x else c.subtries x ++ [message])
    log := Function.update c.log x
      { c.log x with sent := (c.log x).sent ++ entries d message } }

/-- The answer to a hash, as `contains` gives it. -/
def unknown (s : TrieState d) (h : Digest d) : Bool :=
  decide ((KeyValueTrie.contains h s).outcome = .ok .NOT_FOUND)

/-- The side `x` has answered the first subtrie of the other side. -/
def answerSubtrie (x : Side) (message : Bytes) (rest : List Bytes) (s : TrieState d)
    (c : SyncSystem d) : SyncSystem d :=
  { c with
    subtries := Function.update c.subtries x.other rest
    log := Function.update c.log x.other { c.log x.other with
      answered := (c.log x.other).answered ++ (entries d message).map fun h => (h, unknown s h) } }

def sendAcks (x : Side) (message : Bytes × Nat) (c : SyncSystem d) : SyncSystem d :=
  { c with acks := Function.update c.acks x (c.acks x ++ [message]) }

/-- The side `x` has acknowledged the hashes `sentHashes` by the bits. -/
def acknowledge (x : Side) (rest : List (Bytes × Nat)) (sentHashes : List (Digest d)) (bits : List Bool)
    (c : SyncSystem d) : SyncSystem d :=
  { c with
    acks := Function.update c.acks x.other rest
    log := Function.update c.log x { c.log x with
      acked := (c.log x).acked ++ (sentHashes.take bits.length).zip bits } }

/-- A call on one peer. -/
def onPeer {α : Type} (x : Side) (m : SyncM d α) : SystemM d α :=
  Prog.zoom (fun c => c.peer x) (setPeer x) m

end SyncSystem

open SyncSystem

namespace SyncAction

variable (hash : CryptoHash d) (fresh : Digest d) (fuel : Nat)

/-- An action whose message is not there does nothing.  An insertion that throws is caught. -/
def exec : SyncAction d → SystemM d Unit
  | poll x => do
    let _ ← onPeer x SyncProcess.isSubtrieOutputAvailable
    pure ()
  | getSubTrie x buffersize => do
    let message ← onPeer x (SyncProcess.getSubTrie buffersize)
    Prog.modify (sendSubtrie x message)
  | processSubTrie x => do
    let c ← Prog.get
    match c.subtries x.other with
    | [] => pure ()
    | message :: rest => do
      let _ ← onPeer x (SyncProcess.processSubTrie message message.length)
      Prog.modify (answerSubtrie x message rest (c.peer x).set.trie)
  | readSomeTrieAcks x length => do
    match ← onPeer x (SyncProcess.readSomeTrieAcks length) with
    | none => pure ()
    | some message => Prog.modify (sendAcks x message)
  | processAcks x => do
    let c ← Prog.get
    match c.acks x.other with
    | [] => pure ()
    | (buffer, number) :: rest => do
      onPeer x (SyncProcess.processAcks buffer buffer.length number)
      Prog.modify (acknowledge x rest (c.peer x).sync.sentHashes (SyncProcess.ackBits buffer number))
  | isEqual x h => do
    let _ ← onPeer x (SyncProcess.isEqual h)
    pure ()
  | insert x key => do
    let c ← Prog.get
    if (key, true) ∈ (c.peer x.other).handled then do
      let _ ← tryCatch (onPeer x (SyncProcess.onSet (SetState.insert hash fresh fuel key)))
        fun _ => pure false
      pure ()
    else pure ()
  | change x set => Prog.modify fun c => setPeer x { c.peer x with set := set } c

/-- The actions one after the other. -/
def run (actions : List (SyncAction d)) : SystemM d (List Unit) :=
  Prog.each (exec hash fresh fuel) actions

/-- The calls of the synchronization itself: subtries of at least two hashes, answers of at least one
byte. -/
def IsCall : SyncAction d → Prop
  | poll _ | processSubTrie _ | processAcks _ => True
  | getSubTrie _ buffersize => 2 ≤ buffersize / d
  | readSomeTrieAcks _ length => 1 ≤ length
  | _ => False

end SyncAction

/-! ## What an action does -/

/-- What the calls leave of the system, case by case. -/
inductive Stepped (c : SyncSystem d) : SyncAction d → SyncSystem d → Prop
  | idle {a : SyncAction d} : Stepped c a c
  | polled {x : Side} {r : Option (Digest d)}
      (root : KeyValueTrie.getRoot (c.peer x).set.trie = ⟨.ok r, (c.peer x).set.trie, []⟩) :
      Stepped c (.poll x) (setPeer x (SyncProcess.polled r (c.peer x)) c)
  | uncut {x : Side} {buffersize : Nat}
      (pending : ∀ h ∈ (c.peer x).sync.pendingSubtries,
        SyncProcess.Uncut (c.peer x).set.trie buffersize h) :
      Stepped c (.getSubTrie x buffersize)
        (sendSubtrie x [] (setPeer x (SyncProcess.noCut (c.peer x)) c))
  | cut {x : Side} {buffersize : Nat} {dropped rest : List (Digest d)} {top : Digest d}
      {buffer : Bytes} {size : Nat}
      (pending : (c.peer x).sync.pendingSubtries = dropped ++ top :: rest)
      (lost : ∀ h ∈ dropped, SyncProcess.Uncut (c.peer x).set.trie buffersize h)
      (found : KeyValueTrie.getSubTrie top buffersize (c.peer x).set.trie
        = ⟨.ok (buffer, size), (c.peer x).set.trie, []⟩) :
      Stepped c (.getSubTrie x buffersize) (sendSubtrie x (buffer.take size)
        (setPeer x (SyncProcess.sentCut rest (buffer.take size) size (c.peer x)) c))
  | answered {x : Side} {message : Bytes} {rest : List Bytes}
      (channel : c.subtries x.other = message :: rest) :
      Stepped c (.processSubTrie x) (answerSubtrie x message rest (c.peer x).set.trie
        (setPeer x (SyncProcess.answeredAll message (c.peer x)) c))
  | replied {x : Side} {length : Nat} {buffer : Bytes} {number : Nat}
      (bits : SyncProcess.ackBits buffer number = (c.peer x).sync.pendingAcks.take number)
      (size : buffer.length = (number + 7) / 8) :
      Stepped c (.readSomeTrieAcks x length)
        (sendAcks x (buffer, number) (setPeer x (SyncProcess.tookAcks number (c.peer x)) c))
  | acked {x : Side} {buffer : Bytes} {number : Nat} {rest : List (Bytes × Nat)}
      {r : Option (Digest d)} (channel : c.acks x.other = (buffer, number) :: rest)
      (root : KeyValueTrie.getRoot (c.peer x).set.trie = ⟨.ok r, (c.peer x).set.trie, []⟩) :
      Stepped c (.processAcks x) (acknowledge x rest (c.peer x).sync.sentHashes
        (SyncProcess.ackBits buffer number) (setPeer x (SyncProcess.received ((number + 7) / 8)
          (SyncProcess.acknowledged (SyncProcess.ackBits buffer number) r (c.peer x))) c))
  | compared {x : Side} {h : Digest d} {r : Option (Digest d)}
      (root : KeyValueTrie.getRoot (c.peer x).set.trie = ⟨.ok r, (c.peer x).set.trie, []⟩) :
      Stepped c (.isEqual x h) (setPeer x (SyncProcess.compared r h (c.peer x)) c)
  | changed {x : Side} {set : SetState d} :
      Stepped c (.change x set) (setPeer x { c.peer x with set := set } c)

/-- The hashes of one side on their way to the other side and back. -/
def SyncSystem.pipeline (x : Side) (c : SyncSystem d) : Pipeline (Digest d) Bool where
  waiting := (c.peer x).sync.sentHashes
  requests := (c.subtries x).flatMap (entries d)
  queued := (c.peer x.other).sync.pendingAcks
  answers := (c.acks x.other).flatMap fun m => SyncProcess.ackBits m.1 m.2
  sent := (c.log x).sent
  answered := (c.log x).answered
  acked := (c.log x).acked

/-- Storages work, answers and hashes are aligned, and every message has the bytes for its bits. -/
structure Synced (c : SyncSystem d) : Prop where
  works : ∀ x, (c.peer x).set.trie.storage.failure = none
  aligned : ∀ x, (c.pipeline x).Aligned
  whole : ∀ x, ∀ m ∈ c.acks x, (m.2 + 7) / 8 ≤ m.1.length

section Exec

variable {hash : CryptoHash d} {fresh : Digest d} {fuel : Nat} {c : SyncSystem d}

theorem onPeer_of_eq {α : Type} {x : Side} {m : SyncM d α} {o : Outcome Exn α} {p : Peer d}
    {l : List (Digest d × Digest d)} (h : m (c.peer x) = ⟨o, p, l⟩) :
    onPeer x m c = ⟨o, setPeer x p c, l⟩ := Prog.zoom_of_eq h

/-- What holds of every peer holds after one of them is replaced by another it holds of. -/
theorem forall_setPeer {P : Side → Peer d → Prop} (hc : ∀ y, P y (c.peer y)) {x : Side} {p : Peer d}
    (hp : P x p) (y : Side) : P y ((setPeer x p c).peer y) := by
  rcases Side.eq_or_other x y with rfl | rfl
  · simpa [setPeer] using hp
  · simpa [setPeer] using hc x.other

/-- The bits of the first message in flight, and of the others. -/
theorem answers_of_channel {x : Side} {buffer : Bytes} {number : Nat} {rest : List (Bytes × Nat)}
    (hacks : c.acks x.other = (buffer, number) :: rest) :
    (c.pipeline x).answers = SyncProcess.ackBits buffer number
      ++ rest.flatMap fun m => SyncProcess.ackBits m.1 m.2 := by
  unfold SyncSystem.pipeline
  rw [hacks, List.flatMap_cons]

/-- The bits of a message in flight answer hashes that wait. -/
theorem Synced.number_le (h : Synced c) {x : Side} {buffer : Bytes} {number : Nat}
    {rest : List (Bytes × Nat)} (hacks : c.acks x.other = (buffer, number) :: rest) :
    number ≤ (c.peer x).sync.sentHashes.length := by
  have hle := (h.aligned x).length_le (answers_of_channel hacks)
  rwa [SyncProcess.ackBits, List.length_map, List.length_range] at hle

/-- Which actions call the synchronization, or replace a set by one that works. -/
def SyncAction.Works : SyncAction d → Prop
  | .insert _ _ => False
  | .change _ set => set.trie.storage.failure = none
  | _ => True

variable (hash) (fresh) (fuel) in
/-- **An action.** -/
theorem exec_ok (h : Synced c) (a : SyncAction d) (ha : a.Works) :
    ∃ c', a.exec hash fresh fuel c = ⟨.ok (), c', []⟩ ∧ Stepped c a c' := by
  cases a with
  | poll x =>
    obtain ⟨r, hr⟩ := getRoot_total (h.works x)
    refine ⟨_, ?_, .polled hr⟩
    rw [SyncAction.exec, Prog.bind_of_ok (onPeer_of_eq (SyncProcess.poll_ok hr))]
    rfl
  | getSubTrie x buffersize =>
    rcases SyncProcess.getSubTrie_spec buffersize (h.works x) with
      ⟨hall, hrun⟩ | ⟨dropped, top, rest, buffer, size, hsplit, hlost, hcut, hrun⟩
    · refine ⟨_, ?_, .uncut hall⟩
      rw [SyncAction.exec, Prog.bind_of_ok (onPeer_of_eq hrun)]
      rfl
    · refine ⟨_, ?_, .cut hsplit hlost hcut⟩
      rw [SyncAction.exec, Prog.bind_of_ok (onPeer_of_eq hrun)]
      rfl
  | processSubTrie x =>
    cases hsub : c.subtries x.other with
    | nil =>
      refine ⟨c, ?_, .idle⟩
      rw [SyncAction.exec, Prog.bind_of_ok (Prog.get_apply c)]
      simp only [hsub]
      rfl
    | cons message rest =>
      refine ⟨_, ?_, .answered hsub⟩
      rw [SyncAction.exec, Prog.bind_of_ok (Prog.get_apply c)]
      simp only [hsub]
      rw [Prog.bind_of_ok (onPeer_of_eq (SyncProcess.processSubTrie_ok (h.works x) message))]
      rfl
  | readSomeTrieAcks x length =>
    by_cases hacks : (c.peer x).sync.pendingAcks = []
    · refine ⟨c, ?_, .idle⟩
      have hnone : onPeer x (SyncProcess.readSomeTrieAcks length) c
          = ⟨.ok none, setPeer x (c.peer x) c, []⟩ :=
        onPeer_of_eq (SyncProcess.readSomeTrieAcks_none length hacks)
      rw [SyncAction.exec, Prog.bind_of_ok hnone]
      simp only [setPeer, Function.update_eq_self]
      rfl
    · obtain ⟨buffer, number, _, hbits, hsize, hrun⟩ := SyncProcess.readSomeTrieAcks_ok length hacks
      refine ⟨_, ?_, .replied hbits hsize⟩
      rw [SyncAction.exec, Prog.bind_of_ok (onPeer_of_eq hrun)]
      rfl
  | processAcks x =>
    cases hacks : c.acks x.other with
    | nil =>
      refine ⟨c, ?_, .idle⟩
      rw [SyncAction.exec, Prog.bind_of_ok (Prog.get_apply c)]
      simp only [hacks]
      rfl
    | cons m rest =>
      obtain ⟨buffer, number⟩ := m
      obtain ⟨r, hr⟩ := getRoot_total (h.works x)
      have hwhole := h.whole x.other (buffer, number) (by rw [hacks]; exact List.mem_cons_self)
      have hrun := SyncProcess.processAcks_ok buffer number (h.works x) hr hwhole (h.number_le hacks)
      refine ⟨_, ?_, .acked hacks hr⟩
      rw [SyncAction.exec, Prog.bind_of_ok (Prog.get_apply c)]
      simp only [hacks]
      rw [Prog.bind_of_ok (onPeer_of_eq hrun)]
      rfl
  | isEqual x key =>
    obtain ⟨r, hr⟩ := getRoot_total (h.works x)
    obtain ⟨b, hrun⟩ := SyncProcess.isEqual_ok hr key
    refine ⟨_, ?_, .compared hr⟩
    rw [SyncAction.exec, Prog.bind_of_ok (onPeer_of_eq hrun)]
    rfl
  | insert x key => exact absurd ha (by simp [SyncAction.Works])
  | change x set => exact ⟨_, rfl, .changed⟩

/-! ## Alignment -/

theorem pipeline_setPeer {x : Side} {p : Peer d} (hsent : p.sync.sentHashes = (c.peer x).sync.sentHashes)
    (hacks : p.sync.pendingAcks = (c.peer x).sync.pendingAcks) (y : Side) :
    (setPeer x p c).pipeline y = c.pipeline y := by
  rcases Side.eq_or_other x y with rfl | rfl
  · simp [pipeline, setPeer, hsent]
  · simp [pipeline, setPeer, hacks]

theorem polled_sync (r : Option (Digest d)) (p : Peer d) :
    (SyncProcess.polled r p).sync.sentHashes = p.sync.sentHashes ∧
      (SyncProcess.polled r p).sync.pendingAcks = p.sync.pendingAcks ∧
      (SyncProcess.polled r p).set = p.set ∧ (SyncProcess.polled r p).handled = p.handled := by
  unfold SyncProcess.polled
  split
  · cases r <;> exact ⟨rfl, rfl, rfl, rfl⟩
  · exact ⟨rfl, rfl, rfl, rfl⟩

theorem compared_sync (r : Option (Digest d)) (key : Digest d) (p : Peer d) :
    (SyncProcess.compared r key p).sync.sentHashes = p.sync.sentHashes ∧
      (SyncProcess.compared r key p).sync.pendingAcks = p.sync.pendingAcks ∧
      (SyncProcess.compared r key p).set = p.set ∧ (SyncProcess.compared r key p).handled = p.handled := by
  unfold SyncProcess.compared
  split <;> exact ⟨rfl, rfl, rfl, rfl⟩

theorem entries_nil : entries d [] = [] := by
  simp [entries]

/-- A subtrie is sent. -/
theorem pipeline_sendSubtrie {x : Side} {message : Bytes} {p : Peer d}
    (hsent : p.sync.sentHashes = (c.peer x).sync.sentHashes ++ entries d message)
    (hacks : p.sync.pendingAcks = (c.peer x).sync.pendingAcks) (y : Side) :
    (sendSubtrie x message (setPeer x p c)).pipeline y = if y = x then { c.pipeline x with
      waiting := (c.pipeline x).waiting ++ entries d message
      requests := (c.pipeline x).requests ++ entries d message
      sent := (c.pipeline x).sent ++ entries d message } else c.pipeline y := by
  rcases Side.eq_or_other x y with rfl | rfl
  · rw [if_pos rfl]
    by_cases hm : message = []
    · subst hm
      simp [pipeline, sendSubtrie, setPeer, hsent, entries_nil]
    · simp [pipeline, sendSubtrie, setPeer, hsent, hm]
  · rw [if_neg (Side.other_ne x)]
    simp [pipeline, sendSubtrie, setPeer, hacks]

/-- The hashes of the first subtrie are answered by the other side. -/
theorem pipeline_answerSubtrie {x : Side} {message : Bytes} {rest : List Bytes} {p : Peer d}
    (hsent : p.sync.sentHashes = (c.peer x).sync.sentHashes)
    (hacks : p.sync.pendingAcks = (c.peer x).sync.pendingAcks
      ++ (entries d message).map (unknown (c.peer x).set.trie)) (y : Side) :
    (answerSubtrie x message rest (c.peer x).set.trie (setPeer x p c)).pipeline y
      = if y = x.other then { c.pipeline x.other with
        requests := rest.flatMap (entries d)
        queued := (c.pipeline x.other).queued
          ++ ((entries d message).map fun h => (h, unknown (c.peer x).set.trie h)).map Prod.snd
        answered := (c.pipeline x.other).answered
          ++ (entries d message).map fun h => (h, unknown (c.peer x).set.trie h) } else c.pipeline y := by
  rcases Side.eq_or_other x y with rfl | rfl
  · rw [if_neg (Side.ne_other y)]
    simp [pipeline, answerSubtrie, setPeer, hsent]
  · rw [if_pos rfl]
    simp [pipeline, answerSubtrie, setPeer, hacks, Function.comp_def]

/-- Answers are sent. -/
theorem pipeline_sendAcks {x : Side} {message : Bytes × Nat} {number : Nat} {p : Peer d}
    (hsent : p.sync.sentHashes = (c.peer x).sync.sentHashes)
    (hacks : p.sync.pendingAcks = (c.peer x).sync.pendingAcks.drop number) (y : Side) :
    (sendAcks x message (setPeer x p c)).pipeline y = if y = x.other then { c.pipeline x.other with
        queued := (c.pipeline x.other).queued.drop number
        answers := (c.pipeline x.other).answers ++ SyncProcess.ackBits message.1 message.2 }
      else c.pipeline y := by
  rcases Side.eq_or_other x y with rfl | rfl
  · rw [if_neg (Side.ne_other y)]
    simp [pipeline, sendAcks, setPeer, hsent]
  · rw [if_pos rfl]
    simp [pipeline, sendAcks, setPeer, hacks]

/-- The answers of the first message are taken. -/
theorem pipeline_acknowledge {x : Side} {bits : List Bool} {rest : List (Bytes × Nat)} {p : Peer d}
    (hsent : p.sync.sentHashes = (c.peer x).sync.sentHashes.drop bits.length)
    (hacks : p.sync.pendingAcks = (c.peer x).sync.pendingAcks) (y : Side) :
    (acknowledge x rest (c.peer x).sync.sentHashes bits (setPeer x p c)).pipeline y
      = if y = x then { c.pipeline x with
        waiting := (c.pipeline x).waiting.drop bits.length
        answers := rest.flatMap fun m => SyncProcess.ackBits m.1 m.2
        acked := (c.pipeline x).acked ++ ((c.pipeline x).waiting.take bits.length).zip bits }
      else c.pipeline y := by
  rcases Side.eq_or_other x y with rfl | rfl
  · rw [if_pos rfl]
    simp [pipeline, acknowledge, setPeer, hsent]
  · rw [if_neg (Side.other_ne x)]
    simp [pipeline, acknowledge, setPeer, hacks]

theorem unknown_eq_absent {s : TrieState d} (h : s.storage.failure = none) (x : Digest d) :
    unknown s x = absent s x := by
  unfold unknown
  rw [contains_record h, absent]
  cases nodeType (s.record x) <;> rfl

/-- The sets after an action. -/
theorem Stepped.set_eq {a : SyncAction d} {c' : SyncSystem d} (h : Stepped c a c')
    (ha : ∀ x set, a ≠ .change x set) (y : Side) : (c'.peer y).set = (c.peer y).set := by
  have hpeer : ∀ {x : Side} {p : Peer d}, p.set = (c.peer x).set →
      ((setPeer x p c).peer y).set = (c.peer y).set := fun hp =>
    forall_setPeer (P := fun y p => p.set = (c.peer y).set) (fun _ => rfl) hp y
  cases h with
  | idle => rfl
  | polled root => exact hpeer (polled_sync _ _).2.2.1
  | uncut pending => exact hpeer rfl
  | cut pending lost found => exact hpeer rfl
  | answered channel => exact hpeer rfl
  | replied bits size => exact hpeer rfl
  | acked channel root => exact hpeer rfl
  | compared root => exact hpeer (compared_sync _ _ _).2.2.1
  | changed => exact absurd rfl (ha _ _)

/-- **Every action keeps the alignment.** -/
theorem Stepped.aligned {a : SyncAction d} {c' : SyncSystem d} (h : Stepped c a c') (hc : Synced c)
    (y : Side) : (c'.pipeline y).Aligned := by
  have hy := hc.aligned y
  cases h with
  | idle => exact hy
  | polled root =>
    rw [pipeline_setPeer (polled_sync _ _).1 (polled_sync _ _).2.1]
    exact hy
  | @uncut x buffersize pending =>
    rw [pipeline_sendSubtrie (p := SyncProcess.noCut (c.peer x))
      (by rw [entries_nil, List.append_nil]; rfl) rfl]
    split
    · exact (hc.aligned _).send _
    · exact hy
  | @cut x buffersize dropped rest top buffer size pending lost found =>
    rw [pipeline_sendSubtrie (p := SyncProcess.sentCut rest (buffer.take size) size (c.peer x)) rfl rfl]
    split
    · exact (hc.aligned _).send _
    · exact hy
  | @answered x message rest channel =>
    rw [pipeline_answerSubtrie (p := SyncProcess.answeredAll message (c.peer x)) rfl (by
      rw [show unknown (c.peer x).set.trie = absent (c.peer x).set.trie from
        funext fun h => unknown_eq_absent (hc.works x) h]
      rfl)]
    split
    · apply (hc.aligned x.other).answer
      show (c.subtries x.other).flatMap (entries d) = _
      rw [channel, List.flatMap_cons, List.map_map]
      simp [Function.comp_def]
    · exact hy
  | @replied x length buffer number bits size =>
    rw [pipeline_sendAcks (p := SyncProcess.tookAcks number (c.peer x)) rfl rfl]
    split
    · apply (hc.aligned x.other).reply
      show (c.peer x.other.other).sync.pendingAcks = SyncProcess.ackBits buffer number
        ++ (c.peer x.other.other).sync.pendingAcks.drop number
      rw [Side.other_other, bits, List.take_append_drop]
    · exact hy
  | @acked x buffer number rest r channel root =>
    rw [pipeline_acknowledge (p := SyncProcess.received ((number + 7) / 8)
      (SyncProcess.acknowledged (SyncProcess.ackBits buffer number) r (c.peer x))) rfl rfl]
    split
    · exact (hc.aligned x).acknowledge (answers_of_channel channel)
    · exact hy
  | compared root =>
    rw [pipeline_setPeer (compared_sync _ _ _).1 (compared_sync _ _ _).2.1]
    exact hy
  | @changed x set =>
    rw [pipeline_setPeer (p := { c.peer x with set := set }) rfl rfl]
    exact hy

/-- Messages are as long as their bits. -/
theorem Stepped.whole {a : SyncAction d} {c' : SyncSystem d} (h : Stepped c a c') (hc : Synced c)
    (y : Side) : ∀ m ∈ c'.acks y, (m.2 + 7) / 8 ≤ m.1.length := by
  have hy := hc.whole y
  cases h with
  | @replied x length buffer number bits size =>
    rcases Side.eq_or_other x y with rfl | rfl
    · intro m hm
      simp only [sendAcks, setPeer, Function.update_self] at hm
      rcases List.mem_append.mp hm with hm | hm
      · exact hy m hm
      · rw [List.mem_singleton.mp hm, size]
    · simpa [sendAcks, setPeer] using hy
  | @acked x buffer number rest r channel root =>
    rcases Side.eq_or_other x y with rfl | rfl
    · simpa [acknowledge, setPeer] using hy
    · intro m hm
      simp only [acknowledge, setPeer, Function.update_self] at hm
      exact hy m (by rw [channel]; exact List.mem_cons_of_mem _ hm)
  | idle => exact hy
  | polled root => exact hy
  | uncut pending => exact hy
  | cut pending lost found => exact hy
  | answered channel => exact hy
  | compared root => exact hy
  | changed => exact hy

/-- **One action.** -/
theorem Stepped.synced {a : SyncAction d} {c' : SyncSystem d} (h : Stepped c a c') (hc : Synced c)
    (ha : a.Works) : Synced c' := by
  refine ⟨fun y => ?_, h.aligned hc, h.whole hc⟩
  by_cases hchange : ∀ x set, a ≠ .change x set
  · rw [h.set_eq hchange]
    exact hc.works y
  · simp only [not_forall, not_not] at hchange
    obtain ⟨x, set, rfl⟩ := hchange
    cases h with
    | idle => exact hc.works y
    | changed =>
      rcases Side.eq_or_other x y with rfl | rfl
      · have hset : ((setPeer y { c.peer y with set := set } c).peer y).set = set := by simp [setPeer]
        rw [hset]
        exact ha
      · simpa [setPeer] using hc.works x.other

theorem synced_start {A B : SetState d} (hA : A.trie.storage.failure = none)
    (hB : B.trie.storage.failure = none) : Synced (start A B) := by
  refine ⟨fun x => ?_, fun x => ?_, fun x m hm => absurd hm List.not_mem_nil⟩
  · cases x
    · exact hA
    · exact hB
  · cases x <;> exact ⟨rfl, rfl, rfl⟩

variable (hash) (fresh) (fuel) in
/-- **A run.**  What every action keeps, besides the alignment, holds at its end. -/
theorem run_keeps {J : SyncSystem d → Prop} {actions : List (SyncAction d)}
    (ha : ∀ a ∈ actions, a.Works)
    (hstep : ∀ a ∈ actions, ∀ c c', Synced c → J c → Stepped c a c' → J c') (hc : Synced c) (hj : J c) :
    ∃ us c', SyncAction.run hash fresh fuel actions c = ⟨.ok us, c', []⟩ ∧ Synced c' ∧ J c' := by
  refine Prog.each_keeps (fun a hmem c h => ?_) ⟨hc, hj⟩
  obtain ⟨c', hexec, h'⟩ := exec_ok hash fresh fuel h.1 a (ha a hmem)
  exact ⟨(), c', hexec, h'.synced h.1 (ha a hmem), hstep a hmem c c' h.1 h.2 h'⟩

end Exec

end SetSync
