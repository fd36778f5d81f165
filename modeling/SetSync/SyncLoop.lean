import SetSync.StrictTraffic

/-!
# The loop of the unit tests

`SetTest.cpp` runs a strict synchronization in one loop: each side in turn sends a subtrie and its
answers, which are processed at once, until one of the sides is done.  The calls go to the two peers
directly.  With the channels of the system empty between them, a call and the one that processes its
message are two moves of the system (`Between`).

    cutHalf, ackHalf   the half of the loop in which a side sends                  (cutHalf_ok, ackHalf_ok)
    syncLoop_ok        the loop ends without a failed assertion, and what was reported
-/

namespace SetSync

open Program BitTrie SyncSystem

variable {d : Nat}

/-- The two processes of the test. -/
abbrev Peers (d : Nat) : Type := Side → Peer d

abbrev PeersM (d : Nat) (α : Type) : Type := Prog (Peers d) (Digest d × Digest d) Exn α

namespace SyncLoop

def onSide {α : Type} (x : Side) (m : SyncM d α) : PeersM d α :=
  Prog.zoom (fun ps => ps x) (fun p ps => Function.update ps x p) m

/-- `CPPUNIT_ASSERT` -/
def assert (holds : Bool) : PeersM d Unit :=
  if holds then pure () else throw (.text "assertion failed")

/-- The side `x` sends a subtrie. -/
def cutHalf (treecutsize : Nat) (x : Side) : PeersM d Unit := do
  if ← onSide x SyncProcess.isSubtrieOutputAvailable then do
    let treecut ← onSide x (SyncProcess.getSubTrie treecutsize)
    assert (treecut.length > 0)
    let acksize ← onSide x.other (SyncProcess.processSubTrie treecut treecut.length)
    assert (acksize > 0)
  else pure ()

/-- The side `x` sends answers. -/
def ackHalf (ackbuffersize : Nat) (x : Side) : PeersM d Unit := do
  let ps ← Prog.get
  if SyncProcess.isAckOutputAvailable (ps x) then do
    match ← onSide x (SyncProcess.readSomeTrieAcks ackbuffersize) with
    | none => assert false
    | some (ackbuffer, numberOfAcks) => do
      assert (numberOfAcks > 0)
      assert (ackbuffer.length > 0)
      onSide x.other (SyncProcess.processAcks ackbuffer ackbuffer.length numberOfAcks)
  else pure ()

def loopBody (treecutsize ackbuffersize : Nat) : PeersM d Unit := do
  cutHalf treecutsize .A
  ackHalf ackbuffersize .A
  cutHalf treecutsize .B
  ackHalf ackbuffersize .B

/-- `while (!localprocess->done() && !remoteprocess->done())` -/
def syncLoop (treecutsize ackbuffersize : Nat) (fuel : Nat) : PeersM d Unit :=
  Prog.loop (fun ps => !SyncProcess.done (ps .A) && !SyncProcess.done (ps .B))
    (loopBody treecutsize ackbuffersize) fuel

end SyncLoop

open SyncLoop

/-- The system of a run with not more than `n` left to do. -/
structure Going (hash : CryptoHash d) (E : Digest d × Digest d → Prop) (K : Digest d → Prop)
    (sets : Side → SetState d) (S : Side → Finset (Digest d)) (t : Side → Option (Trie (Digest d)))
    (n : Nat) (c : SyncSystem d) : Prop where
  underway : Underway hash E K c
  thrifty : Thrifty sets S t c
  work : callsLeft c ≤ n
  notEqual : ∀ x, (c.peer x).sync.stat ≠ .EQUAL

/-- The system between two calls of the loop: nothing is on its way. -/
structure Between (hash : CryptoHash d) (E : Digest d × Digest d → Prop) (K : Digest d → Prop)
    (sets : Side → SetState d) (S : Side → Finset (Digest d)) (t : Side → Option (Trie (Digest d)))
    (n : Nat) (c : SyncSystem d) : Prop extends Going hash E K sets S t n c where
  subtries : ∀ x, c.subtries x = []
  acks : ∀ x, c.acks x = []

section Halves

variable {hash : CryptoHash d} {E : Digest d × Digest d → Prop} {K : Digest d → Prop}
  {sets : Side → SetState d} {S : Side → Finset (Digest d)} {t : Side → Option (Trie (Digest d))}
  {c c' : SyncSystem d} {a : SyncAction d} {n : Nat}

/-- No call of the trie exchange ends a process by `EQUAL`. -/
theorem Moved.notEqual (h : Moved c a c') (hc : ∀ x, (c.peer x).sync.stat ≠ .EQUAL) (y : Side) :
    (c'.peer y).sync.stat ≠ .EQUAL := by
  have hpeer : ∀ (x : Side) (p : Peer d), p.sync.stat ≠ .EQUAL →
      ((setPeer x p c).peer y).sync.stat ≠ .EQUAL := fun x p hp =>
    forall_setPeer (P := fun _ p => p.sync.stat ≠ .EQUAL) hc hp y
  cases h with
  | @polled x root start found => exact hpeer x _ (by simp [SyncProcess.polled, start])
  | @uncut x buffersize some pending => exact hpeer x (SyncProcess.noCut (c.peer x)) (hc x)
  | @cut x buffersize dropped rest top buffer size pending lost found =>
    exact hpeer x (SyncProcess.sentCut rest (buffer.take size) size (c.peer x)) (hc x)
  | @answered x message rest channel =>
    exact hpeer x (SyncProcess.answeredAll message (c.peer x)) (hc x)
  | @replied x length buffer number pos bits size =>
    exact hpeer x (SyncProcess.tookAcks number (c.peer x)) (hc x)
  | @acked x buffer number rest r channel root =>
    exact hpeer x (SyncProcess.received ((number + 7) / 8)
      (SyncProcess.acknowledged (SyncProcess.ackBits buffer number) r (c.peer x))) (hc x)

theorem Going.moved (hs : Separated hash.pair (Hashes E) K)
    (hrep : ∀ x, Represents hash E K (sets x).trie (S x) (t x)) (hc : Going hash E K sets S t n c)
    (h : Moved c a c') (ha : a.IsCall) : ∃ m, m < n ∧ Going hash E K sets S t m c' := by
  have hless := h.callsLeft_lt hs ha hc.underway
  have hwork := hc.work
  exact ⟨_, by omega, h.underway hs ha hc.underway, h.thrifty hs hrep ha hc.underway.synced hc.thrifty,
    Nat.le_refl _, h.notEqual hc.notEqual⟩

theorem onSide_of_eq {α : Type} {ps : Peers d} {x : Side} {m : SyncM d α} {o : Outcome Exn α}
    {p : Peer d} {l : List (Digest d × Digest d)} (h : m (ps x) = ⟨o, p, l⟩) :
    onSide x m ps = ⟨o, Function.update ps x p, l⟩ := Prog.zoom_of_eq h

theorem assert_of {holds : Bool} (h : holds = true) (ps : Peers d) :
    assert holds ps = ⟨.ok (), ps, []⟩ := by
  rw [h]
  rfl

/-- Output is available after the root was queued, or when something was pending. -/
theorem Going.polled (hs : Separated hash.pair (Hashes E) K)
    (hrep : ∀ x, Represents hash E K (sets x).trie (S x) (t x)) (hc : Going hash E K sets S t n c) {x : Side}
    {r : Option (Digest d)}
    (hr : KeyValueTrie.getRoot (c.peer x).set.trie = ⟨.ok r, (c.peer x).set.trie, []⟩) :
    (∃ m, m ≤ n ∧ Going hash E K sets S t m (setPeer x (SyncProcess.polled r (c.peer x)) c)) ∧
      (decide ((SyncProcess.polled r (c.peer x)).sync.stat ≠ .START ∧
          0 < (SyncProcess.polled r (c.peer x)).sync.pendingSubtries.length) = false →
        SyncProcess.polled r (c.peer x) = c.peer x ∧ productive c (.poll x) = false ∧
          (c.peer x).sync.pendingSubtries = []) := by
  have hprod : productive c (.poll x) = (decide ((c.peer x).sync.stat = .START) && r.isSome) := by
    rw [productive, rooted_of_eq hr]
  by_cases hstart : (c.peer x).sync.stat = .START
  · cases r with
    | none =>
      have hsame : SyncProcess.polled none (c.peer x) = c.peer x := by
        unfold SyncProcess.polled
        rw [if_pos hstart]
      rw [hsame, setPeer_self]
      refine ⟨⟨n, Nat.le_refl n, hc⟩, fun _ => ⟨rfl, by rw [hprod]; exact Bool.and_false _, ?_⟩⟩
      exact (hc.underway.started x hstart).1
    | some root =>
      obtain ⟨m, hless, hgoing⟩ := hc.moved hs hrep (.polled hstart hr) trivial
      refine ⟨⟨m, hless.le, hgoing⟩, fun hnone => ?_⟩
      simp [SyncProcess.polled, hstart] at hnone
  · have hsame : SyncProcess.polled r (c.peer x) = c.peer x := by
      unfold SyncProcess.polled
      rw [if_neg hstart]
    rw [hsame, setPeer_self]
    refine ⟨⟨n, Nat.le_refl n, hc⟩, fun hnone => ⟨rfl, ?_, ?_⟩⟩
    · rw [hprod, decide_eq_false hstart]
      rfl
    · simpa [hstart] using hnone

/-- The only message on its way is a subtrie of `x`. -/
structure Sending (hash : CryptoHash d) (E : Digest d × Digest d → Prop) (K : Digest d → Prop)
    (sets : Side → SetState d) (S : Side → Finset (Digest d)) (t : Side → Option (Trie (Digest d)))
    (n : Nat) (x : Side) (message : Bytes) (c : SyncSystem d) : Prop
    extends Going hash E K sets S t n c where
  subtries : c.subtries x = [message]
  other : c.subtries x.other = []
  acks : ∀ y, c.acks y = []
  filled : entries d message ≠ []

/-- A pending hash is cut. -/
theorem Between.sends (hs : Separated hash.pair (Hashes E) K)
    (hrep : ∀ x, Represents hash E K (sets x).trie (S x) (t x)) (hc : Between hash E K sets S t n c) {x : Side}
    (hsome : (c.peer x).sync.pendingSubtries ≠ []) {treecutsize : Nat} (hbuf : 2 ≤ treecutsize / d) :
    ∃ message p c' m, SyncProcess.getSubTrie treecutsize (c.peer x) = ⟨.ok message, p, []⟩ ∧
      c'.peer = Function.update c.peer x p ∧ m < n ∧ Sending hash E K sets S t m x message c' := by
  have hcuttable := (hc.thrifty.sparing x).cuttable hs (hc.thrifty.rep hrep x) hbuf
  rcases SyncProcess.getSubTrie_spec treecutsize (hc.underway.synced.works x) with
    ⟨hall, -⟩ | ⟨dropped, top, rest, buffer, size, hsplit, hlost, hcut, hrun⟩
  · obtain ⟨z, hz⟩ := List.exists_mem_of_ne_nil _ hsome
    exact absurd (hall z hz) (hcuttable z hz)
  · have hmove := Moved.cut hsplit hlost hcut
    obtain ⟨m, hm, hgoing⟩ := hc.toGoing.moved hs hrep hmove hbuf
    have hfilled : entries d (buffer.take size) ≠ [] :=
      (cut_cost hs (hc.thrifty.rep hrep x) hbuf hcut).2
    have hmessage : buffer.take size ≠ [] := by
      intro hnil
      rw [hnil, entries_nil] at hfilled
      exact hfilled rfl
    refine ⟨_, _, _, m, hrun, rfl, hm, hgoing, ?_, ?_, hc.acks, hfilled⟩
    · simp [sendSubtrie, setPeer, hmessage, hc.subtries x]
    · simp [sendSubtrie, setPeer, hc.subtries x.other]

/-- The hashes of the subtrie are answered. -/
theorem Sending.answered (hs : Separated hash.pair (Hashes E) K)
    (hrep : ∀ x, Represents hash E K (sets x).trie (S x) (t x)) {x : Side} {message : Bytes}
    (hc : Sending hash E K sets S t n x message c) :
    ∃ acksize q c' m, SyncProcess.processSubTrie message message.length (c.peer x.other)
        = ⟨.ok acksize, q, []⟩ ∧ 0 < acksize ∧ c'.peer = Function.update c.peer x.other q ∧ m < n ∧
      Between hash E K sets S t m c' ∧ (c'.peer x.other).sync.pendingAcks ≠ [] := by
  have hchannel : c.subtries x.other.other = message :: [] := by
    rw [Side.other_other]
    exact hc.subtries
  have hqueue : 0 < (SyncProcess.answeredAll message (c.peer x.other)).sync.pendingAcks.length := by
    have hpos := List.length_pos_of_ne_nil hc.filled
    simp only [SyncProcess.answeredAll, List.length_append, List.length_map]
    omega
  obtain ⟨m, hm, hgoing⟩ := hc.toGoing.moved hs hrep (.answered hchannel) trivial
  refine ⟨_, _, _, m, SyncProcess.processSubTrie_ok (hc.underway.synced.works x.other) message, by omega, rfl, hm,
    ⟨hgoing, fun y => ?_, hc.acks⟩, ?_⟩
  · rcases Side.eq_or_other x y with rfl | rfl
    · simp [answerSubtrie]
    · simpa [answerSubtrie, setPeer] using hc.other
  · simpa [answerSubtrie, setPeer] using List.ne_nil_of_length_pos hqueue

/-- **One half of the loop in which `x` sends a subtrie**: it has nothing to send, or it sends one. -/
theorem cutHalf_ok (hs : Separated hash.pair (Hashes E) K)
    (hrep : ∀ x, Represents hash E K (sets x).trie (S x) (t x)) (hc : Between hash E K sets S t n c) (x : Side)
    {treecutsize : Nat} (hbuf : 2 ≤ treecutsize / d) :
    ∃ c', cutHalf treecutsize x c.peer = ⟨.ok (), c'.peer, []⟩ ∧
      ((c' = c ∧ productive c (.poll x) = false ∧ (c.peer x).sync.pendingSubtries = []) ∨
        ((∃ m, m < n ∧ Between hash E K sets S t m c') ∧ (c'.peer x.other).sync.pendingAcks ≠ [])) := by
  obtain ⟨r, hr⟩ := getRoot_total (hc.underway.synced.works x)
  obtain ⟨⟨m, hm, hgoing⟩, hidle⟩ := hc.toGoing.polled hs hrep hr
  have hpoll := @onSide_of_eq _ _ c.peer x _ _ _ _ (SyncProcess.poll_ok hr)
  generalize SyncProcess.polled r (c.peer x) = p at hgoing hidle hpoll
  generalize hb : decide (p.sync.stat ≠ .START ∧ 0 < p.sync.pendingSubtries.length) = available
    at hidle hpoll
  cases available with
  | false =>
    obtain ⟨hsame, hprod, hnil⟩ := hidle rfl
    refine ⟨c, ?_, Or.inl ⟨rfl, hprod, hnil⟩⟩
    rw [cutHalf, Prog.bind_of_ok hpoll, hsame, Function.update_eq_self]
    rfl
  | true =>
    have hbetween : Between hash E K sets S t m (setPeer x p c) := ⟨hgoing, hc.subtries, hc.acks⟩
    have hsome : ((setPeer x p c).peer x).sync.pendingSubtries ≠ [] := by
      simpa [setPeer] using List.ne_nil_of_length_pos (of_decide_eq_true hb).2
    obtain ⟨message, p', c₂, m₂, hcut, hpeers, hm₂, hsending⟩ := hbetween.sends hs hrep hsome hbuf
    obtain ⟨acksize, q, c₃, m₃, hanswer, hsize, hpeers', hm₃, hlast, hqueue⟩ :=
      hsending.answered hs hrep
    have hmessage : message ≠ [] := by
      intro hnil
      have hfilled := hsending.filled
      rw [hnil, entries_nil] at hfilled
      exact hfilled rfl
    refine ⟨c₃, ?_, Or.inr ⟨⟨m₃, by omega, hlast⟩, hqueue⟩⟩
    rw [cutHalf, Prog.bind_of_ok hpoll, Run.after_nil, if_pos rfl]
    show (onSide x _ >>= _) (setPeer x p c).peer = _
    rw [Prog.bind_of_ok (onSide_of_eq hcut), Run.after_nil,
      Prog.bind_of_ok (assert_of (decide_eq_true (List.length_pos_of_ne_nil hmessage)) _),
      Run.after_nil, ← hpeers, Prog.bind_of_ok (onSide_of_eq hanswer), Run.after_nil, ← hpeers',
      assert_of (decide_eq_true hsize)]

/-- **One half of the loop in which `x` sends answers.**  The pending hashes of `x` and the answers of the
other side stay. -/
theorem ackHalf_ok (hs : Separated hash.pair (Hashes E) K)
    (hrep : ∀ x, Represents hash E K (sets x).trie (S x) (t x)) (hc : Between hash E K sets S t n c) (x : Side)
    {ackbuffersize : Nat} (hroom : 1 ≤ ackbuffersize) :
    ∃ c', ackHalf ackbuffersize x c.peer = ⟨.ok (), c'.peer, []⟩ ∧
      ((c' = c ∧ (c.peer x).sync.pendingAcks = []) ∨ ∃ m, m < n ∧ Between hash E K sets S t m c') ∧
      (c'.peer x).sync.pendingSubtries = (c.peer x).sync.pendingSubtries ∧
      (c'.peer x).sync.stat = (c.peer x).sync.stat ∧
      (c'.peer x.other).sync.pendingAcks = (c.peer x.other).sync.pendingAcks := by
  by_cases hnil : (c.peer x).sync.pendingAcks = []
  · refine ⟨c, ?_, Or.inl ⟨rfl, hnil⟩, rfl, rfl, rfl⟩
    rw [ackHalf, Prog.bind_of_ok (Prog.get_apply c.peer), Run.after_nil,
      SyncProcess.isAckOutputAvailable, hnil]
    rfl
  · obtain ⟨buffer, number, hnumber, hbits, hsize, hrun⟩ :=
      SyncProcess.readSomeTrieAcks_ok ackbuffersize hnil
    have hqueue : 0 < (c.peer x).sync.pendingAcks.length := List.length_pos_of_ne_nil hnil
    have hpos : 1 ≤ number := by omega
    -- the answers enter the channel
    have hmove := @Moved.replied _ c x ackbuffersize _ _ hpos hbits hsize
    obtain ⟨m, hm, hgoing⟩ := hc.toGoing.moved hs hrep hmove hroom
    generalize hc₂ : sendAcks x (buffer, number)
      (setPeer x (SyncProcess.tookAcks number (c.peer x)) c) = c₂ at hmove hgoing
    have hpeers : c₂.peer = Function.update c.peer x (SyncProcess.tookAcks number (c.peer x)) := by
      rw [← hc₂]
      rfl
    have hchannel : c₂.acks x.other.other = (buffer, number) :: [] := by
      rw [← hc₂, Side.other_other]
      simp [sendAcks, setPeer, hc.acks x]
    -- and are taken from it
    obtain ⟨r, hr⟩ := getRoot_total (hgoing.underway.synced.works x.other)
    have htake := SyncProcess.processAcks_ok buffer number (hgoing.underway.synced.works x.other) hr
      (Nat.le_of_eq hsize.symm) (hgoing.underway.synced.number_le hchannel)
    obtain ⟨m', hm', hgoing'⟩ := hgoing.moved hs hrep (.acked hchannel hr) trivial
    refine ⟨_, ?_, Or.inr ⟨m', by omega, hgoing', fun y => ?_, fun y => ?_⟩, ?_, ?_, ?_⟩
    · rw [ackHalf, Prog.bind_of_ok (Prog.get_apply c.peer), Run.after_nil,
        if_pos (show SyncProcess.isAckOutputAvailable (c.peer x) = true from decide_eq_true hqueue),
        Prog.bind_of_ok (onSide_of_eq hrun), Run.after_nil]
      simp only
      rw [Prog.bind_of_ok (assert_of (decide_eq_true (show number > 0 from hpos)) _), Run.after_nil,
        Prog.bind_of_ok (assert_of (decide_eq_true (show buffer.length > 0 by omega)) _), Run.after_nil, ← hpeers,
        onSide_of_eq htake]
      rfl
    · show c₂.subtries y = []
      rw [← hc₂]
      exact hc.subtries y
    · rcases Side.eq_or_other x y with rfl | rfl
      · simp [acknowledge]
      · have hempty : c₂.acks x.other = [] := by
          rw [← hc₂]
          simpa [sendAcks, setPeer] using hc.acks x.other
        simpa [acknowledge, setPeer] using hempty
    · simp [acknowledge, setPeer, hpeers, SyncProcess.tookAcks]
    · simp [acknowledge, setPeer, hpeers, SyncProcess.tookAcks]
    · simp [acknowledge, setPeer, hpeers, SyncProcess.received, SyncProcess.acknowledged]

/-- What `x` has reported is the difference. -/
def Reported (S : Side → Finset (Digest d)) (x : Side) (p : Peer d) : Prop :=
  p.handled.Nodup ∧ ∀ k b, (k, b) ∈ p.handled ↔ b = true ∧ k ∈ S x ∧ k ∉ S x.other

/-- The side has no more to send. -/
def Exhausted (c : SyncSystem d) (x : Side) : Prop :=
  productive c (.poll x) = false ∧ (c.peer x).sync.pendingSubtries = []

theorem Between.atMost (hc : Between hash E K sets S t n c) {idle : Prop}
    (h : (c' = c ∧ idle) ∨ ∃ m, m < n ∧ Between hash E K sets S t m c') :
    ∃ m, m ≤ n ∧ Between hash E K sets S t m c' ∧ (m < n ∨ (c' = c ∧ idle)) := by
  rcases h with ⟨rfl, hidle⟩ | ⟨m, hm, hnext⟩
  · exact ⟨n, Nat.le_refl n, hc, Or.inr ⟨rfl, hidle⟩⟩
  · exact ⟨m, hm.le, hnext, Or.inl hm⟩

/-- **One round**: nothing happens, or less is left to do.  When `A` has answered everything, `B` had no
more to send. -/
theorem loopBody_ok (hs : Separated hash.pair (Hashes E) K)
    (hrep : ∀ x, Represents hash E K (sets x).trie (S x) (t x)) (hc : Between hash E K sets S t n c)
    {treecutsize ackbuffersize : Nat} (hbuf : 2 ≤ treecutsize / d) (hroom : 1 ≤ ackbuffersize) :
    ∃ c' m, loopBody treecutsize ackbuffersize c.peer = ⟨.ok (), c'.peer, []⟩ ∧
      Between hash E K sets S t m c' ∧
      (m < n ∨ (c' = c ∧ ∀ x, Exhausted c x ∧ (c.peer x).sync.pendingAcks = [])) ∧
      ((c'.peer .A).sync.pendingAcks = [] → Exhausted c' .B) := by
  obtain ⟨c₁, hrun₁, h₁⟩ := cutHalf_ok hs hrep hc .A hbuf
  obtain ⟨m₁, hm₁, hc₁, hidle₁⟩ := hc.atMost (h₁.imp id And.left)
  obtain ⟨c₂, hrun₂, h₂, -⟩ := ackHalf_ok hs hrep hc₁ .A hroom
  obtain ⟨m₂, hm₂, hc₂, hidle₂⟩ := hc₁.atMost h₂
  obtain ⟨c₃, hrun₃, h₃⟩ := cutHalf_ok hs hrep hc₂ .B hbuf
  obtain ⟨m₃, hm₃, hc₃, hidle₃⟩ := hc₂.atMost (h₃.imp id And.left)
  obtain ⟨c₄, hrun₄, h₄, hpending₄, hstat₄, hacks₄⟩ := ackHalf_ok hs hrep hc₃ .B hroom
  obtain ⟨m₄, hm₄, hc₄, hidle₄⟩ := hc₃.atMost h₄
  refine ⟨c₄, m₄, ?_, hc₄, ?_, fun hnil => ?_⟩
  · rw [loopBody, Prog.bind_of_ok hrun₁, Run.after_nil, Prog.bind_of_ok hrun₂, Run.after_nil,
      Prog.bind_of_ok hrun₃, Run.after_nil, hrun₄]
  · rcases hidle₁ with hless | ⟨rfl, hpoll, hpending⟩
    · left; omega
    rcases hidle₂ with hless | ⟨rfl, hacks⟩
    · left; omega
    rcases hidle₃ with hless | ⟨rfl, hpoll', hpending'⟩
    · left; omega
    rcases hidle₄ with hless | ⟨rfl, hacks'⟩
    · left; omega
    right
    refine ⟨rfl, fun x => ?_⟩
    cases x
    · exact ⟨⟨hpoll, hpending⟩, hacks⟩
    · exact ⟨⟨hpoll', hpending'⟩, hacks'⟩
  · -- a subtrie of `B` would wait for its answers
    have hnil₃ : (c₃.peer .A).sync.pendingAcks = [] := hacks₄.symm.trans hnil
    rcases h₃ with ⟨rfl, hpoll, hpending⟩ | ⟨-, hqueue⟩
    · refine ⟨?_, hpending₄.trans hpending⟩
      rw [productive, hc₃.thrifty.strict.set] at hpoll
      rw [productive, hstat₄, hc₄.thrifty.strict.set, hpoll]
    · exact absurd hnil₃ hqueue

/-- A side that has no more to send and whose hashes are answered has reported the difference. -/
theorem Between.reported (hrep : ∀ x, Represents hash E K (sets x).trie (S x) (t x))
    (hc : Between hash E K sets S t n c) {x : Side} (hend : Exhausted c x)
    (hsent : (c.peer x).sync.sentHashes = []) : Reported S x (c.peer x) := by
  refine (hc.thrifty.strict.stage x).finished (hc.thrifty.rep hrep x) (fun _ => hend.2) hsent
    fun hstart => ?_
  obtain ⟨r, hr⟩ := getRoot_total (hc.underway.synced.works x)
  have hpoll := hend.1
  rw [productive, rooted_of_eq hr, decide_eq_true hstart, Bool.true_and] at hpoll
  cases r with
  | none => simp [HasRoot, hr]
  | some root => cases hpoll

/-- A side that is done has no more to send. -/
theorem Between.of_done (hc : Between hash E K sets S t n c) {x : Side}
    (hdone : SyncProcess.done (c.peer x) = true) :
    Exhausted c x ∧ (c.peer x).sync.pendingAcks = [] ∧ (c.peer x).sync.sentHashes = [] := by
  obtain ⟨hstart, hpending, hacks, hsent⟩ := (done_iff (hc.notEqual x)).mp hdone
  refine ⟨⟨?_, hpending⟩, hacks, hsent⟩
  rw [productive, decide_eq_false hstart]
  rfl

/-- A side with nothing to send, to answer or to wait for is done, unless its set is empty. -/
theorem Between.done_of (hrep : ∀ x, Represents hash E K (sets x).trie (S x) (t x))
    (hc : Between hash E K sets S t n c) {x : Side} (hend : Exhausted c x)
    (hacks : (c.peer x).sync.pendingAcks = []) (hsent : (c.peer x).sync.sentHashes = [])
    (hne : S x ≠ ∅) : SyncProcess.done (c.peer x) = true := by
  have hstart : (c.peer x).sync.stat ≠ .START := by
    intro hstart
    obtain ⟨r, hr⟩ := getRoot_total (hc.underway.synced.works x)
    have hpoll := hend.1
    rw [productive, rooted_of_eq hr, decide_eq_true hstart, Bool.true_and] at hpoll
    have hroot := (hasRoot_iff (hc.thrifty.rep hrep x)).mpr hne
    cases r with
    | none => exact hroot (by rw [hr])
    | some root => cases hpoll
  exact (done_iff (hc.notEqual x)).mpr ⟨hstart, hend.2, hacks, hsent⟩

/-- **The loop ends**, unless both sets are empty. -/
theorem loop_between (hs : Separated hash.pair (Hashes E) K)
    (hrep : ∀ x, Represents hash E K (sets x).trie (S x) (t x)) (hne : ∃ x, S x ≠ ∅)
    (hc : Between hash E K sets S t n c) (hbegin : SyncProcess.done (c.peer .A) = false)
    {treecutsize ackbuffersize loops : Nat} (hbuf : 2 ≤ treecutsize / d) (hroom : 1 ≤ ackbuffersize)
    (hfuel : n < loops) :
    ∃ c' m, syncLoop treecutsize ackbuffersize loops c.peer = ⟨.ok (), c'.peer, []⟩ ∧
      Between hash E K sets S t m c' ∧ (SyncProcess.done (c'.peer .A) = true → Exhausted c' .B) ∧
      (SyncProcess.done (c'.peer .A) = true ∨ SyncProcess.done (c'.peer .B) = true) := by
  have hbody : ∀ n (ps : Peers d), (∃ c, c.peer = ps ∧ Between hash E K sets S t n c ∧
        (SyncProcess.done (ps .A) = true → Exhausted c .B)) →
      (!SyncProcess.done (ps .A) && !SyncProcess.done (ps .B)) = true →
      ∃ ps' m, loopBody treecutsize ackbuffersize ps = ⟨.ok (), ps', []⟩ ∧
        (∃ c, c.peer = ps' ∧ Between hash E K sets S t m c ∧
          (SyncProcess.done (ps' .A) = true → Exhausted c .B)) ∧ m < n := by
    rintro n _ ⟨c, rfl, hc, -⟩ hgo
    obtain ⟨c', m, hrun, hc', hnext, hexhausted⟩ := loopBody_ok hs hrep hc hbuf hroom
    refine ⟨c'.peer, m, hrun, ⟨c', rfl, hc', fun hdone => hexhausted (hc'.of_done hdone).2.1⟩, ?_⟩
    rcases hnext with hless | ⟨-, hidle⟩
    · exact hless
    · -- nothing is left to do, so a side with a set that is not empty is done
      obtain ⟨x, hx⟩ := hne
      have hsent := hc.underway.synced.sent_eq_nil (hc.subtries x) (hc.acks x.other) (hidle x.other).2
      have hdone := hc.done_of hrep (hidle x).1 (hidle x).2 hsent hx
      cases x <;> simp [hdone] at hgo
  obtain ⟨ps, m, hrun, ⟨c', rfl, hc', hexhausted⟩, hend⟩ := Prog.loop_ends (n := n) hbody
    ⟨c, rfl, hc, fun hdone => absurd hdone (by simp [hbegin])⟩ hfuel
  refine ⟨c', m, hrun, hc', hexhausted, ?_⟩
  cases hA : SyncProcess.done (c'.peer .A) with
  | true => exact Or.inl rfl
  | false =>
    right
    simpa [hA] using hend

end Halves

section Built

variable {hash : CryptoHash d} {fuel : Nat} {fresh : Side → Digest d}
  {ops : Side → List (SetOp (Digest d))} {sets : Side → SetState d}

/-- **The loop of the tests.**  Unless both sets are empty it ends, and no assertion in it fails.  A side
that is done has reported the difference, and when it is the first one the other has as well. -/
theorem syncLoop_ok (h : BuiltSets hash fuel fresh ops sets) (hne : ∃ x, keysAfter (ops x) ≠ ∅)
    {treecutsize ackbuffersize loops : Nat} (hbuf : 2 ≤ treecutsize / d) (hroom : 1 ≤ ackbuffersize)
    (hloops : 2 + 7 * ((keysAfter (ops .A)).card + (keysAfter (ops .B)).card) < loops) :
    ∃ ps, syncLoop treecutsize ackbuffersize loops (fun x => Peer.fresh (sets x)) = ⟨.ok (), ps, []⟩ ∧
      (SyncProcess.done (ps .A) = true ∨ SyncProcess.done (ps .B) = true) ∧
      (∀ x, SyncProcess.done (ps x) = true → Reported (fun x => keysAfter (ops x)) x (ps x)) ∧
      (SyncProcess.done (ps .A) = true → Reported (fun x => keysAfter (ops x)) .B (ps .B)) := by
  obtain ⟨t, hs, hrep⟩ := h.represents
  rw [← setOf_sides sets] at hrep
  have hpeers : (start (sets .A) (sets .B)).peer = fun x => Peer.fresh (sets x) := by
    funext x
    cases x <;> rfl
  have hbetween : Between hash (· ∈ builtPairs hash fuel fresh ops)
      (· ∈ addedKeys (ops .A) ++ addedKeys (ops .B)) (setOf (sets .A) (sets .B)) (fun x => keysAfter (ops x)) t
      (2 + 7 * ((keysAfter (ops .A)).card + (keysAfter (ops .B)).card))
      (start (sets .A) (sets .B)) := by
    refine ⟨⟨underway_start fun x => ⟨_, _, hrep x⟩, thrifty_start, callsLeft_start hs hrep, fun x => ?_⟩,
      fun _ => rfl, fun _ => rfl⟩
    cases x <;> exact SyncStatus.noConfusion
  obtain ⟨c, m, hrun, hc, hexhausted, hdone⟩ := loop_between hs hrep hne hbetween rfl hbuf hroom hloops
  rw [hpeers] at hrun
  refine ⟨c.peer, hrun, hdone, fun x hx => ?_, fun hA => ?_⟩
  · exact hc.reported hrep (hc.of_done hx).1 (hc.of_done hx).2.2
  · exact hc.reported hrep (hexhausted hA)
      (hc.underway.synced.sent_eq_nil (hc.subtries .B) (hc.acks .A) (hc.of_done hA).2.1)

theorem syncLoop_ok_sample :
    ∃ ps, syncLoop 32 20 100 (fun x => Peer.fresh (crossedSets x)) = ⟨.ok (), ps, []⟩ ∧
      (SyncProcess.done (ps .A) = true ∨ SyncProcess.done (ps .B) = true) := by
  have hA : (keysAfter (crossedOps .A)).card = 2 := by decide +kernel
  have hB : (keysAfter (crossedOps .B)).card = 1 := by decide +kernel
  have hne : ∃ x, keysAfter (crossedOps x) ≠ ∅ := ⟨.A, Finset.card_pos.mp (by rw [hA]; decide) |>.ne_empty⟩
  obtain ⟨ps, hrun, hdone, -⟩ := syncLoop_ok crossed_built hne (by decide : 2 ≤ 32 / 16)
    (by decide : 1 ≤ 20) (by rw [hA, hB]; decide : _ < 100)
  exact ⟨ps, hrun, hdone⟩

end Built

end SetSync
