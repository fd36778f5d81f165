import SetSync.SyncSystem

/-!
# Runs of the system over any sets

What holds of every interleaving whatever the tries are, as long as their storages work.

    acks_never_slip      acknowledged bits answer their hashes, also while the sets change
    done_iff_rooted      in a quiet state a side is done just when its trie has a root

A state is quiet when neither side has output, waits for an answer, or has a message in flight.
-/

namespace SetSync

open Program BitTrie SyncSystem

variable {d : Nat}

/-! ## Acknowledged bits -/

/-- The calls of acknowledged hashes are for leaves whose bit is set. -/
theorem foldl_ackStep_handled (s : TrieState d) (r : Option (Digest d)) (l : List (Digest d × Bool))
    (w : List (Digest d) × DiffHandler d) :
    ∃ calls, (l.foldl (SyncProcess.ackStep s r) w).2 = w.2 ++ calls ∧ ∀ call ∈ calls,
      call.2 = true ∧ (call.1, true) ∈ l ∧ nodeType (s.record call.1) = .LEAF_NODE := by
  induction l generalizing w with
  | nil => exact ⟨[], (List.append_nil _).symm, by simp⟩
  | cons b l ih =>
    obtain ⟨h, bit⟩ := b
    obtain ⟨calls, heq, hcalls⟩ := ih (SyncProcess.ackStep s r w (h, bit))
    have hlater : ∀ call ∈ calls, call.2 = true ∧ (call.1, true) ∈ (h, bit) :: l ∧
        nodeType (s.record call.1) = .LEAF_NODE := fun call hmem =>
      ⟨(hcalls call hmem).1, List.mem_cons_of_mem _ (hcalls call hmem).2.1, (hcalls call hmem).2.2⟩
    rw [List.foldl_cons, heq]
    cases bit with
    | false => exact ⟨calls, rfl, hlater⟩
    | true =>
      cases ht : nodeType (s.record h) with
      | LEAF_NODE =>
        refine ⟨(h, true) :: calls, by simp [SyncProcess.ackStep, ht], fun call hmem => ?_⟩
        rcases List.mem_cons.mp hmem with rfl | hmem
        · exact ⟨rfl, List.mem_cons_self, ht⟩
        · exact hlater call hmem
      | INNER_NODE => exact ⟨calls, by simp [SyncProcess.ackStep, ht], hlater⟩
      | NOT_FOUND => exact ⟨calls, by simp [SyncProcess.ackStep, ht], hlater⟩

/-- What acknowledging one hash keeps, a message of answers keeps. -/
theorem foldl_acks {s : TrieState d} {r : Option (Digest d)} {Q : Digest d × Bool → Prop}
    {J : List (Digest d) × DiffHandler d → List (Digest d) → Prop}
    (hstep : ∀ w x b sent, Q (x, b) → J w (x :: sent) → J (SyncProcess.ackStep s r w (x, b)) sent)
    {w : List (Digest d) × DiffHandler d} {sent : List (Digest d)} {bits : List Bool}
    (hle : bits.length ≤ sent.length) (hbits : ∀ e ∈ (sent.take bits.length).zip bits, Q e)
    (hw : J w sent) :
    J (((sent.take bits.length).zip bits).foldl (SyncProcess.ackStep s r) w)
      (sent.drop bits.length) := by
  induction bits generalizing w sent with
  | nil => exact hw
  | cons bit bits ih =>
    cases sent with
    | nil => cases hle
    | cons x sent =>
      rw [List.length_cons, List.length_cons] at hle
      rw [List.length_cons, List.take_succ_cons, List.zip_cons_cons] at hbits ⊢
      rw [List.foldl_cons, List.drop_succ_cons]
      exact ih (by omega) (fun e he => hbits e (List.mem_cons_of_mem _ he))
        (hstep w x bit sent (hbits (x, bit) List.mem_cons_self) hw)

section Any

variable {hash : CryptoHash d} {fresh : Digest d} {fuel : Nat} {c c' : SyncSystem d}

theorem sum_length_ackBits (l : List (Bytes × Nat)) :
    (l.flatMap fun m => SyncProcess.ackBits m.1 m.2).length = (l.map Prod.snd).sum := by
  induction l with
  | nil => rfl
  | cons m l ih =>
    rw [List.flatMap_cons, List.length_append, ih, List.map_cons, List.sum_cons,
      SyncProcess.ackBits, List.length_map, List.length_range]

/-- The calls that an action adds. -/
theorem Stepped.handled {a : SyncAction d} (h : Stepped c a c') (hc : Synced c) (y : Side) :
    ∃ calls, (c'.peer y).handled = (c.peer y).handled ++ calls ∧ ∀ call ∈ calls, call.2 = true ∧
      nodeType ((c.peer y).set.trie.record call.1) = .LEAF_NODE ∧
      (call.1, true) ∈ (c.log y).answered := by
  have hnone : ∀ {x : Side} {p : Peer d}, p.handled = (c.peer x).handled →
      ∃ calls : DiffHandler d, ((setPeer x p c).peer y).handled = (c.peer y).handled ++ calls ∧
        ∀ call ∈ calls, call.2 = true ∧ nodeType ((c.peer y).set.trie.record call.1) = .LEAF_NODE ∧
          (call.1, true) ∈ (c.log y).answered := by
    intro x p hp
    refine ⟨[], ?_, by simp⟩
    rcases Side.eq_or_other x y with rfl | rfl
    · simp [setPeer, hp]
    · simp [setPeer]
  cases h with
  | idle => exact ⟨[], (List.append_nil _).symm, by simp⟩
  | polled root => exact hnone (polled_sync _ _).2.2.2
  | uncut pending => exact hnone rfl
  | cut pending lost found => exact hnone rfl
  | answered channel => exact hnone rfl
  | replied bits size => exact hnone rfl
  | compared root => exact hnone (compared_sync _ _ _).2.2.2
  | changed => exact hnone rfl
  | @acked x buffer number rest r channel root =>
    rcases Side.eq_or_other x y with rfl | rfl
    · obtain ⟨calls, heq, hcalls⟩ := foldl_ackStep_handled (c.peer y).set.trie r
        (((c.peer y).sync.sentHashes.take (SyncProcess.ackBits buffer number).length).zip
          (SyncProcess.ackBits buffer number)) ((c.peer y).sync.pendingSubtries, (c.peer y).handled)
      refine ⟨calls, ?_, fun call hmem => ?_⟩
      · simpa [acknowledge, setPeer, SyncProcess.received, SyncProcess.acknowledged] using heq
      · obtain ⟨htrue, hin, hleaf⟩ := hcalls call hmem
        exact ⟨htrue, hleaf, (hc.aligned y).next_answers (answers_of_channel channel) _ hin⟩
    · exact ⟨[], by simp [acknowledge, setPeer], by simp⟩

/-- The answers that an action adds. -/
theorem Stepped.new_answers {a : SyncAction d} (h : Stepped c a c') (y : Side) :
    ∃ new, (c'.log y).answered = (c.log y).answered ++ new ∧
      ∀ e ∈ new, e.2 = unknown (c.peer y.other).set.trie e.1 := by
  have hnone : (c'.log y).answered = (c.log y).answered → ∃ new, (c'.log y).answered
      = (c.log y).answered ++ new ∧ ∀ e ∈ new, e.2 = unknown (c.peer y.other).set.trie e.1 :=
    fun he => ⟨[], by rw [he, List.append_nil], by simp⟩
  cases h with
  | @answered x message rest channel =>
    rcases Side.eq_or_other x y with rfl | rfl
    · exact hnone (by simp [answerSubtrie, setPeer])
    · refine ⟨(entries d message).map fun h => (h, unknown (c.peer x).set.trie h),
        by simp [answerSubtrie, setPeer], fun e he => ?_⟩
      obtain ⟨k, -, rfl⟩ := List.mem_map.mp he
      rw [Side.other_other]
  | @cut x buffersize dropped rest top buffer size pending lost found =>
    rcases Side.eq_or_other x y with rfl | rfl <;> exact hnone (by simp [sendSubtrie, setPeer])
  | @uncut x buffersize pending =>
    rcases Side.eq_or_other x y with rfl | rfl <;> exact hnone (by simp [sendSubtrie, setPeer])
  | @acked x buffer number rest r channel root =>
    rcases Side.eq_or_other x y with rfl | rfl <;> exact hnone (by simp [acknowledge, setPeer])
  | idle => exact hnone rfl
  | polled root => exact hnone rfl
  | replied bits size => exact hnone rfl
  | compared root => exact hnone rfl
  | changed => exact hnone rfl

/-- **Answers never slip against hashes**, whatever happens to the sets between the calls. -/
theorem acks_never_slip (hash : CryptoHash d) (fresh : Digest d) (fuel : Nat) (A B : SetState d)
    (hA : A.trie.storage.failure = none) (hB : B.trie.storage.failure = none)
    (actions : List (SyncAction d)) (ha : ∀ a ∈ actions, a.Works) :
    let r := SyncAction.run hash fresh fuel actions (start A B)
    (∃ us, r.outcome = .ok us) ∧ ∀ x : Side,
      (r.state.log x).acked <+: (r.state.log x).answered ∧
      (r.state.log x).answered.map Prod.fst <+: (r.state.log x).sent ∧
      (r.state.peer x).sync.sentHashes.length = ((r.state.subtries x).flatMap (entries d)).length
        + (r.state.peer x.other).sync.pendingAcks.length
        + ((r.state.acks x.other).map Prod.snd).sum ∧
      ∀ a : SyncAction d, a.Works → ∃ calls,
        ((a.exec hash fresh fuel r.state).state.peer x).handled = (r.state.peer x).handled ++ calls ∧
        ∀ call ∈ calls, call.2 = true ∧
          (KeyValueTrie.contains call.1 (r.state.peer x).set.trie).outcome = .ok .LEAF_NODE ∧
          (call.1, true) ∈ (r.state.log x).answered := by
  obtain ⟨us, c, hrun, hc, -⟩ := run_keeps hash fresh fuel (J := fun _ => True) ha
    (fun _ _ _ _ _ _ _ => trivial) (synced_start hA hB) trivial
  intro r
  have hr : r = ⟨.ok us, c, []⟩ := hrun
  rw [hr]
  refine ⟨⟨us, rfl⟩, fun x => ⟨(hc.aligned x).acked_begins, ?_, ?_, fun a hworks => ?_⟩⟩
  · have hreq := (hc.aligned x).requests
    exact ⟨_, hreq.symm⟩
  · have hlen := (hc.aligned x).length_waiting
    have hsum := sum_length_ackBits (c.acks x.other)
    simp only [pipeline] at hlen
    show (c.peer x).sync.sentHashes.length = ((c.subtries x).flatMap (entries d)).length
      + (c.peer x.other).sync.pendingAcks.length + ((c.acks x.other).map Prod.snd).sum
    omega
  · obtain ⟨c', hexec, hstep⟩ := exec_ok hash fresh fuel hc a hworks
    obtain ⟨calls, heq, hcalls⟩ := hstep.handled hc x
    rw [hexec]
    refine ⟨calls, heq, fun call hmem => ?_⟩
    obtain ⟨htrue, hleaf, hin⟩ := hcalls call hmem
    refine ⟨htrue, ?_, hin⟩
    rw [contains_record (hc.works x), hleaf]

end Any

/-- A set whose trie was built by additions. -/
def setWith (keys : List (Digest 16)) : SetState 16 :=
  { SetState.create 16 8 1 false 4 with
    trie := (runTrie (mixHash 16) (byteKey 16 0) 256 (keys.map .add)).state }

theorem setWith_trie (keys : List (Digest 16)) :
    (setWith keys).trie = (runTrie (mixHash 16) (byteKey 16 0) 256 (keys.map .add)).state := rfl

/-- The second side loses its key after it has answered. -/
def erasedActions : List (SyncAction 16) :=
  [.poll .A, .getSubTrie .A 32, .processSubTrie .B, .change .B (setWith []), .readSomeTrieAcks .B 1,
    .processAcks .A]

theorem acks_never_slip_sample :
    ((SyncAction.run (mixHash 16) (byteKey 16 0) 256 erasedActions
      (start (setWith [byteKey 16 1, byteKey 16 2]) (setWith [byteKey 16 1]))).state.log .A).acked <+:
    ((SyncAction.run (mixHash 16) (byteKey 16 0) 256 erasedActions
      (start (setWith [byteKey 16 1, byteKey 16 2]) (setWith [byteKey 16 1]))).state.log .A).answered :=
  ((acks_never_slip (mixHash 16) (byteKey 16 0) 256 (setWith [byteKey 16 1, byteKey 16 2])
    (setWith [byteKey 16 1]) (by decide +kernel) (by decide +kernel) erasedActions (by
      simp only [erasedActions, List.forall_mem_cons, SyncAction.Works]
      refine ⟨trivial, trivial, trivial, by decide +kernel, trivial, trivial, by simp⟩)).2 .A).1

/-! ## Quiet states -/

/-- Neither side has output, waits for an answer, or has a message in flight. -/
def Quiet (c : SyncSystem d) : Prop := ∀ x,
  (SyncProcess.isSubtrieOutputAvailable (c.peer x)).outcome = .ok false ∧
    SyncProcess.isAckOutputAvailable (c.peer x) = false ∧
    SyncProcess.isSubtrieUnacked (c.peer x) = false ∧ c.subtries x = [] ∧ c.acks x = []

/-- `getRoot` finds a root. -/
def HasRoot (s : SetState d) : Prop := (KeyValueTrie.getRoot s.trie).outcome ≠ .ok none

/-- The two sets, by side. -/
def setOf (A B : SetState d) : Side → SetState d
  | .A => A
  | .B => B

/-- A trie that represents a set has a root unless the set is empty. -/
theorem hasRoot_iff {hash : CryptoHash d} {E : Digest d × Digest d → Prop} {K : Digest d → Prop}
    {s : SetState d} {S : Finset (Digest d)} {t : Option (Trie (Digest d))}
    (h : Represents hash E K s.trie S t) : HasRoot s ↔ S ≠ ∅ := by
  rw [HasRoot, ne_eq, ne_eq, not_iff_not, h.eq_empty_iff]
  cases t with
  | none =>
    have hsize : KeyValueTrie.getSize s.trie = ⟨.ok 0, s.trie, []⟩ := by
      rw [show (0 : Nat) = s.trie.size from (Holds.size h.stores).symm]
      rfl
    have hroot : KeyValueTrie.getRoot s.trie = ⟨.ok none, s.trie, []⟩ := by
      unfold KeyValueTrie.getRoot
      rw [Prog.bind_of_ok hsize]
      rfl
    simp [hroot]
  | some t => simp [getRoot_some h.stores]

section Quiet

variable {hash : CryptoHash d} {fresh : Digest d} {fuel : Nat} {c : SyncSystem d}

theorem Quiet.pending (h : Quiet c) (hc : Synced c) (x : Side)
    (hs : (c.peer x).sync.stat ≠ .START) : (c.peer x).sync.pendingSubtries = [] := by
  obtain ⟨r, hr⟩ := getRoot_total (hc.works x)
  have hpoll := (h x).1
  rw [SyncProcess.poll_ok hr] at hpoll
  simpa [SyncProcess.polled, hs] using hpoll

theorem Quiet.sent (h : Quiet c) (x : Side) : (c.peer x).sync.sentHashes = [] := by
  have hnone : ¬(c.peer x).sync.sentHashes.length > 0 := of_decide_eq_false (h x).2.2.1
  exact List.length_eq_zero_iff.mp (by omega)

theorem Quiet.no_root (h : Quiet c) (hc : Synced c) (x : Side)
    (hs : (c.peer x).sync.stat = .START) : ¬HasRoot (c.peer x).set := by
  obtain ⟨r, hr⟩ := getRoot_total (hc.works x)
  have hpoll := (h x).1
  rw [SyncProcess.poll_ok hr] at hpoll
  cases r with
  | none => simp [HasRoot, hr]
  | some root => simp [SyncProcess.polled, hs] at hpoll

/-- When a process is done that was not ended by `EQUAL`. -/
theorem done_iff {p : Peer d} (hne : p.sync.stat ≠ .EQUAL) :
    SyncProcess.done p = true ↔ p.sync.stat ≠ .START ∧ p.sync.pendingSubtries = [] ∧
      p.sync.pendingAcks = [] ∧ p.sync.sentHashes = [] := by
  unfold SyncProcess.done
  rw [if_neg hne]
  constructor
  · intro hdone
    by_cases hacks : p.sync.pendingAcks.length > 0
    · simp [hacks] at hdone
    by_cases hpending : p.sync.pendingSubtries.length > 0
    · simp [hacks, hpending] at hdone
    by_cases hsent : p.sync.sentHashes.length > 0
    · simp [hacks, hpending, hsent] at hdone
    by_cases hstart : p.sync.stat = .START
    · simp [hacks, hpending, hsent, hstart] at hdone
    exact ⟨hstart, List.length_eq_zero_iff.mp (by omega), List.length_eq_zero_iff.mp (by omega),
      List.length_eq_zero_iff.mp (by omega)⟩
  · rintro ⟨hstart, hpending, hacks, hsent⟩
    rw [hacks, hpending, hsent]
    simp [hstart]

/-- In a quiet state a side is done when it has left `START`. -/
theorem Quiet.done_iff (h : Quiet c) (hc : Synced c) (x : Side) :
    SyncProcess.done (c.peer x) = true ↔ (c.peer x).sync.stat ≠ .START := by
  obtain ⟨-, hacks, hsent, -, -⟩ := h x
  have h1 : ¬(c.peer x).sync.pendingAcks.length > 0 := of_decide_eq_false hacks
  have h2 : ¬(c.peer x).sync.sentHashes.length > 0 := of_decide_eq_false hsent
  unfold SyncProcess.done
  by_cases hs : (c.peer x).sync.stat = .START
  · simp [hs]
  · have h3 := h.pending hc x hs
    simp [hs, h1, h2, h3]

/-- A side leaves `START` only when its trie has a root. -/
structure Rooted (sets : Side → SetState d) (c : SyncSystem d) : Prop where
  set : ∀ x, (c.peer x).set = sets x
  root : ∀ x, (c.peer x).sync.stat ≠ .START → HasRoot (sets x)

/-- The actions that leave the sets alone. -/
def SyncAction.KeepsSets : SyncAction d → Prop
  | .insert _ _ | .change _ _ => False
  | _ => True

theorem SyncAction.KeepsSets.works {a : SyncAction d} (h : a.KeepsSets) : a.Works := by
  cases a with
  | insert x key => exact absurd h id
  | change x set => exact absurd h id
  | _ => exact trivial

theorem SyncAction.KeepsSets.ne_change {a : SyncAction d} (h : a.KeepsSets) :
    ∀ x set, a ≠ .change x set := by
  rintro x set rfl
  exact h

theorem Stepped.rooted {a : SyncAction d} {c' : SyncSystem d} {sets : Side → SetState d}
    (h : Stepped c a c') (ha : a.KeepsSets) (hc : Rooted sets c) : Rooted sets c' := by
  refine ⟨fun y => (h.set_eq ha.ne_change y).trans (hc.set y), fun y hs => ?_⟩
  -- `stat` of a peer that changed
  have hpeer : ∀ (x : Side) (p : Peer d), (p.sync.stat ≠ .START → HasRoot (sets x)) →
      ((setPeer x p c).peer y).sync.stat ≠ .START → HasRoot (sets y) := fun x p hp =>
    forall_setPeer (P := fun y p => p.sync.stat ≠ .START → HasRoot (sets y)) hc.root hp y
  have hkeep : ∀ (x : Side) (p : Peer d), p.sync.stat = (c.peer x).sync.stat →
      ((setPeer x p c).peer y).sync.stat ≠ .START → HasRoot (sets y) :=
    fun x p hp => hpeer x p fun hne => hc.root x (by rwa [← hp])
  have hfound : ∀ {x : Side} {root : Digest d}, KeyValueTrie.getRoot (c.peer x).set.trie
      = ⟨.ok (some root), (c.peer x).set.trie, []⟩ → HasRoot (sets x) := by
    intro x root hr
    rw [← hc.set x, HasRoot, hr]
    simp
  cases h with
  | idle => exact hc.root y hs
  | @polled x r root =>
    refine hpeer x _ (fun hp => ?_) hs
    by_cases hstart : (c.peer x).sync.stat = .START
    · cases r with
      | none =>
        rw [SyncProcess.polled, if_pos hstart] at hp
        exact absurd hstart hp
      | some root' => exact hfound root
    · exact hc.root x hstart
  | @uncut x buffersize pending => exact hkeep x (SyncProcess.noCut (c.peer x)) rfl hs
  | @cut x buffersize dropped rest top buffer size pending lost found =>
    exact hkeep x (SyncProcess.sentCut rest (buffer.take size) size (c.peer x)) rfl hs
  | @answered x message rest channel =>
    exact hkeep x (SyncProcess.answeredAll message (c.peer x)) rfl hs
  | @replied x length buffer number bits size =>
    exact hkeep x (SyncProcess.tookAcks number (c.peer x)) rfl hs
  | @acked x buffer number rest r channel root =>
    exact hkeep x (SyncProcess.received ((number + 7) / 8)
      (SyncProcess.acknowledged (SyncProcess.ackBits buffer number) r (c.peer x))) rfl hs
  | @compared x key r root =>
    refine hpeer x _ (fun hp => ?_) hs
    by_cases hr : r = some key
    · subst hr
      exact hfound root
    · rw [SyncProcess.compared, if_neg hr] at hp
      exact hc.root x hp
  | changed => exact absurd ha id

/-- **In every quiet state that is reached, both sides are done just when both tries have a root.** -/
theorem done_iff_rooted (hash : CryptoHash d) (fresh : Digest d) (fuel : Nat) (A B : SetState d)
    (hA : A.trie.storage.failure = none) (hB : B.trie.storage.failure = none)
    (actions : List (SyncAction d)) (ha : ∀ a ∈ actions, a.KeepsSets)
    (hq : Quiet (SyncAction.run hash fresh fuel actions (start A B)).state) :
    (∀ x, SyncProcess.done ((SyncAction.run hash fresh fuel actions (start A B)).state.peer x) = true)
      ↔ HasRoot A ∧ HasRoot B := by
  have hstart : Rooted (setOf A B) (start A B) := by
    refine ⟨fun x => by cases x <;> rfl, fun x hs => absurd ?_ hs⟩
    cases x <;> rfl
  obtain ⟨us, c, hrun, hc, hroot⟩ := run_keeps hash fresh fuel (J := Rooted (setOf A B))
    (fun a hmem => (ha a hmem).works) (fun a hmem c c' _ hj h => h.rooted (ha a hmem) hj)
    (synced_start hA hB) hstart
  rw [hrun] at hq
  simp only [hrun]
  have hside : ∀ x, SyncProcess.done (c.peer x) = true ↔ HasRoot (setOf A B x) := by
    intro x
    rw [hq.done_iff hc x]
    constructor
    · exact hroot.root x
    · intro h hs
      have hnot := hq.no_root hc x hs
      rw [hroot.set x] at hnot
      exact hnot h
  constructor
  · intro h
    exact ⟨(hside .A).mp (h .A), (hside .B).mp (h .B)⟩
  · rintro ⟨hrA, hrB⟩ x
    cases x
    · exact (hside .A).mpr hrA
    · exact (hside .B).mpr hrB

end Quiet

/-- Both sides search at the same time. -/
def crossedActions : List (SyncAction 16) :=
  [.poll .A, .poll .B, .getSubTrie .A 32, .getSubTrie .B 32, .processSubTrie .B, .processSubTrie .A,
    .readSomeTrieAcks .A 1, .readSomeTrieAcks .B 2, .processAcks .A, .processAcks .B]

/-- The state after `crossedActions`. -/
def crossed : SyncSystem 16 := (SyncAction.run (mixHash 16) (byteKey 16 0) 256 crossedActions
  (start (setWith [byteKey 16 1, byteKey 16 2]) (setWith [byteKey 16 2]))).state

theorem done_iff_rooted_sample :
    SyncProcess.done (crossed.peer .A) = true ∧ SyncProcess.done (crossed.peer .B) = true := by
  have hkeeps : ∀ a ∈ crossedActions, a.KeepsSets := by
    simp [crossedActions, SyncAction.KeepsSets]
  have hroot : HasRoot (setWith [byteKey 16 1, byteKey 16 2]) ∧ HasRoot (setWith [byteKey 16 2]) :=
    ⟨by unfold HasRoot; decide +kernel, by unfold HasRoot; decide +kernel⟩
  have hquiet : Quiet crossed := fun x => by cases x <;> decide +kernel
  unfold crossed at hquiet ⊢
  have hdone := (done_iff_rooted (mixHash 16) (byteKey 16 0) 256 (setWith [byteKey 16 1, byteKey 16 2])
    (setWith [byteKey 16 2]) (by decide +kernel) (by decide +kernel) crossedActions hkeeps hquiet).mpr hroot
  exact ⟨hdone .A, hdone .B⟩

/-- Two empty sets: nothing is left to do, and no side is ever done. -/
theorem empty_sets_never_done :
    Quiet (SyncAction.run (mixHash 16) (byteKey 16 0) 256 [.poll .A, .poll .B]
        (start (setWith []) (setWith []))).state ∧
      ¬∀ x, SyncProcess.done ((SyncAction.run (mixHash 16) (byteKey 16 0) 256 [.poll .A, .poll .B]
        (start (setWith []) (setWith []))).state.peer x) = true := by
  refine ⟨fun x => ?_, fun h => absurd (h .A) (by decide +kernel)⟩
  cases x <;> decide +kernel

end SetSync
