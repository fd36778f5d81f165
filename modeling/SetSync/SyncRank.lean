import SetSync.Lib.Splitting
import SetSync.StrictSync
import SetSync.SyncMoves

/-!
# The calls that are left

A rank of any state of the system whose tries are stored as they should be; its queues may hold hashes
that no trie has any more.  A pending hash is worth the calls for the subtrie below it, and a hash that is
gone is worth a new search, since it restarts at the root when it is acknowledged.

    Moved.callsLeft_lt   every call that finds something lowers it
    Moved.underway           and leaves a state that has a rank
-/

namespace SetSync

open Program BitTrie Splitting SyncSystem

variable {d : Nat}

/-- The keys a place stands for. -/
def keySet (u : Trie (Digest d)) : Set (Digest d) := {k | k ∈ u.keys}

theorem keySet_nonempty (u : Trie (Digest d)) : (keySet u).Nonempty := u.exists_mem_keys

/-! ## Subtries -/

/-- The number of leaves below a hash. -/
noncomputable def leavesBelow (s : TrieState d) (x : Digest d) : Nat := Set.ncard {k | LeafBelow s k x}

/-- What a pending hash is worth: its cut, and what its parts are worth. -/
noncomputable def pendingCost (s : TrieState d) (x : Digest d) : Nat := max 4 (7 * leavesBelow s x - 7)

/-- What the search from the root is worth. -/
noncomputable def rootCost (s : TrieState d) : Nat :=
  match (KeyValueTrie.getRoot s).outcome with
  | .ok (some root) => pendingCost s root
  | _ => 0

/-- What a hash is worth whose answer is on its way. -/
noncomputable def waitingCost (s : TrieState d) (x : Digest d) : Nat :=
  if absent s x then rootCost s else 7 * leavesBelow s x - 7

section Tries

variable {hash : CryptoHash d} {E : Digest d × Digest d → Prop} {K : Digest d → Prop}
  {s : TrieState d} {S : Finset (Digest d)} {t : Trie (Digest d)} {o : Option (Trie (Digest d))}

theorem Represents.keys_nodup_within (h : Represents hash E K s S (some t)) {u : Trie (Digest d)}
    (hu : Within t u) : u.keys.Nodup := by
  obtain ⟨fs, rfl⟩ := hu
  exact ((ordered_plug fs u).mp (h.ordered _ rfl)).2.ordered.keys_nodup

/-- The hashes in the buffer are parts of the subtrie, several for an inner node. -/
theorem cut_parts (hs : Separated hash.pair (Hashes E) K) (h : Represents hash E K s S (some t))
    {u : Trie (Digest d)} (hu : Within t u) {buffersize : Nat} (hbuf : 2 ≤ buffersize / d)
    {buffer : Bytes} {size : Nat}
    (hcut : KeyValueTrie.getSubTrie u.label buffersize s = ⟨.ok (buffer, size), s, []⟩) :
    ∃ us : List (Trie (Digest d)), entries d (buffer.take size) = us.map Trie.label ∧
      (∀ v ∈ us, Within t v) ∧ (keysBelow us).Perm u.keys ∧ Parts (keySet u) (us.map keySet) ∧
      1 ≤ us.length ∧ (IsNode u → 2 ≤ us.length) ∧ size = us.length * d := by
  have hnodup := h.keys_nodup_within hu
  obtain ⟨fs, hplug⟩ := hu
  obtain ⟨us, hrun, hplaces, hperm, hone, -, htwo⟩ := getSubTrie_ok h.stores (h.nodup hs) hplug hbuf
  rw [hrun] at hcut
  obtain ⟨rfl, rfl⟩ := Prod.mk.inj (Outcome.ok.inj (congrArg Run.outcome hcut))
  have hread := entries_take (pos_of_room hbuf) (us.map Trie.label)
  rw [List.length_map] at hread
  refine ⟨us, hread, hplaces, hperm, ⟨?_, ?_, ?_⟩, hone, htwo, rfl⟩
  · intro p hp
    obtain ⟨v, -, rfl⟩ := List.mem_map.mp hp
    exact keySet_nonempty v
  · have hdisj : us.Pairwise fun v w => v.keys.Disjoint w.keys :=
      (List.nodup_flatMap.mp (hperm.nodup_iff.mpr hnodup)).2
    exact List.pairwise_map.mpr (hdisj.imp fun hvw => Set.disjoint_left.mpr hvw)
  · intro p hp k hk
    obtain ⟨v, hv, rfl⟩ := List.mem_map.mp hp
    exact hperm.subset (List.mem_flatMap.mpr ⟨v, hv, hk⟩)

theorem leavesBelow_within (hs : Separated hash.pair (Hashes E) K)
    (h : Represents hash E K s S (some t)) {u : Trie (Digest d)} (hu : Within t u) :
    leavesBelow s u.label = u.keys.length := by
  have hnodup := h.keys_nodup_within hu
  have hn := h.nodup hs
  obtain ⟨fs, rfl⟩ := hu
  have hset : {k | LeafBelow s k u.label} = (u.keys.toFinset : Set (Digest d)) := by
    ext k
    simp [leafBelow_iff fs h.stores hn]
  rw [leavesBelow, hset, Set.ncard_coe_finset, List.toFinset_card_of_nodup hnodup]

/-- A hash whose cut is sent names a place. -/
theorem within_of_cut (hs : Separated hash.pair (Hashes E) K) (h : Represents hash E K s S o)
    {x : Digest d} {buffersize : Nat} (hbuf : 2 ≤ buffersize / d) {cut : Bytes × Nat}
    (hcut : KeyValueTrie.getSubTrie x buffersize s = ⟨.ok cut, s, []⟩) :
    ∃ t u, o = some t ∧ Within t u ∧ u.label = x := by
  refine within_of_known h (Bool.eq_false_iff.mpr fun hgone => ?_)
  exact SyncProcess.not_uncut_of_ok hcut ((uncut_iff hs h hbuf x).mpr hgone)

theorem sum_costs (us : List (Trie (Digest d))) :
    (us.map fun u => 7 * u.keys.length - 7).sum + 7 * us.length = 7 * (keysBelow us).length := by
  induction us with
  | nil => rfl
  | cons u us ih =>
    have hpos : 0 < u.keys.length := List.length_pos_of_ne_nil u.keys_ne_nil
    rw [List.map_cons, List.sum_cons, List.length_cons, keysBelow_cons, List.length_append]
    omega

/-- **A cut is worth more than the hashes it sends**, at three calls more for each of them. -/
theorem cut_cost (hs : Separated hash.pair (Hashes E) K) (h : Represents hash E K s S o)
    {top : Digest d} {buffersize : Nat} (hbuf : 2 ≤ buffersize / d) {buffer : Bytes} {size : Nat}
    (hcut : KeyValueTrie.getSubTrie top buffersize s = ⟨.ok (buffer, size), s, []⟩) :
    3 * (entries d (buffer.take size)).length
      + ((entries d (buffer.take size)).map (waitingCost s)).sum < pendingCost s top ∧
    entries d (buffer.take size) ≠ [] := by
  obtain ⟨t, u, rfl, hu, rfl⟩ := within_of_cut hs h hbuf hcut
  obtain ⟨us, hread, hplaces, hperm, -, hone, htwo, -⟩ := cut_parts hs h hu hbuf hcut
  have hwaiting : ∀ v ∈ us, waitingCost s v.label = 7 * v.keys.length - 7 := by
    intro v hv
    have htype := nodeType_within hs h (hplaces v hv)
    have hthere : absent s v.label = false := by
      unfold absent
      rw [htype]
      split <;> rfl
    rw [waitingCost, hthere, leavesBelow_within hs h (hplaces v hv)]
    rfl
  have hsum := sum_costs us
  rw [hperm.length_eq] at hsum
  rw [hread, List.map_map, List.length_map, List.map_congr_left (g := fun v => 7 * v.keys.length - 7)
    hwaiting, pendingCost, leavesBelow_within hs h hu]
  refine ⟨?_, fun hnil => ?_⟩
  · cases u with
    | leaf k =>
      have hkeys : (Trie.leaf k).keys.length = 1 := rfl
      rw [hkeys] at hsum ⊢
      omega
    | node lab p m st l r =>
      have hsome := htwo ⟨lab, p, m, st, l, r, rfl⟩
      omega
  · rw [List.map_eq_nil_iff.mp hnil] at hone
    exact Nat.not_succ_le_zero 0 hone

theorem rootCost_eq {r : Option (Digest d)} (hr : KeyValueTrie.getRoot s = ⟨.ok r, s, []⟩) :
    (r.toList.map (pendingCost s)).sum = rootCost s := by
  unfold rootCost
  rw [hr]
  cases r <;> simp

theorem Represents.length_keys (h : Represents hash E K s S (some t)) : t.keys.length = S.card := by
  have hset : t.keys.toFinset = S := by
    ext k
    rw [List.mem_toFinset]
    exact h.keys k
  rw [← hset, List.toFinset_card_of_nodup (h.ordered t rfl).keys_nodup]

theorem rootCost_le (hs : Separated hash.pair (Hashes E) K) (h : Represents hash E K s S o) :
    rootCost s ≤ 7 * S.card := by
  rw [← rootCost_eq h.getRoot_eq]
  cases o with
  | none => exact Nat.zero_le _
  | some t =>
    have hkeys := h.length_keys
    have hpos : 0 < t.keys.length := List.length_pos_of_ne_nil t.keys_ne_nil
    show pendingCost s t.label + 0 ≤ _
    rw [pendingCost, leavesBelow_within hs h (Within.refl t)]
    omega

/-- **An acknowledged hash** is worth what becomes pending. -/
theorem ack_cost (hs : Separated hash.pair (Hashes E) K) (h : Represents hash E K s S o)
    {r : Option (Digest d)} (hr : KeyValueTrie.getRoot s = ⟨.ok r, s, []⟩)
    (w : List (Digest d) × DiffHandler d) (e : Digest d × Bool) :
    ((SyncProcess.ackStep s r w e).1.map (pendingCost s)).sum
      ≤ (w.1.map (pendingCost s)).sum + waitingCost s e.1 := by
  obtain ⟨x, b⟩ := e
  cases b with
  | false => exact Nat.le_add_right _ _
  | true =>
    cases htype : nodeType (s.record x) with
    | LEAF_NODE =>
      have hstep : (SyncProcess.ackStep s r w (x, true)).1 = w.1 := by
        simp [SyncProcess.ackStep, htype]
      rw [hstep]
      exact Nat.le_add_right _ _
    | INNER_NODE =>
      have hstep : (SyncProcess.ackStep s r w (x, true)).1 = x :: w.1 := by
        simp [SyncProcess.ackStep, htype]
      have hthere : absent s x = false := by
        rw [absent, htype]
        rfl
      obtain ⟨t, u, rfl, hu, rfl⟩ := within_of_known h ((unknown_eq_absent h.failure x).trans hthere)
      have hkind := nodeType_within hs h hu
      rw [htype] at hkind
      have htwo : 2 ≤ u.keys.length := by
        cases u with
        | leaf k => cases hkind
        | node lab p m st l r' =>
          have hl : 0 < l.keys.length := List.length_pos_of_ne_nil l.keys_ne_nil
          have hr' : 0 < r'.keys.length := List.length_pos_of_ne_nil r'.keys_ne_nil
          rw [Trie.keys, List.length_append]
          omega
      rw [hstep, List.map_cons, List.sum_cons, waitingCost, hthere, pendingCost,
        leavesBelow_within hs h hu]
      simp only [Bool.false_eq_true, if_false]
      omega
    | NOT_FOUND =>
      -- the search starts again
      have hstep : (SyncProcess.ackStep s r w (x, true)).1 = r.toList := by
        simp [SyncProcess.ackStep, htype]
      have hgone : absent s x = true := by
        rw [absent, htype]
        rfl
      rw [hstep, rootCost_eq hr, waitingCost, if_pos hgone]
      exact Nat.le_add_left _ _

theorem acks_cost (hs : Separated hash.pair (Hashes E) K) (h : Represents hash E K s S o)
    {r : Option (Digest d)} (hr : KeyValueTrie.getRoot s = ⟨.ok r, s, []⟩)
    (l : List (Digest d × Bool)) (w : List (Digest d) × DiffHandler d) :
    ((l.foldl (SyncProcess.ackStep s r) w).1.map (pendingCost s)).sum
      ≤ (w.1.map (pendingCost s)).sum + (l.map fun e => waitingCost s e.1).sum := by
  induction l generalizing w with
  | nil => exact Nat.le_add_right _ _
  | cons e l ih =>
    have hstep := ack_cost hs h hr w e
    have hrest := ih (SyncProcess.ackStep s r w e)
    rw [List.foldl_cons, List.map_cons, List.sum_cons]
    omega

end Tries

/-! ## The rank -/

/-- What is left of one side's search: the root, pending hashes, hashes that wait, and the messages for
them. -/
noncomputable def searchCost (s : TrieState d) (stat : SyncStatus) (pending : List (Digest d))
    (p : Pipeline (Digest d) Bool) : Nat :=
  (if stat = .START then 1 + rootCost s else 0) + (pending.map (pendingCost s)).sum
    + (p.waiting.map (waitingCost s)).sum + 3 * p.requests.length + 2 * p.queued.length
    + p.answers.length

noncomputable def callsOf (x : Side) (c : SyncSystem d) : Nat :=
  searchCost (c.peer x).set.trie (c.peer x).sync.stat (c.peer x).sync.pendingSubtries (c.pipeline x)

/-- A bound of the calls that find something while the sets stay. -/
noncomputable def callsLeft (c : SyncSystem d) : Nat := callsOf .A c + callsOf .B c

/-- A state of a run whose tries are stored as they should be, and whose messages are not empty. -/
structure Underway (hash : CryptoHash d) (E : Digest d × Digest d → Prop) (K : Digest d → Prop)
    (c : SyncSystem d) : Prop where
  synced : Synced c
  rep : ∀ x, ∃ S t, Represents hash E K (c.peer x).set.trie S t
  filled : ∀ x, ∀ m ∈ c.subtries x, entries d m ≠ []
  asked : ∀ x, ∀ m ∈ c.acks x, 1 ≤ m.2
  started : ∀ x, (c.peer x).sync.stat = .START → (c.peer x).sync.pendingSubtries = [] ∧
    (c.peer x).sync.sentHashes = []

section Moves

variable {hash : CryptoHash d} {E : Digest d × Digest d → Prop} {K : Digest d → Prop}
  {c c' : SyncSystem d} {a : SyncAction d}

theorem callsLeft_lt (x : Side) (hx : callsOf x c' < callsOf x c)
    (hother : callsOf x.other c' ≤ callsOf x.other c) : callsLeft c' < callsLeft c := by
  unfold callsLeft
  cases x
  · exact Nat.add_lt_add_of_lt_of_le hx hother
  · exact Nat.add_lt_add_of_le_of_lt hother hx

/-- What a call on `x` leaves of the other side's search. -/
theorem searchCost_setPeer {x : Side} {p : Peer d} (hpeer : c'.peer = (setPeer x p c).peer)
    (hset : p.set = (c.peer x).set) (hstat : p.sync.stat = (c.peer x).sync.stat)
    (hpending : p.sync.pendingSubtries = (c.peer x).sync.pendingSubtries)
    (q : Pipeline (Digest d) Bool) (y : Side) :
    searchCost (c'.peer y).set.trie (c'.peer y).sync.stat (c'.peer y).sync.pendingSubtries q
      = searchCost (c.peer y).set.trie (c.peer y).sync.stat (c.peer y).sync.pendingSubtries q := by
  rw [hpeer]
  rcases Side.eq_or_other x y with rfl | rfl
  · simp [setPeer, hset, hstat, hpending]
  · simp [setPeer]

/-- **Every call that finds something lowers the rank.** -/
theorem Moved.callsLeft_lt (hs : Separated hash.pair (Hashes E) K) (h : Moved c a c') (ha : a.IsCall)
    (hc : Underway hash E K c) : callsLeft c' < callsLeft c := by
  have hworks : ∀ x, (c.peer x).set.trie.storage.failure = none := hc.synced.works
  cases h with
  | @polled x root start found =>
    have hpipe := pipeline_setPeer (c := c) (polled_sync (some root) (c.peer x)).1
      (polled_sync (some root) (c.peer x)).2.1
    have hroot := rootCost_eq found
    refine SetSync.callsLeft_lt x ?_ (Nat.le_of_eq ?_)
    · unfold callsOf
      rw [hpipe x]
      simp [setPeer, SyncProcess.polled, start, searchCost] at hroot ⊢
      omega
    · unfold callsOf
      rw [hpipe x.other]
      simp [setPeer]
  | @uncut x buffersize some pending =>
    have hpipe := @pipeline_sendSubtrie _ c x [] (SyncProcess.noCut (c.peer x))
      (by rw [entries_nil, List.append_nil]; rfl) rfl
    have hcost : 0 < ((c.peer x).sync.pendingSubtries.map
        (pendingCost (c.peer x).set.trie)).sum := by
      obtain ⟨z, hz⟩ := List.exists_mem_of_ne_nil _ some
      have hle := List.single_le_sum (fun _ _ => Nat.zero_le _) _
        (List.mem_map_of_mem (f := pendingCost (c.peer x).set.trie) hz)
      have hmax : 4 ≤ pendingCost (c.peer x).set.trie z := Nat.le_max_left _ _
      omega
    refine SetSync.callsLeft_lt x ?_ (Nat.le_of_eq ?_)
    · unfold callsOf
      rw [hpipe x, if_pos rfl, entries_nil]
      simp only [List.append_nil]
      simp [sendSubtrie, setPeer, SyncProcess.noCut, searchCost]
      omega
    · unfold callsOf
      rw [hpipe x.other, if_neg (Side.other_ne x)]
      simp [sendSubtrie, setPeer]
  | @cut x buffersize dropped rest top buffer size pending lost found =>
    obtain ⟨S, t, ht⟩ := hc.rep x
    obtain ⟨hcost, -⟩ := cut_cost hs ht ha found
    have hpipe := @pipeline_sendSubtrie _ c x (buffer.take size)
      (SyncProcess.sentCut rest (buffer.take size) size (c.peer x)) rfl rfl
    refine SetSync.callsLeft_lt x ?_ (Nat.le_of_eq ?_)
    · unfold callsOf
      rw [hpipe x, if_pos rfl, pending]
      simp [sendSubtrie, setPeer, SyncProcess.sentCut, searchCost]
      omega
    · unfold callsOf
      rw [hpipe x.other, if_neg (Side.other_ne x)]
      simp [sendSubtrie, setPeer]
  | @answered x message rest channel =>
    have hpipe := @pipeline_answerSubtrie _ c x message rest
      (SyncProcess.answeredAll message (c.peer x)) rfl (by
        rw [show unknown (c.peer x).set.trie = absent (c.peer x).set.trie from
          funext fun y => unknown_eq_absent (hworks x) y]
        rfl)
    have hsome : 0 < (entries d message).length := List.length_pos_of_ne_nil
      (hc.filled x.other message (by rw [channel]; exact List.mem_cons_self))
    have hrequests : (c.pipeline x.other).requests.length
        = (entries d message).length + (rest.flatMap (entries d)).length := by
      show ((c.subtries x.other).flatMap (entries d)).length = _
      rw [channel, List.flatMap_cons, List.length_append]
    have hpeer := @searchCost_setPeer d c (answerSubtrie x message rest (c.peer x).set.trie
      (setPeer x (SyncProcess.answeredAll message (c.peer x)) c)) x _ rfl rfl rfl rfl
    refine SetSync.callsLeft_lt x.other ?_ (Nat.le_of_eq ?_)
    · unfold callsOf
      rw [hpipe x.other, if_pos rfl, hpeer]
      simp only [searchCost, List.length_append, List.length_map]
      omega
    · unfold callsOf
      rw [Side.other_other, hpipe x, if_neg (Side.ne_other x), hpeer]
  | @replied x length buffer number pos bits size =>
    have hpipe := @pipeline_sendAcks _ c x (buffer, number) number
      (SyncProcess.tookAcks number (c.peer x)) rfl rfl
    have hbits := congrArg List.length bits
    rw [SyncProcess.ackBits, List.length_map, List.length_range, List.length_take] at hbits
    have hqueued : (c.pipeline x.other).queued = (c.peer x).sync.pendingAcks := by
      show (c.peer x.other.other).sync.pendingAcks = _
      rw [Side.other_other]
    have hpeer := @searchCost_setPeer d c (sendAcks x (buffer, number)
      (setPeer x (SyncProcess.tookAcks number (c.peer x)) c)) x _ rfl rfl rfl rfl
    refine SetSync.callsLeft_lt x.other ?_ (Nat.le_of_eq ?_)
    · unfold callsOf
      rw [hpipe x.other, if_pos rfl, hqueued, hpeer]
      simp only [searchCost, hqueued, List.length_append, List.length_drop, SyncProcess.ackBits,
        List.length_map, List.length_range]
      omega
    · unfold callsOf
      rw [Side.other_other, hpipe x, if_neg (Side.ne_other x), hpeer]
  | @acked x buffer number rest r channel root =>
    obtain ⟨S, t, ht⟩ := hc.rep x
    have hbits : (SyncProcess.ackBits buffer number).length = number := by
      rw [SyncProcess.ackBits, List.length_map, List.length_range]
    have hpipe := @pipeline_acknowledge _ c x (SyncProcess.ackBits buffer number) rest
      (SyncProcess.received ((number + 7) / 8)
        (SyncProcess.acknowledged (SyncProcess.ackBits buffer number) r (c.peer x))) rfl rfl
    have hpos : 1 ≤ number := hc.asked x.other (buffer, number) (by rw [channel]; exact List.mem_cons_self)
    have hanswers := congrArg List.length (answers_of_channel channel)
    rw [List.length_append, hbits] at hanswers
    -- what the hashes were worth pays for what becomes pending
    have hle := hc.synced.number_le channel
    have hcost := acks_cost hs ht root (((c.peer x).sync.sentHashes.take
      (SyncProcess.ackBits buffer number).length).zip (SyncProcess.ackBits buffer number))
      ((c.peer x).sync.pendingSubtries, (c.peer x).handled)
    have hfst : (((c.peer x).sync.sentHashes.take (SyncProcess.ackBits buffer number).length).zip
        (SyncProcess.ackBits buffer number)).map (fun e => waitingCost (c.peer x).set.trie e.1)
        = ((c.peer x).sync.sentHashes.take number).map (waitingCost (c.peer x).set.trie) := by
      show List.map (waitingCost (c.peer x).set.trie ∘ Prod.fst) _ = _
      rw [← List.map_map, List.map_fst_zip (by rw [List.length_take]; omega), hbits]
    have hsplit : (((c.peer x).sync.sentHashes.take number).map
          (waitingCost (c.peer x).set.trie)).sum
        + (((c.peer x).sync.sentHashes.drop number).map (waitingCost (c.peer x).set.trie)).sum
        = ((c.peer x).sync.sentHashes.map (waitingCost (c.peer x).set.trie)).sum := by
      rw [← List.sum_append, ← List.map_append, List.take_append_drop]
    rw [hfst] at hcost
    simp only at hcost
    refine SetSync.callsLeft_lt x ?_ (Nat.le_of_eq ?_)
    · unfold callsOf
      rw [hpipe x, if_pos rfl, hbits]
      simp only [searchCost, acknowledge, setPeer, SyncProcess.received, SyncProcess.acknowledged,
        Function.update_self]
      have hwaiting : (c.pipeline x).waiting = (c.peer x).sync.sentHashes := rfl
      rw [hwaiting]
      omega
    · unfold callsOf
      rw [hpipe x.other, if_neg (Side.other_ne x)]
      simp [acknowledge, setPeer]

/-- No subtrie without a hash is sent. -/
theorem Moved.filled (hs : Separated hash.pair (Hashes E) K) (h : Moved c a c') (ha : a.IsCall)
    (hc : Underway hash E K c) (y : Side) : ∀ m ∈ c'.subtries y, entries d m ≠ [] := by
  have hy := hc.filled y
  cases h with
  | polled start found => exact hy
  | @uncut x buffersize some pending => simpa [sendSubtrie, setPeer] using hy
  | @cut x buffersize dropped rest top buffer size pending lost found =>
    obtain ⟨S, t, ht⟩ := hc.rep x
    obtain ⟨-, hsome⟩ := cut_cost hs ht ha found
    rcases Side.eq_or_other x y with rfl | rfl
    · intro m hm
      simp only [sendSubtrie, setPeer, Function.update_self] at hm
      split at hm
      · exact hy m hm
      · rcases List.mem_append.mp hm with hm | hm
        · exact hy m hm
        · rw [List.mem_singleton.mp hm]
          exact hsome
    · simpa [sendSubtrie, setPeer] using hy
  | @answered x message rest channel =>
    rcases Side.eq_or_other x y with rfl | rfl
    · simpa [answerSubtrie, setPeer] using hy
    · intro m hm
      simp only [answerSubtrie, setPeer, Function.update_self] at hm
      exact hy m (by rw [channel]; exact List.mem_cons_of_mem _ hm)
  | replied pos bits size => exact hy
  | acked channel root => exact hy

/-- No message without an answer is sent. -/
theorem Moved.asked (h : Moved c a c') (hc : ∀ x, ∀ m ∈ c.acks x, 1 ≤ m.2) (y : Side) :
    ∀ m ∈ c'.acks y, 1 ≤ m.2 := by
  have hy := hc y
  cases h with
  | @replied x length buffer number pos bits size =>
    rcases Side.eq_or_other x y with rfl | rfl
    · intro m hm
      simp only [sendAcks, setPeer, Function.update_self] at hm
      rcases List.mem_append.mp hm with hm | hm
      · exact hy m hm
      · rw [List.mem_singleton.mp hm]
        exact pos
    · simpa [sendAcks, setPeer] using hy
  | @acked x buffer number rest r channel root =>
    rcases Side.eq_or_other x y with rfl | rfl
    · simpa [acknowledge, setPeer] using hy
    · intro m hm
      simp only [acknowledge, setPeer, Function.update_self] at hm
      exact hy m (by rw [channel]; exact List.mem_cons_of_mem _ hm)
  | polled start found => exact hy
  | uncut some pending => exact hy
  | cut pending lost found => exact hy
  | answered channel => exact hy

/-- Before its search a side has nothing pending, and waits for nothing. -/
theorem Moved.started (h : Moved c a c') (hc : Underway hash E K c) (y : Side)
    (hstart : (c'.peer y).sync.stat = .START) :
    (c'.peer y).sync.pendingSubtries = [] ∧ (c'.peer y).sync.sentHashes = [] := by
  have hpeer : ∀ (x : Side) (p : Peer d), (p.sync.stat = .START →
      p.sync.pendingSubtries = [] ∧ p.sync.sentHashes = []) →
      ((setPeer x p c).peer y).sync.stat = .START → ((setPeer x p c).peer y).sync.pendingSubtries = []
        ∧ ((setPeer x p c).peer y).sync.sentHashes = [] := fun x p hp =>
    forall_setPeer (P := fun _ p => p.sync.stat = .START → p.sync.pendingSubtries = []
      ∧ p.sync.sentHashes = []) hc.started hp y
  cases h with
  | @polled x root start found =>
    exact hpeer x _ (fun hs => absurd hs (by simp [SyncProcess.polled, start])) hstart
  | @uncut x buffersize some pending =>
    exact hpeer x (SyncProcess.noCut (c.peer x)) (fun hs => ⟨rfl, (hc.started x hs).2⟩) hstart
  | @cut x buffersize dropped rest top buffer size pending lost found =>
    refine hpeer x (SyncProcess.sentCut rest (buffer.take size) size (c.peer x)) (fun hs => ?_) hstart
    have hnil := (hc.started x hs).1
    rw [hnil] at pending
    exact absurd pending.symm (by simp)
  | @answered x message rest channel =>
    exact hpeer x (SyncProcess.answeredAll message (c.peer x)) (hc.started x) hstart
  | @replied x length buffer number pos bits size =>
    exact hpeer x (SyncProcess.tookAcks number (c.peer x)) (hc.started x) hstart
  | @acked x buffer number rest r channel root =>
    refine hpeer x (SyncProcess.received ((number + 7) / 8)
      (SyncProcess.acknowledged (SyncProcess.ackBits buffer number) r (c.peer x))) (fun hs => ?_) hstart
    -- nothing waits for the answers
    have hnil := (hc.started x hs).2
    have hle := hc.synced.number_le channel
    have hpos := hc.asked x.other (buffer, number) (by rw [channel]; exact List.mem_cons_self)
    rw [hnil, List.length_nil] at hle
    omega

/-- **The rank stays defined.** -/
theorem Moved.underway (hs : Separated hash.pair (Hashes E) K) (h : Moved c a c') (ha : a.IsCall)
    (hc : Underway hash E K c) : Underway hash E K c' where
  synced := h.stepped.synced hc.synced ha.keepsSets.works
  rep := fun x => by
    rw [h.stepped.set_eq ha.keepsSets.ne_change x]
    exact hc.rep x
  filled := h.filled hs ha hc
  asked := h.asked hc.asked
  started := h.started hc

theorem underway_start {A B : SetState d} (hrep : ∀ x, ∃ S t, Represents hash E K (setOf A B x).trie S t) :
    Underway hash E K (start A B) where
  synced := by
    obtain ⟨_, _, hA⟩ := hrep .A
    obtain ⟨_, _, hB⟩ := hrep .B
    exact synced_start hA.failure hB.failure
  rep := fun x => by
    cases x
    · exact hrep .A
    · exact hrep .B
  filled := fun x m hm => absurd hm List.not_mem_nil
  asked := fun x m hm => absurd hm List.not_mem_nil
  started := fun x _ => by cases x <;> exact ⟨rfl, rfl⟩

/-- **What is left at the start**: the polls, and seven calls for each key. -/
theorem callsLeft_start (hs : Separated hash.pair (Hashes E) K) {A B : SetState d}
    {S : Side → Finset (Digest d)} {t : Side → Option (Trie (Digest d))}
    (hrep : ∀ x, Represents hash E K (setOf A B x).trie (S x) (t x)) :
    callsLeft (start A B) ≤ 2 + 7 * ((S .A).card + (S .B).card) := by
  have hA := rootCost_le hs (hrep .A)
  have hB := rootCost_le hs (hrep .B)
  have hcalls : callsLeft (start A B) = (1 + rootCost A.trie + 0 + 0 + 0 + 0 + 0)
    + (1 + rootCost B.trie + 0 + 0 + 0 + 0 + 0) := rfl
  rw [hcalls]
  show 1 + rootCost (setOf A B .A).trie + 0 + 0 + 0 + 0 + 0
    + (1 + rootCost (setOf A B .B).trie + 0 + 0 + 0 + 0 + 0) ≤ _
  omega

end Moves

end SetSync
