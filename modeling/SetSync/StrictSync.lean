import SetSync.SetInsert
import SetSync.SyncRuns

/-!
# Strict synchronization

Two tries that do not change.  Each side searches its own trie: a pending or unacknowledged hash is a
subtrie whose keys are still in question, and the keys of the trie are at any time

    below pending hashes ++ below unacknowledged hashes ++ reported ++ known to the other side

A hash that the other side knows covers keys that it has, by collision freeness, so a search that has
come to its end has reported exactly the difference.

    Search        the accounting above                                  (Search.cut, Search.ack)
    a run         both searches, in any interleaving                           (Stepped.strict)
    strict_sync   what is reported, and equal roots after the exchange
-/

namespace SetSync

open Program BitTrie SyncSystem

variable {d : Nat}

/-! ## Two tries -/

section Tries

variable {hash : CryptoHash d} {E : Digest d × Digest d → Prop} {K : Digest d → Prop}
  {s s' : TrieState d} {S S' : Finset (Digest d)} {t : Trie (Digest d)}
  {o : Option (Trie (Digest d))}

/-- A place of a stored trie. -/
def Within (t u : Trie (Digest d)) : Prop := ∃ fs, plug fs u = t

theorem Within.refl (t : Trie (Digest d)) : Within t t := ⟨[], rfl⟩

theorem Represents.nodup (hs : Separated hash.pair (Hashes E) K) (h : Represents hash E K s S (some t)) :
    t.labels.Nodup := (h.wellFormed t rfl).nodup hash hs

/-- The kind of a node that is there. -/
theorem nodeType_within (hs : Separated hash.pair (Hashes E) K) (h : Represents hash E K s S (some t))
    {u : Trie (Digest d)} (hu : Within t u) :
    nodeType (s.record u.label) = if (u.entry (leafMask d) none).children.isSome then .INNER_NODE
      else .LEAF_NODE := by
  obtain ⟨fs, rfl⟩ := hu
  rw [record_of_plug fs h.stores (h.nodup hs), nodeType]
  cases u <;> rfl

/-- A place can be cut. -/
theorem not_uncut (hs : Separated hash.pair (Hashes E) K) (h : Represents hash E K s S (some t))
    {u : Trie (Digest d)} (hu : Within t u) {buffersize : Nat} (hbuf : 2 ≤ buffersize / d) :
    ¬SyncProcess.Uncut s buffersize u.label := by
  obtain ⟨fs, hplug⟩ := hu
  obtain ⟨us, hrun, -⟩ := getSubTrie_ok h.stores (h.nodup hs) hplug hbuf
  exact SyncProcess.not_uncut_of_ok hrun

/-- The hashes in the buffer are places with the keys of the subtrie. -/
theorem cut_places (hs : Separated hash.pair (Hashes E) K) (h : Represents hash E K s S (some t))
    {u : Trie (Digest d)} (hu : Within t u) {buffersize : Nat} (hbuf : 2 ≤ buffersize / d)
    {buffer : Bytes} {size : Nat}
    (hcut : KeyValueTrie.getSubTrie u.label buffersize s = ⟨.ok (buffer, size), s, []⟩) :
    ∃ us : List (Trie (Digest d)), entries d (buffer.take size) = us.map Trie.label ∧
      (∀ v ∈ us, Within t v) ∧ (keysBelow us).Perm u.keys := by
  obtain ⟨fs, hplug⟩ := hu
  obtain ⟨us, hrun, hplaces, hperm, -⟩ := getSubTrie_ok h.stores (h.nodup hs) hplug hbuf
  rw [hrun] at hcut
  obtain ⟨rfl, rfl⟩ := Prod.mk.inj (Outcome.ok.inj (congrArg Run.outcome hcut))
  have hread := entries_take (pos_of_room hbuf) (us.map Trie.label)
  rw [List.length_map] at hread
  exact ⟨us, hread, hplaces, hperm⟩

/-- A hash that is found is a place. -/
theorem within_of_known (h : Represents hash E K s S o) {x : Digest d}
    (hx : unknown s x = false) : ∃ t u, o = some t ∧ Within t u ∧ u.label = x := by
  rw [unknown_eq_absent h.failure, Bool.eq_false_iff, ne_eq, absent_iff] at hx
  cases o with
  | none => exact absurd (Holds.record h.stores x) hx
  | some t =>
    have hmem : x ∈ t.labels := by
      by_contra hnot
      apply hx
      rw [Holds.record h.stores x]
      exact (content_eq_none_iff _ _ _).mpr hnot
    obtain ⟨fs, u, rfl, hl⟩ := exists_plug_of_mem_labels hmem
    exact ⟨_, u, rfl, ⟨fs, rfl⟩, hl⟩

/-- Exactly the hashes that are gone cannot be cut. -/
theorem uncut_iff (hs : Separated hash.pair (Hashes E) K) (h : Represents hash E K s S o)
    {buffersize : Nat} (hbuf : 2 ≤ buffersize / d) (x : Digest d) :
    SyncProcess.Uncut s buffersize x ↔ unknown s x = true := by
  constructor
  · intro huncut
    by_contra hfound
    obtain ⟨t, u, rfl, hu, rfl⟩ := within_of_known h (Bool.eq_false_iff.mpr hfound)
    exact not_uncut hs h hu hbuf huncut
  · intro hgone
    have hnone : s.record x = none := by
      rwa [unknown_eq_absent h.failure, absent_iff] at hgone
    cases o with
    | none => exact ⟨_, getSubTrie_error h.stores rfl hbuf⟩
    | some t =>
      rw [Holds.record h.stores x] at hnone
      exact ⟨_, getSubTrie_error h.stores hnone hbuf⟩

/-- **A known hash covers known keys.** -/
theorem keys_known (hs : Separated hash.pair (Hashes E) K) (h : Represents hash E K s S (some t))
    (h' : Represents hash E K s' S' o) {u : Trie (Digest d)} (hu : Within t u)
    (hx : unknown s' u.label = false) : ∀ k ∈ u.keys, k ∈ S' := by
  obtain ⟨t', u', rfl, hu', hl⟩ := within_of_known h' hx
  obtain ⟨fs, rfl⟩ := hu
  obtain ⟨fs', rfl⟩ := hu'
  have hh := (h.hashed _ rfl).of_plug
  have hh' := (h'.hashed _ rfl).of_plug
  intro k hk
  rw [hh.keys_eq hs hh' hl.symm] at hk
  exact (h'.keys k).mp ((mem_keys_plug fs' u' k).mpr (Or.inl hk))

/-- An unknown key is not there. -/
theorem not_mem_of_unknown (hs : Separated hash.pair (Hashes E) K) (h' : Represents hash E K s' S' o)
    {k : Digest d} (hx : unknown s' k = true) : k ∉ S' := by
  intro hk
  have hleaf := (h'.contains_iff hash hs k).mpr hk
  rw [unknown, hleaf] at hx
  simp at hx

end Tries

/-! ## One search -/

/-- The search through the trie `t`: `w` has the pending hashes and the handler calls, `sent` the
unacknowledged hashes, and `other` is the other set. -/
def Search (t : Trie (Digest d)) (other : Finset (Digest d)) (w : List (Digest d) × DiffHandler d)
    (sent : List (Digest d)) : Prop :=
  ∃ (us vs : List (Trie (Digest d))) (reported known : List (Digest d)),
    (∀ u ∈ us ++ vs, Within t u) ∧ w.1 = us.map Trie.label ∧ sent = vs.map Trie.label ∧
    w.2 = reported.map (fun k => (k, true)) ∧
    (keysBelow us ++ (keysBelow vs ++ (reported ++ known))).Perm t.keys ∧
    (∀ k ∈ reported, k ∉ other) ∧ ∀ k ∈ known, k ∈ other

section Search

variable {hash : CryptoHash d} {E : Digest d × Digest d → Prop} {K : Digest d → Prop}
  {s s' : TrieState d} {S S' : Finset (Digest d)} {t : Trie (Digest d)}
  {o : Option (Trie (Digest d))} {w : List (Digest d) × DiffHandler d} {sent : List (Digest d)}

/-- The search begins at the root. -/
theorem Search.begin (t : Trie (Digest d)) (other : Finset (Digest d)) :
    Search t other ([t.label], []) [] :=
  ⟨[t], [], [], [], by simpa using Within.refl t, rfl, rfl, rfl, by simp [keysBelow], by simp, by simp⟩

/-- Every pending hash can be cut. -/
theorem Search.cuttable (hs : Separated hash.pair (Hashes E) K)
    (h : Represents hash E K s S (some t)) (hw : Search t S' w sent) {buffersize : Nat}
    (hbuf : 2 ≤ buffersize / d) {x : Digest d} (hx : x ∈ w.1) : ¬SyncProcess.Uncut s buffersize x := by
  obtain ⟨us, vs, reported, known, hin, hpending, -⟩ := hw
  rw [hpending] at hx
  obtain ⟨u, hu, rfl⟩ := List.mem_map.mp hx
  exact not_uncut hs h (hin u (List.mem_append_left _ hu)) hbuf

/-- A cut replaces a pending hash by the hashes it sends. -/
theorem Search.cut (hs : Separated hash.pair (Hashes E) K) (h : Represents hash E K s S (some t))
    {top : Digest d} {rest : List (Digest d)} {calls : DiffHandler d}
    (hw : Search t S' (top :: rest, calls) sent) {buffersize : Nat} (hbuf : 2 ≤ buffersize / d)
    {buffer : Bytes} {size : Nat}
    (hcut : KeyValueTrie.getSubTrie top buffersize s = ⟨.ok (buffer, size), s, []⟩) :
    Search t S' (rest, calls) (sent ++ entries d (buffer.take size)) := by
  obtain ⟨us, vs, reported, known, hin, hpending, rfl, hcalls, hkeys, hnew, hknown⟩ := hw
  cases us with
  | nil => cases hpending
  | cons u us =>
    obtain ⟨rfl, rfl⟩ := List.cons.inj hpending
    obtain ⟨us', hread, hplaces, hperm⟩ := cut_places hs h (hin u List.mem_cons_self) hbuf hcut
    rw [hread, ← List.map_append]
    refine ⟨us, vs ++ us', reported, known, fun v hv => ?_, rfl, rfl, hcalls, ?_, hnew, hknown⟩
    · rcases List.mem_append.mp hv with hv | hv
      · exact hin v (List.mem_append_left _ (List.mem_cons_of_mem u hv))
      · rcases List.mem_append.mp hv with hv | hv
        · exact hin v (List.mem_append_right _ hv)
        · exact hplaces v hv
    · -- the keys below the cut are the keys below `u`
      refine List.Perm.trans ?_ hkeys
      rw [keysBelow_append, keysBelow_cons, List.append_assoc, List.append_assoc]
      apply List.Perm.trans (List.Perm.append_left _ (List.perm_append_comm_assoc _ _ _))
      apply List.Perm.trans (List.perm_append_comm_assoc _ _ _)
      exact hperm.append_right _

/-- **An acknowledged hash.** -/
theorem Search.ack (hs : Separated hash.pair (Hashes E) K) (h : Represents hash E K s S (some t))
    (h' : Represents hash E K s' S' o) (r : Option (Digest d)) {x : Digest d}
    (hw : Search t S' w (x :: sent)) :
    Search t S' (SyncProcess.ackStep s r w (x, unknown s' x)) sent := by
  obtain ⟨us, vs, reported, known, hin, hpending, hsent, hcalls, hkeys, hnew, hknown⟩ := hw
  cases vs with
  | nil => cases hsent
  | cons v vs =>
    obtain ⟨rfl, rfl⟩ := List.cons.inj hsent
    have hv := hin v (List.mem_append_right _ List.mem_cons_self)
    have hrest : ∀ u ∈ us ++ vs, Within t u := fun u hu => by
      rcases List.mem_append.mp hu with hu | hu
      · exact hin u (List.mem_append_left _ hu)
      · exact hin u (List.mem_append_right _ (List.mem_cons_of_mem v hu))
    rw [keysBelow_cons] at hkeys
    cases hx : unknown s' v.label with
    | false =>
      -- its keys are known
      refine ⟨us, vs, reported, known ++ v.keys, hrest, hpending, rfl, hcalls, ?_, hnew, ?_⟩
      · refine List.Perm.trans (List.Perm.append_left _ ?_) hkeys
        rw [← List.append_assoc reported, ← List.append_assoc (keysBelow vs),
          List.append_assoc v.keys]
        exact List.perm_append_comm
      · intro k hk
        rcases List.mem_append.mp hk with hk | hk
        · exact hknown k hk
        · exact keys_known hs h h' hv hx k hk
    | true =>
      have htype := nodeType_within hs h hv
      cases v with
      | leaf k =>
        -- a key that is missing there
        have hleaf : nodeType (s.record k) = .LEAF_NODE := htype
        refine ⟨us, vs, reported ++ [k], known, hrest, ?_, rfl, ?_, ?_, ?_, hknown⟩
        · simpa [SyncProcess.ackStep, Trie.label, hleaf] using hpending
        · simp [SyncProcess.ackStep, Trie.label, hleaf, hcalls]
        · refine List.Perm.trans (List.Perm.append_left _ ?_) hkeys
          show List.Perm _ (([k] ++ keysBelow vs) ++ (reported ++ known))
          rw [List.append_assoc reported]
          apply List.Perm.trans (List.Perm.append_left _ (List.perm_append_comm_assoc _ _ _))
          apply List.Perm.trans (List.perm_append_comm_assoc _ _ _)
          rw [List.append_assoc]
        · intro k' hk'
          rcases List.mem_append.mp hk' with hk' | hk'
          · exact hnew k' hk'
          · rw [List.mem_singleton.mp hk']
            exact not_mem_of_unknown hs h' hx
      | node lab p m st l r' =>
        -- an inner node is pending again
        have hinner : nodeType (s.record lab) = .INNER_NODE := htype
        refine ⟨.node lab p m st l r' :: us, vs, reported, known, ?_, ?_, rfl, ?_, ?_, hnew, hknown⟩
        · intro u hu
          rcases List.mem_cons.mp hu with rfl | hu
          · exact hv
          · exact hrest u hu
        · simp [SyncProcess.ackStep, Trie.label, hinner, hpending]
        · simp [SyncProcess.ackStep, Trie.label, hinner, hcalls]
        · refine List.Perm.trans ?_ hkeys
          rw [keysBelow_cons, List.append_assoc, List.append_assoc]
          exact List.perm_append_comm_assoc _ _ _

/-- A message of answers. -/
theorem Search.acks (hs : Separated hash.pair (Hashes E) K) (h : Represents hash E K s S (some t))
    (h' : Represents hash E K s' S' o) (r : Option (Digest d)) {bits : List Bool}
    (hw : Search t S' w sent) (hle : bits.length ≤ sent.length)
    (hbits : ∀ e ∈ (sent.take bits.length).zip bits, e.2 = unknown s' e.1) :
    Search t S' (((sent.take bits.length).zip bits).foldl (SyncProcess.ackStep s r) w)
      (sent.drop bits.length) :=
  foldl_acks (Q := fun e => e.2 = unknown s' e.1) (fun w x b sent hb hw => by
    obtain rfl : b = unknown s' x := hb
    exact hw.ack hs h h' r) hle hbits hw

/-- **A search at its end** has reported the difference, each key once. -/
theorem Search.finished (h : Represents hash E K s S (some t)) (hw : Search t S' ([], w.2) []) :
    w.2.Nodup ∧ ∀ k b, (k, b) ∈ w.2 ↔ b = true ∧ k ∈ S ∧ k ∉ S' := by
  obtain ⟨us, vs, reported, known, hin, hpending, hsent, hcalls, hkeys, hnew, hknown⟩ := hw
  rw [List.map_eq_nil_iff.mp hpending.symm, List.map_eq_nil_iff.mp hsent.symm] at hkeys
  have hkeys' : (reported ++ known).Perm t.keys := hkeys
  have hnodup : (reported ++ known).Nodup := hkeys'.nodup_iff.mpr (h.ordered t rfl).keys_nodup
  have hcalls' : w.2 = reported.map fun k => (k, true) := hcalls
  constructor
  · rw [hcalls']
    exact (List.nodup_append.mp hnodup).1.map fun a b hab => (Prod.mk.inj hab).1
  · intro k b
    rw [hcalls', List.mem_map]
    constructor
    · rintro ⟨k', hk', he⟩
      obtain ⟨rfl, rfl⟩ := Prod.mk.inj he
      exact ⟨rfl, (h.keys k').mp (hkeys'.subset (List.mem_append_left _ hk')), hnew k' hk'⟩
    · rintro ⟨rfl, hk, hk'⟩
      rcases List.mem_append.mp (hkeys'.symm.subset ((h.keys k).mpr hk)) with hmem | hmem
      · exact ⟨k, hmem, rfl⟩
      · exact absurd (hknown k hmem) hk'

end Search

/-! ## Both searches -/

/-- Where one side is: before its search, or in it. -/
def Stage (t : Option (Trie (Digest d))) (other : Finset (Digest d)) (p : Peer d) : Prop :=
  (p.sync.stat = .START ∧ p.sync.pendingSubtries = [] ∧ p.sync.sentHashes = [] ∧ p.handled = []) ∨
  (p.sync.stat ≠ .START ∧ ∃ u, t = some u ∧
    Search u other (p.sync.pendingSubtries, p.handled) p.sync.sentHashes)

section Stage

variable {hash : CryptoHash d} {E : Digest d × Digest d → Prop} {K : Digest d → Prop}
  {S S' : Finset (Digest d)} {t o : Option (Trie (Digest d))} {p : Peer d} {s' : TrieState d}

theorem Stage.polled (h : Represents hash E K p.set.trie S t) {r : Option (Digest d)}
    (hr : KeyValueTrie.getRoot p.set.trie = ⟨.ok r, p.set.trie, []⟩) (hp : Stage t S' p) :
    Stage t S' (SyncProcess.polled r p) := by
  rcases hp with ⟨hs, hpending, hsent, hcalls⟩ | ⟨hs, hsearch⟩
  · rw [h.getRoot_eq] at hr
    obtain rfl := Outcome.ok.inj (congrArg Run.outcome hr)
    cases t with
    | none =>
      show Stage none S' (SyncProcess.polled none p)
      unfold SyncProcess.polled
      rw [if_pos hs]
      exact Or.inl ⟨hs, hpending, hsent, hcalls⟩
    | some u =>
      refine Or.inr ⟨by simp [SyncProcess.polled, hs], u, rfl, ?_⟩
      simpa [SyncProcess.polled, hs, hpending, hsent, hcalls] using Search.begin u S'
  · have hsame : SyncProcess.polled r p = p := by
      unfold SyncProcess.polled
      rw [if_neg hs]
    rw [hsame]
    exact Or.inr ⟨hs, hsearch⟩

theorem Stage.noCut (hs : Separated hash.pair (Hashes E) K) (h : Represents hash E K p.set.trie S t)
    {buffersize : Nat} (hbuf : 2 ≤ buffersize / d)
    (hall : ∀ x ∈ p.sync.pendingSubtries, SyncProcess.Uncut p.set.trie buffersize x)
    (hp : Stage t S' p) : Stage t S' (SyncProcess.noCut p) := by
  have hnil : p.sync.pendingSubtries = [] := by
    rcases hp with ⟨-, hpending, -, -⟩ | ⟨-, u, rfl, hsearch⟩
    · exact hpending
    · by_contra hne
      obtain ⟨x, hx⟩ := List.exists_mem_of_ne_nil _ hne
      exact hsearch.cuttable hs h hbuf hx (hall x hx)
  rw [show SyncProcess.noCut p = p by rw [SyncProcess.noCut, ← hnil]]
  exact hp

theorem Stage.sentCut (hs : Separated hash.pair (Hashes E) K) (h : Represents hash E K p.set.trie S t)
    {buffersize : Nat} (hbuf : 2 ≤ buffersize / d) {dropped rest : List (Digest d)} {top : Digest d}
    {buffer : Bytes} {size : Nat} (hpending : p.sync.pendingSubtries = dropped ++ top :: rest)
    (hlost : ∀ x ∈ dropped, SyncProcess.Uncut p.set.trie buffersize x)
    (hcut : KeyValueTrie.getSubTrie top buffersize p.set.trie
      = ⟨.ok (buffer, size), p.set.trie, []⟩) (hp : Stage t S' p) :
    Stage t S' (SyncProcess.sentCut rest (buffer.take size) size p) := by
  rcases hp with ⟨-, hnil, -, -⟩ | ⟨hstat, u, rfl, hsearch⟩
  · rw [hnil] at hpending
    exact absurd hpending.symm (by simp)
  · -- nothing was dropped
    cases dropped with
    | cons x dropped =>
      have hx : x ∈ p.sync.pendingSubtries := by
        rw [hpending]
        exact List.mem_cons_self
      exact absurd (hlost x List.mem_cons_self) (hsearch.cuttable hs h hbuf hx)
    | nil =>
      rw [hpending, List.nil_append] at hsearch
      exact Or.inr ⟨hstat, u, rfl, hsearch.cut hs h hbuf hcut⟩

theorem Stage.acknowledged (hs : Separated hash.pair (Hashes E) K)
    (h : Represents hash E K p.set.trie S t) (h' : Represents hash E K s' S' o)
    (r : Option (Digest d)) {bits : List Bool} (hle : bits.length ≤ p.sync.sentHashes.length)
    (hbits : ∀ e ∈ (p.sync.sentHashes.take bits.length).zip bits, e.2 = unknown s' e.1)
    (hp : Stage t S' p) : Stage t S' (SyncProcess.acknowledged bits r p) := by
  rcases hp with ⟨hstat, hpending, hsent, hcalls⟩ | ⟨hstat, u, rfl, hsearch⟩
  · refine Or.inl ⟨hstat, ?_, ?_, ?_⟩
    · simp [SyncProcess.acknowledged, hsent, hpending]
    · simp [SyncProcess.acknowledged, hsent]
    · simp [SyncProcess.acknowledged, hsent, hcalls]
  · exact Or.inr ⟨hstat, u, rfl, hsearch.acks hs h h' r hle hbits⟩

/-- The side has nothing left to search. -/
theorem Stage.finished (h : Represents hash E K p.set.trie S t) (hp : Stage t S' p)
    (hpending : p.sync.stat ≠ .START → p.sync.pendingSubtries = []) (hsent : p.sync.sentHashes = [])
    (hroot : p.sync.stat = .START → ¬HasRoot p.set) :
    p.handled.Nodup ∧ ∀ k b, (k, b) ∈ p.handled ↔ b = true ∧ k ∈ S ∧ k ∉ S' := by
  rcases hp with ⟨hstat, -, -, hcalls⟩ | ⟨hstat, u, rfl, hsearch⟩
  · have hempty : S = ∅ := by
      by_contra hne
      exact hroot hstat ((hasRoot_iff h).mpr hne)
    rw [hcalls, hempty]
    simp
  · rw [hpending hstat, hsent] at hsearch
    exact Search.finished (w := ([], p.handled)) h hsearch

end Stage

section Runs

variable {hash : CryptoHash d} {E : Digest d × Digest d → Prop} {K : Digest d → Prop}
  {sets : Side → SetState d} {S : Side → Finset (Digest d)} {t : Side → Option (Trie (Digest d))}
  {c : SyncSystem d}

/-- The sets are what they were, every answer is still right, and both searches are on their way. -/
structure Strict (sets : Side → SetState d) (S : Side → Finset (Digest d))
    (t : Side → Option (Trie (Digest d))) (c : SyncSystem d) : Prop where
  set : ∀ x, (c.peer x).set = sets x
  answers : ∀ x, ∀ e ∈ (c.log x).answered, e.2 = unknown (sets x.other).trie e.1
  stage : ∀ x, Stage (t x) (S x.other) (c.peer x)

theorem SyncAction.IsCall.keepsSets {a : SyncAction d} (h : a.IsCall) : a.KeepsSets := by
  cases a with
  | insert x key => exact absurd h id
  | change x set => exact absurd h id
  | _ => exact trivial

/-- Answers that were right stay right. -/
theorem Stepped.answers {a : SyncAction d} {c' : SyncSystem d} (h : Stepped c a c')
    (hset : ∀ x, (c.peer x).set = sets x)
    (hc : ∀ x, ∀ e ∈ (c.log x).answered, e.2 = unknown (sets x.other).trie e.1) (y : Side) :
    ∀ e ∈ (c'.log y).answered, e.2 = unknown (sets y.other).trie e.1 := by
  obtain ⟨new, heq, hnew⟩ := h.new_answers y
  intro e he
  rw [heq] at he
  rcases List.mem_append.mp he with he | he
  · exact hc y e he
  · rw [← hset y.other]
    exact hnew e he

/-- **One call.** -/
theorem Stepped.strict {a : SyncAction d} {c' : SyncSystem d} (hs : Separated hash.pair (Hashes E) K)
    (hrep : ∀ x, Represents hash E K (sets x).trie (S x) (t x)) (h : Stepped c a c') (ha : a.IsCall)
    (hsync : Synced c) (hc : Strict sets S t c) : Strict sets S t c' := by
  refine ⟨fun y => (h.set_eq ha.keepsSets.ne_change y).trans (hc.set y), h.answers hc.set hc.answers,
    fun y => ?_⟩
  have hrep' : ∀ x, Represents hash E K (c.peer x).set.trie (S x) (t x) := fun x => by
    rw [hc.set x]
    exact hrep x
  have hpeer : ∀ (x : Side) (p : Peer d), Stage (t x) (S x.other) p →
      Stage (t y) (S y.other) ((setPeer x p c).peer y) := fun x p hp =>
    forall_setPeer (P := fun y p => Stage (t y) (S y.other) p) hc.stage hp y
  cases h with
  | idle => exact hc.stage y
  | @polled x r root => exact hpeer x _ ((hc.stage x).polled (hrep' x) root)
  | @uncut x buffersize pending =>
    exact hpeer x (SyncProcess.noCut (c.peer x)) ((hc.stage x).noCut hs (hrep' x) ha pending)
  | @cut x buffersize dropped rest top buffer size pending lost found =>
    exact hpeer x (SyncProcess.sentCut rest (buffer.take size) size (c.peer x))
      ((hc.stage x).sentCut hs (hrep' x) ha pending lost found)
  | @answered x message rest channel =>
    exact hpeer x (SyncProcess.answeredAll message (c.peer x)) (hc.stage x)
  | @replied x length buffer number bits size =>
    exact hpeer x (SyncProcess.tookAcks number (c.peer x)) (hc.stage x)
  | @acked x buffer number rest r channel root =>
    have hsplit := answers_of_channel channel
    have hbits : ∀ e ∈ ((c.peer x).sync.sentHashes.take
        (SyncProcess.ackBits buffer number).length).zip (SyncProcess.ackBits buffer number),
        e.2 = unknown (sets x.other).trie e.1 := fun e he =>
      hc.answers x e ((hsync.aligned x).next_answers hsplit e he)
    exact hpeer x (SyncProcess.received ((number + 7) / 8)
        (SyncProcess.acknowledged (SyncProcess.ackBits buffer number) r (c.peer x)))
      ((hc.stage x).acknowledged hs (hrep' x) (hrep x.other) r
        ((hsync.aligned x).length_le hsplit) hbits)
  | compared root => exact absurd ha id
  | changed => exact absurd ha id

/-- What a run that has come to rest has reported. -/
theorem strict_run (fresh : Digest d) (fuel : Nat) (hs : Separated hash.pair (Hashes E) K)
    {A B : SetState d} (hrep : ∀ x, Represents hash E K (setOf A B x).trie (S x) (t x))
    (actions : List (SyncAction d)) (ha : ∀ a ∈ actions, a.IsCall)
    (hq : Quiet (SyncAction.run hash fresh fuel actions (start A B)).state) (x : Side) :
    ((SyncAction.run hash fresh fuel actions (start A B)).state.peer x).set = setOf A B x ∧
      ((SyncAction.run hash fresh fuel actions (start A B)).state.peer x).handled.Nodup ∧
      ∀ k b, (k, b) ∈ ((SyncAction.run hash fresh fuel actions (start A B)).state.peer x).handled ↔
        b = true ∧ k ∈ S x ∧ k ∉ S x.other := by
  have hstart : Strict (setOf A B) S t (start A B) := by
    refine ⟨fun y => by cases y <;> rfl, fun y e he => absurd he List.not_mem_nil, fun y => Or.inl ?_⟩
    cases y <;> exact ⟨rfl, rfl, rfl, rfl⟩
  obtain ⟨us, c, hrun, hc, hstrict⟩ := run_keeps hash fresh fuel (J := Strict (setOf A B) S t)
    (fun a hmem => (ha a hmem).keepsSets.works)
    (fun a hmem c c' hsync hj h => h.strict hs hrep (ha a hmem) hsync hj)
    (synced_start (A := A) (B := B) (hrep .A).failure (hrep .B).failure) hstart
  rw [hrun] at hq
  simp only [hrun]
  have hset := hstrict.set x
  refine ⟨hset, (hstrict.stage x).finished (by rw [hset]; exact hrep x) (hq.pending hc x) (hq.sent x)
    (hq.no_root hc x)⟩

/-- The keys of a represented set. -/
theorem Represents.keys_mem {s : TrieState d} {S : Finset (Digest d)} {o : Option (Trie (Digest d))}
    (h : Represents hash E K s S o) : ∀ k ∈ S, K k := by
  intro k hk
  have hkt := (h.keys k).mpr hk
  cases o with
  | none => exact absurd hkt List.not_mem_nil
  | some u => exact (h.hashed u rfl).keys k hkt

/-- A set that took the reported keys is the union. -/
theorem takes_reported (fresh : Digest d) {fuel : Nat} (hd : d ≠ 4) (hw : 8 * d < 256)
    (hs : Separated hash.pair (Hashes E) K) (hfuel : 255 < fuel) {B : SetState d} {sA : TrieState d}
    {S₁ S₂ : Finset (Digest d)} {t₁ t₂ : Option (Trie (Digest d))} {calls : DiffHandler d}
    (h₁ : Represents hash E K sA S₁ t₁) (h₂ : Represents hash E K B.trie S₂ t₂)
    (hroom : noneRefused hash fresh fuel B (calls.map Prod.fst) = true)
    (hcalls : ∀ k b, (k, b) ∈ calls ↔ b = true ∧ k ∈ S₁ ∧ k ∉ S₂) :
    Prog.Returns E (insertAll hash fresh fuel (calls.map Prod.fst)) B fun _ B' =>
      ∃ t', Represents hash E K B'.trie (S₁ ∪ S₂) t' := by
  have hunion : S₂ ∪ (calls.map Prod.fst).toFinset = S₁ ∪ S₂ := by
    ext k
    simp only [Finset.mem_union, List.mem_toFinset, List.mem_map, Prod.exists, exists_and_right,
      exists_eq_right]
    constructor
    · rintro (h | ⟨b, hb⟩)
      · exact Or.inr h
      · exact Or.inl ((hcalls k b).mp hb).2.1
    · rintro (h | h)
      · by_cases hin : k ∈ S₂
        · exact Or.inl hin
        · exact Or.inr ⟨true, (hcalls k true).mpr ⟨rfl, h, hin⟩⟩
      · exact Or.inl h
  have hreported : ∀ k ∈ calls.map Prod.fst, K k := by
    intro k hmem
    obtain ⟨⟨k', b⟩, hb, rfl⟩ := List.mem_map.mp hmem
    exact h₁.keys_mem k' ((hcalls k' b).mp hb).2.1
  rw [← hunion]
  exact insertAll_represents fresh hd hw hs hfuel hreported hroom h₂

end Runs

/-- Both tries represent their keys, whatever pairs are hashed besides. -/
theorem built_represents {hash : CryptoHash d} {fresh₁ fresh₂ : Digest d} {fuel : Nat}
    (hd : d = 16 ∨ d = 20 ∨ d = 28) (hfuel : 255 < fuel) {ops₁ ops₂ : List (SetOp (Digest d))}
    {A B : SetState d} (hA : A.trie = (runTrie hash fresh₁ fuel ops₁).state)
    (hB : B.trie = (runTrie hash fresh₂ fuel ops₂).state) {l : List (Digest d × Digest d)}
    (hc : CollisionFree hash ((runTrie hash fresh₁ fuel ops₁).events
      ++ (runTrie hash fresh₂ fuel ops₂).events ++ l))
    (hk : KeysFresh hash (addedKeys ops₁ ++ addedKeys ops₂) ((runTrie hash fresh₁ fuel ops₁).events
      ++ (runTrie hash fresh₂ fuel ops₂).events ++ l)) :
    ∃ t₁ t₂, ∀ x, Represents hash (· ∈ (runTrie hash fresh₁ fuel ops₁).events
        ++ (runTrie hash fresh₂ fuel ops₂).events ++ l) (· ∈ addedKeys ops₁ ++ addedKeys ops₂)
      (setOf A B x).trie (Side.pick (setRun ∅ ops₁).2 (setRun ∅ ops₂).2 x) (Side.pick t₁ t₂ x) := by
  obtain ⟨_, t₁, h₁⟩ := runTrie_represents hash fresh₁ hd hfuel hc hk
    (List.subset_append_left _ _)
    (List.subset_append_of_subset_left _ (List.subset_append_left _ _))
  obtain ⟨_, t₂, h₂⟩ := runTrie_represents hash fresh₂ hd hfuel hc hk
    (List.subset_append_right _ _)
    (List.subset_append_of_subset_left _ (List.subset_append_right _ _))
  rw [← hA] at h₁
  rw [← hB] at h₂
  refine ⟨t₁, t₂, fun x => ?_⟩
  cases x
  · exact h₁
  · exact h₂

/-- **Strict synchronization computes the difference, and exchanging it makes the roots equal.**  The
insertions hash pairs of their own, and a set at its hard maximum refuses what the other side reports. -/
theorem strict_sync (hash : CryptoHash d) (fresh₁ fresh₂ fresh : Digest d) {fuel : Nat}
    (hd : d = 16 ∨ d = 20 ∨ d = 28) (hfuel : 255 < fuel) (ops₁ ops₂ : List (SetOp (Digest d)))
    (A B : SetState d) (hA : A.trie = (runTrie hash fresh₁ fuel ops₁).state)
    (hB : B.trie = (runTrie hash fresh₂ fuel ops₂).state)
    (hc : CollisionFree hash ((runTrie hash fresh₁ fuel ops₁).events
      ++ (runTrie hash fresh₂ fuel ops₂).events))
    (hk : KeysFresh hash (addedKeys ops₁ ++ addedKeys ops₂) ((runTrie hash fresh₁ fuel ops₁).events
      ++ (runTrie hash fresh₂ fuel ops₂).events))
    (actions : List (SyncAction d)) (ha : ∀ a ∈ actions, a.IsCall)
    (c : SyncSystem d) (hrun : c = (SyncAction.run hash fresh fuel actions (start A B)).state)
    (hq : Quiet c) :
    ((c.peer .A).handled.Nodup ∧ ∀ k b, (k, b) ∈ (c.peer .A).handled ↔
      b = true ∧ k ∈ (setRun ∅ ops₁).2 ∧ k ∉ (setRun ∅ ops₂).2) ∧
    ((c.peer .B).handled.Nodup ∧ ∀ k b, (k, b) ∈ (c.peer .B).handled ↔
      b = true ∧ k ∈ (setRun ∅ ops₂).2 ∧ k ∉ (setRun ∅ ops₁).2) ∧
    let forB := insertAll hash fresh fuel ((c.peer .A).handled.map Prod.fst) (c.peer .B).set
    let forA := insertAll hash fresh fuel ((c.peer .B).handled.map Prod.fst) (c.peer .A).set
    noneRefused hash fresh fuel (c.peer .B).set ((c.peer .A).handled.map Prod.fst) = true →
    noneRefused hash fresh fuel (c.peer .A).set ((c.peer .B).handled.map Prod.fst) = true →
    CollisionFree hash ((runTrie hash fresh₁ fuel ops₁).events
      ++ (runTrie hash fresh₂ fuel ops₂).events ++ (forB.events ++ forA.events)) →
    KeysFresh hash (addedKeys ops₁ ++ addedKeys ops₂) ((runTrie hash fresh₁ fuel ops₁).events
      ++ (runTrie hash fresh₂ fuel ops₂).events ++ (forB.events ++ forA.events)) →
    (KeyValueTrie.getRoot forA.state.trie).outcome = (KeyValueTrie.getRoot forB.state.trie).outcome := by
  obtain ⟨hd4, hw⟩ := narrow_digest hd
  subst hrun
  have hnil := List.append_nil ((runTrie hash fresh₁ fuel ops₁).events
    ++ (runTrie hash fresh₂ fuel ops₂).events)
  rw [← hnil] at hc hk
  obtain ⟨t₁, t₂, hrep⟩ := built_represents hd hfuel hA hB hc hk
  have hs := separated_of_collisionFree hc hk
  obtain ⟨hsetA, hnodupA, hcallsA⟩ := strict_run fresh fuel hs hrep actions ha hq .A
  obtain ⟨hsetB, hnodupB, hcallsB⟩ := strict_run fresh fuel hs hrep actions ha hq .B
  refine ⟨⟨hnodupA, hcallsA⟩, ⟨hnodupB, hcallsB⟩, ?_⟩
  intro forB forA hroomB hroomA hc' hk'
  -- both sides end with the union
  obtain ⟨t₁', t₂', hrep'⟩ := built_represents hd hfuel hA hB hc' hk'
  have hs' := separated_of_collisionFree hc' hk'
  have h₁ := hrep' .A
  have h₂ := hrep' .B
  rw [← hsetA] at h₁
  rw [← hsetB] at h₂
  obtain ⟨_, -, tB, hB'⟩ := takes_reported fresh hd4 hw hs' hfuel h₁ h₂ hroomB hcallsA fun x hx =>
    List.mem_append_right _ (List.mem_append_left _ hx)
  obtain ⟨_, -, tA, hA'⟩ := takes_reported fresh hd4 hw hs' hfuel h₂ h₁ hroomA hcallsB fun x hx =>
    List.mem_append_right _ (List.mem_append_right _ hx)
  rw [Finset.union_comm] at hA'
  exact hA'.getRoot_unique hB'

theorem crossedActions_calls : ∀ a ∈ crossedActions, a.IsCall := by
  simp only [crossedActions, List.forall_mem_cons, SyncAction.IsCall]
  exact ⟨trivial, trivial, by decide, by decide, trivial, trivial, by decide, by decide, trivial,
    trivial, by simp⟩

theorem strict_sync_sample :
    ((crossed.peer .A).handled.Nodup ∧ (byteKey 16 1, true) ∈ (crossed.peer .A).handled) ∧
      (KeyValueTrie.getRoot (insertAll (mixHash 16) (byteKey 16 0) 256
          ((crossed.peer .B).handled.map Prod.fst) (crossed.peer .A).set).state.trie).outcome
        = (KeyValueTrie.getRoot (insertAll (mixHash 16) (byteKey 16 0) 256
          ((crossed.peer .A).handled.map Prod.fst) (crossed.peer .B).set).state.trie).outcome := by
  have h := strict_sync (mixHash 16) (byteKey 16 0) (byteKey 16 0) (byteKey 16 0) (Or.inl rfl)
    (by decide) ([byteKey 16 1, byteKey 16 2].map .add) ([byteKey 16 2].map .add)
    (setWith [byteKey 16 1, byteKey 16 2]) (setWith [byteKey 16 2]) (setWith_trie _)
    (setWith_trie _) (by decide +kernel) (by decide +kernel) crossedActions crossedActions_calls
    crossed rfl (fun x => by cases x <;> decide +kernel)
  exact ⟨⟨h.1.1, (h.1.2 _ true).mpr ⟨rfl, by decide +kernel, by decide +kernel⟩⟩,
    h.2.2 (by decide +kernel) (by decide +kernel) (by decide +kernel) (by decide +kernel)⟩

end SetSync
