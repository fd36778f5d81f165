import SetSync.Lib.Worklist
import SetSync.StrictSync

/-!
# Strict synchronization with insertions

Two sides search as before, and between two calls a side may insert a key that the other side has
reported.  An insertion re-keys the path above the key, so a hash that is pending or on its way may name
no node of the trie any more.  It still stands for the keys it was computed from, `HashOver`, and these
are in question until the hash is answered:

    a key is reported, in the other set, or below a pending or unacknowledged hash     (OpenSearch)

`processAcks` restarts at the root when an unknown hash is gone.  `getSubTrie` drops a pending hash that
is gone and goes on with the next one, and its keys are lost (`dropped_subtrie_lost`).

    step   the top of the pending hashes is found → OpenStage again                 (exec_inserting)
    run    the tops are found throughout → a quiet state has reported every missing key
                                                                          (inserting_sync_complete)
-/

namespace SetSync

open Program BitTrie Worklist SyncSystem

variable {d : Nat}

/-! ## Hashes and keys, in any trie -/

/-- `x` is the hash of a subtrie with the key `k`. -/
def HashOver (hash : CryptoHash d) (E : Digest d × Digest d → Prop) (K : Digest d → Prop)
    (x k : Digest d) : Prop :=
  ∃ u : Trie (Digest d), Hashed hash.pair (Hashes E) K u ∧ u.label = x ∧ k ∈ u.keys

section Tries

variable {hash : CryptoHash d} {E : Digest d × Digest d → Prop} {K : Digest d → Prop}
  {s : TrieState d} {S : Finset (Digest d)} {t : Trie (Digest d)} {o : Option (Trie (Digest d))}

theorem Represents.hashed_within (h : Represents hash E K s S (some t)) {u : Trie (Digest d)}
    (hu : Within t u) : Hashed hash.pair (Hashes E) K u := by
  obtain ⟨fs, rfl⟩ := hu
  exact (h.hashed _ rfl).of_plug

theorem Represents.mem_of_within (h : Represents hash E K s S (some t)) {u : Trie (Digest d)}
    (hu : Within t u) {k : Digest d} (hk : k ∈ u.keys) : k ∈ S := by
  obtain ⟨fs, rfl⟩ := hu
  exact (h.keys k).mp ((mem_keys_plug fs u k).mpr (Or.inl hk))

theorem hashOver_of_within (h : Represents hash E K s S (some t)) {u : Trie (Digest d)}
    (hu : Within t u) {k : Digest d} (hk : k ∈ u.keys) : HashOver hash E K u.label k :=
  ⟨u, h.hashed_within hu, rfl, hk⟩

/-- A hash that names a node stands for the keys below it. -/
theorem HashOver.mem_keys (hs : Separated hash.pair (Hashes E) K)
    (h : Represents hash E K s S (some t)) {u : Trie (Digest d)} (hu : Within t u) {k : Digest d}
    (hk : HashOver hash E K u.label k) : k ∈ u.keys := by
  obtain ⟨v, hv, hl, hkv⟩ := hk
  rwa [hv.keys_eq hs (h.hashed_within hu) hl] at hkv

/-- The keys of a hash that is found are in the set. -/
theorem HashOver.mem_of_found (hs : Separated hash.pair (Hashes E) K) (h : Represents hash E K s S o)
    {x k : Digest d} (hk : HashOver hash E K x k) (hx : unknown s x = false) : k ∈ S := by
  obtain ⟨t, u, rfl, hu, rfl⟩ := within_of_known h hx
  exact h.mem_of_within hu (hk.mem_keys hs h hu)

/-- A leaf that is found is the only key of its hash. -/
theorem HashOver.eq_of_leaf (hs : Separated hash.pair (Hashes E) K) (h : Represents hash E K s S o)
    {x k : Digest d} (hk : HashOver hash E K x k) (hx : nodeType (s.record x) = .LEAF_NODE) :
    k = x := by
  have hfound : unknown s x = false := by
    rw [unknown_eq_absent h.failure, absent, hx]
    rfl
  obtain ⟨t, u, rfl, hu, rfl⟩ := within_of_known h hfound
  have hkey := hk.mem_keys hs h hu
  rw [nodeType_within hs h hu] at hx
  cases u with
  | leaf k' => exact List.mem_singleton.mp hkey
  | node lab p m st l r => cases hx

/-- The root stands for every key. -/
theorem hashOver_root (h : Represents hash E K s S o) {r : Option (Digest d)}
    (hr : KeyValueTrie.getRoot s = ⟨.ok r, s, []⟩) {k : Digest d} (hk : k ∈ S) :
    ∃ x, r = some x ∧ HashOver hash E K x k := by
  rw [h.getRoot_eq] at hr
  obtain rfl := Outcome.ok.inj (congrArg Run.outcome hr)
  have hkeys := (h.keys k).mpr hk
  cases o with
  | none => exact absurd hkeys List.not_mem_nil
  | some t => exact ⟨t.label, rfl, hashOver_of_within h (Within.refl t) hkeys⟩

end Tries

/-! ## One search -/

/-- Each key of `S₀` is in the other set `S'`, reported, or below an open hash. -/
def OpenSearch (hash : CryptoHash d) (E : Digest d × Digest d → Prop) (K : Digest d → Prop)
    (S₀ S' : Finset (Digest d)) (w : List (Digest d) × DiffHandler d) (sent : List (Digest d)) : Prop :=
  Accounted (HashOver hash E K) (· ∈ S₀) (fun k => k ∈ S' ∨ (k, true) ∈ w.2) (w.1 ++ sent)

section OpenSearch

variable {hash : CryptoHash d} {E : Digest d × Digest d → Prop} {K : Digest d → Prop}
  {s : TrieState d} {S S₀ S' : Finset (Digest d)} {o : Option (Trie (Digest d))}
  {w : List (Digest d) × DiffHandler d} {sent : List (Digest d)}

/-- The search begins, or begins again, at the root. -/
theorem OpenSearch.root (h : Represents hash E K s S o) (hgrown : S₀ ⊆ S) {r : Option (Digest d)}
    (hr : KeyValueTrie.getRoot s = ⟨.ok r, s, []⟩) (hroot : ∀ x, r = some x → x ∈ w.1) :
    OpenSearch hash E K S₀ S' w sent := by
  intro k hk
  obtain ⟨x, hx, hover⟩ := hashOver_root h hr (hgrown hk)
  exact Or.inr ⟨x, List.mem_append_left _ (hroot x hx), hover⟩

/-- A cut replaces a pending hash by the hashes it sends. -/
theorem OpenSearch.cut (hs : Separated hash.pair (Hashes E) K) (h : Represents hash E K s S o)
    {top : Digest d} {rest : List (Digest d)} {calls : DiffHandler d}
    (hw : OpenSearch hash E K S₀ S' (top :: rest, calls) sent) (htop : unknown s top = false)
    {buffersize : Nat} (hbuf : 2 ≤ buffersize / d) {buffer : Bytes} {size : Nat}
    (hcut : KeyValueTrie.getSubTrie top buffersize s = ⟨.ok (buffer, size), s, []⟩) :
    OpenSearch hash E K S₀ S' (rest, calls) (sent ++ entries d (buffer.take size)) := by
  obtain ⟨t, u, rfl, hu, rfl⟩ := within_of_known h htop
  obtain ⟨us, hread, hplaces, hperm⟩ := cut_places hs h hu hbuf hcut
  rw [hread]
  refine Accounted.replace (a := u.label) hw (fun _ hd => hd) (fun x hx => ?_) fun k hk => ?_
  · rcases List.mem_cons.mp hx with rfl | hx
    · exact Or.inl rfl
    · rw [← List.append_assoc]
      exact Or.inr (List.mem_append_left _ hx)
  · -- a key below the cut hash is below one of the hashes sent
    obtain ⟨v, hv, hkv⟩ := List.mem_flatMap.mp (hperm.symm.subset (hk.mem_keys hs h hu))
    refine Or.inr ⟨v.label, ?_, hashOver_of_within h (hplaces v hv) hkv⟩
    exact List.mem_append_right _ (List.mem_append_right _ (List.mem_map_of_mem hv))

/-- **An acknowledged hash**, in a trie that may have changed since it was sent. -/
theorem OpenSearch.ack (hs : Separated hash.pair (Hashes E) K) (h : Represents hash E K s S o)
    (hgrown : S₀ ⊆ S) {r : Option (Digest d)} (hr : KeyValueTrie.getRoot s = ⟨.ok r, s, []⟩)
    {x : Digest d} {b : Bool} (hb : b = false → ∀ k, HashOver hash E K x k → k ∈ S')
    (hw : OpenSearch hash E K S₀ S' w (x :: sent)) :
    OpenSearch hash E K S₀ S' (SyncProcess.ackStep s r w (x, b)) sent := by
  have hmid : ∀ y ∈ w.1 ++ x :: sent, y = x ∨ y ∈ w.1 ++ sent := by
    intro y hy
    rcases List.mem_append.mp hy with hy | hy
    · exact Or.inr (List.mem_append_left _ hy)
    · rcases List.mem_cons.mp hy with rfl | hy
      · exact Or.inl rfl
      · exact Or.inr (List.mem_append_right _ hy)
  cases b with
  | false => exact Accounted.replace hw (fun _ hd => hd) hmid fun k hk => Or.inl (Or.inl (hb rfl k hk))
  | true =>
    cases htype : nodeType (s.record x) with
    | LEAF_NODE =>
      -- the key is reported
      have hstep : SyncProcess.ackStep s r w (x, true) = (w.1, w.2 ++ [(x, true)]) := by
        simp [SyncProcess.ackStep, htype]
      rw [hstep]
      apply Accounted.replace hw (fun k hd => hd.imp_right (List.mem_append_left _)) hmid
      intro k hk
      rw [hk.eq_of_leaf hs h htype]
      exact Or.inl (Or.inr (List.mem_append_right _ List.mem_cons_self))
    | INNER_NODE =>
      -- the hash is pending again
      have hstep : SyncProcess.ackStep s r w (x, true) = (x :: w.1, w.2) := by
        simp [SyncProcess.ackStep, htype]
      rw [hstep]
      apply Accounted.mono hw (fun _ hd => hd)
      intro y hy
      rcases hmid y hy with rfl | hy
      · exact List.mem_cons_self
      · exact List.mem_cons_of_mem _ hy
    | NOT_FOUND =>
      -- the hash is gone: the root stands for all keys
      apply OpenSearch.root h hgrown hr
      intro y hy
      simp [SyncProcess.ackStep, htype, hy]

/-- More is known to the other side. -/
theorem OpenSearch.mono {S'' : Finset (Digest d)} (hS : S' ⊆ S'')
    (hw : OpenSearch hash E K S₀ S' w sent) : OpenSearch hash E K S₀ S'' w sent :=
  Accounted.mono hw (fun _ hd => hd.imp_left fun hk => hS hk) (List.Subset.refl _)

end OpenSearch

/-- Where one side is: before its search, or in it. -/
def OpenStage (hash : CryptoHash d) (E : Digest d × Digest d → Prop) (K : Digest d → Prop)
    (S₀ S' : Finset (Digest d)) (p : Peer d) : Prop :=
  p.sync.stat = .START ∨
    OpenSearch hash E K S₀ S' (p.sync.pendingSubtries, p.handled) p.sync.sentHashes

section OpenStage

variable {hash : CryptoHash d} {E : Digest d × Digest d → Prop} {K : Digest d → Prop}
  {S S₀ S' : Finset (Digest d)} {o : Option (Trie (Digest d))} {p : Peer d}

theorem OpenStage.polled (h : Represents hash E K p.set.trie S o) (hgrown : S₀ ⊆ S)
    {r : Option (Digest d)} (hr : KeyValueTrie.getRoot p.set.trie = ⟨.ok r, p.set.trie, []⟩)
    (hp : OpenStage hash E K S₀ S' p) : OpenStage hash E K S₀ S' (SyncProcess.polled r p) := by
  unfold SyncProcess.polled
  split
  · cases r with
    | none => exact hp
    | some root =>
      refine Or.inr (OpenSearch.root h hgrown hr fun x hx => ?_)
      obtain rfl := Option.some.inj hx
      exact List.mem_cons_self
  · exact hp

/-- Where the top of the pending hashes is found, none is dropped. -/
theorem OpenStage.noCut (hs : Separated hash.pair (Hashes E) K)
    (h : Represents hash E K p.set.trie S o) {buffersize : Nat} (hbuf : 2 ≤ buffersize / d)
    (hall : ∀ x ∈ p.sync.pendingSubtries, SyncProcess.Uncut p.set.trie buffersize x)
    (htop : ∀ top ∈ p.sync.pendingSubtries.head?, unknown p.set.trie top = false)
    (hp : OpenStage hash E K S₀ S' p) : OpenStage hash E K S₀ S' (SyncProcess.noCut p) := by
  have hnil : p.sync.pendingSubtries = [] := by
    cases hpending : p.sync.pendingSubtries with
    | nil => rfl
    | cons top rest =>
      rw [hpending] at hall htop
      have hgone := (uncut_iff hs h hbuf top).mp (hall top List.mem_cons_self)
      rw [htop top rfl] at hgone
      cases hgone
  rw [show SyncProcess.noCut p = p by rw [SyncProcess.noCut, ← hnil]]
  exact hp

theorem OpenStage.sentCut (hs : Separated hash.pair (Hashes E) K)
    (h : Represents hash E K p.set.trie S o) {buffersize : Nat} (hbuf : 2 ≤ buffersize / d)
    {dropped rest : List (Digest d)} {top : Digest d} {buffer : Bytes} {size : Nat}
    (hpending : p.sync.pendingSubtries = dropped ++ top :: rest)
    (hlost : ∀ x ∈ dropped, SyncProcess.Uncut p.set.trie buffersize x)
    (hcut : KeyValueTrie.getSubTrie top buffersize p.set.trie = ⟨.ok (buffer, size), p.set.trie, []⟩)
    (htop : ∀ top ∈ p.sync.pendingSubtries.head?, unknown p.set.trie top = false)
    (hp : OpenStage hash E K S₀ S' p) :
    OpenStage hash E K S₀ S' (SyncProcess.sentCut rest (buffer.take size) size p) := by
  rcases hp with hstat | hsearch
  · exact Or.inl hstat
  · rw [hpending] at hsearch htop
    cases dropped with
    | nil => exact Or.inr (hsearch.cut hs h (htop top rfl) hbuf hcut)
    | cons x dropped =>
      have hgone := (uncut_iff hs h hbuf x).mp (hlost x List.mem_cons_self)
      rw [htop x rfl] at hgone
      cases hgone

theorem OpenStage.acknowledged (hs : Separated hash.pair (Hashes E) K)
    (h : Represents hash E K p.set.trie S o) (hgrown : S₀ ⊆ S) {r : Option (Digest d)}
    (hr : KeyValueTrie.getRoot p.set.trie = ⟨.ok r, p.set.trie, []⟩) {bits : List Bool}
    (hle : bits.length ≤ p.sync.sentHashes.length)
    (hbits : ∀ e ∈ (p.sync.sentHashes.take bits.length).zip bits,
      e.2 = false → ∀ k, HashOver hash E K e.1 k → k ∈ S')
    (hp : OpenStage hash E K S₀ S' p) : OpenStage hash E K S₀ S' (SyncProcess.acknowledged bits r p) := by
  rcases hp with hstat | hsearch
  · exact Or.inl hstat
  · refine Or.inr (foldl_acks (J := OpenSearch hash E K S₀ S')
      (Q := fun e => e.2 = false → ∀ k, HashOver hash E K e.1 k → k ∈ S') ?_ hle hbits hsearch)
    intro w x b sent hb hw
    exact hw.ack hs h hgrown hr hb

/-- The side has nothing left to search. -/
theorem OpenStage.finished (h : Represents hash E K p.set.trie S o) (hgrown : S₀ ⊆ S)
    (hp : OpenStage hash E K S₀ S' p)
    (hpending : p.sync.stat ≠ .START → p.sync.pendingSubtries = []) (hsent : p.sync.sentHashes = [])
    (hroot : p.sync.stat = .START → ¬HasRoot p.set) :
    ∀ k ∈ S₀, k ∈ S' ∨ (k, true) ∈ p.handled := by
  by_cases hstat : p.sync.stat = .START
  · intro k hk
    have hne : S ≠ ∅ := Finset.ne_empty_of_mem (hgrown hk)
    exact absurd ((hasRoot_iff h).mpr hne) (hroot hstat)
  · rcases hp with hs | hsearch
    · exact absurd hs hstat
    · rw [OpenSearch, hpending hstat, hsent] at hsearch
      exact Accounted.all_done hsearch

end OpenStage

/-! ## Both sides -/

/-- `getSubTrie` finds the hash on top of the pending ones, if there is one. -/
def SyncAction.findsTop : SyncAction d → SyncSystem d → Bool
  | .getSubTrie x _, c =>
    match (c.peer x).sync.pendingSubtries with
    | [] => true
    | top :: _ => !unknown (c.peer x).set.trie top
  | _, _ => true

/-- The calls of the synchronization, and insertions. -/
def SyncAction.IsCallOrInsert : SyncAction d → Prop
  | .insert _ _ => True
  | a => a.IsCall

/-- Both sets have grown by reported keys only, and both searches are on their way. -/
structure Inserting (hash : CryptoHash d) (E : Digest d × Digest d → Prop) (K : Digest d → Prop)
    (S₀ S : Side → Finset (Digest d)) (c : SyncSystem d) : Prop where
  trie : ∀ x, ∃ t, Represents hash E K (c.peer x).set.trie (S x) t
  grown : ∀ x, S₀ x ⊆ S x
  taken : ∀ x, ∀ k ∈ S x, k ∈ S₀ x ∨ (k, true) ∈ (c.peer x.other).handled
  handled : ∀ x, ∀ call ∈ (c.peer x).handled, call.1 ∈ S x
  known : ∀ x h, (h, false) ∈ (c.log x).answered → ∀ k, HashOver hash E K h k → k ∈ S x.other
  stage : ∀ x, OpenStage hash E K (S₀ x) (S x.other) (c.peer x)

section Step

variable {hash : CryptoHash d} {E : Digest d × Digest d → Prop} {K : Digest d → Prop}
  {S₀ S : Side → Finset (Digest d)} {c c' : SyncSystem d}

theorem SyncAction.findsTop_getSubTrie {x : Side} {buffersize : Nat}
    (h : SyncAction.findsTop (.getSubTrie x buffersize) c = true) :
    ∀ top ∈ (c.peer x).sync.pendingSubtries.head?, unknown (c.peer x).set.trie top = false := by
  intro top htop
  unfold SyncAction.findsTop at h
  cases hpending : (c.peer x).sync.pendingSubtries with
  | nil =>
    rw [hpending] at htop
    cases htop
  | cons y rest =>
    rw [hpending] at htop
    obtain rfl := Option.some.inj htop
    simpa [hpending] using h

/-- **One call.** -/
theorem Stepped.inserting {a : SyncAction d} (hs : Separated hash.pair (Hashes E) K)
    (h : Stepped c a c') (ha : a.IsCall) (hfound : a.findsTop c = true) (hsync : Synced c)
    (hc : Inserting hash E K S₀ S c) : Inserting hash E K S₀ S c' := by
  have hset : ∀ y, (c'.peer y).set = (c.peer y).set := h.set_eq ha.keepsSets.ne_change
  refine ⟨fun y => by rw [hset y]; exact hc.trie y, hc.grown, fun y k hk => ?_, fun y call hcall => ?_,
    fun y h' hin k hk => ?_, fun y => ?_⟩
  · obtain ⟨calls, heq, -⟩ := h.handled hsync y.other
    rw [heq]
    exact (hc.taken y k hk).imp_right (List.mem_append_left _)
  · -- only leaves of the trie are reported
    obtain ⟨calls, heq, hcalls⟩ := h.handled hsync y
    rw [heq] at hcall
    rcases List.mem_append.mp hcall with hcall | hcall
    · exact hc.handled y call hcall
    · obtain ⟨t, ht⟩ := hc.trie y
      apply (ht.contains_iff hash hs call.1).mp
      rw [contains_record ht.failure, (hcalls call hcall).2.1]
  · obtain ⟨new, heq, hnew⟩ := h.new_answers y
    rw [heq] at hin
    rcases List.mem_append.mp hin with hin | hin
    · exact hc.known y h' hin k hk
    · obtain ⟨t, ht⟩ := hc.trie y.other
      exact hk.mem_of_found hs ht (hnew _ hin).symm
  · have hpeer : ∀ (x : Side) (p : Peer d), OpenStage hash E K (S₀ x) (S x.other) p →
        OpenStage hash E K (S₀ y) (S y.other) ((setPeer x p c).peer y) := fun x p hp =>
      forall_setPeer (P := fun y p => OpenStage hash E K (S₀ y) (S y.other) p) hc.stage hp y
    cases h with
    | idle => exact hc.stage y
    | @polled x r root =>
      obtain ⟨t, ht⟩ := hc.trie x
      exact hpeer x _ ((hc.stage x).polled ht (hc.grown x) root)
    | @uncut x buffersize pending =>
      obtain ⟨t, ht⟩ := hc.trie x
      exact hpeer x (SyncProcess.noCut (c.peer x))
        ((hc.stage x).noCut hs ht ha pending (SyncAction.findsTop_getSubTrie hfound))
    | @cut x buffersize dropped rest top buffer size pending lost found =>
      obtain ⟨t, ht⟩ := hc.trie x
      exact hpeer x (SyncProcess.sentCut rest (buffer.take size) size (c.peer x))
        ((hc.stage x).sentCut hs ht ha pending lost found (SyncAction.findsTop_getSubTrie hfound))
    | @answered x message rest channel =>
      exact hpeer x (SyncProcess.answeredAll message (c.peer x)) (hc.stage x)
    | @replied x length buffer number bits size =>
      exact hpeer x (SyncProcess.tookAcks number (c.peer x)) (hc.stage x)
    | @acked x buffer number rest r channel root =>
      obtain ⟨t, ht⟩ := hc.trie x
      have hsplit := answers_of_channel channel
      refine hpeer x (SyncProcess.received ((number + 7) / 8)
        (SyncProcess.acknowledged (SyncProcess.ackBits buffer number) r (c.peer x)))
        ((hc.stage x).acknowledged hs ht (hc.grown x) root ((hsync.aligned x).length_le hsplit) ?_)
      rintro ⟨h', b⟩ he rfl k hk
      exact hc.known x h' ((hsync.aligned x).next_answers hsplit _ he) k hk
    | compared root => exact absurd ha id
    | changed => exact absurd ha id

/-- **One insertion** of a reported key. -/
theorem Inserting.insertKey (hc : Inserting hash E K S₀ S c) {x : Side} {k : Digest d} {s' : SetState d}
    {S' : Finset (Digest d)} {t' : Option (Trie (Digest d))}
    (hk : (k, true) ∈ (c.peer x.other).handled) (ht' : Represents hash E K s'.trie S' t')
    (hS' : S' = S x ∨ S' = insert k (S x)) :
    Inserting hash E K S₀ (Function.update S x S') (setPeer x { c.peer x with set := s' } c) := by
  have hsub : ∀ y, S y ⊆ Function.update S x S' y := by
    intro y
    rcases Side.eq_or_other x y with rfl | rfl
    · rw [Function.update_self]
      rcases hS' with rfl | rfl
      · exact Finset.Subset.refl _
      · exact Finset.subset_insert _ _
    · rw [Function.update_of_ne (Side.other_ne x)]
  -- the processes are as before
  have hsync : ∀ y, ((setPeer x { c.peer x with set := s' } c).peer y).sync = (c.peer y).sync := by
    intro y
    rcases Side.eq_or_other x y with rfl | rfl <;> simp [setPeer]
  have hhandled : ∀ y, ((setPeer x { c.peer x with set := s' } c).peer y).handled
      = (c.peer y).handled := by
    intro y
    rcases Side.eq_or_other x y with rfl | rfl <;> simp [setPeer]
  refine ⟨fun y => ?_, fun y => (hc.grown y).trans (hsub y), fun y k' hk' => ?_, fun y call hcall => ?_,
    fun y h hin k' hk' => hsub _ (hc.known y h hin k' hk'), fun y => ?_⟩
  · rcases Side.eq_or_other x y with rfl | rfl
    · simpa [setPeer] using ⟨t', ht'⟩
    · simpa [setPeer] using hc.trie x.other
  · rw [hhandled]
    rcases Side.eq_or_other x y with rfl | rfl
    · rw [Function.update_self] at hk'
      rcases hS' with rfl | rfl
      · exact hc.taken y k' hk'
      · rcases Finset.mem_insert.mp hk' with rfl | hk'
        · exact Or.inr hk
        · exact hc.taken y k' hk'
    · rw [Function.update_of_ne (Side.other_ne x)] at hk'
      exact hc.taken x.other k' hk'
  · rw [hhandled] at hcall
    exact hsub y (hc.handled y call hcall)
  · have hy := hc.stage y
    unfold OpenStage at hy ⊢
    rw [hsync, hhandled]
    exact hy.imp_right fun hw => hw.mono (hsub y.other)

/-- **One action.** -/
theorem exec_inserting (fresh : Digest d) {fuel : Nat} (hd : d ≠ 4) (hw : 8 * d < 256)
    (hs : Separated hash.pair (Hashes E) K) (hfuel : 255 < fuel) {a : SyncAction d}
    (ha : a.IsCallOrInsert) (hfound : a.findsTop c = true)
    (hc : Synced c ∧ ∃ S, Inserting hash E K S₀ S c) :
    Prog.Returns E (a.exec hash fresh fuel) c fun _ c' =>
      Synced c' ∧ ∃ S, Inserting hash E K S₀ S c' := by
  obtain ⟨hsync, S, hc⟩ := hc
  by_cases hcall : a.IsCall
  · have hworks := hcall.keepsSets.works
    obtain ⟨c', hexec, hstep⟩ := exec_ok hash fresh fuel hsync a hworks
    exact Prog.Returns.of_eq hexec
      ⟨hstep.synced hsync hworks, S, hstep.inserting hs hcall hfound hsync hc⟩
  · cases a with
    | insert x k =>
      apply Prog.Returns.bind_of_eq (Prog.get_apply c)
      split
      · -- the key was reported, so it is a key of the other side
        rename_i hk
        obtain ⟨t, ht⟩ := hc.trie x
        obtain ⟨t', hother⟩ := hc.trie x.other
        have hkey : K k := hother.keys_mem k (hc.handled x.other _ hk)
        have hleaves : Prog.Leaves E
            (onPeer x (SyncProcess.onSet (SetState.insert hash fresh fuel k))) c
            fun c' => Synced c' ∧ ∃ S, Inserting hash E K S₀ S c' := by
          refine Prog.Leaves.zoom (R := fun p => Synced (setPeer x p c) ∧
            ∃ S, Inserting hash E K S₀ S (setPeer x p c)) ?_ fun _ hp => hp
          apply Prog.Leaves.zoom (insert_leaves fresh hd hw hs hfuel hkey ht)
          rintro s' ⟨S', t', ht', hS', -⟩
          have hchange : Stepped c (.change x s') (setPeer x { c.peer x with set := s' } c) := .changed
          exact ⟨hchange.synced hsync ht'.failure, _, hc.insertKey hk ht' hS'⟩
        exact Prog.Returns.bind (Prog.Leaves.catch false hleaves) fun _ c' hc' => Prog.Returns.pure hc'
      · exact Prog.Returns.pure ⟨hsync, S, hc⟩
    | _ => exact absurd ha hcall

theorem inserting_start {A B : SetState d}
    (hrep : ∀ x, ∃ t, Represents hash E K (setOf A B x).trie (S₀ x) t) :
    Inserting hash E K S₀ S₀ (start A B) := by
  have hhandled : ∀ x, ((start A B).peer x).handled = [] := fun x => by cases x <;> rfl
  refine ⟨fun x => ?_, fun x => Finset.Subset.refl _, fun x k hk => Or.inl hk, fun x call hcall => ?_,
    fun x h hin => absurd hin List.not_mem_nil, fun x => Or.inl ?_⟩
  · have hx := hrep x
    cases x <;> exact hx
  · rw [hhandled] at hcall
    exact absurd hcall List.not_mem_nil
  · cases x <;> rfl

/-- In a quiet state every key that the other side did not have is reported. -/
theorem Inserting.finished (hc : Inserting hash E K S₀ S c) (hsync : Synced c) (hq : Quiet c)
    (x : Side) : ∀ k ∈ S₀ x, k ∉ S₀ x.other → (k, true) ∈ (c.peer x).handled := by
  obtain ⟨t, ht⟩ := hc.trie x
  intro k hk hno
  have hend := (hc.stage x).finished ht (hc.grown x) (hq.pending hsync x) (hq.sent x)
    (hq.no_root hsync x)
  rcases hend k hk with hother | hreported
  · -- the other side has got the key from here
    rcases hc.taken x.other k hother with hold | hreported
    · exact absurd hold hno
    · rwa [Side.other_other] at hreported
  · exact hreported

end Step

/-- **A run with insertions** in which no pending hash is gone when its turn comes reports every missing
key. -/
theorem inserting_sync_complete (hash : CryptoHash d) (fresh₁ fresh₂ fresh : Digest d) {fuel : Nat}
    (hd : d = 16 ∨ d = 20 ∨ d = 28) (hfuel : 255 < fuel) (ops₁ ops₂ : List (SetOp (Digest d)))
    (A B : SetState d) (hA : A.trie = (runTrie hash fresh₁ fuel ops₁).state)
    (hB : B.trie = (runTrie hash fresh₂ fuel ops₂).state) (actions : List (SyncAction d))
    (ha : ∀ a ∈ actions, a.IsCallOrInsert)
    (hfound : Prog.Throughout (SyncAction.exec hash fresh fuel) SyncAction.findsTop (start A B) actions
      = true)
    (r : Run (SyncSystem d) (Digest d × Digest d) Exn (List Unit))
    (hr : r = SyncAction.run hash fresh fuel actions (start A B))
    (hc : CollisionFree hash ((runTrie hash fresh₁ fuel ops₁).events
      ++ (runTrie hash fresh₂ fuel ops₂).events ++ r.events))
    (hk : KeysFresh hash (addedKeys ops₁ ++ addedKeys ops₂) ((runTrie hash fresh₁ fuel ops₁).events
      ++ (runTrie hash fresh₂ fuel ops₂).events ++ r.events)) :
    (∃ us, r.outcome = .ok us) ∧ (Quiet r.state →
      (∀ k ∈ (setRun ∅ ops₁).2, k ∉ (setRun ∅ ops₂).2 → (k, true) ∈ (r.state.peer .A).handled) ∧
      ∀ k ∈ (setRun ∅ ops₂).2, k ∉ (setRun ∅ ops₁).2 → (k, true) ∈ (r.state.peer .B).handled) := by
  obtain ⟨hd4, hw⟩ := narrow_digest hd
  have hs := separated_of_collisionFree hc hk
  obtain ⟨_, t₁, h₁⟩ := runTrie_represents hash fresh₁ hd hfuel hc hk
    (List.subset_append_left _ _)
    (List.subset_append_of_subset_left _ (List.subset_append_left _ _))
  obtain ⟨_, t₂, h₂⟩ := runTrie_represents hash fresh₂ hd hfuel hc hk
    (List.subset_append_right _ _)
    (List.subset_append_of_subset_left _ (List.subset_append_right _ _))
  rw [← hA] at h₁
  rw [← hB] at h₂
  let S₀ := Side.pick (setRun ∅ ops₁).2 (setRun ∅ ops₂).2
  have hrep := @Side.rec (fun x => ∃ t, Represents hash _ _ (setOf A B x).trie (S₀ x) t)
    ⟨t₁, h₁⟩ ⟨t₂, h₂⟩
  have hrun := Prog.Returns.each_throughout
    (J := fun c => Synced c ∧ ∃ S, Inserting hash _ _ S₀ S c)
    (fun a hmem c hj hf => exec_inserting fresh hd4 hw hs hfuel (ha a hmem) hf hj)
    ⟨synced_start h₁.failure h₂.failure, S₀, inserting_start hrep⟩ hfound
  obtain ⟨us, ho, hsync, S, hins⟩ := hrun fun e he => List.mem_append_right _ (hr ▸ he)
  subst hr
  exact ⟨⟨us, ho⟩, fun hq => ⟨hins.finished hsync hq .A, hins.finished hsync hq .B⟩⟩

/-- The first side inserts a key of the second side while its own two keys are not answered. -/
def insertingActions : List (SyncAction 16) :=
  [.poll .A, .poll .B, .getSubTrie .A 32, .getSubTrie .B 32, .processSubTrie .A,
    .readSomeTrieAcks .A 1, .processAcks .B, .insert .A (byteKey 16 3), .processSubTrie .B,
    .readSomeTrieAcks .B 1, .processAcks .A]

theorem inserting_sync_complete_sample :
    (byteKey 16 1, true) ∈ ((SyncAction.run (mixHash 16) (byteKey 16 0) 256 insertingActions (start
      (setWith [byteKey 16 1, byteKey 16 2]) (setWith [byteKey 16 3]))).state.peer .A).handled := by
  have hcalls : ∀ a ∈ insertingActions, a.IsCallOrInsert := by
    simp only [insertingActions, List.forall_mem_cons, SyncAction.IsCallOrInsert, SyncAction.IsCall]
    exact ⟨trivial, trivial, by decide, by decide, trivial, by decide, trivial, trivial, trivial,
      by decide, trivial, by simp⟩
  exact ((inserting_sync_complete (mixHash 16) (byteKey 16 0) (byteKey 16 0) (byteKey 16 0) (Or.inl rfl)
    (by decide) ([byteKey 16 1, byteKey 16 2].map .add) ([byteKey 16 3].map .add)
    (setWith [byteKey 16 1, byteKey 16 2]) (setWith [byteKey 16 3]) (setWith_trie _) (setWith_trie _)
    insertingActions hcalls (by decide +kernel) _ rfl (by decide +kernel) (by decide +kernel)).2
    (fun x => by cases x <;> decide +kernel)).1 _ (by decide +kernel) (by decide +kernel)

/-- The first side inserts a key before it has cut its root, which is pending. -/
def droppingActions : List (SyncAction 16) :=
  [.poll .A, .poll .B, .getSubTrie .B 32, .processSubTrie .A, .readSomeTrieAcks .A 1, .processAcks .B,
    .insert .A (byteKey 16 3), .getSubTrie .A 32]

/-- The system after `droppingActions`. -/
def dropping : Run (SyncSystem 16) (Digest 16 × Digest 16) Exn (List Unit) :=
  SyncAction.run (mixHash 16) (byteKey 16 0) 256 droppingActions
    (start (setWith [byteKey 16 1, byteKey 16 2]) (setWith [byteKey 16 3]))

/-- **A subtrie that is dropped is lost**: the insertion has replaced the root that was pending, and no
key of the first side is ever reported. -/
theorem dropped_subtrie_lost :
    (∀ a ∈ droppingActions, a.IsCallOrInsert) ∧
      CollisionFree (mixHash 16)
        ((runTrie (mixHash 16) (byteKey 16 0) 256 ([byteKey 16 1, byteKey 16 2].map .add)).events
          ++ (runTrie (mixHash 16) (byteKey 16 0) 256 ([byteKey 16 3].map .add)).events
          ++ dropping.events) ∧
      KeysFresh (mixHash 16) (addedKeys ([byteKey 16 1, byteKey 16 2].map .add)
          ++ addedKeys ([byteKey 16 3].map .add))
        ((runTrie (mixHash 16) (byteKey 16 0) 256 ([byteKey 16 1, byteKey 16 2].map .add)).events
          ++ (runTrie (mixHash 16) (byteKey 16 0) 256 ([byteKey 16 3].map .add)).events
          ++ dropping.events) ∧
      Quiet dropping.state ∧
      ¬∀ k ∈ (setRun ∅ ([byteKey 16 1, byteKey 16 2].map .add)).2,
        k ∉ (setRun ∅ ([byteKey 16 3].map .add)).2 → (k, true) ∈ (dropping.state.peer .A).handled := by
  refine ⟨?_, by decide +kernel, by decide +kernel, fun x => by cases x <;> decide +kernel, fun h => ?_⟩
  · simp only [droppingActions, List.forall_mem_cons, SyncAction.IsCallOrInsert, SyncAction.IsCall]
    exact ⟨trivial, trivial, by decide, trivial, by decide, trivial, trivial, by decide, by simp⟩
  · exact absurd (h (byteKey 16 1) (by decide +kernel) (by decide +kernel)) (by decide +kernel)

end SetSync
