import SetSync.BloomSpec
import SetSync.SubTrieCut
import SetSync.SyncRuns

/-!
# A request for a subtrie

`SynchronizationProcess::getSubTrie` takes hashes from the stack `pendingSubtries_` until one can be
cut.  It catches everything, so the buffer that is too small is treated as the hash that is gone.

    a hash can be cut      just when it is stored and the buffer has room for two hashes (uncut_iff_missing)
    nothing is lost        just when there is that room, or no pending hash is stored and something else
                           is waited for                                (request_loses_nothing_iff)
-/

namespace SetSync

open Program BitTrie SyncProcess

variable {d : Nat}

/-! ## What can be cut -/

section Cuts

variable {s : TrieState d}

/-- The trie of a run links its records. -/
theorem Represents.links {hash : CryptoHash d} {E : Digest d × Digest d → Prop} {K : Digest d → Prop}
    {S : Finset (Digest d)} {t : Option (Trie (Digest d))}
    (hs : Separated hash.pair (Hashes E) K) (h : Represents hash E K s S t) : Linked s := by
  cases t with
  | none =>
    intro x e a b hx _
    rw [Holds.record h.stores x] at hx
    cases hx
  | some t => exact (h.repInvariant hs).links

/-- A stored hash is cut, and the cut has a hash. -/
theorem getSubTrie_cuts (hl : Linked s) (hst : s.storage.failure = none) {x : Digest d}
    {e : Entry (Digest d)} (hx : s.record x = some e) {buffersize : Nat} (hbuf : 2 ≤ buffersize / d) :
    ∃ hashes : List (Digest d), hashes ≠ [] ∧ KeyValueTrie.getSubTrie x buffersize s
      = ⟨.ok (hashes.flatMap Digest.bytes, hashes.length * d), s, []⟩ := by
  obtain ⟨u, rfl, hu⟩ := exists_unfolds hl 256 hx (Nat.sub_le 256 e.len)
  obtain ⟨us, hcut, hrun⟩ := getSubTrie_cutOf hst hu hbuf
  refine ⟨us.map Trie.label, ?_, by rw [hrun, List.length_map]⟩
  rw [ne_eq, List.map_eq_nil_iff]
  exact List.length_pos_iff.mp hcut.pos

/-- The cut of a hash fails where the buffer is too small, and where the hash is not stored. -/
theorem uncut_iff_missing (hl : Linked s) (hst : s.storage.failure = none) (x : Digest d)
    (buffersize : Nat) :
    Uncut s buffersize x ↔ buffersize / d < 2 ∨ absent s x = true := by
  by_cases hbuf : buffersize / d < 2
  · refine iff_of_true ⟨.text "buffer is too small!", ?_⟩ (Or.inl hbuf)
    unfold KeyValueTrie.getSubTrie
    simp only
    rw [if_pos hbuf]
    rfl
  · rw [or_iff_right hbuf, absent_iff]
    have hbuf' : 2 ≤ buffersize / d := Nat.le_of_not_lt hbuf
    cases hx : s.record x with
    | none =>
      refine iff_of_true ⟨.trieNodeNotFound, ?_⟩ rfl
      have hnone : s.storage.table.lookup x.bytes = none := Option.map_eq_none_iff.mp hx
      unfold KeyValueTrie.getSubTrie
      simp only
      rw [if_neg hbuf]
      exact Prog.bind_of_error (load_missing hst hnone) _
    | some e =>
      obtain ⟨hashes, -, hcut⟩ := getSubTrie_cuts hl hst hx hbuf'
      exact iff_of_false (not_uncut_of_ok hcut) (Option.some_ne_none e)

end Cuts

/-! ## What a request takes from the stack -/

/-- A request takes hashes from the stack that are not stored any more, and at most one behind them,
whose cut it returns.  With a buffer that is too small, and while a stored hash is pending, no request makes
the process look finished. -/
structure LosesNothing (p : Peer d) (buffersize : Nat) : Prop where
  taken : ∃ gone, (∀ x ∈ gone, absent p.set.trie x = true) ∧
    (((getSubTrie buffersize p).outcome = .ok [] ∧
        p.sync.pendingSubtries = gone ++ (getSubTrie buffersize p).state.sync.pendingSubtries) ∨
      ∃ top buffer size,
        p.sync.pendingSubtries = gone ++ top :: (getSubTrie buffersize p).state.sync.pendingSubtries ∧
        KeyValueTrie.getSubTrie top buffersize p.set.trie = ⟨.ok (buffer, size), p.set.trie, []⟩ ∧
        (getSubTrie buffersize p).outcome = .ok (buffer.take size))
  unfinished : buffersize / d < 2 ∨ (∃ x ∈ p.sync.pendingSubtries, absent p.set.trie x = false) →
    done p = false → done (getSubTrie buffersize p).state = false

/-- The pending hashes are all that `done()` waits for. -/
def OnlyPending (p : Peer d) : Prop :=
  p.sync.pendingSubtries ≠ [] ∧ p.sync.pendingAcks = [] ∧ p.sync.sentHashes = [] ∧
    p.sync.stat ≠ .START ∧ p.sync.stat ≠ .EQUAL

theorem stat_of_not_done {p : Peer d} (h : done p = false) : p.sync.stat ≠ .EQUAL := by
  intro hstat
  unfold done at h
  rw [if_pos hstat] at h
  cases h

/-- A process with hashes that were not answered is not done. -/
theorem done_of_sent {p : Peer d} (hstat : p.sync.stat ≠ .EQUAL) (h : p.sync.sentHashes ≠ []) :
    done p = false :=
  Bool.eq_false_iff.mpr fun hdone => h ((done_iff hstat).mp hdone).2.2.2

/-- Without its pending hashes a process is done just when it waited for nothing else. -/
theorem finishes_iff (p : Peer d) : done p = false ∧ done (noCut p) = true ↔ OnlyPending p := by
  constructor
  · rintro ⟨hopen, hdone⟩
    have hequal := stat_of_not_done hopen
    have hequal' : (noCut p).sync.stat ≠ .EQUAL := hequal
    obtain ⟨hstart, -, hacks, hsent⟩ := (done_iff hequal').mp hdone
    refine ⟨fun hnone => ?_, hacks, hsent, hstart, hequal⟩
    rw [(done_iff hequal).mpr ⟨hstart, hnone, hacks, hsent⟩] at hopen
    cases hopen
  · rintro ⟨hpending, hacks, hsent, hstart, hequal⟩
    refine ⟨Bool.eq_false_iff.mpr fun hdone => hpending ((done_iff hequal).mp hdone).2.1, ?_⟩
    have hequal' : (noCut p).sync.stat ≠ .EQUAL := hequal
    exact (done_iff hequal').mpr ⟨hstart, rfl, hacks, hsent⟩

/-- A cut that is sent has to be answered. -/
theorem sentCut_not_done {p : Peer d} (hl : Linked p.set.trie) (hst : p.set.trie.storage.failure = none)
    {buffersize size : Nat} {top : Digest d} {buffer : Bytes}
    (hcut : KeyValueTrie.getSubTrie top buffersize p.set.trie = ⟨.ok (buffer, size), p.set.trie, []⟩)
    (rest : List (Digest d)) (hdone : done p = false) :
    done (sentCut rest (buffer.take size) size p) = false := by
  -- the top is stored, and the buffer has room, or else there was no cut
  have hcuttable := not_uncut_of_ok hcut
  rw [uncut_iff_missing hl hst, absent_iff, not_or, Nat.not_lt] at hcuttable
  obtain ⟨hroom, hstored⟩ := hcuttable
  obtain ⟨e, he⟩ := Option.ne_none_iff_exists'.mp hstored
  obtain ⟨hashes, hne, hcut'⟩ := getSubTrie_cuts hl hst he hroom
  rw [hcut'] at hcut
  cases hcut
  have hstat : p.sync.stat ≠ .EQUAL := stat_of_not_done hdone
  apply done_of_sent
  · exact hstat
  · show p.sync.sentHashes ++ entries d _ ≠ []
    rw [entries_take (pos_of_room hroom)]
    exact List.append_ne_nil_of_right_ne_nil _ hne

/-- **Nothing is lost just when the buffer has room for two hashes, or no pending hash is stored and the
pending ones are not all that `done()` waits for.** -/
theorem request_loses_nothing_iff (p : Peer d) (hst : p.set.trie.storage.failure = none)
    (hl : Linked p.set.trie) (buffersize : Nat) :
    LosesNothing p buffersize ↔ 2 ≤ buffersize / d ∨
      ((∀ x ∈ p.sync.pendingSubtries, absent p.set.trie x = true) ∧ ¬OnlyPending p) := by
  have huncut := uncut_iff_missing hl hst
  constructor
  · intro h
    by_contra hno
    obtain ⟨hsmall, hlost⟩ := not_or.mp hno
    have hsmall := Nat.lt_of_not_le hsmall
    -- every cut fails, so the stack is emptied
    have hall : ∀ x, Uncut p.set.trie buffersize x := fun x => (huncut x buffersize).mpr (Or.inl hsmall)
    rcases getSubTrie_spec buffersize hst with ⟨-, hrun⟩ | ⟨_, top, _, _, _, _, _, hcut, -⟩
    · obtain ⟨gone, hgone, htaken⟩ := h.taken
      have hunfinished := h.unfinished (Or.inl hsmall)
      rw [hrun] at htaken hunfinished
      rcases htaken with ⟨-, hsplit⟩ | ⟨top, _, _, _, hcut, _⟩
      · apply hlost
        constructor
        · rw [hsplit]
          show ∀ x ∈ gone ++ [], _
          rw [List.append_nil]
          exact hgone
        · intro honly
          obtain ⟨hopen, hdone⟩ := (finishes_iff p).mpr honly
          have hstill : done (noCut p) = false := hunfinished hopen
          rw [hdone] at hstill
          cases hstill
      · exact absurd (hall top) (not_uncut_of_ok hcut)
    · exact absurd (hall top) (not_uncut_of_ok hcut)
  · intro h
    -- what is dropped is not stored
    have hgone : ∀ x ∈ p.sync.pendingSubtries, Uncut p.set.trie buffersize x →
        absent p.set.trie x = true := by
      intro x hx hcut
      rcases h with hroom | ⟨hall, -⟩
      · exact ((huncut x buffersize).mp hcut).resolve_left (Nat.not_lt.mpr hroom)
      · exact hall x hx
    rcases getSubTrie_spec buffersize hst with
      ⟨hall, hrun⟩ | ⟨dropped, top, rest, buffer, size, hsplit, hdrop, hcut, hrun⟩
    · constructor
      · refine ⟨p.sync.pendingSubtries, fun x hx => hgone x hx (hall x hx), Or.inl ?_⟩
        rw [hrun]
        exact ⟨rfl, (List.append_nil _).symm⟩
      · intro hcase hopen
        rw [hrun]
        rcases hcase with hsmall | ⟨x, hx, hstored⟩
        · -- the buffer is too small, and more is waited for than what was pending
          obtain ⟨-, honly⟩ := h.resolve_left (Nat.not_le.mpr hsmall)
          exact Bool.eq_false_iff.mpr fun hdone => honly ((finishes_iff p).mp ⟨hopen, hdone⟩)
        · rw [hgone x hx (hall x hx)] at hstored
          cases hstored
    · have hdropped : ∀ x ∈ dropped, absent p.set.trie x = true := by
        intro x hx
        apply hgone x _ (hdrop x hx)
        rw [hsplit]
        exact List.mem_append_left _ hx
      constructor
      · refine ⟨dropped, hdropped, Or.inr ⟨top, buffer, size, ?_, hcut, ?_⟩⟩
        · rw [hrun]
          exact hsplit
        · rw [hrun]
      · intro _ hdone
        rw [hrun]
        exact sentCut_not_done hl hst hcut rest hdone

/-- A process on a set of one key that was asked for output, so that the root is pending. -/
def askedPeer : Peer 16 :=
  { Peer.fresh (setWith [byteKey 16 1]) with
    sync := { SyncProcess.create 16 with stat := .TRIE, pendingSubtries := [byteKey 16 1] } }

example : (isSubtrieOutputAvailable (Peer.fresh (setWith [byteKey 16 1]))).state.sync.pendingSubtries
    = askedPeer.sync.pendingSubtries := by decide +kernel

theorem askedPeer_linked : Linked askedPeer.set.trie := by
  have hc : CollisionFree (mixHash 16)
      (runTrie (mixHash 16) (byteKey 16 0) 256 ([byteKey 16 1].map .add)).events := by decide +kernel
  have hk : KeysFresh (mixHash 16) (addedKeys ([byteKey 16 1].map .add))
      (runTrie (mixHash 16) (byteKey 16 0) 256 ([byteKey 16 1].map .add)).events := by decide +kernel
  obtain ⟨-, t, ht⟩ := runTrie_represents (mixHash 16) (byteKey 16 0) (Or.inl rfl)
    (show 255 < 256 by decide) hc hk (List.Subset.refl _) (List.Subset.refl _)
  exact ht.links (separated_of_collisionFree hc hk)

/-- The stack has a hash that is gone, and then the root. -/
def vanishedPeer : Peer 16 :=
  { askedPeer with sync := { askedPeer.sync with pendingSubtries := [byteKey 16 7, byteKey 16 1] } }

theorem request_loses_nothing_sample : LosesNothing vanishedPeer 32 ∧ ¬LosesNothing vanishedPeer 31 ∧
    absent vanishedPeer.set.trie (byteKey 16 7) = true ∧
    (getSubTrie 32 vanishedPeer).outcome = .ok (byteKey 16 1).bytes := by
  have hroom := request_loses_nothing_iff vanishedPeer (by decide +kernel) askedPeer_linked 32
  have hsmall := request_loses_nothing_iff vanishedPeer (by decide +kernel) askedPeer_linked 31
  refine ⟨hroom.mpr (Or.inl (by decide)), fun h => ?_, by decide +kernel, by decide +kernel⟩
  rcases hsmall.mp h with hbuf | ⟨hall, -⟩
  · exact absurd hbuf (by decide)
  · exact absurd (hall (byteKey 16 1) (by decide +kernel)) (by decide +kernel)

/-- A buffer of one hash: the pending root is dropped, nothing is returned, and the process is done. -/
theorem small_buffer_loses_root : ¬LosesNothing askedPeer 16 := by
  intro h
  have hdone := h.unfinished (Or.inl (by decide)) (by decide +kernel)
  revert hdone
  decide +kernel

end SetSync
