import SetSync.TrieEquality
import SetSync.TrieFrames

/-!
# Reopening the trie

The destructor writes the size, if it is not 0, and the constructor reads it back.  The entry goes with
the last leaf, since the storage is wiped then, so a trie that is reopened when it is empty finds no
entry and starts with 0.  A run with reopenings therefore follows the run without them:

    Follows s s' S    s holds the keys S; s' is the same but for the size entry, which it has not if S = ∅
    one call          Follows s s' S → the same answer, Follows again                 (Follows.exec)
    reopening         Follows s s' S → Follows s s'' S                              (Follows.reopen)
    a run             the same answers, and the number of leaves is loaded      (reopening_invisible)
-/

namespace SetSync

open Program BitTrie KeyValueTrie

variable {d : Nat}

/-- A call of a method, or the end of one trie object and the start of the next. -/
inductive TrieCall (d : Nat) where
  | op (o : SetOp (Digest d))
  | reopen

/-- The calls that are no reopening. -/
def opsOf : List (TrieCall d) → List (SetOp (Digest d))
  | [] => []
  | .op o :: calls => o :: opsOf calls
  | .reopen :: calls => opsOf calls

section Runs

variable (hash : CryptoHash d) (fresh : Digest d) (fuel : Nat)

/-- Reopening gives no answer. -/
def TrieCall.exec : TrieCall d → TrieM d (List (Option Bool))
  | op o => do
    let r ← o.exec hash fresh fuel
    pure [r]
  | reopen => do
    KeyValueTrie.reopen
    pure []

/-- The run from an empty storage. -/
def runCalls (calls : List (TrieCall d)) :
    Run (TrieState d) (Digest d × Digest d) Exn (List (List (Option Bool))) :=
  Prog.each (TrieCall.exec hash fresh fuel) calls (KeyValueTrie.empty d)

end Runs

/-! ## Two runs -/

structure Follows (hash : CryptoHash d) (E : Digest d × Digest d → Prop) (K : Digest d → Prop)
    (s s' : TrieState d) (S : Finset (Digest d)) : Prop where
  rep : ∃ t, Represents hash E K s S t
  same : SameTrie s s'
  entry : S = ∅ → sizeKey ∉ s'.storage.table

section Follow

variable {hash : CryptoHash d} {E : Digest d × Digest d → Prop} {K : Digest d → Prop}
  {s s' : TrieState d} {S : Finset (Digest d)} {fuel : Nat}

theorem Follows.empty : Follows hash E K (KeyValueTrie.empty d) (KeyValueTrie.empty d) ∅ :=
  ⟨⟨none, represents_empty hash E K⟩, ⟨rfl, rfl, fun _ _ => rfl, rfl⟩, fun _ => Finmap.notMem_empty⟩

theorem Follows.size_eq (h : Follows hash E K s s' S) : s'.size = S.card := by
  obtain ⟨t, ht⟩ := h.rep
  rw [h.same.size, ht.size_eq]

theorem clearStorage_wipes {s₁ : TrieState d} {u : Unit} {l : List (Digest d × Digest d)}
    (h : (onStorage Storage.clear : TrieM d Unit) s = ⟨.ok u, s₁, l⟩) : s₁.storage.table = ∅ := by
  have hstate : (Storage.clear s.storage : Run Storage (Digest d × Digest d) Exn Unit).outcome = .ok () ∧
      s₁.storage = (Storage.clear s.storage : Run Storage (Digest d × Digest d) Exn Unit).state := by
    rcases hrun : (Storage.clear s.storage : Run Storage (Digest d × Digest d) Exn Unit) with ⟨o, st, l'⟩
    rw [onStorage, Prog.zoom_of_eq hrun] at h
    cases h
    exact ⟨rfl, rfl⟩
  rw [hstate.2]
  have ho := hstate.1
  unfold Storage.clear Storage.operation at ho ⊢
  split at ho
  · rfl
  · cases ho
  · rfl

/-- A removal that leaves no leaf wipes the storage. -/
theorem remove_wipes {k : Digest d} {perf : Bool} {s₁ : TrieState d} {l : List (Digest d × Digest d)}
    (h : KeyValueTrie.remove hash fuel k perf s = ⟨.ok true, s₁, l⟩) (hsize : s₁.size = 0) :
    s₁.storage.table = ∅ := by
  rw [KeyValueTrie.remove, Prog.tryCatch_apply] at h
  split at h
  · cases h
  · obtain ⟨_, sa, _, _, -, h, -⟩ := Prog.bind_eq_ok h
    obtain ⟨removed, sb, _, _, -, h, -⟩ := Prog.bind_eq_ok h
    obtain ⟨_, sc, _, _, -, h, -⟩ := Prog.bind_eq_ok h
    obtain ⟨size, sd, _, _, hget, h, -⟩ := Prog.bind_eq_ok h
    obtain ⟨_, se, _, _, hclear, hpure, -⟩ := Prog.bind_eq_ok h
    cases hget
    cases hpure
    by_cases hzero : sc.size = 0
    · rw [if_pos hzero] at hclear
      obtain ⟨_, sf, _, _, hwipe, hset, -⟩ := Prog.bind_eq_ok hclear
      cases hset
      have hempty := clearStorage_wipes hwipe
      exact hempty
    · rw [if_neg hzero] at hclear
      cases hclear
      exact absurd hsize hzero

/-- Without a root, nothing is removed. -/
theorem remove_rootless (hwork : s.storage.failure = none)
    (hroot : s.storage.table.lookup KeyValueRootNode.rootName = none) (k : Digest d) (perf : Bool) :
    KeyValueTrie.remove hash fuel k perf s = ⟨.ok false, s, []⟩ := by
  unfold KeyValueTrie.remove
  rw [Prog.tryCatch_of_error (Prog.bind_of_error (rootGet_missing hwork hroot) _)]
  rfl

section Exec

variable (fresh : Digest d) (hd : d = 16 ∨ d = 20 ∨ d = 28) (hs : Separated hash.pair (Hashes E) K)
  (hfuel : 255 < fuel)

include hd hs hfuel

omit hs hfuel in
/-- The size entry is gone when the last leaf is. -/
theorem Follows.entry_exec (op : SetOp (Digest d)) (h : Follows hash E K s s' S) {s₁' : TrieState d}
    {l : List (Digest d × Digest d)} (hrun : op.exec hash fresh fuel s' = ⟨.ok (op.onSet S).1, s₁', l⟩)
    (hsize : (op.onSet S).2 = ∅ → s₁'.size = 0) (hempty : (op.onSet S).2 = ∅) :
    sizeKey ∉ s₁'.storage.table := by
  cases op with
  | add k => exact absurd hempty (Finset.insert_ne_empty k S)
  | clear =>
    obtain ⟨s₂, hclear, hstores⟩ := clear_ok (d := d) h.same.working'
    rw [SetOp.exec, Prog.bind_of_ok hclear] at hrun
    cases hrun
    intro hmem
    rcases Holds.only hstores sizeKey hmem with he | he
    · exact absurd he (by decide)
    · have : sizeKey.length = 8 := rfl
      omega
  | remove k =>
    by_cases hS : S = ∅
    · -- nothing was there, and nothing happens
      obtain ⟨t, ht⟩ := h.rep
      have hnone : t = none := ht.eq_empty_iff.mp hS
      subst hnone
      have hroot : s'.storage.table.lookup KeyValueRootNode.rootName = none := by
        rw [h.same.lookup _ (by decide), Holds.root ht.stores]
        rfl
      rw [SetOp.exec, Prog.bind_of_ok (remove_rootless h.same.working' hroot k true)] at hrun
      have hstate : s' = s₁' := congrArg Run.state hrun
      rw [← hstate]
      exact h.entry hS
    · have hk : k ∈ S := by
        by_contra hk
        exact hS (by rwa [SetOp.onSet, Finset.erase_eq_of_notMem hk] at hempty)
      obtain ⟨b, s₂, l₁, l₂, hremove, hpure, rfl⟩ := Prog.bind_eq_ok hrun
      have hanswer : b = true := by
        have hsame : some b = some (decide (k ∈ S)) := Outcome.ok.inj (congrArg Run.outcome hpure)
        rw [decide_eq_true hk] at hsame
        exact Option.some.inj hsame
      subst hanswer
      have hstate : s₂ = s₁' := congrArg Run.state hpure
      subst hstate
      rw [remove_wipes hremove (hsize hempty)]
      exact Finmap.notMem_empty

theorem Follows.exec (op : SetOp (Digest d)) (hk : ∀ k ∈ addedKeys [op], K k)
    (h : Follows hash E K s s' S) (hE : ∀ x ∈ (op.exec hash fresh fuel s).events, E x) :
    ∃ s₁ s₁' l, op.exec hash fresh fuel s = ⟨.ok (op.onSet S).1, s₁, l⟩ ∧
      op.exec hash fresh fuel s' = ⟨.ok (op.onSet S).1, s₁', l⟩ ∧
      Follows hash E K s₁ s₁' (op.onSet S).2 := by
  obtain ⟨hd4, hw⟩ := narrow_digest hd
  obtain ⟨t, ht⟩ := h.rep
  obtain ⟨_, ho, rfl, t₁, ht₁⟩ := exec_represents fresh hd4 hw hs hfuel op hk ht hE
  obtain ⟨ho', he', hsame⟩ := exec_frames (by omega) hash fresh fuel op s s' h.same
  have hrun' : op.exec hash fresh fuel s' = ⟨.ok (op.onSet S).1, (op.exec hash fresh fuel s').state,
      (op.exec hash fresh fuel s).events⟩ := Run.ext (ho'.trans ho) rfl he'
  refine ⟨_, _, _, Run.ext ho rfl rfl, hrun', ⟨t₁, ht₁⟩, hsame, fun hempty => ?_⟩
  refine h.entry_exec fresh hd op hrun' (fun he => ?_) hempty
  rw [hsame.size, ht₁.size_eq, he, Finset.card_empty]

end Exec

theorem Follows.reopen (h : Follows hash E K s s' S) (hsize : S.card < 2 ^ 64) :
    ∃ s'', (KeyValueTrie.reopen : TrieM d Unit) s' = ⟨.ok (), s'', []⟩ ∧ Follows hash E K s s'' S := by
  have hn := h.size_eq
  have hsizes : (getSize : TrieM d Nat) s' = ⟨.ok s'.size, s', []⟩ := rfl
  by_cases hpos : s'.size > 0
  · -- the size is written, and read back
    have hput : (onStorage (Storage.put sizeKey (uint64Bytes s'.size)) : TrieM d Unit) s'
        = ⟨.ok (), ⟨⟨s'.storage.table.insert sizeKey (uint64Bytes s'.size), none⟩, s'.size⟩, []⟩ :=
      onStorage_put h.same.working' _ _
    have hget : (onStorage (Storage.get sizeKey) : TrieM d (Option Bytes))
        ⟨⟨s'.storage.table.insert sizeKey (uint64Bytes s'.size), none⟩, 0⟩
        = ⟨.ok (some (uint64Bytes s'.size)),
          ⟨⟨s'.storage.table.insert sizeKey (uint64Bytes s'.size), none⟩, 0⟩, []⟩ := by
      rw [onStorage_read rfl, Finmap.lookup_insert]
    refine ⟨⟨⟨s'.storage.table.insert sizeKey (uint64Bytes s'.size), none⟩, s'.size⟩, ?_, h.rep,
      ⟨h.same.working, rfl, fun key hkey => ?_, h.same.size⟩, fun hS => ?_⟩
    · have hdestruct : (KeyValueTrie.destruct : TrieM d Unit) s'
          = ⟨.ok (), ⟨⟨s'.storage.table.insert sizeKey (uint64Bytes s'.size), none⟩, s'.size⟩, []⟩ := by
        unfold KeyValueTrie.destruct
        rw [Prog.bind_of_ok hsizes, if_pos hpos, hput]
        rfl
      have hzero : (setSize 0 : TrieM d Unit)
          ⟨⟨s'.storage.table.insert sizeKey (uint64Bytes s'.size), none⟩, s'.size⟩
          = ⟨.ok (), ⟨⟨s'.storage.table.insert sizeKey (uint64Bytes s'.size), none⟩, 0⟩, []⟩ := rfl
      unfold KeyValueTrie.reopen
      rw [Prog.bind_of_ok hdestruct, KeyValueTrie.construct, Prog.bind_of_ok hzero,
        Prog.bind_of_ok hget]
      simp only [length_uint64Bytes, if_true, readUint64_uint64Bytes (hn ▸ hsize), Run.after_nil]
      rfl
    · show (s'.storage.table.insert sizeKey (uint64Bytes s'.size)).lookup key = _
      rw [Finmap.lookup_insert_of_ne _ hkey, h.same.lookup key hkey]
    · rw [hS, Finset.card_empty] at hn
      omega
  · have hzero : s'.size = 0 := by omega
    have hS : S = ∅ := Finset.card_eq_zero.mp (hn.symm.trans hzero)
    have hget : (onStorage (Storage.get sizeKey) : TrieM d (Option Bytes)) s' = ⟨.ok none, s', []⟩ := by
      rw [onStorage_read h.same.working', Finmap.lookup_eq_none.mpr (h.entry hS)]
    refine ⟨s', ?_, h⟩
    have hdestruct : (KeyValueTrie.destruct : TrieM d Unit) s' = ⟨.ok (), s', []⟩ := by
      unfold KeyValueTrie.destruct
      rw [Prog.bind_of_ok hsizes, if_neg hpos]
      rfl
    have hset : (setSize 0 : TrieM d Unit) s' = ⟨.ok (), s', []⟩ := by
      rw [show (setSize 0 : TrieM d Unit) s' = ⟨.ok (), { s' with size := 0 }, []⟩ from rfl, ← hzero]
    unfold KeyValueTrie.reopen
    rw [Prog.bind_of_ok hdestruct, KeyValueTrie.construct, Prog.bind_of_ok hset,
      Prog.bind_of_ok hget]
    rfl

/-- **A run.** -/
theorem Follows.run (fresh : Digest d) (hd : d = 16 ∨ d = 20 ∨ d = 28)
    (hs : Separated hash.pair (Hashes E) K) (hfuel : 255 < fuel) (calls : List (TrieCall d))
    (hk : ∀ k ∈ addedKeys (opsOf calls), K k) (hsize : S.card + calls.length < 2 ^ 64)
    (h : Follows hash E K s s' S) (hE : ∀ x ∈ (runOps hash fresh fuel (opsOf calls) s).events, E x) :
    ∃ rs s₁ s₁' l S₁, runOps hash fresh fuel (opsOf calls) s = ⟨.ok rs.flatten, s₁, l⟩ ∧
      Prog.each (TrieCall.exec hash fresh fuel) calls s' = ⟨.ok rs, s₁', l⟩ ∧
      Follows hash E K s₁ s₁' S₁ ∧ S₁.card < 2 ^ 64 := by
  induction calls generalizing s s' S with
  | nil => exact ⟨[], s, s', [], S, rfl, rfl, h, by simpa using hsize⟩
  | cons call calls ih =>
    rw [List.length_cons] at hsize
    cases call with
    | reopen =>
      obtain ⟨s'', hreopen, h'⟩ := h.reopen (by omega)
      obtain ⟨rs, s₁, s₁', l, S₁, hplain, hrun, hlast⟩ := ih hk (by omega) h' hE
      refine ⟨[] :: rs, s₁, s₁', l, S₁, hplain, ?_, hlast⟩
      have hexec : (TrieCall.reopen : TrieCall d).exec hash fresh fuel s' = ⟨.ok [], s'', []⟩ := by
        rw [TrieCall.exec, Prog.bind_of_ok hreopen]
        rfl
      unfold Prog.each
      rw [Prog.bind_of_ok hexec, Prog.bind_of_ok hrun]
      simp [Run.after]
    | op o =>
      have hfirst : ∀ x ∈ (o.exec hash fresh fuel s).events, E x := fun x hx =>
        hE x (Prog.head_events_subset (f := SetOp.exec hash fresh fuel) o (opsOf calls) s hx)
      have hin : o ∈ o :: opsOf calls := List.mem_cons_self
      obtain ⟨s₁, s₁', l, hop, hop', h₁⟩ := h.exec fresh hd hs hfuel o
        (fun k hmem => hk k (mem_addedKeys hin hmem)) hfirst
      have hcard : (o.onSet S).2.card ≤ S.card + 1 := by
        cases o with
        | add k => exact Finset.card_insert_le k S
        | remove k => exact (Finset.card_le_card (Finset.erase_subset k S)).trans (Nat.le_succ _)
        | clear => exact Nat.zero_le _
      have hrest : ∀ x ∈ (runOps hash fresh fuel (opsOf calls) s₁).events, E x := fun x hx => by
        apply hE x
        unfold opsOf
        rw [runOps, Prog.each_cons_events hop]
        exact List.mem_append_right l hx
      obtain ⟨rs, s₂, s₂', l', S₂, hplain, hrun, hlast⟩ := ih
        (fun k hmem => hk k (by cases o <;> simp [opsOf, addedKeys, hmem])) (by omega) h₁ hrest
      refine ⟨[(o.onSet S).1] :: rs, s₂, s₂', l ++ l', S₂, ?_, ?_, hlast⟩
      · have hplain' : Prog.each (SetOp.exec hash fresh fuel) (opsOf calls) s₁ = _ := hplain
        unfold opsOf
        rw [runOps, Prog.each, Prog.bind_of_ok hop, Prog.bind_of_ok hplain']
        simp [Run.after]
      · have hexec : (TrieCall.op o).exec hash fresh fuel s' = ⟨.ok [(o.onSet S).1], s₁', l⟩ := by
          rw [TrieCall.exec, Prog.bind_of_ok hop']
          simp [Run.after]
        unfold Prog.each
        rw [Prog.bind_of_ok hexec, Prog.bind_of_ok hrun]
        simp [Run.after]

end Follow

/-- **Closing and reopening is invisible.**  A `size_t` counts the leaves of fewer than 2 ^ 64 calls. -/
theorem reopening_invisible (hash : CryptoHash d) (fresh : Digest d) {fuel : Nat}
    (hd : d = 16 ∨ d = 20 ∨ d = 28) (hfuel : 255 < fuel) (calls : List (TrieCall d))
    (hcalls : calls.length < 2 ^ 64)
    (hc : CollisionFree hash (runTrie hash fresh fuel (opsOf calls)).events)
    (hk : KeysFresh hash (addedKeys (opsOf calls)) (runTrie hash fresh fuel (opsOf calls)).events) :
    (∃ rs, (runCalls hash fresh fuel calls).outcome = .ok rs ∧
      (runTrie hash fresh fuel (opsOf calls)).outcome = .ok rs.flatten) ∧
    (∀ k, (KeyValueTrie.contains k (runCalls hash fresh fuel calls).state).outcome
      = (KeyValueTrie.contains k (runTrie hash fresh fuel (opsOf calls)).state).outcome) ∧
    (getSize (runCalls hash fresh fuel calls).state).outcome
      = (getSize (runTrie hash fresh fuel (opsOf calls)).state).outcome ∧
    (KeyValueTrie.getRoot (runCalls hash fresh fuel calls).state).outcome
      = (KeyValueTrie.getRoot (runTrie hash fresh fuel (opsOf calls)).state).outcome ∧
    ∃ leaves : Finset (Digest d), (∀ k, (KeyValueTrie.contains k
        (runCalls hash fresh fuel calls).state).outcome = .ok .LEAF_NODE ↔ k ∈ leaves) ∧
      (getSize (KeyValueTrie.reopen (runCalls hash fresh fuel calls).state).state).outcome
        = .ok leaves.card := by
  have hs := separated_of_collisionFree hc hk
  obtain ⟨rs, s, s', l, S, hplain, hrun, hlast, hcard⟩ := Follows.run fresh hd hs hfuel calls
    (fun k hmem => hmem) (by simpa using hcalls) Follows.empty fun x hx => hx
  have hplain' : runTrie hash fresh fuel (opsOf calls) = ⟨.ok rs.flatten, s, l⟩ := hplain
  have hrun' : runCalls hash fresh fuel calls = ⟨.ok rs, s', l⟩ := hrun
  rw [hplain', hrun']
  have hcontains := fun k => (contains_frames (d := d) (by omega) k s s' hlast.same).1
  refine ⟨⟨rs, rfl, rfl⟩, hcontains, (getSize_frames s s' hlast.same).1,
    (getRoot_frames (by omega) s s' hlast.same).1, S, fun k => ?_, ?_⟩
  · obtain ⟨t, ht⟩ := hlast.rep
    exact (Eq.congr_left (hcontains k)).trans (ht.contains_iff hash hs k)
  · obtain ⟨s'', hreopen, hagain⟩ := hlast.reopen hcard
    show (getSize (KeyValueTrie.reopen s').state).outcome = _
    rw [hreopen, ← hagain.size_eq]
    rfl

/-- A trie that is reopened with leaves, without any, and again. -/
def sampleCalls : List (TrieCall 16) :=
  [.op (.add (byteKey 16 1)), .op (.add (byteKey 16 2)), .reopen, .op (.remove (byteKey 16 1)),
    .op (.remove (byteKey 16 2)), .reopen, .op (.add (byteKey 16 7)), .reopen]

theorem reopening_invisible_sample :
    (getSize (runCalls (mixHash 16) (byteKey 16 0) 256 sampleCalls).state).outcome
      = (getSize (runTrie (mixHash 16) (byteKey 16 0) 256 (opsOf sampleCalls)).state).outcome :=
  (reopening_invisible (mixHash 16) (byteKey 16 0) (Or.inl rfl) (by decide) sampleCalls (by decide)
    (by decide +kernel) (by decide +kernel)).2.2.1

end SetSync
