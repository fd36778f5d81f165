import SetSync.Lib.Worklist
import SetSync.StrictSync
import SetSync.SubTrieCut
import SetSync.TrieEquality

/-!
# Pulling differences

`KeyValueTrie::diff` gives a handler each hash of a cut that the trie does not have; `ListDiffHandler`
lists a hash once.  `pull` is the loop of the trie test: each hash of the list is cut in the source, and
the target either adds the key that was cut or goes on with the hashes it does not have, at the end of
the same list.

    diff         the unknown hashes of the cut, appended unless listed             (Pulled.diffTarget)
    one round    the keys below the hash are there, or below smaller hashes       (pullEntry_returns)
    the loop     ends, and the target has the keys of both                             (pull_returns)

The target changes in every round; what is listed are places of the source, which does not.
-/

namespace SetSync

open Program BitTrie Worklist SyncSystem

variable {d : Nat}

/-- `ListDiffHandler::handle` -/
def ListDiffHandler.handle (list : DiffHandler d) (hash : Digest d) (existsLocally : Bool) :
    DiffHandler d :=
  if list.any fun entry => entry.1 == hash then list else list ++ [(hash, existsLocally)]

namespace KeyValueTrie

section

variable {σ : Type} (handler : σ → Digest d → Bool → σ)

/-- The loop of `diff`. -/
def diffHashes : List (Digest d) → Prog (TrieState d × σ) (Digest d × Digest d) Exn Unit
  | [] => pure ()
  | hash :: rest => do
    let type ← Prog.zoom Prod.fst (fun t p => (t, p.2)) (contains hash)
    (if type = .NOT_FOUND then Prog.modify fun p => (p.1, handler p.2 hash false) else pure () :
      Prog (TrieState d × σ) (Digest d × Digest d) Exn Unit)
    diffHashes rest

def diff (subtrie : Bytes) (length : Nat) : Prog (TrieState d × σ) (Digest d × Digest d) Exn Unit :=
  diffHashes handler (entries d (subtrie.take length))

end

end KeyValueTrie

/-! ## The loop -/

structure PullState (d : Nat) where
  source : TrieState d
  target : TrieState d
  difflist : DiffHandler d

abbrev PullM (d : Nat) (α : Type) : Type := Prog (PullState d) (Digest d × Digest d) Exn α

namespace PullState

def onSource {α : Type} (m : TrieM d α) : PullM d α :=
  Prog.zoom PullState.source (fun s p => { p with source := s }) m

def onTarget {α : Type} (m : TrieM d α) : PullM d α :=
  Prog.zoom PullState.target (fun s p => { p with target := s }) m

def diffTarget (subtrie : Bytes) (length : Nat) : PullM d Unit :=
  Prog.zoom (fun p : PullState d => (p.target, p.difflist))
    (fun r p => { p with target := r.1, difflist := r.2 })
    (KeyValueTrie.diff ListDiffHandler.handle subtrie length)

section

variable (hash : CryptoHash d) (fresh : Digest d) (fuel treecutsize : Nat)

/-- The body of the loop. -/
def pullEntry (first : Digest d) : PullM d Unit := do
  let (subtrie, entrysize) ← onSource (KeyValueTrie.getSubTrie first treecutsize)
  if entrysize / d = 1 then do
    let _ ← onTarget (KeyValueTrie.add hash fresh fuel (Digest.slice subtrie 0) true)
    pure ()
  else diffTarget subtrie entrysize

/-- From the entry `i` on, as long as there are entries. -/
def pullLoop : Nat → Nat → PullM d Unit
  | 0, _ => Prog.diverge
  | n + 1, i => do
    let p ← Prog.get
    match p.difflist[i]? with
    | none => pure ()
    | some entry => do
      pullEntry hash fresh fuel treecutsize entry.1
      pullLoop n (i + 1)

/-- A source without a root has nothing to pull. -/
def pull (n : Nat) : PullM d Unit := do
  match ← onSource KeyValueTrie.getRoot with
  | none => pure ()
  | some root => do
    let (treecut, subtriesize) ← onSource (KeyValueTrie.getSubTrie root treecutsize)
    diffTarget treecut subtriesize
    pullLoop hash fresh fuel treecutsize n 0

end

end PullState

/-! ## `diff` -/

section Diff

variable {s : TrieState d}

theorem diffHashes_ok {σ : Type} (handler : σ → Digest d → Bool → σ) (h : s.storage.failure = none)
    (xs : List (Digest d)) (l : σ) :
    KeyValueTrie.diffHashes handler xs (s, l) = ⟨.ok (), (s, xs.foldl
      (fun l x => if unknown s x then handler l x false else l) l), []⟩ := by
  induction xs generalizing l with
  | nil => rfl
  | cons x xs ih =>
    have hcontains := contains_record h x
    unfold KeyValueTrie.diffHashes
    rw [Prog.bind_of_ok (Prog.zoom_of_eq hcontains), List.foldl_cons]
    have hunknown : unknown s x = decide (nodeType (s.record x) = .NOT_FOUND) := by
      unfold unknown
      rw [hcontains]
      simp
    by_cases htype : nodeType (s.record x) = .NOT_FOUND
    · rw [if_pos htype, hunknown, decide_eq_true htype, if_pos rfl]
      exact congrArg (Run.after []) (ih (handler l x false))
    · rw [if_neg htype, hunknown, decide_eq_false htype, if_neg Bool.false_ne_true]
      exact congrArg (Run.after []) (ih l)

theorem map_handle (l : DiffHandler d) (x : Digest d) (b : Bool) :
    (ListDiffHandler.handle l x b).map Prod.fst = push (l.map Prod.fst) x := by
  unfold ListDiffHandler.handle push
  by_cases hx : x ∈ l.map Prod.fst
  · have hany : (l.any fun entry => entry.1 == x) = true := by
      obtain ⟨entry, hentry, rfl⟩ := List.mem_map.mp hx
      exact List.any_eq_true.mpr ⟨entry, hentry, beq_self_eq_true _⟩
    rw [hany, if_pos rfl, if_pos hx]
  · have hany : (l.any fun entry => entry.1 == x) = false := by
      rw [List.any_eq_false]
      intro entry hentry heq
      exact hx (List.mem_map.mpr ⟨entry, hentry, eq_of_beq heq⟩)
    rw [hany, if_neg Bool.false_ne_true, if_neg hx, List.map_append]
    rfl

/-- The list after `diff`. -/
theorem extends_handle (s : TrieState d) (xs : List (Digest d)) (l : DiffHandler d) :
    Extends (l.map Prod.fst) xs (unknown s) ((xs.foldl
      (fun l x => if unknown s x then ListDiffHandler.handle l x false else l) l).map Prod.fst) := by
  have hmap : (xs.foldl (fun l x => if unknown s x then ListDiffHandler.handle l x false else l)
      l).map Prod.fst
      = xs.foldl (fun l x => if unknown s x then push l x else l) (l.map Prod.fst) := by
    induction xs generalizing l with
    | nil => rfl
    | cons x xs ih =>
      rw [List.foldl_cons, List.foldl_cons, ih]
      cases unknown s x with
      | false => rfl
      | true => rw [if_pos rfl, if_pos rfl, map_handle]
  rw [hmap]
  exact extends_foldl _ _ _

end Diff

/-! ## The list of a pull -/

/-- Some of the trees have the labels. -/
theorem exists_map_label {L : List (Digest d)} {vs : List (Trie (Digest d))}
    (h : ∀ x ∈ L, ∃ v ∈ vs, v.label = x) :
    ∃ ws : List (Trie (Digest d)), ws.map Trie.label = L ∧ ∀ w ∈ ws, w ∈ vs := by
  induction L with
  | nil => exact ⟨[], rfl, by simp⟩
  | cons x L ih =>
    obtain ⟨v, hv, rfl⟩ := h x List.mem_cons_self
    obtain ⟨ws, hws, hin⟩ := ih fun y hy => h y (List.mem_cons_of_mem _ hy)
    refine ⟨v :: ws, by rw [List.map_cons, hws], fun w hw => ?_⟩
    rcases List.mem_cons.mp hw with rfl | hw
    · exact hv
    · exact hin w hw

theorem length_lt_keysBelow {us : List (Trie (Digest d))} (h : 2 ≤ us.length) {u : Trie (Digest d)}
    (hu : u ∈ us) : u.keys.length < (keysBelow us).length := by
  obtain ⟨vs, ws, rfl⟩ := List.append_of_mem hu
  have hvs := length_le_keysBelow vs
  have hws := length_le_keysBelow ws
  rw [List.length_append, List.length_cons] at h
  rw [keysBelow_append, keysBelow_cons, List.length_append, List.length_append]
  omega

section Pull

variable {hash : CryptoHash d} {E : Digest d × Digest d → Prop} {K : Digest d → Prop}
  {s : TrieState d} {S S' : Finset (Digest d)} {t : Trie (Digest d)}

/-- The keys of an item are done, or left to smaller items. -/
abbrev Settled (S₂ : Finset (Digest d)) (us : List (Trie (Digest d))) (u : Trie (Digest d)) : Prop :=
  Worklist.Settled (fun u k => k ∈ u.keys) (fun u : Trie (Digest d) => u.keys.length) (· ∈ S₂) us u

/-- A pull of the keys of `t` into a trie that had the keys `S'`, before the round `i`: the places `us`
are listed, and the target has the keys `S₂`. -/
structure Pulled (hash : CryptoHash d) (E : Digest d × Digest d → Prop) (K : Digest d → Prop)
    (s : TrieState d) (t : Trie (Digest d)) (S' : Finset (Digest d)) (i : Nat)
    (us : List (Trie (Digest d))) (S₂ : Finset (Digest d)) (p : PullState d) : Prop where
  source : p.source = s
  target : ∃ o, Represents hash E K p.target S₂ o
  lower : S' ⊆ S₂
  upper : ∀ k ∈ S₂, k ∈ S' ∨ k ∈ t.keys
  list : p.difflist.map Prod.fst = us.map Trie.label
  within : ∀ u ∈ us, Within t u
  nodup : (us.map Trie.label).Nodup
  settled : ∀ u ∈ us.take i, Settled S₂ us u

/-- Each key of the source is there, or below a place that is listed. -/
abbrev Covered (t : Trie (Digest d)) (us : List (Trie (Digest d))) (S₂ : Finset (Digest d)) : Prop :=
  Accounted (fun u k => k ∈ u.keys) (· ∈ t.keys) (· ∈ S₂) us

variable {i : Nat} {us : List (Trie (Digest d))} {S₂ : Finset (Digest d)} {p : PullState d}

/-- A place is listed once. -/
theorem Pulled.length_le (h : Pulled hash E K s t S' i us S₂ p) : us.length + 1 ≤ 2 * t.keys.length := by
  have hsub : us.map Trie.label ⊆ t.labels := by
    intro x hx
    obtain ⟨u, hu, rfl⟩ := List.mem_map.mp hx
    obtain ⟨fs, rfl⟩ := h.within u hu
    exact (mem_labels_plug fs u _).mpr (Or.inl u.label_mem_labels)
  have hle := (h.nodup.subperm hsub).length_le
  have hlabels := t.length_labels
  rw [List.length_map] at hle
  omega

/-- Everything that was listed has had its turn. -/
theorem Pulled.finish (h : Pulled hash E K s t S' i us S₂ p) (hcov : Covered t us S₂)
    (hi : us.length ≤ i) : ∀ k ∈ t.keys, k ∈ S₂ := by
  intro k hk
  have hall : ∀ u ∈ us, Settled S₂ us u := by
    have hset := h.settled
    rwa [List.take_of_length_le hi] at hset
  rcases hcov k hk with hd | ⟨u, hu, hku⟩
  · exact hd
  · exact done_of_settled hall u.keys.length u hu (Nat.le_refl _) k hku

/-- Places with one label have the same keys. -/
theorem keys_of_label (hs : Separated hash.pair (Hashes E) K) (h : Represents hash E K s S (some t))
    {u v : Trie (Digest d)} (hu : Within t u) (hv : Within t v) (hl : u.label = v.label) :
    u.keys = v.keys := by
  have hh := h.hashed t rfl
  obtain ⟨fs, hfs⟩ := hu
  obtain ⟨gs, hgs⟩ := hv
  have hhu : Hashed hash.pair (Hashes E) K u := Hashed.of_plug (hfs ▸ hh)
  have hhv : Hashed hash.pair (Hashes E) K v := Hashed.of_plug (hgs ▸ hh)
  exact hhu.keys_eq hs hhv hl

/-- **The hashes of a cut.**  After `diff`, each key below the cut is there or below a listed hash. -/
theorem Pulled.diffTarget (hs : Separated hash.pair (Hashes E) K)
    (hsrc : Represents hash E K s S (some t)) (hd : 0 < d) (h : Pulled hash E K s t S' i us S₂ p)
    (hi : i ≤ us.length) {vs : List (Trie (Digest d))} (hvs : ∀ v ∈ vs, Within t v) :
    ∃ p' ws, PullState.diffTarget ((vs.map Trie.label).flatMap Digest.bytes) (vs.length * d) p
        = ⟨.ok (), p', []⟩ ∧ Pulled hash E K s t S' i (us ++ ws) S₂ p' ∧
      ∀ v ∈ vs, ∀ k ∈ v.keys, k ∈ S₂ ∨ ∃ u ∈ us ++ ws, u.keys = v.keys := by
  obtain ⟨o, ht⟩ := h.target
  have hread := entries_take hd (vs.map Trie.label)
  rw [List.length_map] at hread
  have hrun := diffHashes_ok ListDiffHandler.handle ht.failure (vs.map Trie.label) p.difflist
  have hext := extends_handle p.target (vs.map Trie.label) p.difflist
  revert hrun hext
  generalize (vs.map Trie.label).foldl (fun l x =>
    if unknown p.target x then ListDiffHandler.handle l x false else l) p.difflist = difflist
  intro hrun hext
  obtain ⟨L, hL⟩ := hext.isPrefix
  have hnd : (difflist.map Prod.fst).Nodup := hext.nodup (h.list ▸ h.nodup)
  rw [h.list] at hL
  -- what is new comes from the cut
  have hnew : ∀ x ∈ L, ∃ v ∈ vs, v.label = x := by
    intro x hx
    have hx' : x ∈ difflist.map Prod.fst := hL ▸ List.mem_append_right _ hx
    rcases (hext.mem x).mp hx' with hold | ⟨hmem, _⟩
    · rw [← hL, List.nodup_append] at hnd
      exact absurd rfl (hnd.2.2 x (h.list ▸ hold) x hx)
    · obtain ⟨v, hv, rfl⟩ := List.mem_map.mp hmem
      exact ⟨v, hv, rfl⟩
  obtain ⟨ws, rfl, hws⟩ := exists_map_label hnew
  rw [← List.map_append] at hL
  refine ⟨{ p with difflist := difflist }, ws, ?_, ?_, ?_⟩
  · apply Prog.zoom_of_eq (t := (p.target, difflist))
    unfold KeyValueTrie.diff
    rw [hread]
    exact hrun
  · refine ⟨h.source, ⟨o, ht⟩, h.lower, h.upper, hL.symm, ?_, hL ▸ hnd, ?_⟩
    · intro u hu
      rcases List.mem_append.mp hu with hu | hu
      · exact h.within u hu
      · exact hvs u (hws u hu)
    · intro u hu
      rw [List.take_append_of_le_length hi] at hu
      exact (h.settled u hu).mono (fun _ hk => hk) (List.subset_append_left us ws)
  · intro v hv k hk
    cases hx : unknown p.target v.label with
    | false => exact Or.inl (keys_known hs hsrc ht (hvs v hv) hx k hk)
    | true =>
      have hmem : v.label ∈ (us ++ ws).map Trie.label := by
        rw [hL]
        exact (hext.mem _).mpr (Or.inr ⟨List.mem_map_of_mem hv, hx⟩)
      obtain ⟨u, hu, hl⟩ := List.mem_map.mp hmem
      have hin : Within t u := by
        rcases List.mem_append.mp hu with hu | hu
        · exact h.within u hu
        · exact hvs u (hws u hu)
      exact Or.inr ⟨u, hu, keys_of_label hs hsrc hin (hvs v hv) hl⟩

/-- The places of a cut with one hash. -/
theorem eq_leaf_of_cut {vs : List (Trie (Digest d))} {k : Digest d} (hone : 1 ≤ vs.length)
    (hkeys : (keysBelow vs).Perm (Trie.leaf k).keys) : vs.map Trie.label = [k] := by
  have hkeys' : keysBelow vs = [k] := List.perm_singleton.mp hkeys
  have hlen := length_le_keysBelow vs
  rw [hkeys', List.length_singleton] at hlen
  obtain ⟨v, rfl⟩ := List.length_eq_one_iff.mp (Nat.le_antisymm hlen hone)
  rw [keysBelow_cons, keysBelow, List.flatMap_nil, List.append_nil] at hkeys'
  cases v with
  | leaf k' =>
    rw [Trie.keys] at hkeys'
    rw [List.map_singleton, Trie.label]
    exact hkeys'
  | node lab q m st l r =>
    have hl := List.length_pos_of_ne_nil l.keys_ne_nil
    have hr := List.length_pos_of_ne_nil r.keys_ne_nil
    have htwo := congrArg List.length hkeys'
    rw [Trie.keys, List.length_append, List.length_singleton] at htwo
    omega

variable (fresh : Digest d) {fuel treecutsize : Nat}

/-- **One round.** -/
theorem pullEntry_returns (hd : d ≠ 4) (hw : 8 * d < 256) (hs : Separated hash.pair (Hashes E) K)
    (hfuel : 255 < fuel) (hbuf : 2 ≤ treecutsize / d) (hsrc : Represents hash E K s S (some t))
    (h : Pulled hash E K s t S' i us S₂ p) (hcov : Covered t us S₂) {u : Trie (Digest d)}
    (hu : us[i]? = some u) :
    Prog.Returns E (PullState.pullEntry hash fresh fuel treecutsize u.label) p fun _ p' =>
      ∃ us' S₃, Pulled hash E K s t S' (i + 1) us' S₃ p' ∧ Covered t us' S₃ ∧ i + 1 ≤ us'.length := by
  have hd0 := pos_of_room hbuf
  obtain ⟨hi, hget⟩ := List.getElem?_eq_some_iff.mp hu
  have hmem : u ∈ us := hget ▸ List.getElem_mem hi
  have hin := h.within u hmem
  obtain ⟨fs, hplug⟩ := hin
  obtain ⟨vs, hrun, hvs, hperm, hone, -, htwo⟩ := getSubTrie_ok hsrc.stores (hsrc.nodup hs) hplug hbuf
  have hcut : PullState.onSource (KeyValueTrie.getSubTrie u.label treecutsize) p
      = ⟨.ok ((vs.map Trie.label).flatMap Digest.bytes, vs.length * d), p, []⟩ := by
    obtain ⟨source, target, difflist⟩ := p
    obtain rfl : source = s := h.source
    exact Prog.zoom_of_eq hrun
  have htake : us.take (i + 1) = us.take i ++ [u] := by
    rw [List.take_add_one, hu]
    rfl
  unfold PullState.pullEntry
  apply Prog.Returns.bind_of_eq hcut
  simp only [Nat.mul_div_cancel _ hd0]
  cases u with
  | leaf k =>
    -- the key itself: it is added
    have hlabels := eq_leaf_of_cut hone hperm
    have hlen : vs.length = 1 := by
      have hl := congrArg List.length hlabels
      rwa [List.length_map] at hl
    have hkt : k ∈ t.keys := by
      rw [← hplug]
      exact (mem_keys_plug fs _ k).mpr (Or.inl (Trie.mem_keys_leaf k))
    have hslice : Digest.slice ((vs.map Trie.label).flatMap Digest.bytes) 0 = k := by
      rw [hlabels, List.flatMap_singleton, Digest.slice_bytes]
    rw [if_pos hlen, hslice]
    obtain ⟨o, ht⟩ := h.target
    have hK : K k := (hsrc.hashed t rfl).keys k hkt
    refine Prog.Returns.bind
      (Prog.Returns.zoom (add_represents fresh hd hw hs hfuel hK ht)) ?_
    rintro b p' ⟨target, ⟨-, o', ht'⟩, rfl⟩
    refine Prog.Returns.pure ⟨us, insert k S₂, ⟨h.source, ⟨o', ht'⟩, ?_, ?_, h.list, h.within, h.nodup,
      ?_⟩, hcov.mono (fun _ hx => Finset.mem_insert_of_mem hx) (List.Subset.refl us), hi⟩
    · exact h.lower.trans (Finset.subset_insert k S₂)
    · intro x hx
      rcases Finset.mem_insert.mp hx with rfl | hx
      · exact Or.inr hkt
      · exact h.upper x hx
    · intro v hv
      rw [htake] at hv
      rcases List.mem_append.mp hv with hv | hv
      · exact (h.settled v hv).mono (fun _ hx => Finset.mem_insert_of_mem hx) (List.Subset.refl us)
      · rw [List.mem_singleton.mp hv]
        intro x hx
        rw [List.mem_singleton.mp hx]
        exact Or.inl (Finset.mem_insert_self k S₂)
  | node lab q m st l r =>
    -- an inner node: its keys are left to the hashes of the cut
    have hvs2 : 2 ≤ vs.length := htwo ⟨lab, q, m, st, l, r, rfl⟩
    rw [if_neg (by omega)]
    obtain ⟨p', ws, hdiff, hpulled, hcover⟩ := h.diffTarget hs hsrc hd0 (Nat.le_of_lt hi) hvs
    refine Prog.Returns.of_eq hdiff ⟨us ++ ws, S₂, { hpulled with settled := ?_ },
      hcov.mono (fun _ hx => hx) (List.subset_append_left us ws), ?_⟩
    · intro v hv
      rw [List.take_append_of_le_length hi, htake] at hv
      rcases List.mem_append.mp hv with hv | hv
      · exact hpulled.settled v (by rwa [List.take_append_of_le_length (Nat.le_of_lt hi)])
      · rw [List.mem_singleton.mp hv]
        intro x hx
        obtain ⟨w, hw, hxw⟩ := List.mem_flatMap.mp (hperm.mem_iff.mpr hx)
        rcases hcover w hw x hxw with hdone | ⟨w', hw', hkeys⟩
        · exact Or.inl hdone
        · refine Or.inr ⟨w', hw', ?_, ?_⟩
          · show x ∈ w'.keys
            rw [hkeys]
            exact hxw
          · show w'.keys.length < (Trie.node lab q m st l r).keys.length
            rw [hkeys, ← hperm.length_eq]
            exact length_lt_keysBelow hvs2 hw
    · rw [List.length_append]
      omega

/-- **The loop** ends: a place has one turn. -/
theorem pullLoop_returns (hd : d ≠ 4) (hw : 8 * d < 256) (hs : Separated hash.pair (Hashes E) K)
    (hfuel : 255 < fuel) (hbuf : 2 ≤ treecutsize / d) (hsrc : Represents hash E K s S (some t))
    (n : Nat) : ∀ (i : Nat) (us : List (Trie (Digest d))) (S₂ : Finset (Digest d)) (p : PullState d),
      Pulled hash E K s t S' i us S₂ p → Covered t us S₂ → i ≤ us.length →
      2 * t.keys.length ≤ n + i →
      Prog.Returns E (PullState.pullLoop hash fresh fuel treecutsize n i) p fun _ p' =>
        ∃ i us' S₃, Pulled hash E K s t S' i us' S₃ p' ∧ Covered t us' S₃ ∧ us'.length ≤ i := by
  induction n with
  | zero =>
    intro i us S₂ p h hcov hi hn
    have := h.length_le
    omega
  | succ n ih =>
    intro i us S₂ p h hcov hi hn
    unfold PullState.pullLoop
    apply Prog.Returns.bind_of_eq (Prog.get_apply p)
    have hlist := congrArg (fun l => l[i]?) h.list
    simp only [List.getElem?_map] at hlist
    cases hentry : p.difflist[i]? with
    | none =>
      refine Prog.Returns.pure ⟨i, us, S₂, h, hcov, ?_⟩
      have hlen := congrArg List.length h.list
      rw [List.length_map, List.length_map] at hlen
      rw [← hlen]
      exact List.getElem?_eq_none_iff.mp hentry
    | some entry =>
      rw [hentry] at hlist
      obtain ⟨u, hu, hl⟩ := Option.map_eq_some_iff.mp hlist.symm
      simp only
      rw [← hl]
      apply Prog.Returns.bind (pullEntry_returns fresh hd hw hs hfuel hbuf hsrc h hcov hu)
      rintro _ p' ⟨us', S₃, h', hcov', hi'⟩
      exact ih (i + 1) us' S₃ p' h' hcov' hi' (by omega)

/-- **A pull** ends, and the target has the keys of both. -/
theorem pull_returns {S' : Finset (Digest d)} {s' : TrieState d} {o o' : Option (Trie (Digest d))}
    (hd : d ≠ 4) (hw : 8 * d < 256) (hs : Separated hash.pair (Hashes E) K) (hfuel : 255 < fuel)
    (hbuf : 2 ≤ treecutsize / d) (hsrc : Represents hash E K s S o)
    (htgt : Represents hash E K s' S' o') {n : Nat} (hn : 2 * S.card ≤ n) :
    Prog.Returns E (PullState.pull hash fresh fuel treecutsize n) ⟨s, s', []⟩ fun _ p =>
      p.source = s ∧ ∃ o, Represents hash E K p.target (S ∪ S') o := by
  have hroot : PullState.onSource KeyValueTrie.getRoot (⟨s, s', []⟩ : PullState d)
      = ⟨.ok (o.map Trie.label), ⟨s, s', []⟩, []⟩ := Prog.zoom_of_eq hsrc.getRoot_eq
  unfold PullState.pull
  apply Prog.Returns.bind_of_eq hroot
  cases o with
  | none =>
    refine Prog.Returns.pure ⟨rfl, o', ?_⟩
    rw [hsrc.eq_empty_iff.mpr rfl, Finset.empty_union]
    exact htgt
  | some t =>
    obtain ⟨vs, hrun, hvs, hperm, -⟩ := getSubTrie_ok hsrc.stores (hsrc.nodup hs)
      (show plug [] t = t from rfl) hbuf
    have hcut : PullState.onSource (KeyValueTrie.getSubTrie t.label treecutsize) ⟨s, s', []⟩
        = ⟨.ok ((vs.map Trie.label).flatMap Digest.bytes, vs.length * d), ⟨s, s', []⟩, []⟩ :=
      Prog.zoom_of_eq hrun
    have hstart : Pulled hash E K s t S' 0 [] S' ⟨s, s', []⟩ :=
      ⟨rfl, ⟨o', htgt⟩, Finset.Subset.refl S', fun k hk => Or.inl hk, rfl, by simp, List.nodup_nil,
        by simp⟩
    obtain ⟨p, ws, hdiff, hp, hcover⟩ := hstart.diffTarget hs hsrc (pos_of_room hbuf) (Nat.le_refl _) hvs
    have hcov : Covered t ([] ++ ws) S' := by
      intro k hk
      obtain ⟨v, hv, hkv⟩ := List.mem_flatMap.mp (hperm.mem_iff.mpr hk)
      rcases hcover v hv k hkv with hd | ⟨u, hu, hkeys⟩
      · exact Or.inl hd
      · refine Or.inr ⟨u, hu, ?_⟩
        show k ∈ u.keys
        rw [hkeys]
        exact hkv
    have hcard : t.keys.length = S.card := (Holds.size hsrc.stores).symm.trans hsrc.size_eq
    simp only [Option.map_some]
    refine Prog.Returns.bind_of_eq hcut (Prog.Returns.bind_of_eq hdiff ?_)
    refine Prog.Returns.mono
      (pullLoop_returns fresh hd hw hs hfuel hbuf hsrc n 0 _ S' p hp hcov (Nat.zero_le _) (by omega)) ?_
    rintro _ q ⟨i, us, S₃, hq, hqcov, hi⟩
    have hall := hq.finish hqcov hi
    have hS : S₃ = S ∪ S' := by
      ext k
      rw [Finset.mem_union, ← hsrc.keys k]
      constructor
      · exact fun hk => (hq.upper k hk).symm
      · rintro (hk | hk)
        · exact hall k hk
        · exact hq.lower hk
    exact ⟨hq.source, hS ▸ hq.target⟩

end Pull

/-- **Pulling makes tries equal.**  The loop ends without an exception, the target has the keys of both,
and after a pull the other way round the two tries are equal. -/
theorem pull_makes_equal (hash : CryptoHash d) (fresh₁ fresh₂ : Digest d) {fuel : Nat}
    (hd : d = 16 ∨ d = 20 ∨ d = 28) (hfuel : 255 < fuel) (ops₁ ops₂ : List (SetOp (Digest d)))
    {treecutsize : Nat} (hbuf : 2 ≤ treecutsize / d) {n : Nat}
    (hn : 2 * ((setRun ∅ ops₁).2 ∪ (setRun ∅ ops₂).2).card ≤ n) :
    let r₁ := runTrie hash fresh₁ fuel ops₁
    let r₂ := runTrie hash fresh₂ fuel ops₂
    let p := PullState.pull hash fresh₂ fuel treecutsize n ⟨r₁.state, r₂.state, []⟩
    let q := PullState.pull hash fresh₁ fuel treecutsize n ⟨p.state.target, p.state.source, []⟩
    CollisionFree hash (r₁.events ++ r₂.events ++ p.events ++ q.events) →
    KeysFresh hash (addedKeys ops₁ ++ addedKeys ops₂) (r₁.events ++ r₂.events ++ p.events ++ q.events) →
    p.outcome = .ok () ∧ p.state.source = r₁.state ∧
      (∀ k, (KeyValueTrie.contains k p.state.target).outcome = .ok .LEAF_NODE ↔
        k ∈ (setRun ∅ ops₁).2 ∪ (setRun ∅ ops₂).2) ∧
      q.outcome = .ok () ∧
      (KeyValueTrie.operatorEq (q.state.source, q.state.target)).outcome = .ok true := by
  intro r₁ r₂ p q hc hk
  obtain ⟨hd4, hw⟩ := narrow_digest hd
  have hs := separated_of_collisionFree hc hk
  have hp : p.events ⊆ r₁.events ++ r₂.events ++ p.events ++ q.events := fun x hx =>
    List.mem_append_left _ (List.mem_append_right _ hx)
  obtain ⟨_, t₁, h₁⟩ := runTrie_represents hash fresh₁ hd hfuel hc hk (List.subset_append_left _ _)
    (show r₁.events ⊆ _ from fun x hx =>
      List.mem_append_left _ (List.mem_append_left _ (List.mem_append_left _ hx)))
  obtain ⟨_, t₂, h₂⟩ := runTrie_represents hash fresh₂ hd hfuel hc hk (List.subset_append_right _ _)
    (show r₂.events ⊆ _ from fun x hx =>
      List.mem_append_left _ (List.mem_append_left _ (List.mem_append_right _ hx)))
  have hsub : (setRun ∅ ops₁).2 ⊆ (setRun ∅ ops₁).2 ∪ (setRun ∅ ops₂).2 := Finset.subset_union_left
  have hcard := Finset.card_le_card hsub
  obtain ⟨_, hpo, hsource, t₃, h₃⟩ := pull_returns fresh₂ hd4 hw hs hfuel hbuf h₁ h₂ (n := n) (by omega)
    fun x hx => hp hx
  have h₁' : Represents hash _ _ p.state.source (setRun ∅ ops₁).2 t₁ := hsource ▸ h₁
  obtain ⟨_, hqo, hsource', t₄, h₄⟩ := pull_returns fresh₁ hd4 hw hs hfuel hbuf h₃ h₁' (n := n) hn
    fun x hx => List.mem_append_right _ hx
  refine ⟨hpo, hsource, h₃.contains_iff hash hs, hqo, ?_⟩
  have h₃' : Represents hash _ _ q.state.source _ t₃ := hsource' ▸ h₃
  rw [h₃'.operatorEq_iff hs h₄, Finset.union_eq_left.mpr Finset.subset_union_left]
  exact congrArg Outcome.ok (decide_eq_true rfl)

theorem pull_makes_equal_sample :
    let r₁ := runTrie (mixHash 16) (byteKey 16 0) 256 [.add (byteKey 16 1), .add (byteKey 16 2)]
    let r₂ := runTrie (mixHash 16) (byteKey 16 0) 256 [.add (byteKey 16 2)]
    (PullState.pull (mixHash 16) (byteKey 16 0) 256 32 4 ⟨r₁.state, r₂.state, []⟩).outcome = .ok () :=
  (pull_makes_equal (mixHash 16) (byteKey 16 0) (byteKey 16 0) (Or.inl rfl) (by decide)
    [.add (byteKey 16 1), .add (byteKey 16 2)] [.add (byteKey 16 2)] (show 2 ≤ 32 / 16 by decide)
    (by decide +kernel) (by decide +kernel) (by decide +kernel)).1

end SetSync
