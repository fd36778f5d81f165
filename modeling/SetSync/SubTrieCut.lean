import SetSync.SubTrie

/-!
# The cut is exact

`Linked` is enough to read the trie below a hash off the records (`exists_unfolds`), so the cut
that `getSubTrie` writes can be counted on any state with the representation invariant:

    it stops when the buffer is full or only leaves are left                     (cutNodes_stops)
    it returns the hashes of subtries that share the keys of that trie         (getSubTrie_cutOf)
    it has min m L hashes, and each leaf is below exactly one of them            (getSubTrie_exact)
-/

namespace SetSync

open Program BitTrie

variable {d : Nat}

/-- `y` is reached from `x` through smaller and larger links. -/
inductive Below (s : TrieState d) (x : Digest d) : Digest d → Prop
  | refl : Below s x x
  | smaller {y a b : Digest d} {e : Entry (Digest d)} : Below s x y → s.record y = some e →
      e.children = some (a, b) → Below s x a
  | larger {y a b : Digest d} {e : Entry (Digest d)} : Below s x y → s.record y = some e →
      e.children = some (a, b) → Below s x b

/-- The records below the label of a trie have its shape. -/
def Unfolds (s : TrieState d) : Trie (Digest d) → Prop
  | .leaf k => ∃ e, s.record k = some e ∧ e.children = none
  | .node x _ _ _ l r => (∃ e, s.record x = some e ∧ e.children = some (l.label, r.label)) ∧
      Unfolds s l ∧ Unfolds s r

section Unfolding

variable {hash : CryptoHash d} {s : TrieState d} {S : Finset (Digest d)}

theorem record_len_lt {x : Digest d} {e : Entry (Digest d)} (hx : s.record x = some e) :
    e.len < 256 := by
  rw [TrieState.record] at hx
  obtain ⟨v, -, rfl⟩ := Option.map_eq_some_iff.mp hx
  exact (TrieNode.unmarshall x v).prefixMask.toNat_lt

/-- The children of a recorded node are recorded, with longer prefixes. -/
def Linked (s : TrieState d) : Prop :=
  ∀ x e a b, s.record x = some e → e.children = some (a, b) →
    ∀ y, y = a ∨ y = b → ∃ e', s.record y = some e' ∧ e.len < e'.len

theorem RepInvariant.links (h : RepInvariant hash s S) : Linked s := by
  intro x e a b hx hch y hy
  obtain ⟨e', hy', -, hlen⟩ := (h.linked x e a b hx hch).2 y hy
  exact ⟨e', hy', hlen⟩

/-- The trie below a recorded node: the lengths grow on the way down. -/
theorem exists_unfolds (h : Linked s) (n : Nat) :
    ∀ {x : Digest d} {e : Entry (Digest d)}, s.record x = some e → 256 - e.len ≤ n →
      ∃ u, u.label = x ∧ Unfolds s u := by
  induction n with
  | zero =>
    intro x e hx hn
    have := record_len_lt hx
    omega
  | succ n ih =>
    intro x e hx hn
    cases hch : e.children with
    | none => exact ⟨.leaf x, rfl, e, hx, hch⟩
    | some ab =>
      obtain ⟨a, b⟩ := ab
      obtain ⟨ea, ha, hlena⟩ := h x e a b hx hch a (Or.inl rfl)
      obtain ⟨eb, hb, hlenb⟩ := h x e a b hx hch b (Or.inr rfl)
      obtain ⟨l, rfl, hl⟩ := ih ha (by omega)
      obtain ⟨r, rfl, hr⟩ := ih hb (by omega)
      exact ⟨.node x e.stem e.len e.stale l r, rfl, ⟨e, hx, hch⟩, hl, hr⟩

theorem Unfolds.leafBelow {u : Trie (Digest d)} (hu : Unfolds s u) {k : Digest d} (hk : k ∈ u.keys) :
    LeafBelow s k u.label := by
  induction u with
  | leaf k' =>
    obtain ⟨e, he, hch⟩ := hu
    obtain rfl : k = k' := by simpa [Trie.keys] using hk
    exact .leaf he hch
  | node x p m st l r ihl ihr =>
    obtain ⟨⟨e, he, hch⟩, hl, hr⟩ := hu
    rcases List.mem_append.mp hk with hk | hk
    · exact .smaller he hch (ihl hl hk)
    · exact .larger he hch (ihr hr hk)

theorem Unfolds.of_leaf {u : Trie (Digest d)} (hu : Unfolds s u) {e : Entry (Digest d)}
    (he : s.record u.label = some e) (hch : e.children = none) : u = .leaf u.label := by
  cases u with
  | leaf k => rfl
  | node x p m st l r =>
    obtain ⟨⟨e', he', hkids⟩, -⟩ := hu
    obtain rfl : e' = e := Option.some.inj (he'.symm.trans he)
    rw [hch] at hkids
    cases hkids

theorem Unfolds.of_node {u : Trie (Digest d)} (hu : Unfolds s u) {e : Entry (Digest d)}
    {a b : Digest d} (he : s.record u.label = some e) (hch : e.children = some (a, b)) :
    ∃ l r, u.keys = l.keys ++ r.keys ∧ l.label = a ∧ r.label = b ∧ Unfolds s l ∧ Unfolds s r := by
  cases u with
  | leaf k =>
    obtain ⟨e', he', hnone⟩ := hu
    obtain rfl : e' = e := Option.some.inj (he'.symm.trans he)
    rw [hch] at hnone
    cases hnone
  | node x p m st l r =>
    obtain ⟨⟨e', he', hkids⟩, hl, hr⟩ := hu
    obtain rfl : e' = e := Option.some.inj (he'.symm.trans he)
    obtain ⟨rfl, rfl⟩ := Prod.mk.inj (Option.some.inj (hkids.symm.trans hch))
    exact ⟨l, r, rfl, rfl, rfl, hl, hr⟩

theorem mem_keys_of_leafBelow {k x : Digest d} (hb : LeafBelow s k x) {u : Trie (Digest d)}
    (hu : Unfolds s u) (hx : u.label = x) : k ∈ u.keys := by
  induction hb generalizing u with
  | leaf hrec hch =>
    subst hx
    rw [hu.of_leaf hrec hch]
    exact Trie.mem_keys_leaf _
  | smaller hrec hch _ ih =>
    subst hx
    obtain ⟨l, r, hkeys, hla, -, hl, -⟩ := hu.of_node hrec hch
    rw [hkeys]
    exact List.mem_append_left _ (ih hl hla)
  | larger hrec hch _ ih =>
    subst hx
    obtain ⟨l, r, hkeys, -, hrb, -, hr⟩ := hu.of_node hrec hch
    rw [hkeys]
    exact List.mem_append_right _ (ih hr hrb)

theorem Unfolds.leafBelow_iff {u : Trie (Digest d)} (hu : Unfolds s u) (k : Digest d) :
    LeafBelow s k u.label ↔ k ∈ u.keys :=
  ⟨fun hb => mem_keys_of_leafBelow hb hu rfl, hu.leafBelow⟩

/-- The two subtries of a node differ in a bit. -/
theorem Unfolds.keys_nodup (h : RepInvariant hash s S) {u : Trie (Digest d)} (hu : Unfolds s u) :
    u.keys.Nodup := by
  induction u with
  | leaf k => exact List.nodup_singleton k
  | node x p m st l r ihl ihr =>
    obtain ⟨⟨e, he, hch⟩, hl, hr⟩ := hu
    refine List.nodup_append.mpr ⟨ihl hl, ihr hr, ?_⟩
    rintro a ha b hb rfl
    have hsmaller := (h.smaller x e _ _ a he hch (hl.leafBelow ha)).2
    have hlarger := (h.larger x e _ _ a he hch (hr.leafBelow hb)).2
    rw [hsmaller] at hlarger
    cases hlarger

end Unfolding

/-! ## The nodes of a cut -/

section Reading

variable {s : TrieState d}

/-- A loaded node below `x`, read as the trie of the records below it. -/
structure ReadAs (s : TrieState d) (x : Digest d) (n : TrieNode d) (u : Trie (Digest d)) : Prop where
  hash : n.hash = u.label
  record : s.record u.label = some n.view
  unfolds : Unfolds s u
  below : Below s x u.label

theorem load_record (hst : s.storage.failure = none) {x : Digest d} {e : Entry (Digest d)}
    (hx : s.record x = some e) :
    ∃ n, TrieNode.load x s = ⟨.ok n, s, []⟩ ∧ n.hash = x ∧ n.view = e := by
  rw [TrieState.record] at hx
  obtain ⟨v, hv, he⟩ := Option.map_eq_some_iff.mp hx
  exact ⟨TrieNode.unmarshall x v, load_found hst hv, rfl, he⟩

theorem load_readAs (hst : s.storage.failure = none) {x : Digest d} {u : Trie (Digest d)}
    (hu : Unfolds s u) (hb : Below s x u.label) :
    ∃ n, TrieNode.load u.label s = ⟨.ok n, s, []⟩ ∧ ReadAs s x n u := by
  have hrec : ∃ e, s.record u.label = some e := by
    cases u with
    | leaf k => exact ⟨hu.choose, hu.choose_spec.1⟩
    | node y p m st l r => exact ⟨hu.1.choose, hu.1.choose_spec.1⟩
  obtain ⟨e, he⟩ := hrec
  obtain ⟨n, hload, hhash, hview⟩ := load_record hst he
  exact ⟨n, hload, hhash, by rw [he, hview], hu, hb⟩

theorem opens_readAs (hst : s.storage.failure = none) (x : Digest d) : Opens s (ReadAs s x) where
  leaf := by
    rintro n k ⟨hhash, hrec, ⟨e, he, hch⟩, -⟩
    have hview : n.view = e := Option.some.inj (hrec.symm.trans he)
    rw [(Shows.mk hhash hview : Shows n k e).hasChildren, hch]
    rfl
  node := by
    rintro n y p m st l r ⟨hhash, hrec, ⟨⟨e, he, hch⟩, hl, hr⟩, hb⟩
    have hview : n.view = e := Option.some.inj (hrec.symm.trans he)
    have hshow : Shows n y e := ⟨hhash, hview⟩
    obtain ⟨smaller, hsmaller, hsr⟩ := load_readAs hst hl (.smaller hb he hch)
    obtain ⟨larger, hlarger, hlr⟩ := load_readAs hst hr (.larger hb he hch)
    refine ⟨?_, smaller, larger, ?_, hsr, ?_, hlr⟩
    · rw [hshow.hasChildren, hch]
      rfl
    · rw [hshow.getSmaller hch, hsmaller]
    · rw [hshow.getLarger hch, hlarger]

end Reading

/-! ## When a cut stops -/

section Stops

variable {s : TrieState d}

theorem cutLoop_stops
    {getSub : TrieNode d → Nat → KeyValueTrie.Stacks d → TrieM d (Nat × KeyValueTrie.Stacks d)}
    {n fuel sum : Nat} {nodes : KeyValueTrie.Stacks d} {r : Nat × KeyValueTrie.Stacks d}
    {s' : TrieState d} {l : List (Digest d × Digest d)}
    (hrun : KeyValueTrie.cutLoop getSub n fuel sum nodes s = ⟨.ok r, s', l⟩) :
    n ≤ r.1 ∨ r.2.inner_nodes = [] := by
  induction fuel generalizing sum nodes s l with
  | zero => cases hrun
  | succ fuel ih =>
    rw [KeyValueTrie.cutLoop] at hrun
    by_cases hroom : sum < n
    · rw [if_pos hroom] at hrun
      obtain ⟨inner, child⟩ := nodes
      cases inner with
      | nil =>
        cases hrun
        exact Or.inr rfl
      | cons node inner =>
        obtain ⟨a, s₁, l₁, l₂, -, hrest, -⟩ := Prog.bind_eq_ok hrun
        exact ih hrest
    · rw [if_neg hroom] at hrun
      cases hrun
      exact Or.inl (Nat.le_of_not_lt hroom)

/-- A cut stops when there are `n` nodes or no inner node is left. -/
theorem cutNodes_stops {fuel n : Nat} (hn : 2 ≤ n) {root : TrieNode d}
    {r : Nat × KeyValueTrie.Stacks d} {s' : TrieState d} {l : List (Digest d × Digest d)}
    (hrun : KeyValueTrie.cutNodes fuel root n ⟨[], []⟩ s = ⟨.ok r, s', l⟩) :
    n ≤ r.1 ∨ r.2.inner_nodes = [] := by
  cases fuel with
  | zero => cases hrun
  | succ fuel =>
    rw [KeyValueTrie.cutNodes] at hrun
    cases hch : root.hasChildren with
    | false =>
      rw [hch] at hrun
      cases hrun
      exact Or.inr rfl
    | true =>
      simp only [hch, Bool.true_and, hn, decide_true, if_true] at hrun
      obtain ⟨smaller, s₁, _, _, -, hrun, -⟩ := Prog.bind_eq_ok hrun
      obtain ⟨larger, s₂, _, _, -, hrun, -⟩ := Prog.bind_eq_ok hrun
      obtain ⟨⟨a, nodes₁⟩, s₃, _, _, -, hrun, -⟩ := Prog.bind_eq_ok hrun
      obtain ⟨⟨b, nodes₂⟩, s₄, _, _, -, hrun, -⟩ := Prog.bind_eq_ok hrun
      exact cutLoop_stops hrun

/-- Only nodes without children wait on `child_nodes`. -/
def Childless (nodes : KeyValueTrie.Stacks d) : Prop :=
  ∀ n ∈ nodes.child_nodes, n.hasChildren = false

theorem cutLoop_childless
    {getSub : TrieNode d → Nat → KeyValueTrie.Stacks d → TrieM d (Nat × KeyValueTrie.Stacks d)}
    (hget : ∀ node m nodes s r s' l, getSub node m nodes s = ⟨.ok r, s', l⟩ → Childless nodes →
      Childless r.2) {n fuel sum : Nat} {nodes : KeyValueTrie.Stacks d}
    {r : Nat × KeyValueTrie.Stacks d} {s' : TrieState d} {l : List (Digest d × Digest d)}
    (hrun : KeyValueTrie.cutLoop getSub n fuel sum nodes s = ⟨.ok r, s', l⟩)
    (hnodes : Childless nodes) : Childless r.2 := by
  induction fuel generalizing sum nodes s l with
  | zero => cases hrun
  | succ fuel ih =>
    rw [KeyValueTrie.cutLoop] at hrun
    by_cases hroom : sum < n
    · rw [if_pos hroom] at hrun
      obtain ⟨inner, child⟩ := nodes
      cases inner with
      | nil =>
        cases hrun
        exact hnodes
      | cons node inner =>
        obtain ⟨⟨count, nodes'⟩, s₁, _, _, hsub, hrest, -⟩ := Prog.bind_eq_ok hrun
        have hmid : Childless nodes' := hget node _ _ s (count, nodes') s₁ _ hsub hnodes
        exact ih hrest hmid
    · rw [if_neg hroom] at hrun
      cases hrun
      exact hnodes

theorem cutNodes_childless (fuel : Nat) : ∀ (root : TrieNode d) (n : Nat) (nodes : KeyValueTrie.Stacks d)
    (s : TrieState d) (r : Nat × KeyValueTrie.Stacks d) (s' : TrieState d)
    (l : List (Digest d × Digest d)), KeyValueTrie.cutNodes fuel root n nodes s = ⟨.ok r, s', l⟩ →
    Childless nodes → Childless r.2 := by
  induction fuel with
  | zero =>
    intro root n nodes s r s' l hrun
    cases hrun
  | succ fuel ih =>
    intro root n nodes s r s' l hrun hnodes
    rw [KeyValueTrie.cutNodes] at hrun
    cases hch : root.hasChildren with
    | false =>
      simp only [hch, Bool.false_and, Bool.false_eq_true, if_false] at hrun
      cases hrun
      intro v hv
      rcases List.mem_cons.mp hv with rfl | hv
      · exact hch
      · exact hnodes v hv
    | true =>
      by_cases htwo : 2 ≤ n
      · simp only [hch, Bool.true_and, htwo, decide_true, if_true] at hrun
        obtain ⟨smaller, s₁, _, _, -, hrun, -⟩ := Prog.bind_eq_ok hrun
        obtain ⟨larger, s₂, _, _, -, hrun, -⟩ := Prog.bind_eq_ok hrun
        obtain ⟨⟨a, nodes₁⟩, s₃, _, _, h₁, hrun, -⟩ := Prog.bind_eq_ok hrun
        obtain ⟨⟨b, nodes₂⟩, s₄, _, _, h₂, hrun, -⟩ := Prog.bind_eq_ok hrun
        have hnodes₁ : Childless nodes₁ := ih smaller _ nodes s₂ (a, nodes₁) s₃ _ h₁ hnodes
        have hnodes₂ : Childless nodes₂ := ih larger _ nodes₁ s₃ (b, nodes₂) s₄ _ h₂ hnodes₁
        exact cutLoop_childless ih hrun hnodes₂
      · simp only [hch, Bool.true_and, htwo, decide_false, Bool.false_eq_true, if_false, if_true] at hrun
        cases hrun
        exact hnodes

end Stops

/-! ## Counting -/

theorem length_le_keysBelow (us : List (Trie (Digest d))) : us.length ≤ (keysBelow us).length := by
  induction us with
  | nil => exact Nat.le_refl _
  | cons u us ih =>
    have hpos : 0 < u.keys.length := List.length_pos_of_ne_nil u.keys_ne_nil
    rw [keysBelow_cons, List.length_append, List.length_cons]
    omega

theorem length_keysBelow_of_leaves {us : List (Trie (Digest d))} (h : ∀ u ∈ us, u = .leaf u.label) :
    (keysBelow us).length = us.length := by
  induction us with
  | nil => rfl
  | cons u us ih =>
    have hkeys : u.keys.length = 1 := by
      rw [h u List.mem_cons_self]
      rfl
    rw [keysBelow_cons, List.length_append, List.length_cons,
      ih fun v hv => h v (List.mem_cons_of_mem u hv), hkeys, Nat.add_comm]

section Exact

variable {hash : CryptoHash d} {s : TrieState d} {S : Finset (Digest d)} {x : Digest d}

theorem map_hash_of_readAs {ns : List (TrieNode d)} {us : List (Trie (Digest d))}
    (h : List.Forall₂ (ReadAs s x) ns us) : ns.map TrieNode.hash = us.map Trie.label := by
  induction h with
  | nil => rfl
  | cons hu _ ih => rw [List.map_cons, List.map_cons, hu.hash, ih]

theorem exists_readAs {ns : List (TrieNode d)} {us : List (Trie (Digest d))}
    (h : List.Forall₂ (ReadAs s x) ns us) : ∀ u ∈ us, ∃ n ∈ ns, ReadAs s x n u := by
  induction h with
  | nil => simp
  | @cons n u ns us hu _ ih =>
    intro v hv
    rcases List.mem_cons.mp hv with rfl | hv
    · exact ⟨n, List.mem_cons_self, hu⟩
    · obtain ⟨m, hm, hread⟩ := ih v hv
      exact ⟨m, List.mem_cons_of_mem n hm, hread⟩

/-- A node without children is read as a leaf. -/
theorem ReadAs.leaf {n : TrieNode d} {u : Trie (Digest d)} (h : ReadAs s x n u)
    (hch : n.hasChildren = false) : u = .leaf u.label ∧ n.view.children = none := by
  have hnone : n.view.children = none := by
    unfold TrieNode.view
    rw [hch]
    rfl
  exact ⟨h.unfolds.of_leaf h.record hnone, hnone⟩

/-- Subtries with disjoint keys: their labels differ, and a key is below one label only. -/
theorem labels_of_disjoint {us : List (Trie (Digest d))} (hus : ∀ u ∈ us, Unfolds s u)
    (hn : (keysBelow us).Nodup) :
    (us.map Trie.label).Nodup ∧ ∀ k ∈ keysBelow us, ∃! y, y ∈ us.map Trie.label ∧ LeafBelow s k y := by
  have hdisj : us.Pairwise fun u v => u.keys.Disjoint v.keys := (List.nodup_flatMap.mp hn).2
  have hlabel : ∀ u ∈ us, ∀ v ∈ us, ∀ k, u.label = v.label → k ∈ u.keys → k ∈ v.keys := by
    intro u hu v hv k heq hk
    rw [← (hus v hv).leafBelow_iff, ← heq]
    exact (hus u hu).leafBelow hk
  constructor
  · refine List.pairwise_map.mpr (hdisj.imp_of_mem ?_)
    intro u v hu hv huv heq
    obtain ⟨k, hk⟩ := u.exists_mem_keys
    exact huv hk (hlabel u hu v hv k heq hk)
  · intro k hk
    obtain ⟨u, hu, hku⟩ := List.mem_flatMap.mp hk
    refine ⟨u.label, ⟨List.mem_map_of_mem hu, (hus u hu).leafBelow hku⟩, ?_⟩
    rintro y ⟨hy, hky⟩
    obtain ⟨v, hv, rfl⟩ := List.mem_map.mp hy
    by_contra hne
    have hsymm : Std.Symm fun u v : Trie (Digest d) => u.keys.Disjoint v.keys := ⟨fun _ _ h => h.symm⟩
    exact hdisj.forall hu hv (fun heq => hne (congrArg Trie.label heq).symm) hku
      (((hus v hv).leafBelow_iff k).mp hky)

/-- The subtries `us` are a cut of `u` into at most `n` hashes. -/
structure CutOf (s : TrieState d) (u : Trie (Digest d)) (n : Nat) (us : List (Trie (Digest d))) : Prop where
  pos : 0 < us.length
  le : us.length ≤ n
  keys : (keysBelow us).Perm u.keys
  read : ∀ v ∈ us, ∃ m, ReadAs s u.label m v
  leaves : us.length < n → ∀ v ∈ us, v = .leaf v.label ∧ ∃ e, s.record v.label = some e ∧ e.children = none

/-- `getSubTrie` returns the hashes of a cut. -/
theorem getSubTrie_cutOf (hst : s.storage.failure = none) {u : Trie (Digest d)} (hu : Unfolds s u)
    {buffersize : Nat} (hbuf : 2 ≤ buffersize / d) :
    ∃ us, CutOf s u (buffersize / d) us ∧ KeyValueTrie.getSubTrie u.label buffersize s
      = ⟨.ok ((us.map Trie.label).flatMap Digest.bytes, us.length * d), s, []⟩ := by
  obtain ⟨root, hload, hroot⟩ := load_readAs hst hu .refl
  obtain ⟨count, nodes, I, C, hrun, hI, hC, hcut⟩ := cutNodes_cuts (opens_readAs hst u.label)
    (buffersize / d) (buffersize / d) (by omega) (Nat.le_refl _) u root ⟨[], []⟩ [] [] hroot .nil .nil
    (by simp)
  have hcount : (I ++ C).length = count := by
    have hsize := hcut.size
    rw [List.length_append]
    simpa using hsize
  have hhashes : (nodes.inner_nodes ++ nodes.child_nodes).map TrieNode.hash = (I ++ C).map Trie.label := by
    rw [List.map_append, List.map_append, map_hash_of_readAs hI, map_hash_of_readAs hC]
  refine ⟨I ++ C, ⟨?_, ?_, ?_, ?_, ?_⟩, ?_⟩
  · rw [hcount]
    exact hcut.pos
  · rw [hcount]
    exact hcut.le
  · simpa [keysBelow] using hcut.keys
  · intro v hv
    rcases List.mem_append.mp hv with hv | hv
    · obtain ⟨n, -, hn⟩ := exists_readAs hI v hv
      exact ⟨n, hn⟩
    · obtain ⟨n, -, hn⟩ := exists_readAs hC v hv
      exact ⟨n, hn⟩
  · -- with room left no inner node waits on the stack
    intro hlt v hv
    rw [hcount] at hlt
    have hempty : nodes.inner_nodes = [] :=
      (cutNodes_stops hbuf hrun).resolve_left (Nat.not_le_of_lt hlt)
    rw [hempty] at hI
    cases hI
    obtain ⟨n, hmem, hn⟩ := exists_readAs hC v hv
    have hchildless := cutNodes_childless _ _ _ _ _ _ _ _ hrun fun _ hnil => absurd hnil List.not_mem_nil
    obtain ⟨hleaf, hnone⟩ := hn.leaf (hchildless n hmem)
    exact ⟨hleaf, n.view, hn.record, hnone⟩
  · unfold KeyValueTrie.getSubTrie
    simp only
    rw [if_neg (by omega), Prog.bind_of_ok hload, Prog.bind_of_ok hrun, hcount, ← hhashes,
      List.flatMap_map]
    rfl

/-- A cut has as many hashes as the buffer has room for, or one for each leaf. -/
theorem CutOf.length_eq {u : Trie (Digest d)} {n : Nat} {us : List (Trie (Digest d))}
    (h : CutOf s u n us) : us.length = min n u.keys.length := by
  have hle : us.length ≤ u.keys.length := by
    rw [← h.keys.length_eq]
    exact length_le_keysBelow us
  have hn := h.le
  by_cases hlt : us.length < n
  · have hlen := length_keysBelow_of_leaves fun v hv => (h.leaves hlt v hv).1
    rw [h.keys.length_eq] at hlen
    omega
  · omega

/-- **The cut is exact.** -/
theorem getSubTrie_exact (h : RepInvariant hash s S) (hst : s.storage.failure = none)
    {e : Entry (Digest d)} (hx : s.record x = some e) {buffersize : Nat} (hbuf : 2 ≤ buffersize / d) :
    ∃ hashes : List (Digest d), KeyValueTrie.getSubTrie x buffersize s
        = ⟨.ok (hashes.flatMap Digest.bytes, hashes.length * d), s, []⟩ ∧
      hashes.length = min (buffersize / d) (Set.ncard {k | LeafBelow s k x}) ∧
      hashes.length * d ≤ buffersize ∧ hashes.Nodup ∧ (∀ y ∈ hashes, Below s x y) ∧
      (∀ k, LeafBelow s k x → ∃! y, y ∈ hashes ∧ LeafBelow s k y) ∧
      (hashes.length < buffersize / d → ∀ y ∈ hashes, ∃ e, s.record y = some e ∧ e.children = none) := by
  obtain ⟨u, rfl, hu⟩ := exists_unfolds h.links 256 hx (Nat.sub_le 256 e.len)
  obtain ⟨us, hcut, hrun⟩ := getSubTrie_cutOf hst hu hbuf
  have hunf : ∀ v ∈ us, Unfolds s v := fun v hv => (hcut.read v hv).choose_spec.unfolds
  have hnodup : (keysBelow us).Nodup := hcut.keys.nodup_iff.mpr (hu.keys_nodup h)
  obtain ⟨hlabels, hunique⟩ := labels_of_disjoint hunf hnodup
  have hleaves : Set.ncard {k | LeafBelow s k u.label} = u.keys.length := by
    have hset : {k | LeafBelow s k u.label} = (u.keys.toFinset : Set (Digest d)) := by
      ext k
      simp [hu.leafBelow_iff k]
    rw [hset, Set.ncard_coe_finset, List.toFinset_card_of_nodup (hu.keys_nodup h)]
  refine ⟨us.map Trie.label, ?_, ?_, ?_, hlabels, ?_, ?_, ?_⟩
  · rw [hrun, List.length_map]
  · rw [hleaves, List.length_map]
    exact hcut.length_eq
  · rw [List.length_map]
    exact (Nat.mul_le_mul_right d hcut.le).trans (Nat.div_mul_le_self buffersize d)
  · intro y hy
    obtain ⟨v, hv, rfl⟩ := List.mem_map.mp hy
    exact (hcut.read v hv).choose_spec.below
  · intro k hk
    exact hunique k (hcut.keys.mem_iff.mpr ((hu.leafBelow_iff k).mp hk))
  · intro hlt y hy
    rw [List.length_map] at hlt
    obtain ⟨v, hv, rfl⟩ := List.mem_map.mp hy
    exact (hcut.leaves hlt v hv).2

end Exact

theorem getSubTrie_exact_sample :
    let s := (runTrie (mixHash 16) (byteKey 16 0) 256 (sampleOps 16)).state
    ∃ x, s.storage.table.lookup KeyValueRootNode.rootName = some x.bytes ∧
      ∃ hashes : List (Digest 16), KeyValueTrie.getSubTrie x 32 s
          = ⟨.ok (hashes.flatMap Digest.bytes, hashes.length * 16), s, []⟩ ∧
        hashes.length = min 2 (Set.ncard {k | LeafBelow s k x}) := by
  have hc : CollisionFree (mixHash 16) (runTrie (mixHash 16) (byteKey 16 0) 256 (sampleOps 16)).events := by
    decide +kernel
  have hk : KeysFresh (mixHash 16) (addedKeys (sampleOps 16))
      (runTrie (mixHash 16) (byteKey 16 0) 256 (sampleOps 16)).events := by decide +kernel
  have hne : (setRun ∅ (sampleOps 16)).2.card ≠ 0 := by decide +kernel
  obtain ⟨_, t, ht⟩ := runTrie_represents (mixHash 16) (byteKey 16 0) (Or.inl rfl) (by decide) hc hk
    (List.Subset.refl _) (List.Subset.refl _)
  have hs := separated_of_collisionFree hc hk
  generalize (runTrie (mixHash 16) (byteKey 16 0) 256 (sampleOps 16)).state = s at ht ⊢
  cases t with
  | none => exact absurd (ht.size_eq.symm.trans (Holds.size ht.stores)) hne
  | some t =>
    have h := ht.repInvariant hs
    obtain ⟨x, e, hroot, hx, _⟩ := h.root
    obtain ⟨hashes, hrun, hlen, _⟩ := getSubTrie_exact h (Holds.failure ht.stores) hx
      (show 2 ≤ 32 / 16 by decide)
    exact ⟨x, hroot, hashes, hrun, hlen⟩

end SetSync
