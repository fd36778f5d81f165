import SetSync.TrieRefinement

/-!
# Cutting a subtrie

`KeyValueTrie::getSubTrie`: the nodes of a cut through the trie below a given hash, at most as many
as fit into a buffer.  Nodes with children wait on the stack `inner_nodes`, leaves on `child_nodes`;
every call shares both, and while there is room, an inner node is replaced by a cut through its own
subtrie.  A call returns how many nodes the two stacks have gained.

    one call     the stacks gain between 1 and n nodes, and the keys below them are those that were
                 below them before and those of the node                              (cutNodes_cuts)
    the buffer   the hashes of nodes whose keys are exactly the keys below the hash  (getSubTrie_ok)

The recursion is on `numberOfNodes`, which every call splits.
-/

namespace SetSync

open Program BitTrie

variable {d : Nat}

namespace KeyValueTrie

/-- The stacks `inner_nodes` and `child_nodes`, top first. -/
structure Stacks (d : Nat) where
  inner_nodes : List (TrieNode d)
  child_nodes : List (TrieNode d)

/-- The `while` loop of a call: `getSub` is the recursive call. -/
def cutLoop (getSub : TrieNode d → Nat → Stacks d → TrieM d (Nat × Stacks d)) (numberOfNodes : Nat) :
    Nat → Nat → Stacks d → TrieM d (Nat × Stacks d)
  | 0, _, _ => Prog.diverge
  | fuel + 1, sum, nodes =>
    if sum < numberOfNodes then
      match nodes.inner_nodes with
      | [] => pure (sum, nodes)
      | innerNode :: inner_nodes => do
        let (count, nodes) ← getSub innerNode (numberOfNodes - (sum - 1)) { nodes with inner_nodes }
        cutLoop getSub numberOfNodes fuel (sum - 1 + count) nodes
    else pure (sum, nodes)

/-- `getSubTrie` on a node. -/
def cutNodes : Nat → TrieNode d → Nat → Stacks d → TrieM d (Nat × Stacks d)
  | 0, _, _, _ => Prog.diverge
  | fuel + 1, root, numberOfNodes, nodes =>
    if root.hasChildren && 2 ≤ numberOfNodes then do
      let smaller ← root.getSmaller
      let larger ← root.getLarger
      let (smallercount, nodes) ← cutNodes fuel smaller (numberOfNodes / 2) nodes
      let (largercount, nodes) ← cutNodes fuel larger (numberOfNodes - smallercount) nodes
      cutLoop (cutNodes fuel) numberOfNodes numberOfNodes (smallercount + largercount) nodes
    else if root.hasChildren then
      pure (1, { nodes with inner_nodes := root :: nodes.inner_nodes })
    else pure (1, { nodes with child_nodes := root :: nodes.child_nodes })

/-- `getSubTrie` on a hash and a buffer: the bytes written, and the size returned. -/
def getSubTrie (hash : Digest d) (buffersize : Nat) : TrieM d (Bytes × Nat) :=
  let maxNumberOfHashes := buffersize / d
  if maxNumberOfHashes < 2 then throw (.text "buffer is too small!")
  else do
    let root ← TrieNode.load hash
    let (subtriesize, nodes) ← cutNodes maxNumberOfHashes root maxNumberOfHashes ⟨[], []⟩
    pure ((nodes.inner_nodes ++ nodes.child_nodes).flatMap fun n => n.hash.bytes, subtriesize * d)

end KeyValueTrie

/-! ## Any records

Whatever the records are, a cut ends if loading a node does: it returns, with stacks that have gained as many
nodes as it says, or raises an exception. -/

section AnyRecords

/-- What a call with room for `m` nodes returns: how many it has pushed, and stacks on which the
inner nodes have children. -/
def Pushed (m : Nat) (parent : Bool) (r : Nat × KeyValueTrie.Stacks d) : Prop :=
  1 ≤ r.1 ∧ r.1 ≤ m ∧ (parent = true → 2 ≤ m → 2 ≤ r.1) ∧
    ∀ n ∈ r.2.inner_nodes, n.hasChildren = true

/-- The number of nodes on both stacks. -/
def KeyValueTrie.Stacks.size (nodes : KeyValueTrie.Stacks d) : Nat :=
  nodes.inner_nodes.length + nodes.child_nodes.length

variable {T : ∀ α : Type, TrieM d α → (α → Prop) → Prop} (hT : Prog.Contract T)
  (hload : ∀ x, T _ (TrieNode.load x) fun _ => True)

section Children

include hT hload

theorem getSmaller_loads (n : TrieNode d) : T _ n.getSmaller fun _ => True := by
  unfold TrieNode.getSmaller
  split
  · exact hload n.smaller
  · exact hT.throw _

theorem getLarger_loads (n : TrieNode d) : T _ n.getLarger fun _ => True := by
  unfold TrieNode.getLarger
  split
  · exact hload n.larger
  · exact hT.throw _

end Children

include hT in
theorem cutLoop_pushes {n : Nat}
    {getSub : TrieNode d → Nat → KeyValueTrie.Stacks d → TrieM d (Nat × KeyValueTrie.Stacks d)}
    (hget : ∀ m, 1 ≤ m → m < n → ∀ (root : TrieNode d) (nodes : KeyValueTrie.Stacks d),
      (∀ v ∈ nodes.inner_nodes, v.hasChildren = true) →
        T _ (getSub root m nodes) fun r => Pushed m root.hasChildren r ∧ r.2.size = nodes.size + r.1)
    (fuel sum : Nat) (nodes : KeyValueTrie.Stacks d) (hsum : 2 ≤ sum) (hle : sum ≤ n)
    (hfuel : n - sum < fuel) (hnodes : ∀ v ∈ nodes.inner_nodes, v.hasChildren = true) :
    T _ (KeyValueTrie.cutLoop getSub n fuel sum nodes) fun r => sum ≤ r.1 ∧ r.1 ≤ n ∧
      (∀ v ∈ r.2.inner_nodes, v.hasChildren = true) ∧ r.2.size + sum = nodes.size + r.1 := by
  induction fuel generalizing sum nodes with
  | zero => omega
  | succ fuel ih =>
    unfold KeyValueTrie.cutLoop
    by_cases hroom : sum < n
    · rw [if_pos hroom]
      obtain ⟨inner, child⟩ := nodes
      cases inner with
      | nil => exact hT.pure ⟨Nat.le_refl _, hle, hnodes, rfl⟩
      | cons node inner =>
        refine hT.bind (hget (n - (sum - 1)) (by omega) (by omega) node ⟨inner, child⟩
          fun v hv => hnodes v (List.mem_cons_of_mem node hv)) ?_
        rintro ⟨count, nodes'⟩ ⟨⟨h1, h2, h3, h4⟩, h5⟩
        have htwo := h3 (hnodes node List.mem_cons_self) (by omega)
        simp only at h1 h2 htwo h4 h5 ⊢
        apply hT.mono (ih (sum - 1 + count) nodes' (by omega) (by omega) (by omega) h4)
        rintro r ⟨hr1, hr2, hr3, hr4⟩
        simp only [KeyValueTrie.Stacks.size, List.length_cons] at h5 hr4 ⊢
        exact ⟨by omega, hr2, hr3, by omega⟩
    · rw [if_neg hroom]
      exact hT.pure ⟨Nat.le_refl _, hle, hnodes, rfl⟩

include hT hload

theorem cutNodes_pushes (fuel : Nat) :
    ∀ n, 1 ≤ n → n ≤ fuel → ∀ (root : TrieNode d) (nodes : KeyValueTrie.Stacks d),
      (∀ v ∈ nodes.inner_nodes, v.hasChildren = true) →
        T _ (KeyValueTrie.cutNodes fuel root n nodes) fun r =>
          Pushed n root.hasChildren r ∧ r.2.size = nodes.size + r.1 := by
  induction fuel with
  | zero => intro n h1 h2; omega
  | succ fuel ih =>
    intro n h1 hle root nodes hnodes
    unfold KeyValueTrie.cutNodes
    cases hch : root.hasChildren with
    | false =>
      refine hT.pure ⟨⟨Nat.le_refl 1, h1, fun hp => absurd hp (by decide), hnodes⟩, ?_⟩
      simp only [KeyValueTrie.Stacks.size, List.length_cons]
      omega
    | true =>
      by_cases htwo : 2 ≤ n
      · simp only [Bool.true_and, htwo, decide_true, if_true]
        apply hT.bind (getSmaller_loads hT hload root)
        intro smaller _
        apply hT.bind (getLarger_loads hT hload root)
        intro larger _
        apply hT.bind (ih (n / 2) (by omega) (by omega) smaller nodes hnodes)
        rintro ⟨a, nodes₁⟩ ⟨⟨ha1, ha2, _, ha4⟩, ha5⟩
        simp only at ha1 ha2 ha4 ha5 ⊢
        apply hT.bind (ih (n - a) (by omega) (by omega) larger nodes₁ ha4)
        rintro ⟨b, nodes₂⟩ ⟨⟨hb1, hb2, _, hb4⟩, hb5⟩
        simp only at hb1 hb2 hb4 hb5 ⊢
        refine hT.mono (cutLoop_pushes hT (fun m hm1 hm2 => ih m hm1 (by omega)) n (a + b) nodes₂
          (by omega) (by omega) (by omega) hb4) ?_
        rintro r ⟨hr1, hr2, hr3, hr4⟩
        exact ⟨⟨by omega, hr2, fun _ _ => by omega, hr3⟩, by omega⟩
      · -- no room for both children
        simp only [Bool.true_and, htwo, decide_false, Bool.false_eq_true, if_false, if_true]
        refine hT.pure ⟨⟨Nat.le_refl 1, h1, fun _ hn => absurd hn htwo, ?_⟩, ?_⟩
        · intro v hv
          rcases List.mem_cons.mp hv with rfl | hv
          · exact hch
          · exact hnodes v hv
        · simp only [KeyValueTrie.Stacks.size, List.length_cons]
          omega

omit hT hload in
theorem length_hashes (ns : List (TrieNode d)) :
    (ns.flatMap fun n => n.hash.bytes).length = ns.length * d := by
  induction ns with
  | nil => exact (Nat.zero_mul d).symm
  | cons n ns ih =>
    rw [List.flatMap_cons, List.length_append, ih, Digest.length_bytes, List.length_cons, Nat.succ_mul,
      Nat.add_comm]

/-- **A cut ends**, and the size it returns is that of the bytes written. -/
theorem getSubTrie_pushes (x : Digest d) (buffersize : Nat) :
    T _ (KeyValueTrie.getSubTrie x buffersize) fun r => r.1.length = r.2 := by
  unfold KeyValueTrie.getSubTrie
  simp only
  split
  · exact hT.throw _
  · apply hT.bind (hload x)
    intro root _
    refine hT.bind (cutNodes_pushes hT hload (buffersize / d) (buffersize / d) (by omega)
      (Nat.le_refl _) root ⟨[], []⟩ (by simp)) ?_
    rintro ⟨count, nodes⟩ ⟨-, hcount⟩
    refine hT.pure ?_
    have hnodes : nodes.inner_nodes.length + nodes.child_nodes.length = count := by
      simpa [KeyValueTrie.Stacks.size] using hcount
    simp only [length_hashes, List.length_append, hnodes]

end AnyRecords

theorem load_reads {s : TrieState d} (h : s.storage.failure = none) (x : Digest d) :
    Prog.Reads (TrieNode.load x) s fun _ => True := by
  cases hx : s.storage.table.lookup x.bytes with
  | none => exact Or.inr ⟨_, load_missing h hx⟩
  | some v => exact Or.inl ⟨_, load_found h hx, trivial⟩

/-- With a working storage, a cut only reads. -/
theorem getSubTrie_reads {s : TrieState d} (h : s.storage.failure = none) (x : Digest d)
    (buffersize : Nat) : Prog.Reads (KeyValueTrie.getSubTrie x buffersize) s fun _ => True :=
  (getSubTrie_pushes (Prog.reads_contract s) (load_reads h) x buffersize).mono fun _ _ => trivial

/-! ## Subtries on the stacks -/

/-- Loaded nodes of the stored trie `t`, and the subtries at these places. -/
def ShowsAll (t : Trie (Digest d)) (ns : List (TrieNode d)) (us : List (Trie (Digest d))) : Prop :=
  List.Forall₂ (fun n u => ∃ fs, plug fs u = t ∧ Shows n u.label (u.entry (leafMask d) (above fs))) ns us

def IsNode (u : Trie (Digest d)) : Prop := ∃ lab p m st l r, u = .node lab p m st l r

/-- All keys of some subtries. -/
def keysBelow (us : List (Trie (Digest d))) : List (Digest d) := us.flatMap Trie.keys

/-- What a call on the subtrie `u` does to the stacks `I` and `C`. -/
structure Cut (u : Trie (Digest d)) (n : Nat) (I C : List (Trie (Digest d))) (count : Nat)
    (I' C' : List (Trie (Digest d))) : Prop where
  pos : 1 ≤ count
  le : count ≤ n
  two : IsNode u → 2 ≤ n → 2 ≤ count
  size : I'.length + C'.length = I.length + C.length + count
  keys : (keysBelow (I' ++ C')).Perm (u.keys ++ keysBelow (I ++ C))
  inner : (∀ v ∈ I, IsNode v) → ∀ v ∈ I', IsNode v

theorem keysBelow_append (us vs : List (Trie (Digest d))) :
    keysBelow (us ++ vs) = keysBelow us ++ keysBelow vs := List.flatMap_append

theorem keysBelow_cons (u : Trie (Digest d)) (us : List (Trie (Digest d))) :
    keysBelow (u :: us) = u.keys ++ keysBelow us := List.flatMap_cons

section Spec

variable {s : TrieState d} {t : Trie (Digest d)}

/-- A call as the loop and the recursion use it: with room for `m` nodes it returns a cut. -/
def CutsWith (s : TrieState d) (t : Trie (Digest d)) (m : Nat)
    (getSub : TrieNode d → Nat → KeyValueTrie.Stacks d → TrieM d (Nat × KeyValueTrie.Stacks d)) :
    Prop :=
  ∀ (u : Trie (Digest d)) (fs : List (Frame (Digest d))) (node : TrieNode d)
    (nodes : KeyValueTrie.Stacks d) (I C : List (Trie (Digest d))), plug fs u = t →
    Shows node u.label (u.entry (leafMask d) (above fs)) → ShowsAll t nodes.inner_nodes I →
    ShowsAll t nodes.child_nodes C → (∀ v ∈ I, IsNode v) →
    ∃ count nodes' I' C', getSub node m nodes s = ⟨.ok (count, nodes'), s, []⟩ ∧
      ShowsAll t nodes'.inner_nodes I' ∧ ShowsAll t nodes'.child_nodes C' ∧ Cut u m I C count I' C'

/-- Loaded nodes that `getSmaller` and `getLarger` open as the subtries they are read as. -/
structure Opens (s : TrieState d) (P : TrieNode d → Trie (Digest d) → Prop) : Prop where
  leaf : ∀ {n : TrieNode d} {k : Digest d}, P n (.leaf k) → n.hasChildren = false
  node : ∀ {n : TrieNode d} {lab p : Digest d} {m : Nat} {st : Bool} {l r : Trie (Digest d)},
    P n (.node lab p m st l r) → n.hasChildren = true ∧ ∃ smaller larger,
      n.getSmaller s = ⟨.ok smaller, s, []⟩ ∧ P smaller l ∧
      n.getLarger s = ⟨.ok larger, s, []⟩ ∧ P larger r

/-- `CutsWith`, for any reading of the nodes. -/
def CutsBy (s : TrieState d) (P : TrieNode d → Trie (Digest d) → Prop) (m : Nat)
    (getSub : TrieNode d → Nat → KeyValueTrie.Stacks d → TrieM d (Nat × KeyValueTrie.Stacks d)) :
    Prop :=
  ∀ (u : Trie (Digest d)) (node : TrieNode d) (nodes : KeyValueTrie.Stacks d)
    (I C : List (Trie (Digest d))), P node u → List.Forall₂ P nodes.inner_nodes I →
    List.Forall₂ P nodes.child_nodes C → (∀ v ∈ I, IsNode v) →
    ∃ count nodes' I' C', getSub node m nodes s = ⟨.ok (count, nodes'), s, []⟩ ∧
      List.Forall₂ P nodes'.inner_nodes I' ∧ List.Forall₂ P nodes'.child_nodes C' ∧
      Cut u m I C count I' C'

/-- The loop goes on until there are `n` nodes or no inner node is left. -/
theorem cutLoop_ok {P : TrieNode d → Trie (Digest d) → Prop} {n : Nat}
    {getSub : TrieNode d → Nat → KeyValueTrie.Stacks d → TrieM d (Nat × KeyValueTrie.Stacks d)}
    (hget : ∀ m, 1 ≤ m → m < n → CutsBy s P m getSub) (fuel sum : Nat)
    (nodes : KeyValueTrie.Stacks d) (I C : List (Trie (Digest d))) (hsum : 2 ≤ sum) (hle : sum ≤ n)
    (hfuel : n - sum < fuel) (hI : List.Forall₂ P nodes.inner_nodes I)
    (hC : List.Forall₂ P nodes.child_nodes C) (hnode : ∀ v ∈ I, IsNode v) :
    ∃ count nodes' I' C',
      KeyValueTrie.cutLoop getSub n fuel sum nodes s = ⟨.ok (count, nodes'), s, []⟩ ∧
      List.Forall₂ P nodes'.inner_nodes I' ∧ List.Forall₂ P nodes'.child_nodes C' ∧
      sum ≤ count ∧ count ≤ n ∧ I'.length + C'.length + sum = I.length + C.length + count ∧
      (keysBelow (I' ++ C')).Perm (keysBelow (I ++ C)) ∧ ∀ v ∈ I', IsNode v := by
  induction fuel generalizing sum nodes I C with
  | zero => omega
  | succ fuel ih =>
    unfold KeyValueTrie.cutLoop
    by_cases hroom : sum < n
    · rw [if_pos hroom]
      obtain ⟨inner, child⟩ := nodes
      cases hI with
      | nil =>
        exact ⟨sum, ⟨[], child⟩, [], C, rfl, .nil, hC, Nat.le_refl _, hle, rfl, .refl _, hnode⟩
      | @cons node u inner I hu hI =>
        have hun := hnode u List.mem_cons_self
        obtain ⟨count, nodes₁, I₁, C₁, hrun, hI₁, hC₁, hcut⟩ := hget (n - (sum - 1)) (by omega)
          (by omega) u node ⟨inner, child⟩ I C hu hI hC
          fun v hv => hnode v (List.mem_cons_of_mem u hv)
        have htwo := hcut.two hun (by omega)
        have hcle := hcut.le
        have hsize := hcut.size
        obtain ⟨count', nodes₂, I₂, C₂, hloop, hI₂, hC₂, h1, h2, h3, h4, h5⟩ := ih (sum - 1 + count)
          nodes₁ I₁ C₁ (by omega) (by omega) (by omega) hI₁ hC₁
          (hcut.inner fun v hv => hnode v (List.mem_cons_of_mem u hv))
        refine ⟨count', nodes₂, I₂, C₂, ?_, hI₂, hC₂, by omega, h2, ?_, ?_, h5⟩
        · show (getSub node (n - (sum - 1)) ⟨inner, child⟩ >>= _) s = _
          rw [Prog.bind_of_ok hrun]
          simp only
          rw [hloop]
          rfl
        · rw [List.length_cons]
          omega
        · refine h4.trans (hcut.keys.trans ?_)
          rw [List.cons_append, keysBelow_cons]
    · rw [if_neg hroom]
      exact ⟨sum, nodes, I, C, rfl, hI, hC, Nat.le_refl _, hle, rfl, .refl _, hnode⟩

/-- **One call.** -/
theorem cutNodes_cuts {P : TrieNode d → Trie (Digest d) → Prop} (hP : Opens s P) (fuel : Nat) :
    ∀ n, 1 ≤ n → n ≤ fuel → CutsBy s P n (KeyValueTrie.cutNodes fuel) := by
  induction fuel with
  | zero => intro n h1 h2; omega
  | succ fuel ih =>
    intro n h1 hle u node nodes I C hu hI hC hnode
    unfold KeyValueTrie.cutNodes
    cases u with
    | leaf k =>
      -- a leaf is pushed
      have hch : node.hasChildren = false := hP.leaf hu
      refine ⟨1, { nodes with child_nodes := node :: nodes.child_nodes }, I, .leaf k :: C, ?_, hI,
        .cons hu hC, Nat.le_refl 1, h1, ?_, ?_, ?_, fun _ => hnode⟩
      · simp [hch]
      · rintro ⟨_, _, _, _, _, _, he⟩
        cases he
      · rw [List.length_cons]
        omega
      · rw [keysBelow_append, keysBelow_cons, keysBelow_append]
        exact List.perm_append_comm_assoc _ _ _
    | node lab p m st l r =>
      obtain ⟨hch, sn, ln, hsmaller, hsn, hlarger, hln⟩ := hP.node hu
      by_cases htwo : 2 ≤ n
      · obtain ⟨a, nodes₁, I₁, C₁, hrun₁, hI₁, hC₁, hcut₁⟩ := ih (n / 2) (by omega) (by omega) l
          sn nodes I C hsn hI hC hnode
        have ha := hcut₁.le
        obtain ⟨b, nodes₂, I₂, C₂, hrun₂, hI₂, hC₂, hcut₂⟩ := ih (n - a) (by omega)
          (by have := hcut₁.pos; omega) r ln nodes₁ I₁ C₁ hln hI₁ hC₁ (hcut₁.inner hnode)
        have hpa := hcut₁.pos
        have hpb := hcut₂.pos
        have hb := hcut₂.le
        have hsz₁ := hcut₁.size
        have hsz₂ := hcut₂.size
        obtain ⟨c, nodes₃, I₃, C₃, hloop, hI₃, hC₃, hge, hcn, hsize, hkeys, hinner⟩ := cutLoop_ok (n := n)
          (fun m hm1 hm2 => ih m hm1 (by omega)) n (a + b) nodes₂ I₂ C₂ (by omega) (by omega)
          (by omega) hI₂ hC₂ (hcut₂.inner (hcut₁.inner hnode))
        refine ⟨c, nodes₃, I₃, C₃, ?_, hI₃, hC₃, by omega, hcn, fun _ _ => by omega, by omega, ?_,
          fun _ => hinner⟩
        · simp only [hch, Bool.true_and, htwo, decide_true, if_true]
          rw [Prog.bind_of_ok hsmaller, Prog.bind_of_ok hlarger, Prog.bind_of_ok hrun₁]
          simp only
          rw [Prog.bind_of_ok hrun₂]
          simp only
          rw [hloop]
          rfl
        · refine hkeys.trans (hcut₂.keys.trans ?_)
          show List.Perm _ ((l.keys ++ r.keys) ++ _)
          rw [List.append_assoc]
          exact (hcut₁.keys.append_left r.keys).trans (List.perm_append_comm_assoc _ _ _)
      · -- no room for both children
        refine ⟨1, { nodes with inner_nodes := node :: nodes.inner_nodes },
          .node lab p m st l r :: I, C, ?_, .cons hu hI, hC, Nat.le_refl 1, h1,
          fun _ hn2 => absurd hn2 htwo, ?_, ?_, ?_⟩
        · simp [hch, htwo]
        · rw [List.length_cons]
          omega
        · rw [List.cons_append, keysBelow_cons]
        · intro hall v hv
          rcases List.mem_cons.mp hv with rfl | hv
          · exact ⟨lab, p, m, st, l, r, rfl⟩
          · exact hall v hv

/-- The nodes of a stored trie. -/
theorem opens_stored (h : Stores s (some t)) (hn : t.labels.Nodup) :
    Opens s fun n u => ∃ fs, plug fs u = t ∧ Shows n u.label (u.entry (leafMask d) (above fs)) where
  leaf := fun ⟨_, _, hshow⟩ => hshow.hasChildren
  node := by
    rintro node lab p m st l r ⟨fs, rfl, hshow⟩
    obtain ⟨sn, hsload, hsshow⟩ := load_ok h
      (content_plug_label (w := leafMask d) (⟨lab, p, m, st, false, r⟩ :: fs) l hn)
    obtain ⟨ln, hlload, hlshow⟩ := load_ok h
      (content_plug_label (w := leafMask d) (⟨lab, p, m, st, true, l⟩ :: fs) r hn)
    refine ⟨hshow.hasChildren, sn, ln, ?_, ⟨_, rfl, hsshow⟩, ?_, ⟨_, rfl, hlshow⟩⟩
    · rw [hshow.getSmaller rfl, hsload]
    · rw [hshow.getLarger rfl, hlload]

theorem cutNodes_ok (h : Stores s (some t)) (hn : t.labels.Nodup) (fuel : Nat) :
    ∀ n, 1 ≤ n → n ≤ fuel → CutsWith s t n (KeyValueTrie.cutNodes fuel) := by
  intro n h1 hle u fs node nodes I C hplug hshow hI hC hnode
  exact cutNodes_cuts (opens_stored h hn) fuel n h1 hle u node nodes I C ⟨fs, hplug, hshow⟩ hI hC hnode

theorem ShowsAll.labels {ns : List (TrieNode d)} {us : List (Trie (Digest d))} (h : ShowsAll t ns us) :
    ns.map TrieNode.hash = us.map Trie.label := by
  induction h with
  | nil => rfl
  | cons hu _ ih =>
    obtain ⟨fs, _, hshow⟩ := hu
    rw [List.map_cons, List.map_cons, hshow.hash, ih]

theorem ShowsAll.placed {ns : List (TrieNode d)} {us : List (Trie (Digest d))} (h : ShowsAll t ns us) :
    ∀ u ∈ us, ∃ fs, plug fs u = t := by
  induction h with
  | nil => simp
  | cons hu _ ih =>
    obtain ⟨fs, hplug, _⟩ := hu
    intro v hv
    rcases List.mem_cons.mp hv with rfl | hv
    · exact ⟨fs, hplug⟩
    · exact ih v hv

/-- **The buffer of a subtrie.** -/
theorem getSubTrie_ok (h : Stores s (some t)) (hn : t.labels.Nodup) {u : Trie (Digest d)}
    {fs : List (Frame (Digest d))} (hplug : plug fs u = t) {buffersize : Nat}
    (hbuf : 2 ≤ buffersize / d) :
    ∃ us : List (Trie (Digest d)), KeyValueTrie.getSubTrie u.label buffersize s
        = ⟨.ok ((us.map Trie.label).flatMap Digest.bytes, us.length * d), s, []⟩ ∧
      (∀ v ∈ us, ∃ gs, plug gs v = t) ∧ (keysBelow us).Perm u.keys ∧ 1 ≤ us.length ∧
      us.length ≤ buffersize / d ∧ (IsNode u → 2 ≤ us.length) := by
  subst hplug
  obtain ⟨root, hload, hshow⟩ := load_ok h (content_plug_label (w := leafMask d) fs u hn)
  obtain ⟨count, nodes, I, C, hrun, hI, hC, hcut⟩ := cutNodes_ok h hn (buffersize / d) (buffersize / d)
    (by omega) (Nat.le_refl _) u fs root ⟨[], []⟩ [] [] rfl hshow .nil .nil (by simp)
  have hsize := hcut.size
  rw [List.length_nil, Nat.add_zero, Nat.zero_add] at hsize
  have hcount : (I ++ C).length = count := by rw [List.length_append, hsize]
  have hlabels : (nodes.inner_nodes ++ nodes.child_nodes).map TrieNode.hash = (I ++ C).map Trie.label := by
    rw [List.map_append, List.map_append, hI.labels, hC.labels]
  refine ⟨I ++ C, ?_, ?_, ?_, ?_, ?_, ?_⟩
  · unfold KeyValueTrie.getSubTrie
    simp only
    rw [if_neg (by omega), Prog.bind_of_ok hload, Prog.bind_of_ok hrun, ← hlabels, hcount,
      List.flatMap_map]
    rfl
  · intro v hv
    rcases List.mem_append.mp hv with hv | hv
    · exact hI.placed v hv
    · exact hC.placed v hv
  · have hkeys := hcut.keys
    rwa [show keysBelow ([] ++ [] : List (Trie (Digest d))) = [] from rfl, List.append_nil] at hkeys
  · rw [hcount]
    exact hcut.pos
  · rw [hcount]
    exact hcut.le
  · rw [hcount]
    exact fun hnode => hcut.two hnode hbuf

/-- A buffer with room for two hashes. -/
theorem pos_of_room {buffersize : Nat} (h : 2 ≤ buffersize / d) : 0 < d := by
  rcases Nat.eq_zero_or_pos d with h0 | h0
  · rw [h0, Nat.div_zero] at h
    cases h
  · exact h0

/-- A hash that is not stored. -/
theorem getSubTrie_error {M : Entries d} {r : Option (Digest d)} {size : Nat} {x : Digest d}
    (h : Holds s M r size) (hx : M x = none) {buffersize : Nat} (hbuf : 2 ≤ buffersize / d) :
    KeyValueTrie.getSubTrie x buffersize s = ⟨.error .trieNodeNotFound, s, []⟩ := by
  unfold KeyValueTrie.getSubTrie
  simp only
  rw [if_neg (by omega)]
  exact Prog.bind_of_error (load_error h hx) _

end Spec

end SetSync
