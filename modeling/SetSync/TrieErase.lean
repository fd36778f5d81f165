import SetSync.TrieInsert

/-!
# Deletion, on the storage

`erase` looks the leaf up by its hash.  A leaf that is the root leaves nothing; under the root its
sibling becomes the root (`eraseUnderRoot_ok`); deeper, the sibling is hung under the grandparent,
which gets a new hash, and from there on either all ancestors move (`eraseLoop_ok`) or the parent of
the grandparent is left dirty (`eraseUnderGrandparent_lazy`).
-/

namespace SetSync

open Program BitTrie TrieNode

variable {d : Nat} (hash : CryptoHash d) {E : Digest d × Digest d → Prop} {K : Digest d → Prop}
  {s : TrieState d} {M : Entries d} {r : Option (Digest d)} {size : Nat}

theorem eraseReplace_ok {f : Frame (Digest d)} {o : Trie (Digest d)} {par : Option (Digest d)}
    {oldparent oldchild : TrieNode d} {e : Entry (Digest d)} (what : String)
    (newchild : TrieNode d) (h : Holds s M r size)
    (hp : Shows oldparent f.label ((f.fill o).entry (leafMask d) par))
    (hc : oldchild.hash = o.label) (hne : o.label ≠ f.other.label)
    (hoth : M f.other.label = some e) :
    ∃ parent otherchild, eraseReplace what oldparent oldchild newchild s
        = ⟨.ok (parent, otherchild), s, []⟩ ∧
      Shows parent f.label (replacedEntry f par newchild.hash) ∧ Shows otherchild f.other.label e := by
  rw [f.entry_fill] at hp
  obtain ⟨nt, hlt, hst⟩ := load_ok h hoth
  cases hl : f.large
  · have hch : f.children o.label = (o.label, f.other.label) := by simp [Frame.children, hl]
    rw [hch] at hp
    obtain ⟨p', hset, hsp⟩ := hp.setSmaller rfl newchild s
    have hneq : oldparent.isEqualToLarger oldchild = false := by
      rw [hp.isEqualToLarger rfl, hc]; simpa using hne
    have heq : oldparent.isEqualToSmaller oldchild = true := by
      rw [hp.isEqualToSmaller rfl, hc]; simp
    refine ⟨p', nt, ?_, ?_, hst⟩
    · unfold eraseReplace
      rw [hneq, heq, hp.getLarger rfl]
      simp only [Bool.false_eq_true, if_false, if_true]
      rw [Prog.bind_of_ok hlt, Prog.bind_of_ok hset]
      rfl
    · simpa [replacedEntry, Frame.children, hl] using hsp
  · -- the old child is the larger one
    have hch : f.children o.label = (f.other.label, o.label) := by simp [Frame.children, hl]
    rw [hch] at hp
    obtain ⟨p', hset, hsp⟩ := hp.setLarger rfl newchild s
    have heq : oldparent.isEqualToLarger oldchild = true := by
      rw [hp.isEqualToLarger rfl, hc]; simp
    refine ⟨p', nt, ?_, ?_, hst⟩
    · unfold eraseReplace
      rw [heq, if_pos rfl, hp.getSmaller rfl, Prog.bind_of_ok hlt, Prog.bind_of_ok hset]
      rfl
    · simpa [replacedEntry, Frame.children, hl] using hsp

/-! ## The loop up to the root -/

theorem eraseLoop_ok (hd : d ≠ 4) (hs : Separated hash.pair (Hashes E) K)
    (fs : List (Frame (Digest d))) {o t : Trie (Digest d)} {oldnode newnode : TrieNode d}
    {dels : List (TrieNode d)} {fuel : Nat} (hfuel : fs.length < fuel) (h : Holds s M r size)
    (ho : Shows oldnode o.label (o.entry (leafMask d) (above fs)))
    (ht : Shows newnode t.label (t.entry (leafMask d) (above fs)))
    (hM : ∀ x, M x = overlay (leafMask d) (above fs) t (content (leafMask d) none (plug fs o)) x)
    (hw : Rewriting Digest.bit (leafMask d) hash.pair (Hashes E) K fs o t (dels.map TrieNode.hash))
    (hm : Moves hash.pair (Hashes E) fs t) :
    Prog.Returns E (eraseLoop hash fuel oldnode newnode dels) s fun res s' =>
      res.1.hash = (rebuild hash.pair fs t).label ∧ Rehashed hash.pair (Hashes E) fs t ∧
      Rewriting Digest.bit (leafMask d) hash.pair (Hashes E) K [] (plug fs o) (rebuild hash.pair fs t)
        (res.2.map TrieNode.hash) ∧
      Holds s' (overlay (leafMask d) none (rebuild hash.pair fs t)
        (content (leafMask d) none (plug fs o))) r size := by
  induction fs generalizing o t oldnode newnode dels fuel s M with
  | nil =>
    obtain ⟨fuel, rfl⟩ : ∃ k, fuel = k + 1 := ⟨fuel - 1, by simp at hfuel; omega⟩
    have hpar : oldnode.hasParent = false := by rw [ho.hasParent, Trie.entry_parent]; rfl
    unfold eraseLoop
    rw [hpar]
    exact Prog.Returns.pure ⟨ht.hash, trivial, hw, h.congr hM⟩
  | cons f fs ih =>
    obtain ⟨fuel, rfl⟩ : ∃ k, fuel = k + 1 := ⟨fuel - 1, by omega⟩
    have hno := hw.nodup_old hs
    have hpar : oldnode.hasParent = true := by rw [ho.hasParent, Trie.entry_parent]; rfl
    obtain ⟨hfM, hothM, _, hsib⟩ := hw.records hs fun x _ => hM x
    obtain ⟨np, hlp, hsp⟩ := load_ok h hfM
    obtain ⟨p₁, oc, hrep, hsp₁, hsoc⟩ := eraseReplace_ok
      "a old grandparent hasn't been child of a old grandgrandparent" newnode h hsp ho.hash hsib hothM
    rw [ht.hash] at hsp₁
    unfold eraseLoop
    rw [hpar, if_pos rfl, ho.getParent (Trie.entry_parent _ _)]
    refine Prog.Returns.bind_of_eq hlp (Prog.Returns.bind_of_eq hrep ?_)
    apply Prog.Returns.bind (updateHash_returns hash id hsp₁)
    rintro p₂ _ ⟨rfl, hpair, hsp₂⟩
    obtain ⟨hne₁, hne₂, hne₃⟩ := hw.labels_ne hs hpair
    have hsoc' := hsoc.setParent p₂
    have ht' := ht.setParent p₂
    rw [hsp₂.hash, Trie.entry_setParent] at hsoc' ht'
    obtain ⟨s₁, hs₁, h₁⟩ := toDb_ok hd h p₂
    obtain ⟨s₂, hs₂, h₂⟩ := toDb_ok hd h₁ (newnode.setParent p₂)
    obtain ⟨s₃, hs₃, h₃⟩ := toDb_ok hd h₂ (oc.setParent p₂)
    refine Prog.Returns.bind_of_eq hs₁ (Prog.Returns.bind_of_eq hs₂ (Prog.Returns.bind_of_eq hs₃ ?_))
    rw [hsp₂.hash, hsp₂.view] at h₁
    rw [hsp₂.hash, hsp₂.view, ht'.hash, ht'.view, hsoc'.hash, hsoc'.view] at h₃
    have hstep := hw.step hs hpair (hm hpair).1
    rw [← hsp.hash] at hstep
    refine Prog.Returns.mono (ih (o := f.fill o) (t := f.rehash hash.pair t)
      (by simp at hfuel; omega) h₃ ?_ hsp₂ ?_ ?_ (hm hpair).2)
      fun res s' ⟨hres, hreh, hrw, hh⟩ => ⟨hres, ⟨hpair, hreh⟩, hrw, hh⟩
    · rw [Frame.label_fill]
      exact hsp
    · refine overlay_rehash hno (hstep.nodup_new hs) (fun x _ => hM x) ?_ ?_ ?_ ?_
      · rw [Function.update_of_ne hne₂, Function.update_of_ne hne₁, Function.update_self]
      · rw [Function.update_of_ne hne₃, Function.update_self]
      · rw [Function.update_self]
      · intro x hx₁ hx₂ hx₃
        rw [Function.update_of_ne hx₃, Function.update_of_ne hx₂, Function.update_of_ne hx₁]
    · rw [List.map_append]
      exact hstep

/-! ## The three places of a leaf -/

section Places

variable {p g : Frame (Digest d)} {fs : List (Frame (Digest d))} {k : Digest d}
  {leaf parent : TrieNode d} {fuel : Nat}

/-- The sibling of the leaf, whichever side it is on. -/
theorem sibling_ok (h : Holds s M r size) {par : Option (Digest d)} {e : Entry (Digest d)}
    (hleaf : leaf.hash = k)
    (hp : Shows parent p.label ((p.fill (.leaf k)).entry (leafMask d) par))
    (hne : k ≠ p.other.label) (hoth : M p.other.label = some e) (what : Exn) :
    ∃ n, ((if parent.isEqualToLarger leaf then parent.getSmaller
        else if parent.isEqualToSmaller leaf then parent.getLarger
        else throw what : TrieM d (TrieNode d)) s = ⟨.ok n, s, []⟩) ∧
      ((if parent.isEqualToLarger leaf then parent.getSmaller
        else parent.getLarger : TrieM d (TrieNode d)) s = ⟨.ok n, s, []⟩) ∧
      Shows n p.other.label e := by
  rw [p.entry_fill] at hp
  obtain ⟨n, hl, hs⟩ := load_ok h hoth
  refine ⟨n, ?_⟩
  cases hlg : p.large
  · have hch : p.children (Trie.leaf k).label = (k, p.other.label) := by
      simp [Frame.children, hlg, Trie.label]
    rw [hch] at hp
    have hneq : parent.isEqualToLarger leaf = false := by
      rw [hp.isEqualToLarger rfl, hleaf]; simpa using hne
    have heq : parent.isEqualToSmaller leaf = true := by
      rw [hp.isEqualToSmaller rfl, hleaf]; simp
    rw [hneq, heq, hp.getLarger rfl]
    exact ⟨hl, hl, hs⟩
  · have hch : p.children (Trie.leaf k).label = (p.other.label, k) := by
      simp [Frame.children, hlg, Trie.label]
    rw [hch] at hp
    have heq : parent.isEqualToLarger leaf = true := by
      rw [hp.isEqualToLarger rfl, hleaf]; simp
    rw [heq, hp.getSmaller rfl]
    exact ⟨hl, hl, hs⟩

theorem eraseUnderRoot_ok (hd : d ≠ 4) (hs : Separated hash.pair (Hashes E) K)
    (h : Holds s (content (leafMask d) none (p.fill (.leaf k))) r size) (hleaf : leaf.hash = k)
    (hp : Shows parent p.label ((p.fill (.leaf k)).entry (leafMask d) none))
    (ho : Ordered Digest.bit (leafMask d) (p.fill (.leaf k)))
    (hpl : Placed Digest.bit (leafMask d) hash.pair (Hashes E) K (p.fill (.leaf k))) :
    ∃ s', eraseUnderRoot leaf parent s = ⟨.ok (), s', []⟩ ∧
      Holds s' (content (leafMask d) none p.other) (some p.other.label) size := by
  have hrw := Rewriting.of_collapse hs
    (show Ordered Digest.bit (leafMask d) (plug [p] (.leaf k)) from ho) hpl
  have hno : (plug [p] (.leaf k)).labels.Nodup := labels_nodup hs ho hpl
  have hoth := content_plug_other (w := leafMask d) p [] (.leaf k) hno p.other.label_mem_labels
  rw [content_label] at hoth
  have hkne : k ≠ p.other.label := fun he =>
    hrw.replaces.gone k (by simp) (he ▸ p.other.label_mem_labels)
  have hpne : p.label ≠ p.other.label := fun he =>
    hrw.replaces.gone p.label (by simp) (he ▸ p.other.label_mem_labels)
  obtain ⟨n, _, hn, hsn⟩ := sibling_ok h hleaf hp hkne hoth (.text "")
  have hsn' : Shows { n with hasParent := false } p.other.label (p.other.entry (leafMask d) none) := by
    refine ⟨hsn.hash, ?_⟩
    rw [← Trie.entry_setParent (w := leafMask d) p.other (some p.label) none, ← hsn.view]
    rfl
  obtain ⟨s₁, hs₁, h₁⟩ := toDb_ok hd h { n with hasParent := false }
  obtain ⟨s₂, hs₂, h₂⟩ := rootSet_ok hd h₁ n.hash
  obtain ⟨s₃, hs₃, h₃⟩ := deleteFromDb_ok hd h₂ parent
  obtain ⟨s₄, hs₄, h₄⟩ := deleteFromDb_ok hd h₃ leaf
  refine ⟨s₄, ?_, ?_⟩
  · unfold eraseUnderRoot
    rw [Prog.bind_of_ok hn, Prog.bind_of_ok hs₁, Prog.bind_of_ok hs₂,
      Prog.bind_of_ok hs₃, hs₄]
    rfl
  · rw [hsn'.view, hsn'.hash, hp.hash, hleaf] at h₄
    refine h₄.congr fun x => Eq.trans ?_ (content_of_replaces hrw.replaces x)
    by_cases hxk : x = k
    · rw [hxk, Function.update_self, if_pos (by simp)]
    rw [Function.update_of_ne hxk]
    by_cases hxp : x = p.label
    · rw [hxp, Function.update_self, if_pos (by simp)]
    rw [Function.update_of_ne hxp, if_neg (by simp [hxk, hxp])]
    by_cases hxo : x = p.other.label
    · rw [hxo, Function.update_self, overlay_of_mem _ _ p.other.label_mem_labels, content_label]
    · rw [Function.update_of_ne hxo]
      exact overlay_sibling hno none hxo

/-- The grandparent is written under its new hash, over the sibling and its own other child. -/
theorem eraseGrandparent_ok (hd : d ≠ 4) (hs : Separated hash.pair (Hashes E) K)
    (h : Holds s (content (leafMask d) none (plug (p :: g :: fs) (.leaf k))) r size)
    (hleaf : leaf.hash = k)
    (hp : Shows parent p.label ((p.fill (.leaf k)).entry (leafMask d) (some g.label)))
    (ho : Ordered Digest.bit (leafMask d) (plug (p :: g :: fs) (.leaf k)))
    (hpl : Placed Digest.bit (leafMask d) hash.pair (Hashes E) K (plug (p :: g :: fs) (.leaf k)))
    (hm : Hashes E (g.children p.other.label).1 (g.children p.other.label).2 →
      (g.rehash hash.pair p.other).label ≠ g.label) :
    Prog.Returns E (eraseGrandparent hash leaf parent) s fun res s' =>
      Hashes E (g.children p.other.label).1 (g.children p.other.label).2 ∧
      Shows res.1 (g.fill (p.fill (.leaf k))).label
        ((g.fill (p.fill (.leaf k))).entry (leafMask d) (above fs)) ∧
      Shows res.2 (g.rehash hash.pair p.other).label
        ((g.rehash hash.pair p.other).entry (leafMask d) (above fs)) ∧
      Rewriting Digest.bit (leafMask d) hash.pair (Hashes E) K fs (g.fill (p.fill (.leaf k)))
        (g.rehash hash.pair p.other) [p.label, k, g.label] ∧
      Holds s' (overlay (leafMask d) (above fs) (g.rehash hash.pair p.other)
        (content (leafMask d) none (plug (p :: g :: fs) (.leaf k)))) r size := by
  have hrw := Rewriting.of_collapse hs ho hpl
  have hno : (plug (p :: g :: fs) (.leaf k)).labels.Nodup := labels_nodup hs ho hpl
  have hM := fun x (hx : x ≠ p.other.label) =>
    overlay_sibling (w := leafMask d) hno (some g.label) hx
  obtain ⟨hgM, hgoM, _, hsib⟩ := hrw.records hs hM
  have hoth := content_plug_other (w := leafMask d) p (g :: fs) (.leaf k) hno p.other.label_mem_labels
  rw [content_label] at hoth
  have hkne : k ≠ p.other.label := fun he =>
    hrw.replaces.gone k (by simp) (he ▸ p.other.label_mem_labels)
  obtain ⟨ng, hlg, hsg⟩ := load_ok h hgM
  obtain ⟨n, hn, _, hsn⟩ := sibling_ok h hleaf hp hkne hoth (.dbTrieException "Parent has wrong children")
  obtain ⟨g₁, gc, hrep, hsg₁, hsgc⟩ := eraseReplace_ok "Grandparent has wrong children" n h hsg
    (show parent.hash = (p.fill (.leaf k)).label by rw [hp.hash, Frame.label_fill]) hsib hgoM
  rw [hsn.hash] at hsg₁
  unfold eraseGrandparent
  rw [hp.getParent (Trie.entry_parent _ _)]
  refine Prog.Returns.bind_of_eq hlg (Prog.Returns.bind_of_eq hn (Prog.Returns.bind_of_eq hrep ?_))
  apply Prog.Returns.bind (updateHash_returns hash id hsg₁)
  rintro g₂ _ ⟨rfl, hpair, hsg₂⟩
  obtain ⟨hne₁, hne₂, hne₃⟩ := hrw.labels_ne hs hpair
  have hn' := hsn.setParent g₂
  have hgc' := hsgc.setParent g₂
  rw [hsg₂.hash, Trie.entry_setParent] at hn' hgc'
  obtain ⟨s₁, hs₁, h₁⟩ := toDb_ok hd h g₂
  obtain ⟨s₂, hs₂, h₂⟩ := toDb_ok hd h₁ (n.setParent g₂)
  obtain ⟨s₃, hs₃, h₃⟩ := toDb_ok hd h₂ (gc.setParent g₂)
  refine Prog.Returns.bind_of_eq hs₁ (Prog.Returns.bind_of_eq hs₂ (Prog.Returns.bind_of_eq hs₃ ?_))
  rw [hsg₂.hash, hsg₂.view, hn'.hash, hn'.view, hgc'.hash, hgc'.view] at h₃
  have hstep := hrw.step hs hpair (hm hpair)
  refine Prog.Returns.pure ⟨hpair, ?_, hsg₂, hstep, h₃.congr ?_⟩
  · rw [Frame.label_fill]
    exact hsg
  · refine overlay_rehash (show (plug (g :: fs) (p.fill (.leaf k))).labels.Nodup from hno)
      (hstep.nodup_new hs) hM ?_ ?_ ?_ ?_
    · rw [Function.update_of_ne hne₂, Function.update_of_ne hne₁, Function.update_self]
    · rw [Function.update_of_ne hne₃, Function.update_self]
    · rw [Function.update_self]
    · intro x hx₁ hx₂ hx₃
      rw [Function.update_of_ne hx₃, Function.update_of_ne hx₂, Function.update_of_ne hx₁]

/-- The parent of the grandparent is relinked and left dirty. -/
theorem eraseLazy_ok (hd : d ≠ 4) (hs : Separated hash.pair (Hashes E) K) {f : Frame (Digest d)}
    {o t : Trie (Digest d)} {oldnode newnode : TrieNode d} {dels : List (Digest d)}
    (h : Holds s M r size) (ho : Shows oldnode o.label (o.entry (leafMask d) (some f.label)))
    (ht : newnode.hash = t.label)
    (hM : ∀ x, M x = overlay (leafMask d) (some f.label) t
      (content (leafMask d) none (plug (f :: fs) o)) x)
    (hw : Rewriting Digest.bit (leafMask d) hash.pair (Hashes E) K (f :: fs) o t dels) :
    ∃ s' M', eraseLazy oldnode newnode s = ⟨.ok (), s', []⟩ ∧ Holds s' M' r size ∧
      ∀ x, (if x ∈ dels then none else M' x)
        = content (leafMask d) none (plug (f.dirtied :: fs) t) x := by
  obtain ⟨hfM, _, _, hsib⟩ := hw.records hs fun x _ => hM x
  obtain ⟨np, hlp, hsp⟩ := load_ok h hfM
  rw [Frame.entry_fill] at hsp
  -- either way the record of the parent gets the new child
  suffices hrun : ∃ p', Shows p' f.label ((f.dirtied.fill t).entry (leafMask d) (above fs)) ∧
      eraseLazy oldnode newnode s = p'.toDb s by
    obtain ⟨p', hp', hrun⟩ := hrun
    obtain ⟨s₁, hs₁, h₁⟩ := toDb_ok hd h p'
    rw [hp'.hash, hp'.view] at h₁
    refine ⟨s₁, _, by rw [hrun, hs₁], h₁, hw.content_dirtied hs (fun x hx => ?_) ?_⟩
    · rw [Function.update_of_ne hx, hM x]
    · rw [Function.update_self]
  rw [Frame.entry_fill]
  unfold eraseLazy
  rw [ho.getParent (Trie.entry_parent _ _), Prog.bind_of_ok hlp]
  cases hl : f.large
  · have hch : ∀ x, f.children x = (x, f.other.label) := fun x => by simp [Frame.children, hl]
    have hch' : ∀ x, f.dirtied.children x = (x, f.other.label) := hch
    rw [hch] at hsp
    obtain ⟨p', hset, hp'⟩ := hsp.setSmaller rfl newnode s
    rw [ht] at hp'
    have hneq : np.isEqualToLarger oldnode = false := by
      rw [hsp.isEqualToLarger rfl, ho.hash]; simpa using hsib
    have heq : np.isEqualToSmaller oldnode = true := by
      rw [hsp.isEqualToSmaller rfl, ho.hash]; simp
    refine ⟨p', by rw [hch']; exact hp', ?_⟩
    simp only [hneq, heq, Bool.false_eq_true, if_false, if_true]
    rw [Prog.bind_of_ok hset]
    rfl
  · have hch : ∀ x, f.children x = (f.other.label, x) := fun x => by simp [Frame.children, hl]
    have hch' : ∀ x, f.dirtied.children x = (f.other.label, x) := hch
    rw [hch] at hsp
    obtain ⟨p', hset, hp'⟩ := hsp.setLarger rfl newnode s
    rw [ht] at hp'
    have heq : np.isEqualToLarger oldnode = true := by
      rw [hsp.isEqualToLarger rfl, ho.hash]; simp
    refine ⟨p', by rw [hch']; exact hp', ?_⟩
    simp only [heq, if_true]
    rw [Prog.bind_of_ok hset]
    rfl

/-- `performHash == true`, or the grandparent is the root: all labels above move. -/
theorem eraseUnderGrandparent_ok (perf : Bool) (hperf : perf = true ∨ fs = []) (hd : d ≠ 4)
    (hs : Separated hash.pair (Hashes E) K) (hfuel : fs.length < fuel)
    (h : Holds s (content (leafMask d) none (plug (p :: g :: fs) (.leaf k))) r size)
    (hleaf : leaf.hash = k)
    (hp : Shows parent p.label ((p.fill (.leaf k)).entry (leafMask d) (some g.label)))
    (ho : Ordered Digest.bit (leafMask d) (plug (p :: g :: fs) (.leaf k)))
    (hpl : Placed Digest.bit (leafMask d) hash.pair (Hashes E) K (plug (p :: g :: fs) (.leaf k)))
    (hm : Moves hash.pair (Hashes E) (g :: fs) p.other) :
    Prog.Returns E (eraseUnderGrandparent hash fuel leaf parent perf) s fun _ s' =>
      Rehashed hash.pair (Hashes E) (g :: fs) p.other ∧
      Placed Digest.bit (leafMask d) hash.pair (Hashes E) K (rebuild hash.pair (g :: fs) p.other) ∧
      Holds s' (content (leafMask d) none (rebuild hash.pair (g :: fs) p.other))
        (some (rebuild hash.pair (g :: fs) p.other).label) size := by
  unfold eraseUnderGrandparent
  apply Prog.Returns.bind (eraseGrandparent_ok hash hd hs h hleaf hp ho hpl fun hx => (hm hx).1)
  rintro ⟨oldg, newg⟩ s₁ ⟨hpair, hso, hsn, hrw, h₁⟩
  simp only at hso hsn
  have hhas : oldg.hasParent = (above fs).isSome := by rw [hso.hasParent, Trie.entry_parent]
  have hdels : [parent, leaf, oldg].map TrieNode.hash = [p.label, k, g.label] := by
    have hg := hso.hash
    rw [Frame.label_fill] at hg
    simp [hp.hash, hleaf, hg]
  rw [← hdels] at hrw
  cases fs with
  | nil =>
    obtain ⟨s₂, hs₂, h₂⟩ := rootSet_ok hd h₁ newg.hash
    obtain ⟨s₃, hs₃, h₃⟩ := deleteAll_ok hd [parent, leaf, oldg] h₂
    simp only [show oldg.hasParent = false from hhas, Bool.not_false, if_true]
    refine Prog.Returns.bind_of_eq hs₂ (Prog.Returns.of_eq hs₃ ⟨⟨hpair, trivial⟩, hrw.placed_new, ?_⟩)
    rw [hsn.hash] at h₃
    exact h₃.congr fun x => content_of_replaces hrw.replaces x
  | cons f fs =>
    have hp' : perf = true := hperf.resolve_right (List.cons_ne_nil f fs)
    simp only [show oldg.hasParent = true from hhas, hp', Bool.not_true, Bool.false_eq_true,
      if_false, if_true]
    refine Prog.Returns.bind (eraseLoop_ok hash hd hs (f :: fs) hfuel h₁ hso hsn (fun x => rfl) hrw
      (hm hpair).2) ?_
    rintro ⟨newroot, oldnodes⟩ s₂ ⟨hroot, hreh, hrw', h₂⟩
    obtain ⟨s₃, hs₃, h₃⟩ := rootSet_ok hd h₂ newroot.hash
    obtain ⟨s₄, hs₄, h₄⟩ := deleteAll_ok hd oldnodes h₃
    refine Prog.Returns.bind_of_eq hs₃ (Prog.Returns.of_eq hs₄ ⟨⟨hpair, hreh⟩, hrw'.placed_new, ?_⟩)
    simp only at hroot
    rw [hroot] at h₄
    exact h₄.congr fun x => content_of_replaces hrw'.replaces x

theorem eraseUnderGrandparent_lazy (hd : d ≠ 4) (hs : Separated hash.pair (Hashes E) K)
    {f : Frame (Digest d)}
    (h : Holds s (content (leafMask d) none (plug (p :: g :: f :: fs) (.leaf k))) r size)
    (hleaf : leaf.hash = k)
    (hp : Shows parent p.label ((p.fill (.leaf k)).entry (leafMask d) (some g.label)))
    (ho : Ordered Digest.bit (leafMask d) (plug (p :: g :: f :: fs) (.leaf k)))
    (hpl : Placed Digest.bit (leafMask d) hash.pair (Hashes E) K
      (plug (p :: g :: f :: fs) (.leaf k)))
    (hm : Hashes E (g.children p.other.label).1 (g.children p.other.label).2 →
      (g.rehash hash.pair p.other).label ≠ g.label) :
    Prog.Returns E (eraseUnderGrandparent hash fuel leaf parent false) s fun _ s' =>
      Rewriting Digest.bit (leafMask d) hash.pair (Hashes E) K (f :: fs) (g.fill (p.fill (.leaf k)))
        (g.rehash hash.pair p.other) [p.label, k, g.label] ∧
      Holds s' (content (leafMask d) none (plug (f.dirtied :: fs) (g.rehash hash.pair p.other)))
        r size := by
  unfold eraseUnderGrandparent
  apply Prog.Returns.bind (eraseGrandparent_ok hash hd hs h hleaf hp ho hpl hm)
  rintro ⟨oldg, newg⟩ s₁ ⟨hpair, hso, hsn, hrw, h₁⟩
  simp only at hso hsn
  have hhas : oldg.hasParent = true := by rw [hso.hasParent, Trie.entry_parent]; rfl
  have hdels : [parent, leaf, oldg].map TrieNode.hash = [p.label, k, g.label] := by
    have hg := hso.hash
    rw [Frame.label_fill] at hg
    simp [hp.hash, hleaf, hg]
  obtain ⟨s₂, M₂, hs₂, h₂, hM₂⟩ := eraseLazy_ok hash hd hs h₁ hso hsn.hash (fun x => rfl) hrw
  obtain ⟨s₃, hs₃, h₃⟩ := deleteAll_ok hd [parent, leaf, oldg] h₂
  simp only [hhas, Bool.not_true, Bool.false_eq_true, if_false]
  refine Prog.Returns.bind_of_eq hs₂ (Prog.Returns.of_eq hs₃ ⟨hrw, h₃.congr fun x => ?_⟩)
  rw [hdels]
  exact hM₂ x

end Places

end SetSync
