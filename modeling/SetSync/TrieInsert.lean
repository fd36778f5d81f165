import SetSync.TrieStore
import SetSync.Lib.Rewrite

/-!
# Insertion, on the storage

`insert` goes down to the node in front of which the new key belongs (`insert_descends`), splits it
there (`insertSplit_ok`) and either moves all ancestors to their new keys (`insertLoop_ok`) or
leaves the parent dirty (`insertLazy_ok`).  Before the call the storage holds
`content (plug fs o)`; in the loop it holds the new subtrie laid over it; at the end the replaced
records are deleted and `content` of the new trie is left.
-/

namespace SetSync

open Program BitTrie TrieNode

variable {d : Nat} (hash : CryptoHash d) {A E : Digest d × Digest d → Prop} {K : Digest d → Prop}
  {s : TrieState d} {M : Entries d} {r : Option (Digest d)} {size : Nat}

/-- The pairs that may be hashed, as a relation. -/
abbrev Hashes (E : Digest d × Digest d → Prop) : Digest d → Digest d → Prop := fun x y => E (x, y)

/-- A pair hashed by a run in which only pairs of `A` are hashed is one of `E`. -/
abbrev Grants (A E : Digest d × Digest d → Prop) : Digest d → Digest d → Prop :=
  fun x y => A (x, y) → E (x, y)

theorem granted_self (fs : List (Frame (Digest d))) (t : Trie (Digest d)) :
    Rehashed hash.pair (Grants E E) fs t := rehashed_of_forall (fun _ _ h => h) fs t

/-! ## The parent of the replaced node -/

section Replace

variable {f : Frame (Digest d)} {o : Trie (Digest d)} {par : Option (Digest d)}
  {oldparent oldchild : TrieNode d} {e eo : Entry (Digest d)}

/-- What `setSmaller` or `setLarger` makes of the parent's entry. -/
def replacedEntry (f : Frame (Digest d)) (par : Option (Digest d)) (x : Digest d) :
    Entry (Digest d) :=
  ⟨par, some (f.children x), f.stem, f.len, true⟩

/-- The hash of the new parent; from here on its pair is known to be among the hashed ones. -/
theorem updateHash_returns {p : TrieNode d} {t : Trie (Digest d)}
    (hA : Grants A E (f.children t.label).1 (f.children t.label).2)
    (hp : Shows p f.label (replacedEntry f par t.label)) :
    Prog.Returns A (p.updateHash hash) s fun p' s' => s = s' ∧
      Hashes E (f.children t.label).1 (f.children t.label).2 ∧
      Shows p' (f.rehash hash.pair t).label ((f.rehash hash.pair t).entry (leafMask d) par) := by
  obtain ⟨p', hupd, hp'⟩ := hp.updateHash rfl hash s
  intro hx
  rw [hupd] at hx ⊢
  refine ⟨p', rfl, rfl, hA (hx _ List.mem_cons_self), ?_⟩
  rw [Frame.label_rehash, Frame.entry_rehash]
  exact hp'

theorem insertReplace_ok (newchild : TrieNode d) (h : Holds s M r size)
    (hp : Shows oldparent f.label ((f.fill o).entry (leafMask d) par))
    (hc : oldchild.hash = o.label) (hne : o.label ≠ f.other.label) (ho : M o.label = some eo)
    (hoth : M f.other.label = some e) :
    ∃ parent otherchild, insertReplace oldparent oldchild newchild s
        = ⟨.ok (parent, otherchild), s, []⟩ ∧
      Shows parent f.label (replacedEntry f par newchild.hash) ∧ Shows otherchild f.other.label e := by
  rw [f.entry_fill] at hp
  obtain ⟨no, hlo, hso⟩ := load_ok h ho
  obtain ⟨nt, hlt, hst⟩ := load_ok h hoth
  cases hl : f.large
  · -- the old child is the smaller one
    have hch : f.children o.label = (o.label, f.other.label) := by simp [Frame.children, hl]
    rw [hch] at hp
    obtain ⟨p', hset, hsp⟩ := hp.setSmaller rfl newchild s
    have heq : oldparent.isEqualToSmaller oldchild = true := by
      rw [hp.isEqualToSmaller rfl, hc]; simp
    refine ⟨p', nt, ?_, ?_, hst⟩
    · unfold insertReplace
      rw [hp.getLarger rfl, Prog.bind_of_ok hlt, heq, if_pos rfl, Prog.bind_of_ok hset]
      rfl
    · simpa [replacedEntry, Frame.children, hl] using hsp
  · have hch : f.children o.label = (f.other.label, o.label) := by simp [Frame.children, hl]
    rw [hch] at hp
    obtain ⟨p', hset, hsp⟩ := hp.setLarger rfl newchild s
    have hneq : oldparent.isEqualToSmaller oldchild = false := by
      rw [hp.isEqualToSmaller rfl, hc]; simpa using hne
    have heq : oldparent.isEqualToLarger oldchild = true := by
      rw [hp.isEqualToLarger rfl, hc]; simp
    refine ⟨p', nt, ?_, ?_, hst⟩
    · unfold insertReplace
      rw [hp.getLarger rfl, Prog.bind_of_ok hlo, hneq, heq, hp.getSmaller rfl]
      simp only [Bool.false_eq_true, if_false, if_true]
      rw [Prog.bind_of_ok hlt, Prog.bind_of_ok hset]
      rfl
    · simpa [replacedEntry, Frame.children, hl] using hsp

end Replace

/-! ## The loop up to the root -/

theorem insertLoop_ok (hd : d ≠ 4) (hs : Separated hash.pair (Hashes E) K)
    (fs : List (Frame (Digest d))) {o t : Trie (Digest d)} {oldchild child : TrieNode d}
    {roothash : Digest d} {dels : List (TrieNode d)} {fuel : Nat} (hfuel : fs.length < fuel)
    (h : Holds s M r size) (ho : Shows oldchild o.label (o.entry (leafMask d) (above fs)))
    (ht : Shows child t.label (t.entry (leafMask d) (above fs)))
    (hM : ∀ x, fs = [] ∨ x ≠ t.label →
      M x = overlay (leafMask d) (above fs) t (content (leafMask d) none (plug fs o)) x)
    (hw : Rewriting Digest.bit (leafMask d) hash.pair (Hashes E) K fs o t (dels.map TrieNode.hash))
    (hA : Rehashed hash.pair (Grants A E) fs t) (hm : Moves hash.pair (Hashes E) fs t)
    (hroot : fs = [] → roothash = t.label) :
    Prog.Returns A (insertLoop hash fuel oldchild child roothash dels) s fun res s' =>
      res.1 = (rebuild hash.pair fs t).label ∧ Rehashed hash.pair (Hashes E) fs t ∧
      Rewriting Digest.bit (leafMask d) hash.pair (Hashes E) K [] (plug fs o) (rebuild hash.pair fs t)
        (res.2.map TrieNode.hash) ∧
      Holds s' (overlay (leafMask d) none (rebuild hash.pair fs t)
        (content (leafMask d) none (plug fs o))) r size := by
  induction fs generalizing o t oldchild child roothash dels fuel s M with
  | nil =>
    obtain ⟨fuel, rfl⟩ : ∃ k, fuel = k + 1 := ⟨fuel - 1, by simp at hfuel; omega⟩
    have hpar : oldchild.hasParent = false := by rw [ho.hasParent, Trie.entry_parent]; rfl
    unfold insertLoop
    rw [hpar]
    exact Prog.Returns.pure ⟨hroot rfl, trivial, hw, h.congr fun x => hM x (Or.inl rfl)⟩
  | cons f fs ih =>
    obtain ⟨fuel, rfl⟩ : ∃ k, fuel = k + 1 := ⟨fuel - 1, by omega⟩
    have hno := hw.nodup_old hs
    have hpar : oldchild.hasParent = true := by rw [ho.hasParent, Trie.entry_parent]; rfl
    obtain ⟨hfM, hothM, ⟨eo, hoM⟩, hsib⟩ := hw.records hs fun x hx => hM x (Or.inr hx)
    obtain ⟨np, hlp, hsp⟩ := load_ok h hfM
    obtain ⟨p₁, oc, hrep, hsp₁, hsoc⟩ := insertReplace_ok child h hsp ho.hash hsib hoM hothM
    rw [ht.hash] at hsp₁
    unfold insertLoop
    rw [hpar, if_pos rfl, ho.getParent (Trie.entry_parent _ _)]
    refine Prog.Returns.bind_of_eq hlp (Prog.Returns.bind_of_eq hrep ?_)
    apply Prog.Returns.bind (updateHash_returns hash hA.1 hsp₁)
    rintro p₂ _ ⟨rfl, hpair, hsp₂⟩
    obtain ⟨hne₁, hne₂, hne₃⟩ := hw.labels_ne hs hpair
    have hsoc' := hsoc.setParent p₂
    have ht' := ht.setParent p₂
    rw [hsp₂.hash, Trie.entry_setParent] at hsoc' ht'
    obtain ⟨s₁, hs₁, h₁⟩ := toDb_ok hd h (oc.setParent p₂)
    obtain ⟨s₂, hs₂, h₂⟩ := toDb_ok hd h₁ (child.setParent p₂)
    obtain ⟨s₃, hs₃, h₃⟩ := toDb_ok hd h₂ p₂
    refine Prog.Returns.bind_of_eq hs₁ (Prog.Returns.bind_of_eq hs₂ (Prog.Returns.bind_of_eq hs₃ ?_))
    rw [hsoc'.hash, hsoc'.view] at h₁
    rw [hsoc'.hash, hsoc'.view, ht'.hash, ht'.view, hsp₂.hash, hsp₂.view] at h₃
    have hstep := hw.step hs hpair (hm hpair).1
    rw [← hsp.hash] at hstep
    refine Prog.Returns.mono (ih (o := f.fill o) (t := f.rehash hash.pair t)
      (by simp at hfuel; omega) h₃ ?_ hsp₂ ?_ ?_ hA.2 (hm hpair).2 ?_)
      fun res s' ⟨hres, hreh, hrw, hh⟩ => ⟨hres, ⟨hpair, hreh⟩, hrw, hh⟩
    · rw [Frame.label_fill]
      exact hsp
    · intro x _
      refine overlay_rehash hno (hstep.nodup_new hs) (fun x hx => hM x (Or.inr hx)) ?_ ?_ ?_ ?_ x
      · rw [Function.update_self]
      · rw [Function.update_of_ne hne₁.symm, Function.update_self]
      · rw [Function.update_of_ne hne₂.symm, Function.update_of_ne hne₃.symm, Function.update_self]
      · intro x hx₁ hx₂ hx₃
        rw [Function.update_of_ne hx₁, Function.update_of_ne hx₂, Function.update_of_ne hx₃]
    · rw [List.map_append]
      exact hstep
    · intro hfs
      subst hfs
      have hnp : p₂.hasParent = false := by rw [hsp₂.hasParent, Trie.entry_parent]; rfl
      simp only [hnp, Bool.not_false, if_true]
      exact hsp₂.hash

/-! ## Splitting a node -/

theorem commonPrefixLoop_ok {this other : TrieNode d} {c : Nat} (hc : c < 8 * d) (hc' : c < 256)
    (ha : Agree Digest.bit c this.nodePrefix other.nodePrefix)
    (hdiff : this.nodePrefix.bit c ≠ other.nodePrefix.bit c) (fuel i : Nat) (hi : i ≤ c)
    (hfuel : c < i + fuel) :
    commonPrefixLoop this other fuel (UInt8.ofNat i) (UInt8.ofNat i) s
      = ⟨.ok (UInt8.ofNat c), s, []⟩ := by
  induction fuel generalizing i with
  | zero => omega
  | succ fuel ih =>
    have hmod : i % 256 = i := Nat.mod_eq_of_lt (by omega)
    have hnat : (UInt8.ofNat i).toNat = i := by simp [hmod]
    unfold commonPrefixLoop
    rw [hnat, if_pos (by omega)]
    rcases Nat.lt_or_eq_of_le hi with hlt | rfl
    · have heq := ha i hlt
      have hsucc : UInt8.ofNat i + 1 = UInt8.ofNat (i + 1) := by
        apply UInt8.toNat_inj.mp
        simp
      rw [heq, bne_self_eq_false, if_neg (by decide), hsucc]
      exact ih (i + 1) hlt (by omega)
    · have hne : (this.nodePrefix.bit i != other.nodePrefix.bit i) = true := by simpa using hdiff
      rw [hne, if_pos rfl]
      rfl

theorem commonPrefixSize_ok {this other : TrieNode d} {c : Nat} (hc : c < 8 * d) (hc' : c < 256)
    (ha : Agree Digest.bit c this.nodePrefix other.nodePrefix)
    (hdiff : this.nodePrefix.bit c ≠ other.nodePrefix.bit c) :
    this.commonPrefixSize other s = ⟨.ok (UInt8.ofNat c), s, []⟩ :=
  commonPrefixLoop_ok hc hc' ha hdiff 257 0 (Nat.zero_le c) (by omega)

theorem insertIntermediate_ok (hd : d ≠ 4) (hs : Separated hash.pair (Hashes E) K)
    {fs : List (Frame (Digest d))} {o : Trie (Digest d)} {k : Digest d} {c : Nat}
    {this node : TrieNode d} (h : Holds s (content (leafMask d) none (plug fs o)) r size)
    (hthis : Shows this o.label (o.entry (leafMask d) (above fs)))
    (hnode : Shows node k ((Trie.leaf k).entry (leafMask d) none))
    (hat : SplitsAt Digest.bit (leafMask d) hash.pair (Hashes E) K fs o k c)
    (hA : Grants A E ((splitFrame Digest.bit c o k).children o.label).1
      ((splitFrame Digest.bit c o k).children o.label).2) :
    Prog.Returns A (insertIntermediate hash this node) s fun inter s' =>
      Hashes E ((splitFrame Digest.bit c o k).children o.label).1
        ((splitFrame Digest.bit c o k).children o.label).2 ∧
      Shows inter (split Digest.bit hash.pair c o k).label
        ((split Digest.bit hash.pair c o k).entry (leafMask d) (above fs)) ∧
      ∃ M, Holds s' M r size ∧ ∀ x, fs = [] ∨ x ≠ (split Digest.bit hash.pair c o k).label →
        M x = overlay (leafMask d) (above fs) (split Digest.bit hash.pair c o k)
          (content (leafMask d) none (plug fs o)) x := by
  have hcw : c < leafMask d := Nat.lt_of_lt_of_le hat.lt hat.fits.ordered.len_le
  have hc256 : c < 256 := by unfold leafMask at hcw; omega
  have hc8 : c < 8 * d := by unfold leafMask at hcw; omega
  have hstem := hthis.stem
  rw [Trie.entry_stem] at hstem
  have hkstem : node.nodePrefix = k := hnode.stem
  have hcommon : this.commonPrefixSize node s = ⟨.ok (UInt8.ofNat c), s, []⟩ := by
    apply commonPrefixSize_ok hc8 hc256
    · rw [hstem, hkstem]
      exact hat.agree
    · rw [hstem, hkstem]
      exact hat.differ
  set f := splitFrame Digest.bit c o k with hfdef
  set t := split Digest.bit hash.pair c o k with htdef
  have htr : t = f.rehash hash.pair o := split_eq_rehash c o k
  -- the intermediate node, before its hash is computed
  have hshort : Shows { this with prefixMask := UInt8.ofNat c } o.label
      { o.entry (leafMask d) (above fs) with len := c } := by
    refine ⟨hthis.hash, ?_⟩
    have hcm : (UInt8.ofNat c).toNat = c := by simp [Nat.mod_eq_of_lt hc256]
    rw [← hthis.view]
    simp only [TrieNode.view, hcm]
  have hmask : ({ this with prefixMask := UInt8.ofNat c } : TrieNode d).prefixMask.toNat = c :=
    hshort.len
  have hne8 : (c == 8 * d) = false := by simp; omega
  have hinter : ∃ i₁, (if ({ this with prefixMask := UInt8.ofNat c } : TrieNode d).isLarger node then
        pure (({ this with prefixMask := UInt8.ofNat c } : TrieNode d).setChildren this node)
      else if ({ this with prefixMask := UInt8.ofNat c } : TrieNode d).isSmaller node then
        pure (({ this with prefixMask := UInt8.ofNat c } : TrieNode d).setChildren node this)
      else throw (.dbTrieException "ERROR") : TrieM d (TrieNode d)) s = ⟨.ok i₁, s, []⟩ ∧
      Shows i₁ o.label ⟨above fs, some (f.children o.label), o.stem, c, true⟩ := by
    have hentry : { o.entry (leafMask d) (above fs) with len := c } =
        (⟨above fs, (o.entry (leafMask d) (above fs)).children, o.stem, c,
          (o.entry (leafMask d) (above fs)).stale⟩ : Entry (Digest d)) := by
      cases o <;> rfl
    rw [hentry] at hshort
    unfold TrieNode.isLarger TrieNode.isSmaller
    rw [hmask, hne8, hkstem]
    cases hb : k.bit c
    · have hset := hshort.setChildren node this
      have hch : f.children o.label = (k, o.label) := by
        rw [hfdef, splitFrame, Frame.children, hb]
        rfl
      refine ⟨_, rfl, hset.hash, hset.view.trans ?_⟩
      rw [hch, hthis.hash, hnode.hash]
    · have hset := hshort.setChildren this node
      have hch : f.children o.label = (o.label, k) := by
        rw [hfdef, splitFrame, Frame.children, hb]
        rfl
      refine ⟨_, rfl, hset.hash, hset.view.trans ?_⟩
      rw [hch, hthis.hash, hnode.hash]
  obtain ⟨i₁, hi₁, hsi₁⟩ := hinter
  obtain ⟨i₂, hi₂, hsi₂⟩ := hsi₁.updateHash rfl hash s
  unfold insertIntermediate
  refine Prog.Returns.bind_of_eq hcommon (Prog.Returns.bind_of_eq hi₁ ?_)
  refine Prog.Returns.bind (Q := fun i' s' => i₂ = i' ∧ s = s' ∧
    Hashes E (f.children o.label).1 (f.children o.label).2) ?_ ?_
  · intro hx
    rw [hi₂] at hx ⊢
    exact ⟨i₂, rfl, rfl, rfl, hA (hx _ List.mem_cons_self)⟩
  rintro _ _ ⟨rfl, rfl, hpair⟩
  have hsi : Shows i₂ t.label (t.entry (leafMask d) (above fs)) := by
    rw [htr, Frame.label_rehash, Frame.entry_rehash]
    exact hsi₂
  have hnew := hat.nodup_split hs hpair
  have hold := hat.nodup_old hs
  have hko : k ∉ o.labels := by
    have hn := hnew
    rw [split_eq_rehash, Frame.rehash, labels_fill_nodup] at hn
    exact fun hmem => hn.2.2.2 k hmem (by simp [splitFrame, Trie.labels])
  have hkne : k ≠ o.label := fun he => hko (he ▸ o.label_mem_labels)
  have hnode' := hnode.setParent i₂
  have hthis' := hthis.setParent i₂
  rw [hsi.hash, Trie.entry_setParent] at hnode' hthis'
  obtain ⟨s₁, hs₁, h₁⟩ := toDb_ok hd h (node.setParent i₂)
  obtain ⟨s₂, hs₂, h₂⟩ := toDb_ok hd h₁ (this.setParent i₂)
  refine Prog.Returns.bind_of_eq hs₁ (Prog.Returns.bind_of_eq hs₂ ?_)
  rw [hnode'.hash, hnode'.view, hthis'.hash, hthis'.view] at h₂
  have hrest : ∀ x, x ≠ t.label → Function.update (Function.update (content (leafMask d) none (plug fs o))
      k (some ((Trie.leaf k).entry (leafMask d) (some t.label)))) o.label
      (some (o.entry (leafMask d) (some t.label))) x
      = overlay (leafMask d) (above fs) t (content (leafMask d) none (plug fs o)) x := by
    intro x hx
    rw [htdef, overlay_split hold hnew, ← htdef, if_neg hx]
    by_cases hxo : x = o.label
    · rw [if_pos hxo, hxo, Function.update_self]
    rw [if_neg hxo, Function.update_of_ne hxo]
    by_cases hxk : x = k
    · rw [if_pos hxk, hxk, Function.update_self]
    · rw [if_neg hxk, Function.update_of_ne hxk]
  have hhas : i₂.hasParent = (above fs).isSome := by rw [hsi.hasParent, Trie.entry_parent]
  rw [hhas]
  cases fs with
  | nil =>
    -- a root: the intermediate node is written here
    obtain ⟨s₃, hs₃, h₃⟩ := toDb_ok hd h₂ i₂
    rw [hsi.hash, hsi.view] at h₃
    refine Prog.Returns.bind_of_eq hs₃ (Prog.Returns.pure ⟨hpair, hsi, _, h₃, fun x _ => ?_⟩)
    by_cases hx : x = t.label
    · rw [hx, Function.update_self, overlay_of_mem _ _ t.label_mem_labels, content_label]
    · rw [Function.update_of_ne hx]
      exact hrest x hx
  | cons g gs => exact Prog.Returns.pure ⟨hpair, hsi, _, h₂, fun x hx => hrest x (by simpa using hx)⟩

section Split

variable {fs : List (Frame (Digest d))} {o : Trie (Digest d)} {k : Digest d} {c : Nat}
  {this node : TrieNode d} {fuel : Nat}

/-- `performHash == true`: the new trie is stored, under the labels of `rebuild`. -/
theorem insertSplit_ok (hd : d ≠ 4) (hs : Separated hash.pair (Hashes E) K)
    (hfuel : fs.length < fuel) (h : Holds s (content (leafMask d) none (plug fs o)) r size)
    (hthis : Shows this o.label (o.entry (leafMask d) (above fs)))
    (hnode : Shows node k ((Trie.leaf k).entry (leafMask d) none))
    (hat : SplitsAt Digest.bit (leafMask d) hash.pair (Hashes E) K fs o k c)
    (hA₀ : Grants A E ((splitFrame Digest.bit c o k).children o.label).1
      ((splitFrame Digest.bit c o k).children o.label).2)
    (hA : Rehashed hash.pair (Grants A E) fs (split Digest.bit hash.pair c o k))
    (hm : Hashes E ((splitFrame Digest.bit c o k).children o.label).1
        ((splitFrame Digest.bit c o k).children o.label).2 →
      Moves hash.pair (Hashes E) fs (split Digest.bit hash.pair c o k)) :
    Prog.Returns A (insertSplit hash fuel this node true) s fun _ s' =>
      Hashes E ((splitFrame Digest.bit c o k).children o.label).1
        ((splitFrame Digest.bit c o k).children o.label).2 ∧
      Rehashed hash.pair (Hashes E) fs (split Digest.bit hash.pair c o k) ∧
      Placed Digest.bit (leafMask d) hash.pair (Hashes E) K
        (rebuild hash.pair fs (split Digest.bit hash.pair c o k)) ∧
      Holds s' (content (leafMask d) none (rebuild hash.pair fs (split Digest.bit hash.pair c o k)))
        (some (rebuild hash.pair fs (split Digest.bit hash.pair c o k)).label) size := by
  unfold insertSplit
  apply Prog.Returns.bind (insertIntermediate_ok hash hd hs h hthis hnode hat hA₀)
  rintro inter s₁ ⟨hpair, hinter, M, h₁, hM⟩
  rw [if_pos rfl]
  refine Prog.Returns.bind (insertLoop_ok hash hd hs fs hfuel h₁ hthis hinter hM
    (hat.rewriting hs hpair) hA (hm hpair) fun _ => hinter.hash) ?_
  rintro ⟨roothash, toBeDeleted⟩ s₂ ⟨hroot, hreh, hrw, h₂⟩
  obtain ⟨s₃, hs₃, h₃⟩ := rootSet_ok hd h₂ roothash
  obtain ⟨s₄, hs₄, h₄⟩ := deleteAll_ok hd toBeDeleted h₃
  refine Prog.Returns.bind_of_eq hs₃ (Prog.Returns.of_eq hs₄ ⟨hpair, hreh, hrw.placed_new, ?_⟩)
  simp only at hroot
  rw [hroot] at h₄
  exact h₄.congr fun x => content_of_replaces hrw.replaces x

theorem insertLazy_ok (hd : d ≠ 4) (hs : Separated hash.pair (Hashes E) K)
    {f : Frame (Digest d)} {t : Trie (Digest d)} {inter : TrieNode d} (h : Holds s M r size)
    (hthis : this.hash = o.label)
    (hinter : Shows inter t.label (t.entry (leafMask d) (some f.label)))
    (hM : ∀ x, x ≠ t.label → M x = overlay (leafMask d) (some f.label) t
      (content (leafMask d) none (plug (f :: fs) o)) x)
    (hw : Rewriting Digest.bit (leafMask d) hash.pair (Hashes E) K (f :: fs) o t []) :
    ∃ s', insertLazy this inter s = ⟨.ok (), s', []⟩ ∧
      Holds s' (content (leafMask d) none (plug (f.dirtied :: fs) t)) r size := by
  obtain ⟨hfM, hothM, _, hsib⟩ := hw.records hs hM
  obtain ⟨np, hlp, hsp⟩ := load_ok h hfM
  -- the dirty bit is set before the child is replaced
  have hsp' : Shows { np with dirty := true } f.label
      ((f.dirtied.fill o).entry (leafMask d) (above fs)) := by
    refine ⟨hsp.hash, ?_⟩
    rw [Frame.entry_fill] at hsp ⊢
    have hv := hsp.view
    simp only [TrieNode.view, Entry.mk.injEq] at hv ⊢
    exact ⟨hv.1, hv.2.1, hv.2.2.1, hv.2.2.2.1, rfl⟩
  have hne : f.label ≠ t.label := fun he => hw.above_not_mem hs (he ▸ t.label_mem_labels)
  -- either way the parent gets the new child and is written, and then the new node is
  suffices hpar : ∃ p', Shows p' f.label ((f.dirtied.fill t).entry (leafMask d) (above fs)) ∧
      ∀ s₁, p'.toDb s = ⟨.ok (), s₁, []⟩ →
        insertLazy this inter s = (inter.toDb s₁).after [] by
    obtain ⟨p', hp', hrun⟩ := hpar
    obtain ⟨s₁, hs₁, h₁⟩ := toDb_ok hd h p'
    obtain ⟨s₂, hs₂, h₂⟩ := toDb_ok hd h₁ inter
    refine ⟨s₂, ?_, h₂.congr fun x => ?_⟩
    · rw [hrun s₁ hs₁, hs₂]
      rfl
    · rw [hinter.hash, hinter.view, hp'.hash, hp'.view]
      refine Eq.trans ?_ (hw.content_dirtied hs (M := Function.update (Function.update M f.label
        (some ((f.dirtied.fill t).entry (leafMask d) (above fs)))) t.label
        (some (t.entry (leafMask d) (some f.label)))) ?_ ?_ x)
      · simp
      · intro x hx
        by_cases hxt : x = t.label
        · rw [hxt, Function.update_self, overlay_of_mem _ _ t.label_mem_labels, content_label]
        · rw [Function.update_of_ne hxt, Function.update_of_ne hx, hM x hxt]
      · rw [Function.update_of_ne hne, Function.update_self]
  have hhas : inter.hasParent = true := by rw [hinter.hasParent, Trie.entry_parent]; rfl
  rw [Frame.entry_fill] at hsp' ⊢
  unfold insertLazy
  rw [hhas, if_pos rfl, hinter.getParent (Trie.entry_parent _ _)]
  cases hl : f.large
  · have hch : ∀ x, f.dirtied.children x = (x, f.other.label) := fun x => by
      simp [Frame.dirtied, Frame.children, hl]
    rw [hch] at hsp' ⊢
    obtain ⟨p', hset, hp'⟩ := hsp'.setSmaller rfl inter s
    rw [hinter.hash] at hp'
    have heq : ({ np with dirty := true } : TrieNode d).isEqualToSmaller this = true := by
      rw [hsp'.isEqualToSmaller rfl, hthis]; simp
    refine ⟨p', hp', fun s₁ hs₁ => Prog.bind_of_ok (a := ()) ?_ _⟩
    rw [Prog.bind_of_ok hlp]
    simp only [heq, if_true]
    rw [Prog.bind_of_ok hset, hs₁]
    rfl
  · have hch : ∀ x, f.dirtied.children x = (f.other.label, x) := fun x => by
      simp [Frame.dirtied, Frame.children, hl]
    rw [hch] at hsp' ⊢
    obtain ⟨p', hset, hp'⟩ := hsp'.setLarger rfl inter s
    rw [hinter.hash] at hp'
    have hneq : ({ np with dirty := true } : TrieNode d).isEqualToSmaller this = false := by
      rw [hsp'.isEqualToSmaller rfl, hthis]; simpa using hsib
    have heq : ({ np with dirty := true } : TrieNode d).isEqualToLarger this = true := by
      rw [hsp'.isEqualToLarger rfl, hthis]; simp
    refine ⟨p', hp', fun s₁ hs₁ => Prog.bind_of_ok (a := ()) ?_ _⟩
    rw [Prog.bind_of_ok hlp]
    simp only [hneq, heq, Bool.false_eq_true, if_false, if_true]
    rw [Prog.bind_of_ok hset, hs₁]
    rfl

/-- `performHash == false`: only the parent is touched. -/
theorem insertSplit_lazy (hd : d ≠ 4) (hs : Separated hash.pair (Hashes E) K)
    (h : Holds s (content (leafMask d) none (plug fs o)) (some (plug fs o).label) size)
    (hthis : Shows this o.label (o.entry (leafMask d) (above fs)))
    (hnode : Shows node k ((Trie.leaf k).entry (leafMask d) none))
    (hat : SplitsAt Digest.bit (leafMask d) hash.pair (Hashes E) K fs o k c)
    (hA₀ : Grants A E ((splitFrame Digest.bit c o k).children o.label).1
      ((splitFrame Digest.bit c o k).children o.label).2) :
    Prog.Returns A (insertSplit hash fuel this node false) s fun _ s' =>
      Rewriting Digest.bit (leafMask d) hash.pair (Hashes E) K fs o
        (split Digest.bit hash.pair c o k) [] ∧
      Holds s' (content (leafMask d) none (plug (dirtyAbove fs) (split Digest.bit hash.pair c o k)))
        (some (plug (dirtyAbove fs) (split Digest.bit hash.pair c o k)).label) size := by
  unfold insertSplit
  apply Prog.Returns.bind (insertIntermediate_ok hash hd hs h hthis hnode hat hA₀)
  rintro inter s₁ ⟨hpair, hinter, M, h₁, hM⟩
  have hrw := hat.rewriting hs hpair
  simp only [Bool.false_eq_true, if_false]
  cases fs with
  | nil =>
    have hhas : inter.hasParent = false := by rw [hinter.hasParent, Trie.entry_parent]; rfl
    obtain ⟨s₂, hs₂, h₂⟩ := rootSet_ok hd h₁ inter.hash
    obtain ⟨s₃, hs₃, h₃⟩ := toDb_ok hd h₂ inter
    have hrun : insertLazy this inter s₁ = ⟨.ok (), s₃, []⟩ := by
      unfold insertLazy
      rw [hhas, if_neg Bool.false_ne_true, Prog.bind_of_ok hs₂, hs₃]
      rfl
    refine Prog.Returns.of_eq hrun ⟨hrw, ?_⟩
    rw [hinter.view, hinter.hash] at h₃
    refine h₃.congr fun x => Eq.trans ?_ (content_of_replaces hrw.replaces x)
    by_cases hx : x = (split Digest.bit hash.pair c o k).label
    · rw [hx, Function.update_self, if_neg List.not_mem_nil,
        overlay_of_mem _ _ (Trie.label_mem_labels _), content_label]
      rfl
    · rw [Function.update_of_ne hx, hM x (Or.inl rfl), if_neg List.not_mem_nil]
      rfl
  | cons f fs =>
    obtain ⟨s₂, hs₂, h₂⟩ := insertLazy_ok hash hd hs h₁ hthis.hash hinter
      (fun x hx => hM x (Or.inr hx)) hrw
    refine Prog.Returns.of_eq hs₂ ⟨hrw, ?_⟩
    rw [show (plug (dirtyAbove (f :: fs)) (split Digest.bit hash.pair c o k)).label
      = (plug (f :: fs) o).label from label_plug_cons f.dirtied f fs _ _ rfl]
    exact h₂

end Split

/-! ## The descent -/

theorem similar_iff (this node : TrieNode d) :
    this.similar node = true ↔
      Agree Digest.bit this.prefixMask.toNat this.nodePrefix node.nodePrefix := by
  simp [TrieNode.similar, Agree]

/-- What `insert` answers on a leaf whose bits are those of the key. -/
def onDuplicate (s : TrieState d) : Run (TrieState d) (Digest d × Digest d) Exn Bool :=
  if 8 * d < 256 then ⟨.ok false, s, []⟩
  else ⟨.error (.dbTrieException "THERE ARE NO CHILDREN"), s, []⟩

section Descent

variable {k : Digest d} {node : TrieNode d} {fuel : Nat} {perf : Bool}

theorem insert_on_leaf {k' : Digest d} {par : Option (Digest d)} {this : TrieNode d} {depth : Nat}
    (hthis : Shows this k' ((Trie.leaf k').entry (leafMask d) par)) (hnode : node.nodePrefix = k)
    (ha : Agree Digest.bit (leafMask d) k' k) :
    insert hash fuel (depth + 1) this node perf s = onDuplicate s := by
  have hmask : this.prefixMask.toNat = leafMask d := hthis.len
  have hsim : this.similar node = true := by
    rw [similar_iff, hmask, hthis.stem, hnode]
    exact ha
  have hch : this.hasChildren = false := hthis.hasChildren
  unfold TrieNode.insert
  rw [hsim, if_pos rfl]
  unfold TrieNode.isLarger TrieNode.isSmaller onDuplicate
  rw [hmask, hnode]
  by_cases hw : 8 * d < 256
  · have heq : (leafMask d == 8 * d) = true := by simp [leafMask, Nat.mod_eq_of_lt hw]
    simp only [heq, if_pos, hw]
    rfl
  · -- the mask has lost its high bits, so the leaf takes itself for an inner node
    have hlt : leafMask d < 256 := Nat.mod_lt _ (by omega)
    have heq : (leafMask d == 8 * d) = false := by
      rw [beq_eq_false_iff_ne]
      omega
    rw [heq, if_neg hw]
    cases k.bit (leafMask d)
    · simp [TrieNode.getSmaller, hch, Prog.bind_apply]
    · simp [TrieNode.getLarger, hch, Prog.bind_apply]

/-- `insert` walks to a place where the key is, or in front of which it belongs. -/
theorem insert_descends (fuel : Nat) (perf : Bool) (t : Trie (Digest d))
    (fs : List (Frame (Digest d))) {this : TrieNode d} {depth : Nat}
    (h : Holds s (content (leafMask d) none (plug fs t)) r size)
    (hn : (plug fs t).labels.Nodup) (ho : Ordered Digest.bit (leafMask d) (plug fs t))
    (hthis : Shows this t.label (t.entry (leafMask d) (above fs))) (hnode : node.nodePrefix = k)
    (hlead : Leads Digest.bit fs k) (hdepth : leafMask d - t.len (leafMask d) < depth) :
    ∃ gs u this', plug gs u = plug fs t ∧ Shows this' u.label (u.entry (leafMask d) (above gs)) ∧
      Leads Digest.bit gs k ∧
      ((∃ k', u = .leaf k' ∧ Agree Digest.bit (leafMask d) k' k ∧
          insert hash fuel depth this node perf s = onDuplicate s) ∨
        ∃ c, c < u.len (leafMask d) ∧ Agree Digest.bit c u.stem k ∧ u.stem.bit c ≠ k.bit c ∧
          insert hash fuel depth this node perf s
            = (insertSplit hash fuel this' node perf >>= fun _ => pure true) s) := by
  induction t generalizing fs this depth with
  | leaf k' =>
    obtain ⟨depth, rfl⟩ : ∃ n, depth = n + 1 := ⟨depth - 1, by omega⟩
    refine ⟨fs, .leaf k', this, rfl, hthis, hlead, ?_⟩
    by_cases ha : Agree Digest.bit (leafMask d) k' k
    · exact Or.inl ⟨k', rfl, ha, insert_on_leaf hash hthis hnode ha⟩
    · obtain ⟨c, hc, hac, hdc⟩ := exists_first_diff ha
      have hsim : this.similar node = false := by
        rw [← Bool.not_eq_true, similar_iff, hthis.len, hthis.stem, hnode]
        exact ha
      refine Or.inr ⟨c, hc, hac, hdc, ?_⟩
      unfold TrieNode.insert
      rw [hsim]
      rfl
  | node lab p m st l g ihl ihr =>
    obtain ⟨depth, rfl⟩ : ∃ n, depth = n + 1 := ⟨depth - 1, by omega⟩
    have hfit := ((ordered_plug fs _).mp ho).2.ordered
    have hm : m < leafMask d := by have := hfit.1; have := hfit.2.2.2.2.1.len_le; omega
    have hm8 : (m == 8 * d) = false := by
      rw [beq_eq_false_iff_ne]
      unfold leafMask at hm
      omega
    have hmask : this.prefixMask.toNat = m := hthis.len
    by_cases ha : Agree Digest.bit m p k
    · have hsim : this.similar node = true := by
        rw [similar_iff, hmask, hthis.stem, hnode]
        exact ha
      cases hb : k.bit m
      · -- on to the smaller child
        have hlarger : this.isLarger node = false := by
          unfold TrieNode.isLarger
          rw [hmask, hm8, hnode, hb]
          rfl
        have hsmaller : this.isSmaller node = true := by
          unfold TrieNode.isSmaller
          rw [hmask, hm8, hnode, hb]
          rfl
        obtain ⟨n, hl, hsn⟩ := load_ok h (content_plug_label (⟨lab, p, m, st, false, g⟩ :: fs) l hn)
        obtain ⟨gs, u, this', hgu, hsu, hlu, hres⟩ := ihl (⟨lab, p, m, st, false, g⟩ :: fs)
          h hn ho hsn (fun f hf => (List.mem_cons.mp hf).elim (fun he => he ▸ ⟨ha, hb⟩) (hlead f))
          (show leafMask d - l.len (leafMask d) < depth by
            have := hfit.1
            simp only [Trie.len] at hdepth
            omega)
        refine ⟨gs, u, this', hgu, hsu, hlu, ?_⟩
        unfold TrieNode.insert
        rw [hsim, hlarger, hsmaller, hthis.getSmaller rfl]
        simp only [Bool.false_eq_true, if_false, if_true]
        rw [Prog.bind_of_ok hl]
        exact hres
      · have hlarger : this.isLarger node = true := by
          unfold TrieNode.isLarger
          rw [hmask, hm8, hnode, hb]
          rfl
        obtain ⟨n, hl, hsn⟩ := load_ok h (content_plug_label (⟨lab, p, m, st, true, l⟩ :: fs) g hn)
        obtain ⟨gs, u, this', hgu, hsu, hlu, hres⟩ := ihr (⟨lab, p, m, st, true, l⟩ :: fs)
          h hn ho hsn (fun f hf => (List.mem_cons.mp hf).elim (fun he => he ▸ ⟨ha, hb⟩) (hlead f))
          (show leafMask d - g.len (leafMask d) < depth by
            have := hfit.2.1
            simp only [Trie.len] at hdepth
            omega)
        refine ⟨gs, u, this', hgu, hsu, hlu, ?_⟩
        unfold TrieNode.insert
        rw [hsim, hlarger, hthis.getLarger rfl]
        simp only [if_true]
        rw [Prog.bind_of_ok hl]
        exact hres
    · obtain ⟨c, hc, hac, hdc⟩ := exists_first_diff ha
      have hsim : this.similar node = false := by
        rw [← Bool.not_eq_true, similar_iff, hmask, hthis.stem, hnode]
        exact ha
      refine ⟨fs, _, this, rfl, hthis, hlead, Or.inr ⟨c, hc, hac, hdc, ?_⟩⟩
      unfold TrieNode.insert
      rw [hsim]
      rfl

end Descent

end SetSync
