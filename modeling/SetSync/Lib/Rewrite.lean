import SetSync.Lib.Merkle

/-!
# Rewriting a path up to the root

A subtrie `o` is replaced by `t`, and then every node above it gets the hash of its new children:
`rebuild H fs t` for `plug fs o`.  The store is rewritten from the inside out and the old records
are deleted at the end, so each new label must differ from the label it replaces (`Moves`), and the
pairs hashed on the way must be among the ones without collisions (`Rehashed`).

    one frame     overlay t over the old records → overlay (f.rehash H t)          (overlay_rehash)
    whole path    Rehashed P H fs t → Placed (rebuild H fs t), Hashed (rebuild H fs t)
    fresh keys    t and o differ on a key → Moves P H fs t                         (moves_of_keys)

`Rewriting` is the invariant of the walk up, `Rewriting.step` one node of it.  `moves_of_keys` needs
labels that are up to date (`Hashed`); with stale labels `Moves` is an assumption.
-/

namespace BitTrie

variable {κ : Type} {bit : κ → Nat → Bool} {w : Nat} {H : κ → κ → κ} {P : κ → κ → Prop}
  {K : κ → Prop}

/-! ## Entries of a frame -/

theorem Frame.entry_fill (f : Frame κ) (t : Trie κ) (par : Option κ) :
    (f.fill t).entry w par = ⟨par, some (f.children t.label), f.stem, f.len, f.stale⟩ := by
  unfold Frame.fill Frame.children
  split <;> rfl

@[simp] theorem Frame.label_rehash (f : Frame κ) (t : Trie κ) :
    (f.rehash H t).label = H (f.children t.label).1 (f.children t.label).2 := by
  unfold Frame.rehash
  rw [Frame.label_fill]
  rfl

theorem Frame.entry_rehash (f : Frame κ) (t : Trie κ) (par : Option κ) :
    (f.rehash H t).entry w par = ⟨par, some (f.children t.label), f.stem, f.len, false⟩ := by
  unfold Frame.rehash
  rw [Frame.entry_fill]
  rfl

theorem Frame.mem_keys_rehash (f : Frame κ) (t : Trie κ) (k : κ) :
    k ∈ (f.rehash H t).keys ↔ k ∈ t.keys ∨ k ∈ f.other.keys := by
  unfold Frame.rehash
  rw [Frame.mem_keys_fill, Frame.relabel_other]

theorem Trie.entry_parent (t : Trie κ) (par : Option κ) : (t.entry w par).parent = par := by
  cases t <;> rfl

theorem Trie.entry_setParent (t : Trie κ) (par par' : Option κ) :
    { t.entry w par with parent := par' } = t.entry w par' := by
  cases t <;> rfl

theorem Trie.entry_stem (t : Trie κ) (par : Option κ) : (t.entry w par).stem = t.stem := by
  cases t <;> rfl

/-! ## One frame -/

/-- The hash of the children of an ordered node sits where the node does. -/
theorem sits_children {f : Frame κ} {t : Trie κ} (ho : Ordered bit w (f.fill t))
    (ht : Placed bit w H P K t) (hf : Placed bit w H P K f.other)
    (hp : P (f.children t.label).1 (f.children t.label).2) :
    Sits bit w H P K (H (f.children t.label).1 (f.children t.label).2) f.len f.stem := by
  obtain ⟨hl, hr, hks, hos, hot, hoo⟩ := (Frame.ordered_fill f t).mp ho
  obtain ⟨a, ha⟩ := t.exists_mem_keys
  obtain ⟨b, hb⟩ := f.other.exists_mem_keys
  -- both stems agree with the node's before its bit and with their side's at it
  have hta : Agree bit (f.len + 1) t.stem a := (hot.agree_stem a ha).mono (by omega)
  have hob : Agree bit (f.len + 1) f.other.stem b := (hoo.agree_stem b hb).mono (by omega)
  have hst : Agree bit f.len f.stem t.stem := (hks a ha).1.trans (hta.mono (by omega)).symm
  have hso : Agree bit f.len f.stem f.other.stem := (hos b hb).1.trans (hob.mono (by omega)).symm
  have hbt : bit t.stem f.len = f.large := by rw [hta _ (by omega), (hks a ha).2]
  have hbo : bit f.other.stem f.len = !f.large := by rw [hob _ (by omega), (hos b hb).2]
  unfold Frame.children at hp ⊢
  cases hfl : f.large
  · rw [hfl] at hp hbt hbo
    refine .pair hp ht.sits hf.sits hl hr (hst.symm.trans hso) ?_ hst
    rw [hbt, hbo]
    decide
  · rw [hfl] at hp hbt hbo
    refine .pair hp hf.sits ht.sits hr hl (hso.symm.trans hst) ?_ hso
    rw [hbt, hbo]
    decide

theorem placed_rehash {f : Frame κ} {t : Trie κ} (ho : Ordered bit w (f.fill t))
    (ht : Placed bit w H P K t) (hf : Placed bit w H P K f.other)
    (hp : P (f.children t.label).1 (f.children t.label).2) : Placed bit w H P K (f.rehash H t) := by
  unfold Frame.rehash
  rw [placed_fill]
  exact ⟨sits_children ho ht hf hp, ht, hf⟩

theorem Placed.other_of_plug {f : Frame κ} {fs : List (Frame κ)} {o : Trie κ}
    (h : Placed bit w H P K (plug (f :: fs) o)) :
    Sits bit w H P K f.label f.len f.stem ∧ Placed bit w H P K o ∧ Placed bit w H P K f.other :=
  (placed_fill f o).mp (Placed.of_plug (show Placed bit w H P K (plug fs (f.fill o)) from h))

/-- The new leaf `k` next to `o`, as a frame around `o`. -/
def splitFrame (bit : κ → Nat → Bool) (c : Nat) (o : Trie κ) (k : κ) : Frame κ :=
  ⟨o.label, o.stem, c, false, !bit k c, .leaf k⟩

theorem split_eq_rehash (c : Nat) (o : Trie κ) (k : κ) :
    split bit H c o k = (splitFrame bit c o k).rehash H o := by
  unfold split splitFrame Frame.rehash Frame.relabel Frame.fill Frame.children
  cases bit k c <;> rfl

section Overlay

variable [DecidableEq κ]

/-- One frame up: after the new frame, its child in the hole and its other child are written, `M'`
holds the new records of the frame. -/
theorem overlay_rehash {f : Frame κ} {fs : List (Frame κ)} {o t : Trie κ}
    (hno : (plug (f :: fs) o).labels.Nodup) (hn : (f.rehash H t).labels.Nodup)
    {M M' : κ → Option (Entry κ)}
    (hM : ∀ x, x ≠ t.label → M x = overlay w (some f.label) t (content w none (plug (f :: fs) o)) x)
    (hf : M' (f.rehash H t).label = some ((f.rehash H t).entry w (above fs)))
    (ht : M' t.label = some (t.entry w (some (f.rehash H t).label)))
    (hoth : M' f.other.label = some (f.other.entry w (some (f.rehash H t).label)))
    (hrest : ∀ x, x ≠ (f.rehash H t).label → x ≠ t.label → x ≠ f.other.label → M' x = M x) (x : κ) :
    M' x = overlay w (above fs) (f.rehash H t) (content w none (plug (f :: fs) o)) x := by
  rw [Frame.rehash, Frame.label_fill] at hf ht hoth hrest
  unfold Frame.rehash
  rw [overlay_fill (Frame.relabel_other H f t.label) hno hn]
  by_cases h1 : x = (f.relabel H t.label).label
  · rw [if_pos h1, h1, hf]
  rw [if_neg h1]
  by_cases h2 : x = t.label
  · rw [if_pos h2, h2, ht]
  rw [if_neg h2]
  by_cases h3 : x = f.other.label
  · rw [if_pos h3, h3, hoth]
  rw [if_neg h3, hrest x h1 h2 h3, hM x h2]

/-- The records once `o` has been split in front of a new leaf. -/
theorem overlay_split {fs : List (Frame κ)} {o : Trie κ} {c : Nat} {k : κ}
    (hno : (plug fs o).labels.Nodup) (hn : (split bit H c o k).labels.Nodup) (x : κ) :
    overlay w (above fs) (split bit H c o k) (content w none (plug fs o)) x =
      if x = (split bit H c o k).label then some ((split bit H c o k).entry w (above fs))
      else if x = o.label then some (o.entry w (some (split bit H c o k).label))
      else if x = k then some ((Trie.leaf k).entry w (some (split bit H c o k).label))
      else content w none (plug fs o) x := by
  rw [split_eq_rehash] at hn ⊢
  generalize hf : splitFrame bit c o k = f at hn ⊢
  have hoth : f.other = .leaf k := by rw [← hf]; rfl
  obtain ⟨⟨h1, h2⟩, h3, h4, h5⟩ := (labels_fill_nodup _ o).mp hn
  unfold Frame.rehash
  rw [Frame.label_fill] at *
  unfold overlay
  rw [content_fill _ _ _ hn, Frame.relabel_other, hoth]
  rw [Frame.relabel_other, hoth] at h5
  by_cases hx1 : x = (f.relabel H o.label).label
  · rw [if_pos hx1, if_pos hx1, Option.some_or]
  rw [if_neg hx1, if_neg hx1]
  by_cases hx2 : x = o.label
  · subst hx2
    rw [if_pos rfl, content_label, Option.some_or, Option.some_or]
  rw [if_neg hx2]
  by_cases hxo : x ∈ o.labels
  · -- below `o` nothing changes
    have hxk : x ≠ k := fun he => h5 x hxo (by rw [he]; simp [Trie.labels])
    obtain ⟨e, he⟩ := content_of_mem (w := w) (some (f.relabel H o.label).label) hxo
    rw [if_neg hxk, content_plug fs o hno hxo, content_of_ne _ (above fs) o hx2] at *
    rw [he]
    simp
  · rw [(content_eq_none_iff _ o x).mpr hxo, Option.none_or]
    by_cases hxk : x = k
    · rw [if_pos hxk, hxk]
      simp [content]
    · rw [if_neg hxk]
      simp [content, hxk]

end Overlay

/-! ## The whole path -/

variable (P H)

/-- Each node of the path gets a label it did not have, as far as the pairs hashed are in `P`. -/
def Moves : List (Frame κ) → Trie κ → Prop
  | [], _ => True
  | f :: fs, t => P (f.children t.label).1 (f.children t.label).2 →
      (f.rehash H t).label ≠ f.label ∧ Moves fs (f.rehash H t)

/-- The pairs hashed for the path are in `P`. -/
def Rehashed : List (Frame κ) → Trie κ → Prop
  | [], _ => True
  | f :: fs, t => P (f.children t.label).1 (f.children t.label).2 ∧ Rehashed fs (f.rehash H t)

variable {P H}

theorem rehashed_of_forall (h : ∀ x y, P x y) (fs : List (Frame κ)) (t : Trie κ) :
    Rehashed H P fs t := by
  induction fs generalizing t with
  | nil => trivial
  | cons f fs ih => exact ⟨h _ _, ih _⟩

theorem Hashed.of_rebuild {fs : List (Frame κ)} {t : Trie κ} (h : Hashed H P K (rebuild H fs t)) :
    Hashed H P K t := by
  induction fs generalizing t with
  | nil => exact h
  | cons f fs ih => exact ((hashed_rehash f t).mp (ih h)).2.1

theorem Hashed.rehashed {fs : List (Frame κ)} {t : Trie κ} (h : Hashed H P K (rebuild H fs t)) :
    Rehashed H P fs t := by
  induction fs generalizing t with
  | nil => trivial
  | cons f fs ih =>
    have hr : Hashed H P K (f.rehash H t) := Hashed.of_rebuild h
    exact ⟨((hashed_rehash f t).mp hr).1, ih h⟩

theorem Rehashed.mono {P' : κ → κ → Prop} (hP : ∀ x y, P x y → P' x y) {fs : List (Frame κ)}
    {t : Trie κ} (h : Rehashed H P fs t) : Rehashed H P' fs t := by
  induction fs generalizing t with
  | nil => trivial
  | cons f fs ih => exact ⟨hP _ _ h.1, ih h.2⟩

theorem Rehashed.placed {fs : List (Frame κ)} {o t : Trie κ} (h : Rehashed H P fs t)
    (hf : Framed bit w fs) (ht : Fits bit w fs t) (hpo : Placed bit w H P K (plug fs o))
    (hp : Placed bit w H P K t) : Placed bit w H P K (rebuild H fs t) := by
  induction fs generalizing o t with
  | nil => exact hp
  | cons f fs ih =>
    have hr := placed_rehash (ht.fill hf).ordered hp hpo.other_of_plug.2.2 h.1
    exact ih h.2 hf.tail (ht.rehash H hf) (o := f.fill o) hpo hr

theorem Rehashed.hashed {fs : List (Frame κ)} {o t : Trie κ} (h : Rehashed H P fs t)
    (hpo : Hashed H P K (plug fs o)) (hp : Hashed H P K t) : Hashed H P K (rebuild H fs t) := by
  induction fs generalizing o t with
  | nil => exact hp
  | cons f fs ih =>
    have hfo := Hashed.of_plug (show Hashed H P K (plug fs (f.fill o)) from hpo)
    have hr : Hashed H P K (f.rehash H t) :=
      (hashed_rehash f t).mpr ⟨h.1, hp, ((hashed_fill f o).mp hfo).2.2.2.2⟩
    exact ih h.2 (o := f.fill o) hpo hr

/-- Up-to-date labels move when a key comes or goes. -/
theorem moves_of_keys (hs : Separated H P K) {fs : List (Frame κ)} {o t : Trie κ} {k : κ}
    (hpo : Hashed H P K (plug fs o)) (hp : Hashed H P K t) (hk : ¬(k ∈ t.keys ↔ k ∈ o.keys))
    (hfs : ∀ f ∈ fs, k ∉ f.other.keys) : Moves H P fs t := by
  induction fs generalizing o t with
  | nil => trivial
  | cons f fs ih =>
    intro hpair
    have hfo := Hashed.of_plug (show Hashed H P K (plug fs (f.fill o)) from hpo)
    have hr : Hashed H P K (f.rehash H t) :=
      (hashed_rehash f t).mpr ⟨hpair, hp, ((hashed_fill f o).mp hfo).2.2.2.2⟩
    have hkf := hfs f List.mem_cons_self
    have hk' : ¬(k ∈ (f.rehash H t).keys ↔ k ∈ (f.fill o).keys) := by
      rw [Frame.mem_keys_rehash, Frame.mem_keys_fill]
      tauto
    refine ⟨fun hlab => hk' ?_, ih (o := f.fill o) hpo hr hk' fun g hg =>
      hfs g (List.mem_cons_of_mem _ hg)⟩
    rw [hr.keys_eq hs hfo (by rw [hlab, Frame.label_fill])]

/-! ## The invariant of the walk -/

variable (bit w H P K)

/-- On the way up: below the frames `fs`, the new subtrie `t` replaces `o`, and `dels` are the
labels to be deleted. -/
structure Rewriting (fs : List (Frame κ)) (o t : Trie κ) (dels : List κ) : Prop where
  framed : Framed bit w fs
  old : Fits bit w fs o
  new : Fits bit w fs t
  placed : Placed bit w H P K (plug fs o)
  placed_new : Placed bit w H P K t
  moved : t.label ≠ o.label
  replaces : Replaces o t dels

variable {bit w H P K}

namespace Rewriting

variable {f : Frame κ} {fs : List (Frame κ)} {o t : Trie κ} {dels : List κ}

theorem nodup_old (hs : Separated H P K) (h : Rewriting bit w H P K fs o t dels) :
    (plug fs o).labels.Nodup :=
  labels_nodup hs ((ordered_plug fs o).mpr ⟨h.framed, h.old⟩) h.placed

theorem nodup_new (hs : Separated H P K) (h : Rewriting bit w H P K fs o t dels) : t.labels.Nodup :=
  labels_nodup hs h.new.ordered h.placed_new

theorem placed_fill_new (h : Rewriting bit w H P K (f :: fs) o t dels)
    (hp : P (f.children t.label).1 (f.children t.label).2) : Placed bit w H P K (f.rehash H t) :=
  placed_rehash (h.new.fill h.framed).ordered h.placed_new h.placed.other_of_plug.2.2 hp

theorem ordered_fill_new (h : Rewriting bit w H P K (f :: fs) o t dels) :
    Ordered bit w (f.rehash H t) := (h.new.rehash H h.framed).ordered

/-- The node above the hole is not recorded in the new subtrie. -/
theorem above_not_mem (hs : Separated H P K) (h : Rewriting bit w H P K (f :: fs) o t dels) :
    f.label ∉ t.labels := h.new.label_not_mem hs h.placed_new h.placed.other_of_plug.1

theorem other_not_mem (hs : Separated H P K) (h : Rewriting bit w H P K (f :: fs) o t dels) :
    ∀ x ∈ f.other.labels, x ∉ t.labels := fun x hx hxt =>
  sits_disjoint hs (h.new.fill h.framed).ordered h.placed_new h.placed.other_of_plug.2.2 x hxt hx

theorem step (hs : Separated H P K) (h : Rewriting bit w H P K (f :: fs) o t dels)
    (hp : P (f.children t.label).1 (f.children t.label).2) (hm : (f.rehash H t).label ≠ f.label) :
    Rewriting bit w H P K fs (f.fill o) (f.rehash H t) (dels ++ [f.label]) where
  framed := h.framed.tail
  old := h.old.fill h.framed
  new := h.new.rehash H h.framed
  placed := h.placed
  placed_new := h.placed_fill_new hp
  moved := by
    rw [Frame.label_fill]
    exact hm
  replaces := by
    have hno := labels_nodup_of_plug fs (f.fill o)
      (show (plug (f :: fs) o).labels.Nodup from h.nodup_old hs)
    have hsits := sits_children (h.new.fill h.framed).ordered h.placed_new
      h.placed.other_of_plug.2.2 hp
    have hfo : (f.relabel H t.label).label ∉ o.labels :=
      h.old.label_not_mem hs h.placed.other_of_plug.2.1 hsits
    rw [Frame.rehash, Frame.label_fill] at hm
    exact h.replaces.fill (Frame.relabel_other H f t.label) hno (h.above_not_mem hs) hfo hm

/-- The three records of one round go to different labels. -/
theorem labels_ne (hs : Separated H P K) (h : Rewriting bit w H P K (f :: fs) o t dels)
    (hp : P (f.children t.label).1 (f.children t.label).2) :
    (f.rehash H t).label ≠ t.label ∧ (f.rehash H t).label ≠ f.other.label ∧
      t.label ≠ f.other.label := by
  have hn := labels_nodup hs h.ordered_fill_new (h.placed_fill_new hp)
  rw [Frame.rehash, labels_fill_nodup] at hn
  unfold Frame.rehash
  rw [Frame.label_fill]
  refine ⟨fun he => hn.1.1 ?_, fun he => hn.1.2 ?_, fun he => ?_⟩
  · rw [he]
    exact t.label_mem_labels
  · rw [he]
    exact f.other.label_mem_labels
  · exact h.other_not_mem hs _ f.other.label_mem_labels (he ▸ t.label_mem_labels)

/-- The records around the hole, which the new subtrie does not cover. -/
theorem records [DecidableEq κ] (hs : Separated H P K)
    (h : Rewriting bit w H P K (f :: fs) o t dels) {M : κ → Option (Entry κ)}
    (hM : ∀ x, x ≠ t.label →
      M x = overlay w (some f.label) t (content w none (plug (f :: fs) o)) x) :
    M f.label = some ((f.fill o).entry w (above fs)) ∧
      M f.other.label = some (f.other.entry w (some f.label)) ∧
      (∃ e, M o.label = some e) ∧ o.label ≠ f.other.label := by
  have hno := h.nodup_old hs
  have hne : f.label ≠ t.label := fun he => h.above_not_mem hs (he ▸ t.label_mem_labels)
  have hoth : f.other.label ∉ t.labels := h.other_not_mem hs _ f.other.label_mem_labels
  have hothne : f.other.label ≠ t.label := fun he => hoth (he ▸ t.label_mem_labels)
  have hsib := ((labels_fill_nodup f o).mp (labels_nodup_of_plug fs _ hno)).2.2.2
  refine ⟨?_, ?_, ?_, fun he => hsib _ o.label_mem_labels (he ▸ f.other.label_mem_labels)⟩
  · have hlab := content_plug_label (w := w) fs (f.fill o) hno
    rw [Frame.label_fill] at hlab
    rw [hM _ hne, overlay_of_not_mem _ _ (h.above_not_mem hs)]
    exact hlab
  · rw [hM _ hothne, overlay_of_not_mem _ _ hoth,
      content_plug_other f fs o hno f.other.label_mem_labels, content_label]
  · rw [hM _ h.moved.symm]
    by_cases hot : o.label ∈ t.labels
    · rw [overlay_of_mem _ _ hot]
      exact content_of_mem _ hot
    · rw [overlay_of_not_mem _ _ hot, content_plug_label (f :: fs) o hno]
      exact ⟨_, rfl⟩

end Rewriting

/-! ## Relinking the parent alone -/

/-- The frame marked stale: its label no longer belongs to its children. -/
def Frame.dirtied (f : Frame κ) : Frame κ := { f with stale := true }

/-- The frames after a lazy change below them: only the parent is touched. -/
def dirtyAbove : List (Frame κ) → List (Frame κ)
  | [] => []
  | f :: fs => f.dirtied :: fs

theorem mem_keys_dirtyAbove (fs : List (Frame κ)) (t : Trie κ) (k : κ) :
    k ∈ (plug (dirtyAbove fs) t).keys ↔ k ∈ (plug fs t).keys := by
  cases fs with
  | nil => exact Iff.rfl
  | cons f fs =>
    rw [mem_keys_plug, mem_keys_plug]
    simp [dirtyAbove, Frame.dirtied]

theorem Fits.dirtied {f : Frame κ} {fs : List (Frame κ)} {t : Trie κ} (h : Fits bit w (f :: fs) t) :
    Fits bit w (f.dirtied :: fs) t where
  ordered := h.ordered
  leads := by
    intro k hk g hg
    rcases List.mem_cons.mp hg with rfl | hg
    · exact h.leads k hk f List.mem_cons_self
    · exact h.leads k hk g (List.mem_cons_of_mem _ hg)
  deep := by
    intro g hg
    rcases List.mem_cons.mp hg with rfl | hg
    · exact h.deep f List.mem_cons_self
    · exact h.deep g (List.mem_cons_of_mem _ hg)

theorem label_plug_cons (f g : Frame κ) (fs : List (Frame κ)) (t t' : Trie κ)
    (h : f.label = g.label) : (plug (f :: fs) t).label = (plug (g :: fs) t').label := by
  induction fs generalizing f g t t' with
  | nil => rw [plug, plug, plug, plug, Frame.label_fill, Frame.label_fill, h]
  | cons a fs ih => exact ih a a (f.fill t) (g.fill t') rfl

theorem placed_plug_replace {fs : List (Frame κ)} {o t : Trie κ} (h : Placed bit w H P K (plug fs o))
    (ht : Placed bit w H P K t) : Placed bit w H P K (plug fs t) := by
  induction fs generalizing o t with
  | nil => exact ht
  | cons f fs ih =>
    have ho := Placed.other_of_plug h
    exact ih (o := f.fill o) h ((placed_fill f t).mpr ⟨ho.1, ht, ho.2.2⟩)

theorem not_mem_around {fs : List (Frame κ)} {o : Trie κ} (hn : (plug fs o).labels.Nodup) {x : κ}
    (hx : x ∈ o.labels) : ∀ g ∈ fs, x ≠ g.label ∧ x ∉ g.other.labels := by
  induction fs generalizing o with
  | nil => simp
  | cons f fs ih =>
    obtain ⟨⟨h1, _⟩, _, _, h5⟩ := (labels_fill_nodup f o).mp (labels_nodup_of_plug fs _ hn)
    intro g hg
    rcases List.mem_cons.mp hg with rfl | hg
    · exact ⟨fun he => h1 (he ▸ hx), h5 x hx⟩
    · exact ih hn ((Frame.mem_labels_fill _ _ _).mpr (Or.inr (Or.inl hx))) g hg

namespace Rewriting

variable {f : Frame κ} {fs : List (Frame κ)} {o t : Trie κ} {dels : List κ}

theorem placed_dirtied (h : Rewriting bit w H P K (f :: fs) o t dels) :
    Placed bit w H P K (plug (f.dirtied :: fs) t) := by
  have ho := h.placed.other_of_plug
  have hnew : Placed bit w H P K (f.dirtied.fill t) := (placed_fill _ t).mpr ⟨ho.1, h.placed_new, ho.2.2⟩
  have hold : Placed bit w H P K (plug fs (f.fill o)) := h.placed
  show Placed bit w H P K (plug fs (f.dirtied.fill t))
  exact placed_plug_replace hold hnew

theorem ordered_dirtied (h : Rewriting bit w H P K (f :: fs) o t dels) :
    Ordered bit w (plug (f.dirtied :: fs) t) := (ordered_plug _ t).mpr ⟨h.framed, h.new.dirtied⟩

/-- The parent's record rewritten and the obsolete labels deleted, the new trie is left. -/
theorem content_dirtied [DecidableEq κ] (hs : Separated H P K)
    (h : Rewriting bit w H P K (f :: fs) o t dels) {M : κ → Option (Entry κ)}
    (hM : ∀ x, x ≠ f.label →
      M x = overlay w (some f.label) t (content w none (plug (f :: fs) o)) x)
    (hf : M f.label = some ((f.dirtied.fill t).entry w (above fs))) (x : κ) :
    (if x ∈ dels then none else M x) = content w none (plug (f.dirtied :: fs) t) x := by
  have hno := h.nodup_old hs
  have hn := labels_nodup hs h.ordered_dirtied h.placed_dirtied
  have hnt : (plug fs (f.dirtied.fill t)).labels.Nodup := hn
  by_cases hxd : x ∈ dels
  · rw [if_pos hxd, eq_comm, content_eq_none_iff, mem_labels_plug]
    rintro (hxt | ⟨g, hg, hxg⟩)
    · exact h.replaces.gone x hxd hxt
    · have hxo := not_mem_around hno (h.replaces.old x hxd)
      rcases List.mem_cons.mp hg with rfl | hg
      · have := hxo f List.mem_cons_self
        exact hxg.elim this.1 this.2
      · have := hxo g (List.mem_cons_of_mem _ hg)
        exact hxg.elim this.1 this.2
  rw [if_neg hxd]
  by_cases hxf : x = f.label
  · subst hxf
    have hlab := content_plug_label (w := w) fs (f.dirtied.fill t) hnt
    rw [Frame.label_fill] at hlab
    rw [hf, plug]
    exact hlab.symm
  rw [hM x hxf]
  by_cases hxt : x ∈ t.labels
  · rw [overlay_of_mem _ _ hxt, content_plug _ _ hn hxt]
    rfl
  rw [overlay_of_not_mem _ _ hxt]
  have hxo : x ∉ o.labels := fun hxo => hxt (h.replaces.kept x hxo hxd)
  by_cases hoth : x ∈ f.other.labels
  · rw [content_plug_other f fs o hno hoth, content_plug_other f.dirtied fs t hn hoth]
    rfl
  · refine content_plug_congr fs (f.fill o) (f.dirtied.fill t) hno hnt ?_ ?_ ?_
    · rw [Frame.label_fill, Frame.label_fill]
      rfl
    · rw [Frame.mem_labels_fill]
      tauto
    · rw [Frame.mem_labels_fill]
      exact fun hc => hc.elim hxf (fun hc => hc.elim hxt hoth)

theorem placed_dirtyAbove {fs : List (Frame κ)} {o t : Trie κ} {dels : List κ}
    (h : Rewriting bit w H P K fs o t dels) : Placed bit w H P K (plug (dirtyAbove fs) t) := by
  cases fs with
  | nil => exact h.placed_new
  | cons f fs => exact h.placed_dirtied

theorem ordered_dirtyAbove {fs : List (Frame κ)} {o t : Trie κ} {dels : List κ}
    (h : Rewriting bit w H P K fs o t dels) : Ordered bit w (plug (dirtyAbove fs) t) := by
  cases fs with
  | nil => exact h.new.ordered
  | cons f fs => exact h.ordered_dirtied

end Rewriting

/-! ## The start of an insertion -/

theorem placed_split {o : Trie κ} {c : Nat} {k : κ} (ho : Ordered bit w (split bit H c o k))
    (hpo : Placed bit w H P K o) (hk : K k)
    (hp : P ((splitFrame bit c o k).children o.label).1 ((splitFrame bit c o k).children o.label).2) :
    Placed bit w H P K (split bit H c o k) := by
  rw [split_eq_rehash, Frame.ordered_rehash] at ho
  rw [split_eq_rehash]
  exact placed_rehash ho hpo hk hp

/-- A key beside the path does not lead through it. -/
theorem leaves_of_framed {fs : List (Frame κ)} (h : Framed bit w fs) :
    ∀ f ∈ fs, ∀ k ∈ f.other.keys, ¬Leads bit fs k := by
  induction fs with
  | nil => simp
  | cons g fs ih =>
    intro f hf k hk hl
    rcases List.mem_cons.mp hf with rfl | hf
    · have h1 := (h.2.2.1 k hk).2
      rw [(hl f List.mem_cons_self).2] at h1
      cases hb : f.large <;> rw [hb] at h1 <;> cases h1
    · exact ih h.tail f hf k hk hl.tail

variable (bit w H P K) in
/-- The new key `k` belongs in front of `o`: it leads through the frames and differs from `o` first
at bit `c`. -/
structure SplitsAt (fs : List (Frame κ)) (o : Trie κ) (k : κ) (c : Nat) : Prop where
  framed : Framed bit w fs
  fits : Fits bit w fs o
  placed : Placed bit w H P K (plug fs o)
  key : K k
  leads : Leads bit fs k
  lt : c < o.len w
  agree : Agree bit c o.stem k
  differ : bit o.stem c ≠ bit k c

namespace SplitsAt

variable {fs : List (Frame κ)} {o : Trie κ} {k : κ} {c : Nat}

theorem fits_split (h : SplitsAt bit w H P K fs o k c) : Fits bit w fs (split bit H c o k) :=
  h.fits.split H h.leads h.lt h.agree h.differ

theorem nodup_old (hs : Separated H P K) (h : SplitsAt bit w H P K fs o k c) :
    (plug fs o).labels.Nodup := labels_nodup hs ((ordered_plug fs o).mpr ⟨h.framed, h.fits⟩) h.placed

theorem placed_split (h : SplitsAt bit w H P K fs o k c)
    (hp : P ((splitFrame bit c o k).children o.label).1 ((splitFrame bit c o k).children o.label).2) :
    Placed bit w H P K (split bit H c o k) :=
  BitTrie.placed_split h.fits_split.ordered h.placed.of_plug h.key hp

theorem nodup_split (hs : Separated H P K) (h : SplitsAt bit w H P K fs o k c)
    (hp : P ((splitFrame bit c o k).children o.label).1 ((splitFrame bit c o k).children o.label).2) :
    (split bit H c o k).labels.Nodup := labels_nodup hs h.fits_split.ordered (h.placed_split hp)

/-- The walk up starts with nothing to delete. -/
theorem rewriting (hs : Separated H P K) (h : SplitsAt bit w H P K fs o k c)
    (hp : P ((splitFrame bit c o k).children o.label).1 ((splitFrame bit c o k).children o.label).2) :
    Rewriting bit w H P K fs o (split bit H c o k) [] := by
  have hnod := h.nodup_split hs hp
  refine ⟨h.framed, h.fits, h.fits_split, h.placed, h.placed_split hp, ?_,
    ⟨by simp, by simp, fun x hx _ => ?_⟩⟩
  · rw [split_eq_rehash, Frame.rehash, labels_fill_nodup] at hnod
    rw [split_eq_rehash, Frame.rehash, Frame.label_fill]
    intro he
    exact hnod.1.1 (by rw [he]; exact o.label_mem_labels)
  · rw [mem_labels_split]
    exact Or.inr (Or.inr hx)

/-- The key differs from every key that is there in one of the first `w` bits. -/
theorem not_agree (h : SplitsAt bit w H P K fs o k c) :
    ∀ k' ∈ (plug fs o).keys, ¬Agree bit w k' k := by
  intro k' hmem ha
  have hle := h.fits.ordered.len_le
  rcases (mem_keys_plug fs o k').mp hmem with hk | ⟨f, hf, hk⟩
  · have hc := h.lt
    exact h.differ ((h.fits.ordered.agree_stem k' hk c hc).trans (ha c (by omega)))
  · -- every key beside the path leaves it
    apply leaves_of_framed h.framed f hf k' hk
    intro g hg
    have hg' := h.fits.deep g hg
    obtain ⟨hstem, hside⟩ := h.leads g hg
    exact ⟨hstem.trans (ha.symm.mono (by omega)), (ha g.len (by omega)).trans hside⟩

/-- The key is new. -/
theorem key_not_mem (h : SplitsAt bit w H P K fs o k c) : k ∉ (plug fs o).keys :=
  fun hmem => h.not_agree k hmem (Agree.refl w k)

end SplitsAt

/-! ## The start of a deletion -/

/-- A leaf and its parent go, its sibling takes their place. -/
theorem Rewriting.of_collapse (hs : Separated H P K) {p : Frame κ} {fs : List (Frame κ)} {k : κ}
    (ho : Ordered bit w (plug (p :: fs) (.leaf k)))
    (hp : Placed bit w H P K (plug (p :: fs) (.leaf k))) :
    Rewriting bit w H P K fs (p.fill (.leaf k)) p.other [p.label, k] := by
  have hn := labels_nodup_of_plug fs (p.fill (.leaf k)) (labels_nodup hs ho hp)
  obtain ⟨⟨h1, h2⟩, _, _, h5⟩ := (labels_fill_nodup p _).mp hn
  have hk : k ∉ p.other.labels := h5 k (by simp [Trie.labels])
  obtain ⟨hf, hfit⟩ := (ordered_plug (p :: fs) _).mp ho
  have hfill := hfit.fill hf
  have hdeep : ∀ g ∈ fs, g.len < p.other.len w := fun g hg => by
    have := hf.2.2.2.2.1 g hg
    have := hf.1
    omega
  refine ⟨hf.tail, hfill, ⟨hf.2.1, hf.2.2.2.1, hdeep⟩, hp, hp.other_of_plug.2.2, ?_, ?_⟩
  · rw [Frame.label_fill]
    exact fun he => h2 (he ▸ p.other.label_mem_labels)
  · refine ⟨fun x hx => ?_, fun x hx => ?_, fun x hx hxd => ?_⟩
    · rw [Frame.mem_labels_fill]
      rcases List.mem_pair.mp hx with rfl | rfl
      · exact Or.inl rfl
      · exact Or.inr (Or.inl (by simp [Trie.labels]))
    · rcases List.mem_pair.mp hx with rfl | rfl
      · exact h2
      · exact hk
    · rw [List.mem_pair, not_or] at hxd
      rcases (Frame.mem_labels_fill p _ x).mp hx with he | he | he
      · exact absurd he hxd.1
      · exact absurd (by simpa [Trie.labels] using he) hxd.2
      · exact he

/-- Before the sibling is written under its new parent, the old records cover it but for its
parent. -/
theorem overlay_sibling [DecidableEq κ] {p : Frame κ} {fs : List (Frame κ)} {o : Trie κ}
    (hn : (plug (p :: fs) o).labels.Nodup) (par : Option κ) {x : κ} (hx : x ≠ p.other.label) :
    content w none (plug (p :: fs) o) x
      = overlay w par p.other (content w none (plug (p :: fs) o)) x := by
  by_cases hxo : x ∈ p.other.labels
  · rw [overlay_of_mem _ _ hxo, content_plug_other p fs o hn hxo, content_of_ne _ par p.other hx]
  · rw [overlay_of_not_mem _ _ hxo]

end BitTrie
