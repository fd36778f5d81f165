import SetSync.Lib.BitTrie

/-!
# Tries stored by address

A trie is stored as a map from labels to entries: the parent's label, the children's labels, the
stem.  `content` is that map for a whole trie.  A place is rewritten from the inside out: `overlay`
is the map while the rewritten part `t` and the old records are both there, `content_overlay_fill`
moves it one frame up, and `Replaces` says which labels may be deleted at the end
(`content_of_replaces`).

All of this needs the labels of a trie to be distinct.  The labels here are keys, and values of a
function `H` on the labels of two children at the time they were computed, which may be long
gone.  If `H` has no collision on the pairs it was applied to and no key is a value of it
(`Separated`), a label still fixes the length and the stem of the node it is given to (`Sits`,
`Sits.unique`), and in an ordered trie these are different for different nodes
(`labels_nodup`).
-/

namespace BitTrie

variable {κ : Type}

/-! ## Entries and contents -/

/-- What is recorded of a node under its label. -/
structure Entry (κ : Type) where
  parent : Option κ
  children : Option (κ × κ)
  stem : κ
  len : Nat
  stale : Bool
deriving DecidableEq

def Trie.entry (w : Nat) (par : Option κ) : Trie κ → Entry κ
  | .leaf k => ⟨par, none, k, w, false⟩
  | .node _ p m s l r => ⟨par, some (l.label, r.label), p, m, s⟩

theorem labels_fill_nodup (f : Frame κ) (t : Trie κ) :
    (f.fill t).labels.Nodup ↔
      (f.label ∉ t.labels ∧ f.label ∉ f.other.labels) ∧
      t.labels.Nodup ∧ f.other.labels.Nodup ∧ ∀ x ∈ t.labels, x ∉ f.other.labels := by
  unfold Frame.fill
  split
  · simp only [Trie.labels, List.nodup_cons, List.mem_append, not_or, List.nodup_append]
    constructor
    · rintro ⟨⟨h1, h2⟩, h3, h4, h5⟩
      exact ⟨⟨h2, h1⟩, h4, h3, fun x hx hx' => h5 x hx' x hx rfl⟩
    · rintro ⟨⟨h1, h2⟩, h3, h4, h5⟩
      exact ⟨⟨h2, h1⟩, h4, h3, fun x hx y hy hxy => h5 y hy (hxy ▸ hx)⟩
  · simp only [Trie.labels, List.nodup_cons, List.mem_append, not_or, List.nodup_append]
    constructor
    · rintro ⟨⟨h1, h2⟩, h3, h4, h5⟩
      exact ⟨⟨h1, h2⟩, h3, h4, fun x hx hx' => h5 x hx x hx' rfl⟩
    · rintro ⟨⟨h1, h2⟩, h3, h4, h5⟩
      exact ⟨⟨h1, h2⟩, h3, h4, fun x hx y hy hxy => h5 x hx (hxy ▸ hy)⟩

theorem labels_nodup_of_plug (fs : List (Frame κ)) (t : Trie κ) (h : (plug fs t).labels.Nodup) :
    t.labels.Nodup := by
  induction fs generalizing t with
  | nil => exact h
  | cons f fs ih => exact ((labels_fill_nodup f t).mp (ih _ h)).2.1

section Content

variable [DecidableEq κ] {w : Nat}

/-- The records of a trie whose root has the parent `par`. -/
def content (w : Nat) : Option κ → Trie κ → κ → Option (Entry κ)
  | par, .leaf k, x => if x = k then some ((Trie.leaf k).entry w par) else none
  | par, .node h p m s l r, x =>
    if x = h then some ((Trie.node h p m s l r).entry w par)
    else (content w (some h) l x).or (content w (some h) r x)

theorem content_eq_none_iff (par : Option κ) (t : Trie κ) (x : κ) :
    content w par t x = none ↔ x ∉ t.labels := by
  induction t generalizing par with
  | leaf k => simp [content, Trie.labels]
  | node h p m s l r ihl ihr =>
    by_cases hx : x = h
    · simp [content, Trie.labels, hx]
    · simp [content, Trie.labels, hx, ihl, ihr]

theorem content_label (par : Option κ) (t : Trie κ) :
    content w par t t.label = some (t.entry w par) := by
  cases t <;> simp [content, Trie.label]

theorem content_of_ne (par par' : Option κ) (t : Trie κ) {x : κ} (h : x ≠ t.label) :
    content w par t x = content w par' t x := by
  cases t with
  | leaf k => simp only [Trie.label] at h; simp [content, h]
  | node lab p m s l r => simp only [Trie.label] at h; simp [content, h]

theorem content_of_mem (par : Option κ) {t : Trie κ} {x : κ} (h : x ∈ t.labels) :
    ∃ e, content w par t x = some e := by
  cases he : content w par t x with
  | none => exact absurd h ((content_eq_none_iff par t x).mp he)
  | some e => exact ⟨e, rfl⟩

theorem content_fill (par : Option κ) (f : Frame κ) (t : Trie κ) (hn : (f.fill t).labels.Nodup)
    (x : κ) :
    content w par (f.fill t) x =
      if x = f.label then some ((f.fill t).entry w par)
      else (content w (some f.label) t x).or (content w (some f.label) f.other x) := by
  have hd := ((labels_fill_nodup f t).mp hn).2.2.2
  by_cases hx : x = f.label
  · subst hx
    have := content_label (w := w) par (f.fill t)
    rw [Frame.label_fill] at this
    rw [this, if_pos rfl]
  · rw [if_neg hx]
    unfold Frame.fill
    split
    · simp only [content, if_neg hx]
      by_cases hxt : x ∈ t.labels
      · rw [(content_eq_none_iff _ _ _).mpr (hd x hxt)]; simp
      · rw [(content_eq_none_iff (some f.label) t x).mpr hxt]; simp
    · simp only [content, if_neg hx]

/-- What is recorded at a label of the hole's trie does not depend on the frames around it. -/
theorem content_plug (fs : List (Frame κ)) (t : Trie κ) (hn : (plug fs t).labels.Nodup) {x : κ}
    (hx : x ∈ t.labels) : content w none (plug fs t) x = content w (above fs) t x := by
  induction fs generalizing t with
  | nil => rfl
  | cons f fs ih =>
    have hnf := labels_nodup_of_plug fs (f.fill t) hn
    have hne : x ≠ f.label := fun h => ((labels_fill_nodup f t).mp hnf).1.1 (h ▸ hx)
    unfold plug
    rw [ih (f.fill t) hn ((Frame.mem_labels_fill _ _ _).mpr (Or.inr (Or.inl hx))),
      content_fill _ _ _ hnf, if_neg hne,
      (content_eq_none_iff _ f.other x).mpr (((labels_fill_nodup f t).mp hnf).2.2.2 x hx),
      Option.or_none]
    rfl

theorem content_plug_label (fs : List (Frame κ)) (t : Trie κ) (hn : (plug fs t).labels.Nodup) :
    content w none (plug fs t) t.label = some (t.entry w (above fs)) := by
  rw [content_plug fs t hn t.label_mem_labels, content_label]

/-- The sibling of the hole, as recorded. -/
theorem content_plug_other (f : Frame κ) (fs : List (Frame κ)) (t : Trie κ)
    (hn : (plug (f :: fs) t).labels.Nodup) {x : κ} (hx : x ∈ f.other.labels) :
    content w none (plug (f :: fs) t) x = content w (some f.label) f.other x := by
  have hnf := labels_nodup_of_plug fs (f.fill t) hn
  obtain ⟨⟨_, h2⟩, _, _, h5⟩ := (labels_fill_nodup f t).mp hnf
  have hne : x ≠ f.label := fun h => h2 (h ▸ hx)
  unfold plug
  rw [content_plug fs _ hn ((Frame.mem_labels_fill _ _ _).mpr (Or.inr (Or.inr hx))),
    content_fill _ _ _ hnf, if_neg hne,
    (content_eq_none_iff _ t x).mpr (fun h => h5 x h hx), Option.none_or]

/-- Away from the hole and the frame above it, the records do not depend on what is there. -/
theorem content_plug_congr (fs : List (Frame κ)) (t t' : Trie κ)
    (hn : (plug fs t).labels.Nodup) (hn' : (plug fs t').labels.Nodup) (hl : t.label = t'.label)
    {x : κ} (hx : x ∉ t.labels) (hx' : x ∉ t'.labels) :
    content w none (plug fs t) x = content w none (plug fs t') x := by
  induction fs generalizing t t' with
  | nil => rw [plug, plug, (content_eq_none_iff _ _ _).mpr hx, (content_eq_none_iff _ _ _).mpr hx']
  | cons f fs ih =>
    by_cases hfx : x = f.label ∨ x ∈ f.other.labels
    · have hf : x ∈ (f.fill t).labels := (Frame.mem_labels_fill _ _ _).mpr (by tauto)
      have hf' : x ∈ (f.fill t').labels := (Frame.mem_labels_fill _ _ _).mpr (by tauto)
      rw [plug, plug, content_plug fs _ hn hf, content_plug fs _ hn' hf',
        content_fill _ _ _ (labels_nodup_of_plug fs _ hn),
        content_fill _ _ _ (labels_nodup_of_plug fs _ hn'), (content_eq_none_iff _ t x).mpr hx,
        (content_eq_none_iff _ t' x).mpr hx']
      have he : (f.fill t).entry w (above fs) = (f.fill t').entry w (above fs) := by
        unfold Frame.fill; split <;> simp [Trie.entry, hl]
      rw [he]
    · apply ih (f.fill t) (f.fill t') hn hn' (by simp)
      · rw [Frame.mem_labels_fill]; tauto
      · rw [Frame.mem_labels_fill]; tauto

/-! ## Rewriting a place from the inside out -/

/-- The records of `t`, hung under `par`, in front of the old ones. -/
def overlay (w : Nat) (par : Option κ) (t : Trie κ) (M : κ → Option (Entry κ)) :
    κ → Option (Entry κ) := fun x => (content w par t x).or (M x)

theorem overlay_of_mem (par : Option κ) {t : Trie κ} (M : κ → Option (Entry κ)) {x : κ}
    (h : x ∈ t.labels) : overlay w par t M x = content w par t x := by
  obtain ⟨e, he⟩ := content_of_mem (w := w) par h
  unfold overlay
  rw [he, Option.some_or]

theorem overlay_of_not_mem (par : Option κ) {t : Trie κ} (M : κ → Option (Entry κ)) {x : κ}
    (h : x ∉ t.labels) : overlay w par t M x = M x := by
  unfold overlay
  rw [(content_eq_none_iff _ _ _).mpr h, Option.none_or]

/-- One frame up: the new frame `f'`, its child in the hole and its other child are written, the
last two with `f'` as their parent. -/
theorem overlay_fill {f f' : Frame κ} {fs : List (Frame κ)} {o t : Trie κ} {par : Option κ}
    (hf : f'.other = f.other) (hno : (plug (f :: fs) o).labels.Nodup)
    (hn : (f'.fill t).labels.Nodup) (x : κ) :
    overlay w par (f'.fill t) (content w none (plug (f :: fs) o)) x =
      if x = f'.label then some ((f'.fill t).entry w par)
      else if x = t.label then some (t.entry w (some f'.label))
      else if x = f.other.label then some (f.other.entry w (some f'.label))
      else overlay w (some f.label) t (content w none (plug (f :: fs) o)) x := by
  obtain ⟨⟨h1, h2⟩, h3, h4, h5⟩ := (labels_fill_nodup f' t).mp hn
  rw [hf] at h2 h4 h5
  have hfill := content_fill (w := w) par f' t hn x
  rw [hf] at hfill
  by_cases hx1 : x = f'.label
  · rw [if_pos hx1, overlay, hfill, if_pos hx1, Option.some_or]
  rw [if_neg hx1] at hfill ⊢
  by_cases hx2 : x = t.label
  · subst hx2
    rw [if_pos rfl, overlay, hfill, content_label, Option.some_or, Option.some_or]
  rw [if_neg hx2]
  by_cases hx3 : x = f.other.label
  · subst hx3
    rw [if_pos rfl, overlay, hfill, content_label,
      (content_eq_none_iff _ t _).mpr (fun h => h5 _ h f.other.label_mem_labels), Option.none_or,
      Option.some_or]
  rw [if_neg hx3, overlay, overlay, hfill, content_of_ne _ (some f.label) t hx2]
  by_cases hxt : x ∈ t.labels
  · obtain ⟨e, he⟩ := content_of_mem (w := w) (some f.label) hxt
    rw [he]; simp
  · rw [(content_eq_none_iff _ t x).mpr hxt, Option.none_or, Option.none_or]
    by_cases hxo : x ∈ f.other.labels
    · rw [content_plug_other f fs o hno hxo, content_of_ne _ (some f.label) f.other hx3]
      simp
    · rw [(content_eq_none_iff _ f.other x).mpr hxo, Option.none_or]

/-- `t` stands for the old trie `o`, and `dels` are the labels of `o` it no longer uses. -/
structure Replaces (o t : Trie κ) (dels : List κ) : Prop where
  old : ∀ x ∈ dels, x ∈ o.labels
  gone : ∀ x ∈ dels, x ∉ t.labels
  kept : ∀ x ∈ o.labels, x ∉ dels → x ∈ t.labels

omit [DecidableEq κ] in
theorem Replaces.fill {f f' : Frame κ} {o t : Trie κ} {dels : List κ} (h : Replaces o t dels)
    (hf : f'.other = f.other) (hno : (f.fill o).labels.Nodup) (hft : f.label ∉ t.labels)
    (hfo : f'.label ∉ o.labels) (hne : f'.label ≠ f.label) :
    Replaces (f.fill o) (f'.fill t) (dels ++ [f.label]) := by
  obtain ⟨⟨_, h2⟩, _, _, h5⟩ := (labels_fill_nodup f o).mp hno
  refine ⟨fun x hx => ?_, fun x hx => ?_, fun x hx hxd => ?_⟩
  · rw [Frame.mem_labels_fill]
    rcases List.mem_append.mp hx with hx | hx
    · exact Or.inr (Or.inl (h.old x hx))
    · exact Or.inl (List.mem_singleton.mp hx)
  · rw [Frame.mem_labels_fill, hf]
    rcases List.mem_append.mp hx with hx | hx
    · have hxo := h.old x hx
      rintro (he | he | he)
      · exact hfo (he ▸ hxo)
      · exact h.gone x hx he
      · exact h5 x hxo he
    · rw [List.mem_singleton] at hx
      subst hx
      rintro (he | he | he)
      · exact hne he.symm
      · exact hft he
      · exact h2 he
  · rw [List.mem_append, not_or, List.mem_singleton] at hxd
    rw [Frame.mem_labels_fill] at hx ⊢
    rw [hf]
    rcases hx with hx | hx | hx
    · exact absurd hx hxd.2
    · exact Or.inr (Or.inl (h.kept x hx hxd.1))
    · exact Or.inr (Or.inr hx)

/-- Once the obsolete labels are deleted, only the new trie is left. -/
theorem content_of_replaces {o t : Trie κ} {dels : List κ} (h : Replaces o t dels) (x : κ) :
    (if x ∈ dels then none else overlay w none t (content w none o) x) = content w none t x := by
  by_cases hx : x ∈ dels
  · rw [if_pos hx, (content_eq_none_iff _ _ _).mpr (h.gone x hx)]
  · rw [if_neg hx]
    by_cases hxt : x ∈ t.labels
    · exact overlay_of_mem _ _ hxt
    · rw [overlay_of_not_mem _ _ hxt, (content_eq_none_iff _ t x).mpr hxt, content_eq_none_iff]
      exact fun hxo => hxt (h.kept x hxo hx)

end Content

/-! ## Labels fix the place of a node -/

section Sits

variable {bit : κ → Nat → Bool} {w : Nat} {H : κ → κ → κ} {P : κ → κ → Prop} {K : κ → Prop}

/-- No collision of `H` on the pairs `P`, and no key of `K` among its values there. -/
structure Separated (H : κ → κ → κ) (P : κ → κ → Prop) (K : κ → Prop) : Prop where
  inj : ∀ {x y x' y'}, P x y → P x' y' → H x y = H x' y' → x = x' ∧ y = y'
  fresh : ∀ {k x y}, K k → P x y → H x y ≠ k

theorem Separated.mono {P' : κ → κ → Prop} {K' : κ → Prop} (h : Separated H P K)
    (hP : ∀ x y, P' x y → P x y) (hK : ∀ k, K' k → K k) : Separated H P' K' where
  inj hx hy he := h.inj (hP _ _ hx) (hP _ _ hy) he
  fresh hk hx := h.fresh (hK _ hk) (hP _ _ hx)

variable (bit w H P K)

/-- A node labelled `x` has `m` common bits, those of `p`: a key has all its bits, a value of `H`
sits where the two nodes it was computed from part. -/
inductive Sits : κ → Nat → κ → Prop
  | key {k : κ} : K k → Sits k w k
  | pair {x y p q s : κ} {m n c : Nat} : P x y → Sits x m p → Sits y n q → c < m → c < n →
      Agree bit c p q → bit p c ≠ bit q c → Agree bit c s p → Sits (H x y) c s

variable {bit w H P K}

theorem Sits.unique (hs : Separated H P K) {x p p' : κ} {m m' : Nat}
    (h : Sits bit w H P K x m p) (h' : Sits bit w H P K x m' p') : m = m' ∧ Agree bit m p p' := by
  induction h generalizing m' p' with
  | key hk =>
    cases h' with
    | key _ => exact ⟨rfl, Agree.refl _ _⟩
    | pair hP => exact absurd rfl (hs.fresh hk hP)
  | @pair x y p q s m n c hP hx hy hcm hcn ha hd hsp ihx ihy =>
    generalize hz : H x y = z at h'
    cases h' with
    | key hk => exact absurd hz (hs.fresh hk hP)
    | @pair x' y' p2 q2 _ m2 n2 _ hP2 hx2 hy2 hcm2 hcn2 ha2 hd2 hsp2 =>
      obtain ⟨rfl, rfl⟩ := hs.inj hP hP2 hz
      obtain ⟨rfl, hp⟩ := ihx hx2
      obtain ⟨rfl, hq⟩ := ihy hy2
      -- both pairs of stems part at the same first bit
      have hc : c = m' := by
        have ha2' : Agree bit (min c m' + 1) p p2 := hp.mono (by omega)
        have hq2' : Agree bit (min c m' + 1) q q2 := hq.mono (by omega)
        rcases Nat.lt_trichotomy c m' with hlt | heq | hlt
        · refine absurd ?_ hd
          rw [ha2' c (by omega), hq2' c (by omega)]
          exact ha2 c hlt
        · exact heq
        · refine absurd ?_ hd2
          rw [← ha2' m' (by omega), ← hq2' m' (by omega)]
          exact ha m' hlt
      subst hc
      exact ⟨rfl, (hsp.trans (hp.mono (by omega))).trans hsp2.symm⟩

variable (bit w H P K)

/-- Every node of the trie sits where its label says. -/
def Placed : Trie κ → Prop
  | .leaf k => K k
  | .node h p m _ l r => Sits bit w H P K h m p ∧ Placed l ∧ Placed r

variable {bit w H P K}

theorem Placed.sits {t : Trie κ} (h : Placed bit w H P K t) :
    Sits bit w H P K t.label (t.len w) t.stem := by
  cases t with
  | leaf k => exact Sits.key h
  | node lab p m s l r => exact h.1

theorem Placed.keys {t : Trie κ} (h : Placed bit w H P K t) : ∀ k ∈ t.keys, K k := by
  induction t with
  | leaf k => intro k' hk'; simp only [Trie.keys, List.mem_singleton] at hk'; subst hk'; exact h
  | node lab p m s l r ihl ihr =>
    intro k hk
    rcases List.mem_append.mp hk with hk | hk
    · exact ihl h.2.1 k hk
    · exact ihr h.2.2 k hk

theorem Sits.mono {P' : κ → κ → Prop} {K' : κ → Prop} (hP : ∀ x y, P x y → P' x y)
    (hK : ∀ k, K k → K' k) {x p : κ} {m : Nat} (h : Sits bit w H P K x m p) :
    Sits bit w H P' K' x m p := by
  induction h with
  | key hk => exact .key (hK _ hk)
  | pair hp _ _ hcm hcn ha hd hsp ihx ihy => exact .pair (hP _ _ hp) ihx ihy hcm hcn ha hd hsp

theorem Placed.mono {P' : κ → κ → Prop} {K' : κ → Prop} (hP : ∀ x y, P x y → P' x y)
    (hK : ∀ k, K k → K' k) {t : Trie κ} (h : Placed bit w H P K t) : Placed bit w H P' K' t := by
  induction t with
  | leaf k => exact hK _ h
  | node lab p m s l r ihl ihr => exact ⟨h.1.mono hP hK, ihl h.2.1, ihr h.2.2⟩

theorem placed_fill (f : Frame κ) (t : Trie κ) :
    Placed bit w H P K (f.fill t) ↔
      Sits bit w H P K f.label f.len f.stem ∧ Placed bit w H P K t ∧ Placed bit w H P K f.other := by
  unfold Frame.fill
  split
  · simp only [Placed]; tauto
  · simp only [Placed]

theorem Placed.of_plug {fs : List (Frame κ)} {t : Trie κ} (h : Placed bit w H P K (plug fs t)) :
    Placed bit w H P K t := by
  induction fs generalizing t with
  | nil => exact h
  | cons f fs ih => exact ((placed_fill f t).mp (ih h)).2.1

/-- The labels inside an ordered trie sit below its root. -/
theorem Placed.sits_of_mem {t : Trie κ} (ho : Ordered bit w t) (h : Placed bit w H P K t) {x : κ}
    (hx : x ∈ t.labels) :
    ∃ m p, Sits bit w H P K x m p ∧ t.len w ≤ m ∧ Agree bit (t.len w) p t.stem := by
  induction t with
  | leaf k =>
    simp only [Trie.labels, List.mem_singleton] at hx
    subst hx
    exact ⟨w, x, .key h, Nat.le_refl _, Agree.refl _ _⟩
  | node lab p m s l r ihl ihr =>
    obtain ⟨hl, hr, hls, hrs, hol, hor⟩ := ho
    simp only [Trie.labels, List.mem_cons, List.mem_append] at hx
    -- below a child, the stem agrees with the child's stem, and that one with the node's
    have below : ∀ {c : Trie κ}, m < c.len w → Ordered bit w c →
        (∀ k ∈ c.keys, Agree bit m p k) →
        (∃ m' q, Sits bit w H P K x m' q ∧ c.len w ≤ m' ∧ Agree bit (c.len w) q c.stem) →
        ∃ m' q, Sits bit w H P K x m' q ∧ m ≤ m' ∧ Agree bit m q p := by
      rintro c hmc hoc hkc ⟨m', q, hsx, hle, ha⟩
      obtain ⟨k, hk⟩ := c.exists_mem_keys
      refine ⟨m', q, hsx, by omega, (ha.mono (by omega)).trans ?_⟩
      exact ((hoc.agree_stem k hk).mono (by omega)).trans (hkc k hk).symm
    rcases hx with rfl | hx | hx
    · exact ⟨m, p, h.1, Nat.le_refl _, Agree.refl _ _⟩
    · exact below hl hol (fun k hk => (hls k hk).1) (ihl hol h.2.1 hx)
    · exact below hr hor (fun k hk => (hrs k hk).1) (ihr hor h.2.2 hx)

/-- A node outside a frame's place is not labelled by anything inside it. -/
theorem Fits.label_not_mem (hs : Separated H P K) {f : Frame κ} {fs : List (Frame κ)} {t : Trie κ}
    (ht : Fits bit w (f :: fs) t) (hp : Placed bit w H P K t) {x s : κ}
    (hx : Sits bit w H P K x f.len s) : x ∉ t.labels := by
  intro hmem
  obtain ⟨m, p, hsx, hle, _⟩ := hp.sits_of_mem ht.ordered hmem
  have := (hx.unique hs hsx).1
  have := ht.deep f List.mem_cons_self
  omega

/-- What sits in the hole of a frame and what sits in its other child have different labels. -/
theorem sits_disjoint (hs : Separated H P K) {f : Frame κ} {t : Trie κ}
    (ho : Ordered bit w (f.fill t)) (ht : Placed bit w H P K t) (hf : Placed bit w H P K f.other) :
    ∀ x ∈ t.labels, x ∉ f.other.labels := by
  obtain ⟨hl, hr, hks, hos, hot, hoo⟩ := (Frame.ordered_fill f t).mp ho
  intro x hx hx'
  obtain ⟨m, p, hsx, hle, ha⟩ := ht.sits_of_mem hot hx
  obtain ⟨m', p', hsx', hle', ha'⟩ := hf.sits_of_mem hoo hx'
  obtain ⟨rfl, hpp⟩ := hsx.unique hs hsx'
  obtain ⟨k, hk⟩ := t.exists_mem_keys
  obtain ⟨k', hk'⟩ := f.other.exists_mem_keys
  have h1 : bit p f.len = f.large := by
    rw [ha _ hl, hot.agree_stem k hk _ hl]; exact (hks k hk).2
  have h2 : bit p' f.len = !f.large := by
    rw [ha' _ hr, hoo.agree_stem k' hk' _ hr]; exact (hos k' hk').2
  have h3 := hpp f.len (by omega)
  rw [h1, h2] at h3
  cases hfl : f.large <;> rw [hfl] at h3 <;> cases h3

/-- **The labels of an ordered trie in its place are distinct.** -/
theorem labels_nodup (hs : Separated H P K) {t : Trie κ} (ho : Ordered bit w t)
    (hp : Placed bit w H P K t) : t.labels.Nodup := by
  induction t with
  | leaf k => simp [Trie.labels]
  | node lab p m s l r ihl ihr =>
    have hfill : Trie.node lab p m s l r = (Frame.mk lab p m s false r).fill l := rfl
    rw [hfill] at ho hp ⊢
    obtain ⟨hl, hr, _, _, hol, hor⟩ := (Frame.ordered_fill _ l).mp ho
    obtain ⟨hlab, hpl, hpr⟩ := (placed_fill _ l).mp hp
    have deep : ∀ {c : Trie κ}, m < c.len w → Ordered bit w c → Placed bit w H P K c →
        lab ∉ c.labels := by
      intro c hmc hoc hpc hmem
      obtain ⟨m', q, hsx, hle, _⟩ := hpc.sits_of_mem hoc hmem
      have := (hlab.unique hs hsx).1
      simp only at this
      omega
    rw [labels_fill_nodup]
    exact ⟨⟨deep hl hol hpl, deep hr hor hpr⟩, ihl hol hpl, ihr hor hpr,
      sits_disjoint hs ho hpl hpr⟩

end Sits

end BitTrie
