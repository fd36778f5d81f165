import Mathlib.Data.List.Nodup
import Mathlib.Data.List.Perm.Basic
import Mathlib.Tactic.Common

/-!
# Path-compressed binary tries with labelled nodes

Keys are read bit by bit (`bit k i`); a node keeps a `stem`, the number `len` of its bits that
all keys below share, and the first bit on which its two subtries differ is bit `len`.  A leaf is
told apart from the other leaves by its first `w` bits.  Every node also carries a `label`, the
address it is stored under, and a `stale` mark; the shape (`Ordered`) does not look at either.

A place inside a trie is a list of frames, the innermost first: `plug fs t` is the trie with `t`
at that place, and `rebuild H fs t` the one whose frames got new labels, computed by `H` from the
labels of their children, from the inside out.

    Ordered (plug fs t)      ↔ Framed fs ∧ Fits fs t                              (ordered_plug)
    Ordered (rebuild H fs t) ↔ Framed fs ∧ Fits fs t                              (ordered_rebuild)
-/

namespace BitTrie

variable {κ : Type}

inductive Trie (κ : Type) where
  | leaf (key : κ)
  | node (label stem : κ) (len : Nat) (stale : Bool) (smaller larger : Trie κ)

namespace Trie

def label : Trie κ → κ
  | leaf k => k
  | node h _ _ _ _ _ => h

def stem : Trie κ → κ
  | leaf k => k
  | node _ p _ _ _ _ => p

/-- Number of bits of the stem that count; all of the first `w` at a leaf. -/
def len (w : Nat) : Trie κ → Nat
  | leaf _ => w
  | node _ _ m _ _ _ => m

def keys : Trie κ → List κ
  | leaf k => [k]
  | node _ _ _ _ l r => l.keys ++ r.keys

def labels : Trie κ → List κ
  | leaf k => [k]
  | node h _ _ _ l r => h :: (l.labels ++ r.labels)

theorem mem_keys_leaf (k : κ) : k ∈ (leaf k).keys := List.mem_singleton_self k

theorem label_mem_labels (t : Trie κ) : t.label ∈ t.labels := by
  cases t <;> simp [label, labels]

theorem keys_ne_nil (t : Trie κ) : t.keys ≠ [] := by
  induction t with
  | leaf k => simp [keys]
  | node h p m s l r ihl ihr => simp [keys, ihl]

theorem exists_mem_keys (t : Trie κ) : ∃ k, k ∈ t.keys :=
  List.exists_mem_of_ne_nil _ t.keys_ne_nil

theorem keys_subset_labels (t : Trie κ) : ∀ k ∈ t.keys, k ∈ t.labels := by
  induction t with
  | leaf k => simp [keys, labels]
  | node h p m s l r ihl ihr =>
    intro k hk
    simp only [keys, List.mem_append] at hk
    simp only [labels, List.mem_cons, List.mem_append]
    rcases hk with hk | hk
    · exact Or.inr (Or.inl (ihl k hk))
    · exact Or.inr (Or.inr (ihr k hk))

theorem length_labels (t : Trie κ) : t.labels.length + 1 = 2 * t.keys.length := by
  induction t with
  | leaf k => simp [keys, labels]
  | node h p m s l r ihl ihr =>
    simp only [labels, keys, List.length_cons, List.length_append]
    omega

end Trie

/-- `a` and `b` have the same first `m` bits. -/
def Agree (bit : κ → Nat → Bool) (m : Nat) (a b : κ) : Prop := ∀ i, i < m → bit a i = bit b i

section Agree

variable {bit : κ → Nat → Bool} {m n : Nat} {a b c : κ}

theorem Agree.refl (m : Nat) (a : κ) : Agree bit m a a := fun _ _ => rfl

theorem Agree.symm (h : Agree bit m a b) : Agree bit m b a := fun i hi => (h i hi).symm

theorem Agree.trans (h : Agree bit m a b) (h' : Agree bit m b c) : Agree bit m a c :=
  fun i hi => (h i hi).trans (h' i hi)

theorem Agree.mono (h : Agree bit m a b) (hn : n ≤ m) : Agree bit n a b :=
  fun i hi => h i (by omega)

/-- Keys that do not agree differ first somewhere. -/
theorem exists_first_diff (h : ¬Agree bit m a b) : ∃ c, c < m ∧ Agree bit c a b ∧ bit a c ≠ bit b c := by
  induction m with
  | zero => exact absurd (fun i hi => absurd hi (Nat.not_lt_zero i)) h
  | succ m ih =>
    by_cases hm : Agree bit m a b
    · refine ⟨m, Nat.lt_succ_self m, hm, fun hb => h fun i hi => ?_⟩
      rcases Nat.lt_succ_iff_lt_or_eq.mp hi with hi | rfl
      · exact hm i hi
      · exact hb
    · obtain ⟨c, hc, ha, hd⟩ := ih hm
      exact ⟨c, by omega, ha, hd⟩

end Agree

/-! ## Ordered tries -/

variable (bit : κ → Nat → Bool) (w : Nat)

/-- Each node splits its keys by bit `len`, on whose first `len` bits they all agree. -/
def Ordered : Trie κ → Prop
  | .leaf _ => True
  | .node _ p m _ l r =>
    m < l.len w ∧ m < r.len w ∧
    (∀ k ∈ l.keys, Agree bit m p k ∧ bit k m = false) ∧
    (∀ k ∈ r.keys, Agree bit m p k ∧ bit k m = true) ∧
    Ordered l ∧ Ordered r

variable {bit w}

theorem Ordered.agree_stem {t : Trie κ} (h : Ordered bit w t) :
    ∀ k ∈ t.keys, Agree bit (t.len w) t.stem k := by
  cases t with
  | leaf k => intro k' hk'; simp [Trie.keys] at hk'; subst hk'; exact Agree.refl _ _
  | node lab p m s l r =>
    intro k hk
    simp only [Trie.keys, List.mem_append] at hk
    rcases hk with hk | hk
    · exact (h.2.2.1 k hk).1
    · exact (h.2.2.2.1 k hk).1

theorem Ordered.len_le {t : Trie κ} (h : Ordered bit w t) : t.len w ≤ w := by
  induction t with
  | leaf k => exact Nat.le_refl _
  | node lab p m s l r ihl ihr =>
    have h1 := ihl h.2.2.2.2.1
    have h2 := h.1
    simp only [Trie.len]
    omega

theorem Ordered.keys_nodup {t : Trie κ} (h : Ordered bit w t) : t.keys.Nodup := by
  induction t with
  | leaf k => simp [Trie.keys]
  | node lab p m s l r ihl ihr =>
    obtain ⟨_, _, hls, hrs, hol, hor⟩ := h
    unfold Trie.keys
    rw [List.nodup_append]
    refine ⟨ihl hol, ihr hor, fun a ha b hb hab => ?_⟩
    subst hab
    have := (hls a ha).2
    rw [(hrs a hb).2] at this
    cases this

/-! ## Frames -/

/-- A node with one child cut out; `large` when the hole is the larger child. -/
structure Frame (κ : Type) where
  label : κ
  stem : κ
  len : Nat
  stale : Bool
  large : Bool
  other : Trie κ

namespace Frame

def fill (f : Frame κ) (t : Trie κ) : Trie κ :=
  if f.large then .node f.label f.stem f.len f.stale f.other t
  else .node f.label f.stem f.len f.stale t f.other

/-- The labels of the two children, smaller first, when the hole is labelled `x`. -/
def children (f : Frame κ) (x : κ) : κ × κ :=
  if f.large then (f.other.label, x) else (x, f.other.label)

/-- The frame under the label that `H` computes for its children. -/
def relabel (H : κ → κ → κ) (f : Frame κ) (x : κ) : Frame κ :=
  { f with label := H (f.children x).1 (f.children x).2, stale := false }

def rehash (H : κ → κ → κ) (f : Frame κ) (t : Trie κ) : Trie κ := (f.relabel H t.label).fill t

@[simp] theorem label_fill (f : Frame κ) (t : Trie κ) : (f.fill t).label = f.label := by
  unfold fill; split <;> rfl

@[simp] theorem stem_fill (f : Frame κ) (t : Trie κ) : (f.fill t).stem = f.stem := by
  unfold fill; split <;> rfl

@[simp] theorem len_fill (f : Frame κ) (t : Trie κ) : (f.fill t).len w = f.len := by
  unfold fill; split <;> rfl

theorem mem_keys_fill (f : Frame κ) (t : Trie κ) (k : κ) :
    k ∈ (f.fill t).keys ↔ k ∈ t.keys ∨ k ∈ f.other.keys := by
  unfold fill; split <;> simp [Trie.keys, or_comm]

theorem mem_labels_fill (f : Frame κ) (t : Trie κ) (x : κ) :
    x ∈ (f.fill t).labels ↔ x = f.label ∨ x ∈ t.labels ∨ x ∈ f.other.labels := by
  unfold fill; split <;> simp [Trie.labels, or_comm]

@[simp] theorem relabel_stem (H : κ → κ → κ) (f : Frame κ) (x : κ) : (f.relabel H x).stem = f.stem :=
  rfl

@[simp] theorem relabel_len (H : κ → κ → κ) (f : Frame κ) (x : κ) : (f.relabel H x).len = f.len :=
  rfl

@[simp] theorem relabel_large (H : κ → κ → κ) (f : Frame κ) (x : κ) :
    (f.relabel H x).large = f.large := rfl

@[simp] theorem relabel_other (H : κ → κ → κ) (f : Frame κ) (x : κ) :
    (f.relabel H x).other = f.other := rfl

@[simp] theorem relabel_children (H : κ → κ → κ) (f : Frame κ) (x y : κ) :
    (f.relabel H x).children y = f.children y := rfl

theorem ordered_fill (f : Frame κ) (t : Trie κ) :
    Ordered bit w (f.fill t) ↔
      f.len < t.len w ∧ f.len < f.other.len w ∧
      (∀ k ∈ t.keys, Agree bit f.len f.stem k ∧ bit k f.len = f.large) ∧
      (∀ k ∈ f.other.keys, Agree bit f.len f.stem k ∧ bit k f.len = !f.large) ∧
      Ordered bit w t ∧ Ordered bit w f.other := by
  unfold fill
  cases h : f.large
  · simp [Ordered]
  · simp only [Ordered, if_true, Bool.not_true]
    constructor
    · rintro ⟨h1, h2, h3, h4, h5, h6⟩; exact ⟨h2, h1, h4, h3, h6, h5⟩
    · rintro ⟨h1, h2, h3, h4, h5, h6⟩; exact ⟨h2, h1, h4, h3, h6, h5⟩

theorem ordered_rehash (H : κ → κ → κ) (f : Frame κ) (t : Trie κ) :
    Ordered bit w (f.rehash H t) ↔ Ordered bit w (f.fill t) := by
  unfold rehash
  rw [ordered_fill, ordered_fill]
  simp only [relabel_len, relabel_stem, relabel_large, relabel_other]

end Frame

/-- The trie with `t` in the hole that the frames, innermost first, leave. -/
def plug : List (Frame κ) → Trie κ → Trie κ
  | [], t => t
  | f :: fs, t => plug fs (f.fill t)

/-- `plug`, with every frame under a new label. -/
def rebuild (H : κ → κ → κ) : List (Frame κ) → Trie κ → Trie κ
  | [], t => t
  | f :: fs, t => rebuild H fs (f.rehash H t)

/-- The label of the node above the hole. -/
def above : List (Frame κ) → Option κ
  | [] => none
  | f :: _ => some f.label

theorem mem_keys_plug (fs : List (Frame κ)) (t : Trie κ) (k : κ) :
    k ∈ (plug fs t).keys ↔ k ∈ t.keys ∨ ∃ f ∈ fs, k ∈ f.other.keys := by
  induction fs generalizing t with
  | nil => simp [plug]
  | cons f fs ih => rw [plug, ih, Frame.mem_keys_fill]; simp [or_assoc]

theorem mem_keys_rebuild (H : κ → κ → κ) (fs : List (Frame κ)) (t : Trie κ) (k : κ) :
    k ∈ (rebuild H fs t).keys ↔ k ∈ t.keys ∨ ∃ f ∈ fs, k ∈ f.other.keys := by
  induction fs generalizing t with
  | nil => simp [rebuild]
  | cons f fs ih =>
    unfold rebuild
    rw [ih, Frame.rehash, Frame.mem_keys_fill]
    simp [or_assoc]

theorem mem_labels_plug (fs : List (Frame κ)) (t : Trie κ) (x : κ) :
    x ∈ (plug fs t).labels ↔
      x ∈ t.labels ∨ ∃ f ∈ fs, x = f.label ∨ x ∈ f.other.labels := by
  induction fs generalizing t with
  | nil => simp [plug]
  | cons f fs ih =>
    unfold plug
    rw [ih, Frame.mem_labels_fill]
    constructor
    · rintro ((h | h | h) | ⟨g, hg, h⟩)
      · exact Or.inr ⟨f, List.mem_cons_self, Or.inl h⟩
      · exact Or.inl h
      · exact Or.inr ⟨f, List.mem_cons_self, Or.inr h⟩
      · exact Or.inr ⟨g, List.mem_cons_of_mem _ hg, h⟩
    · rintro (h | ⟨g, hg, h⟩)
      · exact Or.inl (Or.inr (Or.inl h))
      · rcases List.mem_cons.mp hg with rfl | hg
        · rcases h with h | h
          · exact Or.inl (Or.inl h)
          · exact Or.inl (Or.inr (Or.inr h))
        · exact Or.inr ⟨g, hg, h⟩

/-! ## The shape of a place -/

variable (bit w)

/-- The bits of `k` lead from the root through the frames to the hole. -/
def Leads (fs : List (Frame κ)) (k : κ) : Prop :=
  ∀ f ∈ fs, Agree bit f.len f.stem k ∧ bit k f.len = f.large

/-- Everything around the hole is ordered. -/
def Framed : List (Frame κ) → Prop
  | [] => True
  | f :: fs =>
    f.len < f.other.len w ∧ Ordered bit w f.other ∧
    (∀ k ∈ f.other.keys, Agree bit f.len f.stem k ∧ bit k f.len = !f.large) ∧
    (∀ k ∈ f.other.keys, Leads bit fs k) ∧
    (∀ g ∈ fs, g.len < f.len) ∧ Framed fs

/-- `t` may stand in the hole. -/
structure Fits (fs : List (Frame κ)) (t : Trie κ) : Prop where
  ordered : Ordered bit w t
  leads : ∀ k ∈ t.keys, Leads bit fs k
  deep : ∀ f ∈ fs, f.len < t.len w

variable {bit w}

theorem Leads.tail {f : Frame κ} {fs : List (Frame κ)} {k : κ} (h : Leads bit (f :: fs) k) :
    Leads bit fs k := fun g hg => h g (List.mem_cons_of_mem _ hg)

theorem Framed.tail {f : Frame κ} {fs : List (Frame κ)} (h : Framed bit w (f :: fs)) :
    Framed bit w fs := h.2.2.2.2.2

theorem Fits.fill {f : Frame κ} {fs : List (Frame κ)} {t : Trie κ} (hf : Framed bit w (f :: fs))
    (h : Fits bit w (f :: fs) t) : Fits bit w fs (f.fill t) where
  ordered := by
    rw [Frame.ordered_fill]
    exact ⟨h.deep f List.mem_cons_self, hf.1, fun k hk => h.leads k hk f List.mem_cons_self,
      hf.2.2.1, h.ordered, hf.2.1⟩
  leads := by
    intro k hk
    rw [Frame.mem_keys_fill] at hk
    rcases hk with hk | hk
    · exact (h.leads k hk).tail
    · exact hf.2.2.2.1 k hk
  deep := by
    intro g hg
    rw [Frame.len_fill]
    exact hf.2.2.2.2.1 g hg

theorem Fits.rehash (H : κ → κ → κ) {f : Frame κ} {fs : List (Frame κ)} {t : Trie κ}
    (hf : Framed bit w (f :: fs)) (h : Fits bit w (f :: fs) t) : Fits bit w fs (f.rehash H t) where
  ordered := (Frame.ordered_rehash H f t).mpr (h.fill hf).ordered
  leads := by
    intro k hk
    apply (h.fill hf).leads k
    rw [Frame.rehash, Frame.mem_keys_fill] at hk
    rw [Frame.mem_keys_fill]
    exact hk
  deep := by
    intro g hg
    unfold Frame.rehash
    rw [Frame.len_fill]
    exact hf.2.2.2.2.1 g hg

theorem Fits.of_fill {f : Frame κ} {fs : List (Frame κ)} {t : Trie κ} (hf : Framed bit w fs)
    (h : Fits bit w fs (f.fill t)) : Framed bit w (f :: fs) ∧ Fits bit w (f :: fs) t := by
  obtain ⟨h1, h2, h3, h4, h5, h6⟩ := (Frame.ordered_fill f t).mp h.ordered
  have hdeep : ∀ g ∈ fs, g.len < f.len := fun g hg => by
    have := h.deep g hg; rwa [Frame.len_fill] at this
  refine ⟨⟨h2, h6, h4, fun k hk => h.leads k ((Frame.mem_keys_fill _ _ _).mpr (Or.inr hk)), hdeep,
    hf⟩, h5, fun k hk g hg => ?_, fun g hg => ?_⟩
  · rcases List.mem_cons.mp hg with rfl | hg
    · exact h3 k hk
    · exact h.leads k ((Frame.mem_keys_fill _ _ _).mpr (Or.inl hk)) g hg
  · rcases List.mem_cons.mp hg with rfl | hg
    · exact h1
    · have := hdeep g hg; omega

theorem ordered_plug_of_fits {fs : List (Frame κ)} {t : Trie κ} (hf : Framed bit w fs)
    (h : Fits bit w fs t) : Ordered bit w (plug fs t) := by
  induction fs generalizing t with
  | nil => exact h.ordered
  | cons f fs ih => exact ih hf.tail (h.fill hf)

theorem ordered_plug (fs : List (Frame κ)) (t : Trie κ) :
    Ordered bit w (plug fs t) ↔ Framed bit w fs ∧ Fits bit w fs t := by
  constructor
  · intro h
    induction fs generalizing t with
    | nil => exact ⟨trivial, h, fun _ _ => by simp [Leads], by simp⟩
    | cons f fs ih =>
      obtain ⟨hf, ht⟩ := ih (f.fill t) h
      exact ht.of_fill hf
  · rintro ⟨hf, h⟩
    exact ordered_plug_of_fits hf h

theorem ordered_rebuild (H : κ → κ → κ) {fs : List (Frame κ)} {t : Trie κ} (hf : Framed bit w fs)
    (h : Fits bit w fs t) : Ordered bit w (rebuild H fs t) := by
  induction fs generalizing t with
  | nil => exact h.ordered
  | cons f fs ih => exact ih hf.tail (h.rehash H hf)

/-- There are at most `w` frames around a hole. -/
theorem Fits.length_le {fs : List (Frame κ)} {t : Trie κ} (hf : Framed bit w fs)
    (h : Fits bit w fs t) : fs.length ≤ t.len w := by
  induction fs generalizing t with
  | nil => exact Nat.zero_le _
  | cons f fs ih =>
    have h1 := ih hf.tail (h.fill hf)
    have h2 := h.deep f List.mem_cons_self
    rw [Frame.len_fill] at h1
    rw [List.length_cons]
    omega

/-- The stem of what stands in the hole leads there itself. -/
theorem Fits.leads_stem {fs : List (Frame κ)} {t : Trie κ} (h : Fits bit w fs t) :
    Leads bit fs t.stem := by
  obtain ⟨k, hk⟩ := t.exists_mem_keys
  intro f hf
  have hs := h.ordered.agree_stem k hk
  have hd := h.deep f hf
  obtain ⟨ha, hb⟩ := h.leads k hk f hf
  exact ⟨ha.trans (hs.symm.mono (by omega)), by rw [hs f.len hd]; exact hb⟩

/-- Two keys that lead to the hole agree beyond every frame. -/
theorem Leads.agree {fs : List (Frame κ)} {a b : κ} (ha : Leads bit fs a) (hb : Leads bit fs b) :
    ∀ f ∈ fs, Agree bit (f.len + 1) a b := by
  intro f hf i hi
  rcases Nat.lt_succ_iff_lt_or_eq.mp hi with hi | rfl
  · rw [← (ha f hf).1 i hi, ← (hb f hf).1 i hi]
  · rw [(ha f hf).2, (hb f hf).2]

/-! ## Splitting a subtrie in front of a new key -/

/-- The node above `t` and the new leaf `k`, which differ first at bit `c`. -/
def split (bit : κ → Nat → Bool) (H : κ → κ → κ) (c : Nat) (t : Trie κ) (k : κ) : Trie κ :=
  if bit k c then .node (H t.label k) t.stem c false t (.leaf k)
  else .node (H k t.label) t.stem c false (.leaf k) t

theorem mem_keys_split (H : κ → κ → κ) (c : Nat) (t : Trie κ) (k x : κ) :
    x ∈ (split bit H c t k).keys ↔ x = k ∨ x ∈ t.keys := by
  unfold split; split <;> simp [Trie.keys, or_comm]

theorem mem_labels_split (H : κ → κ → κ) (c : Nat) (t : Trie κ) (k x : κ) :
    x ∈ (split bit H c t k).labels ↔
      x = (split bit H c t k).label ∨ x = k ∨ x ∈ t.labels := by
  unfold split; split <;> simp [Trie.labels, Trie.label, or_comm]

@[simp] theorem stem_split (H : κ → κ → κ) (c : Nat) (t : Trie κ) (k : κ) :
    (split bit H c t k).stem = t.stem := by
  unfold split; split <;> rfl

@[simp] theorem len_split (H : κ → κ → κ) (c : Nat) (t : Trie κ) (k : κ) :
    (split bit H c t k).len w = c := by
  unfold split; split <;> rfl

theorem Fits.split (H : κ → κ → κ) {fs : List (Frame κ)} {t : Trie κ} {k : κ} {c : Nat}
    (h : Fits bit w fs t) (hk : Leads bit fs k) (hc : c < t.len w) (ha : Agree bit c t.stem k)
    (hd : bit t.stem c ≠ bit k c) : Fits bit w fs (BitTrie.split bit H c t k) where
  ordered := by
    have hcw : c < w := by have := h.ordered.len_le; omega
    have hold : ∀ x ∈ t.keys, Agree bit c t.stem x ∧ bit x c = bit t.stem c := fun x hx =>
      ⟨(h.ordered.agree_stem x hx).mono (by omega), (h.ordered.agree_stem x hx c hc).symm⟩
    unfold BitTrie.split
    cases hb : bit k c
    · rw [hb] at hd
      have ht : bit t.stem c = true := by simpa using hd
      refine ⟨hcw, hc, fun x hx => ?_, fun x hx => ?_, trivial, h.ordered⟩
      · simp only [Trie.keys, List.mem_singleton] at hx; subst hx; exact ⟨ha, hb⟩
      · exact ⟨(hold x hx).1, (hold x hx).2.trans ht⟩
    · rw [hb] at hd
      have ht : bit t.stem c = false := by simpa using hd
      refine ⟨hc, hcw, fun x hx => ?_, fun x hx => ?_, h.ordered, trivial⟩
      · exact ⟨(hold x hx).1, (hold x hx).2.trans ht⟩
      · simp only [Trie.keys, List.mem_singleton] at hx; subst hx; exact ⟨ha, hb⟩
  leads := by
    intro x hx
    rcases (mem_keys_split H c t k x).mp hx with rfl | hx
    · exact hk
    · exact h.leads x hx
  deep := by
    intro f hf
    rw [len_split]
    -- the key and the stem both lead through `f`, so they still agree on its bit
    apply Classical.byContradiction
    intro hle
    exact hd (h.leads_stem.agree hk f hf c (by omega))

end BitTrie
