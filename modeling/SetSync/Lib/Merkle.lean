import Mathlib.Data.Set.Insert
import SetSync.Lib.Addressed

/-!
# Merkle labels

A trie is `Hashed` when every inner node is labelled by the hash of its children's labels.  Such a
label fixes the keys below it (`Hashed.keys_eq`), and the label of an ordered trie is a function of
its keys alone: `MerkleRoot S x` says that `x` is the hash of the path-compressed binary trie over
the set `S`, with no trie in the definition.

    Ordered t → Hashed t → MerkleRoot {k | k ∈ t.keys} t.label              (Hashed.merkleRoot)
    MerkleRoot S x → MerkleRoot S y → x = y                                 (MerkleRoot.unique)
    the pairs of an up-to-date trie are those of its keys                   (Hashed.merklePair)
-/

namespace BitTrie

variable {κ : Type} {bit : κ → Nat → Bool} {w : Nat} {H : κ → κ → κ} {P : κ → κ → Prop}
  {K : κ → Prop}

/-! ## Hashed tries -/

/-- Inner nodes carry the hash of a pair in `P`, leaves are keys of `K`, nothing is stale. -/
def Hashed (H : κ → κ → κ) (P : κ → κ → Prop) (K : κ → Prop) : Trie κ → Prop
  | .leaf k => K k
  | .node h _ _ s l r =>
    h = H l.label r.label ∧ P l.label r.label ∧ s = false ∧ Hashed H P K l ∧ Hashed H P K r

theorem Hashed.mono {P' : κ → κ → Prop} {K' : κ → Prop} (hP : ∀ x y, P x y → P' x y)
    (hK : ∀ k, K k → K' k) {t : Trie κ} (h : Hashed H P K t) : Hashed H P' K' t := by
  induction t with
  | leaf k => exact hK _ h
  | node lab p m s l r ihl ihr =>
    obtain ⟨he, hp, hs, hl, hr⟩ := h
    exact ⟨he, hP _ _ hp, hs, ihl hl, ihr hr⟩

theorem Hashed.placed {t : Trie κ} (ho : Ordered bit w t) (h : Hashed H P K t) :
    Placed bit w H P K t := by
  induction t with
  | leaf k => exact h
  | node lab p m s l r ihl ihr =>
    obtain ⟨hl, hr, hls, hrs, hol, hor⟩ := ho
    obtain ⟨rfl, hp, rfl, hhl, hhr⟩ := h
    have hpl := ihl hol hhl
    have hpr := ihr hor hhr
    obtain ⟨a, ha⟩ := l.exists_mem_keys
    obtain ⟨b, hb⟩ := r.exists_mem_keys
    have hla : Agree bit (m + 1) l.stem a := (hol.agree_stem a ha).mono (by omega)
    have hrb : Agree bit (m + 1) r.stem b := (hor.agree_stem b hb).mono (by omega)
    refine ⟨.pair hp hpl.sits hpr.sits hl hr ?_ ?_ ?_, hpl, hpr⟩
    · exact ((hla.mono (by omega)).trans (hls a ha).1.symm).trans
        ((hrs b hb).1.trans (hrb.mono (by omega)).symm)
    · rw [hla m (by omega), hrb m (by omega), (hls a ha).2, (hrs b hb).2]
      decide
    · exact (hls a ha).1.trans (hla.mono (by omega)).symm

theorem hashed_fill (f : Frame κ) (t : Trie κ) :
    Hashed H P K (f.fill t) ↔
      f.label = H (f.children t.label).1 (f.children t.label).2 ∧
      P (f.children t.label).1 (f.children t.label).2 ∧ f.stale = false ∧
      Hashed H P K t ∧ Hashed H P K f.other := by
  unfold Frame.fill Frame.children
  split
  · simp only [Hashed]; tauto
  · simp only [Hashed]

theorem hashed_rehash (f : Frame κ) (t : Trie κ) :
    Hashed H P K (f.rehash H t) ↔
      P (f.children t.label).1 (f.children t.label).2 ∧ Hashed H P K t ∧ Hashed H P K f.other := by
  unfold Frame.rehash
  rw [hashed_fill]
  exact ⟨fun h => ⟨h.2.1, h.2.2.2.1, h.2.2.2.2⟩, fun h => ⟨rfl, h.1, rfl, h.2.1, h.2.2⟩⟩

theorem Hashed.of_plug {fs : List (Frame κ)} {t : Trie κ} (h : Hashed H P K (plug fs t)) :
    Hashed H P K t := by
  induction fs generalizing t with
  | nil => exact h
  | cons f fs ih => exact ((hashed_fill f t).mp (ih h)).2.2.2.1

theorem Hashed.keys {t : Trie κ} (h : Hashed H P K t) : ∀ k ∈ t.keys, K k := by
  induction t with
  | leaf k => intro k' hk'; simp only [Trie.keys, List.mem_singleton] at hk'; subst hk'; exact h
  | node lab p m s l r ihl ihr =>
    intro k hk
    rcases List.mem_append.mp hk with hk | hk
    · exact ihl h.2.2.2.1 k hk
    · exact ihr h.2.2.2.2 k hk

/-- **A label fixes the keys below it.** -/
theorem Hashed.keys_eq (hs : Separated H P K) {t t' : Trie κ} (h : Hashed H P K t)
    (h' : Hashed H P K t') (hl : t.label = t'.label) : t.keys = t'.keys := by
  induction t generalizing t' with
  | leaf k =>
    cases t' with
    | leaf k' => simp only [Trie.label] at hl; rw [hl]
    | node lab p m s l r =>
      simp only [Trie.label] at hl
      exact absurd (hl.trans h'.1).symm (hs.fresh h h'.2.1)
  | node lab p m s l r ihl ihr =>
    cases t' with
    | leaf k' =>
      simp only [Trie.label] at hl
      exact absurd (h.1.symm.trans hl) (hs.fresh h' h.2.1)
    | node lab' p' m' s' l' r' =>
      simp only [Trie.label] at hl
      obtain ⟨h1, h2⟩ := hs.inj h.2.1 h'.2.1 (h.1.symm.trans (hl.trans h'.1))
      rw [Trie.keys, Trie.keys, ihl h.2.2.2.1 h'.2.2.2.1 h1, ihr h.2.2.2.2 h'.2.2.2.2 h2]

/-- A label names a subtrie. -/
theorem exists_plug_of_mem_labels {t : Trie κ} {x : κ} (h : x ∈ t.labels) :
    ∃ fs s, t = plug fs s ∧ s.label = x := by
  have go : ∀ (t : Trie κ) (gs : List (Frame κ)), x ∈ t.labels →
      ∃ fs s, plug gs t = plug fs s ∧ s.label = x := by
    intro t
    induction t with
    | leaf k =>
      intro gs h
      simp only [Trie.labels, List.mem_singleton] at h
      exact ⟨gs, .leaf k, rfl, h.symm⟩
    | node lab p m s l r ihl ihr =>
      intro gs h
      simp only [Trie.labels, List.mem_cons, List.mem_append] at h
      rcases h with h | h | h
      · exact ⟨gs, .node lab p m s l r, rfl, h.symm⟩
      · exact ihl (⟨lab, p, m, s, false, r⟩ :: gs) h
      · exact ihr (⟨lab, p, m, s, true, l⟩ :: gs) h
  exact go t [] h

/-- A key names its leaf. -/
theorem exists_plug_of_mem_keys {t : Trie κ} {k : κ} (h : k ∈ t.keys) :
    ∃ fs, t = plug fs (.leaf k) := by
  have go : ∀ (t : Trie κ) (gs : List (Frame κ)), k ∈ t.keys →
      ∃ fs, plug gs t = plug fs (.leaf k) := by
    intro t
    induction t with
    | leaf k' =>
      intro gs h
      simp only [Trie.keys, List.mem_singleton] at h
      exact ⟨gs, by rw [h]⟩
    | node lab p m s l r ihl ihr =>
      intro gs h
      simp only [Trie.keys, List.mem_append] at h
      rcases h with h | h
      · exact ihl (⟨lab, p, m, s, false, r⟩ :: gs) h
      · exact ihr (⟨lab, p, m, s, true, l⟩ :: gs) h
  exact go t [] h

/-! ## The hash of a set of keys -/

/-- `x` is the Merkle hash of the path-compressed trie over `S`: a single key is its own hash,
other sets split at the first bit on which their keys differ. -/
inductive MerkleRoot (bit : κ → Nat → Bool) (H : κ → κ → κ) : Set κ → κ → Prop
  | single {S : Set κ} {k : κ} : S = {k} → MerkleRoot bit H S k
  | pair {S : Set κ} {c : Nat} {x y : κ} : (∀ a ∈ S, ∀ b ∈ S, Agree bit c a b) →
      MerkleRoot bit H {k | k ∈ S ∧ bit k c = false} x →
      MerkleRoot bit H {k | k ∈ S ∧ bit k c = true} y → MerkleRoot bit H S (H x y)

theorem MerkleRoot.exists_mem {S : Set κ} {x : κ} (h : MerkleRoot bit H S x) : ∃ k, k ∈ S := by
  induction h with
  | @single S k hS => exact ⟨k, by rw [hS]; exact Set.mem_singleton k⟩
  | pair _ _ _ ih1 _ => exact ⟨_, ih1.choose_spec.1⟩

theorem MerkleRoot.unique {S : Set κ} {x y : κ} (h : MerkleRoot bit H S x)
    (h' : MerkleRoot bit H S y) : x = y := by
  induction h generalizing y with
  | @single S k hS =>
    cases h' with
    | single hS' => rw [hS] at hS'; exact Set.singleton_eq_singleton_iff.mp hS'
    | pair ha h1 h2 =>
      obtain ⟨a, ha1, ha2⟩ := h1.exists_mem
      obtain ⟨b, hb1, hb2⟩ := h2.exists_mem
      rw [hS] at ha1 hb1
      rw [ha1.trans hb1.symm, hb2] at ha2
      cases ha2
  | @pair S c x y ha h1 h2 ih1 ih2 =>
    obtain ⟨a, ha1, ha2⟩ := h1.exists_mem
    obtain ⟨b, hb1, hb2⟩ := h2.exists_mem
    cases h' with
    | single hS' =>
      rw [hS'] at ha1 hb1
      rw [ha1.trans hb1.symm, hb2] at ha2
      cases ha2
    | @pair _ c' x' y' ha' h1' h2' =>
      obtain ⟨a', ha1', ha2'⟩ := h1'.exists_mem
      obtain ⟨b', hb1', hb2'⟩ := h2'.exists_mem
      -- both split at the first bit on which the keys of `S` differ
      have hc : c = c' := by
        rcases Nat.lt_trichotomy c c' with hlt | heq | hlt
        · have := ha' a ha1 b hb1 c hlt
          rw [ha2, hb2] at this; cases this
        · exact heq
        · have := ha a' ha1' b' hb1' c' hlt
          rw [ha2', hb2'] at this; cases this
      subst hc
      rw [ih1 h1', ih2 h2']

/-- Of the keys of a node, the smaller child has those with bit `len` off. -/
theorem Ordered.smaller_keys {lab p : κ} {m : Nat} {s : Bool} {l r : Trie κ}
    (ho : Ordered bit w (.node lab p m s l r)) :
    {k | k ∈ {k | k ∈ (Trie.node lab p m s l r).keys} ∧ bit k m = false} = {k | k ∈ l.keys} := by
  obtain ⟨_, _, hls, hrs, _, _⟩ := ho
  ext k
  simp only [Set.mem_ofPred_eq, Trie.keys, List.mem_append]
  constructor
  · rintro ⟨hk | hk, hb⟩
    · exact hk
    · rw [(hrs k hk).2] at hb; cases hb
  · intro hk; exact ⟨Or.inl hk, (hls k hk).2⟩

theorem Ordered.larger_keys {lab p : κ} {m : Nat} {s : Bool} {l r : Trie κ}
    (ho : Ordered bit w (.node lab p m s l r)) :
    {k | k ∈ {k | k ∈ (Trie.node lab p m s l r).keys} ∧ bit k m = true} = {k | k ∈ r.keys} := by
  obtain ⟨_, _, hls, hrs, _, _⟩ := ho
  ext k
  simp only [Set.mem_ofPred_eq, Trie.keys, List.mem_append]
  constructor
  · rintro ⟨hk | hk, hb⟩
    · rw [(hls k hk).2] at hb; cases hb
    · exact hk
  · intro hk; exact ⟨Or.inr hk, (hrs k hk).2⟩

/-- All keys of a node agree before bit `len`. -/
theorem Ordered.keys_agree {lab p : κ} {m : Nat} {s : Bool} {l r : Trie κ}
    (ho : Ordered bit w (.node lab p m s l r)) :
    ∀ a ∈ (Trie.node lab p m s l r).keys, ∀ b ∈ (Trie.node lab p m s l r).keys, Agree bit m a b :=
  fun a ha b hb => (ho.agree_stem a ha).symm.trans (ho.agree_stem b hb)

theorem Hashed.merkleRoot {t : Trie κ} (ho : Ordered bit w t) (h : Hashed H P K t) :
    MerkleRoot bit H {k | k ∈ t.keys} t.label := by
  induction t with
  | leaf k => exact .single (by ext x; simp [Trie.keys, Trie.label])
  | node lab p m s l r ihl ihr =>
    obtain ⟨rfl, _, _, hhl, hhr⟩ := h
    refine .pair (c := m) ho.keys_agree ?_ ?_
    · rw [ho.smaller_keys]; exact ihl ho.2.2.2.2.1 hhl
    · rw [ho.larger_keys]; exact ihr ho.2.2.2.2.2 hhr

/-- The pairs that are hashed for the Merkle hash of `S`. -/
inductive MerklePair (bit : κ → Nat → Bool) (H : κ → κ → κ) : Set κ → κ → κ → Prop
  | split {S : Set κ} {c : Nat} {x y : κ} : (∀ a ∈ S, ∀ b ∈ S, Agree bit c a b) →
      MerkleRoot bit H {k | k ∈ S ∧ bit k c = false} x →
      MerkleRoot bit H {k | k ∈ S ∧ bit k c = true} y → MerklePair bit H S x y
  | inside {S : Set κ} {c : Nat} (side : Bool) {x y : κ} : (∀ a ∈ S, ∀ b ∈ S, Agree bit c a b) →
      MerklePair bit H {k | k ∈ S ∧ bit k c = side} x y → MerklePair bit H S x y

/-- Two keys are hashed as one pair. -/
theorem MerklePair.of_two {S : Set κ} {x y a b : κ} (h : MerklePair bit H S x y)
    (hS : ∀ k ∈ S, k = a ∨ k = b) : (x = a ∧ y = b) ∨ (x = b ∧ y = a) := by
  induction h with
  | @split S c x y _ hx hy =>
    -- each side has one key only
    have side : ∀ {p q : κ} {v : Bool} {z : κ}, p ∈ S → q ∈ S → bit p c = v → bit q c ≠ v →
        MerkleRoot bit H {k | k ∈ S ∧ bit k c = v} z → z = p := by
      intro p q v z hp hq hpv hqv hz
      refine hz.unique (.single (Set.ext fun k => ⟨?_, ?_⟩))
      · rintro ⟨hk, hkv⟩
        have hkq : k ≠ q := fun he => hqv (he ▸ hkv)
        have hpq : p ≠ q := fun he => hqv (he ▸ hpv)
        have hk' := hS k hk
        have hp' := hS p hp
        have hq' := hS q hq
        grind
      · rintro rfl
        exact ⟨hp, hpv⟩
    obtain ⟨p, hp, hpc⟩ := hx.exists_mem
    obtain ⟨q, hq, hqc⟩ := hy.exists_mem
    obtain rfl := side hp hq hpc (by rw [hqc]; decide) hx
    obtain rfl := side hq hp hqc (by rw [hpc]; decide) hy
    have hne : x ≠ y := by
      rintro rfl
      rw [hpc] at hqc
      cases hqc
    rcases hS x hp with rfl | rfl <;> rcases hS y hq with rfl | rfl
    · exact absurd rfl hne
    · exact Or.inl ⟨rfl, rfl⟩
    · exact Or.inr ⟨rfl, rfl⟩
    · exact absurd rfl hne
  | inside _ _ _ ih => exact ih fun k hk => hS k hk.1

/-- An up-to-date trie hashes just these pairs. -/
theorem Hashed.merklePair {t : Trie κ} (ho : Ordered bit w t) (h : Hashed H P K t) :
    Hashed H (MerklePair bit H {k | k ∈ t.keys}) (· ∈ t.keys) t := by
  induction t with
  | leaf k => exact Trie.mem_keys_leaf k
  | node lab p m s l r ihl ihr =>
    obtain ⟨rfl, _, rfl, hhl, hhr⟩ := h
    have hagree := ho.keys_agree
    have hol := ho.2.2.2.2.1
    have hor := ho.2.2.2.2.2
    refine ⟨rfl, .split hagree ?_ ?_, rfl, (ihl hol hhl).mono ?_ fun k hk => List.mem_append_left _ hk,
      (ihr hor hhr).mono ?_ fun k hk => List.mem_append_right _ hk⟩
    · rw [ho.smaller_keys]; exact hhl.merkleRoot hol
    · rw [ho.larger_keys]; exact hhr.merkleRoot hor
    · exact fun x y hp => .inside false hagree (ho.smaller_keys ▸ hp)
    · exact fun x y hp => .inside true hagree (ho.larger_keys ▸ hp)

/-- The keys also fix how far they all agree. -/
theorem Ordered.len_eq {t t' : Trie κ} (h : Ordered bit w t) (h' : Ordered bit w t')
    (hk : ∀ k, k ∈ t.keys ↔ k ∈ t'.keys) : t.len w = t'.len w := by
  -- a node has two keys that differ at its bit
  have inner : ∀ {lab p : κ} {m : Nat} {s : Bool} {l r : Trie κ},
      Ordered bit w (.node lab p m s l r) → ∃ a ∈ (Trie.node lab p m s l r).keys,
        ∃ b ∈ (Trie.node lab p m s l r).keys, bit a m ≠ bit b m := by
    intro lab p m s l r ho
    obtain ⟨a, ha⟩ := l.exists_mem_keys
    obtain ⟨b, hb⟩ := r.exists_mem_keys
    refine ⟨a, List.mem_append_left _ ha, b, List.mem_append_right _ hb, ?_⟩
    rw [(ho.2.2.1 a ha).2, (ho.2.2.2.1 b hb).2]
    decide
  have le : ∀ {t t' : Trie κ}, Ordered bit w t → Ordered bit w t' →
      (∀ k, k ∈ t.keys ↔ k ∈ t'.keys) → t.len w ≤ t'.len w := by
    intro t t' h h' hk
    cases t' with
    | leaf k => exact h.len_le
    | node lab p m s l r =>
      obtain ⟨a, ha, b, hb, hab⟩ := inner h'
      apply Classical.byContradiction
      intro hlt
      have hm : m < t.len w := by simpa [Trie.len] using hlt
      exact hab (((h.agree_stem a ((hk a).mpr ha)).symm.trans (h.agree_stem b ((hk b).mpr hb))) m hm)
  exact Nat.le_antisymm (le h h' hk) (le h' h fun k => (hk k).symm)

end BitTrie
