import Mathlib.Algebra.Order.BigOperators.Group.Finset

/-!
# Counting filters

Keys are hashed to lists of positions; each position has a cell and a bit.  Adding a key lets the cell
of each of its positions grow by `w`.  Removing it takes 1 from a cell of at least `2 * w`; a smaller
one is emptied, and then its bit may go.  Cells may keep too much, but never too little:

    Covers pos S F        each cell has `w` for each hit by a key of S, and the bits hit are set
    Covering m ps F       the same for hits `m` that stay, while removals at `ps` are still to be done

    adding            Covers S F → Covers (insert k S) F'                             (Covers.add)
    one removal       Covering m (p :: ps) F → Covering m ps F'                (Covering.removes)
-/

namespace CountingFilter

variable {κ P : Type} [DecidableEq P]

structure Cells (P : Type) where
  cell : P → Nat
  bit : P → Prop

/-- How often the position `p` is hit by the keys of `S`. -/
def load (pos : κ → List P) (S : Finset κ) (p : P) : Nat := ∑ k ∈ S, (pos k).count p

structure Covers (w : Nat) (pos : κ → List P) (S : Finset κ) (F : Cells P) : Prop where
  cells : ∀ p, w * load pos S p ≤ F.cell p
  bits : ∀ p, load pos S p ≠ 0 → F.bit p

structure Covering (w : Nat) (m : P → Nat) (ps : List P) (F : Cells P) : Prop where
  cells : ∀ p, w * (m p + ps.count p) ≤ F.cell p
  bits : ∀ p, m p ≠ 0 → F.bit p

/-- Something was added at each of the positions. -/
structure Adds (w : Nat) (ps : List P) (F F' : Cells P) : Prop where
  cell : ∀ p, F'.cell p = F.cell p + w * ps.count p
  bit : ∀ p, F'.bit p ↔ F.bit p ∨ p ∈ ps

/-- Something was removed at the position. -/
structure Removes (w : Nat) (p : P) (F F' : Cells P) : Prop where
  cell : F'.cell p = if F.cell p < 2 * w then 0 else F.cell p - 1
  other : ∀ q, q ≠ p → F'.cell q = F.cell q
  bit : ∀ q, F.bit q → F'.bit q ∨ q = p ∧ F.cell p < 2 * w

variable {w : Nat} {pos : κ → List P} {S : Finset κ} {F F' : Cells P}

theorem load_empty (p : P) : load pos ∅ p = 0 := Finset.sum_empty

theorem load_ne_zero {k : κ} {p : P} (hk : k ∈ S) (hp : p ∈ pos k) : load pos S p ≠ 0 :=
  Nat.pos_iff_ne_zero.mp (Nat.lt_of_lt_of_le (List.count_pos_iff.mpr hp)
    (Finset.single_le_sum_of_canonicallyOrdered (f := fun k => (pos k).count p) hk))

theorem Covers.bit_of_mem (h : Covers w pos S F) {k : κ} (hk : k ∈ S) {p : P} (hp : p ∈ pos k) :
    F.bit p := h.bits p (load_ne_zero hk hp)

theorem covers_empty : Covers w pos ∅ F :=
  ⟨fun p => by rw [load_empty]; exact Nat.zero_le _, fun p hp => absurd (load_empty p) hp⟩

/-! ## Removing at one position -/

/-- An emptied cell is hit by nothing that stays. -/
theorem eq_zero_of_small {m n : Nat} (h : w * (m + 1) ≤ n) (hn : n < 2 * w) : m = 0 := by
  rw [Nat.mul_add, Nat.mul_one] at h
  rcases Nat.eq_zero_or_pos m with rfl | hm
  · rfl
  · have := Nat.le_mul_of_pos_right w hm
    omega

theorem Covering.removes (hw : 0 < w) {m : P → Nat} {p : P} {ps : List P}
    (h : Covering w m (p :: ps) F) (hr : Removes w p F F') : Covering w m ps F' := by
  have hp := h.cells p
  rw [List.count_cons_self] at hp
  refine ⟨fun q => ?_, fun q hq => ?_⟩
  · by_cases hqp : q = p
    · subst hqp
      rw [hr.cell]
      rw [← Nat.add_assoc] at hp
      by_cases hsmall : F.cell q < 2 * w
      · rw [if_pos hsmall, eq_zero_of_small hp hsmall, Nat.mul_zero]
      · rw [if_neg hsmall]
        rw [Nat.mul_add, Nat.mul_one] at hp
        omega
    · have hq := h.cells q
      rw [List.count_cons_of_ne (Ne.symm hqp)] at hq
      rw [hr.other q hqp]
      exact hq
  · rcases hr.bit q (h.bits q hq) with hbit | ⟨rfl, hsmall⟩
    · exact hbit
    · -- the cell is emptied, so nothing hits it any more
      have hzero := eq_zero_of_small (by rw [← Nat.add_assoc] at hp; exact hp) hsmall
      omega

theorem Covering.covers (h : Covering w (load pos S) [] F) : Covers w pos S F :=
  ⟨h.cells, h.bits⟩

/-! ## Keys -/

variable [DecidableEq κ]

theorem load_insert {k : κ} (hk : k ∉ S) (p : P) :
    load pos (insert k S) p = (pos k).count p + load pos S p := Finset.sum_insert hk

theorem load_erase {k : κ} (hk : k ∈ S) (p : P) :
    load pos S p = load pos (S.erase k) p + (pos k).count p :=
  (Finset.sum_erase_add S _ hk).symm

theorem Covers.add {k : κ} (hk : k ∉ S) (h : Covers w pos S F) (ha : Adds w (pos k) F F') :
    Covers w pos (insert k S) F' := by
  refine ⟨fun p => ?_, fun p hp => ?_⟩
  · have := h.cells p
    rw [load_insert hk, ha.cell, Nat.mul_add]
    omega
  · rw [ha.bit]
    rw [load_insert hk] at hp
    by_cases hpk : p ∈ pos k
    · exact Or.inr hpk
    · rw [List.count_eq_zero.mpr hpk, Nat.zero_add] at hp
      exact Or.inl (h.bits p hp)

/-- Before the removals of a key. -/
theorem Covers.covering {k : κ} (hk : k ∈ S) (h : Covers w pos S F) :
    Covering w (load pos (S.erase k)) (pos k) F := by
  refine ⟨fun p => ?_, fun p hp => h.bits p ?_⟩
  · rw [← load_erase hk]
    exact h.cells p
  · rw [load_erase hk]
    omega

end CountingFilter
