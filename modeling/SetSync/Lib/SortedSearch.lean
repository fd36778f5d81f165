import Mathlib.Order.Lattice
import Mathlib.Data.List.Basic

/-!
# The first failure in a sorted list

Where a sorted list is searched for an element that fails a test, the index found is the number of the
elements below the least one that fails.

    findIdx ≤ rank      of any element that fails                           (findIdx_le_countP)
    rank ≤ findIdx      of the element found                         (exists_countP_le_findIdx)
-/

namespace SortedSearch

variable {α : Type} [LinearOrder α] {l : List α} {fails : α → Bool}

theorem findIdx_le_countP (h : l.Pairwise (· ≤ ·)) {p : α} (hp : p ∈ l) (hf : fails p = true) :
    l.findIdx fails ≤ l.countP (· < p) := by
  induction l with
  | nil => cases hp
  | cons x l ih =>
    rw [List.findIdx_cons]
    cases hx : fails x with
    | true => exact Nat.zero_le _
    | false =>
      have hne : p ≠ x := by
        rintro rfl
        rw [hf] at hx
        cases hx
      have hmem : p ∈ l := (List.mem_cons.mp hp).resolve_left hne
      have hlt : x < p := lt_of_le_of_ne ((List.pairwise_cons.mp h).1 p hmem) hne.symm
      have hle := ih (List.pairwise_cons.mp h).2 hmem
      rw [List.countP_cons_of_pos (by simpa using hlt)]
      exact Nat.succ_le_succ hle

theorem exists_countP_le_findIdx (h : l.Pairwise (· ≤ ·)) (hf : ∃ p ∈ l, fails p = true) :
    ∃ p ∈ l, fails p = true ∧ l.countP (· < p) ≤ l.findIdx fails := by
  induction l with
  | nil =>
    obtain ⟨p, hp, -⟩ := hf
    cases hp
  | cons x l ih =>
    rw [List.findIdx_cons]
    obtain ⟨hx, hl⟩ := List.pairwise_cons.mp h
    cases hfx : fails x with
    | true =>
      refine ⟨x, List.mem_cons_self, hfx, ?_⟩
      rw [List.countP_eq_zero.mpr]
      · exact Nat.zero_le _
      · intro y hy hlt
        rcases List.mem_cons.mp hy with rfl | hy
        · exact absurd (of_decide_eq_true hlt) (lt_irrefl y)
        · exact absurd (of_decide_eq_true hlt) (not_lt_of_ge (hx y hy))
    | false =>
      have hf' : ∃ p ∈ l, fails p = true := by
        obtain ⟨p, hp, hpf⟩ := hf
        rcases List.mem_cons.mp hp with rfl | hp
        · rw [hpf] at hfx
          cases hfx
        · exact ⟨p, hp, hpf⟩
      obtain ⟨p, hp, hpf, hle⟩ := ih hl hf'
      refine ⟨p, List.mem_cons_of_mem x hp, hpf, ?_⟩
      rw [List.countP_cons]
      show _ ≤ l.findIdx fails + 1
      split <;> omega

/-- The search ends below `n` just when an element fails that has fewer than `n` elements below it. -/
theorem findIdx_lt_iff (h : l.Pairwise (· ≤ ·)) (hf : ∃ p ∈ l, fails p = true) (n : Nat) :
    l.findIdx fails < n ↔ ∃ p ∈ l, fails p = true ∧ l.countP (· < p) < n := by
  constructor
  · intro hlt
    obtain ⟨p, hp, hpf, hle⟩ := exists_countP_le_findIdx h hf
    exact ⟨p, hp, hpf, Nat.lt_of_le_of_lt hle hlt⟩
  · rintro ⟨p, hp, hpf, hlt⟩
    exact Nat.lt_of_le_of_lt (findIdx_le_countP h hp hpf) hlt

end SortedSearch
