import Mathlib.Data.List.Pairwise
import Mathlib.Data.List.Perm.Subperm
import Mathlib.Data.Set.Lattice
import Mathlib.Order.CompletePartialOrder
import Mathlib.Tactic.Common

/-!
# Splitting sets, and what was issued on the way

A search keeps disjoint sets that are still open.  It closes an open set, or splits it into disjoint
parts, and issues the parts.  Every issued set holds an open set whole or not at all, so a proper
part of an open set was not issued before.

    close   an open set goes                                                     (Laminar.of_subperm)
    split   an open set is replaced by its parts, which are issued                    (Laminar.split)
-/

namespace Splitting

variable {κ : Type}

/-- The open sets and the issued ones. -/
structure Laminar (opens issued : List (Set κ)) : Prop where
  nonempty : ∀ o ∈ opens, o.Nonempty
  disjoint : opens.Pairwise Disjoint
  nested : ∀ i ∈ issued, ∀ o ∈ opens, o ⊆ i ∨ Disjoint o i
  nodup : issued.Nodup

/-- Parts of the set `o`. -/
structure Parts (o : Set κ) (parts : List (Set κ)) : Prop where
  nonempty : ∀ p ∈ parts, p.Nonempty
  disjoint : parts.Pairwise Disjoint
  subset : ∀ p ∈ parts, p ⊆ o

variable {o : Set κ} {opens rest issued parts : List (Set κ)}

theorem pairwise_disjoint_perm {xs ys : List (Set κ)} (h : xs.Perm ys) :
    xs.Pairwise Disjoint ↔ ys.Pairwise Disjoint := h.pairwise_iff fun hab => hab.symm

theorem Parts.nodup (h : Parts o parts) : parts.Nodup := by
  refine h.disjoint.imp_of_mem ?_
  rintro p q hp - hpq rfl
  exact (h.nonempty p hp).ne_empty (disjoint_self.mp hpq)

/-- One of several parts is a proper part. -/
theorem Parts.ne_whole (h : Parts o parts) (htwo : 2 ≤ parts.length) : o ∉ parts := by
  intro ho
  obtain ⟨before, after, rfl⟩ := List.append_of_mem ho
  have hswap := (pairwise_disjoint_perm List.perm_middle).mp h.disjoint
  have hsome : before ++ after ≠ [] := by
    intro hnil
    obtain ⟨rfl, rfl⟩ := List.append_eq_nil_iff.mp hnil
    simp at htwo
  obtain ⟨p, hp⟩ := List.exists_mem_of_ne_nil _ hsome
  have hmem : p ∈ before ++ o :: after := by
    rcases List.mem_append.mp hp with hp | hp
    · exact List.mem_append_left _ hp
    · exact List.mem_append_right _ (List.mem_cons_of_mem o hp)
  -- the other part meets `o`
  have hdisj : Disjoint o p := (List.pairwise_cons.mp hswap).1 p hp
  obtain ⟨k, hk⟩ := h.nonempty p hmem
  exact Set.disjoint_left.mp hdisj (h.subset p hmem hk) hk

theorem Laminar.nil : Laminar ([] : List (Set κ)) [] where
  nonempty := by simp
  disjoint := .nil
  nested := by simp
  nodup := .nil

/-- The search begins with one set. -/
theorem Laminar.single (h : o.Nonempty) : Laminar [o] [] where
  nonempty := by simpa using h
  disjoint := List.pairwise_singleton _ _
  nested := by simp
  nodup := .nil

/-- Open sets are closed. -/
theorem Laminar.of_subperm {opens' : List (Set κ)} (h : Laminar opens issued)
    (hs : opens'.Subperm opens) : Laminar opens' issued where
  nonempty := fun p hp => h.nonempty p (hs.subset hp)
  disjoint := by
    obtain ⟨l, hperm, hsub⟩ := hs
    exact (pairwise_disjoint_perm hperm).mp (h.disjoint.sublist hsub)
  nested := fun i hi p hp => h.nested i hi p (hs.subset hp)
  nodup := h.nodup

/-- A part of an open set is not the part of another open set. -/
theorem Laminar.apart (h : Laminar (o :: rest) issued) (hparts : Parts o parts) :
    ∀ q ∈ rest, ∀ p ∈ parts, Disjoint q p := by
  intro q hq p hp
  have hoq : Disjoint o q := (List.pairwise_cons.mp h.disjoint).1 q hq
  exact (hoq.mono_left (hparts.subset p hp)).symm

/-- **A split.**  A set that was issued itself is split into several parts. -/
theorem Laminar.split (h : Laminar (o :: rest) issued) (hparts : Parts o parts)
    (hnew : o ∈ issued → 2 ≤ parts.length) : Laminar (rest ++ parts) (issued ++ parts) where
  nonempty := by
    intro p hp
    rcases List.mem_append.mp hp with hp | hp
    · exact h.nonempty p (List.mem_cons_of_mem o hp)
    · exact hparts.nonempty p hp
  disjoint := List.pairwise_append.mpr
    ⟨(List.pairwise_cons.mp h.disjoint).2, hparts.disjoint, h.apart hparts⟩
  nested := by
    intro i hi q hq
    rcases List.mem_append.mp hi with hi | hi <;> rcases List.mem_append.mp hq with hq | hq
    · exact h.nested i hi q (List.mem_cons_of_mem o hq)
    · -- an old set holds the parts of what it held
      rcases h.nested i hi o List.mem_cons_self with hsub | hdisj
      · exact Or.inl ((hparts.subset q hq).trans hsub)
      · exact Or.inr (hdisj.mono_left (hparts.subset q hq))
    · exact Or.inr (h.apart hparts q hq i hi)
    · by_cases heq : q = i
      · exact Or.inl (heq ▸ Set.Subset.refl q)
      · have hsymm : Std.Symm (Disjoint : Set κ → Set κ → Prop) := ⟨fun _ _ hab => hab.symm⟩
        exact Or.inr (hparts.disjoint.forall hq hi heq)
  nodup := by
    refine List.nodup_append.mpr ⟨h.nodup, hparts.nodup, ?_⟩
    rintro i hi p hp rfl
    -- an issued part of `o` would hold `o`
    rcases h.nested i hi o List.mem_cons_self with hsub | hdisj
    · have hwhole : o = i := Set.Subset.antisymm hsub (hparts.subset i hp)
      subst hwhole
      exact hparts.ne_whole (hnew hi) hp
    · obtain ⟨k, hk⟩ := hparts.nonempty i hp
      exact Set.disjoint_left.mp hdisj (hparts.subset i hp hk) hk

end Splitting
