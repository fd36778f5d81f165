import Mathlib.Data.List.Nodup
import Mathlib.Tactic.Common

/-!
# A list that grows while it is walked

The items of the list cover keys.  When its turn comes, an item is settled: each key it covers is done, or
is left to a smaller item of the list, wherever that stands.  Items are appended to the end, and an item
that is listed already is skipped.

    settled items stay settled while the list and the keys that are done grow      (Settled.mono)
    when all items are settled, all keys they cover are done                     (done_of_settled)

A list whose items are taken away instead: each key is done or covered by an item that is left.  An item
may go when what it covers is done or is covered by others.

    taking an item away keeps the keys accounted for                           (Accounted.replace)
    when no item is left, all keys are done                                   (Accounted.all_done)
-/

namespace Worklist

variable {α κ : Type} (Covers : α → κ → Prop) (size : α → Nat)

/-- The keys of `a` are done, or left to smaller items. -/
def Settled (done : κ → Prop) (l : List α) (a : α) : Prop :=
  ∀ k, Covers a k → done k ∨ ∃ b ∈ l, Covers b k ∧ size b < size a

variable {Covers size} {done done' : κ → Prop} {l l' : List α}

theorem Settled.mono {a : α} (h : Settled Covers size done l a) (hdone : ∀ k, done k → done' k)
    (hl : l ⊆ l') : Settled Covers size done' l' a := by
  intro k hk
  rcases h k hk with hd | ⟨b, hb, hbk, hlt⟩
  · exact Or.inl (hdone k hd)
  · exact Or.inr ⟨b, hl hb, hbk, hlt⟩

/-- Going on to a smaller item comes to an end at a key that is done. -/
theorem done_of_settled (h : ∀ a ∈ l, Settled Covers size done l a) (n : Nat) :
    ∀ a ∈ l, size a ≤ n → ∀ k, Covers a k → done k := by
  induction n with
  | zero =>
    intro a ha hn k hk
    rcases h a ha k hk with hd | ⟨b, _, _, hlt⟩
    · exact hd
    · omega
  | succ n ih =>
    intro a ha hn k hk
    rcases h a ha k hk with hd | ⟨b, hb, hbk, hlt⟩
    · exact hd
    · exact ih b hb (by omega) k hbk

/-! ## Taking items away -/

/-- Each of the keys is done, or covered by an item of the list. -/
def Accounted (Covers : α → κ → Prop) (keys done : κ → Prop) (l : List α) : Prop :=
  ∀ k, keys k → done k ∨ ∃ a ∈ l, Covers a k

section Accounted

variable {keys : κ → Prop}

theorem Accounted.mono (h : Accounted Covers keys done l) (hdone : ∀ k, done k → done' k)
    (hl : l ⊆ l') : Accounted Covers keys done' l' := by
  intro k hk
  rcases h k hk with hd | ⟨a, ha, hak⟩
  · exact Or.inl (hdone k hd)
  · exact Or.inr ⟨a, hl ha, hak⟩

/-- The item `a` goes. -/
theorem Accounted.replace {a : α} (h : Accounted Covers keys done l) (hdone : ∀ k, done k → done' k)
    (hl : ∀ b ∈ l, b = a ∨ b ∈ l') (ha : ∀ k, Covers a k → done' k ∨ ∃ b ∈ l', Covers b k) :
    Accounted Covers keys done' l' := by
  intro k hk
  rcases h k hk with hd | ⟨b, hb, hbk⟩
  · exact Or.inl (hdone k hd)
  · rcases hl b hb with rfl | hb
    · exact ha k hbk
    · exact Or.inr ⟨b, hb, hbk⟩

theorem Accounted.all_done (h : Accounted Covers keys done []) : ∀ k, keys k → done k := by
  intro k hk
  rcases h k hk with hd | ⟨a, ha, _⟩
  · exact hd
  · exact absurd ha List.not_mem_nil

end Accounted

/-! ## Appending what is not listed -/

variable [DecidableEq α]

def push (l : List α) (a : α) : List α := if a ∈ l then l else l ++ [a]

theorem mem_push (l : List α) (a b : α) : b ∈ push l a ↔ b ∈ l ∨ b = a := by
  unfold push
  split
  · constructor
    · exact Or.inl
    · rintro (hb | rfl)
      · exact hb
      · assumption
  · rw [List.mem_append, List.mem_singleton]

theorem nodup_push {a : α} (h : l.Nodup) : (push l a).Nodup := by
  unfold push
  split
  · exact h
  · rw [List.nodup_append]
    refine ⟨h, List.nodup_singleton a, ?_⟩
    rintro x hx y hy rfl
    rw [List.mem_singleton] at hy
    subst hy
    contradiction

theorem prefix_push (l : List α) (a : α) : l <+: push l a := by
  unfold push
  split
  · exact List.prefix_refl l
  · exact List.prefix_append l [a]

/-- What a fold that pushes some of the items leaves. -/
structure Extends (l as : List α) (new : α → Bool) (l' : List α) : Prop where
  isPrefix : l <+: l'
  nodup : l.Nodup → l'.Nodup
  mem : ∀ b, b ∈ l' ↔ b ∈ l ∨ b ∈ as ∧ new b = true

theorem extends_foldl (new : α → Bool) (as l : List α) :
    Extends l as new (as.foldl (fun l a => if new a then push l a else l) l) := by
  induction as generalizing l with
  | nil => exact ⟨List.prefix_refl l, id, by simp⟩
  | cons a as ih =>
    rw [List.foldl_cons]
    cases hnew : new a with
    | false =>
      simp only [Bool.false_eq_true, if_false]
      obtain ⟨hpre, hnd, hmem⟩ := ih l
      refine ⟨hpre, hnd, fun b => (hmem b).trans ?_⟩
      rw [List.mem_cons]
      constructor
      · rintro (hb | ⟨hb, hn⟩)
        · exact Or.inl hb
        · exact Or.inr ⟨Or.inr hb, hn⟩
      · rintro (hb | ⟨rfl | hb, hn⟩)
        · exact Or.inl hb
        · rw [hnew] at hn
          cases hn
        · exact Or.inr ⟨hb, hn⟩
    | true =>
      simp only [if_true]
      obtain ⟨hpre, hnd, hmem⟩ := ih (push l a)
      refine ⟨(prefix_push l a).trans hpre, fun h => hnd (nodup_push h), fun b => (hmem b).trans ?_⟩
      rw [mem_push, List.mem_cons]
      constructor
      · rintro ((hb | rfl) | ⟨hb, hn⟩)
        · exact Or.inl hb
        · exact Or.inr ⟨Or.inl rfl, hnew⟩
        · exact Or.inr ⟨Or.inr hb, hn⟩
      · rintro (hb | ⟨rfl | hb, hn⟩)
        · exact Or.inl (Or.inl hb)
        · exact Or.inl (Or.inr rfl)
        · exact Or.inr ⟨hb, hn⟩

end Worklist
