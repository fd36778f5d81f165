import Mathlib.Data.List.Basic

/-!
# Streams consumed in pieces

A consumer takes a stream one element at a time (`feed`).  A function that takes a list at once is
right when it leaves the state in which the elements one by one would have left it.

    absorb feed (absorb feed s xs) ys = absorb feed s (xs ++ ys)                    (absorb_append)
    pieces.foldl update s = absorb feed s pieces.flatten                          (Absorbs.pieces)

A loop that takes a chunk of its input each round absorbs it when one round absorbs its chunk
(`absorbs_chunked`).
-/

namespace Streaming

variable {α σ τ : Type}

/-- The consumer after the elements of `xs`. -/
def absorb (feed : σ → α → σ) (s : σ) (xs : List α) : σ := xs.foldl feed s

theorem absorb_append (feed : σ → α → σ) (s : σ) (xs ys : List α) :
    absorb feed s (xs ++ ys) = absorb feed (absorb feed s xs) ys :=
  List.foldl_append

/-- `update` leaves every state as the elements one by one do. -/
def Absorbs (feed : σ → α → σ) (update : σ → List α → σ) : Prop :=
  ∀ s xs, update s xs = absorb feed s xs

/-- How the stream is cut into pieces makes no difference. -/
theorem Absorbs.pieces {feed : σ → α → σ} {update : σ → List α → σ} (h : Absorbs feed update) (s : σ)
    (pieces : List (List α)) : pieces.foldl update s = absorb feed s pieces.flatten := by
  induction pieces generalizing s with
  | nil => rfl
  | cons piece pieces ih => rw [List.foldl_cons, List.flatten_cons, absorb_append, ih, h]

/-! ## A chunk each round -/

/-- `while (input is not empty) take the first size s input elements of it`; the loop has no more
than the given number of rounds. -/
def chunked (size : σ → List α → Nat) (take : σ → List α → σ) : Nat → σ → List α → σ
  | 0, s, _ => s
  | rounds + 1, s, input =>
    if input.isEmpty then s
    else chunked size take rounds (take s (input.take (size s input))) (input.drop (size s input))

/-- Rounds that take at least one element each use up the input. -/
theorem absorbs_chunked {feed : σ → α → σ} {size : σ → List α → Nat} {take : σ → List α → σ}
    (hsize : ∀ s input, input ≠ [] → 0 < size s input)
    (htake : ∀ s input, input ≠ [] →
      take s (input.take (size s input)) = absorb feed s (input.take (size s input)))
    {rounds : Nat} (s : σ) {input : List α} (hrounds : input.length ≤ rounds) :
    chunked size take rounds s input = absorb feed s input := by
  induction rounds generalizing s input with
  | zero =>
    have hnil : input = [] := List.eq_nil_of_length_eq_zero (Nat.le_zero.mp hrounds)
    subst hnil
    rfl
  | succ rounds ih =>
    by_cases hnil : input = []
    · subst hnil
      rfl
    · have hpos := hsize s input hnil
      have hne : input.isEmpty = false := by simpa using hnil
      have hrest : (input.drop (size s input)).length ≤ rounds := by
        rw [List.length_drop]
        omega
      rw [chunked, hne, if_neg Bool.false_ne_true, ih _ hrest, htake s input hnil, ← absorb_append,
        List.take_append_drop]

/-! ## States that are not told apart -/

/-- A relation that every element keeps is kept by the stream. -/
theorem absorb_related {R : σ → τ → Prop} {feed : σ → α → σ} {feed' : τ → α → τ}
    (hfeed : ∀ s t a, R s t → R (feed s a) (feed' t a)) {s : σ} {t : τ} (h : R s t) (xs : List α) :
    R (absorb feed s xs) (absorb feed' t xs) := by
  induction xs generalizing s t with
  | nil => exact h
  | cons a xs ih => exact ih (hfeed s t a h)

end Streaming
