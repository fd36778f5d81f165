import Mathlib.Data.List.Infix
import SetSync.Lib.Streaming

/-!
# Streams taken block by block

A consumer that keeps the elements of its stream until they fill a block of `B` elements, and then
compresses the block into its state.

    absorb (feed B compress) (s, []) xs = takeBlocks B compress rounds s xs             (takeBlocks_eq)
    absorb (feed B compress) (s, []) xs = ((blocks B n xs).foldl compress s, [])        (absorb_blocks)
      for n * B elements xs

Two lists of blocks that lead to one state, neither of them a suffix of the other, hold two different
calls of `compress` with one result (`exists_collision`).
-/

namespace BlockStream

open Streaming

variable {α σ β : Type} {B : Nat} {compress : σ → List α → σ}

/-- One more element.  The state is that after the whole blocks; the list has the elements after them. -/
def feed (B : Nat) (compress : σ → List α → σ) (p : σ × List α) (a : α) : σ × List α :=
  if p.2.length + 1 < B then (p.1, p.2 ++ [a]) else (compress p.1 (p.2 ++ [a]), [])

/-- Elements that do not fill the block are kept. -/
theorem absorb_keep (s : σ) (rest : List α) {xs : List α} (h : rest.length + xs.length < B) :
    absorb (feed B compress) (s, rest) xs = (s, rest ++ xs) := by
  induction xs generalizing rest with
  | nil => rw [List.append_nil]; rfl
  | cons a xs ih =>
    rw [List.length_cons] at h
    have hroom : rest.length + 1 < B := by omega
    have hfeed : feed B compress (s, rest) a = (s, rest ++ [a]) := if_pos hroom
    have hkeep := ih (rest ++ [a]) (by rw [List.length_append, List.length_singleton]; omega)
    show absorb (feed B compress) (feed B compress (s, rest) a) xs = _
    rw [hfeed, hkeep, List.append_assoc]
    rfl

/-- Elements that fill the block. -/
theorem absorb_fill (s : σ) (rest : List α) {xs : List α} (hne : xs ≠ [])
    (h : rest.length + xs.length = B) :
    absorb (feed B compress) (s, rest) xs = (compress s (rest ++ xs), []) := by
  obtain ⟨ys, a, rfl⟩ := List.eq_nil_or_concat' xs |>.resolve_left hne
  rw [List.length_append, List.length_singleton] at h
  have hlast : ¬ (rest ++ ys).length + 1 < B := by
    rw [List.length_append]
    omega
  rw [absorb_append, absorb_keep s rest (by omega), ← List.append_assoc]
  exact if_neg hlast

theorem length_absorb (hB : 0 < B) (s : σ) {rest : List α} (h : rest.length < B) (xs : List α) :
    (absorb (feed B compress) (s, rest) xs).2.length = (rest.length + xs.length) % B := by
  induction xs generalizing s rest with
  | nil => exact (Nat.mod_eq_of_lt h).symm
  | cons a xs ih =>
    rw [List.length_cons]
    show (absorb (feed B compress) (feed B compress (s, rest) a) xs).2.length = _
    by_cases hroom : rest.length + 1 < B
    · have hfeed : feed B compress (s, rest) a = (s, rest ++ [a]) := if_pos hroom
      have hlen : (rest ++ [a]).length = rest.length + 1 := by
        rw [List.length_append, List.length_singleton]
      rw [hfeed, ih s (by omega), hlen]
      congr 1
      omega
    · have hfeed : feed B compress (s, rest) a = (compress s (rest ++ [a]), []) := if_neg hroom
      have hsum : rest.length + (xs.length + 1) = xs.length + B := by omega
      rw [hfeed, ih _ (show ([] : List α).length < B from hB), hsum, Nat.add_mod_right, List.length_nil, Nat.zero_add]

/-! ## Blocks taken in place -/

/-- `while (there is a whole block) compress it`, for no more than the given number of rounds: the state,
and what is left. -/
def takeBlocks (B : Nat) (compress : σ → List α → σ) : Nat → σ → List α → σ × List α
  | 0, s, input => (s, input)
  | rounds + 1, s, input =>
    if B ≤ input.length then takeBlocks B compress rounds (compress s (input.take B)) (input.drop B)
    else (s, input)

theorem absorb_block (hB : 0 < B) (s : σ) {xs : List α} (h : B ≤ xs.length) :
    absorb (feed B compress) (s, []) xs
      = absorb (feed B compress) (compress s (xs.take B), []) (xs.drop B) := by
  have hlen : (xs.take B).length = B := by
    rw [List.length_take]
    omega
  have hne : xs.take B ≠ [] := List.ne_nil_of_length_pos (by omega)
  have hfill : absorb (feed B compress) (s, []) (xs.take B) = (compress s (xs.take B), []) :=
    absorb_fill s [] hne ((Nat.zero_add _).trans hlen)
  have hsplit : absorb (feed B compress) (s, []) xs
      = absorb (feed B compress) (s, []) (xs.take B ++ xs.drop B) := by rw [List.take_append_drop]
  rw [hsplit, absorb_append, hfill]

theorem takeBlocks_eq (hB : 0 < B) {rounds : Nat} (s : σ) {input : List α}
    (h : input.length ≤ rounds) :
    takeBlocks B compress rounds s input = absorb (feed B compress) (s, []) input := by
  induction rounds generalizing s input with
  | zero =>
    have hnil : input = [] := List.eq_nil_of_length_eq_zero (Nat.le_zero.mp h)
    subst hnil
    rfl
  | succ rounds ih =>
    by_cases hblock : B ≤ input.length
    · have hrest : (input.drop B).length ≤ rounds := by
        rw [List.length_drop]
        omega
      rw [takeBlocks, if_pos hblock, ih _ hrest, absorb_block hB s hblock]
    · have hkeep : absorb (feed B compress) (s, []) input = (s, input) :=
        absorb_keep s [] (by rw [List.length_nil]; omega)
      rw [takeBlocks, if_neg hblock, hkeep]

/-! ## The list of blocks -/

/-- The first `n` blocks. -/
def blocks (B : Nat) : Nat → List α → List (List α)
  | 0, _ => []
  | n + 1, xs => xs.take B :: blocks B n (xs.drop B)

theorem flatten_blocks {n : Nat} {xs : List α} (h : xs.length = n * B) : (blocks B n xs).flatten = xs := by
  induction n generalizing xs with
  | zero =>
    rw [Nat.zero_mul] at h
    exact (List.eq_nil_of_length_eq_zero h).symm
  | succ n ih =>
    rw [Nat.succ_mul] at h
    rw [blocks, List.flatten_cons, ih (by rw [List.length_drop]; omega), List.take_append_drop]

/-- A stream of whole blocks. -/
theorem absorb_blocks (hB : 0 < B) {n : Nat} (s : σ) {xs : List α} (h : xs.length = n * B) :
    absorb (feed B compress) (s, []) xs = ((blocks B n xs).foldl compress s, []) := by
  induction n generalizing s xs with
  | zero =>
    rw [Nat.zero_mul] at h
    have hnil := List.eq_nil_of_length_eq_zero h
    subst hnil
    rfl
  | succ n ih =>
    rw [Nat.succ_mul] at h
    rw [absorb_block hB s (by omega), ih _ (by rw [List.length_drop]; omega), blocks, List.foldl_cons]

/-! ## Collisions -/

/-- The calls of `f`: the state before each block, and the block. -/
def calls (f : σ → β → σ) : σ → List β → List (σ × β)
  | _, [] => []
  | s, b :: bs => (s, b) :: calls f (f s b) bs

theorem calls_concat (f : σ → β → σ) (s : σ) (bs : List β) (b : β) :
    calls f s (bs ++ [b]) = calls f s bs ++ [(bs.foldl f s, b)] := by
  induction bs generalizing s with
  | nil => rfl
  | cons c bs ih => rw [List.cons_append, calls, calls, ih, List.foldl_cons, List.cons_append]

/-- A call of `l` and another call of `l'` with one result. -/
def Collision (f : σ → β → σ) (l l' : List (σ × β)) : Prop :=
  ∃ p ∈ l, ∃ q ∈ l', p ≠ q ∧ f p.1 p.2 = f q.1 q.2

theorem Collision.mono {f : σ → β → σ} {l l' k k' : List (σ × β)} (hl : l ⊆ k) (hl' : l' ⊆ k')
    (h : Collision f l l') : Collision f k k' := by
  obtain ⟨p, hp, q, hq, hne, heq⟩ := h
  exact ⟨p, hl hp, q, hl' hq, hne, heq⟩

theorem suffix_concat {bs bs' : List β} (b : β) (h : bs <:+ bs') : bs ++ [b] <:+ bs' ++ [b] := by
  obtain ⟨front, rfl⟩ := h
  exact ⟨front, by rw [List.append_assoc]⟩

/-- **Collisions.**  The last calls with one result are different, or the lists before their last blocks
lead to one state as well. -/
theorem exists_collision {f : σ → β → σ} {s : σ} {bs bs' : List β} (h : ¬ bs <:+ bs')
    (h' : ¬ bs' <:+ bs) (heq : bs.foldl f s = bs'.foldl f s) :
    Collision f (calls f s bs) (calls f s bs') := by
  induction bs using List.reverseRecOn generalizing bs' with
  | nil => exact absurd List.nil_suffix h
  | append_singleton bs b ih =>
    induction bs' using List.reverseRecOn with
    | nil => exact absurd List.nil_suffix h'
    | append_singleton bs' b' _ =>
      rw [List.foldl_append, List.foldl_append] at heq
      rw [calls_concat, calls_concat]
      by_cases hlast : (bs.foldl f s, b) = (bs'.foldl f s, b')
      · obtain ⟨hstate, rfl⟩ := Prod.mk.inj hlast
        have hbefore := ih (fun hs => h (suffix_concat b hs)) (fun hs => h' (suffix_concat b hs)) hstate
        exact hbefore.mono (List.subset_append_left _ _) (List.subset_append_left _ _)
      · exact ⟨_, List.mem_append_right _ List.mem_cons_self, _,
          List.mem_append_right _ List.mem_cons_self, hlast, heq⟩

end BlockStream
