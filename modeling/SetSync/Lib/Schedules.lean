import Mathlib.Data.Nat.Find
import Mathlib.Order.WellFounded
import SetSync.Lib.Simulation

/-!
# Endless schedules

A schedule names the operation of every step.  When each step leaves the state as it is or lowers its
rank in a well-founded order, the states settle: from some step on nothing changes any more.

    after n      the state after `n` steps                                      (after_holds)
    emitted n    the events of the first `n` steps                              (emitted_subset)
    settles      a rank that falls with every change                            (settles)
-/

namespace Program

namespace Prog

variable {σ ω ε α β γ : Type}

section Schedules

variable (f : β → Prog σ ω ε α) (schedule : Nat → β)

/-- The state after `n` steps. -/
def after (s : σ) : Nat → σ
  | 0 => s
  | n + 1 => (f (schedule n) (after s n)).state

/-- The events of the first `n` steps. -/
def emitted (s : σ) : Nat → List ω
  | 0 => []
  | n + 1 => emitted s n ++ (f (schedule n) (after f schedule s n)).events

variable {f schedule}

theorem emitted_subset {s : σ} {m n : Nat} (h : m ≤ n) :
    ∀ e ∈ emitted f schedule s m, e ∈ emitted f schedule s n := by
  induction n with
  | zero =>
    obtain rfl := Nat.le_zero.mp h
    exact fun e he => he
  | succ n ih =>
    rcases Nat.le_succ_iff.mp h with h | rfl
    · exact fun e he => List.mem_append_left _ (ih h e he)
    · exact fun e he => he

/-- What every step keeps holds after any number of steps. -/
theorem after_holds {J : σ → Prop} {s : σ} (h : J s)
    (hstep : ∀ n, J (after f schedule s n) → J (after f schedule s (n + 1))) (n : Nat) :
    J (after f schedule s n) := by
  induction n with
  | zero => exact h
  | succ n ih => exact hstep n ih

end Schedules

/-- **States settle** when a rank falls with every change. -/
theorem settles {r : γ → γ → Prop} (hr : WellFounded r) {states : Nat → σ} {rank : σ → γ}
    (hstep : ∀ n, states (n + 1) = states n ∨ r (rank (states (n + 1))) (rank (states n))) :
    ∃ n, ∀ m, n ≤ m → states m = states n := by
  suffices h : ∀ x n, rank (states n) = x → ∃ n, ∀ m, n ≤ m → states m = states n from h _ 0 rfl
  intro x
  induction x using hr.induction with
  | h x ih =>
    rintro n rfl
    by_cases hrest : ∀ m, n ≤ m → states (m + 1) = states m
    · refine ⟨n, fun m hm => ?_⟩
      induction m, hm using Nat.le_induction with
      | base => rfl
      | succ m hm ihm => rw [hrest m hm, ihm]
    · -- the first change
      push Not at hrest
      have hfind : ∃ m, n ≤ m ∧ states (m + 1) ≠ states m := hrest
      classical
      obtain ⟨hm, hchange⟩ := Nat.find_spec hfind
      have hsame : ∀ k, n ≤ k → k ≤ Nat.find hfind → states k = states n := by
        intro k hk
        induction k, hk using Nat.le_induction with
        | base => exact fun _ => rfl
        | succ k hk ihk =>
          intro hle
          have hnot := Nat.find_min hfind (Nat.lt_of_succ_le hle)
          push Not at hnot
          rw [hnot hk, ihk (Nat.le_of_succ_le hle)]
      have hless := (hstep (Nat.find hfind)).resolve_left hchange
      rw [hsame _ hm (Nat.le_refl _)] at hless
      exact ih _ hless _ rfl

end Prog

end Program
