import Mathlib.Data.Finset.Card
import Mathlib.Data.Finset.Insert
import Mathlib.Data.Finset.Erase
import Mathlib.Data.Finset.Dedup
import SetSync.Lib.Simulation

/-!
# What a set is for

The abstract model of `KeyValueTrie` and `Set`: a finite set of keys under `add`, `remove` and
`clear`, with the answers these give.  The refinement theorems compare a run of the code with
`setRun` of the same operations.
-/

namespace SetSync

open Program

variable {κ : Type}

inductive SetOp (κ : Type) where
  | add (key : κ)
  | remove (key : κ)
  | clear
deriving DecidableEq

/-- The keys that a run adds. -/
def addedKeys : List (SetOp κ) → List κ
  | [] => []
  | .add k :: ops => k :: addedKeys ops
  | _ :: ops => addedKeys ops

theorem addedKeys_append (ops ops' : List (SetOp κ)) :
    addedKeys (ops ++ ops') = addedKeys ops ++ addedKeys ops' := by
  induction ops with
  | nil => rfl
  | cons op ops ih => cases op <;> simp [addedKeys, ih]

theorem mem_addedKeys {op : SetOp κ} {ops : List (SetOp κ)} {k : κ} (h : op ∈ ops)
    (hk : k ∈ addedKeys [op]) : k ∈ addedKeys ops := by
  obtain ⟨front, rest, rfl⟩ := List.append_of_mem h
  rw [show front ++ op :: rest = front ++ ([op] ++ rest) from rfl, addedKeys_append, addedKeys_append]
  exact List.mem_append_right _ (List.mem_append_left _ hk)

theorem addedKeys_adds (keys : List κ) : addedKeys (keys.map SetOp.add) = keys := by
  induction keys with
  | nil => rfl
  | cons k keys ih => exact congrArg (k :: ·) ih

variable [DecidableEq κ]

/-- The answer and the set after one operation; `clear` answers nothing. -/
def SetOp.onSet (S : Finset κ) : SetOp κ → Option Bool × Finset κ
  | add k => (some (decide (k ∉ S)), insert k S)
  | remove k => (some (decide (k ∈ S)), S.erase k)
  | clear => (none, ∅)

def setRun (S : Finset κ) (ops : List (SetOp κ)) : List (Option Bool) × Finset κ :=
  simulate SetOp.onSet S ops

theorem setRun_append (S : Finset κ) (ops ops' : List (SetOp κ)) :
    setRun S (ops ++ ops') = ((setRun S ops).1 ++ (setRun (setRun S ops).2 ops').1,
      (setRun (setRun S ops).2 ops').2) := simulate_append SetOp.onSet S ops ops'

theorem setRun_adds (S : Finset κ) (keys : List κ) :
    (setRun S (keys.map SetOp.add)).2 = S ∪ keys.toFinset := by
  induction keys generalizing S with
  | nil => simp [setRun, simulate]
  | cons k keys ih =>
    show (setRun (insert k S) (keys.map SetOp.add)).2 = _
    rw [ih, List.toFinset_cons, Finset.insert_union, Finset.union_insert]

/-! ## A set that may be full -/

/-- The same for a set that takes no key while it is `full`. -/
def SetOp.within (full : Finset κ → Bool) (S : Finset κ) : SetOp κ → Option Bool × Finset κ
  | add k => if full S then (some false, S) else (some (decide (k ∉ S)), insert k S)
  | remove k => (some (decide (k ∈ S)), S.erase k)
  | clear => (none, ∅)

/-- The run of a set that may be full. -/
def boundedRun (full : Finset κ → Bool) (S : Finset κ) (ops : List (SetOp κ)) :
    List (Option Bool) × Finset κ := simulate (SetOp.within full) S ops

theorem boundedRun_false (S : Finset κ) (ops : List (SetOp κ)) :
    boundedRun (fun _ => false) S ops = setRun S ops := by
  have hstep : (SetOp.within (fun _ => false) : Finset κ → SetOp κ → _) = SetOp.onSet := by
    funext S op
    cases op <;> rfl
  unfold boundedRun
  rw [setRun, hstep]

/-- A set that is full from `M` keys on never has more. -/
theorem card_boundedRun_le (M : Nat) (ops : List (SetOp κ)) :
    (boundedRun (fun S => decide (M ≤ S.card)) ∅ ops).2.card ≤ M := by
  refine simulate_invariant (J := fun S : Finset κ => S.card ≤ M) (Nat.zero_le M) fun S op hS => ?_
  cases op with
  | add k =>
    unfold SetOp.within
    by_cases hfull : M ≤ S.card
    · simp only [hfull, decide_true, if_true]
      exact hS
    · have := Finset.card_insert_le k S
      simp only [hfull, decide_false, Bool.false_eq_true, if_false]
      omega
  | remove k => exact Nat.le_trans (Finset.card_le_card (Finset.erase_subset k S)) hS
  | clear => exact Nat.zero_le M

end SetSync
