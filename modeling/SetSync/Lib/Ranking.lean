import SetSync.Lib.Simulation

/-!
# Runs against a rank

A rank that no operation raises, and that the operations of one kind lower, bounds how many of them a
run has; a loop whose body lowers a rank ends.

    count of the marked operations + rank at the end ≤ rank at the start            (each_counted)
    the body lowers the rank while the condition holds → the loop ends, without it
                                                                       (loop_ends, Returns.loop)

`count f mark s bs`: the marked operations of the run of `bs` from `s`, where `mark` sees the state
each operation finds.
-/

namespace Program

namespace Prog

variable {σ ω ε α β : Type}

section Count

variable {f : β → Prog σ ω ε α} {mark : σ → β → Bool}

/-- How many operations of a run are marked. -/
def count (f : β → Prog σ ω ε α) (mark : σ → β → Bool) (s : σ) : List β → Nat
  | [] => 0
  | b :: bs => (if mark s b then 1 else 0) + count f mark (f b s).state bs

/-- **A rank pays for the marked operations.** -/
theorem each_counted {J : σ → Prop} {rank : σ → Nat} {bs : List β} {s : σ}
    (hstep : ∀ b ∈ bs, ∀ s, J s → ∃ a s', f b s = ⟨.ok a, s', []⟩ ∧ J s' ∧
      (if mark s b then 1 else 0) + rank s' ≤ rank s) (h : J s) :
    ∃ as s', each f bs s = ⟨.ok as, s', []⟩ ∧ J s' ∧ count f mark s bs + rank s' ≤ rank s := by
  induction bs generalizing s with
  | nil => exact ⟨[], s, rfl, h, Nat.le_of_eq (Nat.zero_add _)⟩
  | cons b bs ih =>
    obtain ⟨a, s₁, hb, h₁, hpay⟩ := hstep b List.mem_cons_self s h
    obtain ⟨as, s₂, hbs, h₂, hrest⟩ := ih (fun c hmem => hstep c (List.mem_cons_of_mem b hmem)) h₁
    refine ⟨a :: as, s₂, ?_, h₂, ?_⟩
    · unfold each
      rw [bind_of_ok hb, bind_of_ok hbs]
      rfl
    · rw [count, hb]
      show (if mark s b then 1 else 0) + count f mark s₁ bs + rank s₂ ≤ rank s
      omega

end Count

section Loop

/-- `while (cond) body`, with fuel for the rounds. -/
def loop (cond : σ → Bool) (body : Prog σ ω ε Unit) : Nat → Prog σ ω ε Unit
  | 0 => diverge
  | fuel + 1 => do
    let s ← get
    if cond s then do
      body
      loop cond body fuel
    else pure ()

/-- **A loop whose body lowers a rank ends.**  The rank is an index of the invariant. -/
theorem loop_ends {cond : σ → Bool} {body : Prog σ ω ε Unit} {J : Nat → σ → Prop}
    (hbody : ∀ n s, J n s → cond s = true → ∃ s' m, body s = ⟨.ok (), s', []⟩ ∧ J m s' ∧ m < n)
    {fuel n : Nat} {s : σ} (h : J n s) (hfuel : n < fuel) :
    ∃ s' m, loop cond body fuel s = ⟨.ok (), s', []⟩ ∧ J m s' ∧ cond s' = false := by
  induction fuel generalizing n s with
  | zero => cases hfuel
  | succ fuel ih =>
    unfold loop
    rw [bind_of_ok (get_apply s), Run.after_nil]
    cases hcond : cond s with
    | false => exact ⟨s, n, rfl, h, hcond⟩
    | true =>
      obtain ⟨s₁, m, hrun, h₁, hless⟩ := hbody n s h hcond
      obtain ⟨s₂, k, hrest, h₂, hend⟩ := ih h₁ (by omega)
      refine ⟨s₂, k, ?_, h₂, hend⟩
      rw [if_pos rfl, bind_of_ok hrun, Run.after_nil, hrest]

/-- The same with events, if these are as `P` says. -/
theorem Returns.loop {P : ω → Prop} {cond : σ → Bool} {body : Prog σ ω ε Unit} {J : Nat → σ → Prop}
    (hbody : ∀ n s, J n s → cond s = true → Returns P body s fun _ s' => ∃ m, J m s' ∧ m < n)
    {fuel n : Nat} {s : σ} (h : J n s) (hfuel : n < fuel) :
    Returns P (loop cond body fuel) s fun _ s' => (∃ m, J m s') ∧ cond s' = false := by
  induction fuel generalizing n s with
  | zero => cases hfuel
  | succ fuel ih =>
    apply Returns.bind_of_eq (get_apply s)
    cases hcond : cond s with
    | false =>
      rw [if_neg Bool.false_ne_true]
      exact Returns.pure ⟨⟨n, h⟩, hcond⟩
    | true =>
      rw [if_pos rfl]
      apply Returns.bind (hbody n s h hcond)
      rintro _ s₁ ⟨m, h₁, hless⟩
      exact ih h₁ (by omega)

end Loop

end Prog

end Program
