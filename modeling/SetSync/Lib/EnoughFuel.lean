import Mathlib.Order.WellFounded
import SetSync.Lib.Ranking

/-!
# Enough fuel

The loops of a program get fuel.  Nested ones need amounts that no formula gives: what a turn costs is
known when the state is, and a rank in a well-founded order has no number.  A program converges on a state
when with any fuel, from some amount on, it ends in one and the same way.

    Converges P m s Q    the events of `m fuel s` are as `P` says → it does, as `Q` says
    bind                 one program after the other
    repeatWhile          a loop whose turns lower a rank

A program goes on with more fuel when it does the same as far as it got before (`GoesOn`), so what holds of
the events with much fuel holds of those with little.
-/

namespace Program

namespace Prog

variable {σ ω ε α β γ : Type}

/-- One turn after the other, as long as they answer true. -/
def repeatWhile (turn : Prog σ ω ε Bool) : Nat → Prog σ ω ε Unit
  | 0 => diverge
  | fuel + 1 => do
    let more ← turn
    if more then repeatWhile turn fuel else pure ()

/-- With any fuel, from some amount on, the program ends in the same way.  Its events need to be as `P`
says from some amount on. -/
def Converges (P : ω → Prop) (m : Nat → Prog σ ω ε α) (s : σ) (Q : α → σ → Prop) : Prop :=
  ∀ N, (∀ fuel, N ≤ fuel → ∀ x ∈ (m fuel s).events, P x) →
    ∃ a s' l, Q a s' ∧ ∃ N, ∀ fuel, N ≤ fuel → m fuel s = ⟨.ok a, s', l⟩

section Rules

variable {P : ω → Prop} {s : σ}

/-- A program without fuel. -/
theorem Returns.converges {m : Prog σ ω ε α} {Q : α → σ → Prop} (h : Returns P m s Q) :
    Converges P (fun _ => m) s Q := by
  intro N hP
  obtain ⟨a, ho, hq⟩ := h (hP N (Nat.le_refl N))
  exact ⟨a, _, _, hq, 0, fun _ _ => Run.ext ho rfl rfl⟩

theorem Converges.mono {m : Nat → Prog σ ω ε α} {Q Q' : α → σ → Prop} (h : Converges P m s Q)
    (hq : ∀ a s', Q a s' → Q' a s') : Converges P m s Q' := by
  intro N hP
  obtain ⟨a, s', l, h', hrun⟩ := h N hP
  exact ⟨a, s', l, hq a s' h', hrun⟩

/-- Small amounts do not matter. -/
theorem Converges.congr {m m' : Nat → Prog σ ω ε α} {Q : α → σ → Prop} {M : Nat}
    (heq : ∀ fuel, M ≤ fuel → m fuel s = m' fuel s) (h : Converges P m' s Q) : Converges P m s Q := by
  intro N hP
  obtain ⟨a, s', l, hq, N', hrun⟩ := h (max M N) fun fuel hle x hx =>
    hP fuel (le_trans (le_max_right M N) hle) x (by
      rw [heq fuel (le_trans (le_max_left M N) hle)]
      exact hx)
  refine ⟨a, s', l, hq, max M N', fun fuel hle => ?_⟩
  rw [heq fuel (le_trans (le_max_left M N') hle), hrun fuel (le_trans (le_max_right M N') hle)]

theorem Converges.bind {m : Nat → Prog σ ω ε α} {f : Nat → α → Prog σ ω ε β} {Q : α → σ → Prop}
    {R : β → σ → Prop} (hm : Converges P m s Q)
    (hf : ∀ a s', Q a s' → Converges P (fun fuel => f fuel a) s' R) :
    Converges P (fun fuel => m fuel >>= f fuel) s R := by
  intro N hP
  obtain ⟨a, s', l, hq, M, hrun⟩ := hm N fun fuel hle x hx =>
    hP fuel hle x (bind_head_events (m fuel) (f fuel) s hx)
  obtain ⟨b, s'', l', hr, M', hrest⟩ := hf a s' hq (max N M) fun fuel hle x hx => by
    apply hP fuel (le_trans (le_max_left N M) hle)
    show x ∈ ((m fuel >>= f fuel) s).events
    rw [bind_of_ok (hrun fuel (le_trans (le_max_right N M) hle)), Run.after_events]
    exact List.mem_append_right l hx
  refine ⟨b, s'', l ++ l', hr, max M M', fun fuel hle => ?_⟩
  have hend : f fuel a s' = ⟨.ok b, s'', l'⟩ := hrest fuel (le_trans (le_max_right M M') hle)
  show (m fuel >>= f fuel) s = _
  rw [bind_of_ok (hrun fuel (le_trans (le_max_left M M') hle)), hend]
  rfl

/-- **A loop whose turns lower a rank.**  The turns may get fuel as well. -/
theorem Converges.repeatWhile {r : γ → γ → Prop} (hr : WellFounded r) {J : γ → σ → Prop}
    {Q : σ → Prop} {m : Nat → Prog σ ω ε Bool}
    (hturn : ∀ x s, J x s → Converges P m s fun more s' =>
      if more then ∃ y, J y s' ∧ r y x else Q s') {x : γ} (h : J x s) :
    Converges P (fun fuel => Prog.repeatWhile (m fuel) fuel) s fun _ s' => Q s' := by
  -- the turns that are over have taken `used` of the fuel
  suffices hsuff : ∀ x s used, J x s →
      Converges P (fun fuel => Prog.repeatWhile (m fuel) (fuel - used)) s fun _ s' => Q s' from
    hsuff x s 0 h
  intro x
  induction x using hr.induction with
  | h x ih =>
    intro s used hx
    have hunfold : ∀ fuel, used + 1 ≤ fuel → Prog.repeatWhile (m fuel) (fuel - used) s
        = (m fuel >>= fun more =>
          if more then Prog.repeatWhile (m fuel) (fuel - (used + 1)) else Pure.pure ()) s := by
      intro fuel hle
      rw [show fuel - used = fuel - (used + 1) + 1 by omega]
      rfl
    refine Converges.congr hunfold (Converges.bind (hturn x s hx) fun more s' hmore => ?_)
    cases more with
    | false => exact Returns.converges (Returns.pure hmore)
    | true =>
      obtain ⟨y, hy, hless⟩ := hmore
      exact ih y hless s' (used + 1) hy

/-- A loop whose turn changes nothing and answers true does not end. -/
theorem repeatWhile_diverges {turn : Prog σ ω ε Bool} (h : turn s = ⟨.ok true, s, []⟩) (fuel : Nat) :
    (Prog.repeatWhile turn fuel s).outcome = .diverged := by
  induction fuel with
  | zero => rfl
  | succ fuel ih =>
    unfold Prog.repeatWhile
    rw [bind_of_ok h]
    exact ih

end Rules

/-! ## More fuel -/

/-- The one run is the other, or it was stopped before its end. -/
def StartOf (r r' : Run σ ω ε α) : Prop :=
  r = r' ∨ (r.outcome = .diverged ∧ r.events ⊆ r'.events)

theorem StartOf.bind {m m' : Prog σ ω ε α} {f f' : α → Prog σ ω ε β} {s : σ}
    (hm : StartOf (m s) (m' s)) (hf : ∀ a s', StartOf (f a s') (f' a s')) :
    StartOf ((m >>= f) s) ((m' >>= f') s) := by
  rcases hm with heq | ⟨hstop, hsub⟩
  · rw [bind_apply, bind_apply, ← heq]
    rcases m s with ⟨o, s', l⟩
    cases o with
    | ok a =>
      rcases hf a s' with hrest | ⟨hstop, hsub⟩
      · left
        simp only
        rw [hrest]
      · exact Or.inr ⟨hstop, List.append_subset.mpr
          ⟨List.subset_append_left _ _, List.subset_append_of_subset_right _ hsub⟩⟩
    | error e => exact Or.inl rfl
    | diverged => exact Or.inl rfl
  · right
    have hlater : (m s).events ⊆ ((m' >>= f') s).events := fun x hx => bind_head_events m' f' s (hsub hx)
    rw [bind_apply]
    rcases hrun : m s with ⟨o, s', l⟩
    rw [hrun] at hstop hlater
    obtain rfl : o = .diverged := hstop
    exact ⟨rfl, hlater⟩

/-- With more fuel the program does the same, and goes on where it was stopped. -/
def GoesOn (m : Nat → Prog σ ω ε α) : Prop :=
  ∀ fuel fuel' s, fuel ≤ fuel' → StartOf (m fuel s) (m fuel' s)

theorem GoesOn.bind {m : Nat → Prog σ ω ε α} {f : Nat → α → Prog σ ω ε β} (hm : GoesOn m)
    (hf : ∀ a, GoesOn fun fuel => f fuel a) : GoesOn fun fuel => m fuel >>= f fuel :=
  fun fuel fuel' s hle => StartOf.bind (hm fuel fuel' s hle) fun a s' => hf a fuel fuel' s' hle

theorem GoesOn.repeatWhile {turn : Nat → Prog σ ω ε Bool} (h : GoesOn turn) :
    GoesOn fun fuel => Prog.repeatWhile (turn fuel) fuel := by
  intro fuel fuel' s hle
  suffices hsuff : ∀ n n' s, n ≤ n' →
      StartOf (Prog.repeatWhile (turn fuel) n s) (Prog.repeatWhile (turn fuel') n' s) from
    hsuff fuel fuel' s hle
  intro n
  induction n with
  | zero => exact fun n' s _ => Or.inr ⟨rfl, List.nil_subset _⟩
  | succ n ih =>
    intro n' s hn
    cases n' with
    | zero => cases hn
    | succ n' =>
      refine StartOf.bind (h fuel fuel' s hle) fun more s' => ?_
      cases more with
      | true => exact ih n' s' (Nat.le_of_succ_le_succ hn)
      | false => exact Or.inl rfl

theorem GoesOn.loop (cond : σ → Bool) (body : Prog σ ω ε Unit) : GoesOn (Prog.loop cond body) := by
  intro fuel
  induction fuel with
  | zero => exact fun fuel' s _ => Or.inr ⟨rfl, List.nil_subset _⟩
  | succ fuel ih =>
    intro fuel' s hle
    cases fuel' with
    | zero => cases hle
    | succ fuel' =>
      refine StartOf.bind (Or.inl rfl) fun s₁ s' => ?_
      cases cond s₁ with
      | true => exact StartOf.bind (Or.inl rfl) fun _ s'' => ih fuel' s'' (Nat.le_of_succ_le_succ hle)
      | false => exact Or.inl rfl

end Prog

end Program
