import SetSync.Lib.Program

/-!
# Runs against an abstract machine

`each f bs` runs the operations `bs` one after the other.  `simulate step S bs` does the same on an
abstract machine with states `S`.  A relation between the two that every operation keeps, and that
gives the answer, carries over to runs:

    I S s → Returns (f b) s (answer of step, I again)      for each operation
    I S s → Returns (each f bs) s (answers of simulate, I again)                    (Returns.each)

`Throughout f C s bs`: each operation of the run meets the condition `C` in the state it finds.
`EachRun f Q s bs`: each operation ends as `Q` says, and the next one starts where it ended, also after an
exception.  If a step ends well exactly when it meets a condition, so does the run      (eachRun_iff).
-/

namespace Program

variable {σ ω ε α β γ S : Type}

/-- The answers and the last state of an abstract machine. -/
def simulate (step : S → β → α × S) (x : S) : List β → List α × S
  | [] => ([], x)
  | b :: bs =>
    let r := simulate step (step x b).2 bs
    ((step x b).1 :: r.1, r.2)

theorem simulate_append (step : S → β → α × S) (x : S) (bs cs : List β) :
    simulate step x (bs ++ cs) = ((simulate step x bs).1 ++ (simulate step (simulate step x bs).2 cs).1,
      (simulate step (simulate step x bs).2 cs).2) := by
  induction bs generalizing x with
  | nil => rfl
  | cons b bs ih =>
    show ((step x b).1 :: (simulate step _ (bs ++ cs)).1, (simulate step _ (bs ++ cs)).2) = _
    rw [ih]
    rfl

theorem simulate_map (step : S → β → α × S) (g : γ → β) (x : S) (cs : List γ) :
    simulate step x (cs.map g) = simulate (fun x c => step x (g c)) x cs := by
  induction cs generalizing x with
  | nil => rfl
  | cons c cs ih =>
    show ((step x (g c)).1 :: (simulate step _ (cs.map g)).1, (simulate step _ (cs.map g)).2) = _
    rw [ih]
    rfl

/-- Operations that leave the state of the machine can be left out. -/
theorem simulate_filterMap {step : S → β → α × S} {step' : S → γ → α × S}
    {g : γ → Option β} (hsome : ∀ c b, g c = some b → ∀ x, step' x c = step x b)
    (hnone : ∀ c, g c = none → ∀ x, (step' x c).2 = x) (x : S) (cs : List γ) :
    (simulate step' x cs).2 = (simulate step x (cs.filterMap g)).2 := by
  induction cs generalizing x with
  | nil => rfl
  | cons c cs ih =>
    rw [List.filterMap_cons]
    cases hg : g c with
    | none =>
      show (simulate step' (step' x c).2 cs).2 = _
      rw [hnone c hg, ih]
    | some b =>
      show (simulate step' (step' x c).2 cs).2 = (simulate step (step x b).2 (cs.filterMap g)).2
      rw [hsome c b hg, ih]

/-- What every operation keeps holds at the end. -/
theorem simulate_invariant {step : S → β → α × S} {J : S → Prop} {x : S} {bs : List β} (hx : J x)
    (h : ∀ y b, J y → J (step y b).2) : J (simulate step x bs).2 := by
  induction bs generalizing x with
  | nil => exact hx
  | cons b bs ih => exact ih (h x b hx)

namespace Prog

variable {f : β → Prog σ ω ε α}

def each (f : β → Prog σ ω ε α) : List β → Prog σ ω ε (List α)
  | [] => pure []
  | b :: bs => do
    let a ← f b
    let rest ← each f bs
    pure (a :: rest)

def Throughout (f : β → Prog σ ω ε α) (C : β → σ → Bool) (s : σ) : List β → Bool
  | [] => true
  | b :: bs => C b s && Throughout f C (f b s).state bs

theorem each_events_subset (bs cs : List β) (s : σ) :
    (each f bs s).events ⊆ (each f (bs ++ cs) s).events := by
  induction bs generalizing s with
  | nil => exact List.nil_subset _
  | cons b bs ih =>
    refine bind_events_subset _ (fun a s' => ?_) s
    show ((each f bs >>= fun rest => pure (a :: rest)) s').events ⊆
      ((each f (bs ++ cs) >>= fun rest => pure (a :: rest)) s').events
    rw [bind_pure_events, bind_pure_events]
    exact ih s'

/-- The events of the first operation. -/
theorem head_events_subset (b : β) (bs : List β) (s : σ) :
    (f b s).events ⊆ (each f (b :: bs) s).events := bind_head_events (f b) _ s

theorem each_cons_events {b : β} {bs : List β} {s s₁ : σ} {a : α} {l : List ω}
    (h : f b s = ⟨.ok a, s₁, l⟩) : (each f (b :: bs) s).events = l ++ (each f bs s₁).events := by
  rw [each, bind_of_ok h, Run.after_events, bind_pure_events]

/-- A run that goes on. -/
theorem each_append {bs cs : List β} {s s₁ s₂ : σ} {as as' : List α} {l l' : List ω}
    (h : each f bs s = ⟨.ok as, s₁, l⟩) (h' : each f cs s₁ = ⟨.ok as', s₂, l'⟩) :
    each f (bs ++ cs) s = ⟨.ok (as ++ as'), s₂, l ++ l'⟩ := by
  induction bs generalizing s as l with
  | nil =>
    cases h
    exact h'
  | cons b bs ih =>
    obtain ⟨a, t, l₁, l₂, hop, hrest, rfl⟩ := bind_eq_ok h
    obtain ⟨as₁, t₁, l₃, l₄, hops, hpure, rfl⟩ := bind_eq_ok hrest
    cases hpure
    rw [List.cons_append, each, bind_of_ok hop, bind_of_ok (ih hops)]
    simp [Run.after, List.append_assoc]

theorem each_singleton {b : β} {s s₁ : σ} {a : α} {l : List ω} (h : f b s = ⟨.ok a, s₁, l⟩) :
    each f [b] s = ⟨.ok [a], s₁, l⟩ := by
  unfold each
  rw [bind_of_ok h, each, bind_of_ok (pure_apply [] s₁)]
  simp [Run.after]

/-- The condition on one operation more. -/
theorem throughout_snoc {C : β → σ → Bool} {bs : List β} {s s₁ : σ} {as : List α} {l : List ω}
    (h : each f bs s = ⟨.ok as, s₁, l⟩) (b : β) :
    Throughout f C s (bs ++ [b]) = (Throughout f C s bs && C b s₁) := by
  induction bs generalizing s as l with
  | nil =>
    cases h
    show (C b _ && true) = (true && C b _)
    rw [Bool.and_true, Bool.true_and]
  | cons c bs ih =>
    obtain ⟨a, t, l₁, l₂, hop, hrest, rfl⟩ := bind_eq_ok h
    obtain ⟨as₁, t₁, l₃, l₄, hops, hpure, rfl⟩ := bind_eq_ok hrest
    cases hpure
    rw [List.cons_append, Throughout, Throughout, hop, ih hops, Bool.and_assoc]

/-- The events of the operation that comes next. -/
theorem next_events_subset {bs : List β} {s s₁ : σ} {as : List α} {l : List ω}
    (h : each f bs s = ⟨.ok as, s₁, l⟩) (b : β) :
    (f b s₁).events ⊆ (each f (bs ++ [b]) s).events := by
  induction bs generalizing s as l with
  | nil =>
    cases h
    exact head_events_subset b [] s₁
  | cons c bs ih =>
    obtain ⟨a, t, l₁, l₂, hop, hrest, rfl⟩ := bind_eq_ok h
    obtain ⟨as₁, t₁, l₃, l₄, hops, hpure, rfl⟩ := bind_eq_ok hrest
    cases hpure
    rw [List.cons_append, each_cons_events hop]
    exact List.Subset.trans (ih hops) (List.subset_append_right _ _)

/-- Operations that only read. -/
theorem each_of_eq {g : β → α} {bs : List β} {s : σ} (h : ∀ b ∈ bs, f b s = ⟨.ok (g b), s, []⟩) :
    each f bs s = ⟨.ok (bs.map g), s, []⟩ := by
  induction bs with
  | nil => rfl
  | cons b bs ih =>
    unfold each
    rw [bind_of_ok (h b List.mem_cons_self),
      bind_of_ok (ih fun c hc => h c (List.mem_cons_of_mem b hc))]
    rfl

/-- **From operations to runs.** -/
theorem Returns.each {P : ω → Prop} {step : S → β → α × S} {I : S → σ → Prop} {C : β → σ → Bool}
    {bs : List β} {x : S} {s : σ}
    (hstep : ∀ b ∈ bs, ∀ x s, I x s → C b s = true →
      Returns P (f b) s fun a s' => a = (step x b).1 ∧ I (step x b).2 s')
    (h : I x s) (hc : Throughout f C s bs = true) :
    Returns P (each f bs) s fun as s' => as = (simulate step x bs).1 ∧ I (simulate step x bs).2 s' := by
  induction bs generalizing x s with
  | nil => exact Returns.pure ⟨rfl, h⟩
  | cons b bs ih =>
    rw [Throughout, Bool.and_eq_true] at hc
    have hb := hstep b List.mem_cons_self x s h hc.1
    apply Returns.bind hb.with_state
    rintro a s' ⟨rfl, rfl, h'⟩
    apply Returns.bind (ih (fun c hmem => hstep c (List.mem_cons_of_mem b hmem)) h' hc.2)
    rintro as s'' ⟨rfl, h''⟩
    exact Returns.pure ⟨rfl, h''⟩

/-- What every operation keeps in the states that meet its condition, when the answers do not matter. -/
theorem Returns.each_throughout {P : ω → Prop} {J : σ → Prop} {C : β → σ → Bool} {bs : List β} {s : σ}
    (hstep : ∀ b ∈ bs, ∀ s, J s → C b s = true → Returns P (f b) s fun _ s' => J s') (h : J s)
    (hc : Throughout f C s bs = true) : Returns P (Prog.each f bs) s fun _ s' => J s' := by
  induction bs generalizing s with
  | nil => exact Returns.pure h
  | cons b bs ih =>
    rw [Throughout, Bool.and_eq_true] at hc
    apply Returns.bind (hstep b List.mem_cons_self s h hc.1).with_state
    rintro a s' ⟨rfl, h'⟩
    apply Returns.bind (ih (fun c hmem => hstep c (List.mem_cons_of_mem b hmem)) h' hc.2)
    exact fun as s'' h'' => Returns.pure h''

theorem throughout_true (s : σ) (bs : List β) : Throughout f (fun _ _ => true) s bs = true := by
  induction bs generalizing s with
  | nil => rfl
  | cons b bs ih => exact ih _

/-- What operations keep that always return and emit nothing. -/
theorem each_keeps {J : σ → Prop} {bs : List β} {s : σ}
    (hstep : ∀ b ∈ bs, ∀ s, J s → ∃ a s', f b s = ⟨.ok a, s', []⟩ ∧ J s') (h : J s) :
    ∃ as s', each f bs s = ⟨.ok as, s', []⟩ ∧ J s' := by
  induction bs generalizing s with
  | nil => exact ⟨[], s, rfl, h⟩
  | cons b bs ih =>
    obtain ⟨a, s₁, hb, h₁⟩ := hstep b List.mem_cons_self s h
    obtain ⟨as, s₂, hbs, h₂⟩ := ih (fun c hmem => hstep c (List.mem_cons_of_mem b hmem)) h₁
    refine ⟨a :: as, s₂, ?_, h₂⟩
    unfold each
    rw [bind_of_ok hb, bind_of_ok hbs]
    rfl

/-- How each operation ends. -/
def EachRun (f : β → Prog σ ω ε α) (Q : β → Run σ ω ε α → Prop) (s : σ) : List β → Prop
  | [] => True
  | b :: bs => Q b (f b s) ∧ EachRun f Q (f b s).state bs

/-- **Exactly the runs whose steps meet the condition end well at each step.** -/
theorem eachRun_iff {I : σ → Prop} {Q : β → Run σ ω ε α → Prop} {C D : β → σ → Bool} {s : σ}
    {bs : List β} (hstep : ∀ b ∈ bs, ∀ s, I s → D b s = true →
      (Q b (f b s) ↔ C b s = true) ∧ (C b s = true → I (f b s).state))
    (h : I s) (hd : Throughout f D s bs = true) : EachRun f Q s bs ↔ Throughout f C s bs = true := by
  induction bs generalizing s with
  | nil => exact ⟨fun _ => rfl, fun _ => trivial⟩
  | cons b bs ih =>
    rw [Throughout, Bool.and_eq_true] at hd
    obtain ⟨hiff, hkeep⟩ := hstep b List.mem_cons_self s h hd.1
    rw [EachRun, Throughout, Bool.and_eq_true, hiff]
    apply and_congr_right
    intro hc
    exact ih (fun c hmem => hstep c (List.mem_cons_of_mem b hmem)) (hkeep hc) hd.2

theorem Respects.each {R : σ → σ → Prop} (hf : ∀ b, Respects R (f b)) (bs : List β) :
    Respects R (Prog.each f bs) := by
  induction bs with
  | nil => exact Respects.pure []
  | cons b bs ih => exact (hf b).bind fun a => ih.bind fun as => Respects.pure (a :: as)

end Prog

end Program
