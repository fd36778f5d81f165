import Mathlib.Data.Option.Basic

/-!
# Programs with a state, exceptions and a trace

A `Prog σ ω ε α` runs on a state `σ`, emits events `ω`, and ends with a value, with an exception, or
not at all (`diverged`: the fuel of a loop ran out).  An exception keeps what was written before
it, as a C++ one does, so the state and the events come back in every case; a handler sees
exceptions only, never a call that does not return.

    m s = ⟨.ok a, s', l⟩    → (m >>= f) s = (f a s').after l                     (bind_of_ok)
    m s = ⟨.error e, s', l⟩ → tryCatch m h s = (h e s').after l                  (tryCatch_of_error)

`Returns P m s Q` is total correctness under a condition on the events: if all of them satisfy `P`,
then `m` returns, with a value and a state in `Q`.  The condition is on the whole call, so it
passes to the calls inside it (`Returns.bind`); this is how an assumption such as "no collision
among the pairs hashed in this run" reaches the places where the hashes are compared.
-/

namespace Program

/-- How a call ends. -/
inductive Outcome (ε α : Type) where
  | ok (a : α)
  | error (e : ε)
  | diverged
deriving DecidableEq, Repr

/-- One call: how it ended, the state it left and what it emitted. -/
@[ext] structure Run (σ ω ε α : Type) where
  outcome : Outcome ε α
  state : σ
  events : List ω

/-- Programs over the state `σ` with events `ω` and exceptions `ε`. -/
def Prog (σ ω ε α : Type) : Type := σ → Run σ ω ε α

variable {σ τ ω ε α β : Type}

/-- The run as seen after the events `l`. -/
def Run.after (l : List ω) : Run σ ω ε α → Run σ ω ε α
  | ⟨o, s, l'⟩ => ⟨o, s, l ++ l'⟩

@[simp] theorem Run.after_outcome (l : List ω) (r : Run σ ω ε α) : (r.after l).outcome = r.outcome :=
  rfl

@[simp] theorem Run.after_state (l : List ω) (r : Run σ ω ε α) : (r.after l).state = r.state := rfl

@[simp] theorem Run.after_events (l : List ω) (r : Run σ ω ε α) :
    (r.after l).events = l ++ r.events := rfl

@[simp] theorem Run.after_nil (r : Run σ ω ε α) : r.after [] = r := rfl

namespace Prog

def ret (a : α) : Prog σ ω ε α := fun s => ⟨.ok a, s, []⟩

def andThen (m : Prog σ ω ε α) (f : α → Prog σ ω ε β) : Prog σ ω ε β := fun s =>
  match m s with
  | ⟨.ok a, s', l⟩ => (f a s').after l
  | ⟨.error e, s', l⟩ => ⟨.error e, s', l⟩
  | ⟨.diverged, s', l⟩ => ⟨.diverged, s', l⟩

instance : Monad (Prog σ ω ε) where
  pure := ret
  bind := andThen

def raise (e : ε) : Prog σ ω ε α := fun s => ⟨.error e, s, []⟩

/-- Run `h` on the exception of `m`, from the state `m` left. -/
def handle (m : Prog σ ω ε α) (h : ε → Prog σ ω ε α) : Prog σ ω ε α := fun s =>
  match m s with
  | ⟨.error e, s', l⟩ => (h e s').after l
  | r => r

instance : MonadExcept ε (Prog σ ω ε) where
  throw := raise
  tryCatch := handle

/-- A loop whose fuel ran out. -/
def diverge : Prog σ ω ε α := fun s => ⟨.diverged, s, []⟩

def get : Prog σ ω ε σ := fun s => ⟨.ok s, s, []⟩

def modify (f : σ → σ) : Prog σ ω ε Unit := fun s => ⟨.ok (), f s, []⟩

def emit (x : ω) : Prog σ ω ε Unit := fun s => ⟨.ok (), s, [x]⟩

/-- Run a program of a component, seen through `view` and written back by `put`. -/
def zoom (view : σ → τ) (put : τ → σ → σ) (m : Prog τ ω ε α) : Prog σ ω ε α := fun s =>
  match m (view s) with
  | ⟨o, t, l⟩ => ⟨o, put t s, l⟩

/-! ## Running -/

@[simp] theorem pure_apply (a : α) (s : σ) : (pure a : Prog σ ω ε α) s = ⟨.ok a, s, []⟩ := rfl

@[simp] theorem throw_apply (e : ε) (s : σ) : (throw e : Prog σ ω ε α) s = ⟨.error e, s, []⟩ := rfl

@[simp] theorem get_apply (s : σ) : (get : Prog σ ω ε σ) s = ⟨.ok s, s, []⟩ := rfl

@[simp] theorem modify_apply (f : σ → σ) (s : σ) :
    (modify f : Prog σ ω ε Unit) s = ⟨.ok (), f s, []⟩ := rfl

@[simp] theorem emit_apply (x : ω) (s : σ) : (emit x : Prog σ ω ε Unit) s = ⟨.ok (), s, [x]⟩ := rfl

theorem bind_apply (m : Prog σ ω ε α) (f : α → Prog σ ω ε β) (s : σ) :
    (m >>= f) s = match m s with
      | ⟨.ok a, s', l⟩ => (f a s').after l
      | ⟨.error e, s', l⟩ => ⟨.error e, s', l⟩
      | ⟨.diverged, s', l⟩ => ⟨.diverged, s', l⟩ := rfl

theorem bind_of_ok {m : Prog σ ω ε α} {s s' : σ} {a : α} {l : List ω} (h : m s = ⟨.ok a, s', l⟩)
    (f : α → Prog σ ω ε β) : (m >>= f) s = (f a s').after l := by
  rw [bind_apply, h]

theorem bind_of_error {m : Prog σ ω ε α} {s s' : σ} {e : ε} {l : List ω}
    (h : m s = ⟨.error e, s', l⟩) (f : α → Prog σ ω ε β) : (m >>= f) s = ⟨.error e, s', l⟩ := by
  rw [bind_apply, h]

theorem bind_outcome_error {m : Prog σ ω ε α} {s : σ} {e : ε} (h : (m s).outcome = .error e)
    {f : α → Prog σ ω ε β} : ((m >>= f) s).outcome = .error e := by
  rcases hrun : m s with ⟨o, s', l⟩
  rw [hrun] at h
  cases h
  rw [bind_of_error hrun]

/-- A sequence that returned: both parts did. -/
theorem bind_eq_ok {m : Prog σ ω ε α} {f : α → Prog σ ω ε β} {s s' : σ} {b : β} {l : List ω}
    (h : (m >>= f) s = ⟨.ok b, s', l⟩) :
    ∃ a s₁ l₁ l₂, m s = ⟨.ok a, s₁, l₁⟩ ∧ f a s₁ = ⟨.ok b, s', l₂⟩ ∧ l = l₁ ++ l₂ := by
  rw [bind_apply] at h
  rcases hm : m s with ⟨o, s₁, l₁⟩
  rw [hm] at h
  cases o with
  | ok a =>
    rcases hf : f a s₁ with ⟨o₂, s₂, l₂⟩
    simp only [hf] at h
    cases h
    exact ⟨a, s₁, l₁, l₂, rfl, hf, rfl⟩
  | error e => cases h
  | diverged => cases h

theorem tryCatch_apply (m : Prog σ ω ε α) (h : ε → Prog σ ω ε α) (s : σ) :
    tryCatch m h s = match m s with
      | ⟨.error e, s', l⟩ => (h e s').after l
      | r => r := rfl

theorem tryCatch_of_ok {m : Prog σ ω ε α} {s s' : σ} {a : α} {l : List ω}
    (hm : m s = ⟨.ok a, s', l⟩) (h : ε → Prog σ ω ε α) : tryCatch m h s = ⟨.ok a, s', l⟩ := by
  rw [tryCatch_apply, hm]

theorem tryCatch_of_error {m : Prog σ ω ε α} {s s' : σ} {e : ε} {l : List ω}
    (hm : m s = ⟨.error e, s', l⟩) (h : ε → Prog σ ω ε α) :
    tryCatch m h s = (h e s').after l := by
  rw [tryCatch_apply, hm]

theorem zoom_of_eq {view : σ → τ} {put : τ → σ → σ} {m : Prog τ ω ε α} {s : σ}
    {o : Outcome ε α} {t : τ} {l : List ω} (h : m (view s) = ⟨o, t, l⟩) :
    zoom view put m s = ⟨o, put t s, l⟩ := by
  unfold zoom
  rw [h]

theorem zoom_events (view : σ → τ) (put : τ → σ → σ) (m : Prog τ ω ε α) (s : σ) :
    (zoom view put m s).events = (m (view s)).events := by
  rcases hm : m (view s) with ⟨o, t, l⟩
  rw [zoom_of_eq hm]

/-- A longer continuation emits more. -/
theorem bind_events_subset (m : Prog σ ω ε α) {γ : Type} {f : α → Prog σ ω ε β} {g : α → Prog σ ω ε γ}
    (h : ∀ a s', (f a s').events ⊆ (g a s').events) (s : σ) :
    ((m >>= f) s).events ⊆ ((m >>= g) s).events := by
  rw [bind_apply, bind_apply]
  rcases m s with ⟨o, s', l⟩
  cases o with
  | ok a =>
    intro x hx
    rcases List.mem_append.mp hx with hx | hx
    · exact List.mem_append_left _ hx
    · exact List.mem_append_right _ (h a s' hx)
  | error e => exact List.Subset.refl l
  | diverged => exact List.Subset.refl l

theorem bind_head_events (m : Prog σ ω ε α) (f : α → Prog σ ω ε β) (s : σ) :
    (m s).events ⊆ ((m >>= f) s).events := by
  rw [bind_apply]
  rcases m s with ⟨o, s', l⟩
  cases o with
  | ok a => exact List.subset_append_left _ _
  | error e => exact List.Subset.refl l
  | diverged => exact List.Subset.refl l

theorem tryCatch_events (m : Prog σ ω ε α) (h : ε → Prog σ ω ε α) (s : σ) :
    (m s).events ⊆ (tryCatch m h s).events := by
  rw [tryCatch_apply]
  rcases m s with ⟨o, s', l⟩
  cases o with
  | ok a => exact List.Subset.refl l
  | error e => exact List.subset_append_left _ _
  | diverged => exact List.Subset.refl l

theorem bind_pure_events (m : Prog σ ω ε α) (f : α → β) (s : σ) :
    ((m >>= fun a => pure (f a)) s).events = (m s).events := by
  rw [bind_apply]
  rcases m s with ⟨o, s', l⟩
  cases o with
  | ok a => exact List.append_nil l
  | error e => rfl
  | diverged => rfl

theorem bind_pure_state (m : Prog σ ω ε α) (f : α → β) (s : σ) :
    ((m >>= fun a => pure (f a)) s).state = (m s).state := by
  rw [bind_apply]
  rcases m s with ⟨o, s', l⟩
  cases o <;> rfl

theorem bind_pure_ok_iff (m : Prog σ ω ε α) (f : α → β) (s : σ) (b : β) :
    ((m >>= fun a => pure (f a)) s).outcome = .ok b ↔ ∃ a, (m s).outcome = .ok a ∧ f a = b := by
  rw [bind_apply]
  rcases m s with ⟨o, s', l⟩
  cases o <;> simp

/-! ## Total correctness under a condition on the events -/

/-- If all events of `m` satisfy `P`, it returns a value and a state in `Q`. -/
def Returns (P : ω → Prop) (m : Prog σ ω ε α) (s : σ) (Q : α → σ → Prop) : Prop :=
  (∀ x ∈ (m s).events, P x) → ∃ a, (m s).outcome = .ok a ∧ Q a (m s).state

section Returns

variable {P : ω → Prop} {s : σ} {m : Prog σ ω ε α}

theorem Returns.pure {Q : α → σ → Prop} {a : α} (h : Q a s) :
    Returns P (pure a : Prog σ ω ε α) s Q := fun _ => ⟨a, rfl, h⟩

theorem Returns.emit {Q : Unit → σ → Prop} {x : ω} (h : P x → Q () s) :
    Returns P (emit x : Prog σ ω ε Unit) s Q := fun hx =>
  ⟨(), rfl, h (hx x List.mem_cons_self)⟩

theorem Returns.of_eq {Q : α → σ → Prop} {a : α} {s' : σ} {l : List ω} (h : m s = ⟨.ok a, s', l⟩)
    (hq : Q a s') : Returns P m s Q := by
  intro _
  rw [h]
  exact ⟨a, rfl, hq⟩

theorem Returns.congr {Q : α → σ → Prop} {m' : Prog σ ω ε α} (h : m s = m' s)
    (hm : Returns P m' s Q) : Returns P m s Q := by
  rw [Returns, h]
  exact hm

theorem Returns.mono {Q Q' : α → σ → Prop} (h : Returns P m s Q) (hq : ∀ a s', Q a s' → Q' a s') :
    Returns P m s Q' := by
  intro hx
  obtain ⟨a, ho, ha⟩ := h hx
  exact ⟨a, ho, hq _ _ ha⟩

/-- What is returned, together with where it was returned. -/
theorem Returns.with_state {Q : α → σ → Prop} (h : Returns P m s Q) :
    Returns P m s fun a s' => s' = (m s).state ∧ Q a s' := by
  intro hx
  obtain ⟨a, ho, ha⟩ := h hx
  exact ⟨a, ho, rfl, ha⟩

/-- The events of a call inside a sequence are events of the sequence. -/
theorem Returns.bind {Q : α → σ → Prop} {R : β → σ → Prop} {f : α → Prog σ ω ε β}
    (hm : Returns P m s Q) (hf : ∀ a s', Q a s' → Returns P (f a) s' R) :
    Returns P (m >>= f) s R := by
  intro hx
  rw [bind_apply] at hx ⊢
  rcases hms : m s with ⟨o, s', l⟩
  rw [hms] at hx
  rw [Returns, hms] at hm
  cases o with
  | ok a =>
    have hin : ∀ x ∈ l, P x := fun x h => hx x (List.mem_append_left _ h)
    obtain ⟨a', ho, ha⟩ := hm hin
    cases ho
    exact hf a s' ha fun x h => hx x (List.mem_append_right _ h)
  | error e =>
    obtain ⟨a', ho, _⟩ := hm hx
    cases ho
  | diverged =>
    obtain ⟨a', ho, _⟩ := hm hx
    cases ho

/-- A step that is known to return needs no condition. -/
theorem Returns.bind_of_eq {R : β → σ → Prop} {f : α → Prog σ ω ε β} {a : α} {s' : σ} {l : List ω}
    (hm : m s = ⟨.ok a, s', l⟩) (hf : Returns P (f a) s' R) : Returns P (m >>= f) s R := by
  intro hx
  rw [bind_of_ok hm] at hx ⊢
  exact hf fun x h => hx x (List.mem_append_right _ h)

/-- The first part of a sequence that only changes the value then. -/
theorem Returns.of_bind_pure {f : α → β} {Q : β → σ → Prop}
    (h : Returns P (m >>= fun a => Pure.pure (f a)) s Q) : Returns P m s fun a s' => Q (f a) s' := by
  intro hx
  obtain ⟨b, ho, hq⟩ := h fun x hxl => hx x (by rwa [bind_pure_events] at hxl)
  rw [bind_apply] at ho hq
  rcases hms : m s with ⟨o, s', l⟩
  rw [hms] at ho hq
  cases o with
  | ok a =>
    cases ho
    exact ⟨a, rfl, hq⟩
  | error e => cases ho
  | diverged => cases ho

/-- A program of a component. -/
theorem Returns.zoom {view : σ → τ} {put : τ → σ → σ} {n : Prog τ ω ε α} {Q : α → τ → Prop}
    (h : Returns P n (view s) Q) :
    Returns P (Prog.zoom view put n) s fun a s' => ∃ t, Q a t ∧ s' = put t s := by
  intro hx
  rcases hn : n (view s) with ⟨o, t, l⟩
  rw [Returns, hn] at h
  rw [zoom_of_eq hn] at hx ⊢
  obtain ⟨a, ho, ha⟩ := h hx
  exact ⟨a, ho, t, ha, rfl⟩

theorem Returns.tryCatch {Q : α → σ → Prop} {h : ε → Prog σ ω ε α} (hm : Returns P m s Q) :
    Returns P (tryCatch m h) s Q := by
  intro hx
  rw [tryCatch_apply] at hx ⊢
  rcases hms : m s with ⟨o, s', l⟩
  rw [hms] at hx
  rw [Returns, hms] at hm
  cases o with
  | ok a => exact hm hx
  | error e =>
    have hin : ∀ x ∈ l, P x := fun x hxl => hx x (List.mem_append_left _ hxl)
    obtain ⟨a, ho, _⟩ := hm hin
    cases ho
  | diverged => exact hm hx

end Returns

/-! ## Ending -/

/-- If all events satisfy `P`, the call returns or raises an exception, and leaves a state in `Q`. -/
def Leaves (P : ω → Prop) (m : Prog σ ω ε α) (s : σ) (Q : σ → Prop) : Prop :=
  (∀ x ∈ (m s).events, P x) → ((∃ a, (m s).outcome = .ok a) ∨ ∃ e, (m s).outcome = .error e) ∧
    Q (m s).state

section Leaves

variable {P : ω → Prop} {s : σ} {m : Prog σ ω ε α} {Q : σ → Prop}

theorem Leaves.pure {a : α} (h : Q s) : Leaves P (pure a : Prog σ ω ε α) s Q :=
  fun _ => ⟨Or.inl ⟨a, rfl⟩, h⟩

theorem Leaves.throw {e : ε} (h : Q s) : Leaves P (throw e : Prog σ ω ε α) s Q :=
  fun _ => ⟨Or.inr ⟨e, rfl⟩, h⟩

theorem Leaves.mono {R : σ → Prop} (h : Leaves P m s Q) (hr : ∀ s', Q s' → R s') : Leaves P m s R :=
  fun hx => ⟨(h hx).1, hr _ (h hx).2⟩

/-- A step that returns, and then the rest. -/
theorem Leaves.bind_of_returns {R : α → σ → Prop} {f : α → Prog σ ω ε β} (hm : Returns P m s R)
    (hf : ∀ a s', R a s' → Leaves P (f a) s' Q) : Leaves P (m >>= f) s Q := by
  intro hx
  rw [bind_apply] at hx ⊢
  rcases hms : m s with ⟨o, s', l⟩
  rw [hms] at hx
  rw [Returns, hms] at hm
  cases o with
  | ok a =>
    obtain ⟨a', ho, ha⟩ := hm fun x h => hx x (List.mem_append_left _ h)
    cases ho
    exact hf a s' ha fun x h => hx x (List.mem_append_right _ h)
  | error e =>
    obtain ⟨a', ho, _⟩ := hm hx
    cases ho
  | diverged =>
    obtain ⟨a', ho, _⟩ := hm hx
    cases ho

/-- A step that is known to return needs no condition. -/
theorem Leaves.bind_of_eq {f : α → Prog σ ω ε β} {a : α} {s' : σ} {l : List ω}
    (hm : m s = ⟨.ok a, s', l⟩) (hf : Leaves P (f a) s' Q) : Leaves P (m >>= f) s Q := by
  intro hx
  rw [bind_of_ok hm] at hx ⊢
  exact hf fun x h => hx x (List.mem_append_right _ h)

/-- A step that may raise an exception, and then the rest. -/
theorem Leaves.bind {R : σ → Prop} {f : α → Prog σ ω ε β} (hm : Leaves P m s R)
    (hraise : ∀ s', R s' → Q s') (hf : ∀ a s', R s' → Leaves P (f a) s' Q) :
    Leaves P (m >>= f) s Q := by
  intro hx
  rw [bind_apply] at hx ⊢
  rcases hms : m s with ⟨o, s', l⟩
  rw [hms] at hx
  rw [Leaves, hms] at hm
  cases o with
  | ok a =>
    exact hf a s' (hm fun x h => hx x (List.mem_append_left _ h)).2 fun x h =>
      hx x (List.mem_append_right _ h)
  | error e => exact ⟨Or.inr ⟨e, rfl⟩, hraise s' (hm hx).2⟩
  | diverged => rcases (hm hx).1 with ⟨a, ho⟩ | ⟨e, ho⟩ <;> cases ho

/-- What holds of the state in any case holds where the call returns. -/
theorem Returns.and_leaves {R : α → σ → Prop} (h : Returns P m s R) (h' : Leaves P m s Q) :
    Returns P m s fun a s' => R a s' ∧ Q s' := by
  intro hx
  obtain ⟨a, ho, ha⟩ := h hx
  exact ⟨a, ho, ha, (h' hx).2⟩

/-- A program of a component. -/
theorem Leaves.zoom {view : σ → τ} {put : τ → σ → σ} {n : Prog τ ω ε α} {R : τ → Prop}
    (h : Leaves P n (view s) R) (hq : ∀ t, R t → Q (put t s)) :
    Leaves P (Prog.zoom view put n) s Q := by
  intro hx
  rcases hn : n (view s) with ⟨o, t, l⟩
  rw [Leaves, hn] at h
  rw [zoom_of_eq hn] at hx ⊢
  exact ⟨(h hx).1, hq t (h hx).2⟩

/-- An exception that is caught. -/
theorem Leaves.catch (a : α) (h : Leaves P m s Q) :
    Returns P (tryCatch m fun _ => Pure.pure a) s fun _ s' => Q s' := by
  intro hx
  rw [tryCatch_apply] at hx ⊢
  rcases hms : m s with ⟨o, s', l⟩
  rw [hms] at hx
  rw [Leaves, hms] at h
  cases o with
  | ok b => exact ⟨b, rfl, (h hx).2⟩
  | error e => exact ⟨a, rfl, (h fun x hxl => hx x (List.mem_append_left _ hxl)).2⟩
  | diverged => rcases (h hx).1 with ⟨b, ho⟩ | ⟨e, ho⟩ <;> cases ho

/-- The call ends on every state, with a value or an exception. -/
def Ends (m : Prog σ ω ε α) : Prop := ∀ s, (m s).outcome ≠ .diverged

theorem Ends.pure (a : α) : Ends (Pure.pure a : Prog σ ω ε α) := fun _ => nofun

theorem Ends.throw (e : ε) : Ends (throw e : Prog σ ω ε α) := fun _ => nofun

theorem Ends.get : Ends (get : Prog σ ω ε σ) := fun _ => nofun

theorem Ends.modify (f : σ → σ) : Ends (modify f : Prog σ ω ε Unit) := fun _ => nofun

theorem Ends.bind {f : α → Prog σ ω ε β} (hm : Ends m) (hf : ∀ a, Ends (f a)) : Ends (m >>= f) := by
  intro s
  have ho := hm s
  rw [bind_apply]
  rcases hms : m s with ⟨o, s', l⟩
  rw [hms] at ho
  cases o with
  | ok a => exact hf a s'
  | error e => exact nofun
  | diverged => exact absurd rfl ho

theorem Ends.tryCatch {h : ε → Prog σ ω ε α} (hm : Ends m) (hh : ∀ e, Ends (h e)) :
    Ends (tryCatch m h) := by
  intro s
  have ho := hm s
  rw [tryCatch_apply]
  rcases hms : m s with ⟨o, s', l⟩
  rw [hms] at ho
  cases o with
  | ok a => exact nofun
  | error e => exact hh e s'
  | diverged => exact absurd rfl ho

theorem Ends.zoom {view : σ → τ} {put : τ → σ → σ} {n : Prog τ ω ε α} (h : Ends n) :
    Ends (Prog.zoom view put n) := by
  intro s
  have ho := h (view s)
  rcases hn : n (view s) with ⟨o, t, l⟩
  rw [hn] at ho
  rw [zoom_of_eq hn]
  exact ho

theorem Ends.leaves (h : Ends m) : Leaves P m s fun _ => True := by
  intro _
  have ho := h s
  cases hms : (m s).outcome with
  | ok a => exact ⟨Or.inl ⟨a, rfl⟩, trivial⟩
  | error e => exact ⟨Or.inr ⟨e, rfl⟩, trivial⟩
  | diverged => exact absurd hms ho

end Leaves

/-! ## Reading -/

/-- The call ends, has changed and emitted nothing, and a value it returns is in `Q`. -/
def Reads (m : Prog σ ω ε α) (s : σ) (Q : α → Prop) : Prop :=
  (∃ a, m s = ⟨.ok a, s, []⟩ ∧ Q a) ∨ ∃ e, m s = ⟨.error e, s, []⟩

section Reads

variable {s : σ} {m : Prog σ ω ε α} {Q : α → Prop}

theorem Reads.pure {a : α} (h : Q a) : Reads (pure a : Prog σ ω ε α) s Q := Or.inl ⟨a, rfl, h⟩

theorem Reads.throw (e : ε) : Reads (throw e : Prog σ ω ε α) s Q := Or.inr ⟨e, rfl⟩

theorem Reads.mono {R : α → Prop} (h : Reads m s Q) (hq : ∀ a, Q a → R a) : Reads m s R := by
  rcases h with ⟨a, ho, ha⟩ | herr
  · exact Or.inl ⟨a, ho, hq a ha⟩
  · exact Or.inr herr

theorem Reads.bind {R : β → Prop} {f : α → Prog σ ω ε β} (h : Reads m s Q)
    (hf : ∀ a, Q a → Reads (f a) s R) : Reads (m >>= f) s R := by
  rcases h with ⟨a, ho, ha⟩ | ⟨e, he⟩
  · rw [Reads, bind_of_ok ho, Run.after_nil]
    exact hf a ha
  · exact Or.inr ⟨e, bind_of_error he f⟩

end Reads

/-! ## Ending with a value or an exception -/

/-- The call ends: with a value and a state in `Q`, or with an exception and a state in `E`. -/
def Triple (m : Prog σ ω ε α) (s : σ) (Q : α → σ → Prop) (E : σ → Prop) : Prop :=
  (∃ a, (m s).outcome = .ok a ∧ Q a (m s).state) ∨ ∃ e, (m s).outcome = .error e ∧ E (m s).state

section Triple

variable {s : σ} {m : Prog σ ω ε α} {Q : α → σ → Prop} {E : σ → Prop}

theorem Triple.pure {a : α} (h : Q a s) : Triple (pure a : Prog σ ω ε α) s Q E := Or.inl ⟨a, rfl, h⟩

theorem Triple.throw {e : ε} (h : E s) : Triple (throw e : Prog σ ω ε α) s Q E := Or.inr ⟨e, rfl, h⟩

theorem Triple.get {R : σ → σ → Prop} (h : R s s) : Triple (get : Prog σ ω ε σ) s R E :=
  Or.inl ⟨s, rfl, h⟩

theorem Triple.modify {R : Unit → σ → Prop} {f : σ → σ} (h : R () (f s)) :
    Triple (modify f : Prog σ ω ε Unit) s R E := Or.inl ⟨(), rfl, h⟩

theorem Triple.mono {R : α → σ → Prop} {F : σ → Prop} (h : Triple m s Q E)
    (hq : ∀ a s', Q a s' → R a s') (he : ∀ s', E s' → F s') : Triple m s R F := by
  rcases h with ⟨a, ho, ha⟩ | ⟨e, ho, ha⟩
  · exact Or.inl ⟨a, ho, hq _ _ ha⟩
  · exact Or.inr ⟨e, ho, he _ ha⟩

theorem Triple.bind {R : β → σ → Prop} {f : α → Prog σ ω ε β} (hm : Triple m s Q E)
    (hf : ∀ a s', Q a s' → Triple (f a) s' R E) : Triple (m >>= f) s R E := by
  rw [Triple, bind_apply]
  rcases hms : m s with ⟨o, s', l⟩
  rw [Triple, hms] at hm
  rcases hm with ⟨a, ho, ha⟩ | ⟨e, ho, he⟩
  · obtain rfl : o = .ok a := ho
    exact hf a s' ha
  · obtain rfl : o = .error e := ho
    exact Or.inr ⟨e, rfl, he⟩

theorem Triple.tryCatch {F : σ → Prop} {h : ε → Prog σ ω ε α} (hm : Triple m s Q F)
    (hh : ∀ e s', F s' → Triple (h e) s' Q E) : Triple (tryCatch m h) s Q E := by
  rw [Triple, tryCatch_apply]
  rcases hms : m s with ⟨o, s', l⟩
  rw [Triple, hms] at hm
  rcases hm with ⟨a, ho, ha⟩ | ⟨e, ho, he⟩
  · obtain rfl : o = .ok a := ho
    exact Or.inl ⟨a, rfl, ha⟩
  · obtain rfl : o = .error e := ho
    exact hh e s' he

/-- A program of a component. -/
theorem Triple.zoom {view : σ → τ} {put : τ → σ → σ} {n : Prog τ ω ε α} {R : α → τ → Prop}
    {F : τ → Prop} (h : Triple n (view s) R F) (hq : ∀ a t, R a t → Q a (put t s))
    (he : ∀ t, F t → E (put t s)) : Triple (Prog.zoom view put n) s Q E := by
  rcases hn : n (view s) with ⟨o, t, l⟩
  rw [Triple, hn] at h
  rw [Triple, zoom_of_eq hn]
  rcases h with ⟨a, ho, ha⟩ | ⟨e, ho, hf⟩
  · exact Or.inl ⟨a, ho, hq a t ha⟩
  · exact Or.inr ⟨e, ho, he t hf⟩

/-- A call that raises no exception. -/
theorem Triple.returns {P : ω → Prop} (h : Triple m s Q fun _ => False) : Returns P m s Q :=
  fun _ => h.resolve_right fun ⟨_, _, hf⟩ => hf

theorem Ends.triple (h : Ends m) (s : σ) : Triple m s (fun _ _ => True) fun _ => True := by
  have ho := h s
  cases hms : (m s).outcome with
  | ok a => exact Or.inl ⟨a, hms, trivial⟩
  | error e => exact Or.inr ⟨e, hms, trivial⟩
  | diverged => exact absurd hms ho

end Triple

/-! ## Properties of programs -/

/-- A judgement about the values of programs that sequences keep. -/
structure Contract (T : ∀ α : Type, Prog σ ω ε α → (α → Prop) → Prop) : Prop where
  pure : ∀ {α : Type} {Q : α → Prop} {a : α}, Q a → T α (pure a) Q
  throw : ∀ {α : Type} {Q : α → Prop} (e : ε), T α (throw e) Q
  mono : ∀ {α : Type} {m : Prog σ ω ε α} {Q R : α → Prop}, T α m Q → (∀ a, Q a → R a) → T α m R
  bind : ∀ {α β : Type} {m : Prog σ ω ε α} {f : α → Prog σ ω ε β} {Q : α → Prop} {R : β → Prop},
    T α m Q → (∀ a, Q a → T β (f a) R) → T β (m >>= f) R

theorem reads_contract (s : σ) : Contract fun _ (m : Prog σ ω ε _) Q => Reads m s Q where
  pure := Reads.pure
  throw := Reads.throw
  mono := Reads.mono
  bind := Reads.bind

/-- On every state. -/
theorem triple_contract : Contract fun _ (m : Prog σ ω ε _) Q =>
    ∀ s, Triple m s (fun a _ => Q a) fun _ => True where
  pure h _ := Triple.pure h
  throw _ _ := Triple.throw trivial
  mono h hq s := (h s).mono (fun a _ ha => hq a ha) fun _ => id
  bind hm hf s := (hm s).bind fun a s' ha => hf a ha s'


/-- A property of programs that sequences keep. -/
structure Congruence (C : ∀ α : Type, Prog σ ω ε α → Prop) : Prop where
  pure : ∀ {α : Type} (a : α), C α (pure a)
  throw : ∀ {α : Type} (e : ε), C α (throw e)
  diverge : ∀ {α : Type}, C α diverge
  emit : ∀ x : ω, C Unit (emit x)
  bind : ∀ {α β : Type} {m : Prog σ ω ε α} {f : α → Prog σ ω ε β}, C α m → (∀ a, C β (f a)) →
    C β (m >>= f)

/-! ## Two runs side by side -/

section Respects

/-- From related states `m` ends alike, in related states. -/
def Respects (R : σ → σ → Prop) (m : Prog σ ω ε α) : Prop :=
  ∀ s s', R s s' → (m s').outcome = (m s).outcome ∧ (m s').events = (m s).events ∧
    R (m s).state (m s').state

variable {R : σ → σ → Prop} {m : Prog σ ω ε α}

theorem Respects.pure (a : α) : Respects R (pure a : Prog σ ω ε α) := fun _ _ h => ⟨rfl, rfl, h⟩

theorem Respects.throw (e : ε) : Respects R (throw e : Prog σ ω ε α) := fun _ _ h => ⟨rfl, rfl, h⟩

theorem Respects.diverge : Respects R (diverge : Prog σ ω ε α) := fun _ _ h => ⟨rfl, rfl, h⟩

theorem Respects.emit (x : ω) : Respects R (emit x : Prog σ ω ε Unit) := fun _ _ h => ⟨rfl, rfl, h⟩

theorem Respects.modify {f : σ → σ} (hf : ∀ s s', R s s' → R (f s) (f s')) :
    Respects R (modify f : Prog σ ω ε Unit) := fun s s' h => ⟨rfl, rfl, hf s s' h⟩

theorem Respects.bind {f : α → Prog σ ω ε β} (hm : Respects R m) (hf : ∀ a, Respects R (f a)) :
    Respects R (m >>= f) := by
  intro s s' h
  obtain ⟨ho, he, hr⟩ := hm s s' h
  rw [bind_apply, bind_apply]
  rcases hm₁ : m s with ⟨o, t, l⟩
  rcases hm₂ : m s' with ⟨o', t', l'⟩
  simp only [hm₁, hm₂] at ho he hr
  subst ho he
  cases o' with
  | ok a =>
    obtain ⟨ho, he, hr⟩ := hf a t t' hr
    exact ⟨ho, congrArg (l' ++ ·) he, hr⟩
  | error e => exact ⟨rfl, rfl, hr⟩
  | diverged => exact ⟨rfl, rfl, hr⟩

theorem Respects.tryCatch {g : ε → Prog σ ω ε α} (hm : Respects R m) (hg : ∀ e, Respects R (g e)) :
    Respects R (tryCatch m g) := by
  intro s s' h
  obtain ⟨ho, he, hr⟩ := hm s s' h
  rw [tryCatch_apply, tryCatch_apply]
  rcases hm₁ : m s with ⟨o, t, l⟩
  rcases hm₂ : m s' with ⟨o', t', l'⟩
  simp only [hm₁, hm₂] at ho he hr
  subst ho he
  cases o' with
  | ok a => exact ⟨rfl, rfl, hr⟩
  | error e =>
    obtain ⟨ho, he, hr⟩ := hg e t t' hr
    exact ⟨ho, congrArg (l' ++ ·) he, hr⟩
  | diverged => exact ⟨rfl, rfl, hr⟩

theorem respects_congruence (R : σ → σ → Prop) :
    Congruence fun _ (m : Prog σ ω ε _) => Respects R m where
  pure := Respects.pure
  throw := Respects.throw
  diverge := Respects.diverge
  emit := Respects.emit
  bind := Respects.bind

end Respects

/-! ## Two runs, one of them cut short -/

section CutShort

/-- From related states `m` ends alike, in related states, or the second run is cut short by the
exception `e`, in a state in `D`. -/
def CutShort (R : σ → σ → Prop) (e : ε) (D : σ → Prop) (m : Prog σ ω ε α) : Prop :=
  ∀ s s', R s s' → ((m s').outcome = (m s).outcome ∧ R (m s).state (m s').state) ∨
    ((m s').outcome = .error e ∧ D (m s').state)

variable {R : σ → σ → Prop} {e : ε} {D : σ → Prop} {m : Prog σ ω ε α}

theorem CutShort.modify {f : σ → σ} (hf : ∀ s s', R s s' → R (f s) (f s')) :
    CutShort R e D (modify f : Prog σ ω ε Unit) := fun s s' h => Or.inl ⟨rfl, hf s s' h⟩

theorem CutShort.bind {f : α → Prog σ ω ε β} (hm : CutShort R e D m) (hf : ∀ a, CutShort R e D (f a)) :
    CutShort R e D (m >>= f) := by
  intro s s' h
  have hfirst := hm s s' h
  rw [bind_apply, bind_apply]
  rcases hm₁ : m s with ⟨o, t, l⟩
  rcases hm₂ : m s' with ⟨o', t', l'⟩
  rw [hm₁, hm₂] at hfirst
  rcases hfirst with ⟨ho, hr⟩ | ⟨ho, hD⟩
  · obtain rfl : o' = o := ho
    cases o' with
    | ok a => exact hf a t t' hr
    | error e' => exact Or.inl ⟨rfl, hr⟩
    | diverged => exact Or.inl ⟨rfl, hr⟩
  · obtain rfl : o' = .error e := ho
    exact Or.inr ⟨rfl, hD⟩

theorem cutShort_congruence (R : σ → σ → Prop) (e : ε) (D : σ → Prop) :
    Congruence fun _ (m : Prog σ ω ε _) => CutShort R e D m where
  pure _ := fun _ _ h => Or.inl ⟨rfl, h⟩
  throw _ := fun _ _ h => Or.inl ⟨rfl, h⟩
  diverge := fun _ _ h => Or.inl ⟨rfl, h⟩
  emit _ := fun _ _ h => Or.inl ⟨rfl, h⟩
  bind := CutShort.bind

end CutShort

end Prog

end Program
