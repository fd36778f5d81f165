import Mathlib.Data.List.Basic

/-!
# Pipelined requests

One party sends requests and keeps those that are not acknowledged in a queue; the other answers them
in order, queues the answers and sends them back.  Requests and answers travel over channels that
keep their order, in messages that are cut independently of each other.  What has been sent,
answered and acknowledged so far is recorded.

    Aligned p → every acknowledged answer is the answer to its request        (Aligned.acked_begins)
    Aligned p → unacknowledged = in flight + queued answers + answers in flight
                                                                            (Aligned.length_waiting)
-/

variable {α β : Type}

/-- Both ends of a pipeline, its channels, and its history. -/
structure Pipeline (α β : Type) where
  waiting : List α
  requests : List α
  queued : List β
  answers : List β
  sent : List α
  answered : List (α × β)
  acked : List (α × β)

namespace Pipeline

/-- The queues and channels hold what the history says is on its way. -/
structure Aligned (p : Pipeline α β) : Prop where
  waiting : p.sent = p.acked.map Prod.fst ++ p.waiting
  requests : p.sent = p.answered.map Prod.fst ++ p.requests
  answers : p.answered.map Prod.snd = p.acked.map Prod.snd ++ (p.answers ++ p.queued)

variable {p : Pipeline α β}

/-! ## Steps -/

theorem Aligned.send (h : p.Aligned) (xs : List α) :
    Aligned { p with
      waiting := p.waiting ++ xs
      requests := p.requests ++ xs
      sent := p.sent ++ xs } where
  waiting := by
    rw [← List.append_assoc, ← h.waiting]
  requests := by
    rw [← List.append_assoc, ← h.requests]
  answers := h.answers

/-- The first requests are answered. -/
theorem Aligned.answer (h : p.Aligned) {xs : List (α × β)} {rest : List α}
    (hxs : p.requests = xs.map Prod.fst ++ rest) :
    Aligned { p with
      requests := rest
      queued := p.queued ++ xs.map Prod.snd
      answered := p.answered ++ xs } where
  waiting := h.waiting
  requests := by
    show p.sent = (p.answered ++ xs).map Prod.fst ++ rest
    rw [List.map_append, List.append_assoc, ← hxs, ← h.requests]
  answers := by
    show (p.answered ++ xs).map Prod.snd = _ ++ (p.answers ++ (p.queued ++ _))
    rw [List.map_append, h.answers, List.append_assoc, List.append_assoc]

/-- The first queued answers are sent. -/
theorem Aligned.reply (h : p.Aligned) {ys rest : List β} (hys : p.queued = ys ++ rest) :
    Aligned { p with
      queued := rest
      answers := p.answers ++ ys } where
  waiting := h.waiting
  requests := h.requests
  answers := by
    show _ = _ ++ ((p.answers ++ ys) ++ rest)
    rw [h.answers, hys, List.append_assoc]

theorem Aligned.length_waiting (h : p.Aligned) :
    p.waiting.length = p.requests.length + p.answers.length + p.queued.length := by
  have h1 := congrArg List.length h.waiting
  have h2 := congrArg List.length h.requests
  have h3 := congrArg List.length h.answers
  simp only [List.length_append, List.length_map] at h1 h2 h3
  omega

/-- Nobody acknowledges more than is waiting. -/
theorem Aligned.length_le (h : p.Aligned) {ys rest : List β} (hys : p.answers = ys ++ rest) :
    ys.length ≤ p.waiting.length := by
  have := h.length_waiting
  rw [hys, List.length_append] at this
  omega

/-- The first answers in flight are taken for the first waiting requests. -/
theorem Aligned.acknowledge (h : p.Aligned) {ys rest : List β} (hys : p.answers = ys ++ rest) :
    Aligned { p with
      waiting := p.waiting.drop ys.length
      answers := rest
      acked := p.acked ++ (p.waiting.take ys.length).zip ys } where
  waiting := by
    have hle := h.length_le hys
    show _ = (p.acked ++ _).map Prod.fst ++ _
    rw [List.map_append, List.map_fst_zip (by rw [List.length_take]; omega), List.append_assoc,
      List.take_append_drop, ← h.waiting]
  requests := h.requests
  answers := by
    have hle := h.length_le hys
    show _ = (p.acked ++ _).map Prod.snd ++ (rest ++ p.queued)
    rw [h.answers, List.map_append, List.map_snd_zip (by rw [List.length_take]; omega), hys,
      List.append_assoc, List.append_assoc]

/-! ## What is acknowledged -/

/-- **The acknowledged answers are the first ones that were given.** -/
theorem Aligned.acked_begins (h : p.Aligned) : p.acked <+: p.answered := by
  have hlen : p.acked.length ≤ p.answered.length := by
    have := congrArg List.length h.answers
    simp only [List.length_append, List.length_map] at this
    omega
  have htake : p.acked = p.answered.take p.acked.length := by
    refine Eq.trans (List.zip_of_prod ?_ ?_) (List.zip_of_prod rfl rfl).symm
    · have h1 := congrArg (List.take p.acked.length) h.waiting
      have h2 := congrArg (List.take p.acked.length) h.requests
      rw [List.take_left' (by rw [List.length_map])] at h1
      rw [List.take_append_of_le_length (by rw [List.length_map]; exact hlen)] at h2
      rw [← h1, h2, List.map_take]
    · have h3 := congrArg (List.take p.acked.length) h.answers
      rw [List.take_left' (by rw [List.length_map]), ← List.map_take] at h3
      exact h3.symm
  rw [htake]
  exact List.take_prefix _ _

/-- The next answer in flight belongs to the first request that waits. -/
theorem Aligned.next_answers (h : p.Aligned) {ys rest : List β} (hys : p.answers = ys ++ rest) :
    ∀ x ∈ (p.waiting.take ys.length).zip ys, x ∈ p.answered := by
  intro x hx
  exact (h.acknowledge hys).acked_begins.subset (List.mem_append_right _ hx)

end Pipeline
