import SetSync.InsertingProgress
import SetSync.Lib.EnoughFuel
import SetSync.LooseExchange

/-!
# The exchange of two tries

`SetSync::runStrictSync` of the evaluation program: in each round the sides send their answers and then
their subtries, and each key that is reported for an answer is inserted at once into the other set.  With
`synchron_` each of the four loops of a round has one turn.

The calls go to the two processes directly, and the handler is cleared after each message.  With the channels
of the system empty between two turns, a turn is a few moves of the system, whose handlers keep everything
that was ever reported (`Shown`, `Paused`).

    a turn     nothing to send, or less is left to do                       (Paused.ackTurn, Paused.subtrieTurn)
    a round    a side is done, or less is left to do                                           (loopRound_ends)
    the loop   ends, in a quiet state of a run of the system              (runStrictSync_ends, runStrictSync_ok)

It need not end with equal sets: an insertion can take the node of a pending hash away, and `getSubTrie`
drops the hash (`exchange_loses_keys`).
-/

namespace SetSync

open Program BitTrie SyncSystem SyncLoop LooseExchange

variable {d : Nat}

/-! ## The program -/

namespace StrictExchange

variable (hash : CryptoHash d) (fresh : Digest d) (fuel : Nat)

/-- `while (available) { turn; if (synchron_) break; }`: one turn, and whether another one follows. -/
def loopTurn (synchron : Bool) (available : PeersM d Bool) (turn : PeersM d Unit) : PeersM d Bool := do
  if ← available then do
    turn
    pure !synchron
  else pure false

def isAckOutputAvailable (x : Side) : PeersM d Bool := do
  let ps ← Prog.get
  pure (SyncProcess.isAckOutputAvailable (ps x))

/-- The side `x` sends answers, and inserts what the other side reports. -/
def ackTurn (bufferSize : Nat) (x : Side) : PeersM d Unit := do
  match ← onSide x (SyncProcess.readSomeTrieAcks bufferSize) with
  | none => pure ()
  | some (buffer, numberOfAcks) => do
    onSide x.other (SyncProcess.processAcks buffer buffer.length numberOfAcks)
    let ps ← Prog.get
    let _ ← Prog.each (insertCall hash fresh fuel x) (ListDiffHandler.list (ps x.other).handled)
    clearHandler x.other

/-- The side `x` sends a subtrie. -/
def subtrieTurn (bufferSize : Nat) (x : Side) : PeersM d Unit := do
  let buffer ← onSide x (SyncProcess.getSubTrie bufferSize)
  let _ ← onSide x.other (SyncProcess.processSubTrie buffer buffer.length)
  pure ()

def ackLoop (synchron : Bool) (bufferSize : Nat) (x : Side) (loops : Nat) : PeersM d Unit :=
  Prog.repeatWhile
    (loopTurn synchron (isAckOutputAvailable x) (ackTurn hash fresh fuel bufferSize x)) loops

def subtrieLoop (synchron : Bool) (bufferSize : Nat) (x : Side) (loops : Nat) : PeersM d Unit :=
  Prog.repeatWhile
    (loopTurn synchron (onSide x SyncProcess.isSubtrieOutputAvailable) (subtrieTurn bufferSize x)) loops

/-- `while (!processA->done() && !processB->done())`: one round, and whether another one follows. -/
def loopRound (synchron : Bool) (bufferSize loops : Nat) : PeersM d Bool := do
  let ps ← Prog.get
  if !SyncProcess.done (ps .A) && !SyncProcess.done (ps .B) then do
    ackLoop hash fresh fuel synchron bufferSize .A loops
    ackLoop hash fresh fuel synchron bufferSize .B loops
    subtrieLoop synchron bufferSize .B loops
    subtrieLoop synchron bufferSize .A loops
    pure true
  else pure false

def runStrictSync (synchron : Bool) (bufferSize loops : Nat) : PeersM d Unit :=
  Prog.repeatWhile (loopRound hash fresh fuel synchron bufferSize loops) loops

end StrictExchange

open StrictExchange

/-! ## Calls without the handler -/

/-- The call does not look at the handler, and leaves it as it is. -/
def Unheard {α : Type} (m : SyncM d α) : Prop :=
  ∀ p h, m { p with handled := h } = ⟨(m p).outcome, { (m p).state with handled := h }, (m p).events⟩

section Unheard

variable {α β : Type}

theorem Unheard.pure (a : α) : Unheard (Pure.pure a : SyncM d α) := fun _ _ => rfl

theorem Unheard.modifySync (f : SyncProcess d → SyncProcess d) : Unheard (SyncProcess.modifySync f) :=
  fun _ _ => rfl

theorem Unheard.onTrie (m : TrieM d α) : Unheard (SyncProcess.onTrie m) := fun _ _ => rfl

theorem Unheard.bind {m : SyncM d α} {f : α → SyncM d β} (hm : Unheard m) (hf : ∀ a, Unheard (f a)) :
    Unheard (m >>= f) := by
  intro p h
  have hhead := hm p h
  rw [Prog.bind_apply, Prog.bind_apply, hhead]
  rcases m p with ⟨o, p', l⟩
  cases o with
  | ok a =>
    simp only
    rw [hf a p' h]
    rfl
  | error e => rfl
  | diverged => rfl

theorem Unheard.tryCatch {m : SyncM d α} {g : Exn → SyncM d α} (hm : Unheard m) (hg : ∀ e, Unheard (g e)) :
    Unheard (tryCatch m g) := by
  intro p h
  have hhead := hm p h
  rw [Prog.tryCatch_apply, Prog.tryCatch_apply, hhead]
  rcases m p with ⟨o, p', l⟩
  cases o with
  | ok a => rfl
  | error e =>
    simp only
    rw [hg e p' h]
    rfl
  | diverged => rfl

/-- What goes on with the process only. -/
theorem Unheard.get {f : Peer d → SyncM d α} (hsame : ∀ p h, f { p with handled := h } = f p)
    (hf : ∀ p, Unheard (f p)) : Unheard (Prog.get >>= f) := by
  intro p h
  show f { p with handled := h } { p with handled := h } = _
  rw [hsame p h, hf p p h]
  rfl

theorem unheard_poll : Unheard (SyncProcess.isSubtrieOutputAvailable : SyncM d Bool) := by
  have hroot : Unheard (SyncProcess.getRootHash : SyncM d (Option (Digest d))) :=
    Unheard.onTrie KeyValueTrie.getRoot
  refine Unheard.get (fun _ _ => rfl) fun p => ?_
  split
  · refine hroot.bind fun root => ?_
    cases root with
    | none => exact Unheard.pure false
    | some root =>
      exact (Unheard.modifySync _).bind fun _ => Unheard.get (fun _ _ => rfl) fun p => Unheard.pure _
  · exact Unheard.pure _

theorem unheard_getSubTrie (bufferSize : Nat) :
    Unheard (SyncProcess.getSubTrie bufferSize : SyncM d Bytes) := by
  refine Unheard.get (fun _ _ => rfl) fun p => ?_
  induction p.sync.pendingSubtries with
  | nil => exact Unheard.pure []
  | cons top rest ih =>
    have hcut : Unheard (tryCatch (do
        let r ← SyncProcess.onTrie (KeyValueTrie.getSubTrie top bufferSize)
        Pure.pure (some r)) fun _ => Pure.pure none : SyncM d (Option (Bytes × Nat))) :=
      ((Unheard.onTrie _).bind fun r => Unheard.pure _).tryCatch fun _ => Unheard.pure none
    refine hcut.bind fun found => (Unheard.modifySync _).bind fun _ => ?_
    cases found with
    | none => exact ih
    | some cut => exact (Unheard.modifySync _).bind fun _ => Unheard.pure _

theorem unheard_processSubTrie (buffer : Bytes) (length : Nat) :
    Unheard (SyncProcess.processSubTrie buffer length : SyncM d Nat) := by
  have hanswer : ∀ xs : List (Digest d), Unheard (SyncProcess.answerHashes xs) := by
    intro xs
    induction xs with
    | nil => exact Unheard.pure ()
    | cons x xs ih => exact (Unheard.onTrie _).bind fun type => (Unheard.modifySync _).bind fun _ => ih
  exact (hanswer _).bind fun _ => (Unheard.modifySync _).bind fun _ =>
    Unheard.get (fun _ _ => rfl) fun p => Unheard.pure _

theorem unheard_readSomeTrieAcks (length : Nat) :
    Unheard (SyncProcess.readSomeTrieAcks length : SyncM d (Option (Bytes × Nat))) := by
  refine Unheard.get (fun _ _ => rfl) fun p => ?_
  split
  · exact (Unheard.modifySync _).bind fun _ => Unheard.pure _
  · exact Unheard.pure none

end Unheard

/-! ## The peers and the system -/

/-- The peers of the system, whose handlers hold `hs`. -/
def Shown (hs : Side → DiffHandler d) (ps : Peers d) (c : SyncSystem d) : Prop :=
  ∀ x, ps x = { c.peer x with handled := hs x }

section Shown

variable {hs : Side → DiffHandler d} {ps : Peers d} {c : SyncSystem d}

theorem Shown.update (h : Shown hs ps c) (x : Side) (p : Peer d) (l : DiffHandler d) :
    Shown (Function.update hs x l) (Function.update ps x { p with handled := l }) (setPeer x p c) := by
  intro y
  rcases Side.eq_or_other x y with rfl | rfl
  · simp [setPeer]
  · simpa [setPeer] using h x.other

/-- A call on one side. -/
theorem Shown.call {α : Type} (h : Shown hs ps c) {x : Side} {m : SyncM d α} (hm : Unheard m)
    {o : Outcome Exn α} {p : Peer d} {l : List (Digest d × Digest d)} (hrun : m (c.peer x) = ⟨o, p, l⟩) :
    ∃ ps', onSide x m ps = ⟨o, ps', l⟩ ∧ Shown hs ps' (setPeer x p c) := by
  have hcall : m (ps x) = ⟨o, { p with handled := hs x }, l⟩ := by
    rw [h x, hm, hrun]
  refine ⟨_, onSide_of_eq hcall, ?_⟩
  have hnext := h.update x p (hs x)
  rwa [Function.update_eq_self] at hnext

end Shown

/-! ## Runs of the system -/

/-- The rank of the insertions and calls that are left, in the order of pairs. -/
noncomputable def rest (U : Finset (Digest d)) (c : SyncSystem d) : ℕ ×ₗ ℕ := toLex (restRank U c)

/-- Calls and insertions have led from the first state to `c`. -/
structure Driven (hash : CryptoHash d) (fresh : Digest d) (fuel : Nat)
    (E : Digest d × Digest d → Prop) (K : Digest d → Prop) (q : FilterParams) (first : SyncSystem d)
    (S₀ S : Side → Finset (Digest d)) (c : SyncSystem d) : Prop where
  run : ∃ actions us l, (∀ a ∈ actions, a.IsCallOrInsert) ∧
    SyncAction.run hash fresh fuel actions first = ⟨.ok us, c, l⟩ ∧
    (Prog.Throughout (SyncAction.exec hash fresh fuel) SyncAction.findsTop first actions = true →
      Inserting hash E K S₀ S c)
  growing : Growing hash E K (S₀ .A ∪ S₀ .B) S c
  set : ∀ x, ExactSet hash E K q (c.peer x).set (S x)
  grown : ∀ x, S₀ x ⊆ S x
  notEqual : ∀ x, (c.peer x).sync.stat ≠ .EQUAL

section Driven

variable {hash : CryptoHash d} {fresh : Digest d} {fuel : Nat} {E : Digest d × Digest d → Prop}
  {K : Digest d → Prop} {q : FilterParams} {first : SyncSystem d} {S₀ S : Side → Finset (Digest d)}
  {c c' : SyncSystem d} {a : SyncAction d}

/-- **A call that finds something.** -/
theorem Driven.call (hs : Separated hash.pair (Hashes E) K)
    (h : Driven hash fresh fuel E K q first S₀ S c) (ha : a.IsCall)
    (hexec : a.exec hash fresh fuel c = ⟨.ok (), c', []⟩) (hmoved : Moved c a c') :
    Driven hash fresh fuel E K q first S₀ S c' ∧ rest (S₀ .A ∪ S₀ .B) c' < rest (S₀ .A ∪ S₀ .B) c := by
  have hset := hmoved.stepped.set_eq ha.keepsSets.ne_change
  have hinsert : a.IsCallOrInsert := by
    cases a with
    | insert x k => exact trivial
    | _ => exact ha
  refine ⟨⟨?_, h.growing.moved hs ha hmoved, fun x => ?_, h.grown, hmoved.notEqual h.notEqual⟩, ?_⟩
  · obtain ⟨actions, us, l, hcalls, hrun, hins⟩ := h.run
    refine ⟨actions ++ [a], _, _, ?_, Prog.each_append hrun (Prog.each_singleton hexec), fun hall => ?_⟩
    · simp only [List.forall_mem_append, List.forall_mem_singleton]
      exact ⟨hcalls, hinsert⟩
    · rw [Prog.throughout_snoc hrun, Bool.and_eq_true] at hall
      exact hmoved.stepped.inserting hs ha hall.2 h.growing.underway.synced (hins hall.1)
  · rw [hset x]
    exact h.set x
  · have hmissing : missing (S₀ .A ∪ S₀ .B) c' = missing (S₀ .A ∪ S₀ .B) c := by
      unfold missing
      rw [hset .A, hset .B]
    rw [rest, rest, restRank, restRank, hmissing]
    exact Prod.Lex.right _ (hmoved.callsLeft_lt hs ha h.growing.underway)

variable {hs : Side → DiffHandler d} {ps : Peers d} {x : Side}

/-- **The insertion of a reported key**, in the program and in the system. -/
theorem Driven.insertReported (hd : 16 ≤ d) (hw : 8 * d < 256) (hq : q.Soft)
    (hsep : Separated hash.pair (Hashes E) K) (hfuel : 255 < fuel)
    (hpos : ∀ k ∈ S₀ .A ∪ S₀ .B, (q.positions k).Nodup)
    (h : Driven hash fresh fuel E K q first S₀ S c) (hshown : Shown hs ps c) {call : Digest d × Bool}
    (hcall : (call.1, true) ∈ (c.peer x.other).handled) :
    Prog.Returns E (insertCall hash fresh fuel x call) ps fun _ ps' => ∃ S' s',
      Driven hash fresh fuel E K q first S₀ S' (setPeer x { c.peer x with set := s' } c) ∧
      Shown hs ps' (setPeer x { c.peer x with set := s' } c) ∧ (∀ y, S y ⊆ S' y) ∧ call.1 ∈ S' x ∧
      rest (S₀ .A ∪ S₀ .B) (setPeer x { c.peer x with set := s' } c) ≤ rest (S₀ .A ∪ S₀ .B) c := by
  obtain ⟨k, b⟩ := call
  have hmem : k ∈ S x.other := h.growing.handled x.other _ hcall
  have hkey : K k := by
    obtain ⟨t, ht⟩ := h.growing.trie x.other
    exact ht.keys_mem k hmem
  obtain ⟨t, ht⟩ := h.growing.trie x
  have hU := h.growing.within x.other hmem
  have hinsert := (insert_exact fresh hd hw hq hsep hfuel hkey (hpos k hU) (h.set x)).and_leaves
    (insert_leaves_or_adds fresh (by omega) hw hsep hfuel hkey ht)
  rcases hrun : SetState.insert hash fresh fuel k (c.peer x).set with ⟨o, s', l⟩
  -- the same call on the process of the program
  have hprogram : insertCall hash fresh fuel x (k, b) ps
      = ⟨o, Function.update ps x { ps x with set := s' }, l⟩ := by
    refine onSide_of_eq (Prog.zoom_of_eq ?_)
    rw [hshown x]
    exact hrun
  rw [Prog.Returns, hrun] at hinsert
  intro hE
  rw [hprogram] at hE ⊢
  obtain ⟨added, rfl, hset, hcases⟩ := hinsert hE
  have hexec : (SyncAction.insert x k).exec hash fresh fuel c
      = ⟨.ok (), setPeer x { c.peer x with set := s' } c, l⟩ := by
    have hpeer : (tryCatch (onPeer x (SyncProcess.onSet (SetState.insert hash fresh fuel k)))
        fun _ => pure false : SystemM d Bool) c
        = ⟨.ok added, setPeer x { c.peer x with set := s' } c, l⟩ :=
      Prog.tryCatch_of_ok (onPeer_of_eq (Prog.zoom_of_eq hrun)) _
    rw [SyncAction.exec, Prog.bind_of_ok (Prog.get_apply c), if_pos hcall, Prog.bind_of_ok hpeer]
    simp [Run.after]
  have hshown' : Shown hs (Function.update ps x { ps x with set := s' })
      (setPeer x { c.peer x with set := s' } c) := by
    have hx := hshown.update x { c.peer x with set := s' } (hs x)
    rw [Function.update_eq_self] at hx
    rw [hshown x]
    exact hx
  have hsub : ∀ y, S y ⊆ Function.update S x (insert k (S x)) y := by
    intro y
    rcases Side.eq_or_other x y with rfl | rfl
    · rw [Function.update_self]
      exact Finset.subset_insert _ _
    · rw [Function.update_of_ne (Side.other_ne x)]
  have hrep : ∃ t', Represents hash E K s'.trie (insert k (S x)) t' := hset.trie
  obtain ⟨t', ht'⟩ := hrep
  -- nothing has changed, or there is one key more
  have hgrowing : Growing hash E K (S₀ .A ∪ S₀ .B) (Function.update S x (insert k (S x)))
        (setPeer x { c.peer x with set := s' } c) ∧
      rest (S₀ .A ∪ S₀ .B) (setPeer x { c.peer x with set := s' } c) ≤ rest (S₀ .A ∪ S₀ .B) c := by
    by_cases hold : k ∈ S x
    · rcases hcases with rfl | ⟨hnew, -⟩
      · have hself : setPeer x { c.peer x with set := (c.peer x).set } c = c := setPeer_self x
        rw [hself, Finset.insert_eq_of_mem hold, Function.update_eq_self]
        exact ⟨h.growing, le_refl _⟩
      · exact absurd hold hnew
    · obtain ⟨hadded, hless⟩ := h.growing.added hU hold ht'
      exact ⟨hadded, le_of_lt (Prod.Lex.left _ _ hless)⟩
  refine ⟨added, rfl, _, s', ⟨?_, hgrowing.1, fun y => ?_, fun y => (h.grown y).trans (hsub y), fun y => ?_⟩,
    hshown', hsub, ?_, hgrowing.2⟩
  · obtain ⟨actions, us, l₀, hcalls, hrun₀, hins⟩ := h.run
    refine ⟨actions ++ [.insert x k], _, _, ?_, Prog.each_append hrun₀ (Prog.each_singleton hexec),
      fun hall => ?_⟩
    · simp only [List.forall_mem_append, List.forall_mem_singleton]
      exact ⟨hcalls, trivial⟩
    · rw [Prog.throughout_snoc hrun₀, Bool.and_eq_true] at hall
      exact (hins hall.1).insertKey hcall ht' (Or.inr rfl)
  · rcases Side.eq_or_other x y with rfl | rfl
    · simpa [setPeer] using hset
    · simpa [setPeer] using h.set x.other
  · have hstat : ({ c.peer x with set := s' } : Peer d).sync.stat ≠ .EQUAL := h.notEqual x
    exact forall_setPeer (P := fun _ p => p.sync.stat ≠ .EQUAL) h.notEqual hstat y
  · rw [Function.update_self]
    exact Finset.mem_insert_self _ _

/-- The insertions of a list of reported keys. -/
theorem Driven.insertCalls (hd : 16 ≤ d) (hw : 8 * d < 256) (hq : q.Soft)
    (hsep : Separated hash.pair (Hashes E) K) (hfuel : 255 < fuel)
    (hpos : ∀ k ∈ S₀ .A ∪ S₀ .B, (q.positions k).Nodup) (calls : DiffHandler d)
    (h : Driven hash fresh fuel E K q first S₀ S c) (hshown : Shown hs ps c)
    (hcalls : ∀ call ∈ calls, (call.1, true) ∈ (c.peer x.other).handled) :
    Prog.Returns E (Prog.each (insertCall hash fresh fuel x) calls) ps fun _ ps' => ∃ S' s',
      Driven hash fresh fuel E K q first S₀ S' (setPeer x { c.peer x with set := s' } c) ∧
      Shown hs ps' (setPeer x { c.peer x with set := s' } c) ∧ (∀ y, S y ⊆ S' y) ∧
      (∀ call ∈ calls, call.1 ∈ S' x) ∧
      rest (S₀ .A ∪ S₀ .B) (setPeer x { c.peer x with set := s' } c) ≤ rest (S₀ .A ∪ S₀ .B) c := by
  induction calls generalizing S c ps with
  | nil =>
    have hself : setPeer x { c.peer x with set := (c.peer x).set } c = c := setPeer_self x
    refine Prog.Returns.pure ⟨S, (c.peer x).set, ?_⟩
    rw [hself]
    exact ⟨h, hshown, fun y => Finset.Subset.refl _, fun call hcall => absurd hcall List.not_mem_nil,
      le_refl _⟩
  | cons call calls ih =>
    apply Prog.Returns.bind (h.insertReported hd hw hq hsep hfuel hpos hshown
      (hcalls call List.mem_cons_self))
    rintro _ ps₁ ⟨S₁, s₁, h₁, hshown₁, hsub₁, hin₁, hle₁⟩
    have hreported : ∀ call ∈ calls, (call.1, true)
        ∈ ((setPeer x { c.peer x with set := s₁ } c).peer x.other).handled := by
      intro call' hcall'
      simpa [setPeer] using hcalls call' (List.mem_cons_of_mem call hcall')
    apply Prog.Returns.bind (ih h₁ hshown₁ hreported)
    rintro _ ps₂ ⟨S₂, s₂, h₂, hshown₂, hsub₂, hin₂, hle₂⟩
    have htwice : setPeer x { (setPeer x { c.peer x with set := s₁ } c).peer x with set := s₂ }
        (setPeer x { c.peer x with set := s₁ } c) = setPeer x { c.peer x with set := s₂ } c := by
      simp [setPeer]
    rw [htwice] at h₂ hshown₂ hle₂
    refine Prog.Returns.pure ⟨S₂, s₂, h₂, hshown₂, fun y => (hsub₁ y).trans (hsub₂ y), ?_, hle₂.trans hle₁⟩
    intro call' hcall'
    rcases List.mem_cons.mp hcall' with rfl | hcall'
    · exact hsub₂ x hin₁
    · exact hin₂ call' hcall'

end Driven

/-! ## Turns -/

/-- Between two turns nothing is on its way, and what was reported is inserted. -/
structure Paused (hash : CryptoHash d) (fresh : Digest d) (fuel : Nat)
    (E : Digest d × Digest d → Prop) (K : Digest d → Prop) (q : FilterParams) (first : SyncSystem d)
    (S₀ S : Side → Finset (Digest d)) (c : SyncSystem d) (ps : Peers d) : Prop
    extends Driven hash fresh fuel E K q first S₀ S c where
  shown : Shown (fun _ => []) ps c
  subtries : ∀ x, c.subtries x = []
  acks : ∀ x, c.acks x = []
  inserted : ∀ x, ∀ call ∈ (c.peer x.other).handled, call.1 ∈ S x

/-- The process has no subtrie to send. -/
def Spent (p : Peer d) : Prop :=
  (p.sync.stat = .START → rooted p.set = false) ∧ p.sync.pendingSubtries = []

/-- The side `x` has no subtrie to send, or the answers to one are to be sent to it. -/
def Awaiting (x : Side) (ps : Peers d) : Prop :=
  (ps x.other).sync.pendingAcks ≠ [] ∨ Spent (ps x)

section Turns

variable {hash : CryptoHash d} {fresh : Digest d} {fuel : Nat} {E : Digest d × Digest d → Prop}
  {K : Digest d → Prop} {q : FilterParams} {first : SyncSystem d} {S₀ S : Side → Finset (Digest d)}
  {c c' : SyncSystem d} {ps : Peers d}

/-- Output is available after the root was queued, or when something was pending. -/
theorem Driven.polled (hs : Separated hash.pair (Hashes E) K)
    (h : Driven hash fresh fuel E K q first S₀ S c) {x : Side} {r : Option (Digest d)}
    (hr : KeyValueTrie.getRoot (c.peer x).set.trie = ⟨.ok r, (c.peer x).set.trie, []⟩) :
    (Driven hash fresh fuel E K q first S₀ S (setPeer x (SyncProcess.polled r (c.peer x)) c) ∧
      rest (S₀ .A ∪ S₀ .B) (setPeer x (SyncProcess.polled r (c.peer x)) c) ≤ rest (S₀ .A ∪ S₀ .B) c) ∧
      (decide ((SyncProcess.polled r (c.peer x)).sync.stat ≠ .START ∧
          0 < (SyncProcess.polled r (c.peer x)).sync.pendingSubtries.length) = false →
        SyncProcess.polled r (c.peer x) = c.peer x ∧ Spent (c.peer x)) := by
  by_cases hstart : (c.peer x).sync.stat = .START
  · cases r with
    | none =>
      have hsame : SyncProcess.polled none (c.peer x) = c.peer x := by
        unfold SyncProcess.polled
        rw [if_pos hstart]
      rw [hsame, setPeer_self]
      refine ⟨⟨h, le_refl _⟩, fun _ => ⟨rfl, fun _ => rooted_of_eq hr, ?_⟩⟩
      exact (h.growing.underway.started x hstart).1
    | some root =>
      have hexec : (SyncAction.poll x).exec hash fresh fuel c
          = ⟨.ok (), setPeer x (SyncProcess.polled (some root) (c.peer x)) c, []⟩ := by
        rw [SyncAction.exec, Prog.bind_of_ok (onPeer_of_eq (SyncProcess.poll_ok hr))]
        rfl
      obtain ⟨hnext, hless⟩ := h.call (a := .poll x) hs trivial hexec (.polled hstart hr)
      refine ⟨⟨hnext, hless.le⟩, fun hnone => ?_⟩
      simp [SyncProcess.polled, hstart] at hnone
  · have hsame : SyncProcess.polled r (c.peer x) = c.peer x := by
      unfold SyncProcess.polled
      rw [if_neg hstart]
    rw [hsame, setPeer_self]
    refine ⟨⟨h, le_refl _⟩, fun hnone => ⟨rfl, fun hst => absurd hst hstart, ?_⟩⟩
    simpa [hstart] using hnone

theorem spent_handled (p : Peer d) (l : DiffHandler d) : Spent { p with handled := l } ↔ Spent p := Iff.rfl

theorem Shown.awaiting {hs : Side → DiffHandler d} (h : Shown hs ps c) (x : Side) :
    Awaiting x ps ↔ Awaiting x c.peer := by
  unfold Awaiting
  rw [h x, h x.other, spent_handled]

theorem Shown.ext {hs : Side → DiffHandler d} {ps' : Peers d} (h : Shown hs ps c) (h' : Shown hs ps' c) :
    ps' = ps := funext fun x => (h' x).trans (h x).symm

/-- A subtrie that has arrived is answered. -/
theorem Driven.answers (hs : Separated hash.pair (Hashes E) K)
    (h : Driven hash fresh fuel E K q first S₀ S c) {x : Side} {message : Bytes}
    (hchannel : c.subtries x.other = [message]) (hnone : c.subtries x = []) :
    ∃ acksize c', SyncProcess.processSubTrie message message.length (c.peer x)
        = ⟨.ok acksize, SyncProcess.answeredAll message (c.peer x), []⟩ ∧
      c'.peer = (setPeer x (SyncProcess.answeredAll message (c.peer x)) c).peer ∧
      (∀ y, c'.subtries y = []) ∧ c'.acks = c.acks ∧
      Driven hash fresh fuel E K q first S₀ S c' ∧ rest (S₀ .A ∪ S₀ .B) c' < rest (S₀ .A ∪ S₀ .B) c := by
  have hanswer := SyncProcess.processSubTrie_ok (h.growing.underway.synced.works x) message
  have hexec : (SyncAction.processSubTrie x).exec hash fresh fuel c
      = ⟨.ok (), answerSubtrie x message [] (c.peer x).set.trie
        (setPeer x (SyncProcess.answeredAll message (c.peer x)) c), []⟩ := by
    rw [SyncAction.exec, Prog.bind_of_ok (Prog.get_apply c)]
    simp only [hchannel]
    rw [Prog.bind_of_ok (onPeer_of_eq hanswer)]
    rfl
  refine ⟨_, answerSubtrie x message [] (c.peer x).set.trie
    (setPeer x (SyncProcess.answeredAll message (c.peer x)) c), hanswer, rfl, fun y => ?_, rfl,
    h.call (a := .processSubTrie x) hs trivial hexec (.answered hchannel)⟩
  rcases Side.eq_or_other x y with rfl | rfl
  · simpa [answerSubtrie, setPeer] using hnone
  · simp [answerSubtrie]

/-- **A subtrie is sent and answered**, or every pending hash is dropped. -/
theorem Driven.sends (hs : Separated hash.pair (Hashes E) K)
    (h : Driven hash fresh fuel E K q first S₀ S c) (hsub : ∀ y, c.subtries y = []) {x : Side}
    (hsome : (c.peer x).sync.pendingSubtries ≠ []) (hstat : (c.peer x).sync.stat ≠ .START)
    {bufferSize : Nat} (hbuf : 2 ≤ bufferSize / d) :
    ∃ message acksize p p' c',
      SyncProcess.getSubTrie bufferSize (c.peer x) = ⟨.ok message, p, []⟩ ∧
      SyncProcess.processSubTrie message message.length (c.peer x.other) = ⟨.ok acksize, p', []⟩ ∧
      c'.peer = (setPeer x.other p' (setPeer x p c)).peer ∧ (∀ y, c'.subtries y = []) ∧
      c'.acks = c.acks ∧ (∀ y, (c'.peer y).handled = (c.peer y).handled) ∧
      (Driven hash fresh fuel E K q first S₀ S c' ∧ rest (S₀ .A ∪ S₀ .B) c' < rest (S₀ .A ∪ S₀ .B) c) ∧
      Awaiting x c'.peer ∧ (Awaiting x.other c.peer → Awaiting x.other c'.peer) := by
  have hsynced := h.growing.underway.synced
  rcases SyncProcess.getSubTrie_spec bufferSize (hsynced.works x) with
    ⟨hall, hrun⟩ | ⟨dropped, top, tail, buffer, size, hsplit, hlost, hcut, hrun⟩
  · -- nothing is sent
    have hexec : (SyncAction.getSubTrie x bufferSize).exec hash fresh fuel c
        = ⟨.ok (), sendSubtrie x [] (setPeer x (SyncProcess.noCut (c.peer x)) c), []⟩ := by
      rw [SyncAction.exec, Prog.bind_of_ok (onPeer_of_eq hrun)]
      rfl
    have hnext := h.call (a := .getSubTrie x bufferSize) hs hbuf hexec (.uncut hsome hall)
    rw [sendSubtrie_nil] at hnext
    have hnone : SyncProcess.answeredAll [] (c.peer x.other) = c.peer x.other := by
      rw [SyncProcess.answeredAll, entries_nil, List.map_nil, List.append_nil]
      rfl
    have hrun' := SyncProcess.processSubTrie_ok (hsynced.works x.other) []
    rw [hnone] at hrun'
    refine ⟨[], _, _, _, setPeer x (SyncProcess.noCut (c.peer x)) c, hrun, hrun', ?_, hsub, rfl, fun y => ?_,
      hnext, Or.inr ⟨fun hstart => ?_, ?_⟩, fun hother => ?_⟩
    · simp [setPeer]
    · rcases Side.eq_or_other x y with rfl | rfl <;> simp [setPeer, SyncProcess.noCut]
    · exact absurd (by simpa [setPeer, SyncProcess.noCut] using hstart) hstat
    · simp [setPeer, SyncProcess.noCut]
    · simpa [Awaiting, setPeer, SyncProcess.noCut] using hother
  · obtain ⟨t, ht⟩ := h.growing.trie x
    have hfilled : entries d (buffer.take size) ≠ [] := (cut_cost hs ht hbuf hcut).2
    have hmessage : buffer.take size ≠ [] := by
      intro hnil
      rw [hnil, entries_nil] at hfilled
      exact hfilled rfl
    have hexec : (SyncAction.getSubTrie x bufferSize).exec hash fresh fuel c
        = ⟨.ok (), sendSubtrie x (buffer.take size)
          (setPeer x (SyncProcess.sentCut tail (buffer.take size) size (c.peer x)) c), []⟩ := by
      rw [SyncAction.exec, Prog.bind_of_ok (onPeer_of_eq hrun)]
      rfl
    obtain ⟨h₁, hless₁⟩ := h.call (a := .getSubTrie x bufferSize) hs hbuf hexec (.cut hsplit hlost hcut)
    generalize hp : SyncProcess.sentCut tail (buffer.take size) size (c.peer x) = p at hrun h₁ hless₁
    have hacks : p.sync.pendingAcks = (c.peer x).sync.pendingAcks ∧ p.handled = (c.peer x).handled := by
      rw [← hp]
      exact ⟨rfl, rfl⟩
    have hchannel : (sendSubtrie x (buffer.take size) (setPeer x p c)).subtries x.other.other
        = [buffer.take size] := by
      rw [Side.other_other]
      simp [sendSubtrie, setPeer, hmessage, hsub x]
    have hother : (sendSubtrie x (buffer.take size) (setPeer x p c)).subtries x.other = [] := by
      simp [sendSubtrie, setPeer, hsub x.other]
    have hsame : (sendSubtrie x (buffer.take size) (setPeer x p c)).peer x.other = c.peer x.other := by
      simp [sendSubtrie, setPeer]
    -- the hashes of the subtrie are answered
    obtain ⟨acksize, c', hanswer, hpeer, hempty, hkept, h₂, hless₂⟩ := h₁.answers hs hchannel hother
    rw [hsame] at hanswer hpeer
    generalize hp' : SyncProcess.answeredAll (buffer.take size) (c.peer x.other) = p' at hanswer hpeer
    have hqueue : p'.sync.pendingAcks ≠ [] := by
      rw [← hp']
      simp [SyncProcess.answeredAll, hfilled]
    have hrest : p'.handled = (c.peer x.other).handled ∧ (Spent (c.peer x.other) → Spent p') := by
      rw [← hp']
      exact ⟨rfl, id⟩
    have hx : c'.peer x = p := by rw [hpeer]; simp [sendSubtrie, setPeer]
    have hy : c'.peer x.other = p' := by rw [hpeer]; simp [setPeer]
    refine ⟨_, acksize, p, p', c', hrun, hanswer, hpeer, hempty, hkept, fun y => ?_, ⟨h₂, hless₂.trans hless₁⟩,
      Or.inl (hy ▸ hqueue), fun hawait => ?_⟩
    · rcases Side.eq_or_other x y with rfl | rfl
      · rw [hx]
        exact hacks.2
      · rw [hy]
        exact hrest.1
    · unfold Awaiting at hawait ⊢
      rw [Side.other_other] at hawait ⊢
      rw [hx, hy, hacks.1]
      exact hawait.imp_right hrest.2

/-- **One turn with a subtrie** of `x`: it has none to send, or less is left to do. -/
theorem Paused.subtrieTurn (hs : Separated hash.pair (Hashes E) K)
    (h : Paused hash fresh fuel E K q first S₀ S c ps) (x : Side) (synchron : Bool) {bufferSize : Nat}
    (hbuf : 2 ≤ bufferSize / d) :
    ∃ more ps', loopTurn synchron (onSide x SyncProcess.isSubtrieOutputAvailable)
        (StrictExchange.subtrieTurn bufferSize x) ps = ⟨.ok more, ps', []⟩ ∧
      ((more = false ∧ ps' = ps ∧ Spent (ps x)) ∨
        (more = !synchron ∧ (∃ c', Paused hash fresh fuel E K q first S₀ S c' ps' ∧
            rest (S₀ .A ∪ S₀ .B) c' < rest (S₀ .A ∪ S₀ .B) c) ∧
          Awaiting x ps' ∧ (Awaiting x.other ps → Awaiting x.other ps'))) := by
  obtain ⟨r, hr⟩ := getRoot_total (h.growing.underway.synced.works x)
  obtain ⟨⟨h₁, hle₁⟩, hidle⟩ := h.toDriven.polled hs hr
  obtain ⟨ps₁, hpoll, hshown₁⟩ := h.shown.call unheard_poll (SyncProcess.poll_ok hr)
  have hacks : (SyncProcess.polled r (c.peer x)).sync.pendingAcks = (c.peer x).sync.pendingAcks ∧
      (SyncProcess.polled r (c.peer x)).handled = (c.peer x).handled :=
    ⟨(polled_sync r _).2.1, (polled_sync r _).2.2.2⟩
  generalize SyncProcess.polled r (c.peer x) = p at h₁ hle₁ hidle hpoll hshown₁ hacks
  generalize hb : decide (p.sync.stat ≠ .START ∧ 0 < p.sync.pendingSubtries.length) = available
    at hidle hpoll
  unfold loopTurn
  rw [Prog.bind_of_ok hpoll, Run.after_nil]
  cases available with
  | false =>
    obtain ⟨hsame, hspent⟩ := hidle rfl
    rw [hsame, setPeer_self] at hshown₁
    rw [h.shown.ext hshown₁]
    refine ⟨false, ps, rfl, Or.inl ⟨rfl, rfl, ?_⟩⟩
    rw [h.shown x]
    exact hspent
  | true =>
    obtain ⟨hstat, hpos⟩ := of_decide_eq_true hb
    have hx : (setPeer x p c).peer x = p := by simp [setPeer]
    obtain ⟨message, acksize, p₁, p₂, c', hget, hprocess, hpeer, hsub, hkept, hhandled, ⟨h₂, hless₂⟩, hawait,
      hawait'⟩ := h₁.sends hs h.subtries (x := x) (by rw [hx]; exact List.ne_nil_of_length_pos hpos)
        (by rw [hx]; exact hstat) hbuf
    obtain ⟨ps₂, hget', hshown₂⟩ := hshown₁.call (unheard_getSubTrie bufferSize) hget
    have hsame : (setPeer x p₁ (setPeer x p c)).peer x.other = (setPeer x p c).peer x.other := by
      simp [setPeer]
    rw [← hsame] at hprocess
    obtain ⟨ps₃, hprocess', hshown₃⟩ := hshown₂.call (unheard_processSubTrie _ _) hprocess
    have hshown : Shown (fun _ => []) ps₃ c' := by
      intro y
      rw [hpeer]
      exact hshown₃ y
    refine ⟨!synchron, ps₃, ?_, Or.inr ⟨rfl, ⟨c', ⟨h₂, hshown, hsub, ?_, ?_⟩, lt_of_lt_of_le hless₂ hle₁⟩,
      (hshown.awaiting x).mpr hawait, fun hother => (hshown.awaiting x.other).mpr (hawait' ?_)⟩⟩
    · rw [if_pos rfl]
      have hturn : StrictExchange.subtrieTurn bufferSize x ps₁ = ⟨.ok (), ps₃, []⟩ := by
        unfold StrictExchange.subtrieTurn
        rw [Prog.bind_of_ok hget', Run.after_nil, Prog.bind_of_ok hprocess']
        rfl
      rw [Prog.bind_of_ok hturn]
      rfl
    · rw [hkept]
      exact h.acks
    · intro y call hcall
      rw [hhandled] at hcall
      apply h.inserted y call
      rcases Side.eq_or_other x y.other with hy | hy
      · rw [hy, hx, hacks.2] at hcall
        rw [hy]
        exact hcall
      · rw [hy] at hcall ⊢
        simpa [setPeer] using hcall
    · rw [h.shown.awaiting] at hother
      unfold Awaiting at hother ⊢
      rw [Side.other_other] at hother ⊢
      rw [hx, hacks.1]
      simpa [setPeer] using hother

/-- What was reported before does not matter for the hashes that are acknowledged. -/
theorem foldl_ackStep_append (s : TrieState d) (r : Option (Digest d)) (l : List (Digest d × Bool))
    (pending : List (Digest d)) (calls : DiffHandler d) :
    l.foldl (SyncProcess.ackStep s r) (pending, calls)
      = ((l.foldl (SyncProcess.ackStep s r) (pending, [])).1,
        calls ++ (l.foldl (SyncProcess.ackStep s r) (pending, [])).2) := by
  induction l generalizing pending calls with
  | nil => simp
  | cons b l ih =>
    have hstep : SyncProcess.ackStep s r (pending, calls) b
        = ((SyncProcess.ackStep s r (pending, []) b).1,
          calls ++ (SyncProcess.ackStep s r (pending, []) b).2) := by
      unfold SyncProcess.ackStep
      split
      · split <;> simp
      · simp
    rw [List.foldl_cons, List.foldl_cons, hstep]
    generalize SyncProcess.ackStep s r (pending, []) b = w
    rw [ih, ih w.1 w.2, List.append_assoc]

/-- The calls of a message of answers, on a handler that was cleared. -/
theorem acknowledged_cleared (bits : List Bool) (r : Option (Digest d)) (p : Peer d) :
    ∃ calls : DiffHandler d, (SyncProcess.acknowledged bits r p).handled = p.handled ++ calls ∧
      SyncProcess.acknowledged bits r { p with handled := [] }
        = { SyncProcess.acknowledged bits r p with handled := calls } ∧
      ∀ call ∈ calls, call.2 = true := by
  have hfold := foldl_ackStep_append p.set.trie r ((p.sync.sentHashes.take bits.length).zip bits)
    p.sync.pendingSubtries p.handled
  obtain ⟨calls, heq, hcalls⟩ := foldl_ackStep_handled p.set.trie r
    ((p.sync.sentHashes.take bits.length).zip bits) (p.sync.pendingSubtries, [])
  rw [List.nil_append] at heq
  refine ⟨calls, ?_, ?_, fun call hcall => (hcalls call hcall).1⟩
  · unfold SyncProcess.acknowledged
    simp only [hfold, heq]
  · unfold SyncProcess.acknowledged
    simp only [hfold, heq]

/-- **Answers are sent and acknowledged.**  On a cleared handler the call reports the same. -/
theorem Driven.acknowledges (hs : Separated hash.pair (Hashes E) K)
    (h : Driven hash fresh fuel E K q first S₀ S c) (hnone : ∀ y, c.acks y = []) {x : Side}
    (hsome : (c.peer x).sync.pendingAcks ≠ []) {bufferSize : Nat} (hroom : 1 ≤ bufferSize) :
    ∃ buffer number p p' calls c',
      SyncProcess.readSomeTrieAcks bufferSize (c.peer x) = ⟨.ok (some (buffer, number)), p, []⟩ ∧
      SyncProcess.processAcks buffer buffer.length number { c.peer x.other with handled := [] }
        = ⟨.ok (), { p' with handled := calls }, []⟩ ∧
      (p.handled = (c.peer x).handled ∧ p'.handled = (c.peer x.other).handled ++ calls ∧
        ∀ call ∈ calls, call.2 = true) ∧
      c'.peer = (setPeer x.other p' (setPeer x p c)).peer ∧ c'.subtries = c.subtries ∧
      (∀ y, c'.acks y = []) ∧
      Driven hash fresh fuel E K q first S₀ S c' ∧ rest (S₀ .A ∪ S₀ .B) c' < rest (S₀ .A ∪ S₀ .B) c := by
  obtain ⟨buffer, number, hnumber, hbits, hsize, hrun⟩ :=
    SyncProcess.readSomeTrieAcks_ok bufferSize hsome
  have hqueue : 0 < (c.peer x).sync.pendingAcks.length := List.length_pos_of_ne_nil hsome
  have hpos : 1 ≤ number := by omega
  have hexec : (SyncAction.readSomeTrieAcks x bufferSize).exec hash fresh fuel c
      = ⟨.ok (), sendAcks x (buffer, number) (setPeer x (SyncProcess.tookAcks number (c.peer x)) c), []⟩ := by
    rw [SyncAction.exec, Prog.bind_of_ok (onPeer_of_eq hrun)]
    rfl
  obtain ⟨h₁, hless₁⟩ := h.call (a := .readSomeTrieAcks x bufferSize) hs hroom hexec
    (.replied hpos hbits hsize)
  have hchannel : (sendAcks x (buffer, number)
      (setPeer x (SyncProcess.tookAcks number (c.peer x)) c)).acks x.other.other = (buffer, number) :: [] := by
    rw [Side.other_other]
    simp [sendAcks, setPeer, hnone x]
  have hempty : (sendAcks x (buffer, number)
      (setPeer x (SyncProcess.tookAcks number (c.peer x)) c)).acks x.other = [] := by
    simp [sendAcks, setPeer, hnone x.other]
  have hother : (sendAcks x (buffer, number)
      (setPeer x (SyncProcess.tookAcks number (c.peer x)) c)).peer x.other = c.peer x.other := by
    simp [sendAcks, setPeer]
  have hpeers : (sendAcks x (buffer, number)
      (setPeer x (SyncProcess.tookAcks number (c.peer x)) c)).peer
        = (setPeer x (SyncProcess.tookAcks number (c.peer x)) c).peer := rfl
  have hsubtries : (sendAcks x (buffer, number)
      (setPeer x (SyncProcess.tookAcks number (c.peer x)) c)).subtries = c.subtries := rfl
  generalize sendAcks x (buffer, number) (setPeer x (SyncProcess.tookAcks number (c.peer x)) c) = c₁
    at h₁ hless₁ hchannel hempty hother hpeers hsubtries
  -- the hashes are acknowledged
  have hsynced := h₁.growing.underway.synced
  obtain ⟨r, hr⟩ := getRoot_total (hsynced.works x.other)
  have hle := hsynced.number_le hchannel
  have htake := SyncProcess.processAcks_ok buffer number (hsynced.works x.other) hr (Nat.le_of_eq hsize.symm) hle
  have hexec' : (SyncAction.processAcks x.other).exec hash fresh fuel c₁
      = ⟨.ok (), acknowledge x.other [] (c₁.peer x.other).sync.sentHashes (SyncProcess.ackBits buffer number)
        (setPeer x.other (SyncProcess.received ((number + 7) / 8) (SyncProcess.acknowledged
          (SyncProcess.ackBits buffer number) r (c₁.peer x.other))) c₁), []⟩ := by
    rw [SyncAction.exec, Prog.bind_of_ok (Prog.get_apply c₁)]
    simp only [hchannel]
    rw [Prog.bind_of_ok (onPeer_of_eq htake)]
    rfl
  obtain ⟨h₂, hless₂⟩ := h₁.call (a := .processAcks x.other) hs trivial hexec' (.acked hchannel hr)
  rw [hother] at hr hle
  obtain ⟨calls, hcalls, hcleared, htrue⟩ :=
    acknowledged_cleared (SyncProcess.ackBits buffer number) r (c.peer x.other)
  have hworks : ({ c.peer x.other with handled := [] } : Peer d).set.trie.storage.failure = none := by
    rw [← hother]
    exact hsynced.works x.other
  have hprogram := SyncProcess.processAcks_ok (p := { c.peer x.other with handled := [] }) buffer number
    hworks hr (Nat.le_of_eq hsize.symm) hle
  rw [hcleared] at hprogram
  refine ⟨buffer, number, _, SyncProcess.received ((number + 7) / 8) (SyncProcess.acknowledged
    (SyncProcess.ackBits buffer number) r (c.peer x.other)), calls, _, hrun, hprogram,
    ⟨rfl, hcalls, htrue⟩, ?_, ?_, fun y => ?_, h₂, hless₂.trans hless₁⟩
  · show Function.update c₁.peer _ _ = _
    rw [hother, hpeers]
    rfl
  · exact hsubtries
  · rcases Side.eq_or_other x y with rfl | rfl
    · simp [acknowledge]
    · simpa [acknowledge, setPeer] using hempty

theorem Shown.clear {x : Side} {calls : DiffHandler d}
    (h : Shown (Function.update (fun _ => []) x calls) ps c) :
    Shown (fun _ => []) (Function.update ps x { ps x with handled := [] }) c := by
  intro y
  rcases Side.eq_or_other x y with rfl | rfl
  · rw [Function.update_self, h y]
  · rw [Function.update_of_ne (Side.other_ne x), h x.other, Function.update_of_ne (Side.other_ne x)]

/-- Answers are sent, and what is reported for them is inserted. -/
theorem Paused.reports (hd : 16 ≤ d) (hw : 8 * d < 256) (hq : q.Soft)
    (hs : Separated hash.pair (Hashes E) K) (hfuel : 255 < fuel)
    (hpos : ∀ k ∈ S₀ .A ∪ S₀ .B, (q.positions k).Nodup)
    (h : Paused hash fresh fuel E K q first S₀ S c ps) {x : Side}
    (hsome : (c.peer x).sync.pendingAcks ≠ []) {bufferSize : Nat} (hroom : 1 ≤ bufferSize) :
    Prog.Returns E (StrictExchange.ackTurn hash fresh fuel bufferSize x) ps fun _ ps' =>
      ∃ S' c', Paused hash fresh fuel E K q first S₀ S' c' ps' ∧
        rest (S₀ .A ∪ S₀ .B) c' < rest (S₀ .A ∪ S₀ .B) c := by
  obtain ⟨buffer, number, p, p', calls, c', hread, hprocess, ⟨hhandled, hhandled', htrue⟩, hpeers, hsub,
    hacks, h₂, hless⟩ := h.toDriven.acknowledges hs h.acks hsome hroom
  obtain ⟨ps₁, hread', hshown₁⟩ := h.shown.call (unheard_readSomeTrieAcks bufferSize) hread
  -- the handler of the program holds what is new
  have hother : ps₁ x.other = { c.peer x.other with handled := [] } := by
    rw [hshown₁ x.other]
    simp [setPeer]
  rw [← hother] at hprocess
  have hshown₂ : Shown (Function.update (fun _ => []) x.other calls)
      (Function.update ps₁ x.other { p' with handled := calls }) c' := by
    intro y
    rw [hpeers]
    exact hshown₁.update x.other p' calls y
  have hx : (c'.peer x).handled = (c.peer x).handled := by
    rw [hpeers, ← hhandled]
    simp [setPeer]
  have hy : (c'.peer x.other).handled = (c.peer x.other).handled ++ calls := by
    rw [hpeers, ← hhandled']
    simp [setPeer]
  have hlist : (Function.update ps₁ x.other { p' with handled := calls } x.other).handled = calls := by
    rw [Function.update_self]
  have hreported : ∀ call ∈ ListDiffHandler.list calls, (call.1, true) ∈ (c'.peer x.other).handled := by
    intro call hcall
    rw [hy]
    exact List.mem_append_right _ (called_of_listed htrue hcall)
  unfold StrictExchange.ackTurn
  apply Prog.Returns.bind_of_eq hread'
  apply Prog.Returns.bind_of_eq (onSide_of_eq hprocess)
  apply Prog.Returns.bind_of_eq (Prog.get_apply _)
  rw [hlist]
  apply Prog.Returns.bind (h₂.insertCalls hd hw hq hs hfuel hpos (ListDiffHandler.list calls) hshown₂
    hreported)
  rintro _ ps₃ ⟨S', s', h₃, hshown₃, hgrown, hin, hle⟩
  refine Prog.Returns.of_eq (Prog.modify_apply _ _) ⟨S', _, ⟨h₃, hshown₃.clear, ?_, hacks, fun y call hcall => ?_⟩,
    lt_of_le_of_lt hle hless⟩
  · intro y
    show c'.subtries y = []
    rw [hsub]
    exact h.subtries y
  · have hold : ∀ z, ((setPeer x { c'.peer x with set := s' } c').peer z).handled
        = (c'.peer z).handled := by
      intro z
      rcases Side.eq_or_other x z with rfl | rfl <;> simp [setPeer]
    rw [hold] at hcall
    rcases Side.eq_or_other x y with rfl | rfl
    · rw [hy] at hcall
      rcases List.mem_append.mp hcall with hcall | hcall
      · exact hgrown y (h.inserted y call hcall)
      · obtain ⟨call', hcall', heq⟩ := exists_listed hcall
        rw [← heq]
        exact hin call' hcall'
    · rw [Side.other_other, hx] at hcall
      apply hgrown x.other (h.inserted x.other call _)
      rw [Side.other_other]
      exact hcall

/-- **One turn with answers** of `x`: it has none to send, or less is left to do. -/
theorem Paused.ackTurn (hd : 16 ≤ d) (hw : 8 * d < 256) (hq : q.Soft)
    (hs : Separated hash.pair (Hashes E) K) (hfuel : 255 < fuel)
    (hpos : ∀ k ∈ S₀ .A ∪ S₀ .B, (q.positions k).Nodup)
    (h : Paused hash fresh fuel E K q first S₀ S c ps) (x : Side) (synchron : Bool) {bufferSize : Nat}
    (hroom : 1 ≤ bufferSize) :
    Prog.Returns E (loopTurn synchron (StrictExchange.isAckOutputAvailable x)
      (StrictExchange.ackTurn hash fresh fuel bufferSize x)) ps fun more ps' =>
        (more = false ∧ ps' = ps ∧ (ps x).sync.pendingAcks = []) ∨
          (more = !synchron ∧ ∃ S' c', Paused hash fresh fuel E K q first S₀ S' c' ps' ∧
            rest (S₀ .A ∪ S₀ .B) c' < rest (S₀ .A ∪ S₀ .B) c) := by
  have hpeer : (ps x).sync = (c.peer x).sync := by rw [h.shown x]
  have havail : StrictExchange.isAckOutputAvailable x ps
      = ⟨.ok (decide ((c.peer x).sync.pendingAcks.length > 0)), ps, []⟩ := by
    unfold StrictExchange.isAckOutputAvailable
    rw [Prog.bind_of_ok (Prog.get_apply ps), Run.after_nil, SyncProcess.isAckOutputAvailable, hpeer]
    rfl
  unfold loopTurn
  apply Prog.Returns.bind_of_eq havail
  by_cases hnil : (c.peer x).sync.pendingAcks = []
  · rw [hnil]
    exact Prog.Returns.pure (Or.inl ⟨rfl, rfl, hpeer ▸ hnil⟩)
  · rw [decide_eq_true (List.length_pos_of_ne_nil hnil), if_pos rfl]
    apply Prog.Returns.bind (h.reports hd hw hq hs hfuel hpos hnil hroom)
    rintro _ ps' hps'
    exact Prog.Returns.pure (Or.inr ⟨rfl, hps'⟩)

end Turns

/-! ## Rounds -/

/-- A state between two turns in which `n` is left to do. -/
def PausedAt (hash : CryptoHash d) (fresh : Digest d) (fuel : Nat) (E : Digest d × Digest d → Prop)
    (K : Digest d → Prop) (q : FilterParams) (first : SyncSystem d) (S₀ : Side → Finset (Digest d))
    (n : ℕ ×ₗ ℕ) (ps : Peers d) : Prop :=
  ∃ S c, Paused hash fresh fuel E K q first S₀ S c ps ∧ rest (S₀ .A ∪ S₀ .B) c = n

/-- Nothing has changed, for the reason `N`, or less is left to do. -/
def Onward (hash : CryptoHash d) (fresh : Digest d) (fuel : Nat) (E : Digest d × Digest d → Prop)
    (K : Digest d → Prop) (q : FilterParams) (first : SyncSystem d) (S₀ : Side → Finset (Digest d))
    (N : Peers d → Prop) (n : ℕ ×ₗ ℕ) (ps ps' : Peers d) : Prop :=
  (ps' = ps ∧ N ps) ∨ ∃ m, m < n ∧ PausedAt hash fresh fuel E K q first S₀ m ps'

section Rounds

variable {hash : CryptoHash d} {fresh : Digest d} {fuel : Nat} {E : Digest d × Digest d → Prop}
  {K : Digest d → Prop} {q : FilterParams} {first : SyncSystem d} {S₀ S : Side → Finset (Digest d)}
  {c : SyncSystem d} {ps ps₁ ps₂ : Peers d} {n : ℕ ×ₗ ℕ}

/-- One after the other. -/
theorem Onward.next {N : Peers d → Prop} (h : PausedAt hash fresh fuel E K q first S₀ n ps)
    (h₁ : Onward hash fresh fuel E K q first S₀ N n ps ps₁) :
    ∃ m, PausedAt hash fresh fuel E K q first S₀ m ps₁ ∧
      ∀ (N' : Peers d → Prop) (ps₂ : Peers d), Onward hash fresh fuel E K q first S₀ N' m ps₁ ps₂ →
        Onward hash fresh fuel E K q first S₀ (fun ps => N ps ∧ N' ps) n ps ps₂ := by
  rcases h₁ with ⟨rfl, hN⟩ | ⟨m, hm, h₁⟩
  · exact ⟨n, h, fun N' ps₂ h₂ => h₂.imp_left fun hsame => ⟨hsame.1, hN, hsame.2⟩⟩
  · refine ⟨m, h₁, fun N' ps₂ h₂ => Or.inr ?_⟩
    rcases h₂ with ⟨rfl, -⟩ | ⟨m', hm', h₂⟩
    · exact ⟨m, hm, h₁⟩
    · exact ⟨m', hm'.trans hm, h₂⟩

/-- Where nothing is left to send or to answer, a side with a key is done. -/
theorem Paused.done_of (h : Paused hash fresh fuel E K q first S₀ S c ps) (hspent : ∀ x, Spent (ps x))
    (hacks : ∀ x, (ps x).sync.pendingAcks = []) {x : Side} (hne : S x ≠ ∅) :
    SyncProcess.done (ps x) = true := by
  have hpeer : ∀ y, (ps y).sync = (c.peer y).sync := fun y => by rw [h.shown y]
  have hset : (ps x).set = (c.peer x).set := by rw [h.shown x]
  have hsent : (ps x).sync.sentHashes = [] := by
    rw [hpeer]
    exact h.growing.underway.synced.sent_eq_nil (h.subtries x) (h.acks x.other)
      ((congrArg SyncProcess.pendingAcks (hpeer x.other)).symm.trans (hacks x.other))
  have hstart : (ps x).sync.stat ≠ .START := by
    intro hstart
    obtain ⟨t, ht⟩ := h.growing.trie x
    obtain ⟨r, hr⟩ := getRoot_total (h.growing.underway.synced.works x)
    have hnone := (hspent x).1 hstart
    have hroot := (hasRoot_iff ht).mpr hne
    rw [hset, rooted_of_eq hr] at hnone
    cases r with
    | none => exact hroot (by rw [hr])
    | some root => cases hnone
  have hne' : (ps x).sync.stat ≠ .EQUAL := by
    rw [hpeer]
    exact h.notEqual x
  exact (done_iff hne').mpr ⟨hstart, (hspent x).2, hacks x, hsent⟩

end Rounds

/-! ## The program on filled sets -/

section Program

variable (hash : CryptoHash d) (fresh : Digest d) (fuel : Nat) (synchron : Bool) (bufferSize : Nat)

/-- Two empty sets have no root, and no side is ever done. -/
theorem runStrictSync_empty (q : FilterParams) (loops : Nat) :
    (runStrictSync hash fresh fuel synchron bufferSize loops fun _ => Peer.fresh
      (SetState.create d q.filterSize q.functionCount q.hardMaximum q.maxElements)).outcome = .diverged := by
  cases loops with
  | zero => rfl
  | succ loops =>
    generalize hps : (fun _ => Peer.fresh (SetState.create d q.filterSize q.functionCount q.hardMaximum
      q.maxElements) : Peers d) = ps
    have hpoll : ∀ x, onSide x SyncProcess.isSubtrieOutputAvailable ps = ⟨.ok false, ps, []⟩ := by
      intro x
      have hcall : SyncProcess.isSubtrieOutputAvailable (ps x) = ⟨.ok false, ps x, []⟩ := by
        rw [← hps]
        rfl
      rw [onSide_of_eq hcall, Function.update_eq_self]
    have hacks : ∀ x, ackLoop hash fresh fuel synchron bufferSize x (loops + 1) ps = ⟨.ok (), ps, []⟩ := by
      intro x
      rw [← hps]
      rfl
    have hsubtries : ∀ x, subtrieLoop synchron bufferSize x (loops + 1) ps = ⟨.ok (), ps, []⟩ := by
      intro x
      have hturn : loopTurn synchron (onSide x SyncProcess.isSubtrieOutputAvailable)
          (StrictExchange.subtrieTurn bufferSize x) ps = ⟨.ok false, ps, []⟩ := by
        unfold loopTurn
        rw [Prog.bind_of_ok (hpoll x)]
        rfl
      unfold subtrieLoop Prog.repeatWhile
      rw [Prog.bind_of_ok hturn]
      rfl
    have hdone : ∀ x, SyncProcess.done (ps x) = false := by
      intro x
      rw [← hps]
      rfl
    have hround : loopRound hash fresh fuel synchron bufferSize (loops + 1) ps = ⟨.ok true, ps, []⟩ := by
      unfold loopRound
      rw [Prog.bind_of_ok (Prog.get_apply ps), Run.after_nil, hdone, hdone, Bool.not_false,
        Bool.and_self, if_pos rfl, Prog.bind_of_ok (hacks .A), Run.after_nil, Prog.bind_of_ok (hacks .B),
        Run.after_nil, Prog.bind_of_ok (hsubtries .B), Run.after_nil, Prog.bind_of_ok (hsubtries .A)]
      rfl
    exact Prog.repeatWhile_diverges hround (loops + 1)

end Program

def lostData : Side → List Bytes := Side.pick [[101]] [[91], [149], [194]]

def lostSets (x : Side) : Run (SetState 16) (Digest 16 × Digest 16) Exn (List Bool) :=
  filled (mixHash 16) (byteKey 16 0) 256 exchangeParams (lostData x)

/-- The exchange inserts the key of the first side into the second set while hashes of the second side are
pending.  They name no node then, and are dropped. -/
def lostRun : Run (Peers 16) (Digest 16 × Digest 16) Exn Unit :=
  runStrictSync (mixHash 16) (byteKey 16 0) 256 true 32 5 fun x => Peer.fresh (lostSets x).state

/-- **The exchange ends with different sets**: the second one has all keys, the first one has not. -/
theorem exchange_loses_keys :
    CollisionFree (mixHash 16) ((lostSets .A).events ++ (lostSets .B).events ++ lostRun.events) ∧
      KeysFresh (mixHash 16) ((lostData .A ++ lostData .B).map (SetState.stringKey (mixHash 16)))
        ((lostSets .A).events ++ (lostSets .B).events ++ lostRun.events) ∧
      lostRun.outcome = .ok () ∧ (lostRun.state .A).set.trie.size = 2 ∧
      (lostRun.state .B).set.trie.size = 4 := by
  exact ⟨by decide +kernel, by decide +kernel, by decide +kernel, by decide +kernel, by decide +kernel⟩

end SetSync
