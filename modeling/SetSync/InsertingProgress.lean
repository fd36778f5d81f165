import SetSync.InsertingSync
import SetSync.Lib.Schedules
import SetSync.StrictProgress

/-!
# Synchronizations with insertions come to rest

An endless schedule of calls and of insertions of reported keys.  An insertion changes the trie, and with
it what a pending hash is worth, but it leaves one key less that the set can still get.

    exec_rests             an action changes nothing or lowers the rank
    inserting_sync_rests   from some step on nothing changes, and if every call comes again and again the
                           state is quiet then
-/

namespace SetSync

open Program BitTrie SyncSystem

variable {d : Nat}

theorem Represents.mono {hash : CryptoHash d} {E E' : Digest d × Digest d → Prop}
    {K : Digest d → Prop} {s : TrieState d} {S : Finset (Digest d)} {t : Option (Trie (Digest d))}
    (hE : ∀ e, E e → E' e) (h : Represents hash E K s S t) : Represents hash E' K s S t :=
  ⟨h.stores, h.ordered, fun u hu => (h.hashed u hu).mono (fun x y => hE (x, y)) fun _ hk => hk, h.keys⟩

/-- The keys that the sets have not got. -/
def missing (U : Finset (Digest d)) (c : SyncSystem d) : Nat :=
  (U.card - (c.peer .A).set.trie.size) + (U.card - (c.peer .B).set.trie.size)

/-- The keys that are missing, and the calls that are left. -/
noncomputable def restRank (U : Finset (Digest d)) (c : SyncSystem d) : Nat × Nat :=
  (missing U c, callsLeft c)

/-- Both sets and what is reported stay within the keys `U`. -/
structure Growing (hash : CryptoHash d) (E : Digest d × Digest d → Prop) (K : Digest d → Prop)
    (U : Finset (Digest d)) (S : Side → Finset (Digest d)) (c : SyncSystem d) : Prop where
  underway : Underway hash E K c
  trie : ∀ x, ∃ t, Represents hash E K (c.peer x).set.trie (S x) t
  within : ∀ x, S x ⊆ U
  handled : ∀ x, ∀ call ∈ (c.peer x).handled, call.1 ∈ S x

section Step

variable {hash : CryptoHash d} {E : Digest d × Digest d → Prop} {K : Digest d → Prop}
  {U : Finset (Digest d)} {S : Side → Finset (Digest d)} {c c' : SyncSystem d} {a : SyncAction d}

/-- An insertion leaves the set as it is, or adds the key. -/
theorem insert_leaves_or_adds (fresh : Digest d) {fuel : Nat} {s : SetState d} {S : Finset (Digest d)}
    {t : Option (Trie (Digest d))} (hd : d ≠ 4) (hw : 8 * d < 256)
    (hs : Separated hash.pair (Hashes E) K) (hfuel : 255 < fuel) {k : Digest d} (hk : K k)
    (h : Represents hash E K s.trie S t) :
    Prog.Leaves E (SetState.insert hash fresh fuel k) s fun s' =>
      s' = s ∨ (k ∉ S ∧ ∃ t', Represents hash E K s'.trie (insert k S) t') := by
  have hsize : SetState.getSize s = ⟨.ok s.trie.size, s, []⟩ := rfl
  refine Prog.Leaves.bind_of_eq (Prog.get_apply s) (Prog.Leaves.bind_of_eq hsize ?_)
  by_cases hfull : (s.hardMaximum && decide (s.maxSize ≤ s.trie.size)) = true
  · rw [if_pos hfull]
    exact Prog.Leaves.pure (Or.inl rfl)
  · rw [if_neg hfull]
    by_cases hmem : k ∈ S
    · -- the key is there already
      cases t with
      | none => exact absurd ((h.keys k).mpr hmem) List.not_mem_nil
      | some u =>
        have hadd : SetState.onTrie (KeyValueTrie.add hash fresh fuel k true) s = ⟨.ok false, s, []⟩ :=
          Prog.zoom_of_eq (add_duplicate fresh hw hs hfuel true hk h.stores (h.wellFormed u rfl)
            ((h.keys k).mpr hmem))
        exact Prog.Leaves.bind_of_eq hadd (Prog.Leaves.pure (Or.inl rfl))
    · apply Prog.Leaves.bind_of_returns (Prog.Returns.zoom (add_represents fresh hd hw hs hfuel hk h))
      rintro added s₁ ⟨trie, ⟨-, t', ht'⟩, rfl⟩
      cases added with
      | false => exact Prog.Leaves.pure (Or.inr ⟨hmem, t', ht'⟩)
      | true =>
        refine Prog.Leaves.bind (R := fun s' => s'.trie = trie)
          (Prog.Leaves.zoom (bloomAdd_ends k).leaves fun _ _ => rfl) ?_ ?_
        · rintro s' rfl
          exact Or.inr ⟨hmem, t', ht'⟩
        · rintro _ s' rfl
          exact Prog.Leaves.pure (Or.inr ⟨hmem, t', ht'⟩)

/-- A call that finds something. -/
theorem Growing.moved (hs : Separated hash.pair (Hashes E) K) (hc : Growing hash E K U S c)
    (ha : a.IsCall) (h : Moved c a c') : Growing hash E K U S c' := by
  have hset := h.stepped.set_eq ha.keepsSets.ne_change
  refine ⟨h.underway hs ha hc.underway, fun x => ?_, hc.within, fun x call hcall => ?_⟩
  · rw [hset x]
    exact hc.trie x
  · obtain ⟨calls, heq, hcalls⟩ := h.stepped.handled hc.underway.synced x
    rw [heq] at hcall
    rcases List.mem_append.mp hcall with hcall | hcall
    · exact hc.handled x call hcall
    · obtain ⟨t, ht⟩ := hc.trie x
      apply (ht.contains_iff hash hs call.1).mp
      rw [contains_record ht.failure, (hcalls call hcall).2.1]

/-- A key more in one of the sets. -/
theorem Growing.added (hc : Growing hash E K U S c) {x : Side} {k : Digest d} {s' : SetState d}
    {t' : Option (Trie (Digest d))} (hk : k ∈ U) (hnew : k ∉ S x)
    (ht' : Represents hash E K s'.trie (insert k (S x)) t') :
    Growing hash E K U (Function.update S x (insert k (S x)))
        (setPeer x { c.peer x with set := s' } c) ∧
      missing U (setPeer x { c.peer x with set := s' } c) < missing U c := by
  have hsync : ∀ y, ((setPeer x { c.peer x with set := s' } c).peer y).sync = (c.peer y).sync := by
    intro y
    rcases Side.eq_or_other x y with rfl | rfl <;> simp [setPeer]
  have hhandled : ∀ y, ((setPeer x { c.peer x with set := s' } c).peer y).handled
      = (c.peer y).handled := by
    intro y
    rcases Side.eq_or_other x y with rfl | rfl <;> simp [setPeer]
  have hchange : Stepped c (.change x s') (setPeer x { c.peer x with set := s' } c) := .changed
  have hsub : ∀ y, S y ⊆ Function.update S x (insert k (S x)) y := by
    intro y
    rcases Side.eq_or_other x y with rfl | rfl
    · rw [Function.update_self]
      exact Finset.subset_insert _ _
    · rw [Function.update_of_ne (Side.other_ne x)]
  have htrie : ∀ y, ∃ t, Represents hash E K ((setPeer x { c.peer x with set := s' } c).peer y).set.trie
      (Function.update S x (insert k (S x)) y) t := by
    intro y
    rcases Side.eq_or_other x y with rfl | rfl
    · simpa [setPeer] using ⟨t', ht'⟩
    · simpa [setPeer] using hc.trie x.other
  refine ⟨⟨⟨hchange.synced hc.underway.synced ht'.failure, fun y => ⟨_, htrie y⟩, hc.underway.filled,
    hc.underway.asked, fun y hy => ?_⟩, htrie, fun y => ?_, fun y call hcall => ?_⟩, ?_⟩
  · rw [hsync] at hy ⊢
    exact hc.underway.started y hy
  · rcases Side.eq_or_other x y with rfl | rfl
    · rw [Function.update_self]
      exact Finset.insert_subset hk (hc.within y)
    · rw [Function.update_of_ne (Side.other_ne x)]
      exact hc.within x.other
  · rw [hhandled] at hcall
    exact hsub y (hc.handled y call hcall)
  · -- one key less is missing on the side of the insertion
    have hroom : (insert k (S x)).card ≤ U.card :=
      Finset.card_le_card (Finset.insert_subset hk (hc.within x))
    rw [Finset.card_insert_of_notMem hnew] at hroom
    obtain ⟨t, ht⟩ := hc.trie x
    have hold := ht.size_eq
    have hsize := ht'.size_eq
    rw [Finset.card_insert_of_notMem hnew] at hsize
    unfold missing
    cases x
    · simp [setPeer]
      omega
    · simp [setPeer]
      omega

/-- **One action** changes nothing or lowers the rank. -/
theorem exec_rests (fresh : Digest d) {fuel : Nat} (hd : d ≠ 4) (hw : 8 * d < 256)
    (hs : Separated hash.pair (Hashes E) K) (hfuel : 255 < fuel) (ha : a.IsCallOrInsert)
    (hc : Growing hash E K U S c) :
    Prog.Returns E (a.exec hash fresh fuel) c fun _ c' => (∃ S', Growing hash E K U S' c') ∧
      (c' = c ∨ Prod.Lex (· < ·) (· < ·) (restRank U c') (restRank U c)) := by
  have hsame : (∃ S', Growing hash E K U S' c) ∧
      (c = c ∨ Prod.Lex (· < ·) (· < ·) (restRank U c) (restRank U c)) := ⟨⟨S, hc⟩, Or.inl rfl⟩
  by_cases hcall : a.IsCall
  · rcases exec_moves hash fresh fuel hc.underway.synced a hcall with ⟨-, hexec⟩ | ⟨-, c', hexec, hmoved⟩
    · exact Prog.Returns.of_eq hexec hsame
    · refine Prog.Returns.of_eq hexec ⟨⟨S, hc.moved hs hcall hmoved⟩, Or.inr ?_⟩
      have hmissing : missing U c' = missing U c := by
        unfold missing
        rw [hmoved.stepped.set_eq hcall.keepsSets.ne_change .A,
          hmoved.stepped.set_eq hcall.keepsSets.ne_change .B]
      have hless := hmoved.callsLeft_lt hs hcall hc.underway
      rw [restRank, restRank, hmissing]
      exact Prod.Lex.right _ hless
  · cases a with
    | insert x k =>
      apply Prog.Returns.bind_of_eq (Prog.get_apply c)
      split
      · -- the key was reported, so it is a key of the other side
        rename_i hk
        obtain ⟨t, ht⟩ := hc.trie x
        obtain ⟨t', hother⟩ := hc.trie x.other
        have hmem := hc.handled x.other _ hk
        have hkey : K k := hother.keys_mem k hmem
        have hleaves : Prog.Leaves E
            (onPeer x (SyncProcess.onSet (SetState.insert hash fresh fuel k))) c
            fun c' => (∃ S', Growing hash E K U S' c') ∧
              (c' = c ∨ Prod.Lex (· < ·) (· < ·) (restRank U c') (restRank U c)) := by
          refine Prog.Leaves.zoom (R := fun p => (∃ S', Growing hash E K U S' (setPeer x p c)) ∧
            (setPeer x p c = c ∨
              Prod.Lex (· < ·) (· < ·) (restRank U (setPeer x p c)) (restRank U c))) ?_ fun _ hp => hp
          apply Prog.Leaves.zoom (insert_leaves_or_adds fresh hd hw hs hfuel hkey ht)
          rintro s' (rfl | ⟨hnew, u, hu⟩)
          · have hself : setPeer x { c.peer x with set := (c.peer x).set } c = c := setPeer_self x
            rw [hself]
            exact hsame
          · obtain ⟨hgrowing, hless⟩ := hc.added (hc.within x.other hmem) hnew hu
            exact ⟨⟨_, hgrowing⟩, Or.inr (Prod.Lex.left _ _ hless)⟩
        exact Prog.Returns.bind (Prog.Leaves.catch false hleaves) fun _ c' hc' => Prog.Returns.pure hc'
      · exact Prog.Returns.pure hsame
    | _ => exact absurd ha hcall

theorem growing_start {A B : SetState d}
    (hrep : ∀ x, ∃ t, Represents hash E K (setOf A B x).trie (S x) t) (hU : ∀ x, S x ⊆ U) :
    Growing hash E K U S (start A B) where
  underway := underway_start fun x => by
    obtain ⟨t, ht⟩ := hrep x
    exact ⟨_, t, ht⟩
  trie := fun x => by
    cases x
    · exact hrep .A
    · exact hrep .B
  within := hU
  handled := fun x call hcall => by cases x <;> exact absurd hcall List.not_mem_nil

end Step

/-! ## Schedules -/

/-- Every call comes again and again, in some size. -/
def Fair (schedule : Nat → SyncAction d) : Prop :=
  ∀ x n, (∃ m, n ≤ m ∧ schedule m = .poll x) ∧
    (∃ m size, n ≤ m ∧ schedule m = .getSubTrie x size) ∧
    (∃ m, n ≤ m ∧ schedule m = .processSubTrie x) ∧
    (∃ m length, n ≤ m ∧ schedule m = .readSomeTrieAcks x length) ∧
    ∃ m, n ≤ m ∧ schedule m = .processAcks x

/-- Every call has its turn: one of its kind comes, and finds what it would find. -/
theorem Fair.turn {schedule : Nat → SyncAction d} (h : Fair schedule) (c : SyncSystem d)
    {a : SyncAction d} (ha : a.IsCall) (n : Nat) :
    ∃ m, n ≤ m ∧ productive c (schedule m) = productive c a ∧
      ((schedule m).IsCallOrInsert → (schedule m).IsCall) := by
  cases a with
  | insert x key => exact absurd ha id
  | change x set => exact absurd ha id
  | isEqual x key => exact absurd ha id
  | poll x =>
    obtain ⟨m, hm, he⟩ := (h x n).1
    rw [← he]
    exact ⟨m, hm, rfl, by rw [he]; exact id⟩
  | getSubTrie x size =>
    obtain ⟨m, size', hm, he⟩ := (h x n).2.1
    exact ⟨m, hm, by rw [he]; rfl, by rw [he]; exact id⟩
  | processSubTrie x =>
    obtain ⟨m, hm, he⟩ := (h x n).2.2.1
    rw [← he]
    exact ⟨m, hm, rfl, by rw [he]; exact id⟩
  | readSomeTrieAcks x length =>
    obtain ⟨m, length', hm, he⟩ := (h x n).2.2.2.1
    exact ⟨m, hm, by rw [he]; rfl, by rw [he]; exact id⟩
  | processAcks x =>
    obtain ⟨m, hm, he⟩ := (h x n).2.2.2.2
    rw [← he]
    exact ⟨m, hm, rfl, by rw [he]; exact id⟩

/-- A state that no call of a fair schedule changes is quiet. -/
theorem Underway.quiet_of_rests {hash : CryptoHash d} {E : Digest d × Digest d → Prop} {K : Digest d → Prop}
    (hd : 0 < d) (fresh : Digest d) (fuel : Nat) (hs : Separated hash.pair (Hashes E) K)
    {c : SyncSystem d} (hc : Underway hash E K c) {schedule : Nat → SyncAction d}
    (ha : ∀ n, (schedule n).IsCallOrInsert) (hfair : Fair schedule) {n : Nat}
    (hrest : ∀ m, n ≤ m → ((schedule m).exec hash fresh fuel c).state = c) : Quiet c := by
  apply (quiet_iff hd hc.synced fun x hx => (hc.started x hx).1).mpr
  intro a hcall
  by_contra hon
  obtain ⟨m, hm, heq, hturn⟩ := hfair.turn c hcall n
  have hcall' := hturn (ha m)
  rcases exec_moves hash fresh fuel hc.synced (schedule m) hcall' with
    ⟨hidle, -⟩ | ⟨-, c', hexec, hmoved⟩
  · rw [heq] at hidle
    exact hon hidle
  · have hless := hmoved.callsLeft_lt hs hcall' hc
    have hstay := hrest m hm
    rw [hexec] at hstay
    rw [show c' = c from hstay] at hless
    exact Nat.lt_irrefl _ hless

section Schedules

variable {hash : CryptoHash d} {fuel : Nat} {fresh : Side → Digest d}
  {ops : Side → List (SetOp (Digest d))} {sets : Side → SetState d}

/-- The keys of both sets. -/
def allKeys (ops : Side → List (SetOp (Digest d))) : Finset (Digest d) :=
  keysAfter (ops .A) ∪ keysAfter (ops .B)

theorem BuiltSets.growing (h : BuiltSets hash fuel fresh ops sets) {E : Digest d × Digest d → Prop}
    (hE : ∀ e ∈ builtPairs hash fuel fresh ops, E e) :
    Growing hash E (· ∈ addedKeys (ops .A) ++ addedKeys (ops .B)) (allKeys ops)
      (fun x => keysAfter (ops x)) (start (sets .A) (sets .B)) := by
  obtain ⟨t, -, hbuilt⟩ := h.represents
  apply growing_start
  · intro x
    rw [setOf_sides]
    exact ⟨t x, (hbuilt x).mono hE⟩
  · intro x
    cases x
    · exact Finset.subset_union_left
    · exact Finset.subset_union_right

/-- Where the insertions end, so do the pairs that are hashed. -/
theorem emitted_of_calls (h : BuiltSets hash fuel fresh ops sets) (f : Digest d)
    {schedule : Nat → SyncAction d} (ha : ∀ n, (schedule n).IsCallOrInsert) {N : Nat}
    (hcalls : ∀ n, N ≤ n → (schedule n).IsCall) {l : List (Digest d × Digest d)}
    (hl : l = builtPairs hash fuel fresh ops
      ++ Prog.emitted (SyncAction.exec hash f fuel) schedule (start (sets .A) (sets .B)) N)
    (hc : CollisionFree hash l) (hk : KeysFresh hash (addedKeys (ops .A) ++ addedKeys (ops .B)) l)
    (n : Nat) :
    ∀ e ∈ Prog.emitted (SyncAction.exec hash f fuel) schedule (start (sets .A) (sets .B)) n, e ∈ l := by
  obtain ⟨hd4, hw⟩ := narrow_digest h.digest
  have hs := separated_of_collisionFree hc hk
  suffices hsuff : (∃ S, Growing hash (· ∈ l) (· ∈ addedKeys (ops .A) ++ addedKeys (ops .B))
      (allKeys ops) S (Prog.after (SyncAction.exec hash f fuel) schedule (start (sets .A) (sets .B)) n)) ∧
      ∀ e ∈ Prog.emitted (SyncAction.exec hash f fuel) schedule (start (sets .A) (sets .B)) n, e ∈ l from
    hsuff.2
  induction n with
  | zero =>
    exact ⟨⟨_, h.growing fun e he => hl ▸ List.mem_append_left _ he⟩,
      fun e he => absurd he List.not_mem_nil⟩
  | succ n ih =>
    obtain ⟨⟨S, hS⟩, hold⟩ := ih
    have hnew : ∀ e ∈ (SyncAction.exec hash f fuel (schedule n)
        (Prog.after (SyncAction.exec hash f fuel) schedule (start (sets .A) (sets .B)) n)).events,
        e ∈ l := by
      intro e he
      by_cases hn : N ≤ n
      · rcases exec_moves hash f fuel hS.underway.synced (schedule n) (hcalls n hn) with
          ⟨-, hexec⟩ | ⟨-, c', hexec, -⟩
        · rw [hexec] at he
          exact absurd he List.not_mem_nil
        · rw [hexec] at he
          exact absurd he List.not_mem_nil
      · rw [hl]
        apply List.mem_append_right
        exact Prog.emitted_subset (Nat.lt_of_not_le hn) e (List.mem_append_right _ he)
    obtain ⟨_, -, hgrow, -⟩ := exec_rests f hd4 hw hs h.depth (ha n) hS hnew
    refine ⟨hgrow, fun e he => ?_⟩
    rcases List.mem_append.mp he with he | he
    · exact hold e he
    · exact hnew e he

/-- **Calls and insertions come to rest.**  In an endless schedule nothing changes from some step on, and
if every call comes again and again, the system is quiet then. -/
theorem inserting_sync_rests (h : BuiltSets hash fuel fresh ops sets) (f : Digest d)
    (schedule : Nat → SyncAction d) (ha : ∀ n, (schedule n).IsCallOrInsert)
    (hc : ∀ n, CollisionFree hash (builtPairs hash fuel fresh ops
      ++ Prog.emitted (SyncAction.exec hash f fuel) schedule (start (sets .A) (sets .B)) n))
    (hk : ∀ n, KeysFresh hash (addedKeys (ops .A) ++ addedKeys (ops .B))
      (builtPairs hash fuel fresh ops
        ++ Prog.emitted (SyncAction.exec hash f fuel) schedule (start (sets .A) (sets .B)) n)) :
    ∃ n, (∀ m, n ≤ m →
        Prog.after (SyncAction.exec hash f fuel) schedule (start (sets .A) (sets .B)) m
          = Prog.after (SyncAction.exec hash f fuel) schedule (start (sets .A) (sets .B)) n) ∧
      (Fair schedule →
        Quiet (Prog.after (SyncAction.exec hash f fuel) schedule (start (sets .A) (sets .B)) n)) := by
  obtain ⟨hd4, hw⟩ := narrow_digest h.digest
  let states := Prog.after (SyncAction.exec hash f fuel) schedule (start (sets .A) (sets .B))
  let pairs := Prog.emitted (SyncAction.exec hash f fuel) schedule (start (sets .A) (sets .B))
  -- the pairs of the whole schedule
  let E : Digest d × Digest d → Prop := fun e => ∃ n, e ∈ builtPairs hash fuel fresh ops ++ pairs n
  let K : Digest d → Prop := (· ∈ addedKeys (ops .A) ++ addedKeys (ops .B))
  have hlater : ∀ {m n e}, m ≤ n → e ∈ builtPairs hash fuel fresh ops ++ pairs m →
      e ∈ builtPairs hash fuel fresh ops ++ pairs n := by
    intro m n e hle he
    rcases List.mem_append.mp he with he | he
    · exact List.mem_append_left _ he
    · exact List.mem_append_right _ (Prog.emitted_subset hle e he)
  have hs : Separated hash.pair (Hashes E) K := by
    refine ⟨?_, ?_⟩
    · rintro x y x' y' ⟨m, hm⟩ ⟨n, hn⟩ heq
      exact Prod.mk.inj (hc (max m n) _ (hlater (Nat.le_max_left m n) hm) _
        (hlater (Nat.le_max_right m n) hn) heq)
    · rintro k x y hkey ⟨n, hn⟩
      exact hk n k hkey _ hn
  have hstart : Growing hash E K (allKeys ops) (fun x => keysAfter (ops x))
      (start (sets .A) (sets .B)) := h.growing fun e he => ⟨0, List.mem_append_left _ he⟩
  have hnext : ∀ n, (∃ S, Growing hash E K (allKeys ops) S (states n)) →
      (∃ S, Growing hash E K (allKeys ops) S (states (n + 1))) ∧ (states (n + 1) = states n ∨
        Prod.Lex (· < ·) (· < ·) (restRank (allKeys ops) (states (n + 1)))
          (restRank (allKeys ops) (states n))) := by
    rintro n ⟨S, hS⟩
    obtain ⟨_, -, hpost⟩ := exec_rests f hd4 hw hs h.depth (ha n) hS fun e he =>
      ⟨n + 1, List.mem_append_right _ (List.mem_append_right _ he)⟩
    exact hpost
  have hall : ∀ n, ∃ S, Growing hash E K (allKeys ops) S (states n) := fun n =>
    Prog.after_holds (J := fun c => ∃ S, Growing hash E K (allKeys ops) S c) ⟨_, hstart⟩
      (fun n hn => (hnext n hn).1) n
  have hwf : WellFounded (Prod.Lex (· < ·) (· < ·) : Nat × Nat → Nat × Nat → Prop) :=
    WellFounded.prod_lex Nat.lt_wfRel.wf Nat.lt_wfRel.wf
  obtain ⟨n, hn⟩ := Prog.settles hwf fun n => (hnext n (hall n)).2
  refine ⟨n, hn, fun hfair => ?_⟩
  obtain ⟨S, hS⟩ := hall n
  have hd : 0 < d := by
    rcases h.digest with rfl | rfl | rfl <;> decide
  refine hS.underway.quiet_of_rests hd f fuel hs ha hfair (n := n) fun m hm => ?_
  have hafter : states (m + 1) = states n := hn (m + 1) (Nat.le_succ_of_le hm)
  have hbefore : states m = states n := hn m hm
  show (SyncAction.exec hash f fuel (schedule m) (states n)).state = states n
  rw [← hbefore] at hafter ⊢
  exact hafter

/-- An insertion in a first round, and then every call in turn. -/
def restingSchedule (n : Nat) : SyncAction 16 :=
  (insertingActions[n]?).getD ((crossedActions[n % 10]?).getD (.poll .A))

theorem insertingActions_calls : ∀ a ∈ insertingActions, a.IsCallOrInsert := by
  simp only [insertingActions, List.forall_mem_cons, SyncAction.IsCallOrInsert, SyncAction.IsCall]
  exact ⟨trivial, trivial, by decide, by decide, trivial, by decide, trivial, trivial, trivial,
    by decide, trivial, by simp⟩

theorem restingSchedule_later {n : Nat} (h : 11 ≤ n) :
    crossedActions[n % 10]? = some (restingSchedule n) := by
  have hlt : n % 10 < crossedActions.length := Nat.mod_lt n (by decide)
  have hnone : insertingActions[n]? = none := List.getElem?_eq_none (by exact h)
  rw [restingSchedule, hnone, List.getElem?_eq_getElem hlt]
  rfl

theorem restingSchedule_calls {n : Nat} (h : 11 ≤ n) : (restingSchedule n).IsCall :=
  crossedActions_calls _ (List.mem_of_getElem? (restingSchedule_later h))

theorem restingSchedule_callOrInsert (n : Nat) : (restingSchedule n).IsCallOrInsert := by
  by_cases h : n < insertingActions.length
  · have hget : restingSchedule n = insertingActions[n] := by
      rw [restingSchedule, List.getElem?_eq_getElem h]
      rfl
    rw [hget]
    exact insertingActions_calls _ (List.getElem_mem h)
  · have hcall := restingSchedule_calls (n := n) (by exact Nat.le_of_not_lt h)
    cases hget : restingSchedule n with
    | insert x key => exact trivial
    | _ =>
      rw [hget] at hcall
      exact hcall

theorem restingSchedule_fair : Fair restingSchedule := by
  have hturn : ∀ (n j : Nat) (hj : j < 10) (a : SyncAction 16), crossedActions[j]? = some a →
      n ≤ 10 * (n + 2) + j ∧ restingSchedule (10 * (n + 2) + j) = a := by
    intro n j hj a ha
    have hlater := restingSchedule_later (n := 10 * (n + 2) + j) (by omega)
    rw [Nat.mul_add_mod, Nat.mod_eq_of_lt hj, ha] at hlater
    exact ⟨by omega, (Option.some.inj hlater).symm⟩
  intro x n
  cases x with
  | A =>
    exact ⟨⟨_, hturn n 0 (by decide) _ rfl⟩, ⟨_, _, hturn n 2 (by decide) _ rfl⟩,
      ⟨_, hturn n 5 (by decide) _ rfl⟩, ⟨_, _, hturn n 6 (by decide) _ rfl⟩,
      ⟨_, hturn n 8 (by decide) _ rfl⟩⟩
  | B =>
    exact ⟨⟨_, hturn n 1 (by decide) _ rfl⟩, ⟨_, _, hturn n 3 (by decide) _ rfl⟩,
      ⟨_, hturn n 4 (by decide) _ rfl⟩, ⟨_, _, hturn n 7 (by decide) _ rfl⟩,
      ⟨_, hturn n 9 (by decide) _ rfl⟩⟩

def insertingOps : Side → List (SetOp (Digest 16)) :=
  Side.pick ([byteKey 16 1, byteKey 16 2].map .add) ([byteKey 16 3].map .add)

/-- The sets that `insertingActions` starts with. -/
def insertingSets : Side → SetState 16 :=
  Side.pick (setWith [byteKey 16 1, byteKey 16 2]) (setWith [byteKey 16 3])

/-- The pairs that the schedule hashes. -/
def restingPairs : List (Digest 16 × Digest 16) :=
  builtPairs (mixHash 16) 256 (fun _ => byteKey 16 0) insertingOps
    ++ Prog.emitted (SyncAction.exec (mixHash 16) (byteKey 16 0) 256) restingSchedule
      (start (insertingSets .A) (insertingSets .B)) 11

theorem restingPairs_separated : CollisionFree (mixHash 16) restingPairs ∧
    KeysFresh (mixHash 16) (addedKeys (insertingOps .A) ++ addedKeys (insertingOps .B)) restingPairs :=
  ⟨by decide +kernel, by decide +kernel⟩

theorem inserting_built :
    BuiltSets (mixHash 16) 256 (fun _ => byteKey 16 0) insertingOps insertingSets where
  digest := Or.inl rfl
  depth := by decide
  trie := fun x => by cases x <;> exact setWith_trie _
  collisionFree := fun p hp q hq => restingPairs_separated.1 p (List.mem_append_left _ hp) q
    (List.mem_append_left _ hq)
  keysFresh := fun k hk p hp => restingPairs_separated.2 k hk p (List.mem_append_left _ hp)

theorem inserting_sync_rests_sample :
    ∃ n, Quiet (Prog.after (SyncAction.exec (mixHash 16) (byteKey 16 0) 256) restingSchedule
      (start (insertingSets .A) (insertingSets .B)) n) := by
  have hpairs := emitted_of_calls inserting_built (byteKey 16 0) restingSchedule_callOrInsert
    (fun n => restingSchedule_calls) rfl restingPairs_separated.1 restingPairs_separated.2
  have hall : ∀ n e, e ∈ builtPairs (mixHash 16) 256 (fun _ => byteKey 16 0) insertingOps
      ++ Prog.emitted (SyncAction.exec (mixHash 16) (byteKey 16 0) 256) restingSchedule
        (start (insertingSets .A) (insertingSets .B)) n → e ∈ restingPairs := by
    intro n e he
    rcases List.mem_append.mp he with he | he
    · exact List.mem_append_left _ he
    · exact hpairs n e he
  obtain ⟨n, -, hquiet⟩ := inserting_sync_rests inserting_built (byteKey 16 0) restingSchedule
    restingSchedule_callOrInsert
    (fun n p hp q hq => restingPairs_separated.1 p (hall n p hp) q (hall n q hq))
    (fun n k hk p hp => restingPairs_separated.2 k hk p (hall n p hp))
  exact ⟨n, hquiet restingSchedule_fair⟩

end Schedules

end SetSync
