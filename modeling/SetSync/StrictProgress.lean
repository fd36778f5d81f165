import SetSync.Lib.Ranking
import SetSync.SyncRank

/-!
# The progress of a strict synchronization

Runs of calls on two sets that do not change.  Every call that finds something lowers the rank of
`SyncRank`, and a state where no call finds anything is quiet.

    calls_counted      a run, with an invariant and a rank of its own
    strict_sync_ends   few calls of a run find something, in any order
-/

namespace SetSync

open Program BitTrie SyncSystem

variable {d : Nat}

/-! ## Built sets -/

/-- The pairs that were hashed while the sets were built. -/
def builtPairs (hash : CryptoHash d) (fuel : Nat) (fresh : Side → Digest d)
    (ops : Side → List (SetOp (Digest d))) : List (Digest d × Digest d) :=
  (runTrie hash (fresh .A) fuel (ops .A)).events ++ (runTrie hash (fresh .B) fuel (ops .B)).events

/-- Two sets whose tries were built by operations, without a collision between their hashes. -/
structure BuiltSets (hash : CryptoHash d) (fuel : Nat) (fresh : Side → Digest d)
    (ops : Side → List (SetOp (Digest d))) (sets : Side → SetState d) : Prop where
  digest : d = 16 ∨ d = 20 ∨ d = 28
  depth : 255 < fuel
  trie : ∀ x, (sets x).trie = (runTrie hash (fresh x) fuel (ops x)).state
  collisionFree : CollisionFree hash (builtPairs hash fuel fresh ops)
  keysFresh : KeysFresh hash (addedKeys (ops .A) ++ addedKeys (ops .B)) (builtPairs hash fuel fresh ops)

/-- The keys that are left after the operations. -/
def keysAfter (ops : List (SetOp (Digest d))) : Finset (Digest d) := (setRun ∅ ops).2

section Built

variable {hash : CryptoHash d} {fuel : Nat} {fresh : Side → Digest d}
  {ops : Side → List (SetOp (Digest d))} {sets : Side → SetState d}

theorem setOf_sides (sets : Side → SetState d) : setOf (sets .A) (sets .B) = sets := by
  funext x
  cases x <;> rfl

theorem BuiltSets.represents (h : BuiltSets hash fuel fresh ops sets) :
    ∃ t : Side → Option (Trie (Digest d)),
      Separated hash.pair (Hashes (· ∈ builtPairs hash fuel fresh ops))
        (· ∈ addedKeys (ops .A) ++ addedKeys (ops .B)) ∧
      ∀ x, Represents hash (· ∈ builtPairs hash fuel fresh ops)
        (· ∈ addedKeys (ops .A) ++ addedKeys (ops .B)) (sets x).trie (keysAfter (ops x)) (t x) := by
  have hs := separated_of_collisionFree h.collisionFree h.keysFresh
  obtain ⟨_, t₁, h₁⟩ := runTrie_represents hash (fresh .A) h.digest h.depth h.collisionFree h.keysFresh
    (List.subset_append_left _ _) (List.subset_append_left _ _)
  obtain ⟨_, t₂, h₂⟩ := runTrie_represents hash (fresh .B) h.digest h.depth h.collisionFree h.keysFresh
    (List.subset_append_right _ _) (List.subset_append_right _ _)
  refine ⟨Side.pick t₁ t₂, hs, fun x => ?_⟩
  rw [h.trie x]
  cases x
  · exact h₁
  · exact h₂

end Built

/-! ## Runs -/

section Runs

variable {hash : CryptoHash d} {E : Digest d × Digest d → Prop} {K : Digest d → Prop}

/-- **A run of calls**, with an invariant of the productive ones and a rank that pays for some of them. -/
theorem calls_counted (fresh : Digest d) (fuel : Nat) (hs : Separated hash.pair (Hashes E) K)
    {A B : SetState d} (hrep : ∀ x, ∃ S t, Represents hash E K (setOf A B x).trie S t)
    {actions : List (SyncAction d)} (ha : ∀ a ∈ actions, a.IsCall)
    (mark : SyncSystem d → SyncAction d → Bool) (rank : SyncSystem d → Nat) {J : SyncSystem d → Prop}
    (hmark : ∀ c a, mark c a = true → productive c a = true) (hstart : J (start A B))
    (hstep : ∀ c a c', a.IsCall → Underway hash E K c → J c → Moved c a c' → Underway hash E K c' →
      J c' ∧ (if mark c a then 1 else 0) + rank c' ≤ rank c) :
    ∃ us c', SyncAction.run hash fresh fuel actions (start A B) = ⟨.ok us, c', []⟩ ∧
      Underway hash E K c' ∧ J c' ∧
      Prog.count (SyncAction.exec hash fresh fuel) mark (start A B) actions + rank c'
        ≤ rank (start A B) := by
  have hnext : ∀ a ∈ actions, ∀ c, Underway hash E K c ∧ J c →
      ∃ u c', a.exec hash fresh fuel c = ⟨.ok u, c', []⟩ ∧ (Underway hash E K c' ∧ J c') ∧
        (if mark c a then 1 else 0) + rank c' ≤ rank c := by
    intro a hmem c h
    have hcall := ha a hmem
    rcases exec_moves hash fresh fuel h.1.synced a hcall with ⟨hidle, hexec⟩ | ⟨-, c', hexec, hmoved⟩
    · refine ⟨(), c, hexec, h, ?_⟩
      have hoff : mark c a = false := by
        by_contra hon
        rw [hmark c a (Bool.eq_true_of_not_eq_false hon)] at hidle
        cases hidle
      rw [hoff]
      simp
    · have hway := hmoved.underway hs hcall h.1
      obtain ⟨hj, hpay⟩ := hstep c a c' hcall h.1 h.2 hmoved hway
      exact ⟨(), c', hexec, ⟨hway, hj⟩, hpay⟩
  obtain ⟨us, c', hrun, ⟨hway, hj⟩, hcount⟩ := Prog.each_counted hnext ⟨underway_start hrep, hstart⟩
  exact ⟨us, c', hrun, hway, hj, hcount⟩

end Runs

section Built

variable {hash : CryptoHash d} {fuel : Nat} {fresh : Side → Digest d}
  {ops : Side → List (SetOp (Digest d))} {sets : Side → SetState d}

/-- **A strict synchronization ends**, in whatever order the calls are made: a call that finds nothing
changes nothing, only so many calls find something, and as long as the state is not quiet one does. -/
theorem strict_sync_ends (h : BuiltSets hash fuel fresh ops sets) (f : Digest d)
    (actions : List (SyncAction d)) (ha : ∀ a ∈ actions, a.IsCall) :
    let c := (SyncAction.run hash f fuel actions (start (sets .A) (sets .B))).state
    Prog.count (SyncAction.exec hash f fuel) productive (start (sets .A) (sets .B)) actions
        ≤ 2 + 7 * ((keysAfter (ops .A)).card + (keysAfter (ops .B)).card) ∧
      (¬Quiet c → ∃ a : SyncAction d, a.IsCall ∧ productive c a = true) ∧
      ∀ a : SyncAction d, a.IsCall → productive c a = false →
        a.exec hash f fuel c = ⟨.ok (), c, []⟩ := by
  obtain ⟨t, hs, hrep⟩ := h.represents
  rw [← setOf_sides sets] at hrep
  obtain ⟨us, c, hrun, hway, -, hcount⟩ := calls_counted (J := fun _ => True) f fuel hs
    (fun x => ⟨_, _, hrep x⟩) ha productive callsLeft (fun _ _ hon => hon) trivial
    fun c a c' hcall hway _ hmoved _ => by
      have hless := hmoved.callsLeft_lt hs hcall hway
      refine ⟨trivial, ?_⟩
      split <;> omega
  rw [hrun]
  refine ⟨?_, ?_, ?_⟩
  · have hstart := callsLeft_start hs hrep
    omega
  · intro hbusy
    have hd : 0 < d := by
      rcases h.digest with rfl | rfl | rfl <;> decide
    have hsome := mt (quiet_iff hd hway.synced fun x hx => (hway.started x hx).1).mpr hbusy
    push Not at hsome
    obtain ⟨a, hcall, hon⟩ := hsome
    exact ⟨a, hcall, Bool.eq_true_of_not_eq_false hon⟩
  · intro a hcall hoff
    rcases exec_moves hash f fuel hway.synced a hcall with ⟨-, hexec⟩ | ⟨hon, -⟩
    · exact hexec
    · rw [hoff] at hon
      cases hon

def crossedOps : Side → List (SetOp (Digest 16)) :=
  Side.pick ([byteKey 16 1, byteKey 16 2].map .add) ([byteKey 16 2].map .add)

/-- The sets that `crossed` starts with. -/
def crossedSets : Side → SetState 16 :=
  Side.pick (setWith [byteKey 16 1, byteKey 16 2]) (setWith [byteKey 16 2])

theorem crossed_built :
    BuiltSets (mixHash 16) 256 (fun _ => byteKey 16 0) crossedOps crossedSets where
  digest := Or.inl rfl
  depth := by decide
  trie := fun x => by cases x <;> exact setWith_trie _
  collisionFree := by decide +kernel
  keysFresh := by decide +kernel

theorem strict_sync_ends_sample :
    Prog.count (SyncAction.exec (mixHash 16) (byteKey 16 0) 256) productive
      (start (crossedSets .A) (crossedSets .B)) crossedActions ≤ 23 := by
  have h := (strict_sync_ends crossed_built (byteKey 16 0) crossedActions crossedActions_calls).1
  have hA : (keysAfter (crossedOps .A)).card = 2 := by decide +kernel
  have hB : (keysAfter (crossedOps .B)).card = 1 := by decide +kernel
  rw [hA, hB] at h
  exact h

end Built

end SetSync
