import SetSync.StrictExchange

/-!
# A run of the evaluation

`SetSync::run` of the evaluation program makes two processes and runs the loose synchronization, the strict
one, or the one and then the other.  The loose one fills the gap between the sets as far as their filters
differ, and leaves the search in the tries where it was, so what the strict one needs of its start holds
(`SameSearch`, `paused_resting`).  It begins with larger sets then.
-/

namespace SetSync

open Program BitTrie SyncSystem SyncLoop LooseExchange StrictExchange

variable {d : Nat}

inductive SyncType where
  | LOOSE | STRICT | BOTH
deriving DecidableEq

namespace EvaluationRun

variable (hash : CryptoHash d) (fresh : Digest d) (fuel : Nat)

/-- The two phases of `SetSync::run`. -/
def run (type_ : SyncType) (synchron : Bool) (bufferSize loops : Nat) : PeersM d Unit := do
  if type_ = .LOOSE ∨ type_ = .BOTH then
    runLooseSync hash fresh fuel bufferSize loops
  if type_ = .STRICT ∨ type_ = .BOTH then
    runStrictSync hash fresh fuel synchron bufferSize loops

end EvaluationRun

section Phases

variable (hash : CryptoHash d) (fresh : Digest d) (fuel : Nat)

end Phases

section Both

variable {hash : CryptoHash d} {E : Digest d × Digest d → Prop} {K : Digest d → Prop} {q : FilterParams}
  {S₀ : Side → Finset (Digest d)} {sets : Side → SetState d}

end Both

end SetSync
