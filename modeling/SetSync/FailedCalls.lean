import SetSync.SetData
import SetSync.SetInsert
import SetSync.TrieReopen

/-!
# Calls that answer false

`insert(data)` writes the data to the index before it knows whether the set takes the key, and rolls back
by removing the entry: data that was there before is gone then.  Apart from that, a call that answers false
changes nothing.

    insert     false from the test of the maximum, or from the trie                (insert_refuses)
    erase      false from the trie                                                  (erase_refuses)
    a run      of any calls, exceptions caught: the trie holds a set of keys, the index works
                                                                               (runAttempts_holds)
    false      leaves all as it was ↔ no entry was written over               (failed_call_clean_iff)
-/

namespace SetSync

open Program BitTrie

variable {d : Nat}

/-- A call of a method of the set: `erase(data, length)` beside those of `DataOp`. -/
inductive SetCall (d : Nat) where
  | op (o : DataOp d)
  | eraseData (data : Bytes)

namespace SetCall

variable (hash : CryptoHash d) (fresh : Digest d) (fuel : Nat)

def exec : SetCall d → SetM d (Option Bool)
  | op o => o.exec hash fresh fuel
  | eraseData data => do
    let b ← SetState.eraseData hash fuel data
    pure (some b)

/-- The keys that go to `add` of the trie. -/
def added : SetCall d → List (Digest d)
  | op (.insertData data) => [hash.digest data]
  | op (.insert key) => [key]
  | _ => []

/-- The call of an application that catches every exception. -/
def attempt (call : SetCall d) : SetM d (Option Bool) :=
  tryCatch (call.exec hash fresh fuel) fun _ => pure none

end SetCall

def runAttempts (hash : CryptoHash d) (fresh : Digest d) (fuel : Nat) (calls : List (SetCall d)) :
    SetM d (List (Option Bool)) :=
  Prog.each (SetCall.attempt hash fresh fuel) calls

/-- Keys, size, bits and data are the same. -/
structure Unchanged (s s' : SetState d) : Prop where
  keys : ∀ k, s'.holds k = s.holds k
  size : (SetState.getSize s').outcome = (SetState.getSize s).outcome
  bits : s'.bf.bitArray = s.bf.bitArray
  data : ∀ k : Digest d, s'.index.table.lookup k.bytes = s.index.table.lookup k.bytes

/-- If the call answers false, it has changed nothing. -/
def FailsClean (hash : CryptoHash d) (fresh : Digest d) (fuel : Nat) (call : SetCall d)
    (s : SetState d) : Prop :=
  (call.exec hash fresh fuel s).outcome = .ok (some false) →
    Unchanged s (call.exec hash fresh fuel s).state

/-- The call brings data for a digest that has some already, and the set does not take the digest: it is
full, or has it. -/
def SetState.overwrites (hash : CryptoHash d) (s : SetState d) : SetCall d → Bool
  | .op (.insertData data) => (s.index.table.lookup (hash.digest data).bytes).isSome &&
      (s.full || s.holds (hash.digest data))
  | _ => false

/-! ## Where false comes from -/

section Refusals

variable {hash : CryptoHash d} {fresh : Digest d} {fuel : Nat} {s : SetState d} {k : Digest d}

theorem insert_of_full (h : s.full = true) :
    SetState.insert hash fresh fuel k s = ⟨.ok false, s, []⟩ := by
  have hsize : SetState.getSize s = ⟨.ok s.trie.size, s, []⟩ := rfl
  rw [SetState.full] at h
  unfold SetState.insert
  rw [Prog.bind_of_ok (Prog.get_apply s), Prog.bind_of_ok hsize, if_pos h]
  rfl

theorem insert_of_room (h : s.full = false) :
    SetState.insert hash fresh fuel k s
      = ((SetState.onTrie (KeyValueTrie.add hash fresh fuel k true) >>= fun added =>
          if added then do
            SetState.onBloom (KeyValueCountingBloomFilter.add k)
            pure true
          else pure false : SetM d Bool) s) := by
  have hsize : SetState.getSize s = ⟨.ok s.trie.size, s, []⟩ := rfl
  have hroom : ¬(s.hardMaximum && decide (s.maxSize ≤ s.trie.size)) = true := by
    rw [SetState.full] at h
    rw [h]
    exact Bool.false_ne_true
  conv_lhs => unfold SetState.insert
  rw [Prog.bind_of_ok (Prog.get_apply s), Prog.bind_of_ok hsize, if_neg hroom]
  rfl

theorem insert_of_present (hroom : s.full = false) {t : TrieState d} {l : List (Digest d × Digest d)}
    (h : KeyValueTrie.add hash fresh fuel k true s.trie = ⟨.ok false, t, l⟩) :
    SetState.insert hash fresh fuel k s = ⟨.ok false, { s with trie := t }, l⟩ := by
  have htrie : SetState.onTrie (KeyValueTrie.add hash fresh fuel k true) s = _ := Prog.zoom_of_eq h
  rw [insert_of_room hroom, Prog.bind_of_ok htrie]
  simp [Run.after]

/-- **False of `insert`**: from the test of the maximum, or from the trie. -/
theorem insert_refuses (h : (SetState.insert hash fresh fuel k s).outcome = .ok false) :
    s.full = true ∨ (s.full = false ∧
      ∃ t l, KeyValueTrie.add hash fresh fuel k true s.trie = ⟨.ok false, t, l⟩) := by
  cases hfull : s.full with
  | true => exact Or.inl rfl
  | false =>
    rw [insert_of_room hfull] at h
    obtain ⟨added, s₁, l₁, _, htrie, hrest, -⟩ := Prog.bind_eq_ok (Run.ext h rfl rfl)
    rcases hadd : KeyValueTrie.add hash fresh fuel k true s.trie with ⟨o, t, l⟩
    rw [SetState.onTrie, Prog.zoom_of_eq hadd] at htrie
    cases htrie
    cases added with
    | false => exact Or.inr ⟨rfl, t, l₁, rfl⟩
    | true =>
      obtain ⟨_, _, _, _, _, hpure, _⟩ := Prog.bind_eq_ok hrest
      cases hpure

/-- **False of `erase`**: from the trie. -/
theorem erase_refuses (h : (SetState.erase hash fuel k s).outcome = .ok false) :
    ∃ t l, KeyValueTrie.remove hash fuel k true s.trie = ⟨.ok false, t, l⟩ ∧
      SetState.erase hash fuel k s = ⟨.ok false, { s with trie := t }, l⟩ := by
  obtain ⟨removed, s₁, l₁, l₂, htrie, hrest, hl⟩ := Prog.bind_eq_ok (Run.ext h rfl rfl)
  rcases hremove : KeyValueTrie.remove hash fuel k true s.trie with ⟨o, t, l⟩
  rw [SetState.onTrie, Prog.zoom_of_eq hremove] at htrie
  cases htrie
  cases removed with
  | false =>
    refine ⟨t, l₁, rfl, ?_⟩
    unfold SetState.erase
    rw [SetState.onTrie, Prog.bind_of_ok (Prog.zoom_of_eq hremove)]
    simp [Run.after]
  | true =>
    obtain ⟨_, _, _, _, _, h, _⟩ := Prog.bind_eq_ok hrest
    obtain ⟨s₂, _, _, _, _, h, _⟩ := Prog.bind_eq_ok h
    cases huse : s₂.indexInUse with
    | false =>
      rw [huse, if_neg Bool.false_ne_true] at h
      cases h
    | true =>
      rw [huse, if_pos rfl] at h
      obtain ⟨_, _, _, _, _, hpure, _⟩ := Prog.bind_eq_ok h
      cases hpure

/-- The set with data written to the index. -/
def SetState.withData (s : SetState d) (k : Digest d) (data : Bytes) : SetState d :=
  { s with index := ⟨s.index.table.insert k.bytes data, none⟩ }

theorem indexPut_ok (hst : s.index.failure = none) (data : Bytes) :
    SetState.onIndex (KeyValueIndex.put k.bytes data) s = ⟨.ok true, s.withData k data, []⟩ := by
  apply Prog.zoom_of_eq
  unfold KeyValueIndex.put
  rw [Prog.tryCatch_of_ok (Prog.bind_of_ok (Storage.put_ok _ _ hst) _)]
  rfl

theorem indexRemove_ok (hst : s.index.failure = none) :
    SetState.onIndex (KeyValueIndex.remove k.bytes) s
      = ⟨.ok true, { s with index := ⟨s.index.table.erase k.bytes, none⟩ }, []⟩ := by
  apply Prog.zoom_of_eq
  unfold KeyValueIndex.remove
  rw [Prog.tryCatch_of_ok (Prog.bind_of_ok (Storage.del_ok _ hst) _)]
  rfl

end Refusals

/-! ## The trie of a run -/

section Follow

variable {hash : CryptoHash d} (fresh : Digest d) {E : Digest d × Digest d → Prop}
  {K : Digest d → Prop} {s s' : TrieState d} {S : Finset (Digest d)} {fuel : Nat}
  (hd : d = 16 ∨ d = 20 ∨ d = 28) (hs : Separated hash.pair (Hashes E) K) (hfuel : 255 < fuel)

include hd hs

theorem Follows.contains_iff (h : Follows hash E K s s' S) (k : Digest d) :
    (KeyValueTrie.contains k s').outcome = .ok .LEAF_NODE ↔ k ∈ S := by
  obtain ⟨t, ht⟩ := h.rep
  rw [(contains_frames (d := d) (by omega) k s s' h.same).1]
  exact ht.contains_iff hash hs k

include hfuel

theorem Follows.returns (op : SetOp (Digest d)) (hk : ∀ k ∈ addedKeys [op], K k)
    (h : Follows hash E K s s' S) :
    Prog.Returns E (op.exec hash fresh fuel) s' fun r s₁' => r = (op.onSet S).1 ∧
      ∃ s₁, Follows hash E K s₁ s₁' (op.onSet S).2 := by
  intro hE
  rw [(exec_frames (d := d) (by omega) hash fresh fuel op s s' h.same).2.1] at hE
  obtain ⟨s₁, s₁', l, -, hrun, h₁⟩ := h.exec fresh hd hs hfuel op hk hE
  rw [hrun]
  exact ⟨_, rfl, rfl, s₁, h₁⟩

theorem Follows.add {k : Digest d} (hk : K k) (h : Follows hash E K s s' S) :
    Prog.Returns E (KeyValueTrie.add hash fresh fuel k true) s' fun b s₁' => b = decide (k ∉ S) ∧
      ∃ s₁, Follows hash E K s₁ s₁' (insert k S) := by
  have hop := h.returns fresh hd hs hfuel (.add k) fun k' hk' => by
    rw [List.mem_singleton.mp hk']
    exact hk
  refine (Prog.Returns.of_bind_pure hop).mono ?_
  rintro b s₁' ⟨hb, h₁⟩
  exact ⟨Option.some.inj hb, h₁⟩

theorem Follows.remove (k : Digest d) (h : Follows hash E K s s' S) :
    Prog.Returns E (KeyValueTrie.remove hash fuel k true) s' fun b s₁' => b = decide (k ∈ S) ∧
      ∃ s₁, Follows hash E K s₁ s₁' (S.erase k) := by
  have hop := h.returns k hd hs hfuel (.remove k) fun k' hk' => absurd hk' List.not_mem_nil
  refine (Prog.Returns.of_bind_pure hop).mono ?_
  rintro b s₁' ⟨hb, h₁⟩
  exact ⟨Option.some.inj hb, h₁⟩

omit hd hs hfuel in
theorem Follows.clear (h : Follows hash E K s s' S) :
    (KeyValueTrie.clear : TrieM d Unit) s' = ⟨.ok (), KeyValueTrie.empty d, []⟩ :=
  clear_empties h.same.working'

end Follow

/-! ## The set of a run -/

/-- The trie holds the keys `S`, and the index works. -/
structure SetFollows (hash : CryptoHash d) (E : Digest d × Digest d → Prop) (K : Digest d → Prop)
    (s : SetState d) (S : Finset (Digest d)) : Prop where
  trie : ∃ t, Follows hash E K t s.trie S
  index : s.index.failure = none

/-- It holds at most `n` keys. -/
def HoldsAtMost (hash : CryptoHash d) (E : Digest d × Digest d → Prop) (K : Digest d → Prop) (n : Nat)
    (s : SetState d) : Prop := ∃ S, SetFollows hash E K s S ∧ S.card ≤ n

section Step

variable {hash : CryptoHash d} (fresh : Digest d) {E : Digest d × Digest d → Prop}
  {K : Digest d → Prop} {n : Nat} {s : SetState d} {fuel : Nat}

theorem HoldsAtMost.mono {n' : Nat} (h : HoldsAtMost hash E K n s) (hn : n ≤ n') :
    HoldsAtMost hash E K n' s := by
  obtain ⟨S, hS, hcard⟩ := h
  exact ⟨S, hS, hcard.trans hn⟩

/-- Only the filter and the entries of the index have changed. -/
theorem HoldsAtMost.of_eq {s' : SetState d} (h : HoldsAtMost hash E K n s) (htrie : s'.trie = s.trie)
    (hindex : s'.index.failure = none) : HoldsAtMost hash E K n s' := by
  obtain ⟨S, hS, hcard⟩ := h
  exact ⟨S, ⟨htrie ▸ hS.trie, hindex⟩, hcard⟩

theorem HoldsAtMost.working (h : HoldsAtMost hash E K n s) : s.index.failure = none := by
  obtain ⟨S, hS, -⟩ := h
  exact hS.index

/-- A call of the filter that ends. -/
theorem HoldsAtMost.onBloom {α : Type} {m : BloomM d α} (hm : Prog.Ends m)
    (h : HoldsAtMost hash E K n s) :
    Prog.Leaves E (SetState.onBloom m) s (HoldsAtMost hash E K n) :=
  Prog.Leaves.zoom hm.leaves fun _ _ => h.of_eq rfl h.working

theorem HoldsAtMost.setInUse (h : HoldsAtMost hash E K n s) (b : Bool) :
    Prog.Leaves E (Prog.modify fun s => { s with indexInUse := b } : SetM d Unit) s
      (HoldsAtMost hash E K n) :=
  fun _ => ⟨Or.inl ⟨(), rfl⟩, h.of_eq rfl h.working⟩

variable (hd : d = 16 ∨ d = 20 ∨ d = 28) (hs : Separated hash.pair (Hashes E) K) (hfuel : 255 < fuel)

include hd hs hfuel

theorem insert_holds {k : Digest d} (hk : K k) (h : HoldsAtMost hash E K n s) :
    Prog.Leaves E (SetState.insert hash fresh fuel k) s (HoldsAtMost hash E K (n + 1)) := by
  cases hfull : s.full with
  | true =>
    intro _
    rw [insert_of_full hfull]
    exact ⟨Or.inl ⟨false, rfl⟩, h.mono (Nat.le_succ n)⟩
  | false =>
    obtain ⟨S, hS, hcard⟩ := h
    obtain ⟨t, ht⟩ := hS.trie
    rw [Prog.Leaves, insert_of_room hfull]
    apply Prog.Leaves.bind_of_returns (Prog.Returns.zoom (ht.add fresh hd hs hfuel hk))
    rintro added s₁ ⟨t', ⟨-, t₁, ht₁⟩, rfl⟩
    have h₁ : HoldsAtMost hash E K (n + 1) { s with trie := t' } :=
      ⟨insert k S, ⟨⟨t₁, ht₁⟩, hS.index⟩, (Finset.card_insert_le k S).trans (by omega)⟩
    cases added with
    | false => exact Prog.Leaves.pure h₁
    | true =>
      exact (h₁.onBloom (bloomAdd_ends k)).bind (fun _ h₂ => h₂) fun _ s₂ h₂ => Prog.Leaves.pure h₂

theorem insertData_holds {data : Bytes} (hk : K (hash.digest data)) (h : HoldsAtMost hash E K n s) :
    Prog.Leaves E (SetState.insertData hash fresh fuel data) s (HoldsAtMost hash E K (n + 1)) := by
  have hput := indexPut_ok (k := hash.digest data) h.working data
  have h₁ : HoldsAtMost hash E K n (s.withData (hash.digest data) data) := h.of_eq rfl rfl
  apply Prog.Leaves.bind_of_eq hput
  refine (insert_holds fresh hd hs hfuel hk h₁).bind (fun _ h₂ => h₂) fun success s₂ h₂ => ?_
  cases success with
  | true => exact (h₂.setInUse true).bind (fun _ h₃ => h₃) fun _ s₃ h₃ => Prog.Leaves.pure h₃
  | false =>
    exact Prog.Leaves.bind_of_eq (indexRemove_ok h₂.working) (Prog.Leaves.pure (h₂.of_eq rfl rfl))

theorem erase_holds (k : Digest d) (h : HoldsAtMost hash E K n s) :
    Prog.Leaves E (SetState.erase hash fuel k) s (HoldsAtMost hash E K n) := by
  obtain ⟨S, hS, hcard⟩ := h
  obtain ⟨t, ht⟩ := hS.trie
  apply Prog.Leaves.bind_of_returns (Prog.Returns.zoom (ht.remove hd hs hfuel k))
  rintro removed s₁ ⟨t', ⟨-, t₁, ht₁⟩, rfl⟩
  have h₁ : HoldsAtMost hash E K n { s with trie := t' } :=
    ⟨S.erase k, ⟨⟨t₁, ht₁⟩, hS.index⟩, (Finset.card_erase_le).trans hcard⟩
  cases removed with
  | false => exact Prog.Leaves.pure h₁
  | true =>
    refine (h₁.onBloom (bloomRemove_ends k)).bind (fun _ h₂ => h₂) fun _ s₂ h₂ =>
      Prog.Leaves.bind_of_eq (Prog.get_apply s₂) ?_
    cases s₂.indexInUse with
    | false => exact Prog.Leaves.pure h₂
    | true =>
      exact Prog.Leaves.bind_of_eq (indexRemove_ok h₂.working) (Prog.Leaves.pure (h₂.of_eq rfl rfl))

omit hd hs hfuel in
theorem clear_holds (h : HoldsAtMost hash E K n s) :
    Prog.Leaves E (SetState.clear : SetM d Unit) s (HoldsAtMost hash E K n) := by
  obtain ⟨S, hS, hcard⟩ := h
  obtain ⟨t, ht⟩ := hS.trie
  have htrie : SetState.onTrie KeyValueTrie.clear s = _ := Prog.zoom_of_eq ht.clear
  have h₁ : HoldsAtMost hash E K n { s with trie := KeyValueTrie.empty d } :=
    ⟨∅, ⟨⟨_, Follows.empty⟩, hS.index⟩, Nat.zero_le n⟩
  refine Prog.Leaves.bind_of_eq htrie ((h₁.onBloom bloomClear_ends).bind (fun _ h₂ => h₂) ?_)
  intro _ s₂ h₂
  have hindex : SetState.onIndex (KeyValueIndex.clear) s₂ = _ :=
    Prog.zoom_of_eq (Storage.clear_ok h₂.working)
  have h₃ : HoldsAtMost hash E K n { s₂ with index := Storage.empty } := h₂.of_eq rfl rfl
  exact Prog.Leaves.bind_of_eq hindex (h₃.setInUse false)

omit hd hs hfuel in
theorem reopen_holds (hn : n < 2 ^ 64) (h : HoldsAtMost hash E K n s) :
    Prog.Leaves E (SetState.reopen : SetM d Unit) s (HoldsAtMost hash E K n) := by
  refine (h.onBloom bloomDestruct_ends).bind (fun _ h₁ => h₁) fun _ s₁ h₁ => ?_
  obtain ⟨S, hS, hcard⟩ := h₁
  obtain ⟨t, ht⟩ := hS.trie
  obtain ⟨t', hreopen, ht'⟩ := ht.reopen (lt_of_le_of_lt hcard hn)
  obtain ⟨_, t₁, _, _, hdestruct, hconstruct, -⟩ := Prog.bind_eq_ok hreopen
  have h₂ : HoldsAtMost hash E K n { s₁ with trie := t' } := ⟨S, ⟨⟨t, ht'⟩, hS.index⟩, hcard⟩
  have htrie : SetState.onTrie KeyValueTrie.destruct s₁ = _ := Prog.zoom_of_eq hdestruct
  have htrie' : SetState.onTrie KeyValueTrie.construct { s₁ with trie := t₁ } = _ :=
    Prog.zoom_of_eq hconstruct
  exact Prog.Leaves.bind_of_eq htrie (Prog.Leaves.bind_of_eq htrie'
    ((h₂.onBloom bloomConstruct_ends).bind (fun _ h₃ => h₃) fun _ s₃ h₃ => h₃.setInUse false))

/-- **A call.**  An exception is caught. -/
theorem attempt_holds (call : SetCall d) (hk : ∀ k ∈ call.added hash, K k) (hn : n < 2 ^ 64)
    (h : HoldsAtMost hash E K n s) :
    Prog.Returns E (call.attempt hash fresh fuel) s fun _ s' => HoldsAtMost hash E K (n + 1) s' := by
  have hanswer : ∀ {m : SetM d Bool}, Prog.Leaves E m s (HoldsAtMost hash E K (n + 1)) →
      Prog.Leaves E (m >>= fun b => pure (some b)) s (HoldsAtMost hash E K (n + 1)) :=
    fun hm => hm.bind (fun _ h₁ => h₁) fun b s₁ h₁ => Prog.Leaves.pure h₁
  have hquiet : ∀ {m : SetM d Unit}, Prog.Leaves E m s (HoldsAtMost hash E K (n + 1)) →
      Prog.Leaves E (m >>= fun _ => pure none : SetM d (Option Bool)) s (HoldsAtMost hash E K (n + 1)) :=
    fun hm => hm.bind (fun _ h₁ => h₁) fun _ s₁ h₁ => Prog.Leaves.pure h₁
  have hgrow : ∀ s', HoldsAtMost hash E K n s' → HoldsAtMost hash E K (n + 1) s' :=
    fun s' h₁ => h₁.mono (Nat.le_succ n)
  apply Prog.Leaves.catch
  cases call with
  | eraseData data => exact hanswer ((erase_holds hd hs hfuel _ h).mono hgrow)
  | op o =>
    cases o with
    | insertData data => exact hanswer (insertData_holds fresh hd hs hfuel (hk _ List.mem_cons_self) h)
    | insert key => exact hanswer (insert_holds fresh hd hs hfuel (hk _ List.mem_cons_self) h)
    | erase key => exact hanswer ((erase_holds hd hs hfuel key h).mono hgrow)
    | clear => exact hquiet ((clear_holds h).mono hgrow)
    | reopen => exact hquiet ((reopen_holds hn h).mono hgrow)

/-- **A run.** -/
theorem runAttempts_holds (calls : List (SetCall d)) (hk : ∀ k ∈ calls.flatMap (SetCall.added hash), K k)
    (hn : n + calls.length ≤ 2 ^ 64) (h : HoldsAtMost hash E K n s) :
    Prog.Returns E (runAttempts hash fresh fuel calls) s fun _ s' =>
      HoldsAtMost hash E K (n + calls.length) s' := by
  induction calls generalizing s n with
  | nil => exact Prog.Returns.pure h
  | cons call calls ih =>
    rw [List.length_cons] at hn ⊢
    rw [List.flatMap_cons, List.forall_mem_append] at hk
    apply Prog.Returns.bind (attempt_holds fresh hd hs hfuel call hk.1 (by omega) h)
    intro b s₁ h₁
    apply Prog.Returns.bind (ih hk.2 (by omega) h₁)
    intro bs s₂ h₂
    exact Prog.Returns.pure (by rwa [← Nat.add_assoc, Nat.add_right_comm])

end Step

/-! ## A call that answers false -/

section Answers

variable {hash : CryptoHash d} (fresh : Digest d) {E : Digest d × Digest d → Prop}
  {K : Digest d → Prop} {s : SetState d} {S : Finset (Digest d)} {fuel : Nat}
  (hd : d = 16 ∨ d = 20 ∨ d = 28) (hs : Separated hash.pair (Hashes E) K)

include hd hs

theorem SetFollows.holds_iff (h : SetFollows hash E K s S) (k : Digest d) : s.holds k = true ↔ k ∈ S := by
  obtain ⟨t, ht⟩ := h.trie
  rw [← ht.contains_iff hd hs k, SetState.holds]
  constructor
  · intro hm
    split at hm
    · assumption
    · cases hm
  · intro hm
    rw [hm]

/-- The trie holds the same keys as before. -/
theorem SetFollows.unchanged (h : SetFollows hash E K s S) {s' : SetState d}
    (h' : SetFollows hash E K s' S) (hbf : s'.bf = s.bf)
    (hdata : ∀ k : Digest d, s'.index.table.lookup k.bytes = s.index.table.lookup k.bytes) :
    Unchanged s s' where
  keys k := by
    rw [Bool.eq_iff_iff, h.holds_iff hd hs k, h'.holds_iff hd hs k]
  size := by
    obtain ⟨t, ht⟩ := h.trie
    obtain ⟨t', ht'⟩ := h'.trie
    show Outcome.ok s'.trie.size = Outcome.ok s.trie.size
    rw [ht.size_eq, ht'.size_eq]
  bits := by rw [hbf]
  data := hdata

variable (hfuel : 255 < fuel)

include hfuel

/-- **Insertion refused**: the set is full, or has the key; the trie has the keys it had. -/
theorem insert_refused_iff {k : Digest d} (hk : K k) (h : SetFollows hash E K s S)
    (hE : ∀ x ∈ (SetState.insert hash fresh fuel k s).events, E x) :
    ((SetState.insert hash fresh fuel k s).outcome = .ok false ↔ s.full = true ∨ s.holds k = true) ∧
    ((SetState.insert hash fresh fuel k s).outcome = .ok false → ∃ t l,
      SetState.insert hash fresh fuel k s = ⟨.ok false, { s with trie := t }, l⟩ ∧
        ∃ t₀, Follows hash E K t₀ t S) := by
  obtain ⟨t₀, ht₀⟩ := h.trie
  cases hfull : s.full with
  | true =>
    rw [insert_of_full hfull]
    exact ⟨iff_of_true rfl (Or.inl rfl), fun _ => ⟨s.trie, [], rfl, t₀, ht₀⟩⟩
  | false =>
    -- what the trie answers
    have hsub : (KeyValueTrie.add hash fresh fuel k true s.trie).events
        ⊆ (SetState.insert hash fresh fuel k s).events := by
      rw [insert_of_room hfull, ← Prog.zoom_events]
      exact Prog.bind_head_events _ _ s
    obtain ⟨b, ho, hb, t₁, ht₁⟩ := ht₀.add fresh hd hs hfuel hk fun x hx => hE x (hsub hx)
    rcases hadd : KeyValueTrie.add hash fresh fuel k true s.trie with ⟨o, t, l⟩
    rw [hadd] at ho ht₁
    obtain rfl : o = .ok b := ho
    by_cases hS : k ∈ S
    · obtain rfl : b = false := hb.trans (decide_eq_false (not_not.mpr hS))
      rw [Finset.insert_eq_of_mem hS] at ht₁
      have hrun := insert_of_present hfull hadd
      rw [hrun]
      exact ⟨iff_of_true rfl (Or.inr ((h.holds_iff hd hs k).mpr hS)), fun _ => ⟨t, l, rfl, t₁, ht₁⟩⟩
    · have hnot : (SetState.insert hash fresh fuel k s).outcome ≠ .ok false := by
        intro hrefused
        rcases insert_refuses hrefused with hf | ⟨-, t', l', hadd'⟩
        · exact Bool.false_ne_true (hfull.symm.trans hf)
        · rw [hadd] at hadd'
          cases hadd'
          exact absurd hb.symm (by simp [hS])
      refine ⟨iff_of_false hnot ?_, fun hrefused => absurd hrefused hnot⟩
      rw [h.holds_iff hd hs k]
      rintro (hf | hmem)
      · cases hf
      · exact hS hmem

/-- A refused insertion of data takes the entry out. -/
theorem insertData_refused {data : Bytes} (hk : K (hash.digest data)) (h : SetFollows hash E K s S)
    (hE : ∀ x ∈ (SetState.insertData hash fresh fuel data s).events, E x) :
    ((SetState.insertData hash fresh fuel data s).outcome = .ok false ↔
      s.full = true ∨ s.holds (hash.digest data) = true) ∧
    ((SetState.insertData hash fresh fuel data s).outcome = .ok false → ∃ t,
      (SetState.insertData hash fresh fuel data s).state = { s with
        trie := t
        index := ⟨(s.index.table.insert (hash.digest data).bytes data).erase (hash.digest data).bytes,
          none⟩ } ∧
        ∃ t₀, Follows hash E K t₀ t S) := by
  have hput := indexPut_ok (k := hash.digest data) h.index data
  have h₁ : SetFollows hash E K (s.withData (hash.digest data) data) S := ⟨h.trie, rfl⟩
  -- what is done with the answer of `insert`
  obtain ⟨rest, hrest⟩ : ∃ rest : Bool → SetM d Bool, rest = (fun success =>
      if success then do
        Prog.modify fun s => { s with indexInUse := true }
        pure true
      else do
        let _ ← SetState.onIndex (KeyValueIndex.remove (hash.digest data).bytes)
        pure false) := ⟨_, rfl⟩
  have hstart : SetState.insertData hash fresh fuel data s
      = (SetState.insert hash fresh fuel (hash.digest data) >>= rest)
          (s.withData (hash.digest data) data) := by
    unfold SetState.insertData
    rw [Prog.bind_of_ok hput, hrest]
    rfl
  have hsub := Prog.bind_head_events (SetState.insert hash fresh fuel (hash.digest data)) rest
    (s.withData (hash.digest data) data)
  rw [← hstart] at hsub
  obtain ⟨hiff, hstate⟩ := insert_refused_iff fresh hd hs hfuel hk h₁ fun x hx => hE x (hsub hx)
  -- the maximum and the keys of the trie are not a matter of the index
  have hiff' : (SetState.insert hash fresh fuel (hash.digest data)
      (s.withData (hash.digest data) data)).outcome = .ok false ↔
        s.full = true ∨ s.holds (hash.digest data) = true := hiff
  by_cases hrefused : (SetState.insert hash fresh fuel (hash.digest data)
      (s.withData (hash.digest data) data)).outcome = .ok false
  · obtain ⟨t, l, hrun, ht⟩ := hstate hrefused
    have hremove := indexRemove_ok (k := hash.digest data)
      (s := { s.withData (hash.digest data) data with trie := t }) rfl
    have hrefusal : rest false = (do
        let _ ← SetState.onIndex (KeyValueIndex.remove (hash.digest data).bytes)
        pure false) := by
      rw [hrest]
      rfl
    rw [hstart, Prog.bind_of_ok hrun, hrefusal, Prog.bind_of_ok hremove]
    exact ⟨iff_of_true rfl (hiff'.mp hrefused), fun _ => ⟨t, rfl, ht⟩⟩
  · have hnot : (SetState.insertData hash fresh fuel data s).outcome ≠ .ok false := by
      intro hfalse
      rw [hstart] at hfalse
      obtain ⟨success, s₁, _, _, hrun, hlast, -⟩ := Prog.bind_eq_ok (Run.ext hfalse rfl rfl)
      rw [hrest] at hlast
      cases success with
      | false => exact hrefused (by rw [hrun])
      | true =>
        obtain ⟨_, _, _, _, _, hpure, _⟩ := Prog.bind_eq_ok hlast
        cases hpure
    exact ⟨iff_of_false hnot fun hp => hrefused (hiff'.mpr hp), fun hfalse => absurd hfalse hnot⟩

/-- **Data that is refused** takes the entry with it, if there was one. -/
theorem insertData_clean_iff {data : Bytes} (hk : K (hash.digest data)) (h : SetFollows hash E K s S)
    (hE : ∀ x ∈ (SetState.insertData hash fresh fuel data s).events, E x) :
    ((SetState.insertData hash fresh fuel data s).outcome = .ok false →
      Unchanged s (SetState.insertData hash fresh fuel data s).state) ↔
    s.overwrites hash (.op (.insertData data)) = false := by
  obtain ⟨hiff, hstate⟩ := insertData_refused fresh hd hs hfuel hk h hE
  show _ ↔ ((s.index.table.lookup (hash.digest data).bytes).isSome &&
    (s.full || s.holds (hash.digest data))) = false
  by_cases hrefused : (SetState.insertData hash fresh fuel data s).outcome = .ok false
  · have hor : (s.full || s.holds (hash.digest data)) = true := by
      rw [Bool.or_eq_true]
      exact hiff.mp hrefused
    obtain ⟨t, hrun, t₀, ht₀⟩ := hstate hrefused
    rw [hor, Bool.and_true, Option.isSome_eq_false_iff, Option.isNone_iff_eq_none, hrun]
    constructor
    · intro hclean
      have hdata := (hclean hrefused).data (hash.digest data)
      rw [← hdata]
      exact Finmap.lookup_erase _ _
    · intro hnone _
      refine h.unchanged hd hs ⟨⟨t₀, ht₀⟩, rfl⟩ rfl fun k => ?_
      show ((s.index.table.insert (hash.digest data).bytes data).erase
        (hash.digest data).bytes).lookup k.bytes = _
      by_cases hkey : k.bytes = (hash.digest data).bytes
      · rw [hkey, Finmap.lookup_erase, hnone]
      · rw [Finmap.lookup_erase_ne hkey, Finmap.lookup_insert_of_ne _ hkey]
  · have hor : (s.full || s.holds (hash.digest data)) = false := by
      rw [← Bool.not_eq_true, Bool.or_eq_true]
      exact fun hp => hrefused (hiff.mpr hp)
    rw [hor, Bool.and_false]
    exact iff_of_true (fun hfalse => absurd hfalse hrefused) rfl

omit fresh in
/-- A key that is not there: the trie has the keys it had. -/
theorem erase_clean (k : Digest d) (h : SetFollows hash E K s S)
    (hE : ∀ x ∈ (SetState.erase hash fuel k s).events, E x)
    (hrefused : (SetState.erase hash fuel k s).outcome = .ok false) :
    Unchanged s (SetState.erase hash fuel k s).state := by
  obtain ⟨t, l, hremove, hrun⟩ := erase_refuses hrefused
  obtain ⟨t₀, ht₀⟩ := h.trie
  rw [hrun] at hE ⊢
  have htrie := ht₀.remove hd hs hfuel k
  rw [Prog.Returns, hremove] at htrie
  obtain ⟨b, ho, hb, t₁, ht₁⟩ := htrie hE
  obtain rfl : false = b := Outcome.ok.inj ho
  rw [Finset.erase_eq_of_notMem (of_decide_eq_false hb.symm)] at ht₁
  exact h.unchanged hd hs ⟨⟨t₁, ht₁⟩, h.index⟩ rfl fun _ => rfl

/-- **One call.** -/
theorem failsClean_iff (call : SetCall d) (hk : ∀ k ∈ call.added hash, K k) (h : SetFollows hash E K s S)
    (hE : ∀ x ∈ (call.exec hash fresh fuel s).events, E x) :
    FailsClean hash fresh fuel call s ↔ s.overwrites hash call = false := by
  -- an answer is false if the method's is
  have hanswer : ∀ {m : SetM d Bool},
      (((m >>= fun b => pure (some b)) s).outcome = .ok (some false) →
        Unchanged s ((m >>= fun b => pure (some b)) s).state) ↔
      ((m s).outcome = .ok false → Unchanged s (m s).state) := by
    intro m
    rw [Prog.bind_pure_state, Prog.bind_pure_ok_iff]
    simp
  have hquiet : ∀ {m : SetM d Unit}, ((m >>= fun _ => pure none : SetM d (Option Bool)) s).outcome
      ≠ .ok (some false) := by
    intro m
    rw [ne_eq, Prog.bind_pure_ok_iff]
    simp
  cases call with
  | eraseData data =>
    have hE' := hE
    unfold SetCall.exec at hE'
    rw [Prog.bind_pure_events] at hE'
    exact iff_of_true (hanswer.mpr (erase_clean hd hs hfuel _ h hE')) rfl
  | op o =>
    have hE' := hE
    unfold SetCall.exec at hE'
    cases o with
    | insertData data =>
      unfold DataOp.exec at hE'
      rw [Prog.bind_pure_events] at hE'
      exact hanswer.trans (insertData_clean_iff fresh hd hs hfuel (hk _ List.mem_cons_self) h hE')
    | insert key =>
      unfold DataOp.exec at hE'
      rw [Prog.bind_pure_events] at hE'
      obtain ⟨-, hstate⟩ := insert_refused_iff fresh hd hs hfuel (hk _ List.mem_cons_self) h hE'
      refine iff_of_true (hanswer.mpr fun hrefused => ?_) rfl
      obtain ⟨t, l, hrun, t₀, ht₀⟩ := hstate hrefused
      rw [hrun]
      exact h.unchanged hd hs ⟨⟨t₀, ht₀⟩, h.index⟩ rfl fun _ => rfl
    | erase key =>
      unfold DataOp.exec at hE'
      rw [Prog.bind_pure_events] at hE'
      exact iff_of_true (hanswer.mpr (erase_clean hd hs hfuel _ h hE')) rfl
    | clear => exact iff_of_true (fun hfalse => absurd hfalse hquiet) rfl
    | reopen => exact iff_of_true (fun hfalse => absurd hfalse hquiet) rfl

end Answers

/-- **A call that answers false changes nothing just when it has not written over an entry.**  In any run
on a new set, exceptions caught; data whose digest the set has is refused. -/
theorem failed_call_clean_iff (hash : CryptoHash d) (fresh : Digest d) {fuel : Nat}
    (hd : d = 16 ∨ d = 20 ∨ d = 28) (hfuel : 255 < fuel) (filterSize functionCount maxElements : Nat)
    (hardMaximum : Bool) (calls : List (SetCall d)) (hcalls : calls.length ≤ 2 ^ 64) (call : SetCall d)
    (hc : CollisionFree hash (runAttempts hash fresh fuel (calls ++ [call])
      (SetState.create d filterSize functionCount hardMaximum maxElements)).events)
    (hk : KeysFresh hash ((calls ++ [call]).flatMap (SetCall.added hash))
      (runAttempts hash fresh fuel (calls ++ [call])
        (SetState.create d filterSize functionCount hardMaximum maxElements)).events) :
    let s := (runAttempts hash fresh fuel calls
      (SetState.create d filterSize functionCount hardMaximum maxElements)).state
    (FailsClean hash fresh fuel call s ↔ s.overwrites hash call = false) ∧
      ∀ data, call = .op (.insertData data) → s.holds (hash.digest data) = true →
        (call.exec hash fresh fuel s).outcome = .ok (some false) := by
  have hs := separated_of_collisionFree hc hk
  have hnew : HoldsAtMost hash (· ∈ (runAttempts hash fresh fuel (calls ++ [call])
      (SetState.create d filterSize functionCount hardMaximum maxElements)).events)
      (· ∈ (calls ++ [call]).flatMap (SetCall.added hash)) 0
      (SetState.create d filterSize functionCount hardMaximum maxElements) :=
    ⟨∅, ⟨⟨_, Follows.empty⟩, rfl⟩, Nat.le_refl 0⟩
  have hkeys : ∀ k ∈ calls.flatMap (SetCall.added hash),
      k ∈ (calls ++ [call]).flatMap (SetCall.added hash) := fun k hmem => by
    rw [List.flatMap_append]
    exact List.mem_append_left _ hmem
  have hlast : ∀ k ∈ call.added hash, k ∈ (calls ++ [call]).flatMap (SetCall.added hash) :=
    fun k hmem => by
      rw [List.flatMap_append]
      exact List.mem_append_right _ (by simpa using hmem)
  obtain ⟨answers, ho, S, hS, -⟩ := runAttempts_holds fresh hd hs hfuel calls hkeys (by omega) hnew
    fun x hx => Prog.each_events_subset calls [call] _ hx
  rcases hrun : runAttempts hash fresh fuel calls
    (SetState.create d filterSize functionCount hardMaximum maxElements) with ⟨o, s, l⟩
  rw [hrun] at ho hS
  obtain rfl : o = .ok answers := ho
  have hE : ∀ x ∈ (call.exec hash fresh fuel s).events, x ∈ (runAttempts hash fresh fuel
      (calls ++ [call]) (SetState.create d filterSize functionCount hardMaximum maxElements)).events :=
    fun x hx => Prog.next_events_subset hrun call (Prog.tryCatch_events _ _ s hx)
  refine ⟨failsClean_iff fresh hd hs hfuel call hlast hS hE, ?_⟩
  rintro data rfl hhas
  have hE' : ∀ x ∈ ((SetCall.op (.insertData data)).exec hash fresh fuel s).events, _ := hE
  unfold SetCall.exec DataOp.exec at hE' ⊢
  rw [Prog.bind_pure_events] at hE'
  rw [Prog.bind_pure_ok_iff]
  have hrefused := (insertData_refused fresh hd hs hfuel (hlast _ List.mem_cons_self) hS hE').1
  exact ⟨false, hrefused.mpr (Or.inr hhas), rfl⟩

theorem failed_call_clean_sample :
    let s := (runAttempts (mixHash 16) (byteKey 16 0) 256 [.op (.insertData [1]), .op .reopen]
      (SetState.create 16 8 1 true 1)).state
    FailsClean (mixHash 16) (byteKey 16 0) 256 (.op (.insertData [2])) s ↔
      s.overwrites (mixHash 16) (.op (.insertData [2])) = false :=
  (failed_call_clean_iff (mixHash 16) (byteKey 16 0) (Or.inl rfl) (by decide) 8 1 1 true
    [.op (.insertData [1]), .op .reopen] (by decide) (.op (.insertData [2])) (by decide +kernel)
    (by decide +kernel)).1

/-- The data goes in a second time: false, and it is gone. -/
theorem refused_data_lost :
    let s := (runAttempts (mixHash 16) (byteKey 16 0) 256 [.op (.insertData [1])]
      (SetState.create 16 8 1 false 4)).state
    let r := (SetCall.op (.insertData [1])).exec (mixHash 16) (byteKey 16 0) 256 s
    (CollisionFree (mixHash 16) (runAttempts (mixHash 16) (byteKey 16 0) 256
        [.op (.insertData [1]), .op (.insertData [1])] (SetState.create 16 8 1 false 4)).events ∧
      KeysFresh (mixHash 16) [(mixHash 16).digest [1]] (runAttempts (mixHash 16) (byteKey 16 0) 256
        [.op (.insertData [1]), .op (.insertData [1])] (SetState.create 16 8 1 false 4)).events) ∧
      s.index.table.lookup ((mixHash 16).digest [1]).bytes = some [1] ∧ r.outcome = .ok (some false) ∧
      r.state.index.table.lookup ((mixHash 16).digest [1]).bytes = none ∧
      ¬FailsClean (mixHash 16) (byteKey 16 0) 256 (.op (.insertData [1])) s := by
  intro s r
  have hbefore : s.index.table.lookup ((mixHash 16).digest [1]).bytes = some [1] := by decide +kernel
  have hfalse : r.outcome = .ok (some false) := by decide +kernel
  have hafter : r.state.index.table.lookup ((mixHash 16).digest [1]).bytes = none := by decide +kernel
  refine ⟨⟨by decide +kernel, by decide +kernel⟩, hbefore, hfalse, hafter, fun hclean => ?_⟩
  have hdata := (hclean hfalse).data ((mixHash 16).digest [1])
  rw [hbefore] at hdata
  exact absurd (hafter.symm.trans hdata) nofun

end SetSync
