import SetSync.BloomReopen
import SetSync.FailedCalls

/-!
# A set that is closed and opened again

Trie and filter of a set come back from two storages in different ways.  The trie reads its size, and
takes its nodes from the storage as before.  The filter loses its bits and sets those of the positions
with a list: these may be more bits than before, never one less for a key of the set.  What it has counted
stays, over all lives of the set.

    filter     lists and bits cover the keys → they do after `reopen`     (destruct_covers, construct_covers)
    one call   SetLasting s S, takes → the answer, SetLasting s' of its set               (setCall_lasting)
    a run      with any number of reopenings: answers, size and `find` are those of a finite set
                                                                              (set_survives_reopening)
-/

namespace SetSync

open Program BitTrie CountingFilter KeyValueCountingBloomFilter

variable {d : Nat}

/-! ## The filter -/

section Filter

variable {q : FilterParams} {f f' f'' : KeyValueCountingBloomFilter} {S : Finset (Digest d)}

/-- What the loop of the constructor does: bits come, the storage stays. -/
structure Loaded (f f' : KeyValueCountingBloomFilter) : Prop where
  storage : f'.storage = f.storage
  params : f'.params = f.params
  length : f'.bitArray.length = f.bitArray.length
  bits : ∀ p, bitTest f.bitArray p = true → bitTest f'.bitArray p = true

theorem Loaded.refl (f : KeyValueCountingBloomFilter) : Loaded f f := ⟨rfl, rfl, rfl, fun _ => id⟩

theorem Loaded.trans (h : Loaded f f') (h' : Loaded f' f'') : Loaded f f'' where
  storage := h'.storage.trans h.storage
  params := h'.params.trans h.params
  length := h'.length.trans h.length
  bits p hp := h'.bits p (h.bits p hp)

theorem Loaded.size_eq (h : Loaded f f') : f'.filterSize = f.filterSize :=
  congrArg FilterParams.filterSize h.params

/-- A bit of the byte `i` is set, whatever the position is that it belongs to. -/
theorem modify_bit_mask (a : Bytes) (i h : Nat) :
    a.modify i (· ||| FSBloomFilter.bit_mask.getD (h % 8) 0) = bitSet a (8 * i + h % 8) := by
  have hslot : bitSlot (8 * i + h % 8) = i := by
    unfold bitSlot
    omega
  have hmask : bitMask (8 * i + h % 8) = bitMask h := by
    unfold bitMask
    rw [Nat.mul_add_mod, Nat.mod_mod]
  rw [bitSet, hslot, hmask, bit_mask_mod]

theorem loadKey_loads (key : Bytes) (hst : f.storage.failure = none) (hpos : 0 < f.filterSize)
    (hfit : f.filterSize ≤ 8 * f.bitArray.length) :
    ∃ f', (loadKey key : BloomM d Unit) f = ⟨.ok (), f', []⟩ ∧ Loaded f f' := by
  unfold loadKey
  by_cases hlen : key.length = 8
  · -- the byte is that of the position modulo the size, the bit that of the position itself
    rw [if_pos hlen]
    generalize readUint64 key 0 = h
    have hslot : h % f.filterSize / 8 < f.bitArray.length := by
      have := Nat.mod_lt h hpos
      omega
    have hload : (onFilter (Prog.modify fun g => { g with
          bitArray := g.bitArray.modify (g.computeIndices h).1
            (· ||| FSBloomFilter.bit_mask.getD (g.computeIndices h).2 0) }) : BloomM d Unit) f
        = ⟨.ok (), { f with bitArray := bitSet f.bitArray (8 * (h % f.filterSize / 8) + h % 8) }, []⟩ := by
      rw [← modify_bit_mask]
      rfl
    refine ⟨_, hload, rfl, rfl, length_bitSet _ _, fun p hp => ?_⟩
    show bitTest (bitSet f.bitArray _) p = true
    rw [bitTest_bitSet _ _ _ (by omega), hp, Bool.true_or]
  · rw [if_neg hlen]
    by_cases hname : key.length = sizeKey.length
    · rw [if_pos hname, Prog.bind_of_ok (onStorage_get hst _)]
      cases f.storage.table.lookup sizeKey with
      | none => exact ⟨f, rfl, Loaded.refl f⟩
      | some value =>
        by_cases hvalue : value.length = 8
        · simp only [if_pos hvalue]
          generalize readUint64 value 0 = n
          exact ⟨{ f with itemCount := n }, rfl, rfl, rfl, rfl, fun _ => id⟩
        · simp only [if_neg hvalue]
          exact ⟨f, rfl, Loaded.refl f⟩
    · rw [if_neg hname]
      exact ⟨f, rfl, Loaded.refl f⟩

/-- The loop sets the bits of the positions among the keys. -/
theorem loadKeys_loads (keys : List Bytes) (hst : f.storage.failure = none) (hpos : 0 < f.filterSize)
    (hfit : f.filterSize ≤ 8 * f.bitArray.length) (hlt : f.filterSize < 2 ^ 64) :
    ∃ f', (loadKeys keys : BloomM d Unit) f = ⟨.ok (), f', []⟩ ∧ Loaded f f' ∧
      ∀ p, p < f.filterSize → uint64Bytes p ∈ keys → bitTest f'.bitArray p = true := by
  induction keys generalizing f with
  | nil => exact ⟨f, rfl, Loaded.refl f, fun p _ hmem => absurd hmem List.not_mem_nil⟩
  | cons key keys ih =>
    obtain ⟨f₁, hkey, h₁⟩ := loadKey_loads (d := d) key hst hpos hfit
    obtain ⟨f₂, hkeys, h₂, hset⟩ := ih (f := f₁) (by rw [h₁.storage]; exact hst)
      (by rw [h₁.size_eq]; exact hpos) (by rw [h₁.size_eq, h₁.length]; exact hfit)
      (by rw [h₁.size_eq]; exact hlt)
    refine ⟨f₂, ?_, h₁.trans h₂, fun p hp hmem => ?_⟩
    · unfold loadKeys
      rw [Prog.bind_of_ok hkey, hkeys]
      rfl
    · rcases List.mem_cons.mp hmem with rfl | hrest
      · rw [loadKey_position hp hlt] at hkey
        cases hkey
        apply h₂.bits
        rw [bitTest_bitSet _ _ _ (by omega), beq_self_eq_true, Bool.or_true]
      · exact hset p (by rw [h₁.size_eq]; exact hp) hrest

/-- The name of the number of elements is no position. -/
theorem sizeKey_ne_position (p : Nat) : uint64Bytes p ≠ sizeKey := by
  intro he
  have hlen := congrArg List.length he
  rw [length_uint64Bytes] at hlen
  cases hlen

theorem destruct_covers (h : BloomCovers q f S) :
    ∃ f', (destruct : BloomM d Unit) f = ⟨.ok (), f', []⟩ ∧ BloomCovers q f' S := by
  by_cases hcount : f.itemCount > 0
  · refine ⟨{ f with storage := ⟨f.storage.table.insert sizeKey (uint64Bytes f.itemCount), none⟩ }, ?_,
      rfl, h.params, h.length, fun p => ?_, h.covers.bits⟩
    · unfold destruct
      rw [Prog.bind_of_ok (Prog.get_apply f), if_pos hcount, onBloomStorage_put h.failure]
      rfl
    · have hlist : Storage.listOf ⟨f.storage.table.insert sizeKey (uint64Bytes f.itemCount), none⟩ p
          = f.storage.listOf p := by
        unfold Storage.listOf
        rw [Finmap.lookup_insert_of_ne _ (sizeKey_ne_position p)]
      have hcell := h.covers.cells p
      show _ ≤ if p < f.filterSize then (Storage.listOf _ p).length else 0
      rw [hlist]
      exact hcell
  · refine ⟨f, ?_, h⟩
    unfold destruct
    rw [Prog.bind_of_ok (Prog.get_apply f), if_neg hcount]
    rfl

/-- **The bits of the keys come back**, and perhaps others. -/
theorem construct_covers (hd : 0 < d) (hq : q.Fits) (h : BloomCovers q f S) :
    ∃ f', (construct : BloomM d Unit) f = ⟨.ok (), f', []⟩ ∧ BloomCovers q f' S := by
  have hsize : f.filterSize = q.filterSize := congrArg FilterParams.filterSize h.params
  let f₀ : KeyValueCountingBloomFilter :=
    ⟨FSBloomFilter.init f.filterSize f.functionCount f.hardMaximum f.maxElements, f.storage⟩
  have hlength : f₀.bitArray.length = FSBloomFilter.mmapLength q.filterSize := by
    rw [← hsize]
    exact List.length_replicate
  have hfit : f₀.filterSize ≤ 8 * f₀.bitArray.length := by
    rw [hlength]
    exact (le_of_eq hsize).trans hq.le_bits
  obtain ⟨f', hload, hl, hset⟩ := loadKeys_loads (d := d) (f := f₀) f.storage.table.iterator h.failure
    (hsize ▸ hq.1) hfit (hsize ▸ hq.lt)
  refine ⟨f', ?_, ?_, ?_, hl.length.trans hlength, fun p => ?_, fun p hp => ?_⟩
  · unfold construct
    rw [Prog.bind_of_ok (Prog.modify_apply _ _), Prog.bind_of_ok (Prog.get_apply _)]
    simp only [Run.after_nil]
    exact hload
  · rw [hl.storage]
    exact h.failure
  · exact hl.params.trans h.params
  · have hcell := h.covers.cells p
    show _ ≤ if p < f'.filterSize then (f'.storage.listOf p).length else 0
    rw [hl.size_eq, hl.storage]
    exact hcell
  · -- a position that is hit has a list
    have hcell : d * load q.positions S p ≤ if p < f.filterSize then (f.storage.listOf p).length else 0 :=
      h.covers.cells p
    have hhit : 0 < d * load q.positions S p := Nat.mul_pos hd (Nat.pos_of_ne_zero hp)
    by_cases hlt : p < f.filterSize
    · rw [if_pos hlt] at hcell
      have hlist : f.storage.listOf p ≠ [] := fun he => by
        rw [he, List.length_nil] at hcell
        omega
      exact hset p hlt ((Table.mem_iterator _ _).mpr (mem_of_listOf_ne_nil hlist))
    · rw [if_neg hlt] at hcell
      omega

end Filter

/-! ## One call -/

namespace SetCall

/-- What a call does to a finite set of keys; `none` for one that closes and opens. -/
def setOp (hash : CryptoHash d) : SetCall d → Option (SetOp (Digest d))
  | op (.insertData data) => some (.add (hash.digest data))
  | op (.insert key) => some (.add key)
  | op (.erase key) => some (.remove key)
  | op .clear => some .clear
  | op .reopen => none
  | eraseData data => some (.remove (hash.digest data))

/-- The call on a finite set. -/
def within (hash : CryptoHash d) (full : Finset (Digest d) → Bool) (S : Finset (Digest d))
    (call : SetCall d) : Option Bool × Finset (Digest d) :=
  match call.setOp hash with
  | some o => o.within full S
  | none => (none, S)

/-- `SetState.takes`, for an insertion of data too. -/
def taken (hash : CryptoHash d) (call : SetCall d) (s : SetState d) : Bool :=
  match call.setOp hash with
  | some o => s.takes o
  | none => true

end SetCall

def runSetCalls (hash : CryptoHash d) (fresh : Digest d) (fuel : Nat) (calls : List (SetCall d)) :
    SetM d (List (Option Bool)) :=
  Prog.each (SetCall.exec hash fresh fuel) calls

/-- The set holds the keys `S`, in whichever of its lives. -/
structure SetLasting (hash : CryptoHash d) (E : Digest d × Digest d → Prop) (K : Digest d → Prop)
    (q : FilterParams) (s : SetState d) (S : Finset (Digest d)) : Prop where
  keys : SetFollows hash E K s S
  bf : BloomCovers q s.bf S
  maxSize : s.maxSize = q.maxElements
  hardMaximum : s.hardMaximum = q.hardMaximum

section Step

variable {hash : CryptoHash d} (fresh : Digest d) {E : Digest d × Digest d → Prop}
  {K : Digest d → Prop} {q : FilterParams} {s : SetState d} {S : Finset (Digest d)} {fuel : Nat}

theorem SetLasting.size_eq (h : SetLasting hash E K q s S) : s.trie.size = S.card := by
  obtain ⟨t, ht⟩ := h.keys.trie
  exact ht.size_eq

theorem SetLasting.full_eq (h : SetLasting hash E K q s S) : s.full = q.full S := by
  rw [SetState.full, FilterParams.full, h.hardMaximum, h.maxSize, h.size_eq]

/-- Entries of the index and `indexInUse` are no keys. -/
theorem SetLasting.withIndex (h : SetLasting hash E K q s S) {st : Storage} (hst : st.failure = none)
    (b : Bool) : SetLasting hash E K q { s with index := st, indexInUse := b } S :=
  ⟨⟨h.keys.trie, hst⟩, h.bf, h.maxSize, h.hardMaximum⟩

theorem SetLasting.setInUse (h : SetLasting hash E K q s S) (b : Bool) :
    Prog.Returns E (Prog.modify fun s => { s with indexInUse := b } : SetM d Unit) s fun _ s' =>
      SetLasting hash E K q s' S :=
  Prog.Returns.of_eq (Prog.modify_apply _ _) (h.withIndex h.keys.index b)

theorem SetLasting.removeData (k : Digest d) (h : SetLasting hash E K q s S) :
    Prog.Returns E (SetState.onIndex (KeyValueIndex.remove k.bytes)) s fun _ s' =>
      SetLasting hash E K q s' S :=
  Prog.Returns.of_eq (indexRemove_ok h.keys.index) (h.withIndex rfl s.indexInUse)

variable (hd : d = 16 ∨ d = 20 ∨ d = 28) (hq : q.Fits) (hs : Separated hash.pair (Hashes E) K)
  (hfuel : 255 < fuel)

include hd hq hs hfuel

theorem insert_lasting {k : Digest d} (hk : K k) (ht : s.takes (.add k) = true)
    (h : SetLasting hash E K q s S) :
    Prog.Returns E (SetState.insert hash fresh fuel k) s fun b s' =>
      some b = ((SetOp.add k).within q.full S).1 ∧
        SetLasting hash E K q s' ((SetOp.add k).within q.full S).2 := by
  have hfull := h.full_eq
  unfold SetOp.within
  cases hqf : q.full S with
  | true => exact Prog.Returns.of_eq (insert_of_full (hfull.trans hqf)) ⟨rfl, h⟩
  | false =>
    simp only [Bool.false_eq_true, if_false]
    apply Prog.Returns.congr (insert_of_room (hfull.trans hqf))
    obtain ⟨t, hrep⟩ := h.keys.trie
    apply Prog.Returns.bind (Prog.Returns.zoom (hrep.add fresh hd hs hfuel hk))
    rintro _ _ ⟨t₁, ⟨rfl, hrep₁⟩, rfl⟩
    by_cases hS : k ∈ S
    · simp only [hS, not_true_eq_false, decide_false, Bool.false_eq_true, if_false]
      rw [Finset.insert_eq_of_mem hS] at hrep₁ ⊢
      exact Prog.Returns.pure ⟨rfl, ⟨hrep₁, h.keys.index⟩, h.bf, h.maxSize, h.hardMaximum⟩
    · -- the key is new, so the filter has to take it
      have hnot : s.holds k = false := by
        rw [← Bool.not_eq_true, h.keys.holds_iff hd hs]
        exact hS
      rw [SetState.takes, hfull, hqf, hnot, Bool.false_or, Bool.false_or, Bool.and_eq_true,
        Bool.not_eq_true', Bool.not_eq_true'] at ht
      have hroom : (q.hardMaximum && decide (q.maxElements ≤ s.bf.itemCount)) = false := by
        rw [← h.bf.params]
        exact ht.2
      obtain ⟨f, hf, hcov⟩ := bloomAdd_ok (by omega) hq h.bf hS ht.1 hroom
      simp only [hS, not_false_eq_true, decide_true, if_true]
      refine Prog.Returns.bind_of_eq (Prog.zoom_of_eq hf) (Prog.Returns.pure ⟨rfl, ?_⟩)
      exact ⟨⟨hrep₁, h.keys.index⟩, hcov, h.maxSize, h.hardMaximum⟩

/-- The data is written first, and removed again when the key is refused. -/
theorem insertData_lasting {data : Bytes} (hk : K (hash.digest data))
    (ht : s.takes (.add (hash.digest data)) = true) (h : SetLasting hash E K q s S) :
    Prog.Returns E (SetState.insertData hash fresh fuel data) s fun b s' =>
      some b = ((SetOp.add (hash.digest data)).within q.full S).1 ∧
        SetLasting hash E K q s' ((SetOp.add (hash.digest data)).within q.full S).2 := by
  have h₁ : SetLasting hash E K q (s.withData (hash.digest data) data) S :=
    h.withIndex rfl s.indexInUse
  have ht₁ : (s.withData (hash.digest data) data).takes (.add (hash.digest data)) = true := ht
  apply Prog.Returns.bind_of_eq (indexPut_ok h.keys.index data)
  apply Prog.Returns.bind (insert_lasting fresh hd hq hs hfuel hk ht₁ h₁)
  rintro success s₂ ⟨hb, h₂⟩
  cases success with
  | true => exact (h₂.setInUse true).bind fun _ s₃ h₃ => Prog.Returns.pure ⟨hb, h₃⟩
  | false => exact (h₂.removeData _).bind fun _ s₃ h₃ => Prog.Returns.pure ⟨hb, h₃⟩

theorem erase_lasting (k : Digest d) (h : SetLasting hash E K q s S) :
    Prog.Returns E (SetState.erase hash fuel k) s fun b s' => b = decide (k ∈ S) ∧
      SetLasting hash E K q s' (S.erase k) := by
  obtain ⟨t, hrep⟩ := h.keys.trie
  apply Prog.Returns.bind (Prog.Returns.zoom (hrep.remove hd hs hfuel k))
  rintro _ _ ⟨t₁, ⟨rfl, hrep₁⟩, rfl⟩
  by_cases hS : k ∈ S
  · obtain ⟨b, f, hf, hcov⟩ := bloomRemove_ok (by omega) hq h.bf hS
    have h₁ : SetLasting hash E K q { s with trie := t₁, bf := f } (S.erase k) :=
      ⟨⟨hrep₁, h.keys.index⟩, hcov, h.maxSize, h.hardMaximum⟩
    simp only [hS, decide_true, if_true]
    refine Prog.Returns.bind_of_eq (Prog.zoom_of_eq hf) (Prog.Returns.bind_of_eq (Prog.get_apply _) ?_)
    split
    · exact (h₁.removeData k).bind fun _ s₂ h₂ => Prog.Returns.pure ⟨rfl, h₂⟩
    · exact Prog.Returns.pure ⟨rfl, h₁⟩
  · simp only [hS, decide_false, Bool.false_eq_true, if_false]
    rw [Finset.erase_eq_of_notMem hS] at hrep₁ ⊢
    exact Prog.Returns.pure ⟨rfl, ⟨hrep₁, h.keys.index⟩, h.bf, h.maxSize, h.hardMaximum⟩

omit hd hq hs hfuel in
theorem clear_lasting (h : SetLasting hash E K q s S) :
    Prog.Returns E (SetState.clear : SetM d Unit) s fun _ s' => SetLasting hash E K q s' ∅ := by
  obtain ⟨t, ht⟩ := h.keys.trie
  obtain ⟨f, hf, hcov⟩ := bloomClear_ok h.bf
  have hindex : (KeyValueIndex.clear : Prog Storage (Digest d × Digest d) Exn Unit) s.index = _ :=
    Storage.clear_ok h.keys.index
  refine Prog.Returns.bind_of_eq (Prog.zoom_of_eq ht.clear) (Prog.Returns.bind_of_eq (Prog.zoom_of_eq hf)
    (Prog.Returns.bind_of_eq (Prog.zoom_of_eq hindex) (Prog.Returns.of_eq (Prog.modify_apply _ _) ?_)))
  exact ⟨⟨⟨_, Follows.empty⟩, rfl⟩, hcov, h.maxSize, h.hardMaximum⟩

omit hs hfuel in
/-- **Closing and opening.**  A `size_t` is stored for the size of the trie. -/
theorem reopen_lasting (hcard : S.card < 2 ^ 64) (h : SetLasting hash E K q s S) :
    Prog.Returns E (SetState.reopen : SetM d Unit) s fun _ s' => SetLasting hash E K q s' S := by
  obtain ⟨f, hf, hcov⟩ := destruct_covers h.bf
  obtain ⟨t, ht⟩ := h.keys.trie
  obtain ⟨t', hreopen, ht'⟩ := ht.reopen hcard
  obtain ⟨_, t₁, _, _, hdestruct, hconstruct, -⟩ := Prog.bind_eq_ok hreopen
  obtain ⟨f', hf', hcov'⟩ := construct_covers (by omega) hq hcov
  refine Prog.Returns.bind_of_eq (Prog.zoom_of_eq hf) (Prog.Returns.bind_of_eq (Prog.zoom_of_eq hdestruct)
    (Prog.Returns.bind_of_eq (Prog.zoom_of_eq hconstruct) (Prog.Returns.bind_of_eq (Prog.zoom_of_eq hf')
      (Prog.Returns.of_eq (Prog.modify_apply _ _) ?_))))
  exact ⟨⟨⟨t, ht'⟩, h.keys.index⟩, hcov', h.maxSize, h.hardMaximum⟩

/-- **One call.** -/
theorem setCall_lasting (call : SetCall d) (hk : ∀ k ∈ call.added hash, K k) (hcard : S.card < 2 ^ 64)
    (ht : call.taken hash s = true) (h : SetLasting hash E K q s S) :
    Prog.Returns E (call.exec hash fresh fuel) s fun r s' => r = (call.within hash q.full S).1 ∧
      SetLasting hash E K q s' (call.within hash q.full S).2 := by
  cases call with
  | eraseData data =>
    apply Prog.Returns.bind (erase_lasting hd hq hs hfuel (hash.digest data) h)
    rintro b s' ⟨rfl, h'⟩
    exact Prog.Returns.pure ⟨rfl, h'⟩
  | op o =>
    cases o with
    | insertData data =>
      apply Prog.Returns.bind (insertData_lasting fresh hd hq hs hfuel (hk _ List.mem_cons_self) ht h)
      rintro b s' ⟨hb, h'⟩
      exact Prog.Returns.pure ⟨hb, h'⟩
    | insert key =>
      apply Prog.Returns.bind (insert_lasting fresh hd hq hs hfuel (hk _ List.mem_cons_self) ht h)
      rintro b s' ⟨hb, h'⟩
      exact Prog.Returns.pure ⟨hb, h'⟩
    | erase key =>
      apply Prog.Returns.bind (erase_lasting hd hq hs hfuel key h)
      rintro b s' ⟨rfl, h'⟩
      exact Prog.Returns.pure ⟨rfl, h'⟩
    | clear => exact (clear_lasting h).bind fun _ s' h' => Prog.Returns.pure ⟨rfl, h'⟩
    | reopen => exact (reopen_lasting hd hq hcard h).bind fun _ s' h' => Prog.Returns.pure ⟨rfl, h'⟩

omit hd hq hs hfuel in
/-- The keys of a run are those that were inserted. -/
theorem within_subset {T : Finset (Digest d)} {call : SetCall d} (full : Finset (Digest d) → Bool)
    (hadd : ∀ k ∈ call.added hash, k ∈ T) (hS : S ⊆ T) : (call.within hash full S).2 ⊆ T := by
  have hinsert : ∀ k ∈ T, ((SetOp.add k).within full S).2 ⊆ T := by
    intro k hk
    rw [SetOp.within]
    cases full S with
    | true => exact hS
    | false => exact Finset.insert_subset hk hS
  have herase : ∀ k, ((SetOp.remove k).within full S).2 ⊆ T :=
    fun k => (Finset.erase_subset k S).trans hS
  cases call with
  | eraseData data => exact herase _
  | op o =>
    cases o with
    | insertData data => exact hinsert _ (hadd _ List.mem_cons_self)
    | insert key => exact hinsert _ (hadd _ List.mem_cons_self)
    | erase key => exact herase key
    | clear => exact Finset.empty_subset T
    | reopen => exact hS

omit hd hq hs hfuel in
theorem length_added (calls : List (SetCall d)) :
    (calls.flatMap (SetCall.added hash)).length ≤ calls.length := by
  induction calls with
  | nil => exact Nat.le_refl 0
  | cons call calls ih =>
    have hcall : (call.added hash).length ≤ 1 := by
      cases call with
      | eraseData data => exact Nat.zero_le 1
      | op o => cases o <;> simp [SetCall.added]
    rw [List.flatMap_cons, List.length_append, List.length_cons]
    omega

/-- **A run.** -/
theorem runSetCalls_lasting (calls : List (SetCall d)) (hcalls : calls.length < 2 ^ 64)
    (hk : ∀ k ∈ calls.flatMap (SetCall.added hash), K k)
    (ht : Prog.Throughout (SetCall.exec hash fresh fuel) (SetCall.taken hash) s calls = true)
    (h : SetLasting hash E K q s ∅) :
    Prog.Returns E (runSetCalls hash fresh fuel calls) s fun rs s' =>
      rs = (simulate (SetCall.within hash q.full) ∅ calls).1 ∧
        SetLasting hash E K q s' (simulate (SetCall.within hash q.full) ∅ calls).2 := by
  -- a run has fewer keys than calls
  let T : Finset (Digest d) := (calls.flatMap (SetCall.added hash)).toFinset
  have hT : T.card < 2 ^ 64 :=
    lt_of_le_of_lt ((List.toFinset_card_le _).trans (length_added calls)) hcalls
  have hstep : ∀ call ∈ calls, ∀ S s, SetLasting hash E K q s S ∧ S ⊆ T →
      SetCall.taken hash call s = true → Prog.Returns E (SetCall.exec hash fresh fuel call) s fun r s' =>
        r = (SetCall.within hash q.full S call).1 ∧
          SetLasting hash E K q s' (SetCall.within hash q.full S call).2 ∧
          (SetCall.within hash q.full S call).2 ⊆ T := by
    rintro call hcall S s ⟨hS, hsub⟩ htaken
    have hadd : ∀ k ∈ call.added hash, k ∈ calls.flatMap (SetCall.added hash) :=
      fun k hmem => List.mem_flatMap.mpr ⟨call, hcall, hmem⟩
    refine (setCall_lasting fresh hd hq hs hfuel call (fun k hmem => hk k (hadd k hmem))
      (lt_of_le_of_lt (Finset.card_le_card hsub) hT) htaken hS).mono ?_
    rintro r s' ⟨hr, hS'⟩
    exact ⟨hr, hS', within_subset q.full (fun k hmem => List.mem_toFinset.mpr (hadd k hmem)) hsub⟩
  have hrun := Prog.Returns.each (I := fun S s => SetLasting hash E K q s S ∧ S ⊆ T) hstep
    ⟨h, Finset.empty_subset T⟩ ht
  refine hrun.mono ?_
  rintro rs s' ⟨hrs, hS, -⟩
  exact ⟨hrs, hS⟩

omit hq hfuel in
/-- `find` asks the filter and then the trie. -/
theorem find_lasting (k : Digest d) (h : SetLasting hash E K q s S) :
    (SetState.find k s).outcome = .ok (decide (k ∈ S)) := by
  obtain ⟨t, ht⟩ := h.keys.trie
  have hiff := ht.contains_iff hd hs k
  have hfilter : SetState.onBloom (KeyValueCountingBloomFilter.contains k) s = _ :=
    Prog.zoom_of_eq (bloomContains_ok (by omega) h.bf k)
  unfold SetState.find
  rw [Prog.bind_of_ok hfilter]
  by_cases hin : ∀ p ∈ q.positions k, bitTest s.bf.bitArray p = true
  · obtain ⟨type, htype, -⟩ := contains_returns k s.trie fun _ _ => trivial
    rcases hrun : KeyValueTrie.contains k s.trie with ⟨o, t', l⟩
    rw [hrun] at hiff htype
    obtain rfl : o = .ok type := htype
    have htrie : SetState.onTrie (KeyValueTrie.contains k) s = _ := Prog.zoom_of_eq hrun
    have hleaf : (type == .LEAF_NODE) = decide (k ∈ S) := by
      rw [Bool.eq_iff_iff, beq_iff_eq, decide_eq_true_eq, ← hiff]
      exact ⟨fun he => by rw [he], fun he => Outcome.ok.inj he⟩
    rw [decide_eq_true hin]
    simp only [if_true]
    rw [Prog.bind_of_ok htrie, ← hleaf]
    rfl
  · -- a key of the set has all its bits
    have hS : k ∉ S := fun hkS => hin fun p hp => h.bf.covers.bit_of_mem hkS hp
    rw [decide_eq_false hin]
    simp [hS]

end Step

/-! ## Runs from a new set -/

section NewSet

variable (hash : CryptoHash d) (fresh : Digest d) {fuel : Nat}

/-- **A set that is closed and opened at any moments is a finite set**, while the filter takes every new
key: its answers, its size and what it finds are those of the calls, whatever the moments are. -/
theorem set_survives_reopening (hd : d = 16 ∨ d = 20 ∨ d = 28) (hfuel : 255 < fuel)
    (filterSize functionCount maxElements : Nat) (hardMaximum : Bool) (hpos : 1 ≤ filterSize)
    (hfits : (filterSize + 7) / 8 < 2 ^ 32) (calls : List (SetCall d)) (hcalls : calls.length < 2 ^ 64)
    (hc : CollisionFree hash (runSetCalls hash fresh fuel calls
      (SetState.create d filterSize functionCount hardMaximum maxElements)).events)
    (hk : KeysFresh hash (calls.flatMap (SetCall.added hash)) (runSetCalls hash fresh fuel calls
      (SetState.create d filterSize functionCount hardMaximum maxElements)).events)
    (ht : Prog.Throughout (SetCall.exec hash fresh fuel) (SetCall.taken hash)
      (SetState.create d filterSize functionCount hardMaximum maxElements) calls = true) :
    let full : Finset (Digest d) → Bool := fun S => hardMaximum && decide (maxElements ≤ S.card)
    let r := runSetCalls hash fresh fuel calls
      (SetState.create d filterSize functionCount hardMaximum maxElements)
    let S := (boundedRun full ∅ (calls.filterMap (SetCall.setOp hash))).2
    r.outcome = .ok (simulate (SetCall.within hash full) ∅ calls).1 ∧
      (SetState.getSize r.state).outcome = .ok S.card ∧
      ∀ k, (SetState.find k r.state).outcome = .ok (decide (k ∈ S)) := by
  intro full r S
  let q : FilterParams := ⟨filterSize, functionCount, hardMaximum, maxElements⟩
  have hs := separated_of_collisionFree hc hk
  have hnew : SetLasting hash (· ∈ r.events) (· ∈ calls.flatMap (SetCall.added hash)) q
      (SetState.create d filterSize functionCount hardMaximum maxElements) ∅ :=
    ⟨⟨⟨_, Follows.empty⟩, rfl⟩, bloomInit q, rfl, rfl⟩
  obtain ⟨rs, ho, rfl, hlast⟩ := runSetCalls_lasting (q := q) fresh hd ⟨hpos, hfits⟩ hs hfuel calls hcalls
    (fun k hmem => hmem) ht hnew fun x hx => hx
  -- the moments do not matter for the set
  have hS : (simulate (SetCall.within hash full) ∅ calls).2 = S :=
    simulate_filterMap (fun call o ho S => by rw [SetCall.within, ho])
      (fun call ho S => by rw [SetCall.within, ho]) ∅ calls
  have hkeys : SetLasting hash (· ∈ r.events) (· ∈ calls.flatMap (SetCall.added hash)) q r.state S := by
    rw [← hS]
    exact hlast
  refine ⟨ho, ?_, fun k => find_lasting hd hs k hkeys⟩
  rw [← hkeys.size_eq]
  rfl

/-- Keys and data that come and go over three lives. -/
def lastingCalls : List (SetCall 16) :=
  [.op (.insertData [1]), .op (.insert (byteKey 16 2)), .op .reopen, .op (.erase (byteKey 16 2)),
    .eraseData [1], .op .reopen, .op (.insert (byteKey 16 3))]

theorem set_survives_reopening_sample :
    (SetState.getSize (runSetCalls (mixHash 16) (byteKey 16 0) 256 lastingCalls
      (SetState.create 16 8 1 false 4)).state).outcome = .ok 1 :=
  (set_survives_reopening (mixHash 16) (byteKey 16 0) (Or.inl rfl) (by decide) 8 1 4 false (by decide)
    (by decide) lastingCalls (by decide) (by decide +kernel) (by decide +kernel)
    (by decide +kernel)).2.1.trans (by decide +kernel)

/-- The filter still counts a key that left the set two lives ago. -/
def countedCalls : List (SetCall 16) :=
  [.op (.insert (byteKey 16 1)), .op .reopen, .op (.erase (byteKey 16 1)), .op .reopen,
    .op (.insert (byteKey 16 2))]

theorem counted_over_lives :
    (runSetCalls (mixHash 16) (byteKey 16 0) 256 countedCalls (SetState.create 16 8 1 true 1)).outcome
      = .error (.runtimeError "Maximum of Elements reached, adding failed") := by
  decide +kernel

end NewSet

end SetSync
