import SetSync.BloomSpec

/-!
# Lists and bits of the bloom filter

What holds of the storage and the bits whatever was added or removed (`BloomStored`): a bit that is set
has a list, and only positions of the filter have one.  A list need not have its bit: `add` appends to
the lists first, and it may stop or raise an exception before it gets to the bits.

    appends       the positions at which the loop of `add` appends, until it finds the key listed
    an addition   lists at `appends`; bits if the loop comes to its end and there is room
                                                                               (bloomAdd_lists)
    a removal     at each position a list goes with its bit, or gets one byte shorter
                                                                    (RemovedAll, remove_cases)
    a refusal     the lists have the key, though the exception was raised    (refusal_untouched_iff)
-/

namespace SetSync

open Program CountingFilter KeyValueCountingBloomFilter

variable {d : Nat}

/-! ## Appending to lists -/

/-- The positions at which the loop of `add` appends the key. -/
def appends (key : Digest d) (lists : Nat → Bytes) : List Nat → List Nat
  | [] => []
  | p :: ps =>
    if key ∈ entries d (lists p) then []
    else p :: appends key (Function.update lists p (lists p ++ key.bytes)) ps

/-- The lists when the key was appended at the given positions. -/
def appended (key : Digest d) (lists : Nat → Bytes) : List Nat → Nat → Bytes
  | [] => lists
  | p :: ps => appended key (Function.update lists p (lists p ++ key.bytes)) ps

section Appending

variable {key : Digest d} {lists lists' : Nat → Bytes} {ps : List Nat}

theorem update_congr {p r : Nat} {value value' : Bytes} (hv : value = value') (h : lists r = lists' r) :
    Function.update lists p value r = Function.update lists' p value' r := by
  rw [Function.update_apply, Function.update_apply, hv, h]

theorem appends_congr (h : ∀ p ∈ ps, lists p = lists' p) :
    appends key lists ps = appends key lists' ps := by
  induction ps generalizing lists lists' with
  | nil => rfl
  | cons p ps ih =>
    have hp := h p List.mem_cons_self
    rw [appends, appends, hp]
    split
    · rfl
    · congr 1
      exact ih fun r hr => update_congr rfl (h r (List.mem_cons_of_mem p hr))

theorem appended_congr {r : Nat} (h : ∀ p ∈ ps, lists p = lists' p) (hr : lists r = lists' r) :
    appended key lists ps r = appended key lists' ps r := by
  induction ps generalizing lists lists' with
  | nil => exact hr
  | cons p ps ih =>
    have hp : lists p ++ key.bytes = lists' p ++ key.bytes := by rw [h p List.mem_cons_self]
    exact ih (fun q hq => update_congr hp (h q (List.mem_cons_of_mem p hq))) (update_congr hp hr)

theorem appends_subset : appends key lists ps ⊆ ps := by
  induction ps generalizing lists with
  | nil => exact fun _ h => h
  | cons p ps ih =>
    unfold appends
    split
    · exact List.nil_subset _
    · exact List.cons_subset_cons p ih

theorem appends_eq (h : listsKey key lists ps = false) : appends key lists ps = ps := by
  induction ps generalizing lists with
  | nil => rfl
  | cons p ps ih =>
    rw [listsKey, Bool.or_eq_false_iff, decide_eq_false_iff_not] at h
    unfold appends
    rw [if_neg h.1, ih h.2]

theorem appended_of_not_mem {r : Nat} (h : r ∉ ps) : appended key lists ps r = lists r := by
  induction ps generalizing lists with
  | nil => rfl
  | cons p ps ih =>
    rw [List.mem_cons, not_or] at h
    unfold appended
    rw [ih h.2, Function.update_of_ne h.1]

theorem appended_ne_nil (hd : 0 < d) {r : Nat} :
    appended key lists ps r ≠ [] ↔ lists r ≠ [] ∨ r ∈ ps := by
  induction ps generalizing lists with
  | nil => simp [appended]
  | cons p ps ih =>
    unfold appended
    rw [ih, List.mem_cons]
    by_cases hr : r = p
    · subst hr
      have hbytes : key.bytes ≠ [] := fun h => by
        have := key.length_bytes
        rw [h, List.length_nil] at this
        omega
      rw [Function.update_self]
      simp [hbytes]
    · rw [Function.update_of_ne hr]
      simp [hr]

/-- No position comes twice, so the key is appended once at each. -/
theorem appended_of_nodup (h : ps.Nodup) (r : Nat) :
    appended key lists ps r = lists r ++ if r ∈ ps then key.bytes else [] := by
  induction ps generalizing lists with
  | nil => simp [appended]
  | cons p ps ih =>
    rw [List.nodup_cons] at h
    unfold appended
    by_cases hr : r = p
    · subst hr
      rw [appended_of_not_mem h.1, Function.update_self, if_pos List.mem_cons_self]
    · rw [ih h.2, Function.update_of_ne hr]
      simp [hr]

end Appending

/-! ## What always holds -/

/-- **A bit that is set has a list, and only positions have one.** -/
structure BloomStored (q : FilterParams) (f : KeyValueCountingBloomFilter) : Prop where
  failure : f.storage.failure = none
  params : f.params = q
  length : f.bitArray.length = FSBloomFilter.mmapLength q.filterSize
  keys : ∀ key, key ∈ f.storage.table → ∃ p, p < q.filterSize ∧ key = uint64Bytes p
  filled : ∀ p, uint64Bytes p ∈ f.storage.table → f.storage.listOf p ≠ []
  bits : ∀ p, bitTest f.bitArray p = true → p < q.filterSize ∧ f.storage.listOf p ≠ []
  count : f.itemCount < 2 ^ 64

namespace KeyValueCountingBloomFilter

/-- `FSBloomFilter::add` raises its exception. -/
def full (f : KeyValueCountingBloomFilter) : Bool := f.hardMaximum && decide (f.maxElements ≤ f.itemCount)

/-- The call `add(key)` gets to the bits. -/
def sets (f : KeyValueCountingBloomFilter) (key : Digest d) : Bool := !f.listed key && !f.full

end KeyValueCountingBloomFilter

theorem mem_of_listOf_ne_nil {st : Storage} {p : Nat} (h : st.listOf p ≠ []) :
    uint64Bytes p ∈ st.table := by
  by_contra hp
  exact h (by rw [Storage.listOf, Finmap.lookup_eq_none.mpr hp, Option.getD_none])

namespace BloomStored

variable {q : FilterParams} {f : KeyValueCountingBloomFilter} {p : Nat}

theorem mem_iff (h : BloomStored q f) (p : Nat) :
    uint64Bytes p ∈ f.storage.table ↔ f.storage.listOf p ≠ [] :=
  ⟨h.filled p, mem_of_listOf_ne_nil⟩

theorem size_eq (h : BloomStored q f) : f.filterSize = q.filterSize :=
  congrArg FilterParams.filterSize h.params

theorem count_eq (h : BloomStored q f) : f.functionCount = q.functionCount :=
  congrArg FilterParams.functionCount h.params

theorem positions_eq (h : BloomStored q f) (key : Digest d) :
    f.params.positions key = q.positions key := by rw [h.params]

/-- A new filter. -/
theorem init (q : FilterParams) : BloomStored q (KeyValueCountingBloomFilter.init q.filterSize
    q.functionCount q.hardMaximum q.maxElements) := by
  refine ⟨rfl, rfl, List.length_replicate, fun key hkey => absurd hkey Finmap.notMem_empty,
    fun p hp => absurd hp Finmap.notMem_empty, fun p hp => ?_, Nat.two_pow_pos 64⟩
  have hclear : bitTest (KeyValueCountingBloomFilter.init q.filterSize q.functionCount q.hardMaximum
      q.maxElements).bitArray p = false := bitTest_replicate _ p
  rw [hclear] at hp
  cases hp

theorem lt_bits (hq : q.Fits) (h : BloomStored q f) (hp : p < q.filterSize) :
    p < 8 * f.bitArray.length := by
  have := hq.le_bits
  rw [h.length]
  omega

/-- A list of a position is replaced by one that is not empty. -/
theorem put (hq : q.Fits) (h : BloomStored q f) (hp : p < q.filterSize) {value : Bytes}
    (hv : value ≠ []) :
    BloomStored q { f with storage := ⟨f.storage.table.insert (uint64Bytes p) value, none⟩ } := by
  have hlt := hq.lt
  have hlist : ∀ r, r < q.filterSize → Storage.listOf
      ⟨f.storage.table.insert (uint64Bytes p) value, none⟩ r
        = if r = p then value else f.storage.listOf r :=
    fun r hr => Storage.listOf_insert (by omega) (by omega) value
  refine ⟨rfl, h.params, h.length, fun key hkey => ?_, fun r hr => ?_, fun r hr => ?_, h.count⟩
  · rcases Finmap.mem_insert.mp hkey with rfl | hkey
    · exact ⟨p, hp, rfl⟩
    · exact h.keys key hkey
  · by_cases hrp : uint64Bytes r = uint64Bytes p
    · unfold Storage.listOf
      rw [hrp]
      simpa using hv
    · have hmem : uint64Bytes r ∈ f.storage.table :=
        (Finmap.mem_insert.mp hr).resolve_left hrp
      have := h.filled r hmem
      rwa [Storage.listOf, Finmap.lookup_insert_of_ne _ hrp]
  · obtain ⟨hrn, hne⟩ := h.bits r hr
    refine ⟨hrn, ?_⟩
    show Storage.listOf ⟨f.storage.table.insert (uint64Bytes p) value, none⟩ r ≠ []
    rw [hlist r hrn]
    split
    · exact hv
    · exact hne

/-- A list goes, with its bit. -/
theorem del (hq : q.Fits) (h : BloomStored q f) (hp : p < q.filterSize) :
    BloomStored q { f with
      bitArray := bitClear f.bitArray p
      storage := ⟨f.storage.table.erase (uint64Bytes p), none⟩ } := by
  have hlt := hq.lt
  refine ⟨rfl, h.params, (length_bitClear _ _).trans h.length, fun key hkey =>
    h.keys key (Finmap.mem_erase.mp hkey).2, fun r hr => ?_, fun r hr => ?_, h.count⟩
  · obtain ⟨hne, hmem⟩ := Finmap.mem_erase.mp hr
    have := h.filled r hmem
    rwa [Storage.listOf, Finmap.lookup_erase_ne hne]
  · have hbit : bitTest (bitClear f.bitArray p) r = true := hr
    rw [bitTest_bitClear _ _ _ (h.lt_bits hq hp), Bool.and_eq_true, bne_iff_ne] at hbit
    obtain ⟨hrn, hne⟩ := h.bits r hbit.1
    refine ⟨hrn, ?_⟩
    show Storage.listOf ⟨f.storage.table.erase (uint64Bytes p), none⟩ r ≠ []
    rw [Storage.listOf_erase (by omega) (by omega), if_neg (Ne.symm hbit.2)]
    exact hne

/-- The bits of positions that have lists are set. -/
theorem setBits (hq : q.Fits) (h : BloomStored q f) {ps : List Nat} {n : Nat} (hn : n < 2 ^ 64)
    (hps : ∀ p ∈ ps, p < q.filterSize ∧ f.storage.listOf p ≠ []) :
    BloomStored q { f with bitArray := SetSync.setBits f.bitArray ps, itemCount := n } := by
  refine ⟨h.failure, h.params, (length_setBits _ _).trans h.length, h.keys, h.filled, fun p hp => ?_, hn⟩
  have hbit : bitTest (SetSync.setBits f.bitArray ps) p = true := hp
  rw [bitTest_setBits (fun r hr => h.lt_bits hq (hps r hr).1), Bool.or_eq_true,
    decide_eq_true_eq] at hbit
  rcases hbit with hold | hnew
  · exact h.bits p hold
  · exact hps p hnew

end BloomStored

/-! ## One call -/

section Calls

variable {q : FilterParams} (hd : 16 ≤ d) {f : KeyValueCountingBloomFilter}

include hd

omit hd in
theorem fsAdd_refused (key : Digest d) {f : FSBloomFilter}
    (h : (f.hardMaximum && decide (f.maxElements ≤ f.itemCount)) = true) :
    FSBloomFilter.add key f
      = ⟨.error (.runtimeError "Maximum of Elements reached, adding failed"), f, []⟩ := by
  unfold FSBloomFilter.add
  rw [Prog.bind_of_ok (Prog.get_apply f), if_pos h]
  rfl

theorem addLoop_lists (hq : q.Fits) (h : BloomStored q f) (key : Digest d) (is : List Nat)
    {ps : List Nat} (hps : ps = is.map fun i => doubleHash key i % q.filterSize) :
    ∃ st : Storage, BloomStored q { f with storage := st } ∧
      (∀ r, r < q.filterSize → st.listOf r
        = appended key f.storage.listOf (appends key f.storage.listOf ps) r) ∧
      addLoop key is f = if listsKey key f.storage.listOf ps then ⟨.ok (), { f with storage := st }, []⟩
        else onFilter (FSBloomFilter.add key) { f with storage := st } := by
  induction is generalizing f ps with
  | nil =>
    subst hps
    exact ⟨f.storage, h, fun r _ => rfl, rfl⟩
  | cons i is ih =>
    have hlt := hq.lt
    obtain ⟨p, hp⟩ : ∃ p, doubleHash key i % q.filterSize = p := ⟨_, rfl⟩
    have hpn : p < q.filterSize := by rw [← hp]; exact Nat.mod_lt _ hq.1
    rw [List.map_cons, hp] at hps
    obtain ⟨ps', hps'⟩ : ∃ ps', ps' = is.map fun i => doubleHash key i % q.filterSize := ⟨_, rfl⟩
    rw [← hps'] at hps
    subst hps
    have hturn := addLoop_cons hd h.failure key i is (h.size_eq.symm ▸ hp)
    by_cases hin : key ∈ entries d (f.storage.listOf p)
    · -- the key is listed
      have hlisted : listsKey key f.storage.listOf (p :: ps') = true := by
        unfold listsKey
        rw [decide_eq_true hin, Bool.true_or]
      refine ⟨f.storage, h, fun r _ => by rw [appends, if_pos hin]; rfl, ?_⟩
      rw [hlisted, if_pos rfl, hturn, if_pos hin]
    · rw [if_neg hin] at hturn
      have hbytes : f.storage.listOf p ++ key.bytes ≠ [] := fun hnil => by
        have := key.length_bytes
        rw [(List.append_eq_nil_iff.mp hnil).2, List.length_nil] at this
        omega
      obtain ⟨st, hst, hlists, hrun⟩ := ih (h.put hq hpn hbytes) hps'
      -- the lists that the rest of the loop starts from
      have hsame : ∀ r, r < q.filterSize → Storage.listOf
          ⟨f.storage.table.insert (uint64Bytes p) (f.storage.listOf p ++ key.bytes), none⟩ r
            = Function.update f.storage.listOf p (f.storage.listOf p ++ key.bytes) r := by
        intro r hr
        rw [Storage.listOf_insert (by omega) (by omega), Function.update_apply]
      have hpos : ∀ r ∈ ps', r < q.filterSize := by
        intro r hr
        rw [hps'] at hr
        obtain ⟨j, _, rfl⟩ := List.mem_map.mp hr
        exact Nat.mod_lt _ hq.1
      refine ⟨st, hst, fun r hr => ?_, ?_⟩
      · rw [hlists r hr, appends, if_neg hin, appended, appends_congr fun r hr => hsame r (hpos r hr)]
        exact appended_congr (fun r hr => hsame r (hpos r (appends_subset hr))) (hsame r hr)
      · rw [hturn, hrun, listsKey, decide_eq_false hin, Bool.false_or,
          listsKey_congr fun r hr => hsame r (hpos r hr)]

/-- **An addition, whatever the filter is like.** -/
theorem bloomAdd_lists (hq : q.Fits) (h : BloomStored q f) (key : Digest d) :
    ∃ f', KeyValueCountingBloomFilter.add key f = ⟨if !f.listed key && f.full then
          .error (.runtimeError "Maximum of Elements reached, adding failed") else .ok (), f', []⟩ ∧
      BloomStored q f' ∧
      (∀ r, r < q.filterSize → f'.storage.listOf r
        = appended key f.storage.listOf (appends key f.storage.listOf (q.positions key)) r) ∧
      (∀ p, bitTest f'.bitArray p
        = (bitTest f.bitArray p || (f.sets key && decide (p ∈ q.positions key)))) ∧
      (f.sets key = false → f'.itemCount = f.itemCount) := by
  have hlisted : f.listed key = listsKey key f.storage.listOf (q.positions key) := by
    unfold listed
    rw [h.positions_eq]
  obtain ⟨st, hst, hlists, hrun⟩ := addLoop_lists hd hq h key (List.range q.functionCount) rfl
  have hstart : KeyValueCountingBloomFilter.add key f = addLoop key (List.range q.functionCount) f := by
    unfold KeyValueCountingBloomFilter.add
    rw [Prog.bind_of_ok (Prog.get_apply f), h.count_eq]
    rfl
  rw [hstart, hrun, sets]
  change _ = listsKey key f.storage.listOf (List.map _ _) at hlisted
  rw [← hlisted]
  cases hl : f.listed key with
  | true => exact ⟨_, rfl, hst, hlists, fun p => by simp, fun _ => rfl⟩
  | false =>
    have hzoom : ∀ {o : Outcome Exn Unit} {base : FSBloomFilter},
        FSBloomFilter.add key f.toFSBloomFilter = ⟨o, base, []⟩ →
        onFilter (FSBloomFilter.add key) { f with storage := st }
          = ⟨o, ⟨base, st⟩, []⟩ := fun he => Prog.zoom_of_eq he
    cases hroom : f.full with
    | true => exact ⟨_, hzoom (fsAdd_refused key hroom), hst, hlists, fun p => by simp, fun _ => rfl⟩
    | false =>
      obtain ⟨n, hn, hadd⟩ := fsAdd_ok hd (f := f.toFSBloomFilter) key hroom
      have happ : appends key f.storage.listOf (q.positions key) = q.positions key := by
        apply appends_eq
        rw [← hl]
        exact hlisted.symm
      rw [show positions f.filterSize f.functionCount key = q.positions key by
        rw [h.size_eq, h.count_eq]; rfl] at hadd
      have hps : ∀ p ∈ q.positions key, p < q.filterSize ∧ st.listOf p ≠ [] := by
        intro p hp
        have hlt := lt_of_mem_positions hq.1 hp
        refine ⟨hlt, ?_⟩
        rw [hlists p hlt]
        exact (appended_ne_nil (by omega)).mpr (Or.inr (happ ▸ hp))
      refine ⟨_, hzoom hadd, hst.setBits hq (hn h.count) hps, hlists, fun p => ?_,
        fun hno => by cases hno⟩
      show bitTest (setBits f.bitArray (q.positions key)) p = _
      rw [bitTest_setBits fun r hr => h.lt_bits hq (hps r hr).1]
      simp

/-- The functions of a removal one after the other, at the positions `ps`. -/
inductive RemovedAll (d : Nat) : List Nat → KeyValueCountingBloomFilter → Bool →
    KeyValueCountingBloomFilter → Prop where
  | nil (f : KeyValueCountingBloomFilter) : RemovedAll d [] f false f
  | cons {p : Nat} {ps : List Nat} {f f' f'' : KeyValueCountingBloomFilter} {b b' : Bool}
      (first : RemovedAt d p f b f') (rest : RemovedAll d ps f' b' f'') :
      RemovedAll d (p :: ps) f (b || b') f''

theorem RemovedAt.stored (hq : q.Fits) {p : Nat} (hp : p < q.filterSize) {b : Bool}
    {f' : KeyValueCountingBloomFilter} (hr : RemovedAt d p f b f') (h : BloomStored q f) :
    BloomStored q f' := by
  cases hr with
  | absent _ => exact h
  | shared _ hmany hlen =>
    apply h.put hq hp
    intro hnil
    rw [hnil, List.length_nil] at hlen
    omega
  | last _ _ => exact h.del hq hp

theorem RemovedAll.stored (hq : q.Fits) {ps : List Nat} (hps : ∀ p ∈ ps, p < q.filterSize) {b : Bool}
    {f' : KeyValueCountingBloomFilter} (hr : RemovedAll d ps f b f') (h : BloomStored q f) :
    BloomStored q f' := by
  induction hr with
  | nil => exact h
  | cons first _ ih =>
    exact ih (fun p hp => hps p (List.mem_cons_of_mem _ hp))
      (first.stored hd hq (hps _ List.mem_cons_self) h)

theorem removeLoop_cases (hq : q.Fits) (key : Digest d) (funcs : List Nat) (r : Bool)
    (h : BloomStored q f) :
    ∃ b f', removeLoop key funcs r f = ⟨.ok (r || b), f', []⟩ ∧
      RemovedAll d (funcs.map fun i => doubleHash key i % q.filterSize) f b f' := by
  induction funcs generalizing f r with
  | nil => exact ⟨false, f, by rw [Bool.or_false]; rfl, .nil f⟩
  | cons func funcs ih =>
    obtain ⟨b, f₁, hrun, hat⟩ := removeAt_cases hd h.failure key func
    rw [h.size_eq] at hat
    obtain ⟨b', f₂, hrest, hall⟩ := ih (r || b) (hat.stored hd hq (Nat.mod_lt _ hq.1) h)
    refine ⟨b || b', f₂, ?_, .cons hat hall⟩
    unfold removeLoop
    rw [Prog.bind_of_ok hrun, hrest, Bool.or_assoc]
    rfl

omit hd in
/-- All bits of the key are set. -/
def KeyValueCountingBloomFilter.allSet (f : KeyValueCountingBloomFilter) (key : Digest d) : Bool :=
  decide (∀ p ∈ f.params.positions key, bitTest f.bitArray p = true)

/-- **A removal, whatever the filter is like.** -/
theorem remove_cases (hq : q.Fits) (h : BloomStored q f) (key : Digest d) :
    (f.allSet key = false ∧ KeyValueCountingBloomFilter.remove key f = ⟨.ok false, f, []⟩) ∨
    (f.allSet key = true ∧ ∃ b f', KeyValueCountingBloomFilter.remove key f = ⟨.ok b, f', []⟩ ∧
      RemovedAll d (q.positions key) f b f') := by
  have hcontains : KeyValueCountingBloomFilter.contains key f = ⟨.ok (f.allSet key), f, []⟩ := by
    unfold KeyValueCountingBloomFilter.contains
    rw [onFilter, Prog.zoom_of_eq (fsContains_ok hd key)]
    rfl
  unfold KeyValueCountingBloomFilter.remove
  rw [Prog.bind_of_ok hcontains]
  cases hall : f.allSet key with
  | false => exact Or.inl ⟨rfl, rfl⟩
  | true =>
    obtain ⟨b, f', hrun, hremoved⟩ := removeLoop_cases hd hq key (List.range q.functionCount) false h
    refine Or.inr ⟨rfl, b, f', ?_, hremoved⟩
    simp only [Bool.not_true, Bool.false_eq_true, if_false]
    rw [Prog.bind_of_ok (Prog.get_apply f), h.count_eq, hrun, Bool.false_or]
    rfl

omit hd in
theorem bloomClear_stored (h : BloomStored q f) :
    ∃ f', (KeyValueCountingBloomFilter.clear : BloomM d Unit) f = ⟨.ok (), f', []⟩ ∧
      BloomStored q f' ∧ f'.storage.table = ∅ ∧ f'.itemCount = 0 ∧
      ∀ p, bitTest f'.bitArray p = false := by
  refine ⟨_, bloomClear_run h.failure, ⟨rfl, h.params, ?_, ?_, ?_, ?_, Nat.two_pow_pos 64⟩, rfl, rfl, ?_⟩
  · rw [← h.size_eq]
    exact List.length_replicate
  · exact fun key hkey => absurd hkey Finmap.notMem_empty
  · exact fun p hp => absurd hp Finmap.notMem_empty
  · intro p hp
    have hclear : bitTest (List.replicate (FSBloomFilter.mmapLength f.filterSize) 0) p = true := hp
    rw [bitTest_replicate] at hclear
    cases hclear
  · exact bitTest_replicate _

/-- The loop of `add` when it finds the key in a list: it returns. -/
theorem addLoop_listed (hf : f.filterSize < 2 ^ 64) (hn : 0 < f.filterSize)
    (h : f.storage.failure = none) (key : Digest d) (is : List Nat)
    (hl : listsKey key f.storage.listOf (is.map fun i => doubleHash key i % f.filterSize) = true) :
    (addLoop key is f).outcome = .ok () := by
  induction is generalizing f with
  | nil => cases hl
  | cons i is ih =>
    generalize hp : doubleHash key i % f.filterSize = p at hl
    have hpn : p < f.filterSize := by rw [← hp]; exact Nat.mod_lt _ hn
    rw [List.map_cons, hp, listsKey, Bool.or_eq_true, decide_eq_true_eq] at hl
    rw [addLoop_cons hd h key i is hp]
    by_cases hin : key ∈ entries d (f.storage.listOf p)
    · rw [if_pos hin]
    · rw [if_neg hin]
      have hrest := hl.resolve_left hin
      apply @ih { f with storage :=
        ⟨f.storage.table.insert (uint64Bytes p) (f.storage.listOf p ++ key.bytes), none⟩ } hf hn rfl
      exact (listsKey_put hf hn key is hpn _).trans hrest

end Calls

/-! ## A refused addition -/

/-- An addition that throws because the maximum of elements is reached leaves the filter as it was. -/
def RefusalUntouched (f : KeyValueCountingBloomFilter) (key : Digest d) : Prop :=
  (KeyValueCountingBloomFilter.add key f).outcome
      = .error (.runtimeError "Maximum of Elements reached, adding failed") →
    (KeyValueCountingBloomFilter.add key f).state = f

/-- **A refused addition has appended the key to its lists: the filter is left as it was just where no
addition is refused.** -/
theorem refusal_untouched_iff (hd : 16 ≤ d) (f : KeyValueCountingBloomFilter) (hpos : 1 ≤ f.filterSize)
    (hsize : f.filterSize < 2 ^ 64) (hfun : 1 ≤ f.functionCount) (hst : f.storage.failure = none)
    (hmax : f.hardMaximum = true) (key : Digest d) :
    RefusalUntouched f key ↔ f.itemCount < f.maxElements ∨ f.listed key = true := by
  have hstart : KeyValueCountingBloomFilter.add key f = addLoop key (List.range f.functionCount) f := by
    unfold KeyValueCountingBloomFilter.add
    rw [Prog.bind_of_ok (Prog.get_apply f)]
    rfl
  unfold RefusalUntouched
  rw [hstart]
  cases hl : f.listed key with
  | true =>
    rw [addLoop_listed hd hsize hpos hst key (List.range f.functionCount) hl]
    exact iff_of_true (fun he => by cases he) (Or.inr rfl)
  | false =>
    obtain ⟨st, -, hlen, hrun⟩ := addLoop_ok hd hsize hpos hst key (List.range f.functionCount) hl
    have hzoom : ∀ {o : Outcome Exn Unit} {base : FSBloomFilter},
        FSBloomFilter.add key f.toFSBloomFilter = ⟨o, base, []⟩ →
        onFilter (FSBloomFilter.add key) { f with storage := st } = ⟨o, ⟨base, st⟩, []⟩ :=
      fun he => Prog.zoom_of_eq he
    by_cases hroom : f.itemCount < f.maxElements
    · -- the addition is not refused
      have hfree : (f.hardMaximum && decide (f.maxElements ≤ f.itemCount)) = false := by
        rw [decide_eq_false (Nat.not_le.mpr hroom), Bool.and_false]
      obtain ⟨n, -, hadd⟩ := fsAdd_ok hd (f := f.toFSBloomFilter) key hfree
      rw [hrun, hzoom hadd]
      exact iff_of_true (fun he => by cases he) (Or.inl hroom)
    · have hfull : (f.hardMaximum && decide (f.maxElements ≤ f.itemCount)) = true := by
        rw [hmax, decide_eq_true (Nat.not_lt.mp hroom), Bool.and_true]
      rw [hrun, hzoom (fsAdd_refused key hfull)]
      apply iff_of_false
      · intro h
        -- the list of the first position is longer than before
        have hlist := hlen (doubleHash key 0 % f.filterSize) (Nat.mod_lt _ hpos)
        have hsame : st = f.storage := congrArg KeyValueCountingBloomFilter.storage (h rfl)
        have hcount : 0 < ((List.range f.functionCount).map fun i =>
            doubleHash key i % f.filterSize).count (doubleHash key 0 % f.filterSize) :=
          List.count_pos_iff.mpr (List.mem_map.mpr ⟨0, List.mem_range.mpr hfun, rfl⟩)
        have hgrown : 0 < d * ((List.range f.functionCount).map fun i =>
            doubleHash key i % f.filterSize).count (doubleHash key 0 % f.filterSize) :=
          Nat.mul_pos (by omega) hcount
        rw [hsame] at hlist
        omega
      · rintro (h | h)
        · exact hroom h
        · cases h

/-- The filter is full: the key it has is not refused, another one is. -/
theorem refusal_untouched_sample :
    let f := (KeyValueCountingBloomFilter.add (byteKey 16 1)
      (KeyValueCountingBloomFilter.init 8 1 true 1)).state
    f.full = true ∧ RefusalUntouched f (byteKey 16 1) ∧ ¬RefusalUntouched f (byteKey 16 2) := by
  intro f
  have h := refusal_untouched_iff (by decide : 16 ≤ 16) f (by decide +kernel) (by decide +kernel)
    (by decide +kernel) (by decide +kernel) (by decide +kernel)
  refine ⟨by decide +kernel, (h (byteKey 16 1)).mpr (Or.inr (by decide +kernel)), fun hno => ?_⟩
  rcases (h (byteKey 16 2)).mp hno with hlt | hlisted
  · exact absurd hlt (by decide +kernel)
  · exact absurd hlisted (by decide +kernel)

/-- The second key is refused and stays in the list of its position. -/
theorem refused_key_listed :
    ¬RefusalUntouched (KeyValueCountingBloomFilter.add (byteKey 16 1)
      (KeyValueCountingBloomFilter.init 8 1 true 1)).state (byteKey 16 2) := by
  intro h
  have hlist := congrArg (fun f => f.storage.listOf 2) (h (by decide +kernel))
  revert hlist
  decide +kernel

end SetSync
