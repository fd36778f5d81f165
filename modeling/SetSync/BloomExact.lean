import SetSync.BloomReopen

/-!
# Removal from the bloom filter

`Exact f S`: each list is the concatenation of the live keys `S` that have its position, each once,
and the bits are the positions of `S`.  An addition keeps this unless it is refused.  A removal at a
position that another live key shares writes back a list that is one byte short, so it keeps it only
where the key is alone (`remove_undoes_add_iff`).

A key that was never added is told apart from the others by the bits alone: where all of its bits are
set, each of its lists is changed                                               (remove_absent_iff)
-/

namespace SetSync

open Program KeyValueCountingBloomFilter

variable {d : Nat}

/-! ## Exact filters -/

/-- **The lists and the bits are those of the keys `S`.** -/
structure Exact (f : KeyValueCountingBloomFilter) (S : Finset (Digest d)) : Prop where
  lists : ∀ p, p < f.filterSize → ∃ keys : List (Digest d), keys.Nodup ∧
    (∀ k, k ∈ keys ↔ k ∈ S ∧ p ∈ f.params.positions k) ∧
    f.storage.table.lookup (uint64Bytes p)
      = if keys = [] then none else some (keys.flatMap Digest.bytes)
  bits : ∀ p, p < f.filterSize →
    (bitTest f.bitArray p = true ↔ ∃ k ∈ S, p ∈ f.params.positions k)

theorem flatMap_bytes_eq_nil (hd : 0 < d) {keys : List (Digest d)} :
    keys.flatMap Digest.bytes = [] ↔ keys = [] := by
  cases keys with
  | nil => simp
  | cons k keys =>
    have hk : k.bytes ≠ [] := fun h => by
      have := k.length_bytes
      rw [h, List.length_nil] at this
      omega
    simp [hk]

section Exactness

variable {q : FilterParams} {f f' : KeyValueCountingBloomFilter} {S : Finset (Digest d)} {p : Nat}
  {k : Digest d}

theorem BloomStored.lookup_eq (h : BloomStored q f) (p : Nat) : f.storage.table.lookup (uint64Bytes p)
    = if f.storage.listOf p = [] then none else some (f.storage.listOf p) := by
  cases hlook : f.storage.table.lookup (uint64Bytes p) with
  | none =>
    rw [if_pos]
    unfold Storage.listOf
    rw [hlook, Option.getD_none]
  | some v =>
    have hmem : uint64Bytes p ∈ f.storage.table := Finmap.mem_of_lookup_eq_some hlook
    rw [if_neg (h.filled p hmem), Storage.listOf, hlook, Option.getD_some]

/-- The lists of an exact filter, as bytes. -/
theorem Exact.listOf (h : Exact f S) (hp : p < f.filterSize) : ∃ keys : List (Digest d), keys.Nodup ∧
    (∀ k, k ∈ keys ↔ k ∈ S ∧ p ∈ f.params.positions k) ∧
    f.storage.listOf p = keys.flatMap Digest.bytes := by
  obtain ⟨keys, hnodup, hmem, hlook⟩ := h.lists p hp
  refine ⟨keys, hnodup, hmem, ?_⟩
  unfold Storage.listOf
  rw [hlook]
  by_cases hnil : keys = []
  · rw [if_pos hnil, hnil]
    rfl
  · rw [if_neg hnil]
    rfl

theorem BloomStored.exact (hd : 0 < d) (h : BloomStored q f)
    (hlists : ∀ p, p < f.filterSize → ∃ keys : List (Digest d), keys.Nodup ∧
      (∀ k, k ∈ keys ↔ k ∈ S ∧ p ∈ f.params.positions k) ∧
      f.storage.listOf p = keys.flatMap Digest.bytes)
    (hbits : ∀ p, p < f.filterSize →
      (bitTest f.bitArray p = true ↔ ∃ k ∈ S, p ∈ f.params.positions k)) : Exact f S := by
  refine ⟨fun p hp => ?_, hbits⟩
  obtain ⟨keys, hnodup, hmem, hlist⟩ := hlists p hp
  refine ⟨keys, hnodup, hmem, ?_⟩
  rw [h.lookup_eq, hlist]
  by_cases hnil : keys = []
  · rw [if_pos ((flatMap_bytes_eq_nil hd).mpr hnil), if_pos hnil]
  · rw [if_neg fun he => hnil ((flatMap_bytes_eq_nil hd).mp he), if_neg hnil]

/-- Without a key, the filter is empty. -/
theorem BloomStored.empty_of_exact (h : BloomStored q f) (he : Exact f (∅ : Finset (Digest d))) :
    f.storage.table = ∅ ∧ ∀ p, bitTest f.bitArray p = false := by
  constructor
  · apply Finmap.ext_lookup
    intro key
    rw [Finmap.lookup_empty, Finmap.lookup_eq_none]
    intro hkey
    obtain ⟨p, hp, rfl⟩ := h.keys key hkey
    obtain ⟨keys, -, hmem, hlist⟩ := he.listOf (h.size_eq ▸ hp)
    have hnil : keys = [] := List.eq_nil_iff_forall_not_mem.mpr fun k hk => by
      simpa using ((hmem k).mp hk).1
    exact h.filled p hkey (by rw [hlist, hnil]; rfl)
  · intro p
    rw [← Bool.not_eq_true]
    intro hbit
    obtain ⟨k, hk, -⟩ := (he.bits p (h.size_eq ▸ (h.bits p hbit).1)).mp hbit
    simp at hk

/-- The keys of a list are those of `S`, so a list has the key when the key is live. -/
theorem Exact.mem_entries (hd : 0 < d) (h : Exact f S) (hp : p < f.filterSize) :
    k ∈ entries d (f.storage.listOf p) ↔ k ∈ S ∧ p ∈ f.params.positions k := by
  obtain ⟨keys, -, hmem, hlist⟩ := h.listOf hp
  rw [hlist, entries_flatMap hd, hmem]

/-! ## One call -/

/-- The key is in none of the lists, and no position comes twice, so the loop gets to its end. -/
theorem listsKey_eq_false {lists : Nat → Bytes} {ps : List Nat} (hps : ps.Nodup)
    (h : ∀ p ∈ ps, k ∉ entries d (lists p)) : listsKey k lists ps = false := by
  induction ps generalizing lists with
  | nil => rfl
  | cons p ps ih =>
    rw [List.nodup_cons] at hps
    unfold listsKey
    rw [decide_eq_false (h p List.mem_cons_self), Bool.false_or]
    apply ih hps.2
    intro r hr
    have hne : r ≠ p := fun he => hps.1 (he ▸ hr)
    rw [Function.update_of_ne hne]
    exact h r (List.mem_cons_of_mem p hr)

/-- A key has a position. -/
theorem FilterParams.exists_position (q : FilterParams) (hc : 1 ≤ q.functionCount) (k : Digest d) :
    ∃ p ps, q.positions k = p :: ps := by
  apply List.exists_cons_of_ne_nil
  intro hnil
  have hlen := congrArg List.length hnil
  simp only [positions, SetSync.positions, List.length_map, List.length_range, List.length_nil] at hlen
  omega

/-- A live key is found in its first list. -/
theorem Exact.add_live (hd : 0 < d) (hq : q.Fits) (hc : 1 ≤ q.functionCount) (h : BloomStored q f)
    (he : Exact f S) (hk : k ∈ S) :
    f.listed k = true ∧ appends k f.storage.listOf (q.positions k) = [] := by
  obtain ⟨p, ps, hps⟩ := q.exists_position hc k
  have hmem : p ∈ q.positions k := by rw [hps]; exact List.mem_cons_self
  have hp : p < f.filterSize := by
    rw [h.size_eq]
    exact lt_of_mem_positions hq.1 hmem
  have hin : k ∈ entries d (f.storage.listOf p) :=
    (he.mem_entries hd hp).mpr ⟨hk, by rwa [h.positions_eq]⟩
  unfold listed
  rw [h.positions_eq, hps]
  exact ⟨by rw [listsKey, decide_eq_true hin, Bool.true_or], by rw [appends, if_pos hin]⟩

/-- A key that is not live is in none of its lists. -/
theorem Exact.add_new (hd : 0 < d) (hq : q.Fits) (h : BloomStored q f) (he : Exact f S) (hk : k ∉ S)
    (hpos : (q.positions k).Nodup) :
    f.listed k = false ∧ appends k f.storage.listOf (q.positions k) = q.positions k := by
  have hl : listsKey k f.storage.listOf (q.positions k) = false := by
    apply listsKey_eq_false hpos
    intro p hp hin
    have hlt : p < f.filterSize := by
      rw [h.size_eq]
      exact lt_of_mem_positions hq.1 hp
    exact hk ((he.mem_entries hd hlt).mp hin).1
  exact ⟨by rw [listed, h.positions_eq]; exact hl, appends_eq hl⟩

/-- **An addition.** -/
theorem bloomAdd_exact (hd : 16 ≤ d) (hq : q.Fits) (hc : 1 ≤ q.functionCount) (h : BloomStored q f)
    (he : Exact f S) (hpos : (q.positions k).Nodup) (hok : k ∈ S ∨ f.full = false) :
    ∃ f', KeyValueCountingBloomFilter.add k f = ⟨.ok (), f', []⟩ ∧ BloomStored q f' ∧
      Exact f' (insert k S) := by
  obtain ⟨f', hrun, hf', hlists, hbits, -⟩ := bloomAdd_lists hd hq h k
  have hpar : f'.params = f.params := hf'.params.trans h.params.symm
  have hsize : f'.filterSize = f.filterSize := hf'.size_eq.trans h.size_eq.symm
  by_cases hk : k ∈ S
  · obtain ⟨hl, happ⟩ := he.add_live (by omega) hq hc h hk
    rw [hl] at hrun
    rw [Finset.insert_eq_of_mem hk]
    refine ⟨f', hrun, hf', hf'.exact (by omega) (fun p hp => ?_) fun p hp => ?_⟩
    · rw [hsize] at hp
      rw [hpar, hlists p (h.size_eq ▸ hp), happ]
      exact he.listOf hp
    · rw [hpar, hbits, sets, hl]
      simp [he.bits p (hsize ▸ hp)]
  · have hroom := hok.resolve_left hk
    obtain ⟨hl, happ⟩ := he.add_new (by omega) hq h hk hpos
    rw [hl, hroom] at hrun
    refine ⟨f', hrun, hf', hf'.exact (by omega) (fun p hp => ?_) fun p hp => ?_⟩
    · rw [hsize] at hp
      obtain ⟨keys, hnodup, hmem, hlist⟩ := he.listOf hp
      rw [hpar, hlists p (h.size_eq ▸ hp), happ, appended_of_nodup hpos, hlist]
      by_cases hpk : p ∈ q.positions k
      · have hnot : k ∉ keys := fun hin => hk ((hmem k).mp hin).1
        refine ⟨keys ++ [k], hnodup.append (List.nodup_singleton k) (by simpa using hnot), fun k' => ?_,
          by simp [hpk]⟩
        rw [List.mem_append, List.mem_singleton, hmem, Finset.mem_insert]
        constructor
        · rintro (⟨h1, h2⟩ | rfl)
          · exact ⟨Or.inr h1, h2⟩
          · exact ⟨Or.inl rfl, by rwa [h.positions_eq]⟩
        · rintro ⟨rfl | h1, h2⟩
          · exact Or.inr rfl
          · exact Or.inl ⟨h1, h2⟩
      · refine ⟨keys, hnodup, fun k' => ?_, by simp [hpk]⟩
        rw [hmem, Finset.mem_insert]
        refine ⟨fun hk' => ⟨Or.inr hk'.1, hk'.2⟩, fun hk' => ⟨hk'.1.resolve_left ?_, hk'.2⟩⟩
        rintro rfl
        exact hpk (h.positions_eq k' ▸ hk'.2)
    · rw [hpar, hbits, sets, hl, hroom]
      simp only [Bool.not_false, Bool.and_self, Bool.true_and, Bool.or_eq_true, decide_eq_true_eq,
        he.bits p (hsize ▸ hp), Finset.mem_insert, exists_eq_or_imp, h.positions_eq]
      exact or_comm

/-- A refused key is in its lists all the same. -/
theorem bloomAdd_refused (hd : 16 ≤ d) (hq : q.Fits) (hc : 1 ≤ q.functionCount) (h : BloomStored q f)
    (he : Exact f S) (hpos : (q.positions k).Nodup) (hk : k ∉ S) (hfull : f.full = true) :
    ∃ e f', KeyValueCountingBloomFilter.add k f = ⟨.error e, f', []⟩ ∧ ¬Exact f' S := by
  obtain ⟨f', hrun, hf', hlists, -, -⟩ := bloomAdd_lists hd hq h k
  obtain ⟨hl, happ⟩ := he.add_new (by omega) hq h hk hpos
  rw [hl, hfull] at hrun
  refine ⟨_, f', hrun, fun he' => ?_⟩
  obtain ⟨p, hp⟩ : ∃ p, p ∈ q.positions k := by
    apply List.exists_mem_of_ne_nil _
    intro hnil
    have := congrArg List.length hnil
    simp [FilterParams.positions, positions] at this
    omega
  have hpn := lt_of_mem_positions hq.1 hp
  obtain ⟨keys, -, -, hlist⟩ := he.listOf (h.size_eq ▸ hpn)
  have hin : k ∈ entries d (f'.storage.listOf p) := by
    rw [hlists p hpn, happ, appended_of_nodup hpos, if_pos hp, hlist]
    have : keys.flatMap Digest.bytes ++ k.bytes = (keys ++ [k]).flatMap Digest.bytes := by simp
    rw [this, entries_flatMap (by omega)]
    simp
  exact hk ((he'.mem_entries (by omega) (hf'.size_eq ▸ hpn)).mp hin).1

/-! ## Removals -/

/-- The other positions are left alone. -/
theorem RemovedAt.frame (hq : q.Fits) {r : Nat} (hp : p < q.filterSize) (hr : r < q.filterSize)
    (hne : r ≠ p) (h : BloomStored q f) {b : Bool} (hat : RemovedAt d p f b f') :
    f'.storage.table.lookup (uint64Bytes r) = f.storage.table.lookup (uint64Bytes r) ∧
      bitTest f'.bitArray r = bitTest f.bitArray r := by
  have hlt := hq.lt
  have hkey : uint64Bytes r ≠ uint64Bytes p := fun he =>
    hne (uint64Bytes_injective (by omega) (by omega) he)
  cases hat with
  | absent _ => exact ⟨rfl, rfl⟩
  | shared _ _ _ => exact ⟨Finmap.lookup_insert_of_ne _ hkey, rfl⟩
  | last _ _ =>
    refine ⟨Finmap.lookup_erase_ne hkey, ?_⟩
    show bitTest (bitClear f.bitArray p) r = _
    rw [bitTest_bitClear _ _ _ (h.lt_bits hq hp), bne_iff_ne.mpr hne.symm, Bool.and_true]

theorem RemovedAll.frame (hd : 16 ≤ d) (hq : q.Fits) {ps : List Nat} {r : Nat}
    (hps : ∀ p ∈ ps, p < q.filterSize) (hr : r < q.filterSize) (hne : r ∉ ps) (h : BloomStored q f)
    {b : Bool} (hall : RemovedAll d ps f b f') :
    f'.storage.table.lookup (uint64Bytes r) = f.storage.table.lookup (uint64Bytes r) ∧
      bitTest f'.bitArray r = bitTest f.bitArray r := by
  induction hall with
  | nil => exact ⟨rfl, rfl⟩
  | cons first _ ih =>
    rw [List.mem_cons, not_or] at hne
    have hp := hps _ List.mem_cons_self
    obtain ⟨hlook, hbit⟩ := first.frame hq hp hr hne.1 h
    obtain ⟨hlook', hbit'⟩ := ih (fun p hp => hps p (List.mem_cons_of_mem _ hp)) hne.2
      (first.stored hd hq hp h)
    exact ⟨hlook'.trans hlook, hbit'.trans hbit⟩

/-- Where the key is alone, the list goes with its bit. -/
theorem RemovedAll.alone (hd : 16 ≤ d) (hq : q.Fits) {ps : List Nat} (hps : ∀ p ∈ ps, p < q.filterSize)
    (hnodup : ps.Nodup) (h : BloomStored q f)
    (hone : ∀ p ∈ ps, ∃ result, f.storage.table.lookup (uint64Bytes p) = some result ∧
      result.length < 2 * d) {b : Bool} (hall : RemovedAll d ps f b f') :
    b = !ps.isEmpty ∧ ∀ r ∈ ps, f'.storage.table.lookup (uint64Bytes r) = none ∧
      bitTest f'.bitArray r = false := by
  induction hall with
  | nil => exact ⟨rfl, fun r hr => by simp at hr⟩
  | @cons p ps f₀ f₁ f₂ b b' first rest ih =>
    have hp := hps p List.mem_cons_self
    have hrest : ∀ r ∈ ps, r < q.filterSize := fun r hr => hps r (List.mem_cons_of_mem p hr)
    rw [List.nodup_cons] at hnodup
    have hfirst : b = true ∧ f₁.storage.table.lookup (uint64Bytes p) = none ∧
        bitTest f₁.bitArray p = false := by
      obtain ⟨result, hlook, hlen⟩ := hone p List.mem_cons_self
      cases first with
      | absent hno => rw [hno] at hlook; cases hlook
      | shared hsome hmany _ =>
        rw [hsome, Option.some.injEq] at hlook
        rw [hlook] at hmany
        omega
      | last _ _ =>
        refine ⟨rfl, Finmap.lookup_erase _ _, ?_⟩
        show bitTest (bitClear f₀.bitArray p) p = false
        rw [bitTest_bitClear _ _ _ (h.lt_bits hq hp)]
        simp
    obtain ⟨rfl, hlook, hbit⟩ := hfirst
    have h₁ := first.stored hd hq hp h
    obtain ⟨-, hall⟩ := ih hrest hnodup.2 h₁ fun r hr => by
      rw [(first.frame hq hp (hrest r hr) (fun he => hnodup.1 (he ▸ hr)) h).1]
      exact hone r (List.mem_cons_of_mem p hr)
    refine ⟨by simp, fun r hr => ?_⟩
    rcases List.mem_cons.mp hr with rfl | hr
    · obtain ⟨hl, hb⟩ := rest.frame hd hq hrest hp hnodup.1 h₁
      rw [hl, hb]
      exact ⟨hlook, hbit⟩
    · exact hall r hr

/-- A list with several keys loses one byte. -/
theorem RemovedAll.short (hd : 16 ≤ d) (hq : q.Fits) {ps : List Nat} (hps : ∀ p ∈ ps, p < q.filterSize)
    (hnodup : ps.Nodup) (h : BloomStored q f) (hp : p ∈ ps) {result : Bytes}
    (hlook : f.storage.table.lookup (uint64Bytes p) = some result) (hmany : 2 * d ≤ result.length)
    {b : Bool} (hall : RemovedAll d ps f b f') :
    (f'.storage.listOf p).length + 1 = result.length := by
  induction hall with
  | nil => cases hp
  | @cons r ps f₀ f₁ f₂ b b' first rest ih =>
    have hr := hps r List.mem_cons_self
    have hrest : ∀ r ∈ ps, r < q.filterSize := fun r hr => hps r (List.mem_cons_of_mem _ hr)
    rw [List.nodup_cons] at hnodup
    have h₁ := first.stored hd hq hr h
    rcases List.mem_cons.mp hp with rfl | hp
    · unfold Storage.listOf
      rw [(rest.frame hd hq hrest hr hnodup.1 h₁).1]
      cases first with
      | absent hno => rw [hno] at hlook; cases hlook
      | shared hsome _ hlen =>
        rw [hsome, Option.some.injEq] at hlook
        rw [Finmap.lookup_insert, Option.getD_some, hlen, hlook]
      | last hsome hfew =>
        rw [hsome, Option.some.injEq] at hlook
        rw [hlook] at hfew
        omega
    · apply ih hrest hnodup.2 h₁ hp
      rw [(first.frame hq hr (hrest p hp) (fun he => hnodup.1 (he ▸ hp)) h).1]
      exact hlook

/-- No other live key has a position of the key. -/
def Alone (f : KeyValueCountingBloomFilter) (S : Finset (Digest d)) (k : Digest d) : Prop :=
  ∀ k' ∈ S, k' ≠ k → ∀ p ∈ f.params.positions k, p ∉ f.params.positions k'

instance (f : KeyValueCountingBloomFilter) (S : Finset (Digest d)) (k : Digest d) :
    Decidable (Alone f S k) :=
  inferInstanceAs (Decidable (∀ k' ∈ S, k' ≠ k → ∀ p ∈ f.params.positions k, p ∉ f.params.positions k'))

/-- **A removal of a live key.** -/
theorem bloomRemove_exact (hd : 16 ≤ d) (hq : q.Fits) (hc : 1 ≤ q.functionCount) (h : BloomStored q f)
    (he : Exact f S) (hpos : (q.positions k).Nodup) (hk : k ∈ S) :
    ∃ b f', KeyValueCountingBloomFilter.remove k f = ⟨.ok b, f', []⟩ ∧ BloomStored q f' ∧
      (Alone f S k → b = true ∧ Exact f' (S.erase k)) ∧ (¬Alone f S k → ¬Exact f' (S.erase k)) := by
  have hps : ∀ p ∈ q.positions k, p < q.filterSize := fun p hp => lt_of_mem_positions hq.1 hp
  have hset : f.allSet k = true := by
    unfold allSet
    rw [decide_eq_true_eq]
    intro p hp
    rw [he.bits p (h.size_eq ▸ hps p (h.positions_eq k ▸ hp))]
    exact ⟨k, hk, hp⟩
  rcases remove_cases hd hq h k with ⟨hno, -⟩ | ⟨-, b, f', hrun, hall⟩
  · rw [hset] at hno
    cases hno
  have hf' := hall.stored hd hq hps h
  have hpar : f'.params = f.params := hf'.params.trans h.params.symm
  have hsize : f'.filterSize = f.filterSize := hf'.size_eq.trans h.size_eq.symm
  refine ⟨b, f', hrun, hf', fun halone => ?_, fun hshared he' => ?_⟩
  · -- each list of the key is the key
    have hone : ∀ p ∈ q.positions k, ∃ result, f.storage.table.lookup (uint64Bytes p) = some result ∧
        result.length < 2 * d := by
      intro p hp
      obtain ⟨keys, hnodup, hmem, hlook⟩ := he.lists p (h.size_eq ▸ hps p hp)
      have hkp : p ∈ f.params.positions k := by rwa [h.positions_eq]
      have hkeys : keys = [k] := by
        refine (List.perm_singleton.mp ((List.perm_ext_iff_of_nodup hnodup (List.nodup_singleton k)).mpr
          fun k' => ?_))
        rw [hmem, List.mem_singleton]
        refine ⟨fun hk' => ?_, fun heq => heq ▸ ⟨hk, hkp⟩⟩
        by_contra hne
        exact halone k' hk'.1 hne p hkp hk'.2
      refine ⟨k.bytes, ?_, by rw [k.length_bytes]; omega⟩
      rw [hlook, hkeys]
      simp
    obtain ⟨hb, hgone⟩ := hall.alone hd hq hps hpos h hone
    refine ⟨?_, hf'.exact (by omega) (fun p hp => ?_) fun p hp => ?_⟩
    · rw [hb, Bool.not_eq_true', List.isEmpty_eq_false_iff]
      intro hnil
      have := congrArg List.length hnil
      simp [FilterParams.positions, positions] at this
      omega
    · rw [hsize] at hp
      rw [hpar]
      by_cases hpk : p ∈ q.positions k
      · refine ⟨[], List.nodup_nil, fun k' => ?_, ?_⟩
        · simp only [List.not_mem_nil, false_iff, Finset.mem_erase, not_and, and_imp]
          exact fun hne hk' => halone k' hk' hne p (by rwa [h.positions_eq])
        · unfold Storage.listOf
          rw [(hgone p hpk).1]
          rfl
      · obtain ⟨keys, hnodup, hmem, hlist⟩ := he.listOf hp
        refine ⟨keys, hnodup, fun k' => ?_, ?_⟩
        · rw [hmem, Finset.mem_erase]
          refine ⟨fun hk' => ⟨⟨?_, hk'.1⟩, hk'.2⟩, fun hk' => ⟨hk'.1.2, hk'.2⟩⟩
          rintro rfl
          exact hpk (h.positions_eq k' ▸ hk'.2)
        · unfold Storage.listOf
          rw [(hall.frame hd hq hps (h.size_eq ▸ hp) hpk h).1]
          exact hlist
    · rw [hsize] at hp
      rw [hpar]
      by_cases hpk : p ∈ q.positions k
      · rw [(hgone p hpk).2]
        simp only [Bool.false_eq_true, false_iff, not_exists, not_and, Finset.mem_erase, and_imp]
        exact fun k' hne hk' => halone k' hk' hne p (by rwa [h.positions_eq])
      · rw [(hall.frame hd hq hps (h.size_eq ▸ hp) hpk h).2, he.bits p hp]
        refine exists_congr fun k' => and_congr_left fun hk' => ?_
        rw [Finset.mem_erase]
        refine (and_iff_right ?_).symm
        rintro rfl
        exact hpk (h.positions_eq k' ▸ hk')
  · -- a list with two keys
    unfold Alone at hshared
    push Not at hshared
    obtain ⟨k', hk', hne, p, hp, hp'⟩ := hshared
    have hpk : p ∈ q.positions k := h.positions_eq k ▸ hp
    have hpn : p < f.filterSize := h.size_eq ▸ hps p hpk
    obtain ⟨keys, hnodup, hmem, hlook⟩ := he.lists p hpn
    have htwo : 2 ≤ keys.length := by
      have hsub : [k, k'] ⊆ keys := by
        intro x hx
        rcases List.mem_pair.mp hx with rfl | rfl
        · exact (hmem x).mpr ⟨hk, hp⟩
        · exact (hmem x).mpr ⟨hk', hp'⟩
      have hpair : [k, k'].Nodup := by simp [Ne.symm hne]
      exact (hpair.subperm hsub).length_le
    have hnil : keys ≠ [] := fun hnil => by
      rw [hnil, List.length_nil] at htwo
      omega
    rw [if_neg hnil] at hlook
    have hbig : 2 * d ≤ (keys.flatMap Digest.bytes).length := by
      rw [length_flatMap_bytes]
      exact Nat.mul_le_mul_right d htwo
    have hshort := hall.short hd hq hps hpos h hpk hlook hbig
    obtain ⟨keys', -, -, hlist'⟩ := he'.listOf (hsize ▸ hpn)
    -- no multiple of the digest size is one less than another one
    rw [hlist', length_flatMap_bytes, length_flatMap_bytes] at hshort
    have hmod : (keys'.length * d + 1) % d = 0 := by rw [hshort, Nat.mul_mod_left]
    rw [Nat.mul_add_mod_self_right, Nat.mod_eq_of_lt (by omega)] at hmod
    cases hmod

end Exactness

/-! ## Runs with live keys -/

namespace BloomOp

/-- The live keys after the call. -/
def live (S : Finset (Digest d)) : BloomOp d → Finset (Digest d)
  | add k => insert k S
  | remove k => S.erase k
  | clear => ∅

/-- The call, beside the live keys: a call that raises an exception leaves them as they are. -/
def execLive (op : BloomOp d) :
    Prog (KeyValueCountingBloomFilter × Finset (Digest d)) (Digest d × Digest d) Exn (Option Bool) := do
  let r ← Prog.zoom Prod.fst (fun f p => (f, p.2)) op.exec
  Prog.modify fun p => (p.1, op.live p.2)
  pure r

/-- Removals are of live keys, and the positions of an added key are pairwise different. -/
def proper : BloomOp d → KeyValueCountingBloomFilter × Finset (Digest d) → Bool
  | add k, (f, _) => decide (f.params.positions k).Nodup
  | remove k, (_, S) => decide (k ∈ S)
  | clear, _ => true

/-- A key is added that is live or not refused, or removed that is alone at its positions. -/
def undoable : BloomOp d → KeyValueCountingBloomFilter × Finset (Digest d) → Bool
  | add k, (f, S) => decide (k ∈ S) || !f.full
  | remove k, (f, S) => decide (Alone f S k)
  | clear, _ => true

end BloomOp

/-- What a call is to leave behind, and a removal to answer. -/
structure Undone (op : BloomOp d) (r : Run (KeyValueCountingBloomFilter × Finset (Digest d))
    (Digest d × Digest d) Exn (Option Bool)) : Prop where
  exact : Exact r.state.1 r.state.2
  answer : ∀ k, op = .remove k → r.outcome = .ok (some true)
  empty : r.state.2 = ∅ → r.state.1.storage.table = ∅ ∧ ∀ p, bitTest r.state.1.bitArray p = false

section Runs

variable {q : FilterParams} {p : KeyValueCountingBloomFilter × Finset (Digest d)}

/-- The filter is exact for the live keys, each of which has positions of its own. -/
structure Live (q : FilterParams) (p : KeyValueCountingBloomFilter × Finset (Digest d)) : Prop where
  stored : BloomStored q p.1
  exact : Exact p.1 p.2
  nodup : ∀ k ∈ p.2, (q.positions k).Nodup

theorem execLive_of_ok {op : BloomOp d} {r : Option Bool} {f' : KeyValueCountingBloomFilter}
    (h : op.exec p.1 = ⟨.ok r, f', []⟩) : op.execLive p = ⟨.ok r, (f', op.live p.2), []⟩ := by
  unfold BloomOp.execLive
  rw [Prog.bind_of_ok (Prog.zoom_of_eq h)]
  rfl

theorem Live.undone {op : BloomOp d} {r : Option Bool} {f' : KeyValueCountingBloomFilter}
    (h : BloomStored q f') (he : Exact f' (op.live p.2)) (hr : ∀ k, op = .remove k → r = some true) :
    Undone op ⟨.ok r, (f', op.live p.2), []⟩ := by
  refine ⟨he, fun k hk => by rw [hr k hk], fun hempty => ?_⟩
  have hnone : op.live p.2 = ∅ := hempty
  rw [hnone] at he
  exact h.empty_of_exact he

theorem Live.step (hd : 16 ≤ d) (hq : q.Fits) (hc : 1 ≤ q.functionCount) (h : Live q p)
    (op : BloomOp d) (hop : op.proper p = true) :
    (Undone op (op.execLive p) ↔ op.undoable p = true) ∧
      (op.undoable p = true → Live q (op.execLive p).state) := by
  obtain ⟨f, S⟩ := p
  cases op with
  | add k =>
    have hpos : (q.positions k).Nodup := by
      rw [← h.stored.positions_eq]
      exact of_decide_eq_true hop
    unfold BloomOp.undoable
    rw [Bool.or_eq_true, decide_eq_true_eq, Bool.not_eq_true']
    by_cases hok : k ∈ S ∨ f.full = false
    · obtain ⟨f', hrun, hf', he'⟩ := bloomAdd_exact hd hq hc h.stored h.exact hpos hok
      have hexec : (BloomOp.add k).exec f = ⟨.ok none, f', []⟩ := by
        rw [BloomOp.exec, Prog.bind_of_ok hrun]
        rfl
      rw [execLive_of_ok (p := (f, S)) hexec]
      refine ⟨iff_of_true (Live.undone (p := (f, S)) hf' he' fun k' hk' => by cases hk') hok,
        fun _ => ⟨hf', he', fun k' hk' => ?_⟩⟩
      rcases Finset.mem_insert.mp hk' with rfl | hk'
      · exact hpos
      · exact h.nodup k' hk'
    · obtain ⟨hk, hfull⟩ := not_or.mp hok
      rw [Bool.not_eq_false] at hfull
      obtain ⟨e, f', hrun, hnot⟩ := bloomAdd_refused hd hq hc h.stored h.exact hpos hk hfull
      have hexec : (BloomOp.add k).execLive (f, S) = ⟨.error e, (f', S), []⟩ := by
        have hadd : (BloomOp.add k).exec f = ⟨.error e, f', []⟩ := by
          rw [BloomOp.exec, Prog.bind_of_error hrun]
        unfold BloomOp.execLive
        rw [Prog.bind_of_error (Prog.zoom_of_eq hadd)]
      rw [hexec]
      exact ⟨iff_of_false (fun hu => hnot hu.exact) hok, fun hc => absurd hc hok⟩
  | remove k =>
    have hk : k ∈ S := of_decide_eq_true hop
    obtain ⟨b, f', hrun, hf', halone, hshared⟩ :=
      bloomRemove_exact hd hq hc h.stored h.exact (h.nodup k hk) hk
    have hexec : (BloomOp.remove k).exec f = ⟨.ok (some b), f', []⟩ := by
      rw [BloomOp.exec, Prog.bind_of_ok hrun]
      rfl
    rw [execLive_of_ok (p := (f, S)) hexec, BloomOp.undoable, decide_eq_true_eq]
    by_cases ha : Alone f S k
    · obtain ⟨rfl, he'⟩ := halone ha
      refine ⟨iff_of_true (Live.undone (p := (f, S)) hf' he' fun _ _ => rfl) ha, fun _ => ⟨hf', he',
        fun k' hk' => h.nodup k' (Finset.mem_of_mem_erase hk')⟩⟩
    · exact ⟨iff_of_false (fun hu => hshared ha hu.exact) ha, fun hc => absurd hc ha⟩
  | clear =>
    obtain ⟨f', hrun, hf', hempty, -, hbits⟩ := bloomClear_stored (d := d) h.stored
    have hexec : (BloomOp.clear : BloomOp d).exec f = ⟨.ok none, f', []⟩ := by
      rw [BloomOp.exec, Prog.bind_of_ok hrun]
      rfl
    have he' : Exact f' (∅ : Finset (Digest d)) := by
      refine ⟨fun p _ => ⟨[], List.nodup_nil, fun k => by simp, ?_⟩, fun p _ => ?_⟩
      · rw [hempty, if_pos rfl]
        exact Finmap.lookup_empty _
      · rw [hbits]
        simp
    rw [execLive_of_ok (p := (f, S)) hexec]
    exact ⟨iff_of_true (Live.undone (p := (f, S)) hf' he' fun k' hk' => by cases hk') rfl,
      fun _ => ⟨hf', he', fun k' hk' => by simp [BloomOp.live] at hk'⟩⟩

/-- A new filter and no key. -/
def emptyFilter (d : Nat) (q : FilterParams) : KeyValueCountingBloomFilter × Finset (Digest d) :=
  (KeyValueCountingBloomFilter.init q.filterSize q.functionCount q.hardMaximum q.maxElements, ∅)

/-- **Removal undoes addition exactly when removed keys are alone at their positions**, and no new key
is refused. -/
theorem remove_undoes_add_iff (hd : 16 ≤ d) (q : FilterParams) (hq : q.Fits) (hc : 1 ≤ q.functionCount)
    (ops : List (BloomOp d))
    (hops : Prog.Throughout BloomOp.execLive BloomOp.proper (emptyFilter d q) ops = true) :
    Prog.EachRun BloomOp.execLive Undone (emptyFilter d q) ops ↔
      Prog.Throughout BloomOp.execLive BloomOp.undoable (emptyFilter d q) ops = true := by
  refine Prog.eachRun_iff (I := Live q) (fun op _ p h hop => h.step hd hq hc op hop) ?_ hops
  refine ⟨BloomStored.init q, ⟨fun p _ => ⟨[], List.nodup_nil, fun k => by simp [emptyFilter], rfl⟩,
    fun p _ => ?_⟩, fun k hk => by simp [emptyFilter] at hk⟩
  show bitTest (List.replicate _ 0) p = true ↔ _
  rw [bitTest_replicate]
  simp [emptyFilter]

theorem remove_undoes_add_sample :
    Prog.EachRun BloomOp.execLive Undone (emptyFilter 16 ⟨16, 2, false, 0⟩)
        [.add (wordKey 1 1), .add (wordKey 4 1), .remove (wordKey 1 1)] ↔
      Prog.Throughout BloomOp.execLive BloomOp.undoable (emptyFilter 16 ⟨16, 2, false, 0⟩)
        [.add (wordKey 1 1), .add (wordKey 4 1), .remove (wordKey 1 1)] = true :=
  remove_undoes_add_iff (by decide) ⟨16, 2, false, 0⟩ ⟨by decide, by decide⟩ (by decide) _
    (by decide +kernel)

/-- Two keys share a position: the list that is left has 31 bytes. -/
theorem shared_position_not_undone :
    Prog.Throughout BloomOp.execLive BloomOp.proper (emptyFilter 16 ⟨16, 2, false, 0⟩)
        [.add (wordKey 1 1), .add (wordKey 2 1), .remove (wordKey 1 1)] = true ∧
      ¬Prog.EachRun BloomOp.execLive Undone (emptyFilter 16 ⟨16, 2, false, 0⟩)
        [.add (wordKey 1 1), .add (wordKey 2 1), .remove (wordKey 1 1)] := by
  refine ⟨by decide +kernel, fun h => ?_⟩
  obtain ⟨keys, -, -, hlist⟩ := h.2.2.1.exact.listOf (p := 3) (by decide +kernel)
  have hlen := congrArg List.length hlist
  rw [length_flatMap_bytes] at hlen
  have hleft : (Storage.listOf (BloomOp.execLive (.remove (wordKey 1 1)) (BloomOp.execLive
      (.add (wordKey 2 1)) (BloomOp.execLive (.add (wordKey 1 1))
        (emptyFilter 16 ⟨16, 2, false, 0⟩)).state).state).state.1.storage 3).length = 31 := by
    decide +kernel
  omega

end Runs

/-! ## Removing a key that was never added -/

section NeverAdded

variable {q : FilterParams} {f : KeyValueCountingBloomFilter}

/-- Keys added one after the other; an exception is caught. -/
def addKeys (keys : List (Digest d)) (f : KeyValueCountingBloomFilter) : KeyValueCountingBloomFilter :=
  keys.foldl (fun f key => (KeyValueCountingBloomFilter.add key f).state) f

/-- The keys whose bits were set. -/
def accepted : List (Digest d) → KeyValueCountingBloomFilter → List (Digest d)
  | [], _ => []
  | key :: keys, f =>
    (if f.sets key then [key] else [])
      ++ accepted keys (KeyValueCountingBloomFilter.add key f).state

theorem addKeys_bits (hd : 16 ≤ d) (hq : q.Fits) (keys : List (Digest d)) (h : BloomStored q f) :
    BloomStored q (addKeys keys f) ∧ ∀ p, bitTest (addKeys keys f).bitArray p = true ↔
      bitTest f.bitArray p = true ∨ ∃ k ∈ accepted keys f, p ∈ q.positions k := by
  induction keys generalizing f with
  | nil => exact ⟨h, fun p => by simp [addKeys, accepted]⟩
  | cons key keys ih =>
    obtain ⟨f', hrun, hf', -, hbits, -⟩ := bloomAdd_lists hd hq h key
    have hstate : (KeyValueCountingBloomFilter.add key f).state = f' := by rw [hrun]
    obtain ⟨hstored, hall⟩ := ih hf'
    have hcons : addKeys (key :: keys) f = addKeys keys f' := by rw [← hstate]; rfl
    rw [hcons, accepted, hstate]
    refine ⟨hstored, fun p => ?_⟩
    rw [hall, hbits]
    cases hs : f.sets key <;> simp [or_assoc]

/-- The lists only get shorter. -/
theorem RemovedAt.cells_le (hq : q.Fits) {p : Nat} (hp : p < q.filterSize) (h : BloomStored q f)
    {b : Bool} {f' : KeyValueCountingBloomFilter} (hat : RemovedAt d p f b f') {r : Nat} (hr : r < q.filterSize) :
    (f'.storage.listOf r).length ≤ (f.storage.listOf r).length := by
  by_cases hne : r = p
  · subst hne
    cases hat with
    | absent _ => exact Nat.le_refl _
    | shared hlook _ hlen =>
      simp only [Storage.listOf, Finmap.lookup_insert, hlook, Option.getD_some]
      omega
    | last _ _ =>
      simp only [Storage.listOf, Finmap.lookup_erase, Option.getD_none]
      exact Nat.zero_le _
  · rw [Storage.listOf, Storage.listOf, (hat.frame hq hp hr hne h).1]

theorem RemovedAll.cells_le (hd : 16 ≤ d) (hq : q.Fits) {ps : List Nat}
    (hps : ∀ p ∈ ps, p < q.filterSize) (h : BloomStored q f) {b : Bool}
    {f' : KeyValueCountingBloomFilter} (hall : RemovedAll d ps f b f') {r : Nat} (hr : r < q.filterSize) :
    (f'.storage.listOf r).length ≤ (f.storage.listOf r).length := by
  induction hall with
  | nil => exact Nat.le_refl _
  | cons first _ ih =>
    have hp := hps _ List.mem_cons_self
    exact (ih (fun p hp => hps p (List.mem_cons_of_mem _ hp)) (first.stored hd hq hp h)).trans
      (first.cells_le hq hp h hr)

/-- A removal that gets past its test changes the first list. -/
theorem RemovedAll.changes (hd : 16 ≤ d) (hq : q.Fits) {p : Nat} {ps : List Nat}
    (hps : ∀ r ∈ p :: ps, r < q.filterSize) (h : BloomStored q f) (hlist : f.storage.listOf p ≠ [])
    {b : Bool} {f' : KeyValueCountingBloomFilter} (hall : RemovedAll d (p :: ps) f b f') : f' ≠ f := by
  have hp := hps p List.mem_cons_self
  cases hall with
  | cons first rest =>
    have hle := rest.cells_le hd hq (fun r hr => hps r (List.mem_cons_of_mem p hr))
      (first.stored hd hq hp h) hp
    rintro rfl
    cases first with
    | absent hno =>
      rw [Storage.listOf, hno] at hlist
      exact hlist rfl
    | shared hlook _ hlen =>
      simp only [Storage.listOf, Finmap.lookup_insert, hlook, Option.getD_some] at hle
      omega
    | last _ _ =>
      simp only [Storage.listOf, Finmap.lookup_erase, Option.getD_none, List.length_nil] at hle
      exact hlist (List.eq_nil_of_length_eq_zero (Nat.le_zero.mp hle))

/-- **Removing a key harms nobody exactly when it has a position of its own**: one that no accepted key
has. -/
theorem remove_absent_iff (hd : 16 ≤ d) (q : FilterParams) (hq : q.Fits) (hc : 1 ≤ q.functionCount)
    (keys : List (Digest d)) (key : Digest d) :
    KeyValueCountingBloomFilter.remove key (addKeys keys (KeyValueCountingBloomFilter.init q.filterSize
        q.functionCount q.hardMaximum q.maxElements))
      = ⟨.ok false, addKeys keys (KeyValueCountingBloomFilter.init q.filterSize q.functionCount
          q.hardMaximum q.maxElements), []⟩ ↔
    ∃ p ∈ q.positions key, ∀ k ∈ accepted keys (KeyValueCountingBloomFilter.init q.filterSize
      q.functionCount q.hardMaximum q.maxElements), p ∉ q.positions k := by
  obtain ⟨h, hbits⟩ := addKeys_bits hd hq keys (BloomStored.init q)
  generalize addKeys keys (KeyValueCountingBloomFilter.init q.filterSize q.functionCount q.hardMaximum
    q.maxElements) = f at *
  have hbit : ∀ p, bitTest f.bitArray p = true ↔ ∃ k ∈ accepted keys (KeyValueCountingBloomFilter.init
      q.filterSize q.functionCount q.hardMaximum q.maxElements), p ∈ q.positions k := by
    intro p
    rw [hbits]
    apply or_iff_right
    intro hinit
    rw [show bitTest (KeyValueCountingBloomFilter.init q.filterSize q.functionCount q.hardMaximum
      q.maxElements).bitArray p = false from bitTest_replicate _ p] at hinit
    cases hinit
  have hset : f.allSet key = false ↔ ∃ p ∈ q.positions key, ∀ k ∈ accepted keys
      (KeyValueCountingBloomFilter.init q.filterSize q.functionCount q.hardMaximum q.maxElements),
      p ∉ q.positions k := by
    unfold allSet
    rw [decide_eq_false_iff_not, h.positions_eq]
    push Not
    refine exists_congr fun p => and_congr_right fun _ => ?_
    rw [Ne, hbit p]
    push Not
    rfl
  rw [← hset]
  rcases remove_cases hd hq h key with ⟨hno, hrun⟩ | ⟨hyes, b, f', hrun, hall⟩
  · exact iff_of_true hrun hno
  · refine iff_of_false (fun he => ?_) (by rw [hyes]; decide)
    obtain ⟨p, ps, hps⟩ := q.exists_position hc key
    rw [hps] at hall
    have hlt : ∀ r ∈ p :: ps, r < q.filterSize := fun r hr => lt_of_mem_positions hq.1 (hps ▸ hr)
    have hp : p ∈ f.params.positions key := by
      rw [h.positions_eq, hps]
      exact List.mem_cons_self
    have hlist := (h.bits p (of_decide_eq_true hyes p hp)).2
    rw [hrun] at he
    exact hall.changes hd hq hlt h hlist (congrArg Run.state he)

theorem remove_absent_sample :
    KeyValueCountingBloomFilter.remove (wordKey 4 1) (addKeys [wordKey 1 1, wordKey 2 1]
        (KeyValueCountingBloomFilter.init 16 2 false 0))
      = ⟨.ok false, addKeys [wordKey 1 1, wordKey 2 1]
          (KeyValueCountingBloomFilter.init 16 2 false 0), []⟩ ↔
    ∃ p ∈ FilterParams.positions ⟨16, 2, false, 0⟩ (wordKey 4 1),
      ∀ k ∈ accepted [wordKey 1 1, wordKey 2 1] (KeyValueCountingBloomFilter.init 16 2 false 0),
        p ∉ FilterParams.positions ⟨16, 2, false, 0⟩ k :=
  remove_absent_iff (by decide) ⟨16, 2, false, 0⟩ ⟨by decide, by decide⟩ (by decide) _ _

/-- A false positive: the key that was added is not found any more. -/
theorem false_positive_removed :
    wordKey 17 1 ∉ [wordKey 1 1] ∧ (positions 16 2 (wordKey 1 1)).Nodup ∧
      (KeyValueCountingBloomFilter.remove (wordKey 17 1) (addKeys [wordKey 1 1]
        (KeyValueCountingBloomFilter.init 16 2 false 0))).outcome ≠ .ok false ∧
      (KeyValueCountingBloomFilter.contains (wordKey 1 1) (KeyValueCountingBloomFilter.remove
        (wordKey 17 1) (addKeys [wordKey 1 1]
          (KeyValueCountingBloomFilter.init 16 2 false 0))).state).outcome = .ok false := by
  decide +kernel

end NeverAdded

end SetSync
