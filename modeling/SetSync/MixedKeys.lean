import SetSync.TrieRefinement

/-!
# Keys that are hashes

A key is any string of a digest's length, and leaves and inner nodes are stored side by side under their
hashes.  A run of `add` keeps its keys as long as none of them is the hash of an inner node at that time
(`keys_kept`).  `InnerHash` speaks about the keys alone, by way of `MerklePair`: the step lemma shows
that the pairs an insertion hashes are those of the trie over the keys before and after it
(`add_unmixed`).
-/

namespace SetSync

open Program BitTrie

variable {d : Nat}

/-- The hashes of two children in the trie over `ks`. -/
def ChildPair (hash : CryptoHash d) (ks : List (Digest d)) (p : Digest d × Digest d) : Prop :=
  MerklePair Digest.bit hash.pair {k | k ∈ ks} p.1 p.2

/-- `x` is the hash of an inner node of the trie over `ks`. -/
def InnerHash (hash : CryptoHash d) (ks : List (Digest d)) (x : Digest d) : Prop :=
  ∃ p, ChildPair hash ks p ∧ hash.pair p.1 p.2 = x

/-- The digest function is collision free on the child pairs of the run. -/
def ChildPairsDiffer (hash : CryptoHash d) (ks : List (Digest d)) : Prop :=
  ∀ pre pre', pre <+: ks → pre' <+: ks → ∀ p p', ChildPair hash pre p → ChildPair hash pre' p' →
    hash.pair p.1 p.2 = hash.pair p'.1 p'.2 → p = p'

/-- `k` is not the hash of an inner node, and once it is there no key is one. -/
def Unmixed (hash : CryptoHash d) (ks : List (Digest d)) (k : Digest d) : Prop :=
  ¬InnerHash hash ks k ∧ ∀ x ∈ ks ++ [k], ¬InnerHash hash (ks ++ [k]) x

section Runs

variable (hash : CryptoHash d) (fresh : Digest d) (fuel : Nat)

/-- The calls `add(k)`, one after the other, on an empty storage. -/
def afterAdds (ks : List (Digest d)) : TrieState d :=
  ks.foldl (fun s k => (KeyValueTrie.add hash fresh fuel k true s).state) (KeyValueTrie.empty d)

/-- `add` has returned true for the key. -/
def Added (ks : List (Digest d)) (k : Digest d) : Prop :=
  ∃ pre post, ks = pre ++ k :: post ∧
    (KeyValueTrie.add hash fresh fuel k true (afterAdds hash fresh fuel pre)).outcome = .ok true

/-- At every point of the run, the keys that were added are leaves below the root. -/
def KeysKept (ks : List (Digest d)) : Prop :=
  ∀ pre, pre <+: ks → ∀ k, Added hash fresh fuel pre k →
    (KeyValueTrie.contains k (afterAdds hash fresh fuel pre)).outcome = .ok .LEAF_NODE ∧
      Reaches (afterAdds hash fresh fuel pre) k

end Runs

/-! ## One insertion -/

/-- The storage holds the trie over `ks`, and no key is the hash of an inner node. -/
structure Held (hash : CryptoHash d) (ks : List (Digest d)) (s : TrieState d) : Prop where
  unmixed : ∀ x ∈ ks, ¬InnerHash hash ks x
  represents : ∃ t, Represents hash (ChildPair hash ks) (· ∈ ks) s ks.toFinset t

section Step

variable {hash : CryptoHash d} (fresh : Digest d) {fuel : Nat} {ks : List (Digest d)} {k : Digest d}
  {s : TrieState d}

theorem separated_of_unmixed {E : Digest d × Digest d → Prop} {K : Digest d → Prop}
    (hinj : ∀ p p', E p → E p' → hash.pair p.1 p.2 = hash.pair p'.1 p'.2 → p = p')
    (hfresh : ∀ p, E p → ¬K (hash.pair p.1 p.2)) : Separated hash.pair (Hashes E) K where
  inj hx hy he := Prod.mk.inj (hinj _ _ hx hy he)
  fresh := by
    rintro k x y hk hp rfl
    exact hfresh _ hp hk

theorem Held.separated (hc : ChildPairsDiffer hash ks) (h : Held hash ks s) :
    Separated hash.pair (Hashes (ChildPair hash ks)) (· ∈ ks) :=
  separated_of_unmixed (hc ks ks (List.prefix_refl ks) (List.prefix_refl ks))
    fun p hp hmem => h.unmixed _ hmem ⟨p, hp, rfl⟩

/-- The trie that an insertion builds hashes the pairs of its keys. -/
theorem granted_of_keys {E : Digest d × Digest d → Prop} {K : Digest d → Prop}
    {gs : List (Frame (Digest d))} {u : Trie (Digest d)} {c : Nat}
    (hh : Hashed hash.pair (Hashes E) K (plug gs u))
    (hat : SplitsAt Digest.bit (leafMask d) hash.pair (Hashes E) K gs u k c)
    (hkeys : ∀ x, x ∈ (plug gs u).keys ↔ x ∈ ks) (hE : ∀ p, ChildPair hash (ks ++ [k]) p → E p) :
    Hashes E ((splitFrame Digest.bit c u k).children u.label).1
        ((splitFrame Digest.bit c u k).children u.label).2 ∧
      Rehashed hash.pair (Hashes E) gs (split Digest.bit hash.pair c u k) := by
  -- as far as the labels go, any pair may be hashed
  have hany : ∀ {v : Trie (Digest d)}, Hashed hash.pair (Hashes E) K v →
      Hashed hash.pair (fun _ _ => True) (fun _ => True) v :=
    fun hv => hv.mono (fun _ _ _ => trivial) fun _ _ => trivial
  have hsplit : Hashed hash.pair (fun _ _ => True) (fun _ => True)
      (split Digest.bit hash.pair c u k) := by
    rw [split_eq_rehash, hashed_rehash]
    exact ⟨trivial, (hany hh).of_plug, trivial⟩
  have hnew := (rehashed_of_forall (fun _ _ => trivial) gs _).hashed (hany hh) hsplit
  have ho := ordered_rebuild hash.pair hat.framed (hat.fits_split (H := hash.pair))
  have hset : {x | x ∈ (rebuild hash.pair gs (split Digest.bit hash.pair c u k)).keys}
      = {x | x ∈ ks ++ [k]} := by
    ext x
    simp only [Set.mem_ofPred_eq, mem_keys_rebuild, mem_keys_split, List.mem_append, List.mem_singleton]
    rw [← hkeys x, mem_keys_plug, or_assoc]
    exact or_comm
  have hpairs := hnew.merklePair ho
  rw [hset] at hpairs
  have hE' : ∀ x y, MerklePair Digest.bit hash.pair {x | x ∈ ks ++ [k]} x y → Hashes E x y :=
    fun x y hp => hE (x, y) hp
  refine ⟨hE' _ _ ?_, hpairs.rehashed.mono hE'⟩
  have hs := hpairs.of_rebuild
  rw [split_eq_rehash, hashed_rehash] at hs
  exact hs.1

/-- The pairs below a trie that is up to date are those of its keys. -/
theorem Represents.held {E : Digest d × Digest d → Prop} {K : Digest d → Prop}
    {t : Option (Trie (Digest d))} (h : Represents hash E K s ks.toFinset t)
    (hun : ∀ x ∈ ks, ¬InnerHash hash ks x) : Held hash ks s := by
  refine ⟨hun, t, h.stores, h.ordered, ?_, h.keys⟩
  rintro u rfl
  have hset : {x | x ∈ u.keys} = {x | x ∈ ks} := by
    ext x
    exact (h.keys x).trans List.mem_toFinset
  have hpairs := (h.hashed u rfl).merklePair (h.ordered u rfl)
  rw [hset] at hpairs
  exact hpairs.mono (fun _ _ hp => hp) fun x hx => List.mem_toFinset.mp ((h.keys x).mp hx)

/-- **One insertion** of a key that is not mixed up with the inner nodes. -/
theorem add_unmixed (hd : d ≠ 4) (hw : 8 * d < 256) (hfuel : 255 < fuel)
    (hc : ChildPairsDiffer hash (ks ++ [k])) (hun : Unmixed hash ks k) (h : Held hash ks s) :
    Prog.Returns (fun _ => True) (KeyValueTrie.add hash fresh fuel k true) s fun b s' =>
      b = decide (k ∉ ks) ∧ Held hash (ks ++ [k]) s' := by
  let E : Digest d × Digest d → Prop := fun p => ChildPair hash ks p ∨ ChildPair hash (ks ++ [k]) p
  have hpre : ks <+: ks ++ [k] := List.prefix_append ks [k]
  have hs : Separated hash.pair (Hashes E) (· ∈ ks ++ [k]) := by
    refine separated_of_unmixed ?_ ?_
    · rintro p p' (hp | hp) (hp' | hp')
      · exact hc _ _ hpre hpre p p' hp hp'
      · exact hc _ _ hpre (List.prefix_refl _) p p' hp hp'
      · exact hc _ _ (List.prefix_refl _) hpre p p' hp hp'
      · exact hc _ _ (List.prefix_refl _) (List.prefix_refl _) p p' hp hp'
    · rintro p (hp | hp) hmem
      · rcases List.mem_append.mp hmem with hold | hnew
        · exact h.unmixed _ hold ⟨p, hp, rfl⟩
        · exact hun.1 ⟨p, hp, List.mem_singleton.mp hnew⟩
      · exact hun.2 _ hmem ⟨p, hp, rfl⟩
  have hk : k ∈ ks ++ [k] := List.mem_append_right ks (List.mem_singleton_self k)
  obtain ⟨t, ht⟩ := h.represents
  have hE : Represents hash E (· ∈ ks ++ [k]) s ks.toFinset t :=
    ⟨ht.stores, ht.ordered, fun u hu => (ht.hashed u hu).mono (fun _ _ hp => Or.inl hp)
      fun x hx => List.mem_append_left _ hx, ht.keys⟩
  have hset : (ks ++ [k]).toFinset = insert k ks.toFinset := by
    ext x
    simp
  by_cases hmem : k ∈ ks
  · have hin : k ∈ keysOf t := (ht.keys k).mpr (List.mem_toFinset.mpr hmem)
    cases t with
    | none => exact absurd hin List.not_mem_nil
    | some u =>
      refine Prog.Returns.of_eq
        (add_duplicate fresh hw hs hfuel true hk ht.stores (hE.wellFormed u rfl) hin) ⟨by simp [hmem], ?_⟩
      refine Represents.held (E := E) (K := (· ∈ ks ++ [k])) (t := some u) ?_ hun.2
      rw [hset, Finset.insert_eq_of_mem (List.mem_toFinset.mpr hmem)]
      exact hE
  · have hnew : ∀ k' ∈ ks.toFinset, ¬Agree Digest.bit (leafMask d) k' k := by
      intro k' hk' ha
      have hkk : k' = k := Digest.eq_of_bits fun i hi => ha i (by rw [leafMask_eq hw]; exact hi)
      exact hmem (hkk ▸ List.mem_toFinset.mp hk')
    refine Prog.Returns.mono (add_represents_new fresh hd hs hfuel hk hnew hE ?_) ?_
    · rintro gs u c rfl hat
      have hkeys : ∀ x, x ∈ (plug gs u).keys ↔ x ∈ ks := fun x =>
        (ht.keys x).trans List.mem_toFinset
      obtain ⟨hpair, hpath⟩ := granted_of_keys (hE.hashed _ rfl) hat hkeys fun _ hp => Or.inr hp
      exact ⟨fun _ => hpair, hpath.mono fun _ _ hp _ => hp⟩
    · rintro b s' ⟨rfl, t', ht'⟩
      rw [← hset] at ht'
      exact ⟨by simp [hmem], ht'.held hun.2⟩

end Step

/-! ## A run -/

section Run

variable (hash : CryptoHash d) (fresh : Digest d) {fuel : Nat}

theorem afterAdds_append (ks : List (Digest d)) (k : Digest d) :
    afterAdds hash fresh fuel (ks ++ [k])
      = (KeyValueTrie.add hash fresh fuel k true (afterAdds hash fresh fuel ks)).state := by
  unfold afterAdds
  rw [List.foldl_append]
  rfl

/-- The keys of a run whose steps are unmixed. -/
theorem afterAdds_held (hd : d ≠ 4) (hw : 8 * d < 256) (hfuel : 255 < fuel) (ks : List (Digest d))
    (hc : ChildPairsDiffer hash ks)
    (hun : ∀ pre k post, ks = pre ++ k :: post → Unmixed hash pre k) :
    Held hash ks (afterAdds hash fresh fuel ks) := by
  induction ks using List.reverseRecOn with
  | nil =>
    exact ⟨fun x hx => absurd hx List.not_mem_nil, none,
      represents_empty hash (ChildPair hash []) (· ∈ [])⟩
  | append_singleton ks k ih =>
    have hold : Held hash ks (afterAdds hash fresh fuel ks) := by
      refine ih (fun p q hp hq => hc p q ?_ ?_) fun pre x post he => hun pre x (post ++ [k]) ?_
      · exact hp.trans (List.prefix_append ks [k])
      · exact hq.trans (List.prefix_append ks [k])
      · rw [he, List.append_assoc, List.cons_append]
    obtain ⟨b, -, -, hnew⟩ := add_unmixed fresh hd hw hfuel hc (hun ks k [] rfl) hold fun _ _ => trivial
    rw [afterAdds_append]
    exact hnew

/-- **Keys of any origin.**  A run of `add` keeps its keys when, at each call, the key is not the hash
of an inner node of the trie over the keys so far, and no key is one once it is there. -/
theorem keys_kept (hd : d = 16 ∨ d = 20 ∨ d = 28) (hfuel : 255 < fuel) (ks : List (Digest d))
    (hc : ChildPairsDiffer hash ks)
    (hun : ∀ pre k post, ks = pre ++ k :: post → Unmixed hash pre k) :
    KeysKept hash fresh fuel ks := by
  obtain ⟨hd4, hw⟩ := narrow_digest hd
  rintro pre ⟨rest, rfl⟩ k ⟨p, q, rfl, -⟩
  have hcpre : ChildPairsDiffer hash (p ++ k :: q) := fun a b ha hb =>
    hc a b (ha.trans (List.prefix_append _ rest)) (hb.trans (List.prefix_append _ rest))
  have hheld : Held hash (p ++ k :: q) (afterAdds hash fresh fuel (p ++ k :: q)) := by
    refine afterAdds_held hash fresh hd4 hw hfuel _ hcpre fun pre x post he => hun pre x (post ++ rest) ?_
    rw [he, List.append_assoc, List.cons_append]
  have hs := hheld.separated hcpre
  obtain ⟨t, ht⟩ := hheld.represents
  have hk : k ∈ (p ++ k :: q).toFinset := by simp
  refine ⟨(ht.contains_iff hash hs k).mpr hk, ?_⟩
  have hkt := (ht.keys k).mpr hk
  cases t with
  | none => exact absurd hkt List.not_mem_nil
  | some u =>
    exact (reaches_iff ht.stores ((ht.wellFormed u rfl).nodup hash hs) k).mpr
      (u.keys_subset_labels k hkt)

end Run

/-! ## Two keys and the hash of their node -/

/-- Two keys that differ in the second bit. -/
def twoKeys : List (Digest 16) := [byteKey 16 2, byteKey 16 4]

/-- The hash of the node above them. -/
def nodeHash : Digest 16 := (mixHash 16).pair (byteKey 16 4) (byteKey 16 2)

theorem childPair_twoKeys {pre : List (Digest 16)} (hpre : pre <+: twoKeys) {p : Digest 16 × Digest 16}
    (h : ChildPair (mixHash 16) pre p) :
    p ∈ [(byteKey 16 2, byteKey 16 4), (byteKey 16 4, byteKey 16 2)] := by
  have hkeys : ∀ k ∈ {k | k ∈ pre}, k = byteKey 16 2 ∨ k = byteKey 16 4 := fun k hk => by
    simpa [twoKeys] using hpre.subset hk
  obtain ⟨x, y⟩ := p
  rcases h.of_two hkeys with ⟨rfl, rfl⟩ | ⟨rfl, rfl⟩
  · exact List.mem_cons_self
  · exact List.mem_cons_of_mem _ List.mem_cons_self

theorem not_innerHash_twoKeys {pre : List (Digest 16)} (hpre : pre <+: twoKeys) :
    ∀ x ∈ twoKeys, ¬InnerHash (mixHash 16) pre x := by
  rintro x hx ⟨p, hp, rfl⟩
  have hno : ∀ p ∈ [(byteKey 16 2, byteKey 16 4), (byteKey 16 4, byteKey 16 2)],
      (mixHash 16).pair p.1 p.2 ∉ twoKeys := by decide +kernel
  exact hno p (childPair_twoKeys hpre hp) hx

theorem keys_kept_sample : KeysKept (mixHash 16) (byteKey 16 0) 256 twoKeys := by
  refine keys_kept (mixHash 16) (byteKey 16 0) (Or.inl rfl) (by decide) twoKeys ?_ ?_
  · intro pre pre' hpre hpre' p p' hp hp'
    have hinj : ∀ p ∈ [(byteKey 16 2, byteKey 16 4), (byteKey 16 4, byteKey 16 2)],
        ∀ p' ∈ [(byteKey 16 2, byteKey 16 4), (byteKey 16 4, byteKey 16 2)],
        (mixHash 16).pair p.1 p.2 = (mixHash 16).pair p'.1 p'.2 → p = p' := by decide +kernel
    exact hinj p (childPair_twoKeys hpre hp) p' (childPair_twoKeys hpre' hp')
  · intro pre k post he
    have hpre : pre <+: twoKeys := ⟨k :: post, he.symm⟩
    have hstep : pre ++ [k] <+: twoKeys := ⟨post, by rw [he, List.append_assoc]; rfl⟩
    have hk : k ∈ twoKeys := he ▸ List.mem_append_right pre List.mem_cons_self
    exact ⟨not_innerHash_twoKeys hpre k hk, fun x hx => not_innerHash_twoKeys hstep x (hstep.subset hx)⟩

/-- The hash of the stored node, added as a key: `add` returns true, and the key is an inner node. -/
theorem node_hash_not_kept :
    CollisionFree (mixHash 16)
        (runTrie (mixHash 16) (byteKey 16 0) 256 ((twoKeys ++ [nodeHash]).map .add)).events ∧
      (KeyValueTrie.contains nodeHash (afterAdds (mixHash 16) (byteKey 16 0) 256 twoKeys)).outcome
        = .ok .INNER_NODE ∧
      ¬KeysKept (mixHash 16) (byteKey 16 0) 256 (twoKeys ++ [nodeHash]) := by
  refine ⟨by decide +kernel, by decide +kernel, fun h => ?_⟩
  have hadded : Added (mixHash 16) (byteKey 16 0) 256 (twoKeys ++ [nodeHash]) nodeHash :=
    ⟨twoKeys, [], rfl, by decide +kernel⟩
  exact absurd (h _ (List.prefix_refl _) nodeHash hadded).1 (by decide +kernel)

end SetSync
