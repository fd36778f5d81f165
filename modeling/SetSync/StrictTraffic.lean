import SetSync.StrictProgress

/-!
# The traffic of a strict synchronization

What two sides send while their sets do not change.  A hash stands for the keys below it; pending and
unacknowledged hashes stand for disjoint sets, and a cut issues parts of one of them (`Laminar`).

    no_hash_sent_twice   each hash of a trie is sent once at most, which bounds the bytes
    subtries_for_unknown each subtrie after the first one is for an inner node that is missing there
-/

namespace SetSync

open Program BitTrie Splitting SyncSystem

variable {d : Nat}

section Tries

variable {hash : CryptoHash d} {E : Digest d × Digest d → Prop} {K : Digest d → Prop}
  {s : TrieState d} {S : Finset (Digest d)} {t : Trie (Digest d)}

/-- A trie has a node less than twice as many as keys. -/
theorem Represents.length_labels (h : Represents hash E K s S (some t)) :
    t.labels.length = 2 * S.card - 1 := by
  have hkeys := h.length_keys
  have hlen := t.length_labels
  omega

/-- Places with one label have the same keys. -/
theorem Represents.keySet_eq (hs : Separated hash.pair (Hashes E) K)
    (h : Represents hash E K s S (some t)) {u v : Trie (Digest d)} (hu : Within t u) (hv : Within t v)
    (hl : u.label = v.label) : keySet u = keySet v := by
  obtain ⟨fs, hfs⟩ := hu
  obtain ⟨gs, hgs⟩ := hv
  have hhu : Hashed hash.pair (Hashes E) K u := Hashed.of_plug (hfs ▸ h.hashed t rfl)
  have hhv : Hashed hash.pair (Hashes E) K v := Hashed.of_plug (hgs ▸ h.hashed t rfl)
  unfold keySet
  rw [hhu.keys_eq hs hhv hl]

end Tries

/-! ## One search -/

/-- The pending, unacknowledged and sent hashes of a search through `t`. -/
def Descent (t : Trie (Digest d)) (pending waiting sent : List (Digest d)) : Prop :=
  ∃ us vs ws : List (Trie (Digest d)), (∀ u ∈ us ++ vs, Within t u) ∧ (∀ w ∈ ws, Within t w) ∧
    pending = us.map Trie.label ∧ waiting = vs.map Trie.label ∧ sent = ws.map Trie.label ∧
    Laminar ((us ++ vs).map keySet) (ws.map keySet) ∧ ∀ u ∈ us, IsNode u ∨ keySet u ∉ ws.map keySet

section Descent

variable {hash : CryptoHash d} {E : Digest d × Digest d → Prop} {K : Digest d → Prop}
  {s : TrieState d} {S : Finset (Digest d)} {t : Trie (Digest d)}
  {pending rest waiting sent : List (Digest d)} {top : Digest d}

theorem Descent.begin (t : Trie (Digest d)) : Descent t [t.label] [] [] := by
  refine ⟨[t], [], [], by simpa using Within.refl t, by simp, rfl, rfl, rfl, ?_, by simp⟩
  exact Laminar.single (keySet_nonempty t)

/-- A cut sends the parts of a pending hash. -/
theorem Descent.cut (hs : Separated hash.pair (Hashes E) K) (h : Represents hash E K s S (some t))
    (hw : Descent t (top :: rest) waiting sent) {buffersize : Nat} (hbuf : 2 ≤ buffersize / d)
    {buffer : Bytes} {size : Nat}
    (hcut : KeyValueTrie.getSubTrie top buffersize s = ⟨.ok (buffer, size), s, []⟩) :
    Descent t rest (waiting ++ entries d (buffer.take size)) (sent ++ entries d (buffer.take size)) ∧
      entries d (buffer.take size) ≠ [] ∧ size = (entries d (buffer.take size)).length * d := by
  obtain ⟨us, vs, ws, hopen, hsent, hpending, rfl, rfl, hlaminar, hwhole⟩ := hw
  cases us with
  | nil => cases hpending
  | cons u us =>
    obtain ⟨rfl, rfl⟩ := List.cons.inj hpending
    obtain ⟨ps, hread, hplaces, -, hparts, hone, htwo, hsize⟩ :=
      cut_parts hs h (hopen u List.mem_cons_self) hbuf hcut
    have hnew : keySet u ∈ ws.map keySet → 2 ≤ (ps.map keySet).length := by
      intro hissued
      rw [List.length_map]
      exact htwo ((hwhole u List.mem_cons_self).resolve_right fun hnot => hnot hissued)
    rw [hread, ← List.map_append, ← List.map_append, List.length_map]
    refine ⟨⟨us, vs ++ ps, ws ++ ps, ?_, ?_, rfl, rfl, rfl, ?_, ?_⟩, ?_, hsize⟩
    · intro v hv
      rcases List.mem_append.mp hv with hv | hv
      · exact hopen v (List.mem_append_left _ (List.mem_cons_of_mem u hv))
      · rcases List.mem_append.mp hv with hv | hv
        · exact hopen v (List.mem_append_right _ hv)
        · exact hplaces v hv
    · intro v hv
      rcases List.mem_append.mp hv with hv | hv
      · exact hsent v hv
      · exact hplaces v hv
    · have hsplit := hlaminar.split hparts hnew
      simpa only [List.map_append, List.append_assoc, List.append_eq] using hsplit
    · intro v hv
      rcases hwhole v (List.mem_cons_of_mem u hv) with hnode | hnot
      · exact Or.inl hnode
      · -- `v` stands apart from the parts of `u`
        right
        intro hmem
        rw [List.map_append] at hmem
        rcases List.mem_append.mp hmem with hmem | hmem
        · exact hnot hmem
        · have hdisj := hlaminar.apart hparts (keySet v)
            (List.mem_map_of_mem (List.mem_append_left _ hv)) (keySet v) hmem
          exact (keySet_nonempty v).ne_empty (disjoint_self.mp hdisj)
    · intro hnil
      rw [List.map_eq_nil_iff.mp hnil] at hone
      exact Nat.not_succ_le_zero 0 hone

/-- **An acknowledged hash** is done with, or pending again. -/
theorem Descent.ack (hs : Separated hash.pair (Hashes E) K) (h : Represents hash E K s S (some t))
    (r : Option (Digest d)) {w : List (Digest d) × DiffHandler d} {x : Digest d} (b : Bool)
    (hw : Descent t w.1 (x :: waiting) sent) :
    Descent t (SyncProcess.ackStep s r w (x, b)).1 waiting sent := by
  obtain ⟨us, vs, ws, hopen, hsent, hpending, hwaiting, rfl, hlaminar, hwhole⟩ := hw
  cases vs with
  | nil => cases hwaiting
  | cons v vs =>
    obtain ⟨rfl, rfl⟩ := List.cons.inj hwaiting
    have hv := hopen v (List.mem_append_right _ List.mem_cons_self)
    have htype := nodeType_within hs h hv
    have hclosed : (us ++ vs).Sublist (us ++ v :: vs) :=
      List.Sublist.append_left (List.sublist_cons_self v vs) us
    have hdone : Descent t w.1 (vs.map Trie.label) (ws.map Trie.label) :=
      ⟨us, vs, ws, fun u hu => hopen u (hclosed.subset hu), hsent, hpending, rfl, rfl,
        hlaminar.of_subperm (hclosed.map keySet).subperm, hwhole⟩
    cases b with
    | false => exact hdone
    | true =>
      cases v with
      | leaf k =>
        have hleaf : nodeType (s.record k) = .LEAF_NODE := htype
        simp only [SyncProcess.ackStep, Trie.label, hleaf, if_true]
        exact hdone
      | node lab p m st l r' =>
        have hinner : nodeType (s.record lab) = .INNER_NODE := htype
        simp only [SyncProcess.ackStep, Trie.label, hinner, if_true]
        have hagain : (.node lab p m st l r' :: us ++ vs).Perm (us ++ .node lab p m st l r' :: vs) :=
          List.perm_middle.symm
        refine ⟨.node lab p m st l r' :: us, vs, ws, fun u hu => hopen u (hagain.subset hu), hsent,
          ?_, rfl, rfl, hlaminar.of_subperm (hagain.map keySet).subperm, ?_⟩
        · rw [List.map_cons, ← hpending]
          rfl
        · intro u hu
          rcases List.mem_cons.mp hu with rfl | hu
          · exact Or.inl ⟨lab, p, m, st, l, r', rfl⟩
          · exact hwhole u hu

/-- **No hash is sent twice.** -/
theorem Descent.nodup (hs : Separated hash.pair (Hashes E) K) (h : Represents hash E K s S (some t))
    (hw : Descent t pending waiting sent) : sent.Nodup := by
  obtain ⟨us, vs, ws, -, hsent, -, -, rfl, hlaminar, -⟩ := hw
  refine List.pairwise_map.mpr ((List.pairwise_map.mp hlaminar.nodup).imp_of_mem ?_)
  intro u v hu hv hne hl
  exact hne (h.keySet_eq hs (hsent u hu) (hsent v hv) hl)

theorem Descent.subset (hw : Descent t pending waiting sent) : ∀ x ∈ sent, x ∈ t.labels := by
  obtain ⟨us, vs, ws, -, hsent, -, -, rfl, -, -⟩ := hw
  intro x hx
  obtain ⟨u, hu, rfl⟩ := List.mem_map.mp hx
  obtain ⟨fs, rfl⟩ := hsent u hu
  exact (mem_labels_plug fs u u.label).mpr (Or.inl u.label_mem_labels)

/-- A search sends as many hashes as its trie has nodes, at most. -/
theorem Descent.length_le (hs : Separated hash.pair (Hashes E) K)
    (h : Represents hash E K s S (some t)) (hw : Descent t pending waiting sent) :
    sent.length ≤ 2 * S.card - 1 := by
  rw [← h.length_labels]
  exact ((hw.nodup hs h).subperm hw.subset).length_le

/-- An unacknowledged hash is a node of the trie. -/
theorem Descent.found (hs : Separated hash.pair (Hashes E) K) (h : Represents hash E K s S (some t))
    (hw : Descent t pending waiting sent) : ∀ x ∈ waiting, nodeType (s.record x) ≠ .NOT_FOUND := by
  obtain ⟨us, vs, ws, hopen, -, -, rfl, -, -, -⟩ := hw
  intro x hx
  obtain ⟨v, hv, rfl⟩ := List.mem_map.mp hx
  rw [nodeType_within hs h (hopen v (List.mem_append_right _ hv))]
  split <;> decide

/-- A message of answers. -/
theorem Descent.acks (hs : Separated hash.pair (Hashes E) K) (h : Represents hash E K s S (some t))
    (r : Option (Digest d)) {w : List (Digest d) × DiffHandler d} {bits : List Bool}
    (hw : Descent t w.1 waiting sent) (hle : bits.length ≤ waiting.length) :
    Descent t (((waiting.take bits.length).zip bits).foldl (SyncProcess.ackStep s r) w).1
      (waiting.drop bits.length) sent :=
  foldl_acks (Q := fun _ => True) (J := fun w waiting => Descent t w.1 waiting sent)
    (fun _ _ b _ _ hw => hw.ack hs h r b) hle (fun _ _ => trivial) hw

end Descent

/-- An acknowledged bit asks for the children of the hash. -/
def asksFor (s : TrieState d) (e : Digest d × Bool) : Bool :=
  e.2 && decide (nodeType (s.record e.1) = .INNER_NODE)

/-- Every such bit makes a hash pending again. -/
theorem length_foldl_ackStep {s : TrieState d} (r : Option (Digest d)) {l : List (Digest d × Bool)}
    (hfound : ∀ e ∈ l, nodeType (s.record e.1) ≠ .NOT_FOUND) (w : List (Digest d) × DiffHandler d) :
    (l.foldl (SyncProcess.ackStep s r) w).1.length = w.1.length + l.countP (asksFor s) := by
  induction l generalizing w with
  | nil => rfl
  | cons e l ih =>
    obtain ⟨x, b⟩ := e
    rw [List.foldl_cons, ih fun e he => hfound e (List.mem_cons_of_mem _ he), List.countP_cons]
    have hx := hfound (x, b) List.mem_cons_self
    cases b with
    | false => simp [SyncProcess.ackStep, asksFor]
    | true =>
      cases ht : nodeType (s.record x) with
      | LEAF_NODE => simp [SyncProcess.ackStep, asksFor, ht]
      | INNER_NODE =>
        simp only [SyncProcess.ackStep, asksFor, ht, if_true, List.length_cons, Bool.true_and,
          decide_true]
        omega
      | NOT_FOUND => exact absurd ht hx

/-! ## Both searches -/

/-- One side has not begun, or it descends through its trie. -/
def Sparing (t : Option (Trie (Digest d))) (p : Peer d) (sent : List (Digest d)) : Prop :=
  (p.sync.stat = .START ∧ p.sync.pendingSubtries = [] ∧ p.sync.sentHashes = [] ∧ sent = []) ∨
  (p.sync.stat ≠ .START ∧ ∃ u, t = some u ∧
    Descent u p.sync.pendingSubtries p.sync.sentHashes sent)

section Sparing

variable {hash : CryptoHash d} {E : Digest d × Digest d → Prop} {K : Digest d → Prop}
  {S : Finset (Digest d)} {t : Option (Trie (Digest d))} {p : Peer d} {sent : List (Digest d)}

theorem Sparing.polled (h : Represents hash E K p.set.trie S t) {root : Digest d}
    (hr : KeyValueTrie.getRoot p.set.trie = ⟨.ok (some root), p.set.trie, []⟩)
    (hstart : p.sync.stat = .START) (hp : Sparing t p sent) :
    Sparing t (SyncProcess.polled (some root) p) sent := by
  rcases hp with ⟨-, hpending, hwaiting, rfl⟩ | ⟨hs, -⟩
  · rw [h.getRoot_eq] at hr
    have hroot := Outcome.ok.inj (congrArg Run.outcome hr)
    cases t with
    | none => cases hroot
    | some u =>
      obtain rfl : u.label = root := Option.some.inj hroot
      refine Or.inr ⟨by simp [SyncProcess.polled, hstart], u, rfl, ?_⟩
      simpa [SyncProcess.polled, hstart, hpending, hwaiting] using Descent.begin u
  · exact absurd hstart hs

/-- Everything that is pending can be cut. -/
theorem Sparing.cuttable (hs : Separated hash.pair (Hashes E) K)
    (h : Represents hash E K p.set.trie S t) {buffersize : Nat} (hbuf : 2 ≤ buffersize / d)
    (hp : Sparing t p sent) :
    ∀ x ∈ p.sync.pendingSubtries, ¬SyncProcess.Uncut p.set.trie buffersize x := by
  rcases hp with ⟨-, hnil, -, -⟩ | ⟨-, u, rfl, us, vs, ws, hopen, -, hpending, -⟩
  · rw [hnil]
    simp
  · intro x hx
    rw [hpending] at hx
    obtain ⟨v, hv, rfl⟩ := List.mem_map.mp hx
    exact not_uncut hs h (hopen v (List.mem_append_left _ hv)) hbuf

theorem Sparing.sentCut (hs : Separated hash.pair (Hashes E) K)
    (h : Represents hash E K p.set.trie S t) {buffersize : Nat} (hbuf : 2 ≤ buffersize / d)
    {rest : List (Digest d)} {top : Digest d} {buffer : Bytes} {size : Nat}
    (hpending : p.sync.pendingSubtries = top :: rest)
    (hcut : KeyValueTrie.getSubTrie top buffersize p.set.trie
      = ⟨.ok (buffer, size), p.set.trie, []⟩) (hp : Sparing t p sent) :
    Sparing t (SyncProcess.sentCut rest (buffer.take size) size p)
        (sent ++ entries d (buffer.take size)) ∧
      entries d (buffer.take size) ≠ [] ∧ size = (entries d (buffer.take size)).length * d := by
  rcases hp with ⟨-, hnil, -, -⟩ | ⟨hstat, u, rfl, hw⟩
  · rw [hnil] at hpending
    cases hpending
  · rw [hpending] at hw
    obtain ⟨hnext, hsome, hsize⟩ := hw.cut hs h hbuf hcut
    exact ⟨Or.inr ⟨hstat, u, rfl, hnext⟩, hsome, hsize⟩

theorem Sparing.acknowledged (hs : Separated hash.pair (Hashes E) K)
    (h : Represents hash E K p.set.trie S t) (r : Option (Digest d)) {bits : List Bool}
    (hle : bits.length ≤ p.sync.sentHashes.length) (hp : Sparing t p sent) :
    Sparing t (SyncProcess.acknowledged bits r p) sent := by
  rcases hp with ⟨hstat, hpending, hwaiting, rfl⟩ | ⟨hstat, u, rfl, hw⟩
  · refine Or.inl ⟨hstat, ?_, ?_, rfl⟩
    · simp [SyncProcess.acknowledged, hwaiting, hpending]
    · simp [SyncProcess.acknowledged, hwaiting]
  · exact Or.inr ⟨hstat, u, rfl, hw.acks (w := (p.sync.pendingSubtries, p.handled)) hs h r hle⟩

theorem Sparing.found (hs : Separated hash.pair (Hashes E) K)
    (h : Represents hash E K p.set.trie S t) (hp : Sparing t p sent) :
    ∀ x ∈ p.sync.sentHashes, nodeType (p.set.trie.record x) ≠ .NOT_FOUND := by
  rcases hp with ⟨-, -, hnil, -⟩ | ⟨-, u, rfl, hw⟩
  · rw [hnil]
    simp
  · exact hw.found hs h

theorem Sparing.nodup (hs : Separated hash.pair (Hashes E) K)
    (h : Represents hash E K p.set.trie S t) (hp : Sparing t p sent) : sent.Nodup := by
  rcases hp with ⟨-, -, -, rfl⟩ | ⟨-, u, rfl, hw⟩
  · exact .nil
  · exact hw.nodup hs h

theorem Sparing.length_le (hs : Separated hash.pair (Hashes E) K)
    (h : Represents hash E K p.set.trie S t) (hp : Sparing t p sent) :
    sent.length ≤ 2 * S.card - 1 := by
  rcases hp with ⟨-, -, -, rfl⟩ | ⟨-, u, rfl, hw⟩
  · exact Nat.zero_le _
  · exact hw.length_le hs h

end Sparing

/-- The state of a run: the sets stay, and no search sends a hash twice.  Each byte that was sent belongs to
a hash, or to an answer that was given. -/
structure Thrifty (sets : Side → SetState d) (S : Side → Finset (Digest d))
    (t : Side → Option (Trie (Digest d))) (c : SyncSystem d) : Prop where
  strict : Strict sets S t c
  sparing : ∀ x, Sparing (t x) (c.peer x) (c.log x).sent
  bytes : ∀ x, (c.peer x).sync.sentBytes + (c.peer x).sync.pendingAcks.length
    ≤ d * (c.log x).sent.length + (c.log x.other).answered.length

section Runs

variable {hash : CryptoHash d} {E : Digest d × Digest d → Prop} {K : Digest d → Prop}
  {sets : Side → SetState d} {S : Side → Finset (Digest d)} {t : Side → Option (Trie (Digest d))}
  {c c' : SyncSystem d} {a : SyncAction d}

theorem Thrifty.rep (hrep : ∀ x, Represents hash E K (sets x).trie (S x) (t x))
    (hc : Thrifty sets S t c) (x : Side) :
    Represents hash E K (c.peer x).set.trie (S x) (t x) := by
  rw [hc.strict.set x]
  exact hrep x

/-- A productive `getSubTrie` sends the parts of the first pending hash. -/
theorem Thrifty.top (hs : Separated hash.pair (Hashes E) K)
    (hrep : ∀ x, Represents hash E K (sets x).trie (S x) (t x)) (hc : Thrifty sets S t c) {x : Side}
    {buffersize : Nat} (hbuf : 2 ≤ buffersize / d) {dropped rest : List (Digest d)} {top : Digest d}
    (hpending : (c.peer x).sync.pendingSubtries = dropped ++ top :: rest)
    (hlost : ∀ h ∈ dropped, SyncProcess.Uncut (c.peer x).set.trie buffersize h) : dropped = [] := by
  cases dropped with
  | nil => rfl
  | cons y dropped =>
    have hy : y ∈ (c.peer x).sync.pendingSubtries := by
      rw [hpending]
      exact List.mem_cons_self
    exact absurd (hlost y List.mem_cons_self)
      ((hc.sparing x).cuttable hs (hc.rep hrep x) hbuf y hy)

theorem sent_answerSubtrie (x y : Side) (message : Bytes) (rest : List Bytes) (s : TrieState d) :
    ((answerSubtrie x message rest s c).log y).sent = (c.log y).sent := by
  rcases Side.eq_or_other x y with rfl | rfl <;> simp [answerSubtrie]

theorem sent_acknowledge (x y : Side) (rest : List (Bytes × Nat)) (sentHashes : List (Digest d))
    (bits : List Bool) :
    ((acknowledge x rest sentHashes bits c).log y).sent = (c.log y).sent := by
  rcases Side.eq_or_other x y with rfl | rfl <;> simp [acknowledge]

/-- **Searches stay sparing.** -/
theorem Moved.sparing (hs : Separated hash.pair (Hashes E) K)
    (hrep : ∀ x, Represents hash E K (sets x).trie (S x) (t x)) (h : Moved c a c') (ha : a.IsCall)
    (hsync : Synced c) (hc : Thrifty sets S t c) (y : Side) :
    Sparing (t y) (c'.peer y) (c'.log y).sent := by
  have hpeer : ∀ (x : Side) (p : Peer d), Sparing (t x) p (c.log x).sent →
      Sparing (t y) ((setPeer x p c).peer y) (c.log y).sent := fun x p hp =>
    forall_setPeer (P := fun y p => Sparing (t y) p (c.log y).sent) hc.sparing hp y
  cases h with
  | @polled x root start found =>
    exact hpeer x _ ((hc.sparing x).polled (hc.rep hrep x) found start)
  | @uncut x buffersize some pending =>
    obtain ⟨z, hz⟩ := List.exists_mem_of_ne_nil _ some
    exact absurd (pending z hz) ((hc.sparing x).cuttable hs (hc.rep hrep x) ha z hz)
  | @cut x buffersize dropped rest top buffer size pending lost found =>
    obtain rfl := hc.top hs hrep ha pending lost
    have hcut := ((hc.sparing x).sentCut hs (hc.rep hrep x) ha pending found).1
    rcases Side.eq_or_other x y with rfl | rfl
    · simpa [sendSubtrie, setPeer] using hcut
    · simpa [sendSubtrie, setPeer] using hc.sparing x.other
  | @answered x message rest channel =>
    rw [sent_answerSubtrie]
    exact hpeer x (SyncProcess.answeredAll message (c.peer x)) (hc.sparing x)
  | @replied x length buffer number pos bits size =>
    exact hpeer x (SyncProcess.tookAcks number (c.peer x)) (hc.sparing x)
  | @acked x buffer number rest r channel root =>
    rw [sent_acknowledge]
    exact hpeer x (SyncProcess.received ((number + 7) / 8)
      (SyncProcess.acknowledged (SyncProcess.ackBits buffer number) r (c.peer x)))
      ((hc.sparing x).acknowledged hs (hc.rep hrep x) r
        ((hsync.aligned x).length_le (answers_of_channel channel)))

/-- Bytes are for hashes and answers. -/
theorem Moved.bytes (hs : Separated hash.pair (Hashes E) K)
    (hrep : ∀ x, Represents hash E K (sets x).trie (S x) (t x)) (h : Moved c a c') (ha : a.IsCall)
    (hc : Thrifty sets S t c) (y : Side) :
    (c'.peer y).sync.sentBytes + (c'.peer y).sync.pendingAcks.length
      ≤ d * (c'.log y).sent.length + (c'.log y.other).answered.length := by
  have hy := hc.bytes y
  cases h with
  | @polled x root start found =>
    rcases Side.eq_or_other x y with rfl | rfl
    · simpa [setPeer, SyncProcess.polled, start] using hy
    · simpa [setPeer] using hy
  | @uncut x buffersize some pending =>
    rcases Side.eq_or_other x y with rfl | rfl
    · simpa [sendSubtrie, setPeer, SyncProcess.noCut, entries_nil] using hy
    · simpa [sendSubtrie, setPeer, entries_nil] using hy
  | @cut x buffersize dropped rest top buffer size pending lost found =>
    obtain rfl := hc.top hs hrep ha pending lost
    have hsize := ((hc.sparing x).sentCut hs (hc.rep hrep x) ha pending found).2.2
    rcases Side.eq_or_other x y with rfl | rfl
    · simp only [sendSubtrie, setPeer, SyncProcess.sentCut, Function.update_self,
        List.length_append, Function.update_of_ne (Side.other_ne y)]
      rw [Nat.mul_add, Nat.mul_comm d (entries d _).length, ← hsize]
      omega
    · simpa [sendSubtrie, setPeer] using hy
  | @answered x message rest channel =>
    rcases Side.eq_or_other x y with rfl | rfl
    · simp only [answerSubtrie, setPeer, SyncProcess.answeredAll, Function.update_self,
        Function.update_of_ne (Side.ne_other y), List.length_append, List.length_map]
      omega
    · simpa [answerSubtrie, setPeer] using hy
  | @replied x length buffer number pos bits size =>
    rcases Side.eq_or_other x y with rfl | rfl
    · have hle : number ≤ (c.peer y).sync.pendingAcks.length := by
        have hlen := congrArg List.length bits
        rw [SyncProcess.ackBits, List.length_map, List.length_range, List.length_take] at hlen
        omega
      simp only [sendAcks, setPeer, SyncProcess.tookAcks, Function.update_self, List.length_drop]
      omega
    · simpa [sendAcks, setPeer] using hy
  | @acked x buffer number rest r channel root =>
    rcases Side.eq_or_other x y with rfl | rfl
    · simpa [acknowledge, setPeer, SyncProcess.received, SyncProcess.acknowledged] using hy
    · simpa [acknowledge, setPeer] using hy

/-- **One call.** -/
theorem Moved.thrifty (hs : Separated hash.pair (Hashes E) K)
    (hrep : ∀ x, Represents hash E K (sets x).trie (S x) (t x)) (h : Moved c a c') (ha : a.IsCall)
    (hsync : Synced c) (hc : Thrifty sets S t c) : Thrifty sets S t c' where
  strict := h.stepped.strict hs hrep ha hsync hc.strict
  sparing := h.sparing hs hrep ha hsync hc
  bytes := h.bytes hs hrep ha hc

theorem thrifty_start {A B : SetState d} : Thrifty (setOf A B) S t (start A B) where
  strict := by
    refine ⟨fun y => by cases y <;> rfl, fun y e he => absurd he List.not_mem_nil, fun y => Or.inl ?_⟩
    cases y <;> exact ⟨rfl, rfl, rfl, rfl⟩
  sparing := fun y => Or.inl (by cases y <;> exact ⟨rfl, rfl, rfl, rfl⟩)
  bytes := fun y => by cases y <;> exact Nat.zero_le _

/-! ## Subtries for unknown nodes -/

/-- The call sends a subtrie of the side `x`. -/
def sends (x : Side) (c : SyncSystem d) (a : SyncAction d) : Bool :=
  match a with
  | .getSubTrie y _ => decide (y = x) && productive c a
  | _ => false

/-- The inner nodes of one trie that the other one does not have. -/
def unknownInner (s s' : TrieState d) : Set (Digest d) :=
  {h | (KeyValueTrie.contains h s).outcome = .ok .INNER_NODE ∧
    (KeyValueTrie.contains h s').outcome = .ok .NOT_FOUND}

theorem unknownInner_finite {s : TrieState d} {S : Finset (Digest d)} {o : Option (Trie (Digest d))}
    (h : Represents hash E K s S o) (s' : TrieState d) : (unknownInner s s').Finite := by
  have hknown : ∀ y ∈ unknownInner s s', unknown s y = false := by
    rintro y ⟨hy, -⟩
    rw [unknown, hy]
    rfl
  cases o with
  | none =>
    refine Set.Finite.subset Set.finite_empty fun y hy => ?_
    obtain ⟨t, u, ho, -⟩ := within_of_known h (hknown y hy)
    cases ho
  | some t =>
    refine Set.Finite.subset (List.finite_toSet t.labels) fun y hy => ?_
    obtain ⟨_, u, ho, ⟨fs, hplug⟩, rfl⟩ := within_of_known h (hknown y hy)
    obtain rfl := Option.some.inj ho
    rw [← hplug]
    exact (mem_labels_plug fs u u.label).mpr (Or.inl u.label_mem_labels)

/-- The children of different nodes are asked for, and the other side lacks these nodes. -/
theorem Thrifty.asked_le (hs : Separated hash.pair (Hashes E) K)
    (hrep : ∀ x, Represents hash E K (sets x).trie (S x) (t x)) (hsync : Synced c)
    (hc : Thrifty sets S t c) (x : Side) :
    (c.log x).acked.countP (asksFor (sets x).trie)
      ≤ (unknownInner (sets x).trie (sets x.other).trie).ncard := by
  have hsent : (c.log x).sent = (c.log x).acked.map Prod.fst ++ (c.peer x).sync.sentHashes :=
    (hsync.aligned x).waiting
  have hnodup := (hc.sparing x).nodup hs (hc.rep hrep x)
  rw [hsent] at hnodup
  have hasked : (((c.log x).acked.filter (asksFor (sets x).trie)).map Prod.fst).Nodup :=
    (List.nodup_append.mp hnodup).1.sublist (List.filter_sublist.map Prod.fst)
  have hsub : ((((c.log x).acked.filter (asksFor (sets x).trie)).map Prod.fst).toFinset :
      Set (Digest d)) ⊆ unknownInner (sets x).trie (sets x.other).trie := by
    intro y hy
    rw [Finset.mem_coe, List.mem_toFinset] at hy
    obtain ⟨e, he, rfl⟩ := List.mem_map.mp hy
    obtain ⟨hacked, hasks⟩ := List.mem_filter.mp he
    rw [asksFor, Bool.and_eq_true, decide_eq_true_eq] at hasks
    have hanswer := hc.strict.answers x e ((hsync.aligned x).acked_begins.subset hacked)
    rw [hasks.1] at hanswer
    refine ⟨?_, of_decide_eq_true hanswer.symm⟩
    rw [contains_record (hrep x).failure, hasks.2]
  rw [List.countP_eq_length_filter, ← List.length_map Prod.fst, ← List.toFinset_card_of_nodup hasked,
    ← Set.ncard_coe_finset]
  exact Set.ncard_le_ncard hsub (unknownInner_finite (hrep x) _)

/-- The subtries a side may still send: for the root, for pending hashes, and for `bound` nodes less
those whose children were asked for. -/
def toCut (s : TrieState d) (bound : Nat) (x : Side) (c : SyncSystem d) : Nat :=
  (if (c.peer x).sync.stat = .START then 1 else 0) + (c.peer x).sync.pendingSubtries.length
    + (bound - (c.log x).acked.countP (asksFor s))

/-- **A subtrie is paid for.** -/
theorem Moved.toCut (hs : Separated hash.pair (Hashes E) K)
    (hrep : ∀ x, Represents hash E K (sets x).trie (S x) (t x)) (h : Moved c a c') (ha : a.IsCall)
    (hc : Thrifty sets S t c) (x : Side) {bound : Nat}
    (hbound : (c'.log x).acked.countP (asksFor (sets x).trie) ≤ bound) :
    (if sends x c a then 1 else 0) + toCut (sets x).trie bound x c' ≤ toCut (sets x).trie bound x c := by
  unfold SetSync.toCut
  cases h with
  | @polled y root start found =>
    rcases Side.eq_or_other y x with rfl | rfl
    · simp [sends, setPeer, SyncProcess.polled, start]
    · simp [sends, setPeer]
  | @uncut y buffersize some pending =>
    obtain ⟨z, hz⟩ := List.exists_mem_of_ne_nil _ some
    exact absurd (pending z hz) ((hc.sparing y).cuttable hs (hc.rep hrep y) ha z hz)
  | @cut y buffersize dropped rest top buffer size pending lost found =>
    obtain rfl := hc.top hs hrep ha pending lost
    rcases Side.eq_or_other y x with rfl | rfl
    · simp [sends, sendSubtrie, setPeer, SyncProcess.sentCut, productive, pending]
      omega
    · simp [sends, sendSubtrie, setPeer]
  | @answered y message rest channel =>
    rcases Side.eq_or_other y x with rfl | rfl
    · simp [sends, answerSubtrie, setPeer, SyncProcess.answeredAll]
    · simp [sends, answerSubtrie, setPeer]
  | @replied y length buffer number pos bits size =>
    rcases Side.eq_or_other y x with rfl | rfl
    · simp [sends, sendAcks, setPeer, SyncProcess.tookAcks]
    · simp [sends, sendAcks, setPeer]
  | @acked y buffer number rest r channel root =>
    rcases Side.eq_or_other y x with rfl | rfl
    · -- each bit that asks makes a hash pending
      have hfound : ∀ e ∈ ((c.peer x).sync.sentHashes.take
          (SyncProcess.ackBits buffer number).length).zip (SyncProcess.ackBits buffer number),
          nodeType ((c.peer x).set.trie.record e.1) ≠ .NOT_FOUND := fun e he =>
        (hc.sparing x).found hs (hc.rep hrep x) e.1
          (List.take_subset _ _ (List.of_mem_zip he).1)
      have hlen := length_foldl_ackStep r hfound ((c.peer x).sync.pendingSubtries, (c.peer x).handled)
      rw [hc.strict.set x] at hlen
      simp only [acknowledge, setPeer, SyncProcess.received, SyncProcess.acknowledged,
        Function.update_self, List.countP_append, hc.strict.set x] at hbound ⊢
      rw [hlen]
      simp only [sends, Bool.false_eq_true, if_false]
      omega
    · simp [sends, acknowledge, setPeer]

end Runs

section Built

variable {hash : CryptoHash d} {fuel : Nat} {fresh : Side → Digest d}
  {ops : Side → List (SetOp (Digest d))} {sets : Side → SetState d}

/-- **No hash is sent twice**, so a side sends a hash for each node of its trie at most, and besides these
an answer bit for each node of the other trie. -/
theorem no_hash_sent_twice (h : BuiltSets hash fuel fresh ops sets) (f : Digest d)
    (actions : List (SyncAction d)) (ha : ∀ a ∈ actions, a.IsCall) (x : Side) :
    let c := (SyncAction.run hash f fuel actions (start (sets .A) (sets .B))).state
    (c.log x).sent.Nodup ∧ (c.log x).sent.length ≤ 2 * (keysAfter (ops x)).card - 1 ∧
      (c.peer x).sync.sentBytes ≤ d * (2 * (keysAfter (ops x)).card - 1)
        + (2 * (keysAfter (ops x.other)).card - 1) := by
  obtain ⟨t, hs, hrep⟩ := h.represents
  rw [← setOf_sides sets] at hrep
  obtain ⟨us, c, hrun, hway, hc, -⟩ := calls_counted f fuel hs (fun x => ⟨_, _, hrep x⟩) ha
    (fun _ _ => false) (fun _ => 0) (fun _ _ hoff => absurd hoff (by simp))
    (thrifty_start (S := fun x => keysAfter (ops x)) (t := t)) fun c a c' hcall hway hc hmoved _ =>
      ⟨hmoved.thrifty hs hrep hcall hway.synced hc, by simp⟩
  have hsync := hway.synced
  rw [hrun]
  have hlen := fun y => (hc.sparing y).length_le hs (hc.rep hrep y)
  have hanswered : (c.log x.other).answered.length ≤ (c.log x.other).sent.length := by
    have hreq := congrArg List.length (hsync.aligned x.other).requests
    rw [List.length_append, List.length_map] at hreq
    exact (Nat.le_add_right _ _).trans hreq.ge
  refine ⟨(hc.sparing x).nodup hs (hc.rep hrep x), hlen x, ?_⟩
  have hbytes := hc.bytes x
  have hsent : d * (c.log x).sent.length ≤ d * (2 * (keysAfter (ops x)).card - 1) :=
    Nat.mul_le_mul_left d (hlen x)
  have hother := hlen x.other
  show (c.peer x).sync.sentBytes ≤ _
  omega

theorem no_hash_sent_twice_sample :
    ((SyncAction.run (mixHash 16) (byteKey 16 0) 256 crossedActions
      (start (crossedSets .A) (crossedSets .B))).state.log .A).sent.Nodup ∧
    ((SyncAction.run (mixHash 16) (byteKey 16 0) 256 crossedActions
      (start (crossedSets .A) (crossedSets .B))).state.peer .A).sync.sentBytes ≤ 49 := by
  obtain ⟨hnodup, -, hbytes⟩ := no_hash_sent_twice crossed_built (byteKey 16 0) crossedActions
    crossedActions_calls .A
  have hA : (keysAfter (crossedOps .A)).card = 2 := by decide +kernel
  have hB : (keysAfter (crossedOps Side.A.other)).card = 1 := by decide +kernel
  rw [hA, hB] at hbytes
  exact ⟨hnodup, hbytes⟩

/-- **Subtries are sent for unknown nodes**: for the root, and once for each inner node that the other
side does not have. -/
theorem subtries_for_unknown (h : BuiltSets hash fuel fresh ops sets) (f : Digest d)
    (actions : List (SyncAction d)) (ha : ∀ a ∈ actions, a.IsCall) (x : Side) :
    Prog.count (SyncAction.exec hash f fuel) (sends x) (start (sets .A) (sets .B)) actions
      ≤ 1 + (unknownInner (sets x).trie (sets x.other).trie).ncard := by
  obtain ⟨t, hs, hrep⟩ := h.represents
  rw [← setOf_sides sets] at hrep
  have hmark : ∀ (c : SyncSystem d) (a : SyncAction d), sends x c a = true → productive c a = true := by
    intro c a hon
    cases a with
    | getSubTrie y buffersize => exact (Bool.and_eq_true_iff.mp hon).2
    | _ => cases hon
  obtain ⟨us, c, -, -, -, hcount⟩ := calls_counted f fuel hs (fun x => ⟨_, _, hrep x⟩) ha (sends x)
    (toCut (sets x).trie (unknownInner (sets x).trie (sets x.other).trie).ncard x) hmark
    (thrifty_start (S := fun x => keysAfter (ops x)) (t := t))
    fun c a c' hcall hway hc hmoved hway' => by
      have hc' := hmoved.thrifty hs hrep hcall hway.synced hc
      have hbound := hc'.asked_le hs hrep hway'.synced x
      rw [setOf_sides] at hbound
      refine ⟨hc', ?_⟩
      rw [setOf_sides] at hc hrep
      exact hmoved.toCut hs hrep hcall hc x hbound
  have hstart : toCut (sets x).trie (unknownInner (sets x).trie (sets x.other).trie).ncard x
      (start (sets .A) (sets .B)) = 1 + (unknownInner (sets x).trie (sets x.other).trie).ncard := by
    cases x <;> rfl
  rw [hstart] at hcount
  omega

theorem subtries_for_unknown_sample :
    Prog.count (SyncAction.exec (mixHash 16) (byteKey 16 0) 256) (sends .A)
        (start (crossedSets .A) (crossedSets .B)) crossedActions
      ≤ 1 + (unknownInner (crossedSets .A).trie (crossedSets .B).trie).ncard :=
  subtries_for_unknown crossed_built (byteKey 16 0) crossedActions crossedActions_calls .A

end Built

end SetSync
