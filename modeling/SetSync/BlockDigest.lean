import Mathlib.Data.Nat.ModEq
import Mathlib.Tactic.Ring
import SetSync.Lib.BlockStream
import SetSync.Md2

/-!
# Digests that take blocks

`crypto/md4.c`, `md5.c`, `sha1.c`, `sha2.c` and `sha4.c` have one context, one `update` and one `finish`,
up to the width of the words, the size of the blocks, and the function that processes a block.

    update ctx input    takes the blocks that the bytes one by one fill                 (update_holds)
    finish (pieces.foldl update (start ctx)) = standard (counted pieces) pieces.flatten   (finish_pieces)

`standard` processes the blocks of the message with its padding and its length.  The context counts the
length of every piece modulo `2 ^ w` (`counted`), so a piece of `2 ^ w` bytes counts for nothing.

Two messages with one state at the end hold two calls of `process` with one result
(`exists_collision_of_state`).
-/

namespace SetSync

open Streaming BlockStream

/-- `md4_context`, `md5_context`, `sha1_context`, `sha2_context` and `sha4_context`. -/
structure BlockContext (w B : Nat) (σ : Type) where
  total0 : BitVec w
  total1 : BitVec w
  state : σ
  buffer : Digest B

/-- What these digests do not share.  `high` and `low` are `w` bits each of the length in bits. -/
structure BlockDigest (w B : Nat) (σ : Type) where
  initial : σ
  process : σ → Bytes → σ
  msglen : (high low : BitVec w) → Bytes
  output : σ → Bytes
  size : Nat
  three_le : 3 ≤ w
  room : w / 4 < B
  dvd : B ∣ 2 ^ w
  length_msglen : ∀ high low, (msglen high low).length = w / 4
  msglen_inj : ∀ high low high' low', msglen high low = msglen high' low' → high = high' ∧ low = low'
  length_output : ∀ s, (output s).length = size

namespace BlockDigest

variable {w B : Nat} {σ : Type} (dg : BlockDigest w B σ)

/-- `starts`; it leaves the buffer as it is. -/
def start (ctx : BlockContext w B σ) : BlockContext w B σ :=
  { ctx with total0 := 0, total1 := 0, state := dg.initial }

/-- `total` after `ilen` more bytes. -/
def addTotal (ctx : BlockContext w B σ) (ilen : Nat) : BlockContext w B σ :=
  let total0 := ctx.total0 + BitVec.ofNat w ilen
  { ctx with
    total0 := total0
    total1 := if total0 < BitVec.ofNat w ilen then ctx.total1 + 1 else ctx.total1 }

/-- A block that has been begun is filled and processed first, if there is enough input: the context, what
is left of the input, and `left` then. -/
def fillBlock (ctx : BlockContext w B σ) (left : Nat) (input : Bytes) :
    BlockContext w B σ × Bytes × Nat :=
  let fill := B - left
  if left ≠ 0 ∧ fill ≤ input.length then
    let buffer := ctx.buffer.memcpy left (input.take fill)
    ({ ctx with buffer := buffer, state := dg.process ctx.state buffer.bytes }, input.drop fill, 0)
  else (ctx, input, left)

def update (ctx : BlockContext w B σ) (input : Bytes) : BlockContext w B σ :=
  if input.isEmpty then ctx
  else
    let left := ctx.total0.toNat % B
    let p := dg.fillBlock (addTotal ctx input.length) left input
    let q := takeBlocks B dg.process p.2.1.length p.1.state p.2.1
    { p.1 with state := q.1, buffer := p.1.buffer.memcpy p.2.2 q.2 }

/-- `md4_padding` and the others. -/
def padding (B : Nat) : Bytes := 0x80 :: List.replicate (B - 1) 0

/-- The context at the end, and the output. -/
def finish (ctx : BlockContext w B σ) : BlockContext w B σ × Bytes :=
  let high := ctx.total0 >>> (w - 3) ||| ctx.total1 <<< 3
  let low := ctx.total0 <<< 3
  let last := ctx.total0.toNat % B
  -- `B - w / 4` is 56 or 112: the rest of the block has room for `msglen`
  let padn := if last < B - w / 4 then B - w / 4 - last else 2 * B - w / 4 - last
  let ctx := dg.update (dg.update ctx ((padding B).take padn)) (dg.msglen high low)
  (ctx, dg.output ctx.state)

/-- The digest in one call, with its context on the stack. -/
def digest (stack : BlockContext w B σ) (input : Bytes) : Bytes :=
  (dg.finish (dg.update (dg.start stack) input)).2

/-! ## What the digest is -/

/-- The message, one bit, zeros that fill up the last block, and the length `count` in bits. -/
def padded (count : Nat) (message : Bytes) : Bytes :=
  message ++ (0x80 :: List.replicate ((B - (message.length + 1 + w / 4) % B) % B) 0
    ++ dg.msglen (BitVec.ofNat w (8 * count / 2 ^ w)) (BitVec.ofNat w (8 * count)))

def paddedBlocks (count : Nat) (message : Bytes) : List Bytes :=
  blocks B ((dg.padded count message).length / B) (dg.padded count message)

def lastState (count : Nat) (message : Bytes) : σ :=
  (dg.paddedBlocks count message).foldl dg.process dg.initial

def standard (count : Nat) (message : Bytes) : Bytes := dg.output (dg.lastState count message)

/-- The length that is counted: of every piece, what is left of its length in a word. -/
def counted (w : Nat) (pieces : List Bytes) : Nat := (pieces.map fun piece => piece.length % 2 ^ w).sum

theorem counted_eq {pieces : List Bytes} (h : ∀ piece ∈ pieces, piece.length < 2 ^ w) :
    counted w pieces = pieces.flatten.length := by
  rw [counted, List.length_flatten]
  congr 1
  exact List.map_congr_left fun piece hp => Nat.mod_eq_of_lt (h piece hp)

theorem size_pos (dg : BlockDigest w B σ) : 0 < B := Nat.lt_of_le_of_lt (Nat.zero_le _) dg.room

/-! ## The buffer -/

/-- The context has taken the whole blocks of a stream, and its buffer holds what comes after them. -/
structure Holds (ctx : BlockContext w B σ) (p : σ × Bytes) : Prop where
  state : ctx.state = p.1
  rest : ctx.buffer.bytes.take p.2.length = p.2
  left : p.2.length = ctx.total0.toNat % B

/-- What a copy leaves up to its end. -/
theorem take_memcpy {m : Nat} (a : Digest m) {rest source : Bytes} (hrest : a.bytes.take rest.length = rest)
    (h : rest.length + source.length ≤ m) :
    (a.memcpy rest.length source).bytes.take (rest.length + source.length) = rest ++ source := by
  have hcopy : (a.memcpy rest.length source).bytes
      = a.bytes.take rest.length ++ (source ++ a.bytes.drop (rest.length + source.length)) :=
    memcpy_eq (by rw [a.length_bytes]; exact h)
  rw [hcopy, hrest, ← List.append_assoc, List.take_left' List.length_append]

theorem left_add (hdvd : B ∣ 2 ^ w) (total : BitVec w) (n : Nat) :
    (total + BitVec.ofNat w n).toNat % B = (total.toNat % B + n) % B := by
  rw [BitVec.toNat_add, BitVec.toNat_ofNat, Nat.add_mod_mod, Nat.mod_mod_of_dvd _ hdvd, Nat.mod_add_mod]

/-- After whole blocks, the rest goes to the start of the buffer. -/
theorem holds_whole (ctx : BlockContext w B σ) (input : Bytes)
    (hlen : (absorb (feed B dg.process) (ctx.state, []) input).2.length = ctx.total0.toNat % B) :
    Holds { ctx with
        state := (takeBlocks B dg.process input.length ctx.state input).1
        buffer := ctx.buffer.memcpy 0 (takeBlocks B dg.process input.length ctx.state input).2 }
      (absorb (feed B dg.process) (ctx.state, []) input) := by
  have hB := dg.size_pos
  have hle : (absorb (feed B dg.process) (ctx.state, []) input).2.length ≤ B := by
    rw [hlen]
    exact Nat.le_of_lt (Nat.mod_lt _ hB)
  rw [takeBlocks_eq hB ctx.state le_rfl]
  refine ⟨rfl, ?_, hlen⟩
  show List.take _ (Digest.bytes _) = _
  rw [Digest.take_memcpy _ le_rfl hle, List.take_length]

/-- **One update.**  The blocks that are whole now have been processed, and the buffer holds the rest. -/
theorem update_holds {ctx : BlockContext w B σ} {p : σ × Bytes} (h : Holds ctx p) (input : Bytes) :
    Holds (dg.update ctx input) (absorb (feed B dg.process) p input) := by
  obtain ⟨s, rest⟩ := p
  have hstate : ctx.state = s := h.state
  have hrest : ctx.buffer.bytes.take rest.length = rest := h.rest
  have hleft : rest.length = ctx.total0.toNat % B := h.left
  have hB := dg.size_pos
  have hlt : rest.length < B := by
    rw [hleft]
    exact Nat.mod_lt _ hB
  have hend : (absorb (feed B dg.process) (s, rest) input).2.length
      = (ctx.total0 + BitVec.ofNat w input.length).toNat % B := by
    rw [length_absorb hB s hlt input, left_add dg.dvd, ← hleft]
  by_cases hempty : input = []
  · subst hempty
    exact ⟨hstate, hrest, hleft⟩
  have hne : input.isEmpty = false := by simpa using hempty
  have hupdate : dg.update ctx input
      = let p := dg.fillBlock (addTotal ctx input.length) rest.length input
        let q := takeBlocks B dg.process p.2.1.length p.1.state p.2.1
        { p.1 with state := q.1, buffer := p.1.buffer.memcpy p.2.2 q.2 } := by
    rw [hleft, update, hne, if_neg Bool.false_ne_true]
  by_cases hfill : rest.length ≠ 0 ∧ B - rest.length ≤ input.length
  · -- a block that has been begun is filled
    have htake : (input.take (B - rest.length)).length = B - rest.length := by
      rw [List.length_take]
      omega
    have hfull : rest.length + (input.take (B - rest.length)).length = B := by omega
    have hcopy := take_memcpy ctx.buffer hrest (Nat.le_of_eq hfull)
    have hblock : (ctx.buffer.memcpy rest.length (input.take (B - rest.length))).bytes
        = rest ++ input.take (B - rest.length) := by
      rwa [hfull, List.take_of_length_le (Nat.le_of_eq (Digest.length_bytes _))] at hcopy
    have hsome : input.take (B - rest.length) ≠ [] := List.ne_nil_of_length_pos (by omega)
    have hfilled : absorb (feed B dg.process) (s, rest) (input.take (B - rest.length))
        = (dg.process s (rest ++ input.take (B - rest.length)), []) := absorb_fill s rest hsome hfull
    have habsorb : absorb (feed B dg.process) (s, rest) input
        = absorb (feed B dg.process) (dg.process s (rest ++ input.take (B - rest.length)), [])
            (input.drop (B - rest.length)) := by
      rw [← hfilled, ← absorb_append, List.take_append_drop]
    rw [habsorb, ← hblock, ← hstate] at hend ⊢
    rw [hupdate]
    simp only [fillBlock, if_pos hfill]
    exact dg.holds_whole { addTotal ctx input.length with
      buffer := ctx.buffer.memcpy rest.length (input.take (B - rest.length))
      state := dg.process ctx.state
        (ctx.buffer.memcpy rest.length (input.take (B - rest.length))).bytes } _ hend
  · rw [hupdate]
    simp only [fillBlock, if_neg hfill]
    by_cases hzero : rest.length = 0
    · -- no block has been begun
      have hnil := List.eq_nil_of_length_eq_zero hzero
      subst hnil
      rw [← hstate] at hend ⊢
      exact dg.holds_whole (addTotal ctx input.length) input hend
    · -- the block stays open
      have hshort : rest.length + input.length < B := by omega
      have hkeep : absorb (feed B dg.process) (s, rest) input = (s, rest ++ input) :=
        absorb_keep s rest hshort
      have hnone : takeBlocks B dg.process input.length (addTotal ctx input.length).state input
          = (ctx.state, input) := by
        rw [takeBlocks_eq hB _ le_rfl]
        exact absorb_keep ctx.state [] (by rw [List.length_nil]; omega)
      rw [hnone]
      rw [hkeep] at hend ⊢
      refine ⟨hstate, ?_, hend⟩
      show List.take (rest ++ input).length _ = _
      rw [List.length_append]
      exact take_memcpy ctx.buffer hrest (Nat.le_of_lt hshort)

/-! ## The length -/

/-- The context has counted `n` bytes. -/
structure Counts (ctx : BlockContext w B σ) (n : Nat) : Prop where
  total0 : ctx.total0 = BitVec.ofNat w n
  total1 : ctx.total1 = BitVec.ofNat w (n / 2 ^ w)

/-- The carry of a sum of words. -/
theorem carry_iff {M a l : Nat} (ha : a < M) (hl : l < M) : (a + l) % M < l ↔ M ≤ a + l := by
  by_cases h : a + l < M
  · rw [Nat.mod_eq_of_lt h]
    omega
  · rw [Nat.mod_eq_sub_mod (Nat.le_of_not_lt h), Nat.mod_eq_of_lt (by omega)]
    omega

theorem addTotal_counts {ctx : BlockContext w B σ} {n : Nat} (h : Counts ctx n) (ilen : Nat) :
    Counts (addTotal ctx ilen) (n + ilen % 2 ^ w) := by
  have hpos : 0 < 2 ^ w := Nat.two_pow_pos w
  have hsum : ctx.total0 + BitVec.ofNat w ilen = BitVec.ofNat w (n + ilen % 2 ^ w) := by
    apply BitVec.eq_of_toNat_eq
    rw [h.total0, BitVec.toNat_add, BitVec.toNat_ofNat, BitVec.toNat_ofNat, BitVec.toNat_ofNat,
      Nat.mod_add_mod]
  have hcarry : ctx.total0 + BitVec.ofNat w ilen < BitVec.ofNat w ilen
      ↔ 2 ^ w ≤ n % 2 ^ w + ilen % 2 ^ w := by
    rw [h.total0, BitVec.lt_def, BitVec.toNat_add, BitVec.toNat_ofNat, BitVec.toNat_ofNat]
    exact carry_iff (Nat.mod_lt _ hpos) (Nat.mod_lt _ hpos)
  refine ⟨hsum, ?_⟩
  show (if ctx.total0 + BitVec.ofNat w ilen < BitVec.ofNat w ilen then ctx.total1 + 1 else ctx.total1) = _
  rw [Nat.add_div hpos, Nat.mod_mod, Nat.div_eq_of_lt (Nat.mod_lt ilen hpos), Nat.add_zero, h.total1]
  by_cases hc : 2 ^ w ≤ n % 2 ^ w + ilen % 2 ^ w
  · rw [if_pos (hcarry.mpr hc), if_pos hc, BitVec.ofNat_add]
    rfl
  · rw [if_neg (fun hlt => hc (hcarry.mp hlt)), if_neg hc, Nat.add_zero]

theorem fillBlock_total (ctx : BlockContext w B σ) (left : Nat) (input : Bytes) :
    (dg.fillBlock ctx left input).1.total0 = ctx.total0 ∧
      (dg.fillBlock ctx left input).1.total1 = ctx.total1 := by
  unfold fillBlock
  by_cases hfill : left ≠ 0 ∧ B - left ≤ input.length
  · simp only [if_pos hfill, and_self]
  · simp only [if_neg hfill, and_self]

theorem update_counts {ctx : BlockContext w B σ} {n : Nat} (h : Counts ctx n) (input : Bytes) :
    Counts (dg.update ctx input) (n + input.length % 2 ^ w) := by
  by_cases hempty : input = []
  · subst hempty
    rw [List.length_nil, Nat.zero_mod]
    exact h
  have hne : input.isEmpty = false := by simpa using hempty
  have htotals := addTotal_counts h input.length
  have hfill := dg.fillBlock_total (addTotal ctx input.length) (ctx.total0.toNat % B) input
  rw [update, hne, if_neg Bool.false_ne_true]
  exact ⟨hfill.1.trans htotals.total0, hfill.2.trans htotals.total1⟩

/-- The bits of the length that do not fit in `total[0] << 3` are the last of `high`. -/
theorem high_eq (hw : 3 ≤ w) (n : Nat) :
    BitVec.ofNat w n >>> (w - 3) ||| BitVec.ofNat w (n / 2 ^ w) <<< 3 = BitVec.ofNat w (8 * n / 2 ^ w) := by
  obtain ⟨v, rfl⟩ : ∃ v, w = v + 3 := ⟨w - 3, by omega⟩
  have hpow : 2 ^ (v + 3) = 8 * 2 ^ v := by ring
  have hpos : 0 < 2 ^ v := Nat.two_pow_pos v
  have hdiv : 8 * n / (8 * 2 ^ v) = n / 2 ^ v := Nat.mul_div_mul_left _ _ (by omega)
  have hlow : n % (8 * 2 ^ v) / 2 ^ v = n / 2 ^ v % 8 := by
    rw [Nat.mul_comm, Nat.mod_mul_right_div_self]
  have hsplit : n / 2 ^ v = 8 * (n / (8 * 2 ^ v)) + n / 2 ^ v % 8 := by
    rw [Nat.mul_comm 8 (2 ^ v), ← Nat.div_div_eq_div_mul, Nat.div_add_mod]
  apply BitVec.eq_of_toNat_eq
  rw [BitVec.toNat_or, BitVec.toNat_ushiftRight, BitVec.toNat_shiftLeft, BitVec.toNat_ofNat,
    BitVec.toNat_ofNat, BitVec.toNat_ofNat, Nat.add_sub_cancel, Nat.shiftRight_eq_div_pow,
    Nat.shiftLeft_eq, hpow, hdiv, hlow]
  have hr : n / 2 ^ v % 8 < 2 ^ 3 := Nat.mod_lt _ (by omega)
  generalize n / (8 * 2 ^ v) = q at hsplit ⊢
  generalize n / 2 ^ v % 8 = r at hsplit hr ⊢
  have hleft : q % (8 * 2 ^ v) * 2 ^ 3 % (8 * 2 ^ v) = 2 ^ 3 * (q % 2 ^ v) := by
    rw [Nat.mod_mul_mod, Nat.mul_comm q]
    exact Nat.mul_mod_mul_left (2 ^ 3) q (2 ^ v)
  have hright : n / 2 ^ v % (8 * 2 ^ v) = 2 ^ 3 * (q % 2 ^ v) + r := by
    have hmod : (8 * q + r) % 8 = r := by omega
    have hquot : (8 * q + r) / 8 = q := by omega
    rw [hsplit, Nat.mod_mul, hmod, hquot, Nat.add_comm]
    rfl
  rw [hleft, hright, Nat.two_pow_add_eq_or_of_lt hr, Nat.or_comm]

/-! ## The end -/

/-- `padn` is one byte and the zeros that fill up the block before the length. -/
theorem padn_eq {e : Nat} (he : e < B) (len : Nat) :
    (if len % B < B - e then B - e - len % B else 2 * B - e - len % B)
      = (B - (len + 1 + e) % B) % B + 1 := by
  have hlast : len % B < B := Nat.mod_lt _ (by omega)
  have hmod : (len + 1 + e) % B = (len % B + (1 + e)) % B := by rw [Nat.mod_add_mod, Nat.add_assoc]
  rw [hmod]
  generalize len % B = last at hlast ⊢
  by_cases hroom : last < B - e
  · by_cases hexact : last + (1 + e) = B
    · rw [if_pos hroom, hexact, Nat.mod_self, Nat.sub_zero, Nat.mod_self]
      omega
    · have hend : (last + (1 + e)) % B = last + (1 + e) := Nat.mod_eq_of_lt (by omega)
      have hzeros : (B - (last + (1 + e))) % B = B - (last + (1 + e)) := Nat.mod_eq_of_lt (by omega)
      rw [if_pos hroom, hend, hzeros]
      omega
  · -- the length goes into one block more
    have hend : (last + (1 + e)) % B = last + (1 + e) - B := by
      rw [Nat.mod_eq_sub_mod (show B ≤ last + (1 + e) by omega)]
      exact Nat.mod_eq_of_lt (by omega)
    have hzeros : (B - (last + (1 + e) - B)) % B = B - (last + (1 + e) - B) :=
      Nat.mod_eq_of_lt (by omega)
    rw [if_neg hroom, hend, hzeros]
    omega

theorem take_padding {n : Nat} (h : n < B) :
    (padding B).take (n + 1) = 0x80 :: List.replicate n 0 := by
  rw [padding, List.take_succ_cons, List.take_replicate, Nat.min_eq_left (by omega)]

theorem length_padded (count : Nat) (message : Bytes) :
    (dg.padded count message).length = (dg.padded count message).length / B * B := by
  have hB := dg.size_pos
  have hlen : (dg.padded count message).length
      = message.length + 1 + w / 4 + (B - (message.length + 1 + w / 4) % B) % B := by
    simp only [padded, List.length_append, List.length_cons, List.length_replicate, dg.length_msglen]
    omega
  have hdvd : B ∣ (dg.padded count message).length := by
    rw [hlen]
    apply Nat.dvd_of_mod_eq_zero
    rw [Nat.add_mod_mod, ← Nat.mod_add_mod, Nat.add_sub_cancel' (Nat.le_of_lt (Nat.mod_lt _ hB)),
      Nat.mod_self]
  exact (Nat.div_mul_cancel hdvd).symm

/-- The end of a context that has taken and counted a message. -/
theorem finish_eq {ctx : BlockContext w B σ} {n : Nat} (message : Bytes) (hc : Counts ctx n)
    (h : Holds ctx (absorb (feed B dg.process) (dg.initial, []) message)) :
    (dg.finish ctx).2 = dg.standard n message := by
  have hB := dg.size_pos
  have hlast : ctx.total0.toNat % B = message.length % B := by
    have hnil : ([] : Bytes).length < B := hB
    rw [← h.left, length_absorb hB _ hnil, List.length_nil, Nat.zero_add]
  have hpad : (padding B).take (if ctx.total0.toNat % B < B - w / 4 then B - w / 4 - ctx.total0.toNat % B
        else 2 * B - w / 4 - ctx.total0.toNat % B)
      = 0x80 :: List.replicate ((B - (message.length + 1 + w / 4) % B) % B) 0 := by
    rw [hlast, padn_eq dg.room, take_padding (Nat.mod_lt _ hB)]
  have hhigh : ctx.total0 >>> (w - 3) ||| ctx.total1 <<< 3 = BitVec.ofNat w (8 * n / 2 ^ w) := by
    rw [hc.total0, hc.total1, high_eq dg.three_le]
  have hlow : ctx.total0 <<< 3 = BitVec.ofNat w (8 * n) := by
    apply BitVec.eq_of_toNat_eq
    rw [hc.total0, BitVec.toNat_shiftLeft, BitVec.toNat_ofNat, BitVec.toNat_ofNat, Nat.shiftLeft_eq,
      Nat.mod_mul_mod, Nat.mul_comm]
  have hend := dg.update_holds (dg.update_holds h
    (0x80 :: List.replicate ((B - (message.length + 1 + w / 4) % B) % B) 0))
    (dg.msglen (BitVec.ofNat w (8 * n / 2 ^ w)) (BitVec.ofNat w (8 * n)))
  have hblocks : absorb (feed B dg.process) (dg.initial, []) (dg.padded n message)
      = (dg.lastState n message, []) := absorb_blocks hB dg.initial (dg.length_padded n message)
  rw [← absorb_append, ← absorb_append] at hend
  rw [padded] at hblocks
  rw [hblocks] at hend
  rw [finish]
  simp only [hpad, hhigh, hlow, hend.state]
  rfl

/-! ## Pieces -/

theorem start_holds (ctx : BlockContext w B σ) : Holds (dg.start ctx) (dg.initial, []) :=
  ⟨rfl, rfl, (Nat.zero_mod B).symm⟩

theorem start_counts (ctx : BlockContext w B σ) : Counts (dg.start ctx) 0 :=
  ⟨rfl, by rw [Nat.zero_div]; rfl⟩

/-- The updates with the pieces of a message. -/
theorem pieces_holds (pieces : List Bytes) {ctx : BlockContext w B σ} {p : σ × Bytes} {n : Nat}
    (h : Holds ctx p) (hc : Counts ctx n) :
    Holds (pieces.foldl dg.update ctx) (absorb (feed B dg.process) p pieces.flatten) ∧
      Counts (pieces.foldl dg.update ctx) (n + counted w pieces) := by
  induction pieces generalizing ctx p n with
  | nil => exact ⟨h, hc⟩
  | cons piece pieces ih =>
    have hcounted : counted w (piece :: pieces) = piece.length % 2 ^ w + counted w pieces := rfl
    rw [List.foldl_cons, List.flatten_cons, absorb_append, hcounted, ← Nat.add_assoc]
    exact ih (dg.update_holds h piece) (dg.update_counts hc piece)

/-- **The digest of a message in pieces.**  It has the blocks of the message, its padding and the length
that was counted, whatever the memory of the context held. -/
theorem finish_pieces (ctx : BlockContext w B σ) (pieces : List Bytes) :
    (dg.finish (pieces.foldl dg.update (dg.start ctx))).2
      = dg.standard (counted w pieces) pieces.flatten := by
  obtain ⟨hholds, hcounts⟩ := dg.pieces_holds pieces (dg.start_holds ctx) (dg.start_counts ctx)
  rw [Nat.zero_add] at hcounts
  exact dg.finish_eq pieces.flatten hcounts hholds

theorem digest_eq (stack : BlockContext w B σ) (message : Bytes) :
    dg.digest stack message = dg.standard (message.length % 2 ^ w) message := by
  have h := dg.finish_pieces stack [message]
  rwa [List.flatten_singleton, counted, List.map_singleton, List.sum_singleton] at h

theorem digest_of_lt (stack : BlockContext w B σ) {message : Bytes} (h : message.length < 2 ^ w) :
    dg.digest stack message = dg.standard message.length message := by
  rw [digest_eq, Nat.mod_eq_of_lt h]

/-! ## Collisions -/

theorem flatten_paddedBlocks (count : Nat) (message : Bytes) :
    (dg.paddedBlocks count message).flatten = dg.padded count message :=
  flatten_blocks (dg.length_padded count message)

/-- The length at the end of a message tells lengths apart. -/
theorem count_inj {n n' : Nat} (hn : 8 * n < 2 ^ (2 * w)) (hn' : 8 * n' < 2 ^ (2 * w))
    (h : dg.msglen (BitVec.ofNat w (8 * n / 2 ^ w)) (BitVec.ofNat w (8 * n))
      = dg.msglen (BitVec.ofNat w (8 * n' / 2 ^ w)) (BitVec.ofNat w (8 * n'))) : n = n' := by
  have hpow : 2 ^ (2 * w) = 2 ^ w * 2 ^ w := by ring
  rw [hpow] at hn hn'
  obtain ⟨hhigh, hlow⟩ := dg.msglen_inj _ _ _ _ h
  have hquot := congrArg BitVec.toNat hhigh
  have hrest := congrArg BitVec.toNat hlow
  rw [BitVec.toNat_ofNat, BitVec.toNat_ofNat] at hquot hrest
  rw [Nat.mod_eq_of_lt (Nat.div_lt_of_lt_mul hn), Nat.mod_eq_of_lt (Nat.div_lt_of_lt_mul hn')] at hquot
  have heq : 8 * n = 8 * n' := by
    rw [← Nat.div_add_mod (8 * n) (2 ^ w), hquot, hrest, Nat.div_add_mod]
  omega

/-- The padding is free of suffixes: a message is the end of another one only if it is this one. -/
theorem eq_of_suffix {m m' : Bytes} (hm : 8 * m.length < 2 ^ (2 * w)) (hm' : 8 * m'.length < 2 ^ (2 * w))
    (h : dg.paddedBlocks m.length m <:+ dg.paddedBlocks m'.length m') : m = m' := by
  obtain ⟨front, hfront⟩ := h
  have hbytes := congrArg List.flatten hfront
  rw [List.flatten_append, flatten_paddedBlocks, flatten_paddedBlocks, padded, padded,
    ← List.append_assoc m, ← List.append_assoc m', ← List.append_assoc] at hbytes
  obtain ⟨hfirst, hlast⟩ := List.append_inj' hbytes (by rw [dg.length_msglen, dg.length_msglen])
  have hlen := dg.count_inj hm hm' hlast
  have hsame := congrArg List.length hfirst
  simp only [List.length_append, List.length_cons, List.length_replicate, hlen] at hsame
  have hnil : front.flatten = [] := List.eq_nil_of_length_eq_zero (by omega)
  rw [hnil, List.nil_append] at hfirst
  exact (List.append_inj hfirst hlen).1

/-- **Collisions.**  Two messages that lead to one state hold a collision of `process`. -/
theorem exists_collision_of_state {m m' : Bytes} (hm : 8 * m.length < 2 ^ (2 * w))
    (hm' : 8 * m'.length < 2 ^ (2 * w)) (hne : m ≠ m')
    (h : dg.lastState m.length m = dg.lastState m'.length m') :
    Collision dg.process (calls dg.process dg.initial (dg.paddedBlocks m.length m))
      (calls dg.process dg.initial (dg.paddedBlocks m'.length m')) :=
  exists_collision (fun hs => hne (dg.eq_of_suffix hm hm' hs))
    (fun hs => hne (dg.eq_of_suffix hm' hm hs).symm) h

/-- The output has the whole state. -/
def Whole : Prop := ∀ s s', dg.output s = dg.output s' → s = s'

/-- The calls of `process` for a message in one call. -/
def messageCalls (message : Bytes) : List (σ × Bytes) :=
  calls dg.process dg.initial (dg.paddedBlocks message.length message)

theorem exists_collision_of_digest (hwhole : dg.Whole) (stack : BlockContext w B σ) {m m' : Bytes}
    (hm : m.length < 2 ^ w) (hm' : m'.length < 2 ^ w) (hne : m ≠ m')
    (h : dg.digest stack m = dg.digest stack m') :
    Collision dg.process (dg.messageCalls m) (dg.messageCalls m') := by
  have hbits : ∀ {n : Nat}, n < 2 ^ w → 8 * n < 2 ^ (2 * w) := by
    intro n hn
    have h8 : 2 ^ 3 ≤ 2 ^ w := Nat.pow_le_pow_right (by omega) dg.three_le
    calc 8 * n < 8 * 2 ^ w := by omega
      _ ≤ 2 ^ w * 2 ^ w := Nat.mul_le_mul_right _ h8
      _ = 2 ^ (2 * w) := by ring
  rw [digest_of_lt _ _ hm, digest_of_lt _ _ hm'] at h
  exact dg.exists_collision_of_state (hbits hm) (hbits hm') hne (hwhole _ _ h)

theorem length_digest (stack : BlockContext w B σ) (message : Bytes) :
    (dg.digest stack message).length = dg.size := dg.length_output _

end BlockDigest

end SetSync
