import SetSync.Bits
import SetSync.Lib.Streaming

/-!
# MD2

`crypto/md2.c`: the context of 16 bytes of checksum, 48 bytes of state and a buffer that is
processed when it holds 16 bytes.  `md2_update` fills the buffer with as much of its input as fits,
round after round; it leaves the context that its bytes one by one leave.

    md2_update ctx input = absorb md2_feed ctx input                             (md2_update_absorbs)
    md2_finish (pieces.foldl md2_update (md2_starts ctx)) = md2 pieces.flatten           (md2_pieces)

`md2_starts` clears 46 of the 48 bytes of the state.  The other two are not read before they are
written (`md2_process_similar`), so what the memory of a context held makes no difference.
-/

namespace SetSync

open Streaming

def PI_SUBST : Bytes := [
  0x29, 0x2E, 0x43, 0xC9, 0xA2, 0xD8, 0x7C, 0x01, 0x3D, 0x36,
  0x54, 0xA1, 0xEC, 0xF0, 0x06, 0x13, 0x62, 0xA7, 0x05, 0xF3,
  0xC0, 0xC7, 0x73, 0x8C, 0x98, 0x93, 0x2B, 0xD9, 0xBC, 0x4C,
  0x82, 0xCA, 0x1E, 0x9B, 0x57, 0x3C, 0xFD, 0xD4, 0xE0, 0x16,
  0x67, 0x42, 0x6F, 0x18, 0x8A, 0x17, 0xE5, 0x12, 0xBE, 0x4E,
  0xC4, 0xD6, 0xDA, 0x9E, 0xDE, 0x49, 0xA0, 0xFB, 0xF5, 0x8E,
  0xBB, 0x2F, 0xEE, 0x7A, 0xA9, 0x68, 0x79, 0x91, 0x15, 0xB2,
  0x07, 0x3F, 0x94, 0xC2, 0x10, 0x89, 0x0B, 0x22, 0x5F, 0x21,
  0x80, 0x7F, 0x5D, 0x9A, 0x5A, 0x90, 0x32, 0x27, 0x35, 0x3E,
  0xCC, 0xE7, 0xBF, 0xF7, 0x97, 0x03, 0xFF, 0x19, 0x30, 0xB3,
  0x48, 0xA5, 0xB5, 0xD1, 0xD7, 0x5E, 0x92, 0x2A, 0xAC, 0x56,
  0xAA, 0xC6, 0x4F, 0xB8, 0x38, 0xD2, 0x96, 0xA4, 0x7D, 0xB6,
  0x76, 0xFC, 0x6B, 0xE2, 0x9C, 0x74, 0x04, 0xF1, 0x45, 0x9D,
  0x70, 0x59, 0x64, 0x71, 0x87, 0x20, 0x86, 0x5B, 0xCF, 0x65,
  0xE6, 0x2D, 0xA8, 0x02, 0x1B, 0x60, 0x25, 0xAD, 0xAE, 0xB0,
  0xB9, 0xF6, 0x1C, 0x46, 0x61, 0x69, 0x34, 0x40, 0x7E, 0x0F,
  0x55, 0x47, 0xA3, 0x23, 0xDD, 0x51, 0xAF, 0x3A, 0xC3, 0x5C,
  0xF9, 0xCE, 0xBA, 0xC5, 0xEA, 0x26, 0x2C, 0x53, 0x0D, 0x6E,
  0x85, 0x28, 0x84, 0x09, 0xD3, 0xDF, 0xCD, 0xF4, 0x41, 0x81,
  0x4D, 0x52, 0x6A, 0xDC, 0x37, 0xC8, 0x6C, 0xC1, 0xAB, 0xFA,
  0x24, 0xE1, 0x7B, 0x08, 0x0C, 0xBD, 0xB1, 0x4A, 0x78, 0x88,
  0x95, 0x8B, 0xE3, 0x63, 0xE8, 0x6D, 0xE9, 0xCB, 0xD5, 0xFE,
  0x3B, 0x00, 0x1D, 0x39, 0xF2, 0xEF, 0xB7, 0x0E, 0x66, 0x58,
  0xD0, 0xE4, 0xA6, 0x77, 0x72, 0xF8, 0xEB, 0x75, 0x4B, 0x0A,
  0x31, 0x44, 0x50, 0xB4, 0x8F, 0xED, 0x1F, 0x1A, 0xDB, 0x99,
  0x8D, 0x33, 0x9F, 0x11, 0x83, 0x14]

/-- The arrays are of fixed sizes; `left` bytes of the buffer are not processed yet. -/
structure Md2Context where
  cksum : Digest 16
  state : Digest 48
  buffer : Digest 16
  left : Fin 16

/-- `memcpy(target + offset, source, size of source)` -/
def memcpy (target : Bytes) (offset : Nat) : Bytes → Bytes
  | [] => target
  | b :: source => memcpy (target.set offset b) (offset + 1) source

theorem length_memcpy (target : Bytes) (offset : Nat) (source : Bytes) :
    (memcpy target offset source).length = target.length := by
  induction source generalizing target offset with
  | nil => rfl
  | cons b source ih => rw [memcpy, ih, List.length_set]

namespace Digest

def memcpy {m : Nat} (target : Digest m) (offset : Nat) (source : Bytes) : Digest m :=
  ⟨SetSync.memcpy target.bytes offset source, by rw [length_memcpy, target.length_bytes]⟩

end Digest

def md2_starts (ctx : Md2Context) : Md2Context where
  cksum := ctx.cksum.memcpy 0 (List.replicate 16 0)
  state := ctx.state.memcpy 0 (List.replicate 46 0)
  buffer := ctx.buffer.memcpy 0 (List.replicate 16 0)
  left := 0

/-- A context in memory that holds zeros. -/
def zeroContext : Md2Context where
  cksum := byteKey 16 0
  state := byteKey 48 0
  buffer := byteKey 16 0
  left := 0

/-- The first loop of `md2_process` keeps the first 16 bytes of the state, and puts the buffer and its
sum with them behind. -/
def loadBlock (state : Digest 48) (buffer : Digest 16) : Digest 48 :=
  ⟨state.bytes.take 16 ++ (buffer.bytes ++ List.zipWith (· ^^^ ·) buffer.bytes (state.bytes.take 16)), by
    simp [Digest.length_bytes]⟩

/-- Every byte of `state` is changed by the `PI_SUBST` of the one before it, the first by that of `t`. -/
def substitute : Bytes → UInt8 → Bytes × UInt8
  | [], t => ([], t)
  | x :: state, t =>
    let y := x ^^^ PI_SUBST.getD t.toNat 0
    let p := substitute state y
    (y :: p.1, p.2)

theorem length_substitute (state : Bytes) (t : UInt8) : (substitute state t).1.length = state.length := by
  induction state generalizing t with
  | nil => rfl
  | cons x state ih => exact congrArg Nat.succ (ih _)

/-- The first `rounds` rounds of `md2_process`, with the `t` they leave. -/
def mixRounds (state : Bytes) (rounds : Nat) : Bytes × UInt8 :=
  (List.range rounds).foldl (fun p i =>
    let q := substitute p.1 p.2
    (q.1, q.2 + UInt8.ofNat i)) (state, 0)

theorem length_mixRounds (state : Bytes) (rounds : Nat) :
    (mixRounds state rounds).1.length = state.length := by
  induction rounds with
  | zero => rfl
  | succ rounds ih =>
    rw [mixRounds, List.range_succ, List.foldl_append]
    exact (length_substitute _ _).trans ih

/-- The last loop of `md2_process`. -/
def mixChecksum : Bytes → Bytes → UInt8 → Bytes
  | x :: cksum, b :: buffer, t =>
    let y := x ^^^ PI_SUBST.getD (b ^^^ t).toNat 0
    y :: mixChecksum cksum buffer y
  | cksum, _, _ => cksum

theorem length_mixChecksum (cksum buffer : Bytes) (t : UInt8) :
    (mixChecksum cksum buffer t).length = cksum.length := by
  induction cksum generalizing buffer t with
  | nil => rfl
  | cons x cksum ih =>
    cases buffer with
    | nil => rfl
    | cons b buffer => exact congrArg Nat.succ (ih _ _)

def md2_process (ctx : Md2Context) : Md2Context :=
  { ctx with
    state := ⟨(mixRounds (loadBlock ctx.state ctx.buffer).bytes 18).1, by
      rw [length_mixRounds, Digest.length_bytes]⟩
    cksum := ⟨mixChecksum ctx.cksum.bytes ctx.buffer.bytes (ctx.cksum.bytes.getD 15 0), by
      rw [length_mixChecksum, Digest.length_bytes]⟩ }

/-- `fill` of `md2_update`. -/
def md2_fill (ctx : Md2Context) (input : Bytes) : Nat :=
  if ctx.left + input.length > 16 then 16 - ctx.left else input.length

/-- One round of `md2_update`, with the bytes of its input that fit. -/
def md2_round (ctx : Md2Context) (input : Bytes) : Md2Context :=
  let buffer := ctx.buffer.memcpy ctx.left input
  if h : ctx.left + input.length < 16 then
    { ctx with buffer := buffer, left := ⟨ctx.left + input.length, h⟩ }
  else md2_process { ctx with buffer := buffer, left := 0 }

def md2_update (ctx : Md2Context) (input : Bytes) : Md2Context :=
  chunked md2_fill md2_round input.length ctx input

/-- The rest of the buffer, filled with its size. -/
def md2_pad (ctx : Md2Context) : Md2Context :=
  let x := UInt8.ofNat (16 - ctx.left)
  { ctx with buffer := ctx.buffer.memcpy ctx.left (List.replicate (16 - ctx.left) x) }

/-- The context at the end, and the output. -/
def md2_finish (ctx : Md2Context) : Md2Context × Bytes :=
  let ctx := md2_process (md2_pad ctx)
  let ctx := md2_process { ctx with buffer := ctx.buffer.memcpy 0 ctx.cksum.bytes }
  (ctx, ctx.state.bytes.take 16)

/-- `md2`, with its context on the stack. -/
def md2 (ctx : Md2Context) (input : Bytes) : Bytes := (md2_finish (md2_update (md2_starts ctx) input)).2

/-! ## Bytes one by one -/

/-- The context after one more byte. -/
def md2_feed (ctx : Md2Context) (b : UInt8) : Md2Context := md2_round ctx [b]

theorem md2_fill_pos (ctx : Md2Context) {input : Bytes} (h : input ≠ []) : 0 < md2_fill ctx input := by
  have hleft := ctx.left.isLt
  have hlen := List.length_pos_iff.mpr h
  unfold md2_fill
  split <;> omega

theorem md2_fill_le (ctx : Md2Context) (input : Bytes) :
    md2_fill ctx input ≤ input.length ∧ ctx.left + md2_fill ctx input ≤ 16 := by
  have hleft := ctx.left.isLt
  unfold md2_fill
  split <;> omega

/-- A byte that does not fill the buffer, and the rest of the round. -/
theorem md2_round_cons (ctx : Md2Context) (b : UInt8) {input : Bytes} (hne : input ≠ [])
    (hfits : ctx.left + (b :: input).length ≤ 16) :
    md2_round ctx (b :: input) = md2_round (md2_feed ctx b) input := by
  have hpos := List.length_pos_iff.mpr hne
  rw [List.length_cons] at hfits
  have hroom : ctx.left + [b].length < 16 := by
    rw [List.length_singleton]
    omega
  have hfeed : md2_feed ctx b
      = { ctx with buffer := ctx.buffer.memcpy ctx.left [b], left := ⟨ctx.left + 1, hroom⟩ } := by
    rw [md2_feed, md2_round]
    exact dif_pos hroom
  have hlen : ctx.left + (b :: input).length = ctx.left + 1 + input.length := by
    rw [List.length_cons]
    omega
  rw [hfeed]
  simp only [md2_round, hlen]
  rfl

theorem md2_round_absorbs (ctx : Md2Context) {input : Bytes} (hne : input ≠ [])
    (hfits : ctx.left + input.length ≤ 16) : md2_round ctx input = absorb md2_feed ctx input := by
  induction input generalizing ctx with
  | nil => exact absurd rfl hne
  | cons b input ih =>
    by_cases hrest : input = []
    · subst hrest
      rfl
    · have hpos := List.length_pos_iff.mpr hrest
      rw [List.length_cons] at hfits
      have hroom : ctx.left + [b].length < 16 := by
        rw [List.length_singleton]
        omega
      have hleft : ((md2_feed ctx b).left : Nat) = ctx.left + 1 := by
        rw [md2_feed, md2_round, dif_pos hroom]
        rfl
      rw [md2_round_cons ctx b hrest hfits, ih _ hrest (by omega)]
      rfl

/-- A whole update leaves the context of its bytes one by one. -/
theorem md2_update_absorbs : Absorbs md2_feed md2_update := by
  intro ctx input
  refine absorbs_chunked (fun ctx input h => md2_fill_pos ctx h) (fun ctx input h => ?_) ctx le_rfl
  have hfill := md2_fill_le ctx input
  have hpos := md2_fill_pos ctx h
  have hlen : (input.take (md2_fill ctx input)).length = md2_fill ctx input := by
    rw [List.length_take]
    omega
  refine md2_round_absorbs ctx (List.ne_nil_of_length_pos (by omega)) (by omega)

/-! ## What the memory held -/

/-- Contexts that differ in the bytes of the state that are written before they are read. -/
structure Similar (c c' : Md2Context) : Prop where
  cksum : c.cksum = c'.cksum
  buffer : c.buffer = c'.buffer
  left : c.left = c'.left
  state : c.state.bytes.take 16 = c'.state.bytes.take 16

theorem md2_process_similar {c c' : Md2Context} (h : Similar c c') : md2_process c = md2_process c' := by
  obtain ⟨k, s, b, l⟩ := c
  obtain ⟨k', s', b', l'⟩ := c'
  obtain ⟨rfl, rfl, rfl, hstate⟩ := h
  have hload : loadBlock s b = loadBlock s' b := by
    unfold loadBlock
    simp only [show s.bytes.take 16 = s'.bytes.take 16 from hstate]
  simp only [md2_process, hload]

theorem md2_feed_similar (c c' : Md2Context) (b : UInt8) (h : Similar c c') :
    Similar (md2_feed c b) (md2_feed c' b) := by
  obtain ⟨k, s, buffer, l⟩ := c
  obtain ⟨k', s', buffer', l'⟩ := c'
  obtain ⟨rfl, rfl, rfl, hstate⟩ := h
  unfold md2_feed md2_round
  by_cases hroom : (l : Nat) + [b].length < 16
  · simp only [dif_pos hroom]
    exact ⟨rfl, rfl, rfl, hstate⟩
  · simp only [dif_neg hroom]
    have hprocess : md2_process ⟨k, s, buffer.memcpy l [b], 0⟩
        = md2_process ⟨k, s', buffer.memcpy l [b], 0⟩ := md2_process_similar ⟨rfl, rfl, rfl, hstate⟩
    rw [hprocess]
    exact ⟨rfl, rfl, rfl, rfl⟩

theorem md2_finish_similar {c c' : Md2Context} (h : Similar c c') : md2_finish c = md2_finish c' := by
  have hpad : Similar (md2_pad c) (md2_pad c') := by
    refine ⟨h.cksum, ?_, h.left, h.state⟩
    simp only [md2_pad, h.buffer, h.left]
  simp only [md2_finish, md2_process_similar hpad]

theorem memcpy_eq {target : Bytes} {offset : Nat} {source : Bytes}
    (h : offset + source.length ≤ target.length) :
    memcpy target offset source
      = target.take offset ++ (source ++ target.drop (offset + source.length)) := by
  induction source generalizing target offset with
  | nil =>
    rw [memcpy, List.nil_append, List.length_nil, Nat.add_zero, List.take_append_drop]
  | cons b source ih =>
    rw [List.length_cons] at h
    have hset : target.set offset b = (target.take offset ++ [b]) ++ target.drop (offset + 1) := by
      rw [List.set_eq_take_append_cons_drop, if_pos (by omega), List.append_assoc]
      rfl
    have hlen : (target.take offset ++ [b]).length = offset + 1 := by
      rw [List.length_append, List.length_take, List.length_singleton]
      omega
    have htake : (target.set offset b).take (offset + 1) = target.take offset ++ [b] := by
      rw [hset, List.take_left' hlen]
    have hdrop : (target.set offset b).drop (offset + 1 + source.length)
        = target.drop (offset + (b :: source).length) := by
      rw [List.drop_set_of_lt (by omega), List.length_cons]
      congr 1
      omega
    rw [memcpy, ih (by rw [List.length_set]; omega), htake, hdrop, List.append_assoc]
    rfl

/-- What a copy to the start covers is what was copied. -/
theorem Digest.take_memcpy {m k : Nat} (a : Digest m) {source : Bytes} (hk : k ≤ source.length)
    (hm : source.length ≤ m) : (a.memcpy 0 source).bytes.take k = source.take k := by
  have hcopy : SetSync.memcpy a.bytes 0 source = source ++ a.bytes.drop source.length := by
    rw [memcpy_eq (by rw [a.length_bytes]; omega), List.take_zero, List.nil_append, Nat.zero_add]
  show (SetSync.memcpy a.bytes 0 source).take k = source.take k
  rw [hcopy, List.take_append_of_le_length hk]

theorem Digest.memcpy_whole {m : Nat} (a b : Digest m) {source : Bytes} (h : source.length = m) :
    a.memcpy 0 source = b.memcpy 0 source := by
  have hwhole : ∀ x : Digest m, (x.memcpy 0 source).bytes = source := by
    intro x
    have htake := x.take_memcpy (Nat.le_of_eq h.symm) (Nat.le_of_eq h)
    rwa [List.take_of_length_le (Nat.le_of_eq (Digest.length_bytes _)),
      List.take_of_length_le (Nat.le_of_eq h)] at htake
  exact Digest.ext ((hwhole a).trans (hwhole b).symm)

theorem md2_starts_similar (c c' : Md2Context) : Similar (md2_starts c) (md2_starts c') := by
  have hcleared : ∀ x : Digest 48,
      (x.memcpy 0 (List.replicate 46 0)).bytes.take 16 = (List.replicate 46 0).take 16 := by
    intro x
    refine x.take_memcpy ?_ ?_ <;> rw [List.length_replicate] <;> omega
  exact {
    cksum := Digest.memcpy_whole _ _ List.length_replicate
    buffer := Digest.memcpy_whole _ _ List.length_replicate
    left := rfl
    state := (hcleared c.state).trans (hcleared c'.state).symm }

/-- However the input is cut, and whatever the two contexts held. -/
theorem md2_pieces (c c' : Md2Context) (pieces : List Bytes) :
    (md2_finish (pieces.foldl md2_update (md2_starts c))).2 = md2 c' pieces.flatten := by
  have hpieces := md2_update_absorbs.pieces (md2_starts c) pieces
  have hwhole := md2_update_absorbs (md2_starts c') pieces.flatten
  have hsimilar : Similar (absorb md2_feed (md2_starts c) pieces.flatten)
      (absorb md2_feed (md2_starts c') pieces.flatten) :=
    absorb_related md2_feed_similar (md2_starts_similar c c') pieces.flatten
  unfold md2
  rw [hpieces, hwhole, md2_finish_similar hsimilar]

theorem length_md2 (ctx : Md2Context) (input : Bytes) : (md2 ctx input).length = 16 := by
  rw [md2, md2_finish, List.length_take, Digest.length_bytes]
  rfl

end SetSync
