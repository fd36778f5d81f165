import SetSync.Md2

/-!
# The digest of a stream

`CryptoHash::hash` of `crypto/CryptoHash.cpp`, for data in memory and for a stream, over the message
digest layer `crypto/md.c` of the build without OpenSSL.  Every function of that layer answers 0 when
it succeeds; the loop over the stream goes on while the last answer is 1, as the functions of OpenSSL
answer.  So no byte of the stream is hashed:

    hash target (stream of s) = finish (starts ctx) = digest []                    (hashStream_target)
    with OpenSSL, where each answer is 1, it is digest s                        (hashStreamEvp_target)

A digest is an `MdInfo` over the type of its contexts; `md2_info` is the one of `md2.c`.
-/

namespace SetSync

open Streaming

/-! ## `md.c` -/

def POLARSSL_ERR_MD_BAD_INPUT_DATA : Int := -0x5100
def POLARSSL_ERR_MD_ALLOC_FAILED : Int := -0x5180

/-- `md_info_t`.  `ctx_alloc_func` gives what `malloc` returns, with what is in that memory. -/
structure MdInfo (Ctx : Type) where
  size : Nat
  starts_func : Ctx → Ctx
  update_func : Ctx → Bytes → Ctx
  finish_func : Ctx → Ctx × Bytes
  digest_func : Bytes → Bytes
  ctx_alloc_func : Option Ctx

/-- `md_context_t`; `none` is `NULL`, and a function of `MdInfo` is never reached with it. -/
structure MdContext (Ctx : Type) where
  md_info : Option (MdInfo Ctx)
  md_ctx : Option Ctx

section Md

variable {Ctx : Type}

def md_init_ctx (ctx : MdContext Ctx) (md_info : Option (MdInfo Ctx)) : Int × MdContext Ctx :=
  match md_info with
  | none => (POLARSSL_ERR_MD_BAD_INPUT_DATA, ctx)
  | some info =>
    -- the context is cleared first
    match info.ctx_alloc_func with
    | none => (POLARSSL_ERR_MD_ALLOC_FAILED, ⟨none, none⟩)
    | some md_ctx => (0, ⟨some info, some (info.starts_func md_ctx)⟩)

def md_free_ctx (ctx : MdContext Ctx) : Int × MdContext Ctx :=
  match ctx.md_info with
  | none => (POLARSSL_ERR_MD_BAD_INPUT_DATA, ctx)
  | some _ => (0, { ctx with md_ctx := none })

def md_starts (ctx : MdContext Ctx) : Int × MdContext Ctx :=
  match ctx.md_info with
  | none => (POLARSSL_ERR_MD_BAD_INPUT_DATA, ctx)
  | some info => (0, { ctx with md_ctx := ctx.md_ctx.map info.starts_func })

def md_update (ctx : MdContext Ctx) (input : Bytes) : Int × MdContext Ctx :=
  match ctx.md_info with
  | none => (POLARSSL_ERR_MD_BAD_INPUT_DATA, ctx)
  | some info => (0, { ctx with md_ctx := ctx.md_ctx.map (info.update_func · input) })

/-- The last part is `output` after the call. -/
def md_finish (ctx : MdContext Ctx) (output : Bytes) : Int × MdContext Ctx × Bytes :=
  match ctx.md_info, ctx.md_ctx with
  | some info, some md_ctx => (0, { ctx with md_ctx := some (info.finish_func md_ctx).1 },
      (info.finish_func md_ctx).2)
  | some _, none => (0, ctx, output)
  | none, _ => (POLARSSL_ERR_MD_BAD_INPUT_DATA, ctx, output)

def md (md_info : Option (MdInfo Ctx)) (input output : Bytes) : Int × Bytes :=
  match md_info with
  | none => (POLARSSL_ERR_MD_BAD_INPUT_DATA, output)
  | some info => (0, info.digest_func input)

end Md

/-! ## `CryptoHash::hash` -/

/-- `while (in.get(ch) && result == 1) result = update(ch);` over the bytes of the stream that are
left: the last answer, the context, and what is left of the stream then. -/
def getLoop {Ctx : Type} (update : Ctx → UInt8 → Int × Ctx) :
    Bytes → Int → Ctx → Int × Ctx × Bytes
  | [], result, ctx => (result, ctx, [])
  | ch :: stream, result, ctx =>
    -- `get` comes first: the byte is gone when the answer is looked at
    if result == 1 then getLoop update stream (update ctx ch).1 (update ctx ch).2
    else (result, ctx, stream)

/-- What a call of `hash` for a stream leaves. -/
structure HashOutput where
  result : Int
  target_md : Bytes
  stream : Bytes
deriving DecidableEq

namespace MdInfo

variable {Ctx : Type}

/-- `hash(target_md, data, length)`: the answer, and the target. -/
def hashData (digit : MdInfo Ctx) (target_md data : Bytes) : Int × Bytes := md (some digit) data target_md

/-- `hash(target_md, in)`; the context `mdctx` is on the stack. -/
def hashStream (digit : MdInfo Ctx) (mdctx : MdContext Ctx) (target_md stream : Bytes) : HashOutput :=
  let mdctx := (md_init_ctx mdctx (some digit)).2
  let p := md_starts mdctx
  let q := getLoop (fun ctx ch => md_update ctx [ch]) stream p.1 p.2
  let r := md_finish q.2.1 target_md
  ⟨(md_free_ctx r.2.1).1, r.2.2, q.2.2⟩

/-- The digest of `s` does not depend on the pieces in which it is updated, nor on the memory of the
context. -/
def Piecewise (digit : MdInfo Ctx) (s : Bytes) : Prop := ∀ ctx (pieces : List Bytes), pieces.flatten = s →
  (digit.finish_func (pieces.foldl digit.update_func (digit.starts_func ctx))).2 = digit.digest_func s

/-- Starting and finishing gives the digest of the empty input. -/
def FinishesEmpty (digit : MdInfo Ctx) : Prop := ∀ ctx,
  (digit.finish_func (digit.starts_func ctx)).2 = digit.digest_func []

end MdInfo

/-- `EVP_DigestInit_ex`, `EVP_DigestUpdate` and `EVP_DigestFinal_ex` of OpenSSL, for one digest. -/
structure Evp (Ctx : Type) where
  digestInit : Int × Ctx
  digestUpdate : Ctx → Bytes → Int × Ctx
  digestFinal : Ctx → Int × Ctx × Bytes

namespace Evp

variable {Ctx : Type}

/-- `hash(target_md, data, length)` of the build with OpenSSL: the target. -/
def hashData (digit : Evp Ctx) (data : Bytes) : Bytes :=
  (digit.digestFinal (digit.digestUpdate digit.digestInit.2 data).2).2.2

/-- `hash(target_md, in)` of the build with OpenSSL: the target, and what is left of the stream. -/
def hashStream (digit : Evp Ctx) (stream : Bytes) : Bytes × Bytes :=
  let p := digit.digestInit
  let q := getLoop (fun ctx ch => digit.digestUpdate ctx [ch]) stream p.1 p.2
  ((digit.digestFinal q.2.1).2.2, q.2.2)

end Evp

/-! ## The loop over the stream -/

section Loop

variable {Ctx : Type} (update : Ctx → UInt8 → Int × Ctx)

/-- An answer other than 1 ends the loop before it starts, one byte later in the stream. -/
theorem getLoop_of_ne (stream : Bytes) {result : Int} (ctx : Ctx) (h : result ≠ 1) :
    getLoop update stream result ctx = (result, ctx, stream.drop 1) := by
  cases stream with
  | nil => rfl
  | cons ch stream =>
    have hcond : (result == 1) = false := beq_eq_false_iff_ne.mpr h
    rw [getLoop, hcond, if_neg Bool.false_ne_true]
    rfl

/-- As long as every answer is 1, the loop takes the whole stream. -/
theorem getLoop_of_one (h : ∀ ctx ch, (update ctx ch).1 = 1) (stream : Bytes) (ctx : Ctx) :
    getLoop update stream 1 ctx = (1, absorb (fun ctx ch => (update ctx ch).2) ctx stream, []) := by
  induction stream generalizing ctx with
  | nil => rfl
  | cons ch stream ih =>
    rw [getLoop, if_pos (beq_self_eq_true (1 : Int)), h ctx ch, ih]
    rfl

end Loop

/-- With OpenSSL, a stream has the digest of its bytes. -/
theorem Evp.hashStream_target {Ctx : Type} (digit : Evp Ctx) (hinit : digit.digestInit.1 = 1)
    (hupdate : ∀ ctx data, (digit.digestUpdate ctx data).1 = 1)
    (hpieces : Absorbs (fun ctx ch => (digit.digestUpdate ctx [ch]).2)
      (fun ctx data => (digit.digestUpdate ctx data).2)) (s : Bytes) :
    digit.hashStream s = (digit.hashData s, []) := by
  have hloop := getLoop_of_one (fun ctx ch => digit.digestUpdate ctx [ch])
    (fun ctx ch => hupdate ctx [ch]) s digit.digestInit.2
  have habsorb := hpieces digit.digestInit.2 s
  simp only [Evp.hashStream, hinit, hloop, Evp.hashData, habsorb]

namespace MdInfo

variable {Ctx : Type} {digit : MdInfo Ctx}

theorem Piecewise.finishesEmpty (h : digit.Piecewise []) : digit.FinishesEmpty := fun ctx => h ctx [] rfl

/-- The last function called before the loop has answered 0: whatever the stream holds, the target is
the digest of nothing. -/
theorem hashStream_target (hempty : digit.FinishesEmpty) {ctx : Ctx}
    (halloc : digit.ctx_alloc_func = some ctx) (mdctx : MdContext Ctx) (target_md s : Bytes) :
    digit.hashStream mdctx target_md s = ⟨0, digit.digest_func [], s.drop 1⟩ := by
  have hinit : (md_init_ctx mdctx (some digit)).2 = ⟨some digit, some (digit.starts_func ctx)⟩ := by
    simp only [md_init_ctx, halloc]
  have hstarts : md_starts ⟨some digit, some (digit.starts_func ctx)⟩
      = (0, ⟨some digit, some (digit.starts_func (digit.starts_func ctx))⟩) := rfl
  have hnothing : (digit.finish_func (digit.starts_func (digit.starts_func ctx))).2
      = digit.digest_func [] := hempty (digit.starts_func ctx)
  have hloop := getLoop_of_ne (fun ctx ch => md_update ctx [ch]) s
    ⟨some digit, some (digit.starts_func (digit.starts_func ctx))⟩ (show (0 : Int) ≠ 1 by decide)
  simp only [hashStream, hinit, hstarts, hloop, md_finish, hnothing, md_free_ctx]

/-- A stream is hashed to the digest of its bytes only if it is empty. -/
theorem hash_stream_iff (hempty : digit.FinishesEmpty) {ctx : Ctx}
    (halloc : digit.ctx_alloc_func = some ctx) (mdctx : MdContext Ctx) (target_md s : Bytes)
    (hdiff : s ≠ [] → digit.digest_func s ≠ digit.digest_func []) :
    (digit.hashStream mdctx target_md s).target_md = (digit.hashData target_md s).2 ↔ s = [] := by
  rw [hashStream_target hempty halloc]
  show digit.digest_func [] = digit.digest_func s ↔ s = []
  constructor
  · intro h
    by_contra hne
    exact hdiff hne h.symm
  · rintro rfl
    rfl

end MdInfo

/-! ## MD2 -/

/-- `md2_info`, with what `malloc` returns and what is on the stack under `md2`. -/
def md2_info (alloc : Option Md2Context) (stack : Md2Context) : MdInfo Md2Context where
  size := 16
  starts_func := md2_starts
  update_func := md2_update
  finish_func := md2_finish
  digest_func := md2 stack
  ctx_alloc_func := alloc

theorem md2_piecewise (alloc : Option Md2Context) (stack : Md2Context) (s : Bytes) :
    (md2_info alloc stack).Piecewise s := by
  rintro ctx pieces rfl
  simp only [md2_info, md2_pieces ctx stack pieces]

theorem md2_finishesEmpty (alloc : Option Md2Context) (stack : Md2Context) :
    (md2_info alloc stack).FinishesEmpty := (md2_piecewise alloc stack []).finishesEmpty

/-- The digest function of the model, when it is MD2: what `hash(target_md, data, length)` writes. -/
def md2Hash (stack : Md2Context) : CryptoHash 16 where
  digest data := ⟨md2 stack data, length_md2 stack data⟩

theorem md2Hash_digest (alloc : Option Md2Context) (stack : Md2Context) (target_md data : Bytes) :
    ((md2Hash stack).digest data).bytes = ((md2_info alloc stack).hashData target_md data).2 := by
  simp only [md2Hash, MdInfo.hashData, md, md2_info]

theorem md2_letter : md2 zeroContext [0x61] ≠ md2 zeroContext [] := by decide +kernel

theorem hash_stream_sample :
    let digit := md2_info (some zeroContext) zeroContext
    (digit.hashStream ⟨none, none⟩ [] [0x61]).target_md ≠ (digit.hashData [] [0x61]).2 ∧
      (digit.hashStream ⟨none, none⟩ [] []).target_md = (digit.hashData [] []).2 := by
  have hletter := MdInfo.hash_stream_iff (md2_finishesEmpty (some zeroContext) zeroContext) rfl ⟨none, none⟩
    [] [0x61] (fun _ => md2_letter)
  have hempty := MdInfo.hash_stream_iff (md2_finishesEmpty (some zeroContext) zeroContext) rfl ⟨none, none⟩
    [] [] (fun h => absurd rfl h)
  exact ⟨fun h => List.cons_ne_nil _ _ (hletter.mp h), hempty.mpr rfl⟩

/-- The stream of one letter, under MD2: its digest is that of the empty stream. -/
theorem letter_not_hashed :
    let digit := md2_info (some zeroContext) zeroContext
    digit.Piecewise [] ∧ digit.Piecewise [0x61] ∧
      (digit.hashData [] [0x61]).2 ≠ (digit.hashData [] []).2 ∧
      (digit.hashStream ⟨none, none⟩ [] [0x61]).target_md ≠ (digit.hashData [] [0x61]).2 := by
  refine ⟨md2_piecewise _ _ _, md2_piecewise _ _ _, md2_letter, ?_⟩
  rw [MdInfo.hashStream_target (md2_finishesEmpty _ _) rfl]
  exact md2_letter.symm

end SetSync
