import Yjc.Util.Sha256

/-! The contexts of `util/sha256.c`: whatever the parts in which a message comes, the digest is that of the whole message. -/

namespace Yjc.Sha256
open Mem BlockStream
open SecureHash (Word)

structure Sha256Ctx where
  state : Registers Word 8
  count0 : Word
  count1 : Word
  buf : List UInt8
  length_buf : buf.length = 64

variable {ctx : Sha256Ctx} {msg src : List UInt8}

/-- `memcpy(&ctx->buf[i], src, len)`. -/
def Sha256Ctx.copy (ctx : Sha256Ctx) (i : ℕ) (src : List UInt8) : Option Sha256Ctx :=
  if h : i + src.length ≤ ctx.buf.length then
    some { ctx with buf := store ctx.buf i src, length_buf := (length_store h).trans ctx.length_buf }
  else none

def iv : Registers Word 8 := #v[0x6A09E667, 0xBB67AE85, 0x3C6EF372, 0xA54FF53A, 0x510E527F, 0x9B05688C, 0x1F83D9AB, 0x5BE0CD19]

def init (ctx : Sha256Ctx) : Sha256Ctx := { ctx with state := iv, count0 := 0, count1 := 0 }

def Sha256Ctx.pending (ctx : Sha256Ctx) : ℕ := ((ctx.count1 >>> 3) &&& 0x3f).toNat

/-- The loop over complete blocks, with what is left of `src`. -/
def transformAll (state : Registers Word 8) (src : List UInt8) : Registers Word 8 × List UInt8 :=
  if 64 ≤ src.length then transformAll (transform state (src.take 64)) (src.drop 64) else (state, src)
termination_by src.length
decreasing_by
  rw [List.length_drop]
  omega

def update (ctx : Sha256Ctx) (src : List UInt8) : Option Sha256Ctx :=
  let r := ctx.pending
  let bitlen1 := BitVec.ofNat 32 src.length <<< 3
  let bitlen0 := BitVec.ofNat 32 (src.length >>> 29)
  let count1 := ctx.count1 + bitlen1
  let count0 := (if count1 < bitlen1 then ctx.count0 + 1 else ctx.count0) + bitlen0
  let ctx := { ctx with count0 := count0, count1 := count1 }
  if src.length < 64 - r then ctx.copy r src
  else do
    let ctx ← ctx.copy r (src.take (64 - r))
    let (state, src) := transformAll (transform ctx.state ctx.buf) (src.drop (64 - r))
    { ctx with state := state }.copy 0 src

def PAD : List UInt8 := 0x80 :: List.replicate 63 0

def pad (ctx : Sha256Ctx) : Option Sha256Ctx := do
  let len := be32encVect [ctx.count0, ctx.count1]
  let r := ctx.pending
  let plen := if r < 56 then 56 - r else 120 - r
  let ctx ← update ctx (PAD.take plen)
  update ctx len

/-- A context after `explicit_bzero`. -/
def cleared : Sha256Ctx := ⟨Vector.replicate 8 0, 0, 0, List.replicate 64 0, List.length_replicate⟩

/-- The digest and the context, which is cleared. -/
def final (ctx : Sha256Ctx) : Option (List UInt8 × Sha256Ctx) := (pad ctx).map fun ctx => (be32encVect ctx.state.toList, cleared)

/-- `SHA256`, which takes the bytes one by one and ends the digest with a NUL. -/
def SHA256 (hashOut : List UInt8) (ctx : Sha256Ctx) (str : List UInt8) : Option (List UInt8 × Sha256Ctx) := do
  let ctx ← str.foldlM (fun ctx b => update ctx [b]) (init ctx)
  let (digest, ctx) ← final ctx
  let hashOut ← write hashOut 0 digest
  let hashOut ← write hashOut 32 [0]
  some (hashOut, ctx)

def sha256 (ctx : Sha256Ctx) (input : List UInt8) : Option (List UInt8 × Sha256Ctx) := (update (init ctx) input).bind final

/-! ## What a context holds -/

structure Hashed (ctx : Sha256Ctx) (msg : List UInt8) : Prop where
  tracks : Tracks 64 transform iv msg (ctx.state, ctx.buf)
  count : CountsBits ctx.count0 ctx.count1 msg.length

theorem hashed_init (ctx : Sha256Ctx) : Hashed (init ctx) [] := ⟨Tracks.nil ctx.length_buf, .zero⟩

theorem Hashed.pending (h : Hashed ctx msg) : ctx.pending = msg.length % 64 := h.count.index

theorem copy_eq (ctx : Sha256Ctx) (i : ℕ) (src : List UInt8) (h : i + src.length ≤ 64) :
    ∃ ctx', ctx.copy i src = some ctx' ∧ ctx'.state = ctx.state ∧ ctx'.count0 = ctx.count0 ∧ ctx'.count1 = ctx.count1 ∧
      ctx'.buf = store ctx.buf i src :=
  ⟨_, dif_pos (h.trans_eq ctx.length_buf.symm), rfl, rfl, rfl, rfl⟩

theorem transformAll_eq (state : Registers Word 8) (src : List UInt8) :
    transformAll state src = (chain 64 transform state src, rest 64 src) :=
  loop_eq (by decide : 0 < 64) (fun s l => transformAll.eq_1 s l) state src

theorem Hashed.update (h : Hashed ctx msg) (src : List UInt8) : ∃ ctx', update ctx src = some ctx' ∧ Hashed ctx' (msg ++ src) := by
  have htracks := h.tracks.absorb (by decide : 0 < 64) src
  have hcount := h.count.add src.length
  have hr : msg.length % 64 < 64 := Nat.mod_lt _ (by decide : 0 < 64)
  rw [← List.length_append] at hcount
  rw [Sha256.update, h.pending]
  rw [absorb] at htracks
  split at htracks
  next hfits =>
    rw [if_pos hfits]
    obtain ⟨ctx', hcopy, hstate, hcount0, hcount1, hbuf⟩ := copy_eq { ctx with count0 := _, count1 := _ }
      (msg.length % 64) src (by omega)
    exact ⟨ctx', hcopy, by rwa [hstate, hbuf], by rwa [hcount0, hcount1]⟩
  next hfills =>
    rw [if_neg hfills]
    have htake : (src.take (64 - msg.length % 64)).length = 64 - msg.length % 64 := by
      rw [List.length_take, Nat.min_eq_left (Nat.le_of_not_lt hfills)]
    obtain ⟨ctx₁, hcopy, hstate, hcount0, hcount1, hbuf⟩ := copy_eq { ctx with count0 := _, count1 := _ }
      (msg.length % 64) (src.take (64 - msg.length % 64)) (by omega)
    obtain ⟨ctx₂, hcopy₂, hstate₂, hcount0₂, hcount1₂, hbuf₂⟩ := copy_eq { ctx₁ with
      state := chain 64 transform (transform ctx₁.state ctx₁.buf) (src.drop (64 - msg.length % 64)) } 0
      (rest 64 (src.drop (64 - msg.length % 64))) (by rw [length_rest]; omega)
    refine ⟨ctx₂, ?_, ?_, ?_⟩
    · rw [hcopy, Option.bind_eq_bind, Option.bind_some, transformAll_eq]
      exact hcopy₂
    · rw [hstate₂, hbuf₂]
      show Tracks 64 transform iv _ (chain 64 transform (transform ctx₁.state ctx₁.buf) _, store ctx₁.buf 0 _)
      rwa [hstate, hbuf]
    · rwa [hcount0₂, hcount1₂, hcount0, hcount1]

theorem Hashed.updates (h : Hashed ctx msg) (chunks : List (List UInt8)) :
    ∃ ctx', chunks.foldlM Sha256.update ctx = some ctx' ∧ Hashed ctx' (msg ++ chunks.flatten) :=
  foldlM_parts Hashed Hashed.update h chunks

/-! ## The digest -/

theorem PAD_take (n : ℕ) :
    PAD.take (if n % 64 < 56 then 56 - n % 64 else 120 - n % 64) = 0x80 :: List.replicate (zeros 64 8 n) 0 := by
  have hlen : (if n % 64 < 56 then 56 - n % 64 else 120 - n % 64) = zeros 64 8 n + 1 := by
    have hr : n % 64 < 64 := Nat.mod_lt _ (by decide)
    rw [zeros]
    split <;> omega
  have hzeros : zeros 64 8 n ≤ 63 := Nat.lt_succ_iff.mp (Nat.mod_lt _ (by decide))
  rw [hlen, PAD, List.take_succ_cons, List.take_replicate, Nat.min_eq_left hzeros]

theorem Hashed.pad (h : Hashed ctx msg) : ∃ ctx', pad ctx = some ctx' ∧ Hashed ctx' (msg ++ SecureHash.padding msg.length) := by
  have hlen : be32encVect [ctx.count0, ctx.count1] = (LittleEndian.bytes 8 (8 * msg.length)).reverse := by
    rw [← h.count.bytes, be32encVect_eq, List.flatMap_cons, List.flatMap_singleton]
    rfl
  obtain ⟨ctx₁, hupdate, h₁⟩ := h.update (0x80 :: List.replicate (zeros 64 8 msg.length) 0)
  obtain ⟨ctx₂, hupdate₂, h₂⟩ := h₁.update (LittleEndian.bytes 8 (8 * msg.length)).reverse
  refine ⟨ctx₂, ?_, by rwa [SecureHash.padding, ← List.append_assoc]⟩
  rw [Sha256.pad, h.pending, PAD_take, hupdate, hlen, Option.bind_eq_bind, Option.bind_some, hupdate₂]

theorem iv_get : iv.get = SecureHash.sha256Iv := by
  have hbounds : ∀ j : Fin 8, ∃ n < 8, (n * 2 ^ 32 + (iv.get j).toNat) ^ 2 ≤ SecureHash.primes.getD j 0 * 2 ^ (32 * 2) ∧
      SecureHash.primes.getD j 0 * 2 ^ (32 * 2) < (n * 2 ^ 32 + (iv.get j).toNat + 1) ^ 2 := by decide
  funext j
  obtain ⟨n, -, hle, hlt⟩ := hbounds j
  exact (rootFraction_eq (Nat.succ_ne_zero 1) hle hlt).symm

theorem Hashed.final (h : Hashed ctx msg) : final ctx = some (SecureHash.sha256 msg, cleared) := by
  obtain ⟨ctx', hpad, h'⟩ := h.pad
  have hstate : ctx'.state.get = chain 64 SecureHash.sha256Compress SecureHash.sha256Iv (msg ++ SecureHash.padding msg.length) := by
    rw [← iv_get, ← chain_hom transform_get]
    exact congrArg Vector.get h'.tracks.state
  rw [Sha256.final, hpad, Option.map_some, be32encVect_eq, Rounds.toList_eq, hstate]
  rfl

theorem final_updates (ctx : Sha256Ctx) (chunks : List (List UInt8)) :
    (chunks.foldlM Sha256.update (init ctx)).bind final = some (SecureHash.sha256 chunks.flatten, cleared) := by
  obtain ⟨ctx', hupdates, h⟩ := (hashed_init ctx).updates chunks
  rw [hupdates, Option.bind_some, h.final, List.nil_append]

theorem sha256_eq (ctx : Sha256Ctx) (input : List UInt8) : sha256 ctx input = some (SecureHash.sha256 input, cleared) := by
  have h := final_updates ctx [input]
  rwa [List.foldlM_cons, List.flatten_singleton, Option.bind_eq_bind, Option.bind_assoc] at h

theorem SHA256_eq (ctx : Sha256Ctx) (str rest : List UInt8) {out : List UInt8} (h : out.length = 33) :
    SHA256 (out ++ rest) ctx str = some (SecureHash.sha256 str ++ 0 :: rest, cleared) := by
  obtain ⟨old, last, rfl, hold⟩ := @exists_append UInt8 out 32 (by omega)
  have hlast : last.length = 1 := by
    rw [List.length_append, hold] at h
    exact Nat.add_left_cancel h
  have hlen := SecureHash.length_sha256 str
  have hdigest : write (old ++ (last ++ rest)) 0 (SecureHash.sha256 str) = some (SecureHash.sha256 str ++ (last ++ rest)) :=
    @write_append UInt8 [] old (last ++ rest) _ 0 rfl (hold.trans hlen.symm)
  have hfinal := final_updates ctx (str.map fun b => [b])
  rw [List.foldlM_map, ← List.flatMap_def, List.flatMap_singleton'] at hfinal
  obtain ⟨ctx', hupdates, hfinal⟩ := Option.bind_eq_some_iff.mp hfinal
  rw [SHA256, hupdates, Option.bind_eq_bind, Option.bind_some, hfinal, List.append_assoc]
  simp only [Option.bind_eq_bind, Option.bind_some]
  rw [hdigest, Option.bind_some, write_append [0] hlen.symm hlast]
  rfl

/-- Contexts of any contents, messages of any length in any parts: no write leaves the buffer, and the digest is that of the
message, also for the two functions over a message in memory, of which one takes the bytes one by one and stores a NUL behind
the digest, in the 33 bytes that a caller gives it. -/
theorem sha256_of_parts (ctx : Sha256Ctx) (chunks : List (List UInt8)) (out : Fin 33 → UInt8) (rest : List UInt8) :
    (chunks.foldlM update (init ctx)).bind final = some (SecureHash.sha256 chunks.flatten, cleared) ∧
      sha256 ctx chunks.flatten = some (SecureHash.sha256 chunks.flatten, cleared) ∧
      SHA256 (List.ofFn out ++ rest) ctx chunks.flatten = some (SecureHash.sha256 chunks.flatten ++ 0 :: rest, cleared) :=
  ⟨final_updates ctx chunks, sha256_eq ctx _, SHA256_eq ctx _ rest List.length_ofFn⟩

end Yjc.Sha256
