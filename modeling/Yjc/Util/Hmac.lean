import Yjc.Util.Sha256Stream

/-! HMAC-SHA256 and PBKDF2 of `util/sha256.c`. -/

namespace Yjc.Sha256
open Mem

structure HmacSha256Ctx where
  ictx : Sha256Ctx
  octx : Sha256Ctx

/-- The loop `pad[i] ^= K[i]`. -/
def xorKey (pad K : List UInt8) : List UInt8 := List.zipWith (· ^^^ ·) pad K ++ pad.drop K.length

def hashKey (ictx : Sha256Ctx) (K : List UInt8) : Option (List UInt8 × Sha256Ctx) :=
  if 64 < K.length then (update (init ictx) K).bind final else some (K, ictx)

def hmacSha256Init (ctx : HmacSha256Ctx) (K : List UInt8) : Option HmacSha256Ctx := do
  let (K, ictx) ← hashKey ctx.ictx K
  let ictx ← update (init ictx) (xorKey (List.replicate 64 0x36) K)
  let octx ← update (init ctx.octx) (xorKey (List.replicate 64 0x5c) K)
  return ⟨ictx, octx⟩

def hmacSha256Update (ctx : HmacSha256Ctx) (in_ : List UInt8) : Option HmacSha256Ctx :=
  (update ctx.ictx in_).map fun ictx => { ctx with ictx := ictx }

def hmacSha256Final (ctx : HmacSha256Ctx) : Option (List UInt8 × HmacSha256Ctx) := do
  let (ihash, ictx) ← final ctx.ictx
  let octx ← update ctx.octx ihash
  let (digest, octx) ← final octx
  return (digest, ⟨ictx, octx⟩)

/-- A round for `U` and `T`. -/
def pbkdf2Round (passwd : List UInt8) : HmacSha256Ctx × List UInt8 × List UInt8 → Option (HmacSha256Ctx × List UInt8 × List UInt8)
  | (hctx, U, T) => do
    let hctx ← hmacSha256Init hctx passwd
    let hctx ← hmacSha256Update hctx U
    let (U, hctx) ← hmacSha256Final hctx
    return (hctx, U, List.zipWith (· ^^^ ·) T U)

/-- The loop over `j`, of so many rounds. -/
def pbkdf2Rounds (passwd : List UInt8) : ℕ → HmacSha256Ctx × List UInt8 × List UInt8 → Option (HmacSha256Ctx × List UInt8 × List UInt8)
  | 0, s => some s
  | n + 1, s => (pbkdf2Round passwd s).bind (pbkdf2Rounds passwd n)

/-- The loop over `i`. -/
def pbkdf2Blocks (passwd : List UInt8) (c dkLen : ℕ) (PShctx : HmacSha256Ctx) (i : ℕ) (buf : List UInt8) : Option (List UInt8) :=
  if i * 32 < dkLen then do
    let ivec := be32enc (BitVec.ofNat 32 (i + 1))
    let hctx ← hmacSha256Update PShctx ivec
    let (U, hctx) ← hmacSha256Final hctx
    let (_, _, T) ← pbkdf2Rounds passwd (c - 1) (hctx, U, U)
    let clen := dkLen - i * 32
    let clen := if clen > 32 then 32 else clen
    let buf ← write buf (i * 32) (T.take clen)
    pbkdf2Blocks passwd c dkLen PShctx (i + 1) buf
  else some buf
termination_by dkLen - i * 32

def pbkdf2Sha256 (PShctx : HmacSha256Ctx) (passwd salt : List UInt8) (c : ℕ) (buf : List UInt8) (dkLen : ℕ) : Option (List UInt8) := do
  let PShctx ← hmacSha256Init PShctx passwd
  let PShctx ← hmacSha256Update PShctx salt
  pbkdf2Blocks passwd c dkLen PShctx 0 buf

/-! ## Keyed hashes -/

variable {ctx : HmacSha256Ctx} {key msg : List UInt8}

structure Keyed (ctx : HmacSha256Ctx) (key msg : List UInt8) : Prop where
  inner : Hashed ctx.ictx ((SecureHash.blockKey SecureHash.sha256 key).map (· ^^^ 0x36) ++ msg)
  outer : Hashed ctx.octx ((SecureHash.blockKey SecureHash.sha256 key).map (· ^^^ 0x5c))

theorem xorKey_eq (b : UInt8) (h : key.length ≤ 64) : xorKey (List.replicate 64 b) key = (zrealloc key 64).map (· ^^^ b) := by
  have hzero : (default : UInt8) ^^^ b = b := UInt8.zero_xor
  rw [xorKey, zrealloc, List.take_of_length_le h, List.map_append, List.map_replicate, hzero, List.drop_replicate]
  congr 1
  refine List.ext_getElem ?_ fun i hi _ => ?_
  · rw [List.length_zipWith, List.length_replicate, List.length_map, Nat.min_eq_right h]
  · rw [List.getElem_zipWith, List.getElem_replicate, List.getElem_map, UInt8.xor_comm]

theorem hashKey_eq (ictx : Sha256Ctx) (key : List UInt8) :
    ∃ K ictx', hashKey ictx key = some (K, ictx') ∧ K.length ≤ 64 ∧ SecureHash.blockKey SecureHash.sha256 key = zrealloc K 64 := by
  rw [hashKey, SecureHash.blockKey]
  split
  next hlong => exact ⟨_, _, sha256_eq ictx key, by rw [SecureHash.length_sha256]; decide, rfl⟩
  next hlong => exact ⟨_, _, rfl, Nat.le_of_not_lt hlong, rfl⟩

theorem keyed_init (ctx : HmacSha256Ctx) (key : List UInt8) : ∃ ctx', hmacSha256Init ctx key = some ctx' ∧ Keyed ctx' key [] := by
  obtain ⟨K, ictx, hhash, hlen, hblock⟩ := hashKey_eq ctx.ictx key
  obtain ⟨ictx', hinner, hi⟩ := (hashed_init ictx).update (xorKey (List.replicate 64 0x36) K)
  obtain ⟨octx', houter, ho⟩ := (hashed_init ctx.octx).update (xorKey (List.replicate 64 0x5c) K)
  refine ⟨⟨ictx', octx'⟩, ?_, ?_, ?_⟩
  · simp only [hmacSha256Init, hhash, Option.bind_eq_bind, Option.bind_some, hinner, houter]
    rfl
  · rwa [hblock, ← xorKey_eq _ hlen, List.append_nil]
  · rwa [hblock, ← xorKey_eq _ hlen]

theorem Keyed.update (h : Keyed ctx key msg) (in_ : List UInt8) :
    ∃ ctx', hmacSha256Update ctx in_ = some ctx' ∧ Keyed ctx' key (msg ++ in_) := by
  obtain ⟨ictx', hupdate, hi⟩ := h.inner.update in_
  exact ⟨⟨ictx', ctx.octx⟩, by rw [hmacSha256Update, hupdate]; rfl, by rwa [← List.append_assoc], h.outer⟩

theorem Keyed.final (h : Keyed ctx key msg) :
    hmacSha256Final ctx = some (SecureHash.hmac SecureHash.sha256 key msg, ⟨cleared, cleared⟩) := by
  obtain ⟨octx', hupdate, ho⟩ := h.outer.update (SecureHash.sha256 ((SecureHash.blockKey SecureHash.sha256 key).map (· ^^^ 0x36) ++ msg))
  simp only [hmacSha256Final, h.inner.final, Option.bind_eq_bind, Option.bind_some, hupdate, ho.final]
  rfl

theorem Keyed.updates (h : Keyed ctx key msg) (chunks : List (List UInt8)) :
    ∃ ctx', chunks.foldlM hmacSha256Update ctx = some ctx' ∧ Keyed ctx' key (msg ++ chunks.flatten) :=
  BlockStream.foldlM_parts (fun ctx => Keyed ctx key) Keyed.update h chunks

/-- Contexts of any contents, keys of any length, messages in any parts; at the end both contexts are cleared. -/
theorem hmac_of_parts (ctx : HmacSha256Ctx) (key : List UInt8) (chunks : List (List UInt8)) :
    ((hmacSha256Init ctx key).bind fun ctx => chunks.foldlM hmacSha256Update ctx).bind hmacSha256Final =
      some (SecureHash.hmac SecureHash.sha256 key chunks.flatten, ⟨cleared, cleared⟩) := by
  obtain ⟨ctx₁, hinit, h₁⟩ := keyed_init ctx key
  obtain ⟨ctx₂, hupdates, h₂⟩ := h₁.updates chunks
  rw [hinit, Option.bind_some, hupdates, Option.bind_some, h₂.final, List.nil_append]

/-! ## Derived keys -/

theorem zipWith_assoc (xs ys zs : List UInt8) :
    List.zipWith (· ^^^ ·) (List.zipWith (· ^^^ ·) xs ys) zs = List.zipWith (· ^^^ ·) xs (List.zipWith (· ^^^ ·) ys zs) := by
  induction xs generalizing ys zs with
  | nil => rfl
  | cons x xs ih =>
    cases ys with
    | nil => rfl
    | cons y ys =>
      cases zs with
      | nil => rfl
      | cons z zs => rw [List.zipWith_cons_cons, List.zipWith_cons_cons, ih, UInt8.xor_assoc, List.zipWith_cons_cons, List.zipWith_cons_cons]

theorem pbkdf2Round_eq (passwd U T : List UInt8) (hctx : HmacSha256Ctx) :
    ∃ hctx', pbkdf2Round passwd (hctx, U, T) =
      some (hctx', SecureHash.hmac SecureHash.sha256 passwd U, List.zipWith (· ^^^ ·) T (SecureHash.hmac SecureHash.sha256 passwd U)) := by
  obtain ⟨ctx₁, hinit, h₁⟩ := keyed_init hctx passwd
  obtain ⟨ctx₂, hupdate, h₂⟩ := h₁.update U
  refine ⟨⟨cleared, cleared⟩, ?_⟩
  simp only [pbkdf2Round, hinit, hupdate, h₂.final, Option.bind_eq_bind, Option.bind_some, List.nil_append]
  rfl

theorem pbkdf2Rounds_succ (passwd U T : List UInt8) (n : ℕ) (hctx : HmacSha256Ctx) :
    ∃ hctx' U', pbkdf2Rounds passwd (n + 1) (hctx, U, T) = some (hctx', U', List.zipWith (· ^^^ ·) T
      (SecureHash.pbkdf2Sum (SecureHash.hmac SecureHash.sha256 passwd) n (SecureHash.hmac SecureHash.sha256 passwd U))) := by
  induction n generalizing U T hctx with
  | zero =>
    obtain ⟨hctx', hround⟩ := pbkdf2Round_eq passwd U T hctx
    exact ⟨hctx', _, by rw [pbkdf2Rounds, hround]; rfl⟩
  | succ n ih =>
    obtain ⟨hctx₁, hround⟩ := pbkdf2Round_eq passwd U T hctx
    obtain ⟨hctx₂, U₂, hrounds⟩ := ih (SecureHash.hmac SecureHash.sha256 passwd U)
      (List.zipWith (· ^^^ ·) T (SecureHash.hmac SecureHash.sha256 passwd U)) hctx₁
    exact ⟨hctx₂, U₂, by rw [pbkdf2Rounds, hround, Option.bind_some, hrounds, zipWith_assoc, SecureHash.pbkdf2Sum]⟩

theorem pbkdf2Rounds_eq (passwd U : List UInt8) (n : ℕ) (hctx : HmacSha256Ctx) :
    ∃ hctx' U', pbkdf2Rounds passwd n (hctx, U, U) =
      some (hctx', U', SecureHash.pbkdf2Sum (SecureHash.hmac SecureHash.sha256 passwd) n U) := by
  cases n with
  | zero => exact ⟨hctx, U, rfl⟩
  | succ n =>
    obtain ⟨hctx', U', hrounds⟩ := pbkdf2Rounds_succ passwd U U n hctx
    exact ⟨hctx', U', by rw [hrounds, SecureHash.pbkdf2Sum]⟩

theorem length_hmac (key msg : List UInt8) : (SecureHash.hmac SecureHash.sha256 key msg).length = 32 := SecureHash.length_sha256 _

theorem pbkdf2Blocks_step {passwd salt : List UInt8} (h : Keyed ctx passwd salt) (c : ℕ) {dkLen i : ℕ} (hi : i * 32 < dkLen)
    (buf : List UInt8) :
    pbkdf2Blocks passwd c dkLen ctx i buf =
      (write buf (i * 32) ((SecureHash.pbkdf2Block (SecureHash.hmac SecureHash.sha256 passwd) salt c (i + 1)).take
        (dkLen - i * 32))).bind (pbkdf2Blocks passwd c dkLen ctx (i + 1)) := by
  obtain ⟨ctx₁, hupdate, h₁⟩ := h.update (SecureHash.wordBytes (BitVec.ofNat 32 (i + 1)))
  obtain ⟨hctx, U, hrounds⟩ := pbkdf2Rounds_eq passwd
    (SecureHash.hmac SecureHash.sha256 passwd (salt ++ SecureHash.wordBytes (BitVec.ofNat 32 (i + 1)))) (c - 1) ⟨cleared, cleared⟩
  have hT := SecureHash.length_pbkdf2Block (length_hmac passwd) salt c (i + 1)
  have hclen : (if dkLen - i * 32 > 32 then 32 else dkLen - i * 32) = min (dkLen - i * 32) 32 := by split <;> omega
  rw [← SecureHash.pbkdf2Block] at hrounds
  rw [pbkdf2Blocks, if_pos hi]
  simp only [be32enc_eq, hupdate, h₁.final, hrounds, hclen, Option.bind_eq_bind, Option.bind_some]
  rw [← List.take_take, List.take_of_length_le hT.le]

theorem pbkdf2Blocks_eq {passwd salt : List UInt8} (h : Keyed ctx passwd salt) (c : ℕ) {dkLen i : ℕ} {pre old rest : List UInt8}
    (hpre : pre.length = min (i * 32) dkLen) (hlen : dkLen = pre.length + old.length) :
    pbkdf2Blocks passwd c dkLen ctx i (pre ++ (old ++ rest)) =
      some (pre ++ (SecureHash.pbkdf2From (SecureHash.hmac SecureHash.sha256 passwd) salt c i old.length ++ rest)) := by
  induction hn : old.length using Nat.strongRecOn generalizing i pre old with
  | ind n ih =>
    by_cases hmore : i * 32 < dkLen
    · have hT := SecureHash.length_pbkdf2Block (length_hmac passwd) salt c (i + 1)
      have hleft : dkLen - i * 32 = n := by omega
      have hsplit : pre ++ (old ++ rest) = pre ++ (old.take 32 ++ (old.drop 32 ++ rest)) := by
        rw [← List.append_assoc (old.take 32), List.take_append_drop]
      rw [pbkdf2Blocks_step h c hmore, hleft, hsplit,
        write_append _ (by omega) (by rw [List.length_take, List.length_take, hT, hn, Nat.min_comm]), Option.bind_some,
        ← List.append_assoc pre, ih (old.drop 32).length (by rw [List.length_drop]; omega) _ _ rfl,
        SecureHash.pbkdf2From_succ (length_hmac passwd) salt c i (by omega), List.length_drop, hn, List.append_assoc, List.append_assoc]
      · rw [List.length_append, List.length_take, hT]
        omega
      · rw [List.length_append, List.length_take, List.length_drop, hT]
        omega
    · have hold : old = [] := List.eq_nil_of_length_eq_zero (by omega)
      subst hold
      rw [← hn, List.length_nil, SecureHash.pbkdf2From_zero, pbkdf2Blocks, if_neg hmore]

/-- Contexts of any contents: `dkLen` bytes of the buffer are those of the derived key, and the others are left alone. -/
theorem pbkdf2_buffer (PShctx : HmacSha256Ctx) (passwd salt : List UInt8) (c : ℕ) (buf rest : List UInt8) :
    pbkdf2Sha256 PShctx passwd salt c (buf ++ rest) buf.length =
      some (SecureHash.pbkdf2 (SecureHash.hmac SecureHash.sha256 passwd) salt c buf.length ++ rest) := by
  obtain ⟨ctx₁, hinit, h₁⟩ := keyed_init PShctx passwd
  obtain ⟨ctx₂, hupdate, h₂⟩ := h₁.update salt
  rw [List.nil_append] at h₂
  rw [pbkdf2Sha256, hinit, Option.bind_eq_bind, Option.bind_some, hupdate, Option.bind_some]
  exact @pbkdf2Blocks_eq ctx₂ passwd salt h₂ c buf.length 0 [] buf rest (by rw [Nat.zero_mul, Nat.zero_min]; rfl) (Nat.zero_add _).symm

end Yjc.Sha256
