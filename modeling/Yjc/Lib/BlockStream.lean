import Yjc.Lib.LittleEndian

/-! Messages that are taken in block by block: a function over whole messages, and the state and buffer with which the parts of
a message are taken in one after the other. -/

namespace Yjc.BlockStream
open Mem
variable {σ α : Type*} {B : ℕ} {f : σ → List α → σ} {s s₀ : σ} {l l' msg data : List α} {n r : ℕ} {c : σ × List α}

/-- The first `n` blocks of `B` cells. -/
def blocks (B : ℕ) (f : σ → List α → σ) : ℕ → σ → List α → σ
  | 0, s, _ => s
  | n + 1, s, l => blocks B f n (f s (l.take B)) (l.drop B)

def chain (B : ℕ) (f : σ → List α → σ) (s : σ) (l : List α) : σ := blocks B f (l.length / B) s l

def rest (B : ℕ) (l : List α) : List α := l.drop (l.length / B * B)

theorem length_rest (B : ℕ) (l : List α) : (rest B l).length = l.length % B := by
  rw [rest, List.length_drop, Nat.mod_eq_sub_div_mul]

theorem blocks_add (m n : ℕ) (s : σ) (l : List α) : blocks B f (m + n) s l = blocks B f n (blocks B f m s l) (l.drop (m * B)) := by
  induction m generalizing s l with
  | zero => rw [Nat.zero_add, Nat.zero_mul, List.drop_zero, blocks]
  | succ m ih => rw [Nat.succ_add, blocks, blocks, ih, List.drop_drop, Nat.succ_mul, Nat.add_comm B]

theorem blocks_append (h : n * B ≤ l.length) (l' : List α) : blocks B f n s (l ++ l') = blocks B f n s l := by
  induction n generalizing s l with
  | zero => rfl
  | succ n ih =>
    rw [Nat.succ_mul] at h
    rw [blocks, blocks, List.take_append_of_le_length (by omega), List.drop_append_of_le_length (by omega), ih]
    rw [List.length_drop]
    omega

theorem full_le (B : ℕ) (l : List α) : l.length / B * B ≤ l.length := Nat.div_mul_le_self _ _

theorem length_div_append (hB : 0 < B) (l l' : List α) :
    (l ++ l').length / B = l.length / B + (rest B l ++ l').length / B := by
  have hsplit : (l ++ l').length = (rest B l ++ l').length + l.length / B * B := by
    rw [List.length_append, List.length_append, rest, List.length_drop]
    have := full_le B l
    omega
  rw [hsplit, Nat.add_mul_div_right _ _ hB, Nat.add_comm]

theorem drop_full_append (B : ℕ) (l l' : List α) : (l ++ l').drop (l.length / B * B) = rest B l ++ l' :=
  List.drop_append_of_le_length (full_le B l)

theorem chain_append (hB : 0 < B) (s : σ) (l l' : List α) :
    chain B f s (l ++ l') = chain B f (chain B f s l) (rest B l ++ l') := by
  rw [chain, length_div_append hB, blocks_add, drop_full_append, blocks_append (full_le B l)]
  rfl

theorem rest_append (hB : 0 < B) (l l' : List α) : rest B (l ++ l') = rest B (rest B l ++ l') := by
  rw [rest, length_div_append hB, Nat.add_mul, ← List.drop_drop, drop_full_append]
  rfl

theorem chain_of_lt (h : l.length < B) : chain B f s l = s := by
  rw [chain, Nat.div_eq_of_lt h]
  rfl

theorem rest_of_lt (h : l.length < B) : rest B l = l := by rw [rest, Nat.div_eq_of_lt h, Nat.zero_mul, List.drop_zero]

theorem chain_block (hB : 0 < B) (h : l.length = B) (l' : List α) : chain B f s (l ++ l') = chain B f (f s l) l' := by
  rw [chain, List.length_append, h, Nat.add_div_left _ hB, blocks, ← h, List.take_left, List.drop_left, h]
  rfl

theorem rest_block (hB : 0 < B) (h : l.length = B) (l' : List α) : rest B (l ++ l') = rest B l' := by
  rw [rest, List.length_append, h, Nat.add_div_left _ hB, Nat.succ_mul, Nat.add_comm (_ * B), ← List.drop_drop, ← h, List.drop_left]
  rfl

theorem chain_hom {τ : Type*} {g : τ → List α → τ} {φ : σ → τ} (h : ∀ s l, φ (f s l) = g (φ s) l) (s : σ) (l : List α) :
    φ (chain B f s l) = chain B g (φ s) l := by
  -- the same blocks, seen from another type of states
  rw [chain, chain]
  generalize l.length / B = n
  induction n generalizing s l with
  | zero => rfl
  | succ n ih => rw [blocks, blocks, ih, h]

theorem loop_eq (hB : 0 < B) {loop : σ → List α → σ × List α}
    (hloop : ∀ s l, loop s l = if B ≤ l.length then loop (f s (l.take B)) (l.drop B) else (s, l)) (s : σ) (l : List α) :
    loop s l = (chain B f s l, rest B l) := by
  induction hlen : l.length using Nat.strongRecOn generalizing s l with
  | ind n ih =>
    rw [hloop]
    split
    next hfull =>
      have htake : (l.take B).length = B := by rw [List.length_take, Nat.min_eq_left hfull]
      rw [ih (l.drop B).length (by rw [List.length_drop]; omega) _ _ rfl, ← chain_block hB htake, ← rest_block hB htake,
        List.take_append_drop]
    next hfull => rw [chain_of_lt (Nat.lt_of_not_le hfull), rest_of_lt (Nat.lt_of_not_le hfull)]

/-! ## A buffer of one block -/

/-- More data, when `r` cells of the buffer are taken. -/
def absorb (B : ℕ) (f : σ → List α → σ) (r : ℕ) (data : List α) (c : σ × List α) : σ × List α :=
  if data.length < B - r then (c.1, store c.2 r data)
  else
    let buffer := store c.2 r (data.take (B - r))
    let data := data.drop (B - r)
    (chain B f (f c.1 buffer) data, store buffer 0 (rest B data))

/-- State and buffer after the message `msg`, from `s₀` on. -/
structure Tracks (B : ℕ) (f : σ → List α → σ) (s₀ : σ) (msg : List α) (c : σ × List α) : Prop where
  state : c.1 = chain B f s₀ msg
  length : c.2.length = B
  pending : c.2.take (msg.length % B) = rest B msg

theorem Tracks.nil (h : l.length = B) : Tracks B f s₀ [] (s₀, l) :=
  ⟨by rw [chain, List.length_nil, Nat.zero_div, blocks], h, by rw [rest, List.length_nil, Nat.zero_mod, List.take_zero, List.drop_nil]⟩

theorem take_store {m xs : List α} {i : ℕ} (h : i + xs.length ≤ m.length) : (store m i xs).take (i + xs.length) = m.take i ++ xs := by
  rw [store, List.append_assoc, ← List.append_assoc]
  exact List.take_left' (by rw [List.length_append, List.length_take, Nat.min_eq_left (by omega)])

theorem Tracks.absorb (hB : 0 < B) (h : Tracks B f s₀ msg c) (data : List α) :
    Tracks B f s₀ (msg ++ data) (absorb B f (msg.length % B) data c) := by
  have hr : msg.length % B < B := Nat.mod_lt _ hB
  have hrest := length_rest B msg
  rw [BlockStream.absorb]
  split
  next hfits =>
    -- the block is still not full
    have hin : msg.length % B + data.length ≤ c.2.length := by
      rw [h.length]
      omega
    have hlt : (rest B msg ++ data).length < B := by
      rw [List.length_append, hrest]
      omega
    refine ⟨?_, (length_store hin).trans h.length, ?_⟩
    · rw [chain_append hB, chain_of_lt hlt, h.state]
    · rw [rest_append hB, rest_of_lt hlt, ← h.pending, ← take_store hin, List.length_append, ← Nat.mod_add_mod,
        Nat.mod_eq_of_lt (by rwa [List.length_append, hrest] at hlt)]
  next hfills =>
    -- the block is filled, and the rest of the data starts a new one
    have htake : (data.take (B - msg.length % B)).length = B - msg.length % B := by
      rw [List.length_take, Nat.min_eq_left (Nat.le_of_not_lt hfills)]
    have hin : msg.length % B + (data.take (B - msg.length % B)).length ≤ c.2.length := by
      rw [h.length, htake]
      omega
    have hlen := (length_store hin).trans h.length
    have hblock : store c.2 (msg.length % B) (data.take (B - msg.length % B)) = rest B msg ++ data.take (B - msg.length % B) := by
      have hfull := take_store hin
      rwa [List.take_of_length_le (by rw [hlen, htake]; omega), h.pending] at hfull
    have hsplit : rest B msg ++ data = store c.2 (msg.length % B) (data.take (B - msg.length % B)) ++ data.drop (B - msg.length % B) := by
      rw [hblock, List.append_assoc, List.take_append_drop]
    have hrest' : rest B (msg ++ data) = rest B (data.drop (B - msg.length % B)) := by rw [rest_append hB, hsplit, rest_block hB hlen]
    have hlast : 0 + (rest B (data.drop (B - msg.length % B))).length
        ≤ (store c.2 (msg.length % B) (data.take (B - msg.length % B))).length := by
      rw [hlen, length_rest, Nat.zero_add]
      exact Nat.le_of_lt (Nat.mod_lt _ hB)
    refine ⟨?_, (length_store hlast).trans hlen, ?_⟩
    · rw [chain_append hB, hsplit, chain_block hB hlen, h.state]
    · rw [hrest', ← length_rest B (msg ++ data), hrest']
      have := take_store hlast
      rwa [Nat.zero_add, List.take_zero, List.nil_append] at this

/-- What an update keeps of the message so far, the updates over the parts of a message keep of all of it. -/
theorem foldlM_parts {τ : Type*} (Inv : τ → List α → Prop) {update : τ → List α → Option τ}
    (hupdate : ∀ {s msg}, Inv s msg → ∀ src, ∃ s', update s src = some s' ∧ Inv s' (msg ++ src)) {s : τ} (h : Inv s msg)
    (chunks : List (List α)) : ∃ s', chunks.foldlM update s = some s' ∧ Inv s' (msg ++ chunks.flatten) := by
  induction chunks generalizing s msg with
  | nil => exact ⟨s, rfl, by rwa [List.flatten_nil, List.append_nil]⟩
  | cons src chunks ih =>
    obtain ⟨s₁, hsrc, h₁⟩ := hupdate h src
    obtain ⟨s₂, hchunks, h₂⟩ := ih h₁
    refine ⟨s₂, by rw [List.foldlM_cons, hsrc, Option.bind_eq_bind, Option.bind_some, hchunks], ?_⟩
    rwa [List.flatten_cons, ← List.append_assoc]

/-! ## Padding -/

/-- The zeros between a marker after `n` cells and `L` cells that end the last block. -/
def zeros (B L n : ℕ) : ℕ := (2 * B - L - 1 - n % B) % B

/-! ## The number of bits in two words -/

/-- The number of bits of `n` bytes in a high and a low word. -/
def CountsBits (hi lo : BitVec 32) (n : ℕ) : Prop := hi.toNat * 2 ^ 32 + lo.toNat = 8 * n % 2 ^ 64

theorem CountsBits.zero : CountsBits 0 0 0 := rfl

variable {hi lo : BitVec 32}

theorem CountsBits.index (h : CountsBits hi lo n) : ((lo >>> 3) &&& 0x3f).toNat = n % 64 := by
  have hmask : (0x3f : BitVec 32).toNat = 2 ^ 6 - 1 := rfl
  rw [BitVec.toNat_and, BitVec.toNat_ushiftRight, hmask, Nat.and_two_pow_sub_one_eq_mod, Nat.shiftRight_eq_div_pow]
  rw [CountsBits] at h
  have := lo.isLt
  omega

theorem carry_iff (a b : BitVec 32) : a + b < b ↔ 2 ^ 32 ≤ a.toNat + b.toNat := by
  rw [BitVec.lt_def, BitVec.toNat_add]
  have := a.isLt
  have := b.isLt
  omega

theorem CountsBits.bytes (h : CountsBits hi lo n) :
    (LittleEndian.bytes 4 hi.toNat).reverse ++ (LittleEndian.bytes 4 lo.toNat).reverse = (LittleEndian.bytes 8 (8 * n)).reverse := by
  have hlo := lo.isLt
  have hdiv : (hi.toNat * 2 ^ 32 + lo.toNat) / 2 ^ (8 * 4) = hi.toNat := by omega
  have hmod : (hi.toNat * 2 ^ 32 + lo.toNat) % 2 ^ (8 * 4) = lo.toNat := by omega
  rw [← List.reverse_append, ← LittleEndian.bytes_mod 8, ← h, LittleEndian.bytes_add 4 4, hdiv, ← LittleEndian.bytes_mod 4 (_ + _), hmod]

theorem toNat_bits (m : ℕ) : (BitVec.ofNat 32 m <<< 3).toNat = 8 * m % 2 ^ 32 := by
  rw [BitVec.toNat_shiftLeft, BitVec.toNat_ofNat, Nat.shiftLeft_eq]
  omega

theorem add_words {hi lo q r carry : ℕ} (hcarry : lo + r = carry * 2 ^ 32 + (lo + r) % 2 ^ 32) :
    (hi + carry + q) % 2 ^ 32 * 2 ^ 32 + (lo + r) % 2 ^ 32 = (hi * 2 ^ 32 + lo + (q * 2 ^ 32 + r)) % 2 ^ 64 := by
  -- a sum of two numbers of two words, with its carry from the low word
  have hsum : hi * 2 ^ 32 + lo + (q * 2 ^ 32 + r) = (lo + r) % 2 ^ 32 + 2 ^ 32 * (hi + carry + q) := by omega
  rw [hsum, show 2 ^ 64 = 2 ^ 32 * 2 ^ 32 from rfl, Nat.mod_mul, Nat.add_mul_mod_self_left, Nat.mod_mod,
    Nat.add_mul_div_left _ _ (Nat.two_pow_pos 32), Nat.div_eq_of_lt (Nat.mod_lt _ (Nat.two_pow_pos 32)), Nat.zero_add, Nat.add_comm,
    Nat.mul_comm]

theorem CountsBits.add (h : CountsBits hi lo n) (m : ℕ) :
    CountsBits ((if lo + BitVec.ofNat 32 m <<< 3 < BitVec.ofNat 32 m <<< 3 then hi + 1 else hi) + BitVec.ofNat 32 (m >>> 29))
      (lo + BitVec.ofNat 32 m <<< 3) (n + m) := by
  have hm := toNat_bits m
  have hcarry := carry_iff lo (BitVec.ofNat 32 m <<< 3)
  have hlo := lo.isLt
  have hbits : 8 * m = m / 2 ^ 29 * 2 ^ 32 + 8 * m % 2 ^ 32 := by omega
  have hr : 8 * m % 2 ^ 32 < 2 ^ 32 := Nat.mod_lt _ (Nat.two_pow_pos 32)
  rw [hm] at hcarry
  rw [CountsBits] at h ⊢
  have hright : 8 * (n + m) % 2 ^ 64 = (hi.toNat * 2 ^ 32 + lo.toNat + (m / 2 ^ 29 * 2 ^ 32 + 8 * m % 2 ^ 32)) % 2 ^ 64 := by
    rw [← hbits, h, Nat.mod_add_mod, Nat.mul_add]
  rw [hright, BitVec.toNat_add, BitVec.toNat_add, hm, BitVec.toNat_ofNat, Nat.shiftRight_eq_div_pow, Nat.add_mod_mod]
  split
  next hover =>
    rw [hcarry] at hover
    rw [BitVec.toNat_add, Nat.mod_add_mod]
    exact @add_words hi.toNat lo.toNat (m / 2 ^ 29) (8 * m % 2 ^ 32) 1 (by omega)
  next hfits =>
    rw [hcarry] at hfits
    exact @add_words hi.toNat lo.toNat (m / 2 ^ 29) (8 * m % 2 ^ 32) 0 (by omega)

end Yjc.BlockStream
