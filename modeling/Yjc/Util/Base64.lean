import Yjc.Lib.CInt
import Yjc.Lib.Mem
import Yjc.Lib.Loop
import Mathlib.Tactic.SplitIfs

/-! `util/base64.c`: the encoder writes a character or two for each byte, the decoder puts a byte together over two characters. -/

namespace Yjc.Base64
open Mem

def base64en : List UInt8 := [
  'A', 'B', 'C', 'D', 'E', 'F', 'G', 'H', 'I', 'J', 'K', 'L', 'M', 'N', 'O', 'P',
  'Q', 'R', 'S', 'T', 'U', 'V', 'W', 'X', 'Y', 'Z', 'a', 'b', 'c', 'd', 'e', 'f',
  'g', 'h', 'i', 'j', 'k', 'l', 'm', 'n', 'o', 'p', 'q', 'r', 's', 't', 'u', 'v',
  'w', 'x', 'y', 'z', '0', '1', '2', '3', '4', '5', '6', '7', '8', '9', '+', '/'].map Char.toUInt8

def base64Pad : UInt8 := 61

def base64deFirst : UInt8 := 43

def base64deLast : UInt8 := 122

def base64de : List ℤ := [
  62, -1, -1, -1, 63, 52, 53, 54, 55, 56, 57, 58, 59, 60, 61, -1, -1, -1, -1, -1, -1, -1, 0, 1, 2, 3, 4, 5, 6, 7, 8, 9,
  10, 11, 12, 13, 14, 15, 16, 17, 18, 19, 20, 21, 22, 23, 24, 25, -1, -1, -1, -1, -1, -1, 26, 27,
  28, 29, 30, 31, 32, 33, 34, 35, 36, 37, 38, 39, 40, 41, 42, 43, 44, 45, 46, 47, 48, 49, 50, 51]

/-- `out[j++] = c`, for `j` and `out`. -/
def putByte (c : UInt8) (s : ℕ × List UInt8) : Option (ℕ × List UInt8) := (write s.2 s.1 [c]).map fun out => (s.1 + 1, out)

/-- `out[j++] = base64en[v]`. -/
def putChar (v : ℕ) (s : ℕ × List UInt8) : Option (ℕ × List UInt8) := base64en[v]?.bind fun c => putByte c s

def encodeStep (in_ : List UInt8) (i : ℕ) (s : ℕ × List UInt8) : Option (ℕ × List UInt8) := do
  let b ← in_[i]?
  match i % 3 with
  | 0 => putChar ((b.toNat >>> 2) &&& 0x3F) s
  | 1 => do
    let a ← in_[i - 1]?
    putChar (((a.toNat &&& 0x3) <<< 4) + ((b.toNat >>> 4) &&& 0xF)) s
  | _ => do
    let a ← in_[i - 1]?
    let s ← putChar (((a.toNat &&& 0xF) <<< 2) + ((b.toNat >>> 6) &&& 0x3)) s
    putChar (b.toNat &&& 0x3F) s

/-- The first `i` rounds of the loop. -/
def encodeLoop (in_ : List UInt8) (s : ℕ × List UInt8) : ℕ → Option (ℕ × List UInt8)
  | 0 => some s
  | i + 1 => (encodeLoop in_ s i).bind (encodeStep in_ i)

/-- `base64_encode`, with the bytes of the caller and the memory for the text; `none` is an access outside them. -/
def base64Encode (in_ out : List UInt8) : Option (ℤ × List UInt8) := do
  let s ← encodeLoop in_ (0, out) in_.length
  let i := (in_.length + 2 ^ 32 - 1) % 2 ^ 32
  let s ← (if i % 3 = 0 then do
      let b ← in_[i]?
      let s ← putChar ((b.toNat &&& 0x3) <<< 4) s
      let s ← putByte base64Pad s
      putByte base64Pad s
    else if i % 3 = 1 then do
      let b ← in_[i]?
      let s ← putChar ((b.toNat &&& 0xF) <<< 2) s
      putByte base64Pad s
    else some s)
  some (cInt s.1, s.2)

/-- The locals of `base64_decode`. -/
structure Decoder where
  i : ℕ
  j : ℕ
  out : List UInt8

/-- Whether the first `k` characters from the end hold no padding after the one at `i`. -/
def notLast (in_ : List UInt8) (i k : ℕ) : Option Bool :=
  if i < (in_.length + 2 ^ 32 - k) % 2 ^ 32 then some true
  else in_[(in_.length + 2 ^ 32 - (k - 1)) % 2 ^ 32]?.map fun c => c != base64Pad

/-- The switch of `base64_decode`. -/
def decodeStep (in_ : List UInt8) (c : ℕ) (s : Decoder) : Option Decoder :=
  match s.i % 4 with
  | 0 => do
    let out ← write s.out s.j [UInt8.ofNat ((c <<< 2) &&& 0xFF)]
    some { s with out }
  | 1 => do
    let o ← s.out[s.j]?
    let out ← write s.out s.j [o + UInt8.ofNat ((c >>> 4) &&& 0x3)]
    let more ← notLast in_ s.i 3
    let out ← (if more then write out (s.j + 1) [UInt8.ofNat ((c &&& 0xF) <<< 4)] else some out)
    some { s with j := s.j + 1, out }
  | 2 => do
    let o ← s.out[s.j]?
    let out ← write s.out s.j [o + UInt8.ofNat ((c >>> 2) &&& 0xF)]
    let more ← notLast in_ s.i 2
    let out ← (if more then write out (s.j + 1) [UInt8.ofNat ((c &&& 0x3) <<< 6)] else some out)
    some { s with j := s.j + 1, out }
  | _ => do
    let o ← s.out[s.j]?
    let out ← write s.out s.j [o + UInt8.ofNat c]
    some { s with j := s.j + 1, out }

/-- A character from 128 on is negative, and refused as one below `BASE64DE_FIRST`. -/
def decodeRound (in_ : List UInt8) (s : Decoder) : Decoder ⊕ Option (ℤ × List UInt8) :=
  if s.i < in_.length then
    match in_[s.i]? with
    | none => .inr none
    | some ch =>
      if ch = base64Pad then .inr (some (cInt s.j, s.out))
      else if ch < base64deFirst ∨ base64deLast < ch then .inr (some (-1, s.out))
      else
        match base64de[(ch - base64deFirst).toNat]? with
        | none => .inr none
        | some c =>
          if c = -1 then .inr (some (-1, s.out))
          else
            match decodeStep in_ c.toNat s with
            | none => .inr none
            | some s => .inl { s with i := s.i + 1 }
  else .inr (some (cInt s.j, s.out))

def base64Decode (in_ out : List UInt8) : Option (ℤ × List UInt8) :=
  (Loop.run (decodeRound in_) (in_.length + 1) ⟨0, 0, out⟩).join

/-! ## The text of a byte string -/

def byteAt (x : List UInt8) (i : ℕ) : ℕ := (x[i]?.map UInt8.toNat).getD 0

def sextet (x : List UInt8) (k : ℕ) : ℕ :=
  (byteAt x (3 * (k / 4)) * 2 ^ 16 + byteAt x (3 * (k / 4) + 1) * 2 ^ 8 + byteAt x (3 * (k / 4) + 2)) / 64 ^ (3 - k % 4) % 64

def charOf (v : ℕ) : UInt8 := (base64en[v]?).getD 0

def body (x : List UInt8) : List UInt8 :=
  (List.range (x.length + (x.length + 2) / 3)).map fun k => charOf (sextet x k)

def text (x : List UInt8) : List UInt8 := body x ++ List.replicate ((3 - x.length % 3) % 3) base64Pad

variable {x out t : List UInt8} {i j k q v n : ℕ}

theorem byteAt_lt (x : List UInt8) (i : ℕ) : byteAt x i < 256 := by
  unfold byteAt
  cases x[i]? with
  | none => decide
  | some b => exact b.toNat_lt

theorem byteAt_eq {b : UInt8} (h : x[i]? = some b) : byteAt x i = b.toNat := by
  rw [byteAt, h, Option.map_some, Option.getD_some]

theorem byteAt_of_le (h : x.length ≤ i) : byteAt x i = 0 := by
  rw [byteAt, List.getElem?_eq_none h, Option.map_none, Option.getD_none]

theorem sextet_zero : sextet x (4 * q) = byteAt x (3 * q) / 4 := by
  have ha := byteAt_lt x (3 * q)
  have hb := byteAt_lt x (3 * q + 1)
  have hc := byteAt_lt x (3 * q + 2)
  rw [sextet, Nat.mul_div_cancel_left q (by decide), Nat.mul_mod_right]
  omega

theorem sextet_one : sextet x (4 * q + 1) = byteAt x (3 * q) % 4 * 16 + byteAt x (3 * q + 1) / 16 := by
  have hb := byteAt_lt x (3 * q + 1)
  have hc := byteAt_lt x (3 * q + 2)
  rw [sextet, show (4 * q + 1) / 4 = q by omega, show (4 * q + 1) % 4 = 1 by omega]
  omega

theorem sextet_two : sextet x (4 * q + 2) = byteAt x (3 * q + 1) % 16 * 4 + byteAt x (3 * q + 2) / 64 := by
  have hc := byteAt_lt x (3 * q + 2)
  rw [sextet, show (4 * q + 2) / 4 = q by omega, show (4 * q + 2) % 4 = 2 by omega]
  omega

theorem sextet_three : sextet x (4 * q + 3) = byteAt x (3 * q + 2) % 64 := by
  rw [sextet, show (4 * q + 3) / 4 = q by omega, show (4 * q + 3) % 4 = 3 by omega]
  omega

theorem sextet_lt (x : List UInt8) (k : ℕ) : sextet x k < 64 := Nat.mod_lt _ (by decide)

theorem base64en_eq (h : v < 64) : base64en[v]? = some (charOf v) := by
  have hlt : v < base64en.length := h
  rw [charOf, List.getElem?_eq_getElem hlt, Option.getD_some]

/-! ## The encoder -/

/-- The text `t` at the front of the memory `out`. -/
def filled (out t : List UInt8) : ℕ × List UInt8 := (t.length, t ++ out.drop t.length)

theorem putByte_filled (c : UInt8) (h : t.length < out.length) : putByte c (filled out t) = some (filled out (t ++ [c])) := by
  unfold putByte filled
  rw [List.drop_eq_getElem_cons h]
  dsimp only
  rw [← List.singleton_append, write_append [c] rfl (by rfl), Option.map_some, List.length_append, List.append_assoc]
  rfl

theorem putChar_filled (hv : v < 64) (h : t.length < out.length) :
    putChar v (filled out t) = some (filled out (t ++ [charOf v])) := by
  rw [putChar, base64en_eq hv, Option.bind_some, putByte_filled _ h]

def chars (x : List UInt8) (k : ℕ) : List UInt8 := (List.range k).map fun k => charOf (sextet x k)

theorem length_chars : (chars x k).length = k := by rw [chars, List.length_map, List.length_range]

theorem chars_succ : chars x k ++ [charOf (sextet x k)] = chars x (k + 1) := by
  rw [chars, chars, List.range_succ, List.map_append, List.map_singleton]

theorem putChar_chars (hv : v = sextet x k) (h : k < out.length) :
    putChar v (filled out (chars x k)) = some (filled out (chars x (k + 1))) := by
  rw [putChar_filled (hv ▸ sextet_lt x k) (by rwa [length_chars]), hv, chars_succ]

theorem shr_and {n : ℕ} (a k m : ℕ) (h : n = 2 ^ m - 1) : (a >>> k) &&& n = a / 2 ^ k % 2 ^ m := by
  rw [h, Nat.shiftRight_eq_div_pow, Nat.and_two_pow_sub_one_eq_mod]

theorem and_shl {n : ℕ} (a k m : ℕ) (h : n = 2 ^ m - 1) : (a &&& n) <<< k = a % 2 ^ m * 2 ^ k := by
  rw [h, Nat.and_two_pow_sub_one_eq_mod, Nat.shiftLeft_eq]

/-! Three bytes are four characters: where the characters of a byte begin. -/

theorem charIndex_zero (q : ℕ) : 3 * q + 3 * q / 3 = 4 * q := by omega

theorem charIndex_one (q : ℕ) : 3 * q + 1 + (3 * q + 1) / 3 = 4 * q + 1 := by omega

theorem charIndex_two (q : ℕ) : 3 * q + 2 + (3 * q + 2) / 3 = 4 * q + 2 := by omega

theorem charIndex_three (q : ℕ) : 3 * q + 3 + (3 * q + 3) / 3 = 4 * q + 4 := by omega

theorem byteIndex_zero (q : ℕ) : 3 * (4 * q) / 4 = 3 * q := by omega

theorem byteIndex_one (q : ℕ) : 3 * (4 * q + 1) / 4 = 3 * q := by omega

theorem byteIndex_two (q : ℕ) : 3 * (4 * q + 2) / 4 = 3 * q + 1 := by omega

theorem byteIndex_three (q : ℕ) : 3 * (4 * q + 3) / 4 = 3 * q + 2 := by omega

theorem encodeStep_filled (hi : i < x.length) (hout : (i + 1) + (i + 1) / 3 ≤ out.length) :
    encodeStep x i (filled out (chars x (i + i / 3))) = some (filled out (chars x ((i + 1) + (i + 1) / 3))) := by
  have hb := List.getElem?_eq_getElem hi
  have hbyte := byteAt_eq hb
  have hlt := byteAt_lt x i
  unfold encodeStep
  rw [hb, Option.bind_eq_bind, Option.bind_some]
  have hmod : i % 3 = 0 ∨ i % 3 = 1 ∨ i % 3 = 2 := by omega
  rcases hmod with h | h | h
  · obtain ⟨q, rfl⟩ : ∃ q, i = 3 * q := ⟨i / 3, by omega⟩
    rw [h, charIndex_zero, charIndex_one]
    refine putChar_chars ?_ (by omega)
    rw [← hbyte, sextet_zero, shr_and (n := 63) _ 2 6 rfl]
    omega
  · obtain ⟨q, rfl⟩ : ∃ q, i = 3 * q + 1 := ⟨i / 3, by omega⟩
    have ha := List.getElem?_eq_getElem (show 3 * q < x.length by omega)
    rw [h, charIndex_one, show 3 * q + 1 + 1 + (3 * q + 1 + 1) / 3 = 4 * q + 1 + 1 from charIndex_two q]
    change (x[3 * q + 1 - 1]?.bind _) = _
    rw [Nat.add_sub_cancel, ha, Option.bind_some]
    refine putChar_chars ?_ (by omega)
    rw [← hbyte, ← byteAt_eq ha, sextet_one, shr_and (n := 15) _ 4 4 rfl, and_shl (n := 3) _ 4 2 rfl]
    omega
  · obtain ⟨q, rfl⟩ : ∃ q, i = 3 * q + 2 := ⟨i / 3, by omega⟩
    have ha := List.getElem?_eq_getElem (show 3 * q + 1 < x.length by omega)
    rw [h, charIndex_two, show 3 * q + 2 + 1 + (3 * q + 2 + 1) / 3 = 4 * q + 2 + 1 + 1 from charIndex_three q]
    change (x[3 * q + 2 - 1]?.bind _) = _
    rw [show 3 * q + 2 - 1 = 3 * q + 1 by omega, ha, Option.bind_some, putChar_chars (k := 4 * q + 2) ?_ (by omega),
      Option.bind_eq_bind, Option.bind_some]
    · refine putChar_chars ?_ (by omega)
      rw [← hbyte, sextet_three, Nat.and_two_pow_sub_one_eq_mod _ 6]
    · rw [← hbyte, ← byteAt_eq ha, sextet_two, shr_and (n := 3) _ 6 2 rfl, and_shl (n := 15) _ 2 4 rfl]
      omega

theorem encodeLoop_filled (hn : n ≤ x.length) (hout : n + n / 3 ≤ out.length) :
    encodeLoop x (0, out) n = some (filled out (chars x (n + n / 3))) := by
  induction n with
  | zero => rfl
  | succ n ih =>
    rw [encodeLoop, ih (by omega) (by omega), Option.bind_some, encodeStep_filled hn hout]

theorem length_text (x : List UInt8) : (text x).length = 4 * ((x.length + 2) / 3) := by
  rw [text, List.length_append, body, List.length_map, List.length_range, List.length_replicate]
  omega

theorem filled_text : filled out (text x) = (4 * ((x.length + 2) / 3), text x ++ out.drop (4 * ((x.length + 2) / 3))) := by
  rw [filled, length_text]

theorem base64Encode_filled (hx : x ≠ []) (hlen : 4 * ((x.length + 2) / 3) < 2 ^ 32) (hout : 4 * ((x.length + 2) / 3) ≤ out.length) :
    base64Encode x out = some (cInt (filled out (text x)).1, (filled out (text x)).2) := by
  obtain ⟨n, hn⟩ : ∃ n, x.length = n + 1 := Nat.exists_eq_succ_of_ne_zero (Nat.ne_of_gt (List.length_pos_of_ne_nil hx))
  have hb := List.getElem?_eq_getElem (show n < x.length by omega)
  have hbyte := byteAt_eq hb
  have hlt := byteAt_lt x n
  unfold base64Encode
  rw [encodeLoop_filled (Nat.le_refl _) (by omega), Option.bind_eq_bind, Option.bind_some, hn,
    show (n + 1 + 2 ^ 32 - 1) % 2 ^ 32 = n by omega, ← hn]
  dsimp only
  rw [hb]
  have hmod : n % 3 = 0 ∨ n % 3 = 1 ∨ n % 3 = 2 := by omega
  rcases hmod with h | h | h
  · obtain ⟨q, rfl⟩ : ∃ q, n = 3 * q := ⟨n / 3, by omega⟩
    have hzero := byteAt_of_le (show x.length ≤ 3 * q + 1 by omega)
    have hlast : filled out (text x) = filled out (chars x (4 * q + 2) ++ [base64Pad] ++ [base64Pad]) := by
      rw [text, body, hn, show (3 - (3 * q + 1) % 3) % 3 = 2 by omega, show 3 * q + 1 + (3 * q + 1 + 2) / 3 = 4 * q + 2 by omega,
        List.append_assoc]
      rfl
    rw [if_pos h, hlast, show x.length + x.length / 3 = 4 * q + 1 by rw [hn, charIndex_one]]
    simp only [Option.bind_eq_bind, Option.bind_some]
    rw [putChar_chars ?_ (by omega),
      Option.bind_some, putByte_filled _ (by rw [length_chars]; omega), Option.bind_some, putByte_filled, Option.bind_some]
    · rw [List.length_append, length_chars, List.length_singleton]
      omega
    · rw [sextet_one, hzero, ← hbyte, and_shl (n := 3) _ 4 2 rfl]
      omega
  · obtain ⟨q, rfl⟩ : ∃ q, n = 3 * q + 1 := ⟨n / 3, by omega⟩
    have hzero := byteAt_of_le (show x.length ≤ 3 * q + 2 by omega)
    have hlast : filled out (text x) = filled out (chars x (4 * q + 3) ++ [base64Pad]) := by
      rw [text, body, hn, show (3 - (3 * q + 1 + 1) % 3) % 3 = 1 by omega,
        show 3 * q + 1 + 1 + (3 * q + 1 + 1 + 2) / 3 = 4 * q + 3 by omega]
      rfl
    rw [if_neg (by omega), if_pos h, hlast, show x.length + x.length / 3 = 4 * q + 2 by rw [hn]; exact charIndex_two q]
    simp only [Option.bind_eq_bind, Option.bind_some]
    rw [putChar_chars ?_ (by omega), Option.bind_some, putByte_filled _ (by rw [length_chars]; omega), Option.bind_some]
    rw [sextet_two, hzero, ← hbyte, and_shl (n := 15) _ 2 4 rfl]
    omega
  · obtain ⟨q, rfl⟩ : ∃ q, n = 3 * q + 2 := ⟨n / 3, by omega⟩
    have hlast : filled out (text x) = filled out (chars x (4 * q + 4)) := by
      rw [text, body, hn, show (3 - (3 * q + 2 + 1) % 3) % 3 = 0 by omega,
        show 3 * q + 2 + 1 + (3 * q + 2 + 1 + 2) / 3 = 4 * q + 4 by omega, List.replicate_zero, List.append_nil]
      rfl
    rw [if_neg (by omega), if_neg (by omega), hlast, show x.length + x.length / 3 = 4 * q + 4 by rw [hn]; exact charIndex_three q, Option.bind_some]

theorem base64Encode_eq (hx : x ≠ []) (hlen : 4 * ((x.length + 2) / 3) < 2 ^ 31) (hout : 4 * ((x.length + 2) / 3) ≤ out.length) :
    base64Encode x out =
      some (((4 * ((x.length + 2) / 3) : ℕ) : ℤ), text x ++ out.drop (4 * ((x.length + 2) / 3))) := by
  rw [base64Encode_filled hx (by omega) hout, filled_text, cInt_of_lt hlen]

/-! ## The decoder -/

theorem getElem?_text (hk : k < x.length + (x.length + 2) / 3) : (text x)[k]? = some (charOf (sextet x k)) := by
  have hb : k < (body x).length := by rwa [body, List.length_map, List.length_range]
  rw [text, List.getElem?_append_left hb, body, List.getElem?_map, List.getElem?_range hk, Option.map_some]

theorem getElem?_text_pad (hk : x.length + (x.length + 2) / 3 ≤ k) (hlt : k < 4 * ((x.length + 2) / 3)) :
    (text x)[k]? = some base64Pad := by
  have hb : (body x).length ≤ k := by rwa [body, List.length_map, List.length_range]
  rw [text, List.getElem?_append_right hb, List.getElem?_replicate, if_pos]
  rw [body, List.length_map, List.length_range]
  omega

theorem charOf_spec (h : v < 64) : charOf v ≠ base64Pad ∧ ¬(charOf v < base64deFirst ∨ base64deLast < charOf v) ∧
    base64de[(charOf v - base64deFirst).toNat]? = some (v : ℤ) := by
  have hall : ∀ v < 64, charOf v ≠ base64Pad ∧ ¬(charOf v < base64deFirst ∨ base64deLast < charOf v) ∧
      base64de[(charOf v - base64deFirst).toNat]? = some (v : ℤ) := by decide +kernel
  exact hall v h

/-- The byte that is not complete before the character at `i`. -/
def part (x : List UInt8) (i : ℕ) : List UInt8 :=
  match i % 4 with
  | 0 => []
  | 1 => [UInt8.ofNat (byteAt x (3 * (i / 4)) / 4 * 4)]
  | 2 => if 3 * (i / 4) + 1 < x.length then [UInt8.ofNat (byteAt x (3 * (i / 4) + 1) / 16 * 16)] else []
  | _ => if 3 * (i / 4) + 2 < x.length then [UInt8.ofNat (byteAt x (3 * (i / 4) + 2) / 64 * 64)] else []

theorem part_zero : part x (4 * q) = [] := by
  rw [part, Nat.mul_mod_right]
  rfl

theorem part_one : part x (4 * q + 1) = [UInt8.ofNat (byteAt x (3 * q) / 4 * 4)] := by
  rw [part, show (4 * q + 1) % 4 = 1 by omega, show (4 * q + 1) / 4 = q by omega]
  rfl

theorem part_two :
    part x (4 * q + 2) = if 3 * q + 1 < x.length then [UInt8.ofNat (byteAt x (3 * q + 1) / 16 * 16)] else [] := by
  rw [part, show (4 * q + 2) % 4 = 2 by omega, show (4 * q + 2) / 4 = q by omega]
  rfl

theorem part_three :
    part x (4 * q + 3) = if 3 * q + 2 < x.length then [UInt8.ofNat (byteAt x (3 * q + 2) / 64 * 64)] else [] := by
  rw [part, show (4 * q + 3) % 4 = 3 by omega, show (4 * q + 3) / 4 = q by omega]
  rfl

def built (x out : List UInt8) (i : ℕ) : List UInt8 :=
  x.take (3 * i / 4) ++ (part x i ++ out.drop (3 * i / 4 + (part x i).length))

theorem start_byte (b : UInt8) (hj : j < x.length) (hout : j < out.length) :
    write (x.take j ++ out.drop j) j [b] = some (x.take j ++ ([b] ++ out.drop (j + 1))) := by
  rw [List.drop_eq_getElem_cons hout, ← List.singleton_append, write_append [b] ?_ (by rfl)]
  rw [List.length_take, Nat.min_eq_left (Nat.le_of_lt hj)]

theorem finish_byte {m w : ℕ} {r : List UInt8} (hj : j < x.length) (hw : w = byteAt x j % m) :
    ∃ o, (x.take j ++ ([UInt8.ofNat (byteAt x j / m * m)] ++ r))[j]? = some o ∧
      write (x.take j ++ ([UInt8.ofNat (byteAt x j / m * m)] ++ r)) j [o + UInt8.ofNat w] = some (x.take (j + 1) ++ r) := by
  have hlen : j = (x.take j).length := by rw [List.length_take, Nat.min_eq_left (Nat.le_of_lt hj)]
  have hget := List.getElem?_eq_getElem hj
  refine ⟨UInt8.ofNat (byteAt x j / m * m), ?_, ?_⟩
  · rw [List.getElem?_append_right (Nat.le_of_eq hlen.symm), ← hlen, Nat.sub_self]
    rfl
  · rw [write_append _ hlen (by rfl), hw, ← UInt8.ofNat_add, Nat.div_add_mod', byteAt_eq hget, UInt8.ofNat_toNat,
      List.take_succ_eq_append_getElem hj, List.append_assoc]

theorem notLast_three (hlen : 4 * ((x.length + 2) / 3) < 2 ^ 31) (hi : 4 * q + 1 < x.length + (x.length + 2) / 3) :
    notLast (text x) (4 * q + 1) 3 = some (decide (3 * q + 1 < x.length)) := by
  rw [notLast, length_text, show (4 * ((x.length + 2) / 3) + 2 ^ 32 - 3) % 2 ^ 32 = 4 * ((x.length + 2) / 3) - 3 by omega,
    show (4 * ((x.length + 2) / 3) + 2 ^ 32 - (3 - 1)) % 2 ^ 32 = 4 * ((x.length + 2) / 3) - 2 by omega]
  split_ifs with hlt
  · rw [decide_eq_true (by omega)]
  · have hend : 4 * ((x.length + 2) / 3) - 2 = 4 * q + 2 := by omega
    rw [hend]
    by_cases hn : 3 * q + 1 < x.length
    · rw [getElem?_text (by omega), Option.map_some, decide_eq_true hn, bne_iff_ne.mpr (charOf_spec (sextet_lt x _)).1]
    · rw [getElem?_text_pad (by omega) (by omega), Option.map_some, decide_eq_false hn, bne_self_eq_false]

theorem notLast_two (hlen : 4 * ((x.length + 2) / 3) < 2 ^ 31) (hi : 4 * q + 2 < x.length + (x.length + 2) / 3) :
    notLast (text x) (4 * q + 2) 2 = some (decide (3 * q + 2 < x.length)) := by
  rw [notLast, length_text, show (4 * ((x.length + 2) / 3) + 2 ^ 32 - 2) % 2 ^ 32 = 4 * ((x.length + 2) / 3) - 2 by omega,
    show (4 * ((x.length + 2) / 3) + 2 ^ 32 - (2 - 1)) % 2 ^ 32 = 4 * ((x.length + 2) / 3) - 1 by omega]
  split_ifs with hlt
  · rw [decide_eq_true (by omega)]
  · have hend : 4 * ((x.length + 2) / 3) - 1 = 4 * q + 3 := by omega
    rw [hend]
    by_cases hn : 3 * q + 2 < x.length
    · rw [getElem?_text (by omega), Option.map_some, decide_eq_true hn, bne_iff_ne.mpr (charOf_spec (sextet_lt x _)).1]
    · rw [getElem?_text_pad (by omega) (by omega), Option.map_some, decide_eq_false hn, bne_self_eq_false]

theorem decodeStep_built (hlen : 4 * ((x.length + 2) / 3) < 2 ^ 31) (hi : i < x.length + (x.length + 2) / 3)
    (hout : x.length ≤ out.length) :
    decodeStep (text x) (sextet x i) ⟨i, 3 * i / 4, built x out i⟩ = some ⟨i, 3 * (i + 1) / 4, built x out (i + 1)⟩ := by
  have hmod : i % 4 = 0 ∨ i % 4 = 1 ∨ i % 4 = 2 ∨ i % 4 = 3 := by omega
  unfold decodeStep built
  rcases hmod with h | h | h | h
  · obtain ⟨q, rfl⟩ : ∃ q, i = 4 * q := ⟨i / 4, by omega⟩
    have hlt := byteAt_lt x (3 * q)
    rw [part_zero, part_one, byteIndex_zero, byteIndex_one]
    dsimp only
    rw [h]
    rw [List.nil_append, List.length_nil, Nat.add_zero, start_byte _ (by omega) (by omega), Option.bind_eq_bind, Option.bind_some,
      sextet_zero, Nat.shiftLeft_eq, Nat.and_two_pow_sub_one_eq_mod _ 8, Nat.mod_eq_of_lt (by omega)]
    rfl
  · obtain ⟨q, rfl⟩ : ∃ q, i = 4 * q + 1 := ⟨i / 4, by omega⟩
    have hlt := byteAt_lt x (3 * q + 1)
    rw [part_one, part_two, byteIndex_one, show 3 * (4 * q + 1 + 1) / 4 = 3 * q + 1 from byteIndex_two q]
    dsimp only
    rw [h]
    change Option.bind _ _ = _
    have hlow : (sextet x (4 * q + 1) >>> 4) &&& 0x3 = byteAt x (3 * q) % 4 := by
      rw [sextet_one, shr_and (n := 3) _ 4 2 rfl]
      omega
    have hhigh : (sextet x (4 * q + 1) &&& 0xF) <<< 4 = byteAt x (3 * q + 1) / 16 * 16 := by
      rw [sextet_one, and_shl (n := 15) _ 4 4 rfl]
      omega
    obtain ⟨o, ho, hwrite⟩ := finish_byte (m := 4) (r := out.drop (3 * q + 1)) (show 3 * q < x.length by omega) hlow
    rw [List.length_singleton, ho, Option.bind_some, Option.bind_eq_bind, hwrite, Option.bind_some, notLast_three hlen hi,
      Option.bind_eq_bind, Option.bind_some]
    by_cases hn : 3 * q + 1 < x.length
    · rw [if_pos (decide_eq_true hn), if_pos hn, start_byte _ hn (by omega), Option.bind_some, hhigh]
      rfl
    · rw [if_neg (by simpa using hn), if_neg hn, Option.bind_some]
      rfl
  · obtain ⟨q, rfl⟩ : ∃ q, i = 4 * q + 2 := ⟨i / 4, by omega⟩
    have hn : 3 * q + 1 < x.length := by omega
    have hlt := byteAt_lt x (3 * q + 2)
    rw [part_two, part_three, if_pos hn, byteIndex_two,
      show 3 * (4 * q + 2 + 1) / 4 = 3 * q + 2 from byteIndex_three q]
    dsimp only
    rw [h]
    change Option.bind _ _ = _
    have hlow : (sextet x (4 * q + 2) >>> 2) &&& 0xF = byteAt x (3 * q + 1) % 16 := by
      rw [sextet_two, shr_and (n := 15) _ 2 4 rfl]
      omega
    have hhigh : (sextet x (4 * q + 2) &&& 0x3) <<< 6 = byteAt x (3 * q + 2) / 64 * 64 := by
      rw [sextet_two, and_shl (n := 3) _ 6 2 rfl]
      omega
    obtain ⟨o, ho, hwrite⟩ := finish_byte (m := 16) (r := out.drop (3 * q + 2)) hn hlow
    rw [List.length_singleton, ho, Option.bind_some, Option.bind_eq_bind, hwrite, Option.bind_some, notLast_two hlen hi,
      Option.bind_eq_bind, Option.bind_some]
    by_cases hn : 3 * q + 2 < x.length
    · rw [if_pos (decide_eq_true hn), if_pos hn, start_byte _ hn (by omega), Option.bind_some, hhigh]
      rfl
    · rw [if_neg (by simpa using hn), if_neg hn, Option.bind_some]
      rfl
  · obtain ⟨q, rfl⟩ : ∃ q, i = 4 * q + 3 := ⟨i / 4, by omega⟩
    have hn : 3 * q + 2 < x.length := by omega
    rw [part_three, if_pos hn, show 4 * q + 3 + 1 = 4 * (q + 1) by omega, part_zero, byteIndex_three,
      show 3 * (4 * (q + 1)) / 4 = 3 * q + 3 from byteIndex_zero (q + 1)]
    dsimp only
    rw [h]
    change Option.bind _ _ = _
    obtain ⟨o, ho, hwrite⟩ := finish_byte (m := 64) (r := out.drop (3 * q + 3)) hn sextet_three
    rw [List.length_singleton, ho, Option.bind_eq_bind, Option.bind_some, hwrite, Option.bind_some]
    rfl

theorem decodeRound_charOf {s : Decoder} (hi : s.i < x.length) (hv : v < 64) (hch : x[s.i]? = some (charOf v)) :
    decodeRound x s = (decodeStep x v s).elim (.inr none) fun t => .inl { t with i := t.i + 1 } := by
  obtain ⟨hpad, hrange, hde⟩ := charOf_spec hv
  have hne : ((v : ℕ) : ℤ) ≠ -1 := by omega
  rw [decodeRound, if_pos hi, hch]
  dsimp only
  rw [if_neg hpad, if_neg hrange, hde]
  dsimp only
  rw [if_neg hne, Int.toNat_natCast]
  cases decodeStep x v s <;> rfl

theorem decodeRound_built (hlen : 4 * ((x.length + 2) / 3) < 2 ^ 31) (hi : i < x.length + (x.length + 2) / 3)
    (hout : x.length ≤ out.length) :
    decodeRound (text x) ⟨i, 3 * i / 4, built x out i⟩ = .inl ⟨i + 1, 3 * (i + 1) / 4, built x out (i + 1)⟩ := by
  have hlt : i < (text x).length := by
    rw [length_text]
    omega
  rw [decodeRound_charOf (s := ⟨i, 3 * i / 4, built x out i⟩) hlt (sextet_lt x i) (getElem?_text hi), decodeStep_built hlen hi hout,
    Option.elim_some]

theorem decodeRound_end (hlen : 4 * ((x.length + 2) / 3) < 2 ^ 31) (hi : i = x.length + (x.length + 2) / 3) :
    decodeRound (text x) ⟨i, 3 * i / 4, built x out i⟩ = .inr (some (x.length, x ++ out.drop x.length)) := by
  have hj : 3 * i / 4 = x.length := by omega
  have hpart : part x i = [] := by
    have hmod : i % 4 = 0 ∨ i % 4 = 2 ∨ i % 4 = 3 := by omega
    rcases hmod with h | h | h
    · rw [show i = 4 * (i / 4) by omega, part_zero]
    · rw [show i = 4 * (i / 4) + 2 by omega, part_two, if_neg (by omega)]
    · rw [show i = 4 * (i / 4) + 3 by omega, part_three, if_neg (by omega)]
  have hbuilt : built x out i = x ++ out.drop x.length := by
    rw [built, hpart, hj, List.take_length, List.nil_append, List.length_nil, Nat.add_zero]
  have hint : cInt (x.length : ℕ) = x.length := cInt_of_lt (by omega)
  rw [decodeRound, hbuilt, hj]
  dsimp only
  split_ifs with hlt
  · rw [length_text] at hlt
    rw [getElem?_text_pad (Nat.le_of_eq hi.symm) hlt]
    dsimp only
    rw [if_pos rfl, hint]
  · rw [hint]

theorem base64Decode_text (hlen : 4 * ((x.length + 2) / 3) < 2 ^ 31) (hout : x.length ≤ out.length) :
    base64Decode (text x) out = some ((x.length : ℤ), x ++ out.drop x.length) := by
  have hstart : Decoder.mk 0 0 out = ⟨0, 3 * 0 / 4, built x out 0⟩ := by
    rw [built, part_zero (q := 0)]
    simp
  have hfuel : x.length + (x.length + 2) / 3 - (Decoder.mk 0 0 out).i < (text x).length + 1 := by
    rw [length_text]
    dsimp only
    omega
  obtain ⟨r, hr, hret⟩ := Loop.run_of_measure (decodeRound (text x))
    (fun s => s.i ≤ x.length + (x.length + 2) / 3 ∧ s = ⟨s.i, 3 * s.i / 4, built x out s.i⟩)
    (fun r => r = some ((x.length : ℤ), x ++ out.drop x.length)) (fun s => x.length + (x.length + 2) / 3 - s.i)
    (fun s t ⟨hi, hs⟩ hround => by
      rcases Nat.lt_or_eq_of_le hi with hlt | heq
      · rw [hs, decodeRound_built hlen hlt hout] at hround
        cases hround
        exact ⟨⟨hlt, rfl⟩, by dsimp only; omega⟩
      · rw [hs, decodeRound_end hlen heq] at hround
        cases hround)
    (fun s r ⟨hi, hs⟩ hround => by
      rcases Nat.lt_or_eq_of_le hi with hlt | heq
      · rw [hs, decodeRound_built hlen hlt hout] at hround
        cases hround
      · rw [hs, decodeRound_end hlen heq] at hround
        cases hround
        rfl)
    ⟨Nat.zero_le _, hstart⟩ hfuel
  rw [base64Decode, hr, hret, Option.join_some]

/-- Base64 is taken back by the decoder; no byte outside the text and the bytes is written. -/
theorem base64_round_trip (hx : x ≠ []) (hlen : 4 * ((x.length + 2) / 3) < 2 ^ 31) :
    (text x).length = 4 * ((x.length + 2) / 3) ∧
      (∀ c ∈ body x, c ∈ base64en) ∧ text x = body x ++ List.replicate ((3 - x.length % 3) % 3) base64Pad ∧
      (∀ out : List UInt8, (text x).length ≤ out.length →
        base64Encode x out = some (((text x).length : ℤ), text x ++ out.drop (text x).length)) ∧
      ∀ out : List UInt8, x.length ≤ out.length →
        base64Decode (text x) out = some ((x.length : ℤ), x ++ out.drop x.length) := by
  refine ⟨length_text x, fun c hc => ?_, rfl, fun out hout => ?_, fun out => base64Decode_text hlen⟩
  · obtain ⟨k, -, rfl⟩ := List.mem_map.mp hc
    exact List.mem_of_getElem? (base64en_eq (sextet_lt x k))
  · rw [length_text] at hout ⊢
    exact base64Encode_eq hx hlen hout

theorem base64_round_trip_sample : base64Decode (text [77, 97]) [0, 0, 9] = some (2, [77, 97, 9]) :=
  (base64_round_trip (x := [77, 97]) (by decide) (by decide)).2.2.2.2 [0, 0, 9] (by decide)

example : text [77, 97] = [84, 87, 69, 61] := by decide

end Yjc.Base64
