import Yjc.Util.JsonText
import Mathlib.Algebra.GroupWithZero.Nat

/-! The strings that the parser reads. -/

namespace Yjc.Json
open CLib

/-! ## Escapes -/

theorem hexValue_lower {c : UInt8} (h : 97 ≤ c.toNat ∧ c.toNat ≤ 102) : hexValue c = c.toNat - 87 := by
  have hd : ¬isdigit c := fun hd => by
    have := (of_decide_eq_true hd).2
    change c.toNat ≤ 57 at this
    omega
  have hu : ¬(ch 'A' ≤ c ∧ c ≤ ch 'Z') := fun hu => by
    have := hu.2
    change c.toNat ≤ 90 at this
    omega
  rw [hexValue, if_neg hd, tolower, if_neg hu]

theorem hexValue_upper {c : UInt8} (h : 65 ≤ c.toNat ∧ c.toNat ≤ 70) : hexValue c = c.toNat - 55 := by
  have hd : ¬isdigit c := fun hd => by
    have := (of_decide_eq_true hd).2
    change c.toNat ≤ 57 at this
    omega
  have hu : ch 'A' ≤ c ∧ c ≤ ch 'Z' := ⟨h.1, Nat.le_trans h.2 (by decide)⟩
  have hadd : (c + 0x20).toNat = c.toNat + 32 := by
    rw [UInt8.toNat_add, show (0x20 : UInt8).toNat = 32 from rfl]
    omega
  rw [hexValue, if_neg hd, tolower, if_pos hu, hadd]
  omega

theorem isxdigit_cases {c : UInt8} (h : isxdigit c) :
    (48 ≤ c.toNat ∧ c.toNat ≤ 57) ∧ hexValue c = c.toNat - 48 ∨ (97 ≤ c.toNat ∧ c.toNat ≤ 102) ∧ hexValue c = c.toNat - 87 ∨
      (65 ≤ c.toNat ∧ c.toNat ≤ 70) ∧ hexValue c = c.toNat - 55 := by
  rcases of_decide_eq_true h with hd | hl | hu
  · exact .inl ⟨of_decide_eq_true hd, if_pos hd⟩
  · exact .inr (.inl ⟨hl, hexValue_lower hl⟩)
  · exact .inr (.inr ⟨hu, hexValue_upper hu⟩)

theorem hexDigit_eq (c : UInt8) : hexDigit c = if isxdigit c then some (hexValue c) else none := by
  have hdigit : ch '0' ≤ c ∧ c ≤ ch '9' ↔ 48 ≤ c.toNat ∧ c.toNat ≤ 57 := Iff.rfl
  have hupper : ch 'A' ≤ c ∧ c ≤ ch 'F' ↔ 65 ≤ c.toNat ∧ c.toNat ≤ 70 := Iff.rfl
  have hlower : ch 'a' ≤ c ∧ c ≤ ch 'f' ↔ 97 ≤ c.toNat ∧ c.toNat ≤ 102 := Iff.rfl
  by_cases hx : isxdigit c
  · rw [if_pos hx, hexDigit]
    simp only [hdigit, hupper, hlower]
    rcases isxdigit_cases hx with ⟨h, hv⟩ | ⟨h, hv⟩ | ⟨h, hv⟩
    · rw [if_pos h, hv]
    · rw [if_neg (by omega), if_neg (by omega), if_pos h, hv, show c.toNat - 0x61 + 10 = c.toNat - 87 by omega]
    · rw [if_neg (by omega), if_pos h, hv, show c.toNat - 0x41 + 10 = c.toNat - 55 by omega]
  · have hno : ¬(isdigit c ∨ ch 'a' ≤ c ∧ c ≤ ch 'f' ∨ ch 'A' ≤ c ∧ c ≤ ch 'F') := fun h => hx (decide_eq_true h)
    obtain ⟨hd, hl, hu⟩ : ¬isdigit c ∧ ¬(ch 'a' ≤ c ∧ c ≤ ch 'f') ∧ ¬(ch 'A' ≤ c ∧ c ≤ ch 'F') := by simpa only [not_or] using hno
    rw [if_neg hx, hexDigit, if_neg fun h => hd (decide_eq_true h), if_neg hu, if_neg hl]

theorem isxdigit_byte {c : UInt8} (h : isxdigit c) : hexValue c < 16 ∧ 0x20 ≤ c ∧ c ≠ ch '"' ∧ c ≠ ch '\\' := by
  have hcases := isxdigit_cases h
  refine ⟨by omega, ?_⟩
  simp [ch, UInt8.le_iff_toNat_le, ← UInt8.toNat_inj]
  omega

theorem hexValue_lt {c : UInt8} (h : isxdigit c) : hexValue c < 16 := (isxdigit_byte h).1

theorem isxdigit_raw {c : UInt8} (h : isxdigit c) : (Piece.raw c).Wide := (isxdigit_byte h).2

theorem escaped_letter (e : Escape) : escaped e.letter = some e.code := by
  cases e <;> rfl

theorem escaped_cases (c : UInt8) : escaped c = none ∨ ∃ e : Escape, c = e.letter ∧ escaped c = some e.code := by
  by_cases h : ∃ e : Escape, c = e.letter
  · obtain ⟨e, rfl⟩ := h
    exact .inr ⟨e, rfl, escaped_letter e⟩
  · have hne (e : Escape) : c ≠ e.letter := fun hc => h ⟨e, hc⟩
    refine .inl ?_
    calc escaped c = if c = ch '/' then _ else _ := (if_neg (hne .quote)).trans (if_neg (hne .backslash))
      _ = if c = ch 'f' then _ else _ := (if_neg (hne .slash)).trans (if_neg (hne .b))
      _ = if c = ch 'r' then _ else _ := (if_neg (hne .f)).trans (if_neg (hne .n))
      _ = none := (if_neg (hne .r)).trans (if_neg (hne .t))

theorem codeUnit_lt {a b c d : UInt8} (ha : isxdigit a) (hb : isxdigit b) (hc : isxdigit c) (hd : isxdigit d) :
    codeUnit a b c d < 0x10000 := by
  have := hexValue_lt ha
  have := hexValue_lt hb
  have := hexValue_lt hc
  have := hexValue_lt hd
  unfold codeUnit
  omega

theorem hexLoop_cons {c : UInt8} (h : isxdigit c) (i code : ℕ) (cursor : List UInt8) :
    hexLoop (i + 1) code (c :: cursor) = hexLoop i (16 * code + hexValue c) cursor := by
  rw [hexLoop, hexDigit_eq, if_pos h]
  dsimp only
  rw [Nat.shiftLeft_eq, Nat.mul_comm]

theorem parseJsonHex4_unicode {a b c d : UInt8} (h : (Piece.unicode a b c d).Wide) (cursor : List UInt8) :
    parseJsonHex4 (a :: b :: c :: d :: cursor) = .ok (codeUnit a b c d, cursor) := by
  obtain ⟨ha, hb, hc, hd⟩ := h
  rw [parseJsonHex4, hexLoop_cons ha, hexLoop_cons hb, hexLoop_cons hc, hexLoop_cons hd, hexLoop]
  congr 2
  unfold codeUnit
  omega

theorem hexLoop_ok {i code n : ℕ} {m rest : List UInt8} (h : hexLoop (i + 1) code m = .ok (n, rest)) :
    ∃ c cursor, m = c :: cursor ∧ isxdigit c ∧ hexLoop i (16 * code + hexValue c) cursor = .ok (n, rest) := by
  cases m with
  | nil => cases h
  | cons c cursor =>
    by_cases hc : isxdigit c
    · exact ⟨c, cursor, rfl, hc, hexLoop_cons hc i code cursor ▸ h⟩
    · rw [hexLoop, hexDigit_eq, if_neg hc] at h
      cases h

theorem parseJsonHex4_ok {n : ℕ} {m rest : List UInt8} (h : parseJsonHex4 m = .ok (n, rest)) :
    ∃ a b c d, m = a :: b :: c :: d :: rest ∧ (Piece.unicode a b c d).Wide ∧ n = codeUnit a b c d := by
  obtain ⟨a, m₁, rfl, ha, h₁⟩ := hexLoop_ok h
  obtain ⟨b, m₂, rfl, hb, h₂⟩ := hexLoop_ok h₁
  obtain ⟨c, m₃, rfl, hc, h₃⟩ := hexLoop_ok h₂
  obtain ⟨d, m₄, rfl, hd, h₄⟩ := hexLoop_ok h₃
  have hwide : (Piece.unicode a b c d).Wide := ⟨ha, hb, hc, hd⟩
  rw [parseJsonHex4_unicode hwide] at h
  cases h
  exact ⟨a, b, c, d, rfl, hwide, rfl⟩

/-! ## UTF-8 -/

theorem shiftRight_eq {n : ℕ} (code i : ℕ) (hn : n = 2 ^ i) : code >>> i = code / n := hn ▸ Nat.shiftRight_eq_div_pow code i

theorem and_mask (n : ℕ) : n &&& 0x3f = n % 0x40 := Nat.and_two_pow_sub_one_eq_mod n 6

theorem or_low {b n : ℕ} (i a : ℕ) (hn : n = 2 ^ i * a) (hb : b < 2 ^ i) : n ||| b = b + n := by
  rw [hn, ← Nat.two_pow_add_eq_or_of_lt hb, Nat.add_comm]

theorem utf8_eq {code : ℕ} (h : code.isValidChar) : utf8 code = String.utf8EncodeChar (Char.ofNat code) := by
  have hval : (Char.ofNat code).val.toNat = code := by
    rw [Char.ofNat, dif_pos h]
    rfl
  have hlt : code < 0x110000 := by
    rcases h with h | h <;> omega
  have hcont (n : ℕ) : 0x80 ||| (n &&& 0x3f) = n % 0x40 + 0x80 := by
    rw [and_mask]
    exact or_low 6 2 rfl (Nat.mod_lt n (by decide))
  unfold utf8 String.utf8EncodeChar
  dsimp only
  rw [hval, hcont, hcont, hcont, shiftRight_eq (n := 64) code 6 rfl, shiftRight_eq (n := 4096) code 12 rfl,
    shiftRight_eq (n := 262144) code 18 rfl]
  split_ifs with h₁ h₂ h₃
  · rfl
  · rw [or_low (n := 192) 6 3 rfl (by omega), Nat.mod_eq_of_lt (a := code / 64) (by omega)]
  · rw [or_low (n := 224) 5 7 rfl (by omega), Nat.mod_eq_of_lt (a := code / 4096) (by omega)]
  · rw [or_low (n := 240) 4 15 rfl (by omega), Nat.mod_eq_of_lt (a := code / 262144) (by omega)]

/-! ## The length -/

def Piece.count : Piece → ℕ
  | .raw _ => 1
  | .escape _ => 1
  | .unicode .. => 5

def count (ps : List Piece) : ℕ := (ps.map Piece.count).sum

variable {len size fuel : ℕ} {c : UInt8} {ps : List Piece} {rest str : List UInt8}

/-- `n` more in an `int`, and then the rest of a function. -/
def counting {α : Type} (len n : ℕ) (f : ℕ → Outcome α) : Outcome α := if len + n < 2 ^ 31 then f (len + n) else .error .undefined

theorem incr_bind {α : Type} (len : ℕ) (f : ℕ → Outcome α) : (incr len).bind f = counting len 1 f := by
  unfold incr counting
  split_ifs <;> rfl

theorem counting_counting {α : Type} (len m n : ℕ) (f : ℕ → Outcome α) :
    counting len m (fun len => counting len n f) = counting len (m + n) f := by
  unfold counting
  dsimp only
  rw [Nat.add_assoc]
  split_ifs with h₁ h₂ h₂
  · rfl
  · rfl
  · exact absurd h₂ (by omega)
  · rfl

theorem jsonStringLength_raw (h : (Piece.raw c).Wide) (len : ℕ) (cursor : List UInt8) :
    jsonStringLength len (c :: cursor) = counting len 1 (jsonStringLength · cursor) := by
  obtain ⟨hspace, hquote, hbackslash⟩ := h
  rw [jsonStringLength.eq_def]
  dsimp only
  rw [if_neg hquote, if_neg (UInt8.not_lt.mpr hspace), if_neg hbackslash, incr_bind]

theorem jsonStringLength_escape (h : c ≠ 0) (len : ℕ) (cursor : List UInt8) :
    jsonStringLength len (ch '\\' :: c :: cursor) = counting len 1 (jsonStringLength · cursor) := by
  rw [jsonStringLength.eq_def]
  dsimp only
  rw [if_neg (by decide), if_neg (by decide), if_pos rfl, if_neg h, incr_bind]

theorem jsonStringLength_piece {p : Piece} (h : p.Wide) (len : ℕ) (cursor : List UInt8) :
    jsonStringLength len (p.render ++ cursor) = counting len p.count (jsonStringLength · cursor) := by
  cases p with
  | raw c => exact jsonStringLength_raw h len cursor
  | escape e => exact jsonStringLength_escape (by cases e <;> decide) len cursor
  | unicode a b c d =>
    obtain ⟨ha, hb, hc, hd⟩ := h
    have hletter : jsonStringLength len ((Piece.unicode a b c d).render ++ cursor) =
        counting len 1 fun len => jsonStringLength len (a :: b :: c :: d :: cursor) := jsonStringLength_escape (by decide) len _
    simp only [hletter, jsonStringLength_raw (isxdigit_raw ha), jsonStringLength_raw (isxdigit_raw hb),
      jsonStringLength_raw (isxdigit_raw hc), jsonStringLength_raw (isxdigit_raw hd), counting_counting]
    rfl

theorem jsonStringLength_quoted (h : ∀ p ∈ ps, p.Wide) (hlen : len < 2 ^ 31) (rest : List UInt8) :
    jsonStringLength len (quoted ps ++ ch '"' :: rest) = counting len (count ps) .ok := by
  induction ps generalizing len with
  | nil =>
    have hquote : jsonStringLength len (ch '"' :: rest) = .ok len := by
      rw [jsonStringLength.eq_def]
      exact if_pos rfl
    exact hquote.trans (if_pos hlen).symm
  | cons p ps ih =>
    obtain ⟨hp, hps⟩ := List.forall_mem_cons.mp h
    have hcount : count (p :: ps) = p.count + count ps := List.sum_cons
    rw [quoted, List.flatMap_cons, List.append_assoc, jsonStringLength_piece hp, hcount, ← counting_counting]
    unfold counting
    split_ifs with hlt
    · exact ih hps hlt
    · rfl

/-! ## The bytes -/

/-- The code point of a surrogate pair. -/
def pair (n next : ℕ) : ℕ := 0x10000 + 0x400 * (n - 0xd800) + (next - 0xdc00)

theorem pair_eq {code next : ℕ} (h : High code) (m : List UInt8) :
    (if next < 0xdc00 ∨ 0xdfff < next then .error (.ret (-2))
      else .ok (utf8 ((((code &&& 0x3ff) <<< 10) ||| (next &&& 0x3ff)) + 0x10000), m) : Outcome (List UInt8 × List UInt8)) =
    if Low next then .ok (String.utf8EncodeChar (Char.ofNat (pair code next)), m)
    else .error (.ret (-2)) := by
  obtain ⟨hge, hlt⟩ := h
  by_cases hlow : Low next
  · obtain ⟨hge', hlt'⟩ := hlow
    have hcode : code &&& 0x3ff = code - 0xd800 := by
      rw [Nat.and_two_pow_sub_one_eq_mod code 10]
      omega
    have hnext : next &&& 0x3ff = next - 0xdc00 := by
      rw [Nat.and_two_pow_sub_one_eq_mod next 10]
      omega
    have hor : 2 ^ 10 * (code - 0xd800) ||| (next - 0xdc00) = next - 0xdc00 + 2 ^ 10 * (code - 0xd800) := or_low 10 _ rfl (by omega)
    have hsum : next - 0xdc00 + 2 ^ 10 * (code - 0xd800) + 0x10000 = 0x10000 + 0x400 * (code - 0xd800) + (next - 0xdc00) := by omega
    rw [if_neg (by omega), if_pos ⟨hge', hlt'⟩, hcode, hnext, Nat.shiftLeft_eq, Nat.mul_comm, hor, hsum, utf8_eq]
    · rfl
    · exact .inr ⟨by omega, by omega⟩
  · have hout : next < 0xdc00 ∨ 0xdfff < next := by
      unfold Low at hlow
      omega
    rw [if_pos hout, if_neg hlow]

theorem parseJsonUnicode_eq {a b c d : UInt8} (h : (Piece.unicode a b c d).Wide) (m : List UInt8) :
    parseJsonUnicode (a :: b :: c :: d :: m) =
      if Low (codeUnit a b c d) then .error (.ret (-2))
      else if High (codeUnit a b c d) then
        (expect (ch '\\') m).bind fun m => (expect (ch 'u') m).bind fun m => (parseJsonHex4 m).bind fun (next, m) =>
          if Low next then
            .ok (String.utf8EncodeChar (Char.ofNat (pair (codeUnit a b c d) next)), m)
          else .error (.ret (-2))
      else .ok (String.utf8EncodeChar (Char.ofNat (codeUnit a b c d)), m) := by
  have hlt := codeUnit_lt h.1 h.2.1 h.2.2.1 h.2.2.2
  rw [parseJsonUnicode, parseJsonHex4_unicode h]
  generalize codeUnit a b c d = code at hlt ⊢
  have hlow : (0xdc00 ≤ code ∧ code ≤ 0xdfff) ↔ Low code := and_congr_right fun _ => Nat.lt_succ_iff.symm
  have hhigh : (0xd800 ≤ code ∧ code ≤ 0xdbff) ↔ High code := and_congr_right fun _ => Nat.lt_succ_iff.symm
  simp only [bind, Except.bind]
  simp only [hlow, hhigh]
  split_ifs with h₁ h₂
  · rfl
  · cases expect (ch '\\') m with
    | error e => rfl
    | ok m =>
      dsimp only
      cases expect (ch 'u') m with
      | error e => rfl
      | ok m =>
        dsimp only
        cases parseJsonHex4 m with
        | error e => rfl
        | ok r => exact pair_eq h₂ r.2
  · rw [utf8_eq]
    unfold High Low at *
    omega

theorem put_eq {bytes : List UInt8} (h : str.length + bytes.length ≤ size) : put size str bytes = .ok (str ++ bytes) := if_pos h

theorem stringLoop_quote (hsize : str.length < size) : stringLoop size (fuel + 1) (ch '"' :: rest) str = .ok (str, rest) := by
  rw [stringLoop, if_pos rfl, put_eq hsize]
  rfl

theorem stringLoop_raw (h : (Piece.raw c).Wide) (hsize : str.length < size) (cursor : List UInt8) :
    stringLoop size (fuel + 1) (c :: cursor) str = stringLoop size fuel cursor (str ++ [c]) := by
  rw [stringLoop, if_neg h.2.1, if_neg h.2.2, put_eq hsize]
  rfl

theorem stringLoop_backslash (size fuel : ℕ) (cursor str : List UInt8) : stringLoop size (fuel + 1) (ch '\\' :: cursor) str =
    (parseEscape cursor).bind fun r => (put size str r.1).bind fun str => stringLoop size fuel r.2 str := by
  rw [stringLoop, if_neg (by decide), if_pos rfl]

theorem parseEscape_letter (e : Escape) (cursor : List UInt8) : parseEscape (e.letter :: cursor) = .ok ([e.code], cursor) := by
  rw [parseEscape, escaped_letter]

theorem parseEscape_u (cursor : List UInt8) : parseEscape (ch 'u' :: cursor) = parseJsonUnicode cursor := by
  have hnone : escaped (ch 'u') = none := rfl
  rw [parseEscape, hnone]
  exact if_pos rfl

theorem length_utf8 (n : ℕ) : (String.utf8EncodeChar (Char.ofNat n)).length ≤ 4 := by
  rw [String.length_utf8EncodeChar]
  exact Char.utf8Size_le_four _

theorem expect_surrogate {α : Type} (h : ∀ p ∈ ps, p.Wide) (hps : ∀ a b c d ps', ps = .unicode a b c d :: ps' → False)
    (rest : List UInt8) (f : List UInt8 → Outcome α) :
    ((expect (ch '\\') (quoted ps ++ ch '"' :: rest)).bind fun m => (expect (ch 'u') m).bind f) = .error (.ret (-2)) := by
  cases ps with
  | nil => rfl
  | cons p ps =>
    cases p with
    | raw c =>
      have hc : c ≠ ch '\\' := (h _ List.mem_cons_self).2.2
      have hexpect : expect (ch '\\') (quoted (.raw c :: ps) ++ ch '"' :: rest) = .error (.ret (-2)) := if_neg hc
      rw [hexpect]
      rfl
    | escape e =>
      have hu : e.letter ≠ ch 'u' := by cases e <;> decide
      have hexpect : expect (ch 'u') (e.letter :: (quoted ps ++ ch '"' :: rest)) = .error (.ret (-2)) := if_neg hu
      exact congrArg (Except.bind · f) hexpect
    | unicode a b c d => exact absurd rfl (hps a b c d ps)

theorem count_cons (p : Piece) (ps : List Piece) : count (p :: ps) = p.count + count ps := List.sum_cons

theorem quoted_cons (p : Piece) (ps : List Piece) : quoted (p :: ps) = p.render ++ quoted ps := List.flatMap_cons

theorem decode_raw (c : UInt8) (ps : List Piece) : decode (.raw c :: ps) = (decode ps).map ([c] ++ ·) := rfl

theorem decode_escape (e : Escape) (ps : List Piece) : decode (.escape e :: ps) = (decode ps).map ([e.code] ++ ·) := rfl

theorem decode_unicode {a b c d : UInt8} (hlow : ¬Low (codeUnit a b c d)) (hhigh : ¬High (codeUnit a b c d)) (ps : List Piece) :
    decode (.unicode a b c d :: ps) = (decode ps).map (String.utf8EncodeChar (Char.ofNat (codeUnit a b c d)) ++ ·) := by
  rw [decode.eq_def]
  dsimp only
  rw [if_neg hlow, if_neg hhigh]

theorem decode_pair {a b c d a' b' c' d' : UInt8} (hhigh : High (codeUnit a b c d)) (hlow' : Low (codeUnit a' b' c' d')) (ps : List Piece) :
    decode (.unicode a b c d :: .unicode a' b' c' d' :: ps) =
      (decode ps).map (String.utf8EncodeChar (Char.ofNat (pair (codeUnit a b c d) (codeUnit a' b' c' d'))) ++ ·) := by
  have hlow : ¬Low (codeUnit a b c d) := fun h => Nat.not_le_of_lt hhigh.2 h.1
  calc decode (.unicode a b c d :: .unicode a' b' c' d' :: ps) = if Low (codeUnit a b c d) then none else
        if High (codeUnit a b c d) then if Low (codeUnit a' b' c' d') then _ else none else _ := rfl
    _ = _ := (if_neg hlow).trans ((if_pos hhigh).trans (if_pos hlow'))

def stored (ps : List Piece) (str rest : List UInt8) : Outcome (List UInt8 × List UInt8) :=
  match decode ps with
  | none => .error (.ret (-2))
  | some bytes => .ok (str ++ bytes, rest)

theorem stored_of_map {ps' : List Piece} {bytes : List UInt8} (h : decode ps' = (decode ps).map (bytes ++ ·)) :
    stored ps' str rest = stored ps (str ++ bytes) rest := by
  unfold stored
  rw [h]
  cases decode ps with
  | none => rfl
  | some bytes' => exact congrArg (fun s => Except.ok (s, rest)) (List.append_assoc _ _ _).symm

theorem stored_of_none (h : decode ps = none) : stored ps str rest = .error (.ret (-2)) := by
  rw [stored, h]

theorem stringLoop_escape {m m' bytes : List UInt8} (h : parseEscape m = .ok (bytes, m')) (hsize : str.length + bytes.length ≤ size) :
    stringLoop size (fuel + 1) (ch '\\' :: m) str = stringLoop size fuel m' (str ++ bytes) := by
  rw [stringLoop_backslash, h]
  dsimp only [Except.bind]
  rw [put_eq hsize]

theorem stringLoop_error {m : List UInt8} {e : Stop} (h : parseEscape m = .error e) :
    stringLoop size (fuel + 1) (ch '\\' :: m) str = .error e := by
  rw [stringLoop_backslash, h]
  rfl

theorem room_cons {p : Piece} (hfuel : (quoted (p :: ps)).length < fuel) (hsize : str.length + count (p :: ps) < size) :
    ∃ k, fuel = k + 1 ∧ p.render.length + (quoted ps).length < k + 1 ∧ str.length + (p.count + count ps) < size := by
  -- the rounds and the room that are left for the pieces after the first
  rw [quoted_cons, List.length_append] at hfuel
  rw [count_cons] at hsize
  exact ⟨fuel - 1, by omega, by omega, hsize⟩

theorem stringLoop_quoted (h : ∀ p ∈ ps, p.Wide) (hfuel : (quoted ps).length < fuel) (hsize : str.length + count ps < size)
    (rest : List UInt8) : stringLoop size fuel (quoted ps ++ ch '"' :: rest) str = stored ps str rest := by
  induction ps using decode.induct generalizing fuel str with
  | case1 =>
    obtain ⟨fuel, rfl⟩ : ∃ k, fuel = k + 1 := ⟨fuel - 1, by omega⟩
    rw [stored, decode]
    dsimp only
    rw [List.append_nil]
    exact stringLoop_quote hsize
  | case2 c ps ih =>
    obtain ⟨hc, hps⟩ := List.forall_mem_cons.mp h
    obtain ⟨fuel, rfl, hfuel, hsize⟩ := room_cons hfuel hsize
    dsimp only [Piece.render, Piece.count, List.length_cons, List.length_nil] at hfuel hsize
    rw [stored_of_map (decode_raw c ps)]
    refine (stringLoop_raw hc (by omega) _).trans (ih hps (by omega) ?_)
    rw [List.length_append, List.length_singleton]
    omega
  | case3 e ps ih =>
    obtain ⟨-, hps⟩ := List.forall_mem_cons.mp h
    obtain ⟨fuel, rfl, hfuel, hsize⟩ := room_cons hfuel hsize
    dsimp only [Piece.render, Piece.count, List.length_cons, List.length_nil] at hfuel hsize
    rw [stored_of_map (decode_escape e ps)]
    refine (stringLoop_escape (parseEscape_letter e _) ?_).trans (ih hps (by omega) ?_)
    · rw [List.length_singleton]
      omega
    · rw [List.length_append, List.length_singleton]
      omega
  | case4 a b c d ps hlow =>
    have hp := (List.forall_mem_cons.mp h).1
    obtain ⟨fuel, rfl⟩ : ∃ k, fuel = k + 1 := ⟨fuel - 1, by omega⟩
    have hnone : decode (.unicode a b c d :: ps) = none := by
      rw [decode.eq_def]
      exact if_pos hlow
    rw [stored_of_none hnone]
    refine stringLoop_error ((parseEscape_u _).trans ((parseJsonUnicode_eq hp _).trans ?_))
    exact if_pos hlow
  | case5 a b c d hlow hhigh a' b' c' d' ps hlow' ih =>
    obtain ⟨hp, hps⟩ := List.forall_mem_cons.mp h
    obtain ⟨hp', hps⟩ := List.forall_mem_cons.mp hps
    obtain ⟨fuel, rfl, hfuel, hsize⟩ := room_cons hfuel hsize
    rw [quoted_cons, List.length_append] at hfuel
    rw [count_cons] at hsize
    dsimp only [Piece.render, Piece.count, List.length_cons, List.length_nil] at hfuel hsize
    have hparse := parseJsonUnicode_eq hp (ch '\\' :: ch 'u' :: a' :: b' :: c' :: d' :: (quoted ps ++ ch '"' :: rest))
    have hnext := parseJsonHex4_unicode hp' (quoted ps ++ ch '"' :: rest)
    rw [if_neg hlow, if_pos hhigh] at hparse
    simp only [expect, if_true, Except.bind, hnext, hlow'] at hparse
    have hlen := length_utf8 (pair (codeUnit a b c d) (codeUnit a' b' c' d'))
    rw [stored_of_map (decode_pair hhigh hlow' ps)]
    refine (stringLoop_escape ((parseEscape_u _).trans hparse) (by omega)).trans (ih hps (by omega) ?_)
    rw [List.length_append]
    omega
  | case6 a b c d hlow hhigh a' b' c' d' ps hlow' =>
    obtain ⟨hp, hps⟩ := List.forall_mem_cons.mp h
    have hp' := (List.forall_mem_cons.mp hps).1
    obtain ⟨fuel, rfl⟩ : ∃ k, fuel = k + 1 := ⟨fuel - 1, by omega⟩
    have hnone : decode (.unicode a b c d :: .unicode a' b' c' d' :: ps) = none := by
      rw [decode, if_neg hlow, if_pos hhigh, if_neg hlow']
    have hparse := parseJsonUnicode_eq hp (ch '\\' :: ch 'u' :: a' :: b' :: c' :: d' :: (quoted ps ++ ch '"' :: rest))
    have hnext := parseJsonHex4_unicode hp' (quoted ps ++ ch '"' :: rest)
    rw [if_neg hlow, if_pos hhigh] at hparse
    simp only [expect, if_true, Except.bind, hnext, hlow', if_false] at hparse
    rw [stored_of_none hnone]
    exact stringLoop_error ((parseEscape_u _).trans hparse)
  | case7 a b c d ps hlow hhigh hother =>
    obtain ⟨hp, hps⟩ := List.forall_mem_cons.mp h
    obtain ⟨fuel, rfl⟩ : ∃ k, fuel = k + 1 := ⟨fuel - 1, by omega⟩
    have hnone : decode (.unicode a b c d :: ps) = none := by
      rw [decode, if_neg hlow, if_pos hhigh]
      exact hother
    have hparse := parseJsonUnicode_eq hp (quoted ps ++ ch '"' :: rest)
    rw [if_neg hlow, if_pos hhigh, expect_surrogate hps hother] at hparse
    rw [stored_of_none hnone]
    exact stringLoop_error ((parseEscape_u _).trans hparse)
  | case8 a b c d ps hlow hhigh ih =>
    obtain ⟨hp, hps⟩ := List.forall_mem_cons.mp h
    obtain ⟨fuel, rfl, hfuel, hsize⟩ := room_cons hfuel hsize
    dsimp only [Piece.render, Piece.count, List.length_cons, List.length_nil] at hfuel hsize
    have hparse := parseJsonUnicode_eq hp (quoted ps ++ ch '"' :: rest)
    rw [if_neg hlow, if_neg hhigh] at hparse
    have hlen := length_utf8 (codeUnit a b c d)
    rw [stored_of_map (decode_unicode hlow hhigh ps)]
    refine (stringLoop_escape ((parseEscape_u _).trans hparse) (by omega)).trans (ih hps (by omega) ?_)
    rw [List.length_append]
    omega

/-! ## What is read is a string -/

theorem expect_cons (c : UInt8) (m : List UInt8) : expect c (c :: m) = .ok m := by
  rw [expect, if_pos rfl]

theorem expect_ok {m m' : List UInt8} (h : expect c m = .ok m') : m = c :: m' := by
  cases m with
  | nil => cases h
  | cons d m =>
    rw [expect] at h
    split_ifs at h with hd
    cases h
    rw [hd]

theorem parseJsonUnicode_ok {m m' bytes : List UInt8} (h : parseJsonUnicode m = .ok (bytes, m')) :
    ∃ ps : List Piece, (∀ p ∈ ps, p.Wide) ∧ ch '\\' :: ch 'u' :: m = quoted ps ++ m' ∧
      ∀ ps', decode (ps ++ ps') = (decode ps').map (bytes ++ ·) := by
  cases hhex : parseJsonHex4 m with
  | error e =>
    rw [parseJsonUnicode, hhex] at h
    cases h
  | ok r =>
    obtain ⟨code, m₀⟩ := r
    obtain ⟨a, b, c, d, rfl, hp, -⟩ := parseJsonHex4_ok hhex
    rw [parseJsonUnicode_eq hp] at h
    split_ifs at h with hlow hhigh
    · -- A pair of surrogates is two pieces.
      obtain ⟨m₁, h₁, h⟩ := bind_ok.mp h
      obtain ⟨m₂, h₂, h⟩ := bind_ok.mp h
      obtain ⟨⟨next, m₃⟩, h₃, h⟩ := bind_ok.mp h
      obtain rfl := expect_ok h₁
      obtain rfl := expect_ok h₂
      obtain ⟨a', b', c', d', rfl, hp', rfl⟩ := parseJsonHex4_ok h₃
      dsimp only at h
      split_ifs at h with hlow'
      obtain ⟨rfl, rfl⟩ := Prod.mk.inj (Except.ok.inj h)
      exact ⟨[.unicode a b c d, .unicode a' b' c' d'], List.forall_mem_cons.mpr ⟨hp, List.forall_mem_singleton.mpr hp'⟩, rfl,
        fun ps' => decode_pair hhigh hlow' ps'⟩
    · cases h
      exact ⟨[.unicode a b c d], List.forall_mem_singleton.mpr hp, rfl, fun ps' => decode_unicode hlow hhigh ps'⟩

theorem parseEscape_ok {m m' bytes : List UInt8} (h : parseEscape m = .ok (bytes, m')) :
    ∃ ps : List Piece, (∀ p ∈ ps, p.Wide) ∧ ch '\\' :: m = quoted ps ++ m' ∧
      ∀ ps', decode (ps ++ ps') = (decode ps').map (bytes ++ ·) := by
  cases m with
  | nil => cases h
  | cons c m =>
    obtain hnone | ⟨e, rfl, hsome⟩ := escaped_cases c
    · rw [parseEscape, hnone] at h
      dsimp only at h
      split_ifs at h with hu
      rw [hu]
      exact parseJsonUnicode_ok h
    · rw [parseEscape_letter] at h
      cases h
      exact ⟨[.escape e], List.forall_mem_singleton.mpr trivial, rfl, decode_escape e⟩

theorem jsonStringLength_after {m : List UInt8} {n : ℕ} (h : ∀ p ∈ ps, p.Wide) (hlen : jsonStringLength len (quoted ps ++ m) = .ok n) :
    ∃ len', jsonStringLength len' m = .ok n := by
  induction ps generalizing len with
  | nil => exact ⟨len, hlen⟩
  | cons p ps ih =>
    obtain ⟨hp, hps⟩ := List.forall_mem_cons.mp h
    rw [quoted_cons, List.append_assoc, jsonStringLength_piece hp, counting] at hlen
    split_ifs at hlen
    exact ih hps hlen

theorem stringLoop_ok {m out : List UInt8} {n : ℕ} (hlen : jsonStringLength len m = .ok n) (h : stringLoop size fuel m str = .ok (out, rest)) :
    ∃ ps bytes, (∀ p ∈ ps, p.Wide) ∧ m = quoted ps ++ ch '"' :: rest ∧ decode ps = some bytes ∧ out = str ++ bytes := by
  induction fuel generalizing len m str with
  | zero => cases h
  | succ fuel ih =>
    cases m with
    | nil => cases h
    | cons c m =>
      rw [stringLoop] at h
      split_ifs at h with hquote hbackslash
      · obtain ⟨-, -, heq⟩ := map_ok.mp h
        cases heq
        exact ⟨[], [], nofun, by rw [hquote]; rfl, rfl, (List.append_nil _).symm⟩
      · obtain ⟨⟨bytes, m'⟩, hparse, h⟩ := bind_ok.mp h
        obtain ⟨str', hput, h⟩ := bind_ok.mp h
        obtain ⟨ps, hps, hm, hdecode⟩ := parseEscape_ok hparse
        obtain rfl : str ++ bytes = str' := by
          unfold put at hput
          split_ifs at hput
          exact Except.ok.inj hput
        rw [hbackslash] at hlen ⊢
        rw [hm] at hlen ⊢
        obtain ⟨len', hlen⟩ := jsonStringLength_after hps hlen
        obtain ⟨ps', bytes', hps', rfl, hdecode', rfl⟩ := ih hlen h
        refine ⟨ps ++ ps', bytes ++ bytes', List.forall_mem_append.mpr ⟨hps, hps'⟩, ?_, ?_, List.append_assoc _ _ _⟩
        · rw [quoted, quoted, quoted, List.flatMap_append, List.append_assoc]
        · rw [hdecode, hdecode']
          rfl
      · obtain ⟨str', hput, h⟩ := bind_ok.mp h
        obtain rfl : str ++ [c] = str' := by
          unfold put at hput
          split_ifs at hput
          exact Except.ok.inj hput
        have hraw : (Piece.raw c).Wide := by
          refine ⟨UInt8.not_lt.mp fun hlt => ?_, hquote, hbackslash⟩
          rw [jsonStringLength.eq_def] at hlen
          dsimp only at hlen
          rw [if_neg hquote, if_pos hlt] at hlen
          cases hlen
        obtain ⟨len', hlen⟩ := jsonStringLength_after (List.forall_mem_singleton.mpr hraw) hlen
        obtain ⟨ps', bytes', hps', rfl, hdecode', rfl⟩ := ih hlen h
        refine ⟨.raw c :: ps', c :: bytes', List.forall_mem_cons.mpr ⟨hraw, hps'⟩, rfl, ?_, List.append_assoc _ _ _⟩
        rw [decode_raw, hdecode']
        rfl

end Yjc.Json
