import Yjc.Util.JsonStrings

/-! The decoder of strings within the buffer that the first pass over them sizes. -/

namespace Yjc.Json
open CLib

/-- What the first pass goes over, and its count. A backslash takes the character after it along, whatever that is. -/
inductive Scanned : ℕ → List UInt8 → Prop
  | nil : Scanned 0 []
  | raw {c : UInt8} {k : ℕ} {m : List UInt8} (h : (Piece.raw c).Wide) (hm : Scanned k m) : Scanned (k + 1) (c :: m)
  | escape {e : UInt8} {k : ℕ} {m : List UInt8} (h : e ≠ 0) (hm : Scanned k m) : Scanned (k + 1) (ch '\\' :: e :: m)

variable {len n k i code fuel : ℕ} {e : UInt8} {m read str : List UInt8}

theorem counting_ok {f : ℕ → Outcome ℕ} (h : counting len k f = .ok n) : len + k < 2 ^ 31 ∧ f (len + k) = .ok n := by
  rw [counting] at h
  split_ifs at h with hlt
  exact ⟨hlt, h⟩

theorem jsonStringLength_quote (len : ℕ) (cursor : List UInt8) : jsonStringLength len (ch '"' :: cursor) = .ok len := by
  rw [jsonStringLength.eq_def]
  exact if_pos rfl

theorem scanned_of_length (h : jsonStringLength len m = .ok n) (hlen : len < 2 ^ 31) :
    n < 2 ^ 31 ∧ ∃ k read rest, Scanned k read ∧ m = read ++ ch '"' :: rest ∧ n = len + k := by
  induction len, m using jsonStringLength.induct with
  | case1 => cases h
  | case2 len cursor =>
    rw [jsonStringLength_quote] at h
    cases h
    exact ⟨hlen, 0, [], cursor, .nil, rfl, rfl⟩
  | case3 len c cursor hquote hlow =>
    rw [jsonStringLength.eq_def] at h
    dsimp only at h
    rw [if_neg hquote, if_pos hlow] at h
    cases h
  | case4 => cases h
  | case5 => cases h
  | case6 len e cursor he _ _ ih =>
    rw [jsonStringLength_escape he] at h
    obtain ⟨hlt, h⟩ := counting_ok h
    obtain ⟨hn, k, read, rest, hread, rfl, hk⟩ := ih _ h hlt
    exact ⟨hn, k + 1, _, rest, .escape he hread, rfl, by omega⟩
  | case7 len c cursor hquote hlow hbackslash ih =>
    have hraw : (Piece.raw c).Wide := ⟨UInt8.not_lt.mp hlow, hquote, hbackslash⟩
    rw [jsonStringLength_raw hraw] at h
    obtain ⟨hlt, h⟩ := counting_ok h
    obtain ⟨hn, k, read, rest, hread, rfl, hk⟩ := ih _ h hlt
    exact ⟨hn, k + 1, _, rest, .raw hraw hread, rfl, by omega⟩

theorem Scanned.length (h : Scanned k read) (hlen : len + k < 2 ^ 31) (rest : List UInt8) :
    jsonStringLength len (read ++ ch '"' :: rest) = .ok (len + k) ∧ jsonStringLength len read = .error .undefined := by
  -- the first pass stops at the quote, and without one it runs on
  induction h generalizing len with
  | nil => exact ⟨jsonStringLength_quote len rest, rfl⟩
  | raw hc hm ih =>
    obtain ⟨hquote, hnone⟩ := @ih (len + 1) (by omega)
    rw [List.cons_append, jsonStringLength_raw hc, jsonStringLength_raw hc, counting, counting, if_pos (by omega), if_pos (by omega), hquote, hnone]
    exact ⟨congrArg _ (by omega), rfl⟩
  | escape he hm ih =>
    obtain ⟨hquote, hnone⟩ := @ih (len + 1) (by omega)
    rw [List.cons_append, List.cons_append, jsonStringLength_escape he, jsonStringLength_escape he, counting, counting, if_pos (by omega),
      if_pos (by omega), hquote, hnone]
    exact ⟨congrArg _ (by omega), rfl⟩

/-! ## What an escape reads -/

/-- A reader started within a scanned string either fails, or gets on within it: `used` units of the count for what it reads, whatever follows
the closing quote. -/
def ReadsWithin {α : Type} (reader : List UInt8 → Outcome (α × List UInt8)) (k : ℕ) (m : List UInt8) (used : α → ℕ) : Prop :=
  (∃ code, ∀ rest, reader (m ++ ch '"' :: rest) = .error (.ret code)) ∨
    ∃ a k' m', Scanned k' m' ∧ k' + used a ≤ k ∧ m'.length ≤ m.length ∧ ∀ rest, reader (m ++ ch '"' :: rest) = .ok (a, m' ++ ch '"' :: rest)

theorem Scanned.hexLoop (h : Scanned k m) (i code : ℕ) : ReadsWithin (hexLoop i code) k m fun _ => i := by
  induction i generalizing k m code with
  | zero => exact .inr ⟨code, k, m, h, Nat.le_refl k, Nat.le_refl _, fun _ => rfl⟩
  | succ i ih =>
    cases h with
    | nil => exact .inl ⟨-2, fun _ => rfl⟩
    | @raw c k m hc hm =>
      cases hd : hexDigit c with
      | none =>
        refine .inl ⟨-2, fun rest => ?_⟩
        rw [List.cons_append, Json.hexLoop, hd]
      | some hex =>
        have hstep (rest : List UInt8) : Json.hexLoop (i + 1) code (c :: m ++ ch '"' :: rest) =
            Json.hexLoop i ((code <<< 4) + hex) (m ++ ch '"' :: rest) := by
          rw [List.cons_append, Json.hexLoop, hd]
        obtain ⟨code', hfail⟩ | ⟨a, k', m', hm', hk, hlen, hok⟩ := ih hm ((code <<< 4) + hex)
        · exact .inl ⟨code', fun rest => (hstep rest).trans (hfail rest)⟩
        · exact .inr ⟨a, k', m', hm', by dsimp only at hk ⊢; omega, by rw [List.length_cons]; omega, fun rest => (hstep rest).trans (hok rest)⟩
    | escape he hm => exact .inl ⟨-2, fun _ => rfl⟩

theorem length_utf8_le (n : ℕ) : (utf8 n).length ≤ 4 := by
  have hlen : ∀ l : List UInt8, l.length = 1 ∨ l.length = 2 ∨ l.length = 3 ∨ l.length = 4 → l.length ≤ 4 := fun l h => by omega
  refine hlen _ ?_
  rw [utf8]
  split_ifs
  · exact .inl rfl
  · exact .inr (.inl rfl)
  · exact .inr (.inr (.inl rfl))
  · exact .inr (.inr (.inr rfl))

/-- The second half of a surrogate pair, after the first one. -/
def secondHalf (code : ℕ) (m : List UInt8) : Outcome (List UInt8 × List UInt8) :=
  (expect (ch '\\') m).bind fun m => (expect (ch 'u') m).bind fun m => (parseJsonHex4 m).bind fun (next, m) =>
    if next < 0xdc00 ∨ 0xdfff < next then .error (.ret (-2))
    else .ok (utf8 ((((code &&& 0x3ff) <<< 10) ||| (next &&& 0x3ff)) + 0x10000), m)

theorem parseJsonUnicode_hex (m : List UInt8) : parseJsonUnicode m = (parseJsonHex4 m).bind fun (n, m) =>
    if 0xdc00 ≤ n ∧ n ≤ 0xdfff then .error (.ret (-2))
    else if 0xd800 ≤ n ∧ n ≤ 0xdbff then secondHalf n m
    else .ok (utf8 n, m) := rfl

theorem Scanned.secondHalf (h : Scanned k m) (code : ℕ) : ReadsWithin (secondHalf code) k m List.length := by
  -- the second half is an escape of its own for the first pass
  cases h with
  | nil => exact .inl ⟨-2, fun _ => rfl⟩
  | raw hc hm =>
    refine .inl ⟨-2, fun rest => ?_⟩
    rw [List.cons_append, Json.secondHalf, expect, if_neg hc.2.2]
    rfl
  | @escape e k m he hm =>
    have hletter (rest : List UInt8) : Json.secondHalf code (ch '\\' :: e :: m ++ ch '"' :: rest) =
        (expect (ch 'u') (e :: (m ++ ch '"' :: rest))).bind fun m => (parseJsonHex4 m).bind fun (next, m) =>
          if next < 0xdc00 ∨ 0xdfff < next then .error (.ret (-2))
          else .ok (utf8 ((((code &&& 0x3ff) <<< 10) ||| (next &&& 0x3ff)) + 0x10000), m) := rfl
    by_cases hu : e = ch 'u'
    · subst hu
      obtain ⟨c, hfail⟩ | ⟨next, k', m', hm', hk, hlen, hok⟩ := hm.hexLoop 4 0
      · exact .inl ⟨c, fun rest => by rw [hletter, expect_cons, Except.bind, parseJsonHex4, hfail]; rfl⟩
      · dsimp only at hk
        have hnext (rest : List UInt8) := hletter rest
        simp only [expect_cons, Except.bind, parseJsonHex4, hok] at hnext
        by_cases hrange : next < 0xdc00 ∨ 0xdfff < next
        · exact .inl ⟨-2, fun rest => (hnext rest).trans (if_pos hrange)⟩
        · have hbytes := length_utf8_le ((((code &&& 0x3ff) <<< 10) ||| (next &&& 0x3ff)) + 0x10000)
          exact .inr ⟨_, k', m', hm', by omega, by simp only [List.length_cons]; omega, fun rest => (hnext rest).trans (if_neg hrange)⟩
    · refine .inl ⟨-2, fun rest => (hletter rest).trans ?_⟩
      rw [expect, if_neg hu]
      rfl

theorem Scanned.unicode (h : Scanned k m) : ReadsWithin parseJsonUnicode (k + 1) m List.length := by
  obtain ⟨c, hfail⟩ | ⟨n, k', m', hm', hk, hlen, hok⟩ := h.hexLoop 4 0
  · exact .inl ⟨c, fun rest => by rw [parseJsonUnicode_hex, parseJsonHex4, hfail]; rfl⟩
  · dsimp only at hk
    have hparse (rest : List UInt8) := parseJsonUnicode_hex (m ++ ch '"' :: rest)
    simp only [parseJsonHex4, hok, Except.bind] at hparse
    by_cases hlow : 0xdc00 ≤ n ∧ n ≤ 0xdfff
    · exact .inl ⟨-2, fun rest => (hparse rest).trans (if_pos hlow)⟩
    · by_cases hhigh : 0xd800 ≤ n ∧ n ≤ 0xdbff
      · have hpair (rest : List UInt8) := (hparse rest).trans ((if_neg hlow).trans (if_pos hhigh))
        obtain ⟨c, hfail⟩ | ⟨bytes, k₂, m₂, hm₂, hk₂, hlen₂, hok₂⟩ := hm'.secondHalf n
        · exact .inl ⟨c, fun rest => (hpair rest).trans (hfail rest)⟩
        · exact .inr ⟨bytes, k₂, m₂, hm₂, by omega, Nat.le_trans hlen₂ hlen, fun rest => (hpair rest).trans (hok₂ rest)⟩
      · have hbytes := length_utf8_le n
        exact .inr ⟨utf8 n, k', m', hm', by omega, hlen, fun rest => (hparse rest).trans ((if_neg hlow).trans (if_neg hhigh))⟩

theorem Scanned.escaped (h : Scanned k m) (e : UInt8) : ReadsWithin parseEscape (k + 1) (e :: m) List.length := by
  -- an escape stores no more than the first pass counts for it
  obtain hnone | ⟨e, rfl, -⟩ := escaped_cases e
  · by_cases hu : e = ch 'u'
    · subst hu
      obtain ⟨c, hfail⟩ | ⟨bytes, k', m', hm', hk, hlen, hok⟩ := h.unicode
      · exact .inl ⟨c, fun rest => (parseEscape_u _).trans (hfail rest)⟩
      · exact .inr ⟨bytes, k', m', hm', hk, by rw [List.length_cons]; omega, fun rest => (parseEscape_u _).trans (hok rest)⟩
    · refine .inl ⟨-2, fun rest => ?_⟩
      rw [List.cons_append, parseEscape, hnone]
      exact if_neg hu
  · exact .inr ⟨[e.code], k, m, h, Nat.le_refl _, by rw [List.length_cons]; omega, fun rest => parseEscape_letter e _⟩

/-! ## What the loop stores -/

theorem Scanned.stringLoop (h : Scanned k m) (hk : str.length + k ≤ n) :
    (∃ s, s.length ≤ n ∧ ∀ fuel rest, m.length < fuel → stringLoop (n + 1) fuel (m ++ ch '"' :: rest) str = .ok (s, rest)) ∨
      ∃ code, ∀ fuel size rest, m.length < fuel → n ≤ size → stringLoop size fuel (m ++ ch '"' :: rest) str = .error (.ret code) := by
  -- the loop ends within the scanned part, with a string of at most `n` bytes or before it has stored more
  induction hlen : m.length using Nat.strongRecOn generalizing k m str with
  | ind l ih =>
    subst hlen
    cases h with
    | nil =>
      refine .inl ⟨str, by omega, fun fuel rest hfuel => ?_⟩
      obtain ⟨fuel, rfl⟩ := Nat.exists_eq_succ_of_ne_zero (Nat.ne_of_gt hfuel)
      exact stringLoop_quote (by omega)
    | @raw c k m hc hm =>
      have hstr : (str ++ [c]).length + k ≤ n := by rw [List.length_append, List.length_singleton]; omega
      have hstep {size fuel : ℕ} (rest : List UInt8) (hsize : n ≤ size) :
          Json.stringLoop size (fuel + 1) (c :: m ++ ch '"' :: rest) str = Json.stringLoop size fuel (m ++ ch '"' :: rest) (str ++ [c]) :=
        stringLoop_raw hc (by omega) _
      obtain ⟨s, hs, hok⟩ | ⟨code, hfail⟩ := ih m.length (Nat.lt_succ_self _) hm hstr rfl
      · refine .inl ⟨s, hs, fun fuel rest hfuel => ?_⟩
        obtain ⟨fuel, rfl⟩ := Nat.exists_eq_succ_of_ne_zero (Nat.ne_of_gt (Nat.zero_lt_of_lt hfuel))
        exact (hstep rest (Nat.le_succ n)).trans (hok fuel rest (Nat.lt_of_succ_lt_succ hfuel))
      · refine .inr ⟨code, fun fuel size rest hfuel hsize => ?_⟩
        obtain ⟨fuel, rfl⟩ := Nat.exists_eq_succ_of_ne_zero (Nat.ne_of_gt (Nat.zero_lt_of_lt hfuel))
        exact (hstep rest hsize).trans (hfail fuel size rest (Nat.lt_of_succ_lt_succ hfuel) hsize)
    | @escape e k m he hm =>
      obtain ⟨code, hfail⟩ | ⟨bytes, k', m', hm', hk', hlen, hok⟩ := hm.escaped e
      · refine .inr ⟨code, fun fuel size rest hfuel _ => ?_⟩
        obtain ⟨fuel, rfl⟩ := Nat.exists_eq_succ_of_ne_zero (Nat.ne_of_gt (Nat.zero_lt_of_lt hfuel))
        exact stringLoop_error (hfail rest)
      · have hstr : (str ++ bytes).length + k' ≤ n := by rw [List.length_append]; omega
        have hshort : m'.length < (ch '\\' :: e :: m).length := by rw [List.length_cons]; omega
        have hstep {size fuel : ℕ} (rest : List UInt8) (hsize : n ≤ size) :
            Json.stringLoop size (fuel + 1) (ch '\\' :: e :: m ++ ch '"' :: rest) str =
              Json.stringLoop size fuel (m' ++ ch '"' :: rest) (str ++ bytes) :=
          stringLoop_escape (hok rest) (by omega)
        obtain ⟨s, hs, hok'⟩ | ⟨code, hfail⟩ := ih m'.length hshort hm' hstr rfl
        · refine .inl ⟨s, hs, fun fuel rest hfuel => ?_⟩
          obtain ⟨fuel, rfl⟩ := Nat.exists_eq_succ_of_ne_zero (Nat.ne_of_gt (Nat.zero_lt_of_lt hfuel))
          exact (hstep rest (Nat.le_succ n)).trans (hok' fuel rest (by omega))
        · refine .inr ⟨code, fun fuel size rest hfuel hsize => ?_⟩
          obtain ⟨fuel, rfl⟩ := Nat.exists_eq_succ_of_ne_zero (Nat.ne_of_gt (Nat.zero_lt_of_lt hfuel))
          exact (hstep rest hsize).trans (hfail fuel size rest (by omega) hsize)

/-- For a string that the first pass sizes with `n`, up to the quote it stops at: the decoder reads nothing behind that quote, and either ends
just after it with at most `n` bytes and their `NUL` in a buffer of `n + 1`, or fails in one of `n`. -/
theorem parseJsonString_fits (m : List UInt8) (n : ℕ) (h : jsonStringLength 0 m = .ok n) :
    ∃ read rest, m = read ++ ch '"' :: rest ∧ jsonStringLength 0 (read ++ [ch '"']) = .ok n ∧ jsonStringLength 0 read = .error .undefined ∧
      ((∃ s, s.length ≤ n ∧ parseJsonString (n + 1) m = .ok (s, rest) ∧ parseJsonString (n + 1) (read ++ [ch '"']) = .ok (s, [])) ∨
        ∃ code, parseJsonString n m = .error (.ret code) ∧ parseJsonString (n + 1) m = .error (.ret code) ∧
          parseJsonString n (read ++ [ch '"']) = .error (.ret code)) := by
  obtain ⟨hbound, k, read, rest, hread, rfl, rfl⟩ := scanned_of_length h (by decide)
  obtain ⟨hquote, hnone⟩ := hread.length hbound []
  refine ⟨read, rest, rfl, hquote, hnone, ?_⟩
  have hfuel (rest : List UInt8) : read.length < (read ++ ch '"' :: rest).length + 1 := by
    rw [List.length_append]
    omega
  obtain ⟨s, hs, hok⟩ | ⟨code, hfail⟩ := @Scanned.stringLoop (0 + k) k read [] hread (Nat.le_refl _)
  · exact .inl ⟨s, hs, hok _ rest (hfuel rest), hok _ [] (hfuel [])⟩
  · exact .inr ⟨code, hfail _ _ rest (hfuel rest) (Nat.le_refl _), hfail _ _ rest (hfuel rest) (Nat.le_succ _),
      hfail _ _ [] (hfuel []) (Nat.le_refl _)⟩

theorem parseJsonString_fits_newline :
    ∃ read rest, [ch 'a', ch '\\', ch 'n', ch '"', ch ','] = read ++ ch '"' :: rest ∧ jsonStringLength 0 (read ++ [ch '"']) = .ok 2 ∧
      jsonStringLength 0 read = .error .undefined ∧
      ((∃ s, s.length ≤ 2 ∧ parseJsonString (2 + 1) [ch 'a', ch '\\', ch 'n', ch '"', ch ','] = .ok (s, rest) ∧
          parseJsonString (2 + 1) (read ++ [ch '"']) = .ok (s, [])) ∨
        ∃ code, parseJsonString 2 [ch 'a', ch '\\', ch 'n', ch '"', ch ','] = .error (.ret code) ∧
          parseJsonString (2 + 1) [ch 'a', ch '\\', ch 'n', ch '"', ch ','] = .error (.ret code) ∧
          parseJsonString 2 (read ++ [ch '"']) = .error (.ret code)) :=
  parseJsonString_fits _ _ rfl

end Yjc.Json
