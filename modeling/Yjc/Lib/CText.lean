import Mathlib.Data.Int.Order.Basic
import Mathlib.Tactic.Ring
import Yjc.Lib.Strtod

/-! Integers as text, by the C library. -/

namespace Yjc.CLib

def digitsValue (ds : List UInt8) : ℕ := ds.foldl (fun n c => 10 * n + (c.toNat - 48)) 0

/-- `strtol(m, NULL, 10)`, which answers with the nearest `long` for a number that is none. -/
def strtol (m : List UInt8) : ℤ :=
  let (sign, rest) := Strtod.sign (m.dropWhile isspace)
  let n : ℤ := digitsValue (rest.takeWhile isdigit)
  max (-2 ^ 63) (min (2 ^ 63 - 1) (if sign = [ch '-'] then -n else n))

/-- What the end pointer of `strtol` points to: all of the text where there are no digits. -/
def strtolEnd (m : List UInt8) : List UInt8 :=
  let (_, rest) := Strtod.sign (m.dropWhile isspace)
  if rest.takeWhile isdigit = [] then m else rest.dropWhile isdigit

/-- `none` for a number that is no `int`, which the standard leaves undefined. -/
def atoi (m : List UInt8) : Option ℤ := if -2 ^ 31 ≤ strtol m ∧ strtol m < 2 ^ 31 then some (strtol m) else none

/-- `%d` of a number that is not negative. -/
def decimal (n : ℕ) : List UInt8 := (Nat.toDigits 10 n).map ch

def hexValue (c : UInt8) : ℕ := if isdigit c then c.toNat - 48 else (tolower c).toNat - 87

def hexDigit (n : ℕ) : UInt8 := UInt8.ofNat (if n < 10 then 48 + n else 87 + n)

/-- `%02x` of a byte. -/
def hex2 (b : UInt8) : List UInt8 := [hexDigit (b.toNat / 16), hexDigit (b.toNat % 16)]

/-- `%2x` of `scanf`: white space, then at most two characters of a hexadecimal number, which may have a sign or start with `0x`. The value
is that of an `unsigned int`. -/
def scanHex2 (m : List UInt8) : Option (ℕ × List UInt8) :=
  match m.dropWhile isspace with
  | [] => none
  | [c] => if isxdigit c then some (hexValue c, []) else none
  | c :: d :: rest =>
    if isxdigit c then
      if isxdigit d then some (16 * hexValue c + hexValue d, rest)
      else if c = ch '0' ∧ tolower d = ch 'x' then none
      else some (hexValue c, d :: rest)
    else if c = ch '+' ∧ isxdigit d then some (hexValue d, rest)
    else if c = ch '-' ∧ isxdigit d then some ((2 ^ 32 - hexValue d) % 2 ^ 32, rest)
    else none

/-- `n + 1` numbers of `%2x` with colons between them. -/
def scanHexes : ℕ → List UInt8 → Option (List ℕ)
  | 0, m => do
    let (a, _) ← scanHex2 m
    return [a]
  | n + 1, m => do
    let (a, rest) ← scanHex2 m
    match rest with
    | [] => none
    | c :: rest => if c = ch ':' then return a :: (← scanHexes n rest) else none

/-- `%02x` of each byte with colons between them. -/
def hexes : List UInt8 → List UInt8
  | [] => []
  | [b] => hex2 b
  | b :: c :: bs => hex2 b ++ ch ':' :: hexes (c :: bs)

variable {m rest ds : List UInt8} {n : ℕ}

theorem ch_digit {c : Char} (h : c.isDigit) : (ch c).toNat = c.toNat ∧ isdigit (ch c) := by
  have hrange : 48 ≤ c.toNat ∧ c.toNat ≤ 57 := by simpa [Char.isDigit, UInt32.le_iff_toNat_le] using h
  have hnat : (ch c).toNat = c.toNat := by
    rw [ch, UInt8.toNat_ofNat', Nat.mod_eq_of_lt (by omega)]
  refine ⟨hnat, ?_⟩
  have hdigit : ch '0' ≤ ch c ∧ ch c ≤ ch '9' := by
    rw [UInt8.le_iff_toNat_le, UInt8.le_iff_toNat_le, hnat]
    exact hrange
  exact decide_eq_true hdigit

theorem isdigit_decimal {c : UInt8} (h : c ∈ decimal n) : isdigit c := by
  obtain ⟨d, hd, rfl⟩ := List.mem_map.mp h
  exact (ch_digit (Nat.isDigit_of_mem_toDigits (by decide) (by decide) hd)).2

theorem decimal_ne_nil (n : ℕ) : decimal n ≠ [] := by
  rw [decimal, ne_eq, List.map_eq_nil_iff]
  exact Nat.toDigits_ne_nil

theorem digitsValue_decimal (n : ℕ) : digitsValue (decimal n) = n := by
  have hfold : ∀ (l : List Char) (k : ℕ), (∀ c ∈ l, c.isDigit) →
      (l.map ch).foldl (fun n c => 10 * n + (c.toNat - 48)) k = Nat.ofDigitChars 10 l k := by
    intro l
    induction l with
    | nil => exact fun k _ => Nat.ofDigitChars_nil.symm
    | cons c l ih =>
      intro k hl
      rw [List.map_cons, List.foldl_cons, ih _ fun d hd => hl d (List.mem_cons_of_mem c hd), Nat.ofDigitChars_cons,
        (ch_digit (hl c List.mem_cons_self)).1]
      rfl
  rw [digitsValue, decimal, hfold _ _ fun c => Nat.isDigit_of_mem_toDigits (by decide) (by decide), Nat.ofDigitChars_ten_toDigits]

theorem foldl_digits (ds : List UInt8) (k : ℕ) :
    ds.foldl (fun n c => 10 * n + (c.toNat - 48)) k = k * 10 ^ ds.length + digitsValue ds := by
  induction ds generalizing k with
  | nil => rw [List.foldl_nil, List.length_nil, Nat.pow_zero, Nat.mul_one, digitsValue, List.foldl_nil, Nat.add_zero]
  | cons c ds ih =>
    rw [digitsValue, List.foldl_cons, List.foldl_cons, ih, ih, List.length_cons, Nat.pow_succ]
    ring

theorem digitsValue_cons (c : UInt8) (ds : List UInt8) :
    digitsValue (c :: ds) = (c.toNat - 48) * 10 ^ ds.length + digitsValue ds := by
  rw [digitsValue, List.foldl_cons, foldl_digits, Nat.mul_zero, Nat.zero_add]

theorem digitsValue_append (ds es : List UInt8) : digitsValue (ds ++ es) = digitsValue ds * 10 ^ es.length + digitsValue es := by
  rw [digitsValue, List.foldl_append, foldl_digits]
  rfl

theorem digit_range {c : UInt8} (h : isdigit c) : 48 ≤ c.toNat ∧ c.toNat ≤ 57 := by
  have hrange : ch '0' ≤ c ∧ c ≤ ch '9' := of_decide_eq_true h
  exact ⟨UInt8.le_iff_toNat_le.mp hrange.1, UInt8.le_iff_toNat_le.mp hrange.2⟩

theorem digitsValue_lt (h : ∀ c ∈ ds, isdigit c) : digitsValue ds < 10 ^ ds.length := by
  induction ds with
  | nil => exact Nat.one_pos
  | cons c ds ih =>
    have hc := digit_range (h c List.mem_cons_self)
    have hds := ih fun d hd => h d (List.mem_cons_of_mem c hd)
    have hlead : (c.toNat - 48) * 10 ^ ds.length ≤ 9 * 10 ^ ds.length := Nat.mul_le_mul_right _ (by omega)
    rw [digitsValue_cons, List.length_cons, Nat.pow_succ]
    omega

theorem sign_digits (hds : ∀ c ∈ ds, isdigit c) (hne : ds ≠ []) (rest : List UInt8) :
    Strtod.sign ((ds ++ rest).dropWhile isspace) = ([], ds ++ rest) := by
  cases ds with
  | nil => exact absurd rfl hne
  | cons c ds =>
    have hc : isdigit c := hds c List.mem_cons_self
    obtain ⟨hspace, hsign⟩ := isdigit_other hc
    have hdrop : (c :: ds ++ rest).dropWhile isspace = c :: ds ++ rest := List.dropWhile_cons_of_neg hspace
    rw [hdrop]
    exact if_neg hsign

theorem strtol_digits (hds : ∀ c ∈ ds, isdigit c) (hne : ds ≠ []) (hrest : NotFrom isdigit rest) (h : digitsValue ds < 2 ^ 63) :
    strtol (ds ++ rest) = digitsValue ds := by
  rw [strtol, sign_digits hds hne]
  change max (-2 ^ 63) (min (2 ^ 63 - 1) (if ([] : List UInt8) = [ch '-'] then _ else _)) = _
  rw [if_neg (by decide), (span_append hds hrest).1]
  omega

theorem strtolEnd_digits (hds : ∀ c ∈ ds, isdigit c) (hne : ds ≠ []) (hrest : NotFrom isdigit rest) : strtolEnd (ds ++ rest) = rest := by
  rw [strtolEnd, sign_digits hds hne]
  change (if (ds ++ rest).takeWhile isdigit = [] then _ else (ds ++ rest).dropWhile isdigit) = _
  rw [(span_append hds hrest).1, (span_append hds hrest).2, if_neg hne]

theorem scanHex2_digits {a b : UInt8} (ha : isxdigit a) (hb : isxdigit b) (rest : List UInt8) :
    scanHex2 (a :: b :: rest) = some (16 * hexValue a + hexValue b, rest) := by
  have hspace : ¬isspace a := by
    simp [isxdigit, isdigit, isspace, ch, UInt8.le_iff_toNat_le, ← UInt8.toNat_inj] at ha ⊢
    omega
  rw [scanHex2, List.dropWhile_cons_of_neg hspace]
  change (if isxdigit a = true then _ else _) = _
  rw [if_pos ha, if_pos hb]

theorem hexValue_hexDigit {n : ℕ} (hn : n < 16) : hexValue (hexDigit n) = n := by
  have hall : ∀ n < 16, hexValue (hexDigit n) = n := by decide
  exact hall n hn

theorem value_hex2 (b : UInt8) : 16 * hexValue (hexDigit (b.toNat / 16)) + hexValue (hexDigit (b.toNat % 16)) = b.toNat := by
  rw [hexValue_hexDigit (Nat.div_lt_of_lt_mul b.toNat_lt), hexValue_hexDigit (Nat.mod_lt _ (by decide))]
  exact Nat.div_add_mod _ _

theorem length_flatMap_hex2 (bs : List UInt8) : (bs.flatMap hex2).length = 2 * bs.length := by
  induction bs with
  | nil => rfl
  | cons b bs ih =>
    rw [List.flatMap_cons, List.length_append, ih, hex2, List.length_cons, List.length_singleton, List.length_cons]
    omega

theorem isxdigit_hexDigit {n : ℕ} (hn : n < 16) : isxdigit (hexDigit n) := by
  have hall : ∀ n < 16, isxdigit (hexDigit n) := by decide
  exact hall n hn

theorem isxdigit_hex2 (b : UInt8) : ∀ c ∈ hex2 b, isxdigit c := by
  rw [hex2, List.forall_mem_cons, List.forall_mem_singleton]
  exact ⟨isxdigit_hexDigit (Nat.div_lt_of_lt_mul b.toNat_lt), isxdigit_hexDigit (Nat.mod_lt _ (by decide))⟩

theorem scanHex2_hex2 (b : UInt8) (rest : List UInt8) : scanHex2 (hex2 b ++ rest) = some (b.toNat, rest) := by
  have hdigits := isxdigit_hex2 b
  rw [hex2, List.forall_mem_cons, List.forall_mem_singleton] at hdigits
  rw [hex2, List.cons_append, List.cons_append, List.nil_append, scanHex2_digits hdigits.1 hdigits.2, value_hex2]

theorem scanHexes_hexes (b : UInt8) (bs rest : List UInt8) : scanHexes bs.length (hexes (b :: bs) ++ rest) = some ((b :: bs).map UInt8.toNat) := by
  induction bs generalizing b with
  | nil =>
    rw [hexes, List.length_nil, scanHexes, scanHex2_hex2]
    rfl
  | cons a bs ih =>
    rw [hexes, List.length_cons, scanHexes, List.append_assoc, scanHex2_hex2]
    change (scanHexes bs.length (hexes (a :: bs) ++ rest) >>= _) = _
    rw [ih]
    rfl

theorem length_hexes (b : UInt8) (bs : List UInt8) : (hexes (b :: bs)).length = 3 * bs.length + 2 := by
  induction bs generalizing b with
  | nil => rfl
  | cons a bs ih =>
    rw [hexes, List.length_append, List.length_cons, ih, hex2, List.length_cons, List.length_singleton, List.length_cons]
    omega

theorem mem_hexes {bs : List UInt8} {c : UInt8} (hc : c ∈ hexes bs) : isxdigit c ∨ c = ch ':' := by
  induction bs with
  | nil => cases hc
  | cons b bs ih =>
    cases bs with
    | nil => exact .inl (isxdigit_hex2 b c hc)
    | cons a bs =>
      rw [hexes, List.mem_append, List.mem_cons] at hc
      rcases hc with hc | rfl | hc
      · exact .inl (isxdigit_hex2 b c hc)
      · exact .inr rfl
      · exact ih hc

theorem atoi_digits (hds : ∀ c ∈ ds, isdigit c) (hne : ds ≠ []) (h : digitsValue ds < 2 ^ 31) : atoi ds = some (digitsValue ds : ℤ) := by
  have hvalue := strtol_digits hds hne (show NotFrom isdigit [] from nofun) (by omega)
  rw [List.append_nil] at hvalue
  rw [atoi, hvalue, if_pos (by omega)]

theorem atoi_decimal (h : n < 2 ^ 31) : atoi (decimal n) = some (n : ℤ) := by
  have hvalue := atoi_digits (fun c hc => isdigit_decimal hc) (decimal_ne_nil n) (by rwa [digitsValue_decimal])
  rwa [digitsValue_decimal] at hvalue

end Yjc.CLib
