import Mathlib.Data.List.Basic
import Mathlib.Tactic.Common
import Mathlib.Tactic.SplitIfs

/-! Character classes and `strtod` of the C library, in the C locale. -/

namespace Yjc.CLib

def ch (c : Char) : UInt8 := UInt8.ofNat c.toNat

def isspace (c : UInt8) : Bool := c = 0x20 ∨ 0x09 ≤ c ∧ c ≤ 0x0d

def isdigit (c : UInt8) : Bool := ch '0' ≤ c ∧ c ≤ ch '9'

def isxdigit (c : UInt8) : Bool := isdigit c ∨ ch 'a' ≤ c ∧ c ≤ ch 'f' ∨ ch 'A' ≤ c ∧ c ≤ ch 'F'

def isalpha (c : UInt8) : Bool := ch 'a' ≤ c ∧ c ≤ ch 'z' ∨ ch 'A' ≤ c ∧ c ≤ ch 'Z'

def tolower (c : UInt8) : UInt8 := if ch 'A' ≤ c ∧ c ≤ ch 'Z' then c + 0x20 else c

theorem forall_byte {p : UInt8 → Prop} (h : ∀ n < 256, p (UInt8.ofNat n)) (c : UInt8) : p c := by
  have hc := h c.toNat c.toNat_lt
  rwa [UInt8.ofNat_toNat] at hc

theorem isdigit_other {c : UInt8} (h : isdigit c) : ¬isspace c ∧ ¬(c = ch '+' ∨ c = ch '-') := by
  simp [isdigit, isspace, ch, UInt8.le_iff_toNat_le, ← UInt8.toNat_inj] at h ⊢
  omega

theorem tolower_cases {c d : UInt8} (h : tolower c = d) : c = d ∨ c = d - 0x20 := by
  unfold tolower at h
  split_ifs at h
  · exact .inr (by rw [← h, UInt8.add_sub_cancel])
  · exact .inl h

namespace Strtod

def sign : List UInt8 → List UInt8 × List UInt8
  | [] => ([], [])
  | c :: m => if c = ch '+' ∨ c = ch '-' then ([c], m) else ([], c :: m)

def radix (digit : UInt8 → Bool) : List UInt8 → List UInt8 × List UInt8
  | [] => ([], [])
  | c :: m => if c = ch '.' then (c :: m.takeWhile digit, m.dropWhile digit) else ([], c :: m)

def exponent (letter : UInt8) : List UInt8 → List UInt8 × List UInt8
  | [] => ([], [])
  | c :: m =>
    if tolower c = letter ∧ (sign m).2.takeWhile isdigit ≠ [] then
      (c :: ((sign m).1 ++ (sign m).2.takeWhile isdigit), (sign m).2.dropWhile isdigit)
    else ([], c :: m)

def sequence (digit : UInt8 → Bool) (letter : UInt8) (m : List UInt8) : Option (List UInt8 × List UInt8) :=
  let (int, m₁) := (m.takeWhile digit, m.dropWhile digit)
  let (frac, m₂) := radix digit m₁
  let (exp, m₃) := exponent letter m₂
  if int = [] ∧ frac.length ≤ 1 then none else some (int ++ (frac ++ exp), m₃)

def word (w m : List UInt8) : Option (List UInt8 × List UInt8) :=
  if (m.take w.length).map tolower = w then some (m.take w.length, m.drop w.length) else none

def inf : List UInt8 := [ch 'i', ch 'n', ch 'f']

def infinity : List UInt8 := [ch 'i', ch 'n', ch 'f', ch 'i', ch 'n', ch 'i', ch 't', ch 'y']

def nan : List UInt8 := [ch 'n', ch 'a', ch 'n']

def nchar (c : UInt8) : Bool := isdigit c ∨ isalpha c ∨ c = ch '_'

/-- What may stand in parentheses after `nan`. -/
def ncharSequence : List UInt8 → List UInt8 × List UInt8
  | [] => ([], [])
  | c :: m =>
    match m.dropWhile nchar with
    | [] => ([], c :: m)
    | e :: rest => if c = ch '(' ∧ e = ch ')' then (c :: (m.takeWhile nchar ++ [e]), rest) else ([], c :: m)

def named (m : List UInt8) : Option (List UInt8 × List UInt8) :=
  (word infinity m).or <| (word inf m).or <| (word nan m).map fun (w, rest) => (w ++ (ncharSequence rest).1, (ncharSequence rest).2)

def hexadecimal : List UInt8 → Option (List UInt8 × List UInt8)
  | z :: x :: m =>
    if z = ch '0' ∧ tolower x = ch 'x' then (sequence isxdigit (ch 'p') m).map fun (t, rest) => (z :: x :: t, rest) else none
  | _ => none

/-- The longest sequence of the expected form, without its sign. -/
def subject (m : List UInt8) : Option (List UInt8 × List UInt8) :=
  (hexadecimal m).or <| (sequence isdigit (ch 'e') m).or (named m)

end Strtod

/-- The number and what follows it, or `none` when there is nothing to convert. -/
def strtod {D : Type} (toDouble : List UInt8 → D) (m : List UInt8) : Option (D × List UInt8) :=
  let (sign, m₁) := Strtod.sign (m.dropWhile isspace)
  (Strtod.subject m₁).map fun (t, rest) => (toDouble (sign ++ t), rest)

/-! ## What the parts read -/

/-- A list that does not begin with a byte of a class. -/
def NotFrom (p : UInt8 → Bool) (m : List UInt8) : Prop := ∀ c ∈ m.head?, ¬p c

variable {p digit : UInt8 → Bool} {letter c : UInt8} {m int frac exp sg ds rest : List UInt8}

theorem notFrom_cons : NotFrom p (c :: m) ↔ ¬p c := by
  simp [NotFrom]

theorem span_append (h : ∀ c ∈ ds, p c) (hrest : NotFrom p rest) : (ds ++ rest).takeWhile p = ds ∧ (ds ++ rest).dropWhile p = rest := by
  rw [List.takeWhile_append_of_pos h, List.dropWhile_append_of_pos h]
  cases rest with
  | nil => exact ⟨List.append_nil _, rfl⟩
  | cons c rest =>
    have hc := notFrom_cons.mp hrest
    rw [List.takeWhile_cons_of_neg hc, List.dropWhile_cons_of_neg hc, List.append_nil]
    exact ⟨rfl, rfl⟩

theorem exists_span (p : UInt8 → Bool) (m : List UInt8) : ∃ ds rest, m = ds ++ rest ∧ (∀ c ∈ ds, p c) ∧ NotFrom p rest ∧
    m.takeWhile p = ds ∧ m.dropWhile p = rest := by
  refine ⟨m.takeWhile p, m.dropWhile p, List.takeWhile_append_dropWhile.symm, fun c hc => List.all_eq_true.mp List.all_takeWhile c hc, fun c hc => ?_, rfl, rfl⟩
  have hnot := List.head?_dropWhile_not p m
  rw [Option.mem_def] at hc
  rw [hc] at hnot
  simpa using hnot

namespace Strtod

theorem sign_cases (m : List UInt8) : (sign m = ([], m) ∧ NotFrom (fun c => c = ch '+' ∨ c = ch '-') m) ∨
    ∃ c rest, m = c :: rest ∧ (c = ch '+' ∨ c = ch '-') ∧ sign m = ([c], rest) := by
  cases m with
  | nil => exact .inl ⟨rfl, nofun⟩
  | cons c m =>
    by_cases h : c = ch '+' ∨ c = ch '-'
    · exact .inr ⟨c, m, rfl, h, if_pos h⟩
    · exact .inl ⟨if_neg h, notFrom_cons.mpr (by simpa using h)⟩

theorem sign_none (h : NotFrom (fun c => c = ch '+' ∨ c = ch '-') m) : sign m = ([], m) := by
  obtain ⟨hsign, -⟩ | ⟨c, rest, rfl, hc, -⟩ := sign_cases m
  · exact hsign
  · exact absurd (decide_eq_true hc) (notFrom_cons.mp h)

theorem radix_append (h : ∀ c ∈ ds, digit c) (hrest : NotFrom digit rest) :
    radix digit (ch '.' :: (ds ++ rest)) = (ch '.' :: ds, rest) := by
  rw [radix, if_pos rfl, (span_append h hrest).1, (span_append h hrest).2]

theorem radix_none (h : NotFrom (· = ch '.') rest) : radix digit rest = ([], rest) := by
  cases rest with
  | nil => rfl
  | cons c rest => exact if_neg (by simpa using notFrom_cons.mp h)

theorem radix_cases (digit : UInt8 → Bool) (m : List UInt8) : radix digit m = ([], m) ∨
    ∃ ds rest, m = ch '.' :: (ds ++ rest) ∧ (∀ c ∈ ds, digit c) ∧ radix digit m = (ch '.' :: ds, rest) := by
  cases m with
  | nil => exact .inl rfl
  | cons c m =>
    by_cases hc : c = ch '.'
    · obtain ⟨ds, rest, rfl, hds, hrest, -, -⟩ := exists_span digit m
      exact .inr ⟨ds, rest, by rw [hc], hds, hc ▸ radix_append hds hrest⟩
    · exact .inl (if_neg hc)

theorem sign_append (hsg : sg = [] ∨ sg = [ch '+'] ∨ sg = [ch '-']) (hds : ds ≠ []) (h : ∀ c ∈ ds, isdigit c) (rest : List UInt8) :
    sign (sg ++ (ds ++ rest)) = (sg, ds ++ rest) := by
  obtain rfl | rfl | rfl := hsg
  · refine sign_none ?_
    cases ds with
    | nil => exact absurd rfl hds
    | cons d ds =>
      exact notFrom_cons.mpr fun hsign => (isdigit_other (h d List.mem_cons_self)).2 (of_decide_eq_true hsign)
  · rfl
  · rfl

theorem exponent_append (hletter : tolower c = letter) (hsg : sg = [] ∨ sg = [ch '+'] ∨ sg = [ch '-']) (hds : ds ≠ [])
    (h : ∀ c ∈ ds, isdigit c) (hrest : NotFrom isdigit rest) : exponent letter (c :: (sg ++ (ds ++ rest))) = (c :: (sg ++ ds), rest) := by
  rw [exponent, sign_append hsg hds h]
  dsimp only
  rw [(span_append h hrest).1, (span_append h hrest).2, if_pos ⟨hletter, hds⟩]

theorem exponent_none (h : NotFrom (tolower · = letter) rest) : exponent letter rest = ([], rest) := by
  cases rest with
  | nil => rfl
  | cons c rest =>
    have hc : tolower c ≠ letter := by simpa using notFrom_cons.mp h
    exact if_neg fun hboth => hc hboth.1

theorem exponent_cases (letter : UInt8) (m : List UInt8) : exponent letter m = ([], m) ∨
    ∃ c sg ds rest, m = c :: (sg ++ (ds ++ rest)) ∧ tolower c = letter ∧ (sg = [] ∨ sg = [ch '+'] ∨ sg = [ch '-']) ∧ ds ≠ [] ∧
      (∀ c ∈ ds, isdigit c) ∧ exponent letter m = (c :: (sg ++ ds), rest) := by
  cases m with
  | nil => exact .inl rfl
  | cons c m =>
    by_cases h : tolower c = letter ∧ (sign m).2.takeWhile isdigit ≠ []
    · obtain ⟨ds, rest, hm, hall, hrest, htake, hdrop⟩ := exists_span isdigit (sign m).2
      have hsign : m = (sign m).1 ++ (sign m).2 ∧ ((sign m).1 = [] ∨ (sign m).1 = [ch '+'] ∨ (sign m).1 = [ch '-']) := by
        obtain ⟨hsign, -⟩ | ⟨d, r, rfl, hd, hsign⟩ := sign_cases m
        · rw [hsign]
          exact ⟨rfl, .inl rfl⟩
        · rw [hsign]
          exact ⟨rfl, .inr (hd.imp (congrArg fun d => [d]) (congrArg fun d => [d]))⟩
      refine .inr ⟨c, (sign m).1, ds, rest, ?_, h.1, hsign.2, htake ▸ h.2, hall, ?_⟩
      · rw [← hm, ← hsign.1]
      · rw [exponent, if_pos h, htake, hdrop]
    · exact .inl (if_neg h)

theorem sequence_eq {m₁ m₂ m₃ : List UInt8} (hint : m.takeWhile digit = int) (hm : m.dropWhile digit = m₁)
    (hfrac : radix digit m₁ = (frac, m₂)) (hexp : exponent letter m₂ = (exp, m₃)) :
    sequence digit letter m = if int = [] ∧ frac.length ≤ 1 then none else some (int ++ (frac ++ exp), m₃) := by
  subst hint hm
  unfold sequence
  dsimp only
  rw [hfrac]
  dsimp only
  rw [hexp]

theorem sequence_none (h : NotFrom digit m) (h' : NotFrom (· = ch '.') m) : sequence digit letter m = none := by
  have hspan : m.takeWhile digit = [] ∧ m.dropWhile digit = m := span_append (List.forall_mem_nil _) h
  rw [sequence_eq hspan.1 hspan.2 (radix_none h') rfl, if_pos ⟨rfl, Nat.zero_le _⟩]

variable {w w' : List UInt8}

theorem word_append (h : w'.map tolower = w) (m : List UInt8) : word w (w' ++ m) = some (w', m) := by
  have hlen : w.length = w'.length := by rw [← h, List.length_map]
  rw [word, hlen, List.take_left, List.drop_left, if_pos h]

theorem word_none {a : UInt8} (h : tolower a ≠ c) (w m : List UInt8) : word (c :: w) (a :: m) = none :=
  if_neg fun heq => h (List.cons.inj heq).1

theorem word_some (h : word w m = some (w', rest)) : m = w' ++ rest ∧ w'.map tolower = w := by
  unfold word at h
  split_ifs at h with hw
  cases h
  exact ⟨(List.take_append_drop _ m).symm, hw⟩

theorem word_longer {a x : UInt8} (hw : w'.map tolower = w) (ha : tolower a ≠ x) (v m : List UInt8) :
    word (w ++ x :: v) (w' ++ a :: m) = none := by
  have hlen : w'.length = w.length := by rw [← hw, List.length_map]
  refine if_neg fun heq => ?_
  rw [List.length_append, List.length_cons, ← hlen, List.take_length_add_append, List.take_succ_cons, List.map_append, hw] at heq
  exact ha (List.cons.inj (List.append_cancel_left heq)).1

theorem ncharSequence_none (h : NotFrom (· = ch '(') m) : ncharSequence m = ([], m) := by
  cases m with
  | nil => rfl
  | cons c m =>
    have hc : c ≠ ch '(' := by simpa using notFrom_cons.mp h
    rw [ncharSequence]
    cases m.dropWhile nchar with
    | nil => rfl
    | cons e rest => exact if_neg fun hboth => hc hboth.1

theorem ncharSequence_append {cs : List UInt8} (h : ∀ c ∈ cs, nchar c) (rest : List UInt8) :
    ncharSequence (ch '(' :: (cs ++ ch ')' :: rest)) = (ch '(' :: (cs ++ [ch ')']), rest) := by
  have hclose : NotFrom nchar (ch ')' :: rest) := notFrom_cons.mpr (by decide)
  have hspan := span_append h hclose
  rw [ncharSequence, hspan.1, hspan.2]
  exact if_pos ⟨rfl, rfl⟩

theorem ncharSequence_cases (m : List UInt8) : ncharSequence m = ([], m) ∨
    ∃ cs rest, m = ch '(' :: (cs ++ ch ')' :: rest) ∧ (∀ c ∈ cs, nchar c) ∧ ncharSequence m = (ch '(' :: (cs ++ [ch ')']), rest) := by
  cases m with
  | nil => exact .inl rfl
  | cons c m =>
    obtain ⟨cs, rest, rfl, hcs, -, htake, hdrop⟩ := exists_span nchar m
    rw [ncharSequence, htake, hdrop]
    cases rest with
    | nil => exact .inl rfl
    | cons e rest =>
      by_cases h : c = ch '(' ∧ e = ch ')'
      · obtain ⟨rfl, rfl⟩ := h
        exact .inr ⟨cs, rest, rfl, hcs, if_pos ⟨rfl, rfl⟩⟩
      · exact .inl (if_neg h)

end Strtod

end Yjc.CLib
