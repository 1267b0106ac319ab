import Yjc.Util.JsonParser

/-! JSON texts with their values: the grammar of RFC 8259, and a wider one of what the parser reads. -/

namespace Yjc.Json
open CLib

/-! ## Strings -/

/-- The escapes of one letter. -/
inductive Escape
  | quote
  | backslash
  | slash
  | b
  | f
  | n
  | r
  | t

namespace Escape

def letter : Escape → UInt8
  | quote => ch '"'
  | backslash => ch '\\'
  | slash => ch '/'
  | b => ch 'b'
  | f => ch 'f'
  | n => ch 'n'
  | r => ch 'r'
  | t => ch 't'

/-- The code point of the character it stands for. -/
def code : Escape → UInt8
  | quote => 0x22
  | backslash => 0x5c
  | slash => 0x2f
  | b => 0x08
  | f => 0x0c
  | n => 0x0a
  | r => 0x0d
  | t => 0x09

end Escape

/-- A byte of a string as it is, or an escape. -/
inductive Piece
  | raw (c : UInt8)
  | escape (e : Escape)
  | unicode (a b c d : UInt8)

namespace Piece

def render : Piece → List UInt8
  | raw c => [c]
  | escape e => [ch '\\', e.letter]
  | unicode a b c d => [ch '\\', ch 'u', a, b, c, d]

def Wide : Piece → Prop
  | raw c => 0x20 ≤ c ∧ c ≠ ch '"' ∧ c ≠ ch '\\'
  | escape _ => True
  | unicode a b c d => isxdigit a ∧ isxdigit b ∧ isxdigit c ∧ isxdigit d

end Piece

def hexValue (c : UInt8) : ℕ := if isdigit c then c.toNat - 48 else (tolower c).toNat - 87

def codeUnit (a b c d : UInt8) : ℕ := 4096 * hexValue a + 256 * hexValue b + 16 * hexValue c + hexValue d

def High (n : ℕ) : Prop := 0xd800 ≤ n ∧ n < 0xdc00

def Low (n : ℕ) : Prop := 0xdc00 ≤ n ∧ n < 0xe000

instance (n : ℕ) : Decidable (High n) := inferInstanceAs (Decidable (_ ∧ _))

instance (n : ℕ) : Decidable (Low n) := inferInstanceAs (Decidable (_ ∧ _))

/-- The bytes of a string in UTF-8; `none` for a lone surrogate. -/
def decode : List Piece → Option (List UInt8)
  | [] => some []
  | .raw c :: ps => (decode ps).map (c :: ·)
  | .escape e :: ps => (decode ps).map (e.code :: ·)
  | .unicode a b c d :: ps =>
    if Low (codeUnit a b c d) then none
    else if High (codeUnit a b c d) then
      match ps with
      | .unicode a' b' c' d' :: ps =>
        if Low (codeUnit a' b' c' d') then
          (decode ps).map (String.utf8EncodeChar
            (Char.ofNat (0x10000 + 0x400 * (codeUnit a b c d - 0xd800) + (codeUnit a' b' c' d' - 0xdc00))) ++ ·)
        else none
      | _ => none
    else (decode ps).map (String.utf8EncodeChar (Char.ofNat (codeUnit a b c d)) ++ ·)

def quoted (ps : List Piece) : List UInt8 := ps.flatMap Piece.render

def IsUtf8 (bytes : List UInt8) : Prop := ∃ cs : List Char, bytes = cs.flatMap String.utf8EncodeChar

/-! ## Numbers -/

def Digits (ds : List UInt8) : Prop := ∀ c ∈ ds, isdigit c

structure Exponent where
  letter : UInt8
  sign : List UInt8
  digits : List UInt8

namespace Exponent

def render (e : Exponent) : List UInt8 := e.letter :: (e.sign ++ e.digits)

structure Rfc (e : Exponent) : Prop where
  letter : e.letter = ch 'e' ∨ e.letter = ch 'E'
  sign : e.sign = [] ∨ e.sign = [ch '+'] ∨ e.sign = [ch '-']
  nonempty : e.digits ≠ []
  digits : Digits e.digits

end Exponent

/-- A number, or the name of one after a minus sign. -/
inductive Numeral
  | decimal (minus : Bool) (int : List UInt8) (frac : Option (List UInt8)) (exp : Option Exponent)
  | named (w : List UInt8)

/-- Digits without a leading zero. -/
def IsInt (int : List UInt8) : Prop := int = [ch '0'] ∨ ∃ c ds, int = c :: ds ∧ ch '1' ≤ c ∧ c ≤ ch '9' ∧ Digits ds

/-- An infinity or no number, as `strtod` reads it. -/
def Named (w : List UInt8) : Prop :=
  w.map tolower = Strtod.infinity ∨ w.map tolower = Strtod.inf ∨ ∃ n, n.map tolower = Strtod.nan ∧
    (w = n ∨ ∃ cs, w = n ++ ch '(' :: (cs ++ [ch ')']) ∧ ∀ c ∈ cs, Strtod.nchar c)

namespace Numeral

def render : Numeral → List UInt8
  | decimal minus int frac exp =>
    (if minus then [ch '-'] else []) ++ (int ++ (frac.elim [] (ch '.' :: ·) ++ exp.elim [] Exponent.render))
  | named w => ch '-' :: w

/-- `-?(0|[1-9][0-9]*)(.[0-9]+)?([eE][+-]?[0-9]+)?` -/
def Rfc : Numeral → Prop
  | decimal _ int frac exp => IsInt int ∧ (∀ ds ∈ frac, ds ≠ [] ∧ Digits ds) ∧ ∀ e ∈ exp, e.Rfc
  | named _ => False

/-- With no digits after the point, or after a minus sign none before it, or a name. -/
def Wide : Numeral → Prop
  | decimal minus int frac exp =>
    (IsInt int ∨ minus ∧ int = [] ∧ ∃ ds, frac = some ds ∧ ds ≠ []) ∧ (∀ ds ∈ frac, Digits ds) ∧ ∀ e ∈ exp, e.Rfc
  | named w => Named w

/-- With a digit on both sides of a point, and no name. -/
def Plain : Numeral → Prop
  | decimal _ int frac _ => int ≠ [] ∧ frac ≠ some []
  | named _ => False

end Numeral

/-! ## Texts -/

mutual

inductive Doc
  | null
  | true
  | false
  | number (n : Numeral)
  | string (ps : List Piece)
  | emptyArray (w : List UInt8)
  | array (w : List UInt8) (es : Elements)
  | emptyObject (w : List UInt8)
  | object (w : List UInt8) (ms : Members)

/-- Values with the white space after each, and that after a comma. -/
inductive Elements
  | last (v : Doc) (w : List UInt8)
  | cons (v : Doc) (w w' : List UInt8) (es : Elements)

/-- Likewise, with the names and the white space around the colons. -/
inductive Members
  | last (name : List Piece) (w₁ w₂ : List UInt8) (v : Doc) (w : List UInt8)
  | cons (name : List Piece) (w₁ w₂ : List UInt8) (v : Doc) (w w' : List UInt8) (ms : Members)

end

mutual

def Doc.render : Doc → List UInt8
  | .null => [ch 'n', ch 'u', ch 'l', ch 'l']
  | .true => [ch 't', ch 'r', ch 'u', ch 'e']
  | .false => [ch 'f', ch 'a', ch 'l', ch 's', ch 'e']
  | .number n => n.render
  | .string ps => ch '"' :: (quoted ps ++ [ch '"'])
  | .emptyArray w => ch '[' :: (w ++ [ch ']'])
  | .array w es => ch '[' :: (w ++ (es.render ++ [ch ']']))
  | .emptyObject w => ch '\x7b' :: (w ++ [ch '\x7d'])
  | .object w ms => ch '\x7b' :: (w ++ (ms.render ++ [ch '\x7d']))

def Elements.render : Elements → List UInt8
  | .last v w => v.render ++ w
  | .cons v w w' es => v.render ++ (w ++ ch ',' :: (w' ++ es.render))

def Members.render : Members → List UInt8
  | .last name w₁ w₂ v w => ch '"' :: (quoted name ++ ch '"' :: (w₁ ++ ch ':' :: (w₂ ++ (v.render ++ w))))
  | .cons name w₁ w₂ v w w' ms =>
    ch '"' :: (quoted name ++ ch '"' :: (w₁ ++ ch ':' :: (w₂ ++ (v.render ++ (w ++ ch ',' :: (w' ++ ms.render))))))

end

section
variable {D : Type} (toDouble : List UInt8 → D)

mutual

/-- The items are in their order, and the sizes are their numbers. -/
def Doc.tree : Doc → JsonValue D
  | .null => .null
  | .true => .true
  | .false => .false
  | .number n => .number (toDouble n.render)
  | .string ps => .string ((decode ps).getD [])
  | .emptyArray _ => .array [] 0
  | .array _ es => .array es.trees es.trees.length
  | .emptyObject _ => .object [] 0
  | .object _ ms => .object ms.trees ms.trees.length

def Elements.trees : Elements → List (JsonValue D)
  | .last v _ => [v.tree]
  | .cons v _ _ es => v.tree :: es.trees

def Members.trees : Members → List (List UInt8 × JsonValue D)
  | .last name _ _ v _ => [((decode name).getD [], v.tree)]
  | .cons name _ _ v _ _ ms => ((decode name).getD [], v.tree) :: ms.trees

end

end

mutual

/-- The arrays and objects that are nested. -/
def Doc.depth : Doc → ℕ
  | .emptyArray _ => 1
  | .array _ es => es.depth + 1
  | .emptyObject _ => 1
  | .object _ ms => ms.depth + 1
  | _ => 0

def Elements.depth : Elements → ℕ
  | .last v _ => v.depth
  | .cons v _ _ es => max v.depth es.depth

def Members.depth : Members → ℕ
  | .last _ _ _ v _ => v.depth
  | .cons _ _ _ v _ _ ms => max v.depth ms.depth

end

mutual

def Doc.Lone : Doc → Prop
  | .string ps => decode ps = none
  | .array _ es => es.Lone
  | .object _ ms => ms.Lone
  | _ => False

def Elements.Lone : Elements → Prop
  | .last v _ => v.Lone
  | .cons v _ _ es => v.Lone ∨ es.Lone

def Members.Lone : Members → Prop
  | .last name _ _ v _ => decode name = none ∨ v.Lone
  | .cons name _ _ v _ _ ms => decode name = none ∨ v.Lone ∨ ms.Lone

end

structure Grammar where
  space : List UInt8 → Prop
  number : Numeral → Prop
  string : List Piece → Prop

mutual

def Doc.Over (G : Grammar) : Doc → Prop
  | .number n => G.number n
  | .string ps => G.string ps
  | .emptyArray w => G.space w
  | .array w es => G.space w ∧ es.Over G
  | .emptyObject w => G.space w
  | .object w ms => G.space w ∧ ms.Over G
  | _ => True

def Elements.Over (G : Grammar) : Elements → Prop
  | .last v w => v.Over G ∧ G.space w
  | .cons v w w' es => v.Over G ∧ G.space w ∧ G.space w' ∧ es.Over G

def Members.Over (G : Grammar) : Members → Prop
  | .last name w₁ w₂ v w => G.string name ∧ G.space w₁ ∧ G.space w₂ ∧ v.Over G ∧ G.space w
  | .cons name w₁ w₂ v w w' ms => G.string name ∧ G.space w₁ ∧ G.space w₂ ∧ v.Over G ∧ G.space w ∧ G.space w' ∧ ms.Over G

end

structure Text where
  before : List UInt8
  doc : Doc
  after : List UInt8

namespace Text

def render (t : Text) : List UInt8 := t.before ++ (t.doc.render ++ t.after)

def Over (G : Grammar) (t : Text) : Prop := G.space t.before ∧ t.doc.Over G ∧ G.space t.after

end Text

namespace Grammar

/-- RFC 8259, with the texts in UTF-8. -/
def rfc : Grammar where
  space w := ∀ c ∈ w, c = 0x20 ∨ c = 0x09 ∨ c = 0x0a ∨ c = 0x0d
  number := Numeral.Rfc
  string ps := (∀ p ∈ ps, p.Wide) ∧ IsUtf8 (quoted ps)

/-- With more white space, numbers and strings. -/
def wide : Grammar where
  space w := ∀ c ∈ w, isspace c
  number := Numeral.Wide
  string ps := ∀ p ∈ ps, p.Wide

/-- Without what the wide grammar has more: vertical tabs and form feeds, numbers that are not plain, and strings that are not UTF-8. -/
def plain : Grammar where
  space w := ∀ c ∈ w, c ≠ 0x0b ∧ c ≠ 0x0c
  number := Numeral.Plain
  string ps := IsUtf8 (quoted ps)

end Grammar

end Yjc.Json
