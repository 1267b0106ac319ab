import Yjc.Lib.Strtod
import Mathlib.Data.Int.Order.Basic
import Mathlib.Algebra.Group.Int.Defs
import Mathlib.Algebra.Group.Nat.Defs

/-! The parser of `util/json_parser.c`. A cursor is what is left of the memory from a place on. The index by name that an object keeps
besides its list of members is left out, and `malloc` succeeds. -/

namespace Yjc.Json
open CLib

/-- What ends a function without a result: undefined behaviour, or a negative return value. -/
inductive Stop
  | undefined
  | ret (code : ℤ)

abbrev Outcome := Except Stop

theorem bind_ok {α β : Type} {x : Outcome α} {f : α → Outcome β} {b : β} : x.bind f = .ok b ↔ ∃ a, x = .ok a ∧ f a = .ok b := by
  cases x with
  | error e => simp [Except.bind]
  | ok a => simp [Except.bind]

theorem map_ok {α β : Type} {x : Outcome α} {f : α → β} {b : β} : x.map f = .ok b ↔ ∃ a, x = .ok a ∧ f a = b := by
  cases x with
  | error e => simp [Except.map]
  | ok a => simp [Except.map]

inductive JsonValue (D : Type)
  | string (s : List UInt8)
  | number (n : D)
  | object (members : List (List UInt8 × JsonValue D)) (size : ℕ)
  | array (elements : List (JsonValue D)) (size : ℕ)
  | true
  | false
  | null

def depthLimit : ℕ := 1024

/-- One more in an `int`. -/
def incr (n : ℕ) : Outcome ℕ := if n + 1 < 2 ^ 31 then .ok (n + 1) else .error .undefined

/-! ## Strings -/

def jsonStringLength (len : ℕ) : List UInt8 → Outcome ℕ
  | [] => .error .undefined
  | c :: cursor =>
    if c = ch '"' then .ok len
    else if c < 0x20 then .error (.ret (-2))
    else if c = ch '\\' then
      match cursor with
      | [] => .error .undefined
      | e :: cursor => if e = 0 then .error (.ret (-2)) else (incr len).bind fun len => jsonStringLength len cursor
    else (incr len).bind fun len => jsonStringLength len cursor

def hexDigit (c : UInt8) : Option ℕ :=
  if ch '0' ≤ c ∧ c ≤ ch '9' then some (c.toNat - 0x30)
  else if ch 'A' ≤ c ∧ c ≤ ch 'F' then some (c.toNat - 0x41 + 10)
  else if ch 'a' ≤ c ∧ c ≤ ch 'f' then some (c.toNat - 0x61 + 10)
  else none

/-- The loop over `i` more digits. -/
def hexLoop : ℕ → ℕ → List UInt8 → Outcome (ℕ × List UInt8)
  | 0, code, cursor => .ok (code, cursor)
  | _ + 1, _, [] => .error .undefined
  | i + 1, code, c :: cursor =>
    match hexDigit c with
    | none => .error (.ret (-2))
    | some hex => hexLoop i ((code <<< 4) + hex) cursor

def parseJsonHex4 (cursor : List UInt8) : Outcome (ℕ × List UInt8) := hexLoop 4 0 cursor

def utf8 (code : ℕ) : List UInt8 :=
  if code ≤ 0x7f then [UInt8.ofNat code]
  else if code ≤ 0x7ff then [UInt8.ofNat (0xc0 ||| (code >>> 6)), UInt8.ofNat (0x80 ||| (code &&& 0x3f))]
  else if code ≤ 0xffff then
    [UInt8.ofNat (0xe0 ||| (code >>> 12)), UInt8.ofNat (0x80 ||| ((code >>> 6) &&& 0x3f)), UInt8.ofNat (0x80 ||| (code &&& 0x3f))]
  else
    [UInt8.ofNat (0xf0 ||| (code >>> 18)), UInt8.ofNat (0x80 ||| ((code >>> 12) &&& 0x3f)),
      UInt8.ofNat (0x80 ||| ((code >>> 6) &&& 0x3f)), UInt8.ofNat (0x80 ||| (code &&& 0x3f))]

/-- The cursor past a character that has to be there. -/
def expect (c : UInt8) : List UInt8 → Outcome (List UInt8)
  | [] => .error .undefined
  | d :: cursor => if d = c then .ok cursor else .error (.ret (-2))

/-- With the bytes that are stored. -/
def parseJsonUnicode (cursor : List UInt8) : Outcome (List UInt8 × List UInt8) := do
  let (code, cursor) ← parseJsonHex4 cursor
  if 0xdc00 ≤ code ∧ code ≤ 0xdfff then .error (.ret (-2))
  else if 0xd800 ≤ code ∧ code ≤ 0xdbff then do
    let cursor ← expect (ch '\\') cursor
    let cursor ← expect (ch 'u') cursor
    let (next, cursor) ← parseJsonHex4 cursor
    if next < 0xdc00 ∨ 0xdfff < next then .error (.ret (-2))
    else .ok (utf8 ((((code &&& 0x3ff) <<< 10) ||| (next &&& 0x3ff)) + 0x10000), cursor)
  else .ok (utf8 code, cursor)

/-- The byte of an escape of one letter. -/
def escaped (c : UInt8) : Option UInt8 :=
  if c = ch '"' then some (ch '"')
  else if c = ch '\\' then some (ch '\\')
  else if c = ch '/' then some (ch '/')
  else if c = ch 'b' then some 0x08
  else if c = ch 'f' then some 0x0c
  else if c = ch 'n' then some 0x0a
  else if c = ch 'r' then some 0x0d
  else if c = ch 't' then some 0x09
  else none

/-- The rest of an escape, from its letter on, with the bytes that are stored. -/
def parseEscape : List UInt8 → Outcome (List UInt8 × List UInt8)
  | [] => .error .undefined
  | e :: cursor =>
    match escaped e with
    | some b => .ok ([b], cursor)
    | none => if e = ch 'u' then parseJsonUnicode cursor else .error (.ret (-2))

/-- Bytes stored to a buffer of `size` bytes. -/
def put (size : ℕ) (str bytes : List UInt8) : Outcome (List UInt8) :=
  if str.length + bytes.length ≤ size then .ok (str ++ bytes) else .error .undefined

/-- The loop, in a number of rounds that bounds it, with what is stored so far. -/
def stringLoop (size : ℕ) : ℕ → List UInt8 → List UInt8 → Outcome (List UInt8 × List UInt8)
  | 0, _, _ => .error .undefined
  | _ + 1, [], _ => .error .undefined
  | fuel + 1, c :: cursor, str =>
    if c = ch '"' then (put size str [0]).map fun _ => (str, cursor)
    else if c = ch '\\' then
      (parseEscape cursor).bind fun (bytes, cursor) => (put size str bytes).bind fun str => stringLoop size fuel cursor str
    else (put size str [c]).bind fun str => stringLoop size fuel cursor str

/-- The string before its final NUL. -/
def parseJsonString (size : ℕ) (cursor : List UInt8) : Outcome (List UInt8 × List UInt8) := stringLoop size (cursor.length + 1) cursor []

/-! ## Numbers and words -/

/-- A number that begins with `0` and another digit, or is hexadecimal. -/
def leadingZero : List UInt8 → Bool
  | z :: c :: _ => z = ch '0' ∧ (isdigit c ∨ c = ch 'X' ∨ c = ch 'x')
  | _ => false

def parseJsonNumber {D : Type} (toDouble : List UInt8 → D) (cursor : List UInt8) : Outcome (D × List UInt8) :=
  if leadingZero (if cursor.head? = some (ch '-') then cursor.tail else cursor) then .error (.ret (-2))
  else
    match strtod toDouble cursor with
    | none => .error (.ret (-2))
    | some r => .ok r

/-- One of the words `true`, `false` and `null`. -/
def parseWord {α : Type} (word : List UInt8) (val : α) (cursor : List UInt8) : Outcome (α × List UInt8) :=
  if cursor.take word.length = word then .ok (val, cursor.drop word.length) else .error (.ret (-2))

/-! ## Arrays and objects -/

def skipSpace (cursor : List UInt8) : List UInt8 := cursor.dropWhile isspace

variable {D α : Type}

/-- The loop of an array or object up to its last character, in a number of rounds that bounds it, with the items so far and their
count. -/
def itemsLoop (close : UInt8) (item : List UInt8 → Outcome (α × List UInt8)) : ℕ → List UInt8 → List α → ℕ →
    Outcome (List α × ℕ × List UInt8)
  | 0, _, _, _ => .error .undefined
  | fuel + 1, cursor, items, cnt =>
    (item cursor).bind fun (a, cursor) => (incr cnt).bind fun cnt =>
      match skipSpace cursor with
      | [] => .error .undefined
      | c :: cursor =>
        if c = ch ',' then itemsLoop close item fuel (skipSpace cursor) (items ++ [a]) cnt
        else if c = close then .ok (items ++ [a], cnt, cursor)
        else .error (.ret (-2))

def parseItems (close : UInt8) (item : List UInt8 → Outcome (α × List UInt8)) (cursor : List UInt8) :
    Outcome (List α × ℕ × List UInt8) :=
  match skipSpace cursor with
  | [] => .error .undefined
  | c :: cursor => if c = close then .ok ([], 0, cursor) else itemsLoop close item (cursor.length + 1) (c :: cursor) [] 0

def parseJsonElements (value : List UInt8 → ℕ → Outcome (JsonValue D × List UInt8)) (cursor : List UInt8) (depth : ℕ) :
    Outcome (List (JsonValue D) × ℕ × List UInt8) :=
  parseItems (ch ']') (fun cursor => value cursor depth) cursor

def parseJsonArray (value : List UInt8 → ℕ → Outcome (JsonValue D × List UInt8)) (cursor : List UInt8) (depth : ℕ) :
    Outcome (JsonValue D × List UInt8) :=
  if depth = depthLimit then .error (.ret (-3))
  else (parseJsonElements value cursor (depth + 1)).map fun (elements, size, cursor) => (.array elements size, cursor)

/-- A member from its name on, for which there is room for `size` bytes. -/
def parseJsonMember (value : List UInt8 → ℕ → Outcome (JsonValue D × List UInt8)) (size : ℕ) (cursor : List UInt8) (depth : ℕ) :
    Outcome ((List UInt8 × JsonValue D) × List UInt8) :=
  (parseJsonString size cursor).bind fun (name, cursor) => (expect (ch ':') (skipSpace cursor)).bind fun cursor =>
    (value (skipSpace cursor) depth).map fun (val, cursor) => ((name, val), cursor)

def parseJsonMembers (value : List UInt8 → ℕ → Outcome (JsonValue D × List UInt8)) (cursor : List UInt8) (depth : ℕ) :
    Outcome (List (List UInt8 × JsonValue D) × ℕ × List UInt8) :=
  parseItems (ch '}') (fun cursor => (expect (ch '"') cursor).bind fun cursor =>
    (jsonStringLength 0 cursor).bind fun len => parseJsonMember value (len + 1) cursor depth) cursor

def parseJsonObject (value : List UInt8 → ℕ → Outcome (JsonValue D × List UInt8)) (cursor : List UInt8) (depth : ℕ) :
    Outcome (JsonValue D × List UInt8) :=
  if depth = depthLimit then .error (.ret (-3))
  else (parseJsonMembers value cursor (depth + 1)).map fun (members, size, cursor) => (.object members size, cursor)

/-- For a string value the size of the buffer is an `int`. -/
def parseStringValue (cursor : List UInt8) : Outcome (JsonValue D × List UInt8) :=
  (jsonStringLength 0 cursor).bind fun len => (incr len).bind fun size =>
    (parseJsonString size cursor).map fun (s, cursor) => (.string s, cursor)

/-- With a number of levels that bounds the recursion. -/
def parseJsonValue (toDouble : List UInt8 → D) : ℕ → List UInt8 → ℕ → Outcome (JsonValue D × List UInt8)
  | 0, _, _ => .error .undefined
  | _ + 1, [], _ => .error .undefined
  | levels + 1, c :: cursor, depth =>
    if c = ch '"' then parseStringValue cursor
    else if c = ch '-' ∨ isdigit c then (parseJsonNumber toDouble (c :: cursor)).map fun (num, cursor) => (.number num, cursor)
    else if c = ch '{' then parseJsonObject (parseJsonValue toDouble levels) cursor depth
    else if c = ch '[' then parseJsonArray (parseJsonValue toDouble levels) cursor depth
    else if c = ch 't' then parseWord [ch 't', ch 'r', ch 'u', ch 'e'] .true (c :: cursor)
    else if c = ch 'f' then parseWord [ch 'f', ch 'a', ch 'l', ch 's', ch 'e'] .false (c :: cursor)
    else if c = ch 'n' then parseWord [ch 'n', ch 'u', ch 'l', ch 'l'] .null (c :: cursor)
    else .error (.ret (-2))

/-- `some none` for `NULL`; `none` for undefined behaviour. -/
def jsonValueParse (toDouble : List UInt8 → D) (doc : List UInt8) : Option (Option (JsonValue D)) :=
  match parseJsonValue toDouble (depthLimit + 1) (skipSpace doc) 0 with
  | .error .undefined => none
  | .error (.ret _) => some none
  | .ok (val, cursor) =>
    match skipSpace cursor with
    | [] => none
    | c :: _ => if c = 0 then some (some val) else some none

end Yjc.Json
