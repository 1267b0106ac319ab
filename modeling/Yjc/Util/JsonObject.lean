import Yjc.Lib.CString
import Yjc.Lib.Rings
import Yjc.Lib.Run
import Yjc.Lib.SearchTree
import Yjc.Util.JsonParser

/-! The objects of `util/json_parser.c`, with the heap that they are in. An address is that of a `json_value_t`, which is alone or in a
member or an element; `malloc` succeeds, with an address that was not in use before. -/

namespace Yjc.Json
open CLib Rings Function

/-- The list heads: that of an object or array, and that of a member or element. -/
inductive Node
  | head (val : ℕ)
  | entry (val : ℕ)
deriving DecidableEq

def Node.entry? : Node → Option ℕ
  | head _ => none
  | entry val => some val

/-- A value but for its list head. -/
inductive Payload (D : Type)
  | string (s : List UInt8)
  | number (n : D)
  | object (root : RbTree ℕ) (size : ℤ)
  | array (size : ℤ)
  | true
  | false
  | null

inductive Block
  | value
  | member
  | element
deriving DecidableEq

/-- All list heads, values and names by their addresses, and what was allocated there and not freed. -/
structure Heap (D : Type) where
  cells : Cells Node
  value : ℕ → Payload D
  name : ℕ → List UInt8
  block : ℕ → Option Block
  fresh : ℕ

/-- The type and the argument after it that a value is made from: for type zero, another value. -/
inductive Arg (D : Type)
  | move (src : ℕ)
  | string (str : List UInt8)
  | number (n : D)
  | object
  | array
  | true
  | false
  | null

/-- `rb_insert_color` and `rb_erase`. -/
structure Rebalancing where
  insertColor : ℕ → RbTree ℕ → RbTree ℕ
  erase : ℕ → RbTree ℕ → RbTree ℕ
  inorder_insertColor : ∀ memb t, (insertColor memb t).inorder = t.inorder
  inorder_erase : ∀ memb t, (erase memb t).inorder = t.inorder.erase memb

def cString (s : List UInt8) : List UInt8 := s.takeWhile (· != 0)

namespace Heap
variable {D : Type} (R : Rebalancing)

def empty : Heap D := ⟨⟨id, id⟩, fun _ => .null, fun _ => [], fun _ => none, 0⟩

/-- The new block, whose value is not to be read before it is set. -/
def malloc (h : Heap D) (b : Block) : ℕ × Heap D :=
  (h.fresh, { h with value := update h.value h.fresh .null, block := update h.block h.fresh (some b), fresh := h.fresh + 1 })

def free (h : Heap D) (a : ℕ) : Heap D := { h with block := update h.block a none }

def setValue (h : Heap D) (a : ℕ) (v : Payload D) : Heap D := { h with value := update h.value a v }

def setName (h : Heap D) (a : ℕ) (name : List UInt8) : Heap D := { h with name := update h.name a name }

def moveJsonValue (h : Heap D) (src dest : ℕ) : Heap D :=
  match h.value src with
  | .object root size =>
    { h with cells := (h.cells.init (.head dest)).splice (.head src) (.head dest) }.setValue dest (.object root size)
  | .array size => { h with cells := (h.cells.init (.head dest)).splice (.head src) (.head dest) }.setValue dest (.array size)
  | v => h.setValue dest v

/-- An empty list in a value that is to be an object or array. -/
def initList (h : Heap D) (val : ℕ) (v : Payload D) : Heap D := { h with cells := h.cells.init (.head val) }.setValue val v

def setJsonValue (h : Heap D) (arg : Arg D) (val : ℕ) : Heap D :=
  match arg with
  | .move src => (h.moveJsonValue src val).free src
  | .string str => h.setValue val (.string (cString str))
  | .number n => h.setValue val (.number n)
  | .object => h.initList val (.object .nil 0)
  | .array => h.initList val (.array 0)
  | .true => h.setValue val .true
  | .false => h.setValue val .false
  | .null => h.setValue val .null

def insertJsonMember (h : Heap D) (memb : ℕ) (pos : Node) (obj : ℕ) : Heap D :=
  match h.value obj with
  | .object root size =>
    let below := fun entry => decide (strcmp (cString (h.name memb)) (cString (h.name entry)) < 0)
    { h with cells := h.cells.add (.entry memb) pos }.setValue obj (.object (R.insertColor memb (root.link below memb)) size)
  | _ => h

def setSize (h : Heap D) (a : ℕ) (f : ℤ → ℤ) : Heap D :=
  match h.value a with
  | .object root size => h.setValue a (.object root (f size))
  | .array size => h.setValue a (.array (f size))
  | _ => h

/-! ## Parsing -/

mutual

def load : JsonValue D → ℕ → Heap D → Heap D
  | .string s, val, h => h.setValue val (.string s)
  | .number n, val, h => h.setValue val (.number n)
  | .object members _, val, h =>
    let (cnt, h) := loadMembers members val 0 (h.initList val (.object .nil 0))
    h.setSize val fun _ => cnt
  | .array elements _, val, h =>
    let (cnt, h) := loadElements elements val 0 (h.initList val (.array 0))
    h.setSize val fun _ => cnt
  | .true, val, h => h.setValue val .true
  | .false, val, h => h.setValue val .false
  | .null, val, h => h.setValue val .null

def loadMembers : List (List UInt8 × JsonValue D) → ℕ → ℤ → Heap D → ℤ × Heap D
  | [], _, cnt, h => (cnt, h)
  | (name, val) :: members, obj, cnt, h =>
    let (memb, h) := h.malloc .member
    let h := load val memb (h.setName memb name)
    loadMembers members obj (cnt + 1) (h.insertJsonMember R memb (h.cells.prev (.head obj)) obj)

def loadElements : List (JsonValue D) → ℕ → ℤ → Heap D → ℤ × Heap D
  | [], _, cnt, h => (cnt, h)
  | val :: elements, arr, cnt, h =>
    let (elem, h) := h.malloc .element
    let h := load val elem h
    loadElements elements arr (cnt + 1) { h with cells := h.cells.addTail (.entry elem) (.head arr) }

end

/-! ## Operations -/

/-- A member is made and put behind `pos`. -/
def jsonObjectInsert (h : Heap D) (name : List UInt8) (arg : Arg D) (pos : Node) (obj : ℕ) : ℕ × Heap D :=
  let (memb, h) := h.malloc .member
  let h := h.setName memb (cString name)
  let h := h.setJsonValue arg memb
  let h := h.insertJsonMember R memb pos obj
  (memb, h.setSize obj (· + 1))

def jsonObjectAppend (h : Heap D) (obj : ℕ) (name : List UInt8) (arg : Arg D) : ℕ × Heap D :=
  h.jsonObjectInsert R name arg (h.cells.prev (.head obj)) obj

/-- The list head of a member's value, or of the object for `NULL`. -/
def position (val : Option ℕ) (obj : ℕ) : Node := val.elim (.head obj) .entry

def jsonObjectInsertAfter (h : Heap D) (val : Option ℕ) (obj : ℕ) (name : List UInt8) (arg : Arg D) : ℕ × Heap D :=
  h.jsonObjectInsert R name arg (position val obj) obj

def jsonObjectInsertBefore (h : Heap D) (val : Option ℕ) (obj : ℕ) (name : List UInt8) (arg : Arg D) : ℕ × Heap D :=
  h.jsonObjectInsert R name arg (h.cells.prev (position val obj)) obj

/-- `rb_erase` on the root of an object. -/
def eraseJsonMember (h : Heap D) (memb obj : ℕ) : Heap D :=
  match h.value obj with
  | .object root size => h.setValue obj (.object (R.erase memb root) size)
  | _ => h

def jsonObjectRemove (h : Heap D) (memb obj : ℕ) : ℕ × Heap D :=
  let (val, h) := h.malloc .value
  let h := { h with cells := h.cells.del (.entry memb) }
  let h := h.eraseJsonMember R memb obj
  let h := h.setSize obj (· - 1)
  (val, (h.moveJsonValue memb val).free memb)

def jsonValueCreate (h : Heap D) (arg : Arg D) : ℕ × Heap D :=
  let (val, h) := h.malloc .value
  (val, h.setJsonValue arg val)

def jsonValueLoad (h : Heap D) (v : JsonValue D) : ℕ × Heap D :=
  let (val, h) := h.malloc .value
  (val, h.load R v val)

/-! ## Reading -/

/-- The members or elements, as `json_object_next_value` and `json_array_next_value` go through them. -/
def entries (h : Heap D) (a : ℕ) : List ℕ := (h.cells.walk (.head a) h.fresh (h.cells.next (.head a))).filterMap Node.entry?

def jsonObjectSize (h : Heap D) (obj : ℕ) : ℤ :=
  match h.value obj with
  | .object _ size => size
  | _ => 0

def index (h : Heap D) (obj : ℕ) : List ℕ :=
  match h.value obj with
  | .object root _ => root.inorder
  | _ => []

def jsonObjectFind (h : Heap D) (name : List UInt8) (obj : ℕ) : Option ℕ :=
  match h.value obj with
  | .object root _ => root.find fun memb => strcmp (cString name) (cString (h.name memb))
  | _ => none

/-- What `json_value_object` takes: a value that is an object. -/
def isObject (h : Heap D) (a : ℕ) : Bool :=
  (h.block a).isSome &&
    match h.value a with
    | .object _ _ => true
    | _ => false

def denote (h : Heap D) : ℕ → ℕ → Option (JsonValue D)
  | 0, _ => none
  | depth + 1, a =>
    match h.value a with
    | .string s => some (.string s)
    | .number n => some (.number n)
    | .object _ size =>
      ((h.entries a).mapM fun memb => (denote h depth memb).map fun v => (h.name memb, v)).map fun members => .object members size.toNat
    | .array size => ((h.entries a).mapM fun elem => denote h depth elem).map fun elements => .array elements size.toNat
    | .true => some .true
    | .false => some .false
    | .null => some .null

end Heap

/-! ## Runs -/

inductive JsonOp (D : Type)
  | create (arg : Arg D)
  | parse (doc : List UInt8)
  | append (obj : ℕ) (name : List UInt8) (arg : Arg D)
  | insertAfter (val : Option ℕ) (obj : ℕ) (name : List UInt8) (arg : Arg D)
  | insertBefore (val : Option ℕ) (obj : ℕ) (name : List UInt8) (arg : Arg D)
  | remove (val obj : ℕ)

namespace Heap
variable {D : Type} (R : Rebalancing) (toDouble : List UInt8 → D)

/-- A value that is moved from is one that was returned to the caller, and not the object itself. -/
def takes (h : Heap D) (dest : Option ℕ) : Arg D → Bool
  | .move src => h.block src = some .value ∧ dest ≠ some src
  | _ => true

/-- A call on an object, with a value of one of its members or `NULL`, where one more member can be counted. -/
def accepts (h : Heap D) (obj : ℕ) (val : Option ℕ) (arg : Arg D) : Bool :=
  h.isObject obj && val.all (· ∈ h.entries obj) && h.takes (some obj) arg && h.jsonObjectSize obj + 1 < 2 ^ 31

def step (h : Heap D) : JsonOp D → Option (Heap D)
  | .create arg => if h.takes none arg then some (h.jsonValueCreate arg).2 else none
  | .parse doc => (jsonValueParse toDouble doc).map fun v => v.elim h fun v => (h.jsonValueLoad R v).2
  | .append obj name arg => if h.accepts obj none arg then some (h.jsonObjectAppend R obj name arg).2 else none
  | .insertAfter val obj name arg => if h.accepts obj val arg then some (h.jsonObjectInsertAfter R val obj name arg).2 else none
  | .insertBefore val obj name arg => if h.accepts obj val arg then some (h.jsonObjectInsertBefore R val obj name arg).2 else none
  | .remove val obj => if h.isObject obj ∧ val ∈ h.entries obj then some (h.jsonObjectRemove R val obj).2 else none

end Heap
end Yjc.Json
