import Yjc.Util.JsonIndex
import Mathlib.Logic.Relation

/-! JSON values as a store of ordered lists, without list heads, trees or counters. -/

namespace Yjc.Json
open Function

/-- A value but for its members or elements. -/
def Payload.kind {D : Type} : Payload D → JsonValue D
  | .string s => .string s
  | .number n => .number n
  | .object _ _ => .object [] 0
  | .array _ => .array [] 0
  | .true => .true
  | .false => .false
  | .null => .null

/-- All values by their addresses: what they are, and their members or elements in order, with the names that the members were given. -/
structure Lists (D : Type) where
  kind : ℕ → JsonValue D
  kids : ℕ → List ℕ
  name : ℕ → List UInt8
  fresh : ℕ

/-- The kind of value that an argument makes. -/
def Arg.kind {D : Type} (kind : ℕ → JsonValue D) : Arg D → JsonValue D
  | .move src => kind src
  | .string str => .string (cString str)
  | .number n => .number n
  | .object => .object [] 0
  | .array => .array [] 0
  | .true => .true
  | .false => .false
  | .null => .null

namespace Lists
variable {D : Type}

def empty : Lists D := ⟨fun _ => .null, fun _ => [], fun _ => [], 0⟩

def malloc (S : Lists D) : Lists D := { S with kind := update S.kind S.fresh .null, fresh := S.fresh + 1 }

def setKind (S : Lists D) (val : ℕ) (kind : JsonValue D) : Lists D := { S with kind := update S.kind val kind }

/-- A value is made from an argument: what is moved into it keeps its members or elements. -/
def set (S : Lists D) (arg : Arg D) (val : ℕ) : Lists D :=
  { S with kids := Heap.placed arg val S.kids, kind := update S.kind val (arg.kind S.kind) }

def create (S : Lists D) (arg : Arg D) : Lists D := S.malloc.set arg S.fresh

mutual

def load : JsonValue D → ℕ → Lists D → Lists D
  | .object members _, val, S => loadMembers members val (S.setKind val (.object [] 0))
  | .array elements _, val, S => loadElements elements val (S.setKind val (.array [] 0))
  | v, val, S => S.setKind val v

def loadMembers : List (List UInt8 × JsonValue D) → ℕ → Lists D → Lists D
  | [], _, S => S
  | (name, val) :: members, obj, S =>
    let memb := S.fresh
    let S := load val memb { S.malloc with name := update S.name memb name }
    loadMembers members obj { S with kids := update S.kids obj (S.kids obj ++ [memb]) }

def loadElements : List (JsonValue D) → ℕ → Lists D → Lists D
  | [], _, S => S
  | val :: elements, arr, S =>
    let elem := S.fresh
    let S := load val elem S.malloc
    loadElements elements arr { S with kids := update S.kids arr (S.kids arr ++ [elem]) }

end

def insert (S : Lists D) (obj : ℕ) (name : List UInt8) (arg : Arg D) (i : ℕ) : Lists D :=
  let memb := S.fresh
  let S := { S.malloc with name := update S.name memb (cString name) }.set arg memb
  { S with kids := update S.kids obj ((S.kids obj).insertIdx i memb) }

def remove (S : Lists D) (memb obj : ℕ) : Lists D :=
  let val := S.fresh
  { S.malloc with kids := Heap.moved (update S.kids obj ((S.kids obj).erase memb)) memb val, kind := update S.kind val (S.kind memb) }

def step (toDouble : List UInt8 → D) (S : Lists D) : JsonOp D → Lists D
  | .create arg => S.create arg
  | .parse doc =>
    match jsonValueParse toDouble doc with
    | some (some v) => load v S.fresh S.malloc
    | _ => S
  | .append obj name arg => S.insert obj name arg (S.kids obj).length
  | .insertAfter val obj name arg => S.insert obj name arg (val.elim 0 fun memb => (S.kids obj).idxOf memb + 1)
  | .insertBefore val obj name arg => S.insert obj name arg (val.elim (S.kids obj).length fun memb => (S.kids obj).idxOf memb)
  | .remove val obj => S.remove val obj

/-- The whole value at an address, to a depth. -/
def value (S : Lists D) : ℕ → ℕ → Option (JsonValue D)
  | 0, _ => none
  | depth + 1, a =>
    match S.kind a with
    | .object _ _ =>
      ((S.kids a).mapM fun memb => (value S depth memb).map fun v => (S.name memb, v)).map fun members => .object members (S.kids a).length
    | .array _ _ => ((S.kids a).mapM fun elem => value S depth elem).map fun elements => .array elements (S.kids a).length
    | v => some v

/-! ## Values below a value -/

variable {S T : Lists D} {depth a b memb obj : ℕ} {v : JsonValue D}

theorem mapM_congr {α β : Type*} {f g : α → Option β} {l : List α} (h : ∀ x ∈ l, f x = g x) : l.mapM f = l.mapM g := by
  induction l with
  | nil => rfl
  | cons x l ih =>
    rw [List.mapM_cons, List.mapM_cons, h x List.mem_cons_self, ih fun y hy => h y (List.mem_cons_of_mem x hy)]

end Lists
end Yjc.Json
