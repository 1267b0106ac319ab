import Yjc.Lib.Links
import Yjc.Lib.TotalPreorder
import Yjc.Lib.Run
import Mathlib.Data.List.Induction
import Mathlib.Logic.Function.Basic
import Mathlib.Tactic.SplitIfs

/-! `container/skiplist.c`: a sorted list with levels. Nodes are addresses, and so is the header; the memory of the nodes is
part of the state. An access past the end of an array, or through a null pointer, is `none`. -/

namespace Yjc
open Links

/-- The bits that `randomLevel` has left, and how often `random` has been called. -/
structure Rng where
  randomsLeft : ℤ
  randomBits : ℕ
  calls : ℕ

structure Skiplist (κ ν : Type) where
  allowDuplicates : Bool
  level : ℕ
  count : ℕ
  header : ℕ
  /-- A node has a slot for each level up to this one. -/
  height : ℕ → ℕ
  forward : ℕ → ℕ → Option ℕ
  key : ℕ → κ
  value : ℕ → ν
  levelStats : ℕ → ℤ
  last : Option ℕ
  rng : Rng

namespace Skiplist

def maxNumberOfLevels : ℕ := 16
def maxLevel : ℕ := maxNumberOfLevels - 1

def bitsInRandom : ℤ := 31

/-- `random n` is the outcome of the call `n`. The fuel is the number of levels. -/
def randomLevelLoop (random : ℕ → ℕ) : ℕ → ℕ → Rng → ℕ × Rng
  | 0, level, rng => (level, rng)
  | fuel + 1, level, rng =>
    let rng := if rng.randomsLeft ≤ 0 then ⟨bitsInRandom / 2, random rng.calls, rng.calls + 1⟩ else rng
    let b := rng.randomBits % 4
    let rng := { rng with randomBits := rng.randomBits / 4, randomsLeft := rng.randomsLeft - 1 }
    if b = 0 then
      if maxLevel ≤ level + 1 then (maxLevel, rng) else randomLevelLoop random fuel (level + 1) rng
    else (level, rng)

def randomLevel (random : ℕ → ℕ) (rng : Rng) : ℕ × Rng := randomLevelLoop random maxNumberOfLevels 0 rng

variable {κ ν : Type}

/-- `skiplist_new`, in a memory that holds anything. -/
def new (allowDuplicates : Bool) (header : ℕ) (height : ℕ → ℕ) (forward : ℕ → ℕ → Option ℕ) (key : ℕ → κ) (value : ℕ → ν)
    (rng : Rng) : Skiplist κ ν where
  allowDuplicates := allowDuplicates
  level := 0
  count := 0
  header := header
  height := Function.update height header maxNumberOfLevels
  forward := Function.update forward header fun _ => none
  key := key
  value := value
  levelStats := fun _ => 0
  last := none
  rng := rng

/-- `p->forward[k]`. -/
def get (s : Skiplist κ ν) (p k : ℕ) : Option (Option ℕ) := if k ≤ s.height p then some (s.forward p k) else none

/-- `p->forward[k] = q`. -/
def put (s : Skiplist κ ν) (p k : ℕ) (q : Option ℕ) : Option (Skiplist κ ν) :=
  if k ≤ s.height p then some { s with forward := Function.update s.forward p (Function.update (s.forward p) k q) }
  else none

/-- `level_stats[k] += d`. -/
def addStats (s : Skiplist κ ν) (k : ℕ) (d : ℤ) : Option (Skiplist κ ν) :=
  if k ≤ maxNumberOfLevels then some { s with levelStats := Function.update s.levelStats k (s.levelStats k + d) } else none

/-- `update[k] = p`. -/
def setUpdate (update : ℕ → ℕ) (k p : ℕ) : Option (ℕ → ℕ) :=
  if k < maxNumberOfLevels then some (Function.update update k p) else none

section Ops
variable (cmp : κ → κ → ℤ)

/-- `while (q = p->forward[k], q && cmp(q->key, key) < 0) p = q`. No end in sight: `none`. -/
def walk (s : Skiplist κ ν) (key : κ) (k : ℕ) : ℕ → ℕ → Option ℕ
  | 0, _ => none
  | fuel + 1, p =>
    (s.get p k).bind fun
      | none => some p
      | some q => if cmp (s.key q) key < 0 then walk s key k fuel q else some p

/-- The walks at the levels from `k` down, and where each came to. -/
def search (s : Skiplist κ ν) (key : κ) : ℕ → ℕ → (ℕ → ℕ) → Option (ℕ → ℕ)
  | 0, p, update => (s.walk cmp key 0 (s.count + 1) p).bind fun p => setUpdate update 0 p
  | k + 1, p, update =>
    (s.walk cmp key (k + 1) (s.count + 1) p).bind fun p => (setUpdate update (k + 1) p).bind (search s key k p)

/-- The links of a new node at the levels below `n`, from the top. -/
def linkLevels (update : ℕ → ℕ) (q : ℕ) : ℕ → Skiplist κ ν → Option (Skiplist κ ν)
  | 0, s => some s
  | k + 1, s => do
    let f ← s.get (update k) k
    let s ← s.put q k f
    let s ← s.put (update k) k (some q)
    linkLevels update q k s

/-- `newNodeOfLevel`, with the key and the value that are put into the node. -/
def newNode (s : Skiplist κ ν) (q k : ℕ) (key : κ) (value : ν) : Skiplist κ ν :=
  { s with
    height := Function.update s.height q k
    forward := Function.update s.forward q fun _ => none
    key := Function.update s.key q key
    value := Function.update s.value q value }

/-- The level of a new node, at most one above the others; a new level begins at the header. -/
def raise (s : Skiplist κ ν) (k : ℕ) (update : ℕ → ℕ) : Option (ℕ × Skiplist κ ν × (ℕ → ℕ)) :=
  if s.level < k then
    (setUpdate update (s.level + 1) s.header).map fun update => (s.level + 1, { s with level := s.level + 1 }, update)
  else some (k, s, update)

def insert (random : ℕ → ℕ) (new : ℕ) (key : κ) (value : ν) (s : Skiplist κ ν) : Option (ℤ × Skiplist κ ν) := do
  let update ← s.search cmp key s.level s.header fun _ => s.header
  let q ← s.get (update 0) 0
  if !s.allowDuplicates && q.any fun q => cmp (s.key q) key = 0 then some (-1, s)
  else do
    let (k, rng) := randomLevel random s.rng
    let (k, s, update) ← { s with rng := rng }.raise k update
    let s := s.newNode new k key value
    let s ← s.addStats k 1
    let s ← linkLevels update new (k + 1) s
    let f ← s.get new 0
    let s := if f = none then { s with last := some new } else s
    some (0, { s with count := s.count + 1 })

section Delete
variable [DecidableEq ν]

/-- `for (i = 0; i <= l->level; ++i) if (update[i]->forward[i] == q) update[i] = q`, for the levels below `n`. -/
def passLevels (s : Skiplist κ ν) (q : ℕ) : ℕ → (ℕ → ℕ) → Option (ℕ → ℕ)
  | 0, update => some update
  | n + 1, update => do
    let update ← passLevels s q n update
    let f ← s.get (update n) n
    if f = some q then setUpdate update n q else some update

def skip (s : Skiplist κ ν) (key : κ) (value : ν) : ℕ → Option ℕ → (ℕ → ℕ) → Option (Option ℕ × (ℕ → ℕ))
  | _, none, update => some (none, update)
  | 0, some _, _ => none
  | fuel + 1, some q, update =>
    if cmp (s.key q) key = 0 ∧ s.value q ≠ value then do
      let update ← s.passLevels q (s.level + 1) update
      let f ← s.get q 0
      skip s key value fuel f update
    else some (some q, update)

/-- `for (k = 0; k <= m && (p = update[k])->forward[k] == q; k++)`: what stands there is linked past. The levels left, and
the level at which the loop stops. -/
def unlinkLevels (update : ℕ → ℕ) (q : ℕ) : ℕ → ℕ → Skiplist κ ν → Option (ℕ × Skiplist κ ν)
  | 0, k, s => some (k, s)
  | left + 1, k, s => do
    let f ← s.get (update k) k
    if f = some q then do
      let g ← s.get q k
      let s ← s.put (update k) k g
      unlinkLevels update q left (k + 1) s
    else some (k, s)

/-- `while (header->forward[m] == NULL && m > 0) m--`. -/
def shrink (s : Skiplist κ ν) : ℕ → Option ℕ
  | 0 => (s.get s.header 0).map fun _ => 0
  | m + 1 => do
    let f ← s.get s.header (m + 1)
    if f = none then shrink s m else some (m + 1)

/-- What `skiplist_delete` does with the node that it found. -/
def deleteFound (update : ℕ → ℕ) (q : ℕ) (s : Skiplist κ ν) : Option (ℤ × Skiplist κ ν) := do
  let m := s.level
  let s := if s.last = some q then { s with last := if update 0 = s.header then none else some (update 0) } else s
  let (k, s) ← unlinkLevels update q (m + 1) 0 s
  let s ← (if k = 0 then none else s.addStats (k - 1) (-1))
  let m ← s.shrink m
  some (0, { s with level := m, count := s.count - 1 })

def delete (key : κ) (value : ν) (s : Skiplist κ ν) : Option (ℤ × Skiplist κ ν) := do
  let update ← s.search cmp key s.level s.header fun _ => s.header
  let q ← s.get (update 0) 0
  let (q, update) ← (if s.allowDuplicates then s.skip cmp key value (s.count + 1) q update else some (q, update))
  match q with
  | none => some (-1, s)
  | some q =>
    if cmp (s.key q) key = 0 ∧ (s.allowDuplicates = false ∨ s.value q = value) then s.deleteFound update q
    else some (-1, s)

end Delete

end Ops

/-- The loop of `skiplist_delete_first` at the levels below `n`, from the top. -/
def unlinkFirst (q : ℕ) : ℕ → ℕ → Skiplist κ ν → Option (ℕ × Skiplist κ ν)
  | 0, nodelevel, s => some (nodelevel, s)
  | k + 1, nodelevel, s => do
    let f ← s.get s.header k
    if f = some q then do
      let g ← s.get q k
      let s ← s.put s.header k g
      let s := if k = s.level ∧ g = none ∧ 0 < s.level then { s with level := s.level - 1 } else s
      unlinkFirst q k (if nodelevel = 0 then k else nodelevel) s
    else unlinkFirst q k nodelevel s

def deleteFirst (s : Skiplist κ ν) : Option (ℤ × Skiplist κ ν) := do
  let q ← s.get s.header 0
  match q with
  | none => some (-1, s)
  | some q => do
    let (nodelevel, s) ← unlinkFirst q (s.level + 1) 0 s
    let s := if s.last = some q then { s with last := none } else s
    let s ← s.addStats nodelevel (-1)
    some (0, { s with count := s.count - 1 })

/-- The walks of `skiplist_first_value`. -/
def descend (cmp : κ → κ → ℤ) (s : Skiplist κ ν) (key : κ) : ℕ → ℕ → Option ℕ
  | 0, p => s.walk cmp key 0 (s.count + 1) p
  | k + 1, p => (s.walk cmp key (k + 1) (s.count + 1) p).bind (descend cmp s key k)

/-- `skiplist_search`, by `skiplist_first_value`: the value that it finds, or nothing with -1. -/
def searchValue (cmp : κ → κ → ℤ) (key : κ) (s : Skiplist κ ν) : Option (ℤ × Option ν) := do
  let p ← s.descend cmp key s.level s.header
  let q ← s.get p 0
  match q with
  | none => some (-1, none)
  | some q => if cmp (s.key q) key ≠ 0 then some (-1, none) else some (0, some (s.value q))

inductive Op (κ ν : Type)
  | insert (new : ℕ) (key : κ) (value : ν)
  | delete (key : κ) (value : ν)
  | deleteFirst
  /-- Another list draws a level. -/
  | other

section Runs
variable [DecidableEq ν] (cmp : κ → κ → ℤ) (random : ℕ → ℕ)

def perform (s : Skiplist κ ν) : Op κ ν → Option (ℤ × Skiplist κ ν)
  | .insert new key value => s.insert cmp random new key value
  | .delete key value => s.delete cmp key value
  | .deleteFirst => s.deleteFirst
  | .other => some (0, { s with rng := (randomLevel random s.rng).2 })

def step (s : Skiplist κ ν) (o : Op κ ν) : Option (Skiplist κ ν) := (s.perform cmp random o).map Prod.snd

end Runs

def nodes (s : Skiplist κ ν) : List ℕ := chain (s.forward · 0) s.count (s.forward s.header 0)

def Valid (s : Skiplist κ ν) : Op κ ν → Prop
  | .insert new _ _ => new ≠ s.header ∧ new ∉ s.nodes
  | _ => True

instance decidableValid (s : Skiplist κ ν) (o : Op κ ν) : Decidable (Valid s o) := by
  cases o <;> unfold Valid <;> infer_instance

/-! ## Sorted lists of keys and values -/

section Sorted
variable [DecidableEq ν] (cmp : κ → κ → ℤ) (allowDuplicates : Bool)

/-- What `skiplist_delete` looks for: the key, and with duplicates the value too. -/
def hits (key : κ) (value : ν) (e : κ × ν) : Bool :=
  decide (cmp e.1 key = 0) && (!allowDuplicates || decide (e.2 = value))

def sortedPerform (l : List (κ × ν)) : Op κ ν → ℤ × List (κ × ν)
  | .insert _ key value =>
    if !allowDuplicates && l.any fun e => cmp e.1 key = 0 then (-1, l)
    else (0, (l.takeWhile fun e => cmp e.1 key < 0) ++ (key, value) :: l.dropWhile fun e => cmp e.1 key < 0)
  | .delete key value =>
    if l.any (hits cmp allowDuplicates key value) then (0, l.eraseP (hits cmp allowDuplicates key value)) else (-1, l)
  | .deleteFirst =>
    match l with
    | [] => (-1, [])
    | _ :: l => (0, l)
  | .other => (0, l)

end Sorted

/-! ## The levels -/

def onLevel (s : Skiplist κ ν) (k : ℕ) (l : List ℕ) : List ℕ := l.filter fun a => k ≤ s.height a

/-- Where the walk at a level ends, after this part of the list. -/
def stop (s : Skiplist κ ν) (pre : List ℕ) (k : ℕ) : ℕ := lastOr s.header (s.onLevel k pre)

structure Layered (cmp : κ → κ → ℤ) (s : Skiplist κ ν) (l : List ℕ) : Prop where
  nodup : (s.header :: l).Nodup
  headerHeight : s.height s.header = maxNumberOfLevels
  chains : ∀ k ≤ maxNumberOfLevels, Spells (s.forward · k) (s.forward s.header k) (s.onLevel k l)
  height : ∀ a ∈ l, s.height a ≤ s.level
  level : s.level ≤ maxLevel
  top : s.level = 0 ∨ s.forward s.header s.level ≠ none
  sorted : l.Pairwise fun a b => cmp (s.key a) (s.key b) ≤ 0
  distinct : s.allowDuplicates = false → l.Pairwise fun a b => cmp (s.key a) (s.key b) ≠ 0
  count : s.count = l.length
  last : s.last = l.getLast?
  stats : ∀ k ≤ maxNumberOfLevels, s.levelStats k = l.countP fun a => s.height a = k

variable {cmp : κ → κ → ℤ} {s : Skiplist κ ν} {l pre post : List ℕ} {key : κ} {k p : ℕ}

@[simp]
theorem onLevel_nil : s.onLevel k [] = [] := rfl

theorem onLevel_append : s.onLevel k (pre ++ post) = s.onLevel k pre ++ s.onLevel k post := List.filter_append ..

theorem onLevel_cons_of_le {a : ℕ} (h : k ≤ s.height a) : s.onLevel k (a :: l) = a :: s.onLevel k l :=
  List.filter_cons_of_pos (by simpa using h)

theorem onLevel_cons_of_lt {a : ℕ} (h : s.height a < k) : s.onLevel k (a :: l) = s.onLevel k l :=
  List.filter_cons_of_neg (by simpa using h)

theorem onLevel_zero : s.onLevel 0 l = l := List.filter_eq_self.mpr fun a _ => by simp

theorem mem_onLevel {a : ℕ} : a ∈ s.onLevel k l ↔ a ∈ l ∧ k ≤ s.height a := by simp [onLevel]

theorem onLevel_subset (k : ℕ) : s.header :: s.onLevel k l ⊆ s.header :: l :=
  List.cons_subset_cons _ List.filter_sublist.subset

theorem Layered.nodup_onLevel (h : Layered cmp s l) (k : ℕ) : (s.header :: s.onLevel k l).Nodup :=
  h.nodup.sublist (List.filter_sublist.cons_cons _)

theorem onLevel_congr {t : Skiplist κ ν} (h : ∀ a ∈ l, t.height a = s.height a) : t.onLevel k l = s.onLevel k l :=
  List.filter_congr fun a ha => by rw [h a ha]

theorem Spells.eq_head? {next : ℕ → Option ℕ} {q : Option ℕ} (h : Spells next q l) : q = l.head? := by
  cases l with
  | nil => exact h
  | cons a l => exact h.1

theorem forward_header_ne_none (h : Spells (s.forward · k) (s.forward s.header k) (s.onLevel k l)) :
    s.forward s.header k ≠ none ↔ ∃ a ∈ l, k ≤ s.height a := by
  rw [Spells.eq_head? h, Ne, List.head?_eq_none_iff, onLevel, List.filter_eq_nil_iff]
  simp

/-- A cell of the part with this level, from which the walk at the level goes on. -/
def Reached (s : Skiplist κ ν) (pre : List ℕ) (k p : ℕ) : Prop :=
  ∃ xs ys, pre = xs ++ ys ∧ p = lastOr s.header xs ∧ k ≤ s.height p

theorem lastOr_onLevel {xs : List ℕ} (h : k ≤ s.height (lastOr s.header xs)) :
    lastOr s.header (s.onLevel k xs) = lastOr s.header xs := by
  rcases List.eq_nil_or_concat' xs with rfl | ⟨xs, a, rfl⟩
  · rfl
  · rw [lastOr_concat] at h ⊢
    rw [onLevel_append, onLevel_cons_of_le h, onLevel_nil, lastOr_concat]

theorem Layered.stop_height (h : Layered cmp s l) (hk : k ≤ maxNumberOfLevels) : k ≤ s.height (s.stop pre k) := by
  rcases List.mem_cons.mp (lastOr_mem s.header (s.onLevel k pre)) with he | hmem
  · rw [stop, he, h.headerHeight]
    exact hk
  · exact (mem_onLevel.mp hmem).2

theorem Layered.reached_stop (h : Layered cmp s l) (hk : k ≤ maxNumberOfLevels) (pre : List ℕ) :
    Reached s pre k (s.stop pre k) := by
  induction pre using List.reverseRecOn with
  | nil => exact ⟨[], [], rfl, rfl, h.stop_height hk⟩
  | append_singleton pre a ih =>
    have hheight : k ≤ s.height (s.stop (pre ++ [a]) k) := h.stop_height hk
    unfold stop at hheight ⊢
    rw [onLevel_append] at hheight ⊢
    rcases Nat.lt_or_ge (s.height a) k with hlt | hge
    · rw [onLevel_cons_of_lt hlt, onLevel_nil, List.append_nil] at hheight ⊢
      obtain ⟨xs, ys, rfl, hp, hk'⟩ := ih
      exact ⟨xs, ys ++ [a], by rw [List.append_assoc], hp, hk'⟩
    · rw [onLevel_cons_of_le hge, onLevel_nil, lastOr_concat] at hheight ⊢
      exact ⟨pre ++ [a], [], by rw [List.append_nil], by rw [lastOr_concat], hheight⟩

theorem Layered.spells_after (h : Layered cmp s l) (hk : k ≤ maxNumberOfLevels) {xs ys : List ℕ} (hl : l = xs ++ ys)
    (hp : k ≤ s.height (lastOr s.header xs)) : Spells (s.forward · k) (s.forward (lastOr s.header xs) k) (s.onLevel k ys) := by
  have hchain := h.chains k hk
  rw [hl, onLevel_append] at hchain
  have := Spells.after hchain
  rwa [lastOr_onLevel hp] at this

theorem Layered.spells_stop (h : Layered cmp s (pre ++ post)) (hk : k ≤ maxNumberOfLevels) :
    Spells (s.forward · k) (s.forward (s.stop pre k) k) (s.onLevel k post) := by
  have hchain := h.chains k hk
  rw [onLevel_append] at hchain
  exact Spells.after hchain

end Skiplist
end Yjc
