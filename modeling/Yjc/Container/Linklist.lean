import Yjc.Lib.DoubleLinks
import Yjc.Lib.Run
import Mathlib.Data.List.InsertIdx
import Mathlib.Logic.Function.Basic

/-! `container/linklist.c`: a doubly linked list with a head, a tail and a count. Nodes are addresses; the
memory of the nodes is part of the state. A step through a null pointer is `none`. -/

namespace Yjc
open Links

@[ext]
structure Linklist (δ : Type*) where
  head : Option ℕ
  tail : Option ℕ
  count : ℕ
  next : ℕ → Option ℕ
  prev : ℕ → Option ℕ
  data : ℕ → δ

namespace Linklist
variable {δ : Type*}

/-- `list_create`, in a memory that holds anything. -/
def create (next prev : ℕ → Option ℕ) (data : ℕ → δ) : Linklist δ := ⟨none, none, 0, next, prev, data⟩

def setNext (s : Linklist δ) (n : ℕ) (p : Option ℕ) : Linklist δ := { s with next := Function.update s.next n p }

def setPrev (s : Linklist δ) (n : ℕ) (p : Option ℕ) : Linklist δ := { s with prev := Function.update s.prev n p }

/-- `listnode_new` comes to the node `new` with the data `val`, which it allocates, or which the application owns. -/
def listnodeNew (s : Linklist δ) (new : ℕ) (val : δ) : Linklist δ :=
  setPrev (setNext { s with data := Function.update s.data new val } new none) new none

/-- `LISTNODE_ATTACH`. -/
def attach (s : Linklist δ) (n : ℕ) : Option (Linklist δ) := do
  let s := s.setPrev n s.tail
  let s := s.setNext n none
  let s ← if s.head = none then some { s with head := some n } else s.tail.map fun t => s.setNext t (some n)
  some { s with tail := some n, count := s.count + 1 }

/-- `LISTNODE_DETACH`. -/
def detach (s : Linklist δ) (n : ℕ) : Linklist δ :=
  let s := match s.prev n with
    | some p => s.setNext p (s.next n)
    | none => { s with head := s.next n }
  let s := match s.next n with
    | some q => s.setPrev q (s.prev n)
    | none => { s with tail := s.prev n }
  { s with count := s.count - 1 }

def add (new : ℕ) (val : δ) (s : Linklist δ) : Option (ℕ × Linklist δ) := do
  let s := s.listnodeNew new val
  let s := s.setPrev new s.tail
  let s ← if s.head = none then some { s with head := some new } else s.tail.map fun t => s.setNext t (some new)
  some (new, { s with tail := some new, count := s.count + 1 })

def addHead (new : ℕ) (val : δ) (s : Linklist δ) : Linklist δ :=
  let s := s.listnodeNew new val
  let s := s.setNext new s.head
  let s := match s.head with
    | none => { s with head := some new, tail := some new }
    | some h => s.setPrev h (some new)
  { s with head := some new, count := s.count + 1 }

/-- The loops of the sorted insertions: the first node from `n` on at whose data they stop. `none`: no end in sight. -/
def scan (s : Linklist δ) (stop : δ → Bool) : ℕ → Option ℕ → Option (Option ℕ)
  | 0, _ => none
  | _ + 1, none => some none
  | fuel + 1, some n => if stop (s.data n) then some (some n) else scan s stop fuel (s.next n)

/-- The body of the loops: `new` goes before `n`. -/
def insertBefore (s : Linklist δ) (new n : ℕ) : Linklist δ :=
  let s := s.setNext new (some n)
  let s := s.setPrev new (s.prev n)
  let s := match s.prev n with
    | some p => s.setNext p (some new)
    | none => { s with head := some new }
  let s := s.setPrev n (some new)
  { s with count := s.count + 1 }

def addSortNodup (cmp : Option (δ → δ → ℤ)) (new : ℕ) (val : δ) (s : Linklist δ) : Option (Bool × Linklist δ) :=
  let last := ((s.listnodeNew new val).attach new).map fun s => (true, s)
  match cmp with
  | none => last
  | some cmp => (s.scan (fun d => decide (cmp val d ≤ 0)) (s.count + 1) s.head).bind fun
    | none => last
    | some n =>
      if cmp val (s.data n) < 0 then some (true, (s.listnodeNew new val).insertBefore new n) else some (false, s)

/-- After the loop of `listnode_add_sort`. -/
def insertLast (s : Linklist δ) (new : ℕ) : Linklist δ :=
  let s := s.setPrev new s.tail
  let s := match s.tail with
    | some t => s.setNext t (some new)
    | none => { s with head := some new }
  { s with tail := some new, count := s.count + 1 }

def addSort (cmp : Option (δ → δ → ℤ)) (new : ℕ) (val : δ) (s : Linklist δ) : Option (Linklist δ) :=
  let s := s.listnodeNew new val
  match cmp with
  | none => some (s.insertLast new)
  | some cmp => (s.scan (fun d => decide (cmp val d < 0)) (s.count + 1) s.head).map fun
    | none => s.insertLast new
    | some n => s.insertBefore new n

def addAfter (pp : Option ℕ) (new : ℕ) (val : δ) (s : Linklist δ) : ℕ × Linklist δ :=
  let s := s.listnodeNew new val
  let s := match pp with
    | none =>
      let s := match s.head with
        | some h => s.setPrev h (some new)
        | none => { s with tail := some new }
      let s := s.setNext new s.head
      let s := s.setPrev new none
      { s with head := some new }
    | some p =>
      let s := match s.next p with
        | some q => s.setPrev q (some new)
        | none => { s with tail := some new }
      let s := s.setNext new (s.next p)
      let s := s.setPrev new (some p)
      s.setNext p (some new)
  (new, { s with count := s.count + 1 })

def addBefore (pp : Option ℕ) (new : ℕ) (val : δ) (s : Linklist δ) : ℕ × Linklist δ :=
  let s := s.listnodeNew new val
  let s := match pp with
    | none =>
      let s := match s.tail with
        | some t => s.setNext t (some new)
        | none => { s with head := some new }
      let s := s.setPrev new s.tail
      let s := s.setNext new none
      { s with tail := some new }
    | some p =>
      let s := match s.prev p with
        | some q => s.setNext q (some new)
        | none => { s with head := some new }
      let s := s.setPrev new (s.prev p)
      let s := s.setNext new (some p)
      s.setPrev p (some new)
  (new, { s with count := s.count + 1 })

def moveToTail (n : ℕ) (s : Linklist δ) : Option (Linklist δ) := (s.detach n).attach n

/-- `list_delete_node`; what it frees stays in the memory. -/
def deleteNode (node : ℕ) (s : Linklist δ) : Linklist δ := s.detach node

inductive Op (δ : Type*)
  | add (new : ℕ) (val : δ)
  | addHead (new : ℕ) (val : δ)
  | addSort (new : ℕ) (val : δ)
  | addSortNodup (new : ℕ) (val : δ)
  | addAfter (pp : Option ℕ) (new : ℕ) (val : δ)
  | addBefore (pp : Option ℕ) (new : ℕ) (val : δ)
  | moveToTail (n : ℕ)
  | deleteNode (node : ℕ)

def step (cmp : Option (δ → δ → ℤ)) (s : Linklist δ) : Op δ → Option (Linklist δ)
  | .add new val => (s.add new val).map Prod.snd
  | .addHead new val => some (s.addHead new val)
  | .addSort new val => s.addSort cmp new val
  | .addSortNodup new val => (s.addSortNodup cmp new val).map Prod.snd
  | .addAfter pp new val => some (s.addAfter pp new val).2
  | .addBefore pp new val => some (s.addBefore pp new val).2
  | .moveToTail n => s.moveToTail n
  | .deleteNode node => some (s.deleteNode node)

def nodes (s : Linklist δ) : List ℕ := chain s.next s.count s.head

/-- A new node is not in the list; an anchor and a node to be moved or deleted are. -/
def Valid (s : Linklist δ) : Op δ → Prop
  | .add new _ | .addHead new _ | .addSort new _ | .addSortNodup new _ => new ∉ s.nodes
  | .addAfter pp new _ | .addBefore pp new _ => new ∉ s.nodes ∧ ∀ p ∈ pp, p ∈ s.nodes
  | .moveToTail n | .deleteNode n => n ∈ s.nodes

instance decidableValid (s : Linklist δ) (o : Op δ) : Decidable (Valid s o) := by
  cases o <;> unfold Valid <;> infer_instance

/-! ## Sequences -/

/-- Where `p` stands. -/
def position (l : List (ℕ × δ)) (p : ℕ) : ℕ := l.findIdx fun e => e.1 = p

/-- Without `cmp` a new element comes after all the others. -/
def compare (cmp : Option (δ → δ → ℤ)) : δ → δ → ℤ := cmp.getD fun _ _ => 1

def sequenceStep (cmp : Option (δ → δ → ℤ)) (l : List (ℕ × δ)) : Op δ → List (ℕ × δ)
  | .add new val => l ++ [(new, val)]
  | .addHead new val => (new, val) :: l
  | .addSort new val => l.insertIdx (l.findIdx fun e => compare cmp val e.2 < 0) (new, val)
  | .addSortNodup new val =>
    let i := l.findIdx fun e => compare cmp val e.2 ≤ 0
    if l[i]?.any fun e => compare cmp val e.2 = 0 then l else l.insertIdx i (new, val)
  | .addAfter none new val => (new, val) :: l
  | .addAfter (some p) new val => l.insertIdx (position l p + 1) (new, val)
  | .addBefore none new val => l ++ [(new, val)]
  | .addBefore (some p) new val => l.insertIdx (position l p) (new, val)
  | .moveToTail n => l.eraseIdx (position l n) ++ l[position l n]?.toList
  | .deleteNode node => l.eraseIdx (position l node)

/-! ## The list in memory -/

/-- `new` between `p` and `n`. -/
def link (s : Linklist δ) (new : ℕ) (val : δ) (p n : Option ℕ) : Linklist δ where
  head := if p = none then some new else s.head
  tail := if n = none then some new else s.tail
  count := s.count + 1
  next a := if a = new then n else if p = some a then some new else s.next a
  prev a := if a = new then p else if n = some a then some new else s.prev a
  data := Function.update s.data new val

structure Holds (s : Linklist δ) (l : List (ℕ × δ)) : Prop where
  linked : Linked s.next s.prev (l.map Prod.fst)
  head : s.head = (l.map Prod.fst).head?
  tail : s.tail = (l.map Prod.fst).getLast?
  count : s.count = l.length
  data : ∀ e ∈ l, s.data e.1 = e.2

variable {s : Linklist δ} {l : List (ℕ × δ)} {new : ℕ} {val : δ} {cmp : Option (δ → δ → ℤ)}

theorem Holds.nodes_eq (h : Holds s l) : s.nodes = l.map Prod.fst := by
  have := h.linked.spells.chain_eq
  rwa [← h.head, List.length_map, ← h.count] at this

theorem Holds.link (h : Holds s l) (hnew : new ∉ l.map Prod.fst) {i : ℕ} (hi : i ≤ l.length) {p n : Option ℕ}
    (hp : p = pred (l.map Prod.fst) i) (hn : n = (l.map Prod.fst)[i]?) :
    Holds (s.link new val p n) (l.insertIdx i (new, val)) := by
  have hmap : (l.insertIdx i (new, val)).map Prod.fst = (l.map Prod.fst).insertIdx i new := List.map_insertIdx ..
  have hne : ∀ a ∈ l.map Prod.fst, a ≠ new := fun a ha he => hnew (he ▸ ha)
  constructor
  · rw [hmap]
    refine h.linked.insert hnew (by rwa [List.length_map]) ?_ ?_ ?_ ?_
    · exact (if_pos rfl).trans hn
    · exact (if_pos rfl).trans hp
    · intro a ha
      rw [← hp]
      exact if_neg (hne a ha)
    · intro a ha
      rw [← hn]
      exact if_neg (hne a ha)
  · rw [hmap, head?_insertIdx, ← h.head]
    have : p = none ↔ i = 0 := hp ▸ pred_eq_none (by rwa [List.length_map])
    simp only [Linklist.link, this]
  · rw [hmap, getLast?_insertIdx (by rwa [List.length_map]), ← h.tail, List.length_map]
    have : n = none ↔ i = l.length := by
      rw [hn, List.getElem?_eq_none_iff, List.length_map]
      omega
    simp only [Linklist.link, this]
  · rw [List.length_insertIdx_of_le_length hi, ← h.count, Linklist.link]
  · intro e he
    rcases (List.mem_insertIdx hi).mp he with rfl | he
    · exact Function.update_self ..
    · exact (Function.update_of_ne (hne e.1 (List.mem_map_of_mem he)) ..).trans (h.data e he)

theorem Holds.prev_mem (h : Holds s l) {n m : ℕ} (hn : n ∈ l.map Prod.fst) (hm : s.prev n = some m) : m ∈ l.map Prod.fst := by
  obtain ⟨i, hi⟩ := List.mem_iff_getElem?.mp hn
  rw [h.linked.prev i n hi] at hm
  cases i with
  | zero => cases hm
  | succ i => exact List.mem_of_getElem? hm

theorem Holds.head_mem (h : Holds s l) {n : ℕ} (hn : s.head = some n) : n ∈ l.map Prod.fst :=
  List.mem_of_head? (h.head ▸ hn)

theorem Holds.tail_mem (h : Holds s l) {n : ℕ} (hn : s.tail = some n) : n ∈ l.map Prod.fst :=
  List.mem_of_getLast? (h.tail ▸ hn)

theorem Holds.head_eq_none (h : Holds s l) : s.head = none ↔ s.tail = none := by
  rw [h.head, h.tail, List.head?_eq_none_iff, List.getLast?_eq_none_iff]

/-! ## The insertions link a node -/

theorem eq_link {t : Linklist δ} {p n : Option ℕ} (hhead : t.head = if p = none then some new else s.head)
    (htail : t.tail = if n = none then some new else s.tail) (hcount : t.count = s.count + 1)
    (hdata : t.data = Function.update s.data new val)
    (hnext : ∀ a, t.next a = if a = new then n else if p = some a then some new else s.next a)
    (hprev : ∀ a, t.prev a = if a = new then p else if n = some a then some new else s.prev a) : t = s.link new val p n :=
  Linklist.ext hhead htail hcount (funext hnext) (funext hprev) hdata

theorem add_eq (h : Holds s l) (hnew : new ∉ l.map Prod.fst) : s.add new val = some (new, s.link new val s.tail none) := by
  have hne : s.tail ≠ some new := fun ht => hnew (h.tail_mem ht)
  by_cases hhead : s.head = none
  · have htail := h.head_eq_none.mp hhead
    simp only [add, listnodeNew, setNext, setPrev, hhead, htail, if_true, Option.bind_eq_bind, Option.bind_some]
    refine congrArg (fun u => some (new, u)) (eq_link rfl rfl rfl rfl ?_ ?_) <;> grind [Function.update_apply]
  · obtain ⟨t, htail⟩ := Option.ne_none_iff_exists'.mp (mt h.head_eq_none.mpr hhead)
    simp only [add, listnodeNew, setNext, setPrev, hhead, htail, if_false, Option.map_some, Option.bind_eq_bind, Option.bind_some]
    refine congrArg (fun u => some (new, u)) (eq_link rfl rfl rfl rfl ?_ ?_) <;> grind [Function.update_apply]

theorem insertBefore_eq {n : ℕ} (hn : n ≠ new) (hp : s.prev n ≠ some new) :
    (s.listnodeNew new val).insertBefore new n = s.link new val (s.prev n) (some n) := by
  cases hprev : s.prev n with
  | none =>
    simp only [insertBefore, listnodeNew, setNext, setPrev, Function.update_of_ne hn, hprev]
    refine eq_link rfl rfl rfl rfl ?_ ?_ <;> grind [Function.update_apply]
  | some p =>
    simp only [insertBefore, listnodeNew, setNext, setPrev, Function.update_of_ne hn, hprev]
    refine eq_link rfl rfl rfl rfl ?_ ?_ <;> grind [Function.update_apply]

theorem attach_eq {n : ℕ} (hhead : s.head = none ↔ s.tail = none) (hne : s.tail ≠ some n) :
    s.attach n = some (s.link n (s.data n) s.tail none) := by
  have hdata : s.data = Function.update s.data n (s.data n) := (Function.update_eq_self n s.data).symm
  cases htail : s.tail with
  | none =>
    simp only [attach, setNext, setPrev, hhead.mpr htail, htail, if_true, Option.bind_eq_bind, Option.bind_some]
    refine congrArg some (eq_link rfl rfl rfl hdata ?_ ?_) <;> grind [Function.update_apply]
  | some t =>
    have hhead : s.head ≠ none := mt hhead.mp (by simp [htail])
    simp only [attach, setNext, setPrev, hhead, htail, if_false, Option.map_some, Option.bind_eq_bind, Option.bind_some]
    refine congrArg some (eq_link rfl rfl rfl hdata ?_ ?_) <;> grind [Function.update_apply]

theorem attach_listnodeNew (hhead : s.head = none ↔ s.tail = none) (hne : s.tail ≠ some new) :
    (s.listnodeNew new val).attach new = some (s.link new val s.tail none) := by
  have hdata : (s.listnodeNew new val).data new = val := Function.update_self ..
  have hattach : (s.listnodeNew new val).attach new = some ((s.listnodeNew new val).link new _ s.tail none) := attach_eq hhead hne
  rw [hattach, hdata]
  refine congrArg some (eq_link rfl rfl rfl (Function.update_idem ..) (fun a => ?_) fun a => ?_)
  · by_cases ha : a = new
    · simp only [link, ha, if_true]
    · simp only [link, ha, if_false, listnodeNew, setNext, setPrev, Function.update_of_ne ha]
  · by_cases ha : a = new
    · simp only [link, ha, if_true]
    · simp only [link, ha, if_false, listnodeNew, setNext, setPrev, Function.update_of_ne ha]

theorem insertLast_eq (hne : s.tail ≠ some new) : (s.listnodeNew new val).insertLast new = s.link new val s.tail none := by
  cases htail : s.tail with
  | none =>
    simp only [insertLast, listnodeNew, setNext, setPrev, htail]
    refine eq_link rfl rfl rfl rfl ?_ ?_ <;> grind [Function.update_apply]
  | some t =>
    simp only [insertLast, listnodeNew, setNext, setPrev, htail]
    refine eq_link rfl rfl rfl rfl ?_ ?_ <;> grind [Function.update_apply]

theorem addHead_eq (hne : s.head ≠ some new) : s.addHead new val = s.link new val none s.head := by
  cases hcase : s.head with
  | none =>
    simp only [addHead, listnodeNew, setNext, setPrev, hcase]
    refine eq_link rfl rfl rfl rfl ?_ ?_ <;> grind [Function.update_apply]
  | some p =>
    simp only [addHead, listnodeNew, setNext, setPrev, hcase]
    refine eq_link rfl rfl rfl rfl ?_ ?_ <;> grind [Function.update_apply]

theorem addAfter_none_eq : s.addAfter none new val = (new, s.link new val none s.head) := by
  cases hcase : s.head with
  | none =>
    simp only [addAfter, listnodeNew, setNext, setPrev, hcase]
    refine congrArg (Prod.mk new) (eq_link rfl rfl rfl rfl ?_ ?_) <;> grind [Function.update_apply]
  | some p =>
    simp only [addAfter, listnodeNew, setNext, setPrev, hcase]
    refine congrArg (Prod.mk new) (eq_link rfl rfl rfl rfl ?_ ?_) <;> grind [Function.update_apply]

theorem addAfter_some_eq {p : ℕ} (hp : p ≠ new) :
    s.addAfter (some p) new val = (new, s.link new val (some p) (s.next p)) := by
  cases hcase : s.next p with
  | none =>
    simp only [addAfter, listnodeNew, setNext, setPrev, Function.update_of_ne hp, hcase]
    refine congrArg (Prod.mk new) (eq_link rfl rfl rfl rfl ?_ ?_) <;> grind [Function.update_apply]
  | some q =>
    simp only [addAfter, listnodeNew, setNext, setPrev, Function.update_of_ne hp, hcase]
    refine congrArg (Prod.mk new) (eq_link rfl rfl rfl rfl ?_ ?_) <;> grind [Function.update_apply]

theorem addBefore_none_eq : s.addBefore none new val = (new, s.link new val s.tail none) := by
  cases hcase : s.tail with
  | none =>
    simp only [addBefore, listnodeNew, setNext, setPrev, hcase]
    refine congrArg (Prod.mk new) (eq_link rfl rfl rfl rfl ?_ ?_) <;> grind [Function.update_apply]
  | some p =>
    simp only [addBefore, listnodeNew, setNext, setPrev, hcase]
    refine congrArg (Prod.mk new) (eq_link rfl rfl rfl rfl ?_ ?_) <;> grind [Function.update_apply]

theorem addBefore_some_eq {p : ℕ} (hp : p ≠ new) :
    s.addBefore (some p) new val = (new, s.link new val (s.prev p) (some p)) := by
  cases hcase : s.prev p with
  | none =>
    simp only [addBefore, listnodeNew, setNext, setPrev, Function.update_of_ne hp, hcase]
    refine congrArg (Prod.mk new) (eq_link rfl rfl rfl rfl ?_ ?_) <;> grind [Function.update_apply]
  | some q =>
    simp only [addBefore, listnodeNew, setNext, setPrev, Function.update_of_ne hp, hcase]
    refine congrArg (Prod.mk new) (eq_link rfl rfl rfl rfl ?_ ?_) <;> grind [Function.update_apply]

/-! ## A node is taken out -/

theorem detach_eq {n : ℕ} (hp : s.prev n ≠ some n) : s.detach n =
    { head := if s.prev n = none then s.next n else s.head
      tail := if s.next n = none then s.prev n else s.tail
      count := s.count - 1
      next := fun a => if s.prev n = some a then s.next n else s.next a
      prev := fun a => if s.next n = some a then s.prev n else s.prev a
      data := s.data } := by
  cases hprev : s.prev n with
  | none =>
    cases hnext : s.next n with
    | none =>
      simp only [detach, hprev, hnext]
      refine Linklist.ext rfl rfl rfl ?_ ?_ rfl <;> funext a <;> grind [Function.update_apply]
    | some q =>
      simp only [detach, setPrev, hprev, hnext]
      refine Linklist.ext rfl rfl rfl ?_ ?_ rfl <;> funext a <;> grind [Function.update_apply]
  | some p =>
    have hne : n ≠ p := fun he => hp (he ▸ hprev)
    cases hnext : s.next n with
    | none =>
      simp only [detach, setNext, hprev, Function.update_of_ne hne, hnext]
      refine Linklist.ext rfl rfl rfl ?_ ?_ rfl <;> funext a <;> grind [Function.update_apply]
    | some q =>
      simp only [detach, setNext, setPrev, hprev, Function.update_of_ne hne, hnext]
      refine Linklist.ext rfl rfl rfl ?_ ?_ rfl <;> funext a <;> grind [Function.update_apply]

theorem detach_data (s : Linklist δ) (n : ℕ) : (s.detach n).data = s.data := by
  unfold detach
  dsimp only
  split <;> split <;> rfl

theorem Holds.detach (h : Holds s l) {i n : ℕ} (hi : (l.map Prod.fst)[i]? = some n) :
    Holds (s.detach n) (l.eraseIdx i) := by
  have hlt := (List.getElem?_eq_some_iff.mp hi).1
  have hmap : (l.eraseIdx i).map Prod.fst = (l.map Prod.fst).eraseIdx i := (List.eraseIdx_map ..).symm
  have hprev := h.linked.prev i n hi
  have hnext := h.linked.next i n hi
  have hself : s.prev n ≠ some n := by
    rw [hprev, Ne, pred_eq_some h.linked.nodup hi]
    omega
  rw [detach_eq hself]
  constructor
  · rw [hmap]
    refine h.linked.erase hi ?_ ?_ <;> intro a _ _ <;> simp only [hprev, hnext]
  · have : s.prev n = none ↔ i = 0 := hprev ▸ pred_eq_none (Nat.le_of_lt hlt)
    simp only [hmap, head?_eraseIdx, this, ← h.head, hnext]
    split_ifs with hz
    · rw [hz]
    · rfl
  · have : s.next n = none ↔ i + 1 = (l.map Prod.fst).length := by
      rw [hnext, List.getElem?_eq_none_iff]
      omega
    simp only [hmap, getLast?_eraseIdx hlt, this, ← h.tail, hprev]
  · rw [List.length_map] at hlt
    rw [List.length_eraseIdx_of_lt hlt, h.count]
  · intro e he
    exact h.data e (List.mem_of_mem_eraseIdx he)

/-! ## The sorted insertions -/

theorem scan_eq {stop : δ → Bool} {p : Option ℕ} {fuel : ℕ} (hp : Spells s.next p (l.map Prod.fst))
    (hdata : ∀ e ∈ l, s.data e.1 = e.2) (hfuel : l.length < fuel) :
    s.scan stop fuel p = some ((l.find? fun e => stop e.2).map Prod.fst) := by
  induction l generalizing p fuel with
  | nil =>
    cases hp
    obtain ⟨fuel, rfl⟩ : ∃ k, fuel = k + 1 := ⟨fuel - 1, by simp at hfuel; omega⟩
    rfl
  | cons e l ih =>
    obtain ⟨rfl, hp⟩ := hp
    obtain ⟨fuel, rfl⟩ : ∃ k, fuel = k + 1 := ⟨fuel - 1, by omega⟩
    rw [scan, hdata e List.mem_cons_self, List.find?_cons]
    cases hstop : stop e.2 with
    | true => rfl
    | false =>
      exact ih hp (fun e he => hdata e (List.mem_cons_of_mem _ he)) (Nat.lt_of_succ_lt_succ hfuel)

theorem Holds.scan_eq (h : Holds s l) (stop : δ → Bool) :
    s.scan stop (s.count + 1) s.head = some (l.map Prod.fst)[l.findIdx fun e => stop e.2]? := by
  rw [Linklist.scan_eq (h.head ▸ h.linked.spells) h.data (by rw [h.count]; exact Nat.lt_succ_self _),
    List.find?_eq_getElem?_findIdx, List.getElem?_map]

theorem Holds.listnodeNew (h : Holds s l) (hnew : new ∉ l.map Prod.fst) : Holds (s.listnodeNew new val) l := by
  have hne : ∀ a ∈ l.map Prod.fst, a ≠ new := fun a ha he => hnew (he ▸ ha)
  refine ⟨⟨h.linked.nodup, ?_, ?_⟩, h.head, h.tail, h.count, ?_⟩
  · intro i a hi
    exact (Function.update_of_ne (hne a (List.mem_of_getElem? hi)) ..).trans (h.linked.next i a hi)
  · intro i a hi
    exact (Function.update_of_ne (hne a (List.mem_of_getElem? hi)) ..).trans (h.linked.prev i a hi)
  · intro e he
    exact (Function.update_of_ne (hne e.1 (List.mem_map_of_mem he)) ..).trans (h.data e he)

theorem Holds.insertBefore (h : Holds s l) (hnew : new ∉ l.map Prod.fst) {i n : ℕ} (hi : (l.map Prod.fst)[i]? = some n) :
    Holds ((s.listnodeNew new val).insertBefore new n) (l.insertIdx i (new, val)) := by
  have hn := List.mem_of_getElem? hi
  have hlt := (List.getElem?_eq_some_iff.mp hi).1
  rw [List.length_map] at hlt
  rw [insertBefore_eq (by rintro rfl; exact hnew hn) fun hp => hnew (h.prev_mem hn hp)]
  exact h.link hnew (Nat.le_of_lt hlt) (h.linked.prev i n hi) hi.symm

theorem Holds.linkLast (h : Holds s l) (hnew : new ∉ l.map Prod.fst) :
    Holds (s.link new val s.tail none) (l ++ [(new, val)]) := by
  rw [← List.insertIdx_length_self]
  refine h.link hnew le_rfl ?_ ?_
  · rw [h.tail, ← pred_length, List.length_map]
  · rw [List.getElem?_eq_none (by rw [List.length_map])]

theorem Holds.linkFirst (h : Holds s l) (hnew : new ∉ l.map Prod.fst) :
    Holds (s.link new val none s.head) ((new, val) :: l) :=
  h.link hnew (Nat.zero_le _) rfl (h.head.trans List.head?_eq_getElem?)

theorem Holds.tail_ne (h : Holds s l) (hnew : new ∉ l.map Prod.fst) : s.tail ≠ some new := fun ht => hnew (h.tail_mem ht)

theorem addSort_holds (h : Holds s l) (hnew : new ∉ l.map Prod.fst) :
    ∃ t, s.addSort cmp new val = some t ∧ Holds t (sequenceStep cmp l (.addSort new val)) := by
  have hlast : Holds ((s.listnodeNew new val).insertLast new) (l ++ [(new, val)]) := by
    rw [insertLast_eq (h.tail_ne hnew)]
    exact h.linkLast hnew
  cases cmp with
  | none =>
    refine ⟨_, rfl, ?_⟩
    have hidx : (l.findIdx fun e => compare none val e.2 < 0) = l.length :=
      List.findIdx_eq_length_of_false fun e _ => by simp [compare]
    rw [sequenceStep, hidx, List.insertIdx_length_self]
    exact hlast
  | some cmp =>
    have hnewnode : Holds (s.listnodeNew new val) l := h.listnodeNew hnew
    have hscan := hnewnode.scan_eq fun d => decide (cmp val d < 0)
    have hle : (l.findIdx fun e => cmp val e.2 < 0) ≤ l.length := List.findIdx_le_length
    cases hfound : (l.map Prod.fst)[l.findIdx fun e => cmp val e.2 < 0]? with
    | none =>
      rw [hfound] at hscan
      refine ⟨_, congrArg (Option.map _) hscan, ?_⟩
      rw [List.getElem?_eq_none_iff, List.length_map] at hfound
      have hidx : (l.findIdx fun e => compare (some cmp) val e.2 < 0) = l.length := Nat.le_antisymm hle hfound
      rw [sequenceStep, hidx, List.insertIdx_length_self]
      exact hlast
    | some n =>
      rw [hfound] at hscan
      exact ⟨_, congrArg (Option.map _) hscan, h.insertBefore hnew hfound⟩

theorem addSortNodup_holds (h : Holds s l) (hnew : new ∉ l.map Prod.fst) :
    ∃ b t, s.addSortNodup cmp new val = some (b, t) ∧ Holds t (sequenceStep cmp l (.addSortNodup new val)) ∧
      (b = false ↔ l[l.findIdx fun e => compare cmp val e.2 ≤ 0]?.any fun e => compare cmp val e.2 = 0) := by
  have hattach : (s.listnodeNew new val).attach new = some (s.link new val s.tail none) :=
    attach_listnodeNew h.head_eq_none (h.tail_ne hnew)
  cases cmp with
  | none =>
    have hidx : (l.findIdx fun e => compare none val e.2 ≤ 0) = l.length :=
      List.findIdx_eq_length_of_false fun e _ => by simp [compare]
    refine ⟨_, _, congrArg (Option.map _) hattach, ?_, ?_⟩
    · simp only [sequenceStep, hidx, List.getElem?_eq_none le_rfl, Option.any_none, Bool.false_eq_true, if_false,
        List.insertIdx_length_self]
      exact h.linkLast hnew
    · simp [hidx]
  | some cmp =>
    have hscan := h.scan_eq fun d => decide (compare (some cmp) val d ≤ 0)
    have hle : (l.findIdx fun e => compare (some cmp) val e.2 ≤ 0) ≤ l.length := List.findIdx_le_length
    cases hfound : l[l.findIdx fun e => compare (some cmp) val e.2 ≤ 0]? with
    | none =>
      rw [List.getElem?_map, hfound] at hscan
      refine ⟨true, _, ((congrArg (Option.bind · _) hscan).trans (congrArg (Option.map _) hattach)), ?_, by simp⟩
      have hidx := Nat.le_antisymm hle (List.getElem?_eq_none_iff.mp hfound)
      simp only [sequenceStep, hidx, List.getElem?_eq_none le_rfl, Option.any_none, Bool.false_eq_true, if_false,
        List.insertIdx_length_self]
      exact h.linkLast hnew
    | some e =>
      rw [List.getElem?_map, hfound] at hscan
      have hstop : compare (some cmp) val e.2 ≤ 0 := by simpa using List.findIdx_of_getElem?_eq_some hfound
      have hdata : s.data e.1 = e.2 := h.data e (List.mem_of_getElem? hfound)
      have hrun : s.addSortNodup (some cmp) new val = if compare (some cmp) val e.2 < 0 then
          some (true, (s.listnodeNew new val).insertBefore new e.1) else some (false, s) := by
        rw [← hdata]
        exact congrArg (Option.bind · _) hscan
      simp only [sequenceStep, hfound, Option.any_some, decide_eq_true_eq]
      rcases Int.lt_or_eq_of_le hstop with hlt | heq
      · refine ⟨true, _, hrun.trans (if_pos hlt), ?_, by simp [Int.ne_of_lt hlt]⟩
        rw [if_neg (Int.ne_of_lt hlt)]
        exact h.insertBefore hnew (by rw [List.getElem?_map, hfound, Option.map_some])
      · refine ⟨false, s, hrun.trans (if_neg (by omega)), ?_, by simp [heq]⟩
        rw [if_pos heq]
        exact h

theorem getElem?_position {p : ℕ} (hp : p ∈ l.map Prod.fst) : (l.map Prod.fst)[position l p]? = some p := by
  obtain ⟨e, he, rfl⟩ := List.mem_map.mp hp
  have hlt : position l e.1 < l.length := List.findIdx_lt_length_of_exists ⟨e, he, by simp⟩
  rw [List.getElem?_map, List.getElem?_eq_getElem hlt, Option.map_some]
  exact congrArg some (of_decide_eq_true (List.findIdx_getElem (w := hlt)))

theorem step_holds (h : Holds s l) {o : Op δ} (hvalid : Valid s o) :
    ∃ t, step cmp s o = some t ∧ Holds t (sequenceStep cmp l o) := by
  have hnodes := h.nodes_eq
  cases o with
  | add new val =>
    have hnew : new ∉ l.map Prod.fst := hnodes ▸ hvalid
    exact ⟨_, congrArg (Option.map Prod.snd) (add_eq h hnew), h.linkLast hnew⟩
  | addHead new val =>
    have hnew : new ∉ l.map Prod.fst := hnodes ▸ hvalid
    refine ⟨_, rfl, ?_⟩
    rw [addHead_eq fun hc => hnew (h.head_mem hc)]
    exact h.linkFirst hnew
  | addSort new val => exact addSort_holds h (hnodes ▸ hvalid)
  | addSortNodup new val =>
    have hnew : new ∉ l.map Prod.fst := hnodes ▸ hvalid
    obtain ⟨b, t, ht, hholds, -⟩ := addSortNodup_holds h hnew
    exact ⟨t, congrArg (Option.map Prod.snd) ht, hholds⟩
  | addAfter pp new val =>
    have hnew : new ∉ l.map Prod.fst := hnodes ▸ hvalid.1
    refine ⟨_, rfl, ?_⟩
    cases pp with
    | none =>
      rw [addAfter_none_eq]
      exact h.linkFirst hnew
    | some p =>
      have hp : p ∈ l.map Prod.fst := hnodes ▸ hvalid.2 p rfl
      have hpos := getElem?_position hp
      have hlt := (List.getElem?_eq_some_iff.mp hpos).1
      rw [List.length_map] at hlt
      rw [addAfter_some_eq (by rintro rfl; exact hnew hp)]
      exact h.link hnew hlt hpos.symm (h.linked.next _ p hpos)
  | addBefore pp new val =>
    have hnew : new ∉ l.map Prod.fst := hnodes ▸ hvalid.1
    refine ⟨_, rfl, ?_⟩
    cases pp with
    | none =>
      rw [addBefore_none_eq]
      exact h.linkLast hnew
    | some p =>
      have hp : p ∈ l.map Prod.fst := hnodes ▸ hvalid.2 p rfl
      have hpos := getElem?_position hp
      have hlt := (List.getElem?_eq_some_iff.mp hpos).1
      rw [List.length_map] at hlt
      rw [addBefore_some_eq (by rintro rfl; exact hnew hp)]
      exact h.link hnew (Nat.le_of_lt hlt) (h.linked.prev _ p hpos) hpos.symm
  | moveToTail n =>
    have hpos := getElem?_position (hnodes ▸ hvalid : n ∈ l.map Prod.fst)
    have hout : n ∉ (l.eraseIdx (position l n)).map Prod.fst := by
      rw [← List.eraseIdx_map]
      intro hmem
      obtain ⟨j, hj, hne⟩ := List.mem_eraseIdx_iff_getElem?.mp hmem
      exact hj (Nodup.index_eq h.linked.nodup hne hpos)
    have hdetach := h.detach hpos
    refine ⟨_, attach_eq hdetach.head_eq_none (hdetach.tail_ne hout), ?_⟩
    have hlast : Holds ((s.detach n).link n ((s.detach n).data n) (s.detach n).tail none) _ := hdetach.linkLast hout
    rw [List.getElem?_map, Option.map_eq_some_iff] at hpos
    obtain ⟨e, he, rfl⟩ := hpos
    have hdata : (s.detach e.1).data e.1 = e.2 := (congrFun (detach_data s e.1) e.1).trans (h.data e (List.mem_of_getElem? he))
    rw [sequenceStep, he]
    rwa [hdata] at hlast ⊢
  | deleteNode node => exact ⟨_, rfl, h.detach (getElem?_position (hnodes ▸ hvalid))⟩

end Linklist
end Yjc
