import Yjc.Container.HeapOrder
import Yjc.Lib.DoubleLinks
import Mathlib.Logic.Function.Basic

/-! `container/heap.h`: the heap as nodes that are linked to their parent and children. Nodes are addresses; the links of
all nodes are part of the state. A step through a null pointer, or a failed assertion, is `none`. -/

namespace Yjc

@[ext]
structure HeapNodes where
  root : Option ℕ
  nelts : ℕ
  parent : ℕ → Option ℕ
  left : ℕ → Option ℕ
  right : ℕ → Option ℕ

namespace HeapNodes

def init (parent left right : ℕ → Option ℕ) : HeapNodes := ⟨none, 0, parent, left, right⟩

def setParent (h : HeapNodes) (n : ℕ) (p : Option ℕ) : HeapNodes := { h with parent := Function.update h.parent n p }

def setLeft (h : HeapNodes) (n : ℕ) (p : Option ℕ) : HeapNodes := { h with left := Function.update h.left n p }

def setRight (h : HeapNodes) (n : ℕ) (p : Option ℕ) : HeapNodes := { h with right := Function.update h.right n p }

/-- The link to `s`, from its parent or the root, goes to `r`. -/
def relink (h : HeapNodes) (parent : Option ℕ) (s : ℕ) (r : Option ℕ) : HeapNodes :=
  match parent with
  | none => { h with root := r }
  | some p => if h.left p = some s then h.setLeft p r else if h.right p = some s then h.setRight p r else h

/-- `if (c) c->parent = p`. -/
def adopt (h : HeapNodes) (c p : Option ℕ) : HeapNodes :=
  match c with
  | none => h
  | some c => h.setParent c p

def replace (h : HeapNodes) (s : ℕ) (r : Option ℕ) : HeapNodes :=
  let h := h.relink (h.parent s) s r
  let h := h.adopt (h.left s) r
  let h := h.adopt (h.right s) r
  match r with
  | none => h
  | some r =>
    let h := h.setParent r (h.parent s)
    let h := h.setLeft r (h.left s)
    h.setRight r (h.right s)

def swap (h : HeapNodes) (parent child : ℕ) : Option HeapNodes :=
  if h.parent child = some parent ∧ (h.left parent = some child ∨ h.right parent = some child) then
    let pparent := h.parent parent
    let lchild := h.left child
    let rchild := h.right child
    let h := h.relink pparent parent (some child)
    let h := h.adopt lchild (some parent)
    let h := h.adopt rchild (some parent)
    let h := h.setParent child pparent
    let onLeft := h.left parent = some child
    let sibling := if onLeft then h.right parent else h.left parent
    let h := h.setLeft child (if onLeft then some parent else sibling)
    let h := h.setRight child (if onLeft then sibling else some parent)
    let h := h.adopt sibling (some child)
    let h := h.setParent parent (some child)
    let h := h.setLeft parent lchild
    some (h.setRight parent rchild)
  else none

/-- The path to position `n`, its first turn in the lowest bit, and its length. The fuel is more than the loop needs. -/
def pathLoop : ℕ → ℕ → ℕ → ℕ → ℕ × ℕ
  | 0, _, d, path => (d, path)
  | fuel + 1, n, d, path => if 2 ≤ n then pathLoop fuel (n / 2) (d + 1) (2 * path + n % 2) else (d, path)

def descend (h : HeapNodes) : ℕ → ℕ → Option ℕ → Option (Option ℕ × ℕ)
  | d + 2, path, parent =>
    parent.bind fun p => descend h (d + 1) (path / 2) (if path % 2 = 1 then h.right p else h.left p)
  | _, path, parent => some (parent, path)

/-- `while (node->parent && heap->compare(node, node->parent))`. `none`: no end in sight. -/
def siftUp (compare : ℕ → ℕ → Bool) (node : ℕ) : ℕ → HeapNodes → Option HeapNodes
  | 0, _ => none
  | fuel + 1, h =>
    match h.parent node with
    | none => some h
    | some p => if compare node p then (h.swap p node).bind (siftUp compare node fuel) else some h

def est (compare : ℕ → ℕ → Bool) (h : HeapNodes) (v : ℕ) : ℕ :=
  let pick := fun e c =>
    match c with
    | none => e
    | some c => if compare e c then e else c
  pick (pick v (h.left v)) (h.right v)

def siftDown (compare : ℕ → ℕ → Bool) (v : ℕ) : ℕ → HeapNodes → Option HeapNodes
  | 0, _ => none
  | fuel + 1, h => if est compare h v = v then some h else (h.swap v (est compare h v)).bind (siftDown compare v fuel)

def insert (compare : Option (ℕ → ℕ → Bool)) (node : ℕ) (h : HeapNodes) : Option HeapNodes := do
  let h := { h with nelts := h.nelts + 1 }
  let (d, path) := pathLoop h.nelts h.nelts 0 0
  let (parent, path) ← h.descend d path h.root
  let h := h.setParent node parent
  let h := match parent with
    | none => { h with root := some node }
    | some p => if path % 2 = 1 then h.setRight p (some node) else h.setLeft p (some node)
  match compare with
  | none => some h
  | some compare => h.siftUp compare node (h.nelts + 1)

def remove (compare : Option (ℕ → ℕ → Bool)) (node : Option ℕ) (h : HeapNodes) : Option HeapNodes :=
  if h.nelts = 0 then some h
  else do
    let (d, path) := pathLoop h.nelts h.nelts 0 0
    let h := { h with nelts := h.nelts - 1 }
    let (parent, path) ← h.descend d path h.root
    match parent with
    | none => some h
    | some p =>
      let last := if path % 2 = 1 then h.right p else h.left p
      let h := if path % 2 = 1 then h.setRight p none else h.setLeft p none
      match last with
      | none => some (if h.root = node then { h with root := none } else h)
      | some last => do
        let node ← node
        let h := h.replace node (some last)
        let h := ((h.setParent node none).setLeft node none).setRight node none
        match compare with
        | none => some h
        | some compare => do
          let h ← h.siftDown compare last (h.nelts + 1)
          h.siftUp compare last (h.nelts + 1)

def dequeue (compare : Option (ℕ → ℕ → Bool)) (h : HeapNodes) : Option HeapNodes := h.remove compare h.root

/-! ## The nodes by positions -/

/-- The nodes of the heap in the order of their levels: the children of the one at `i` are at `2i + 1` and `2i + 2`. -/
structure Shape (h : HeapNodes) (l : List ℕ) : Prop where
  nodup : l.Nodup
  nelts : h.nelts = l.length
  root : h.root = l[0]?
  parent : ∀ i a, l[i]? = some a → h.parent a = if i = 0 then none else l[(i - 1) / 2]?
  left : ∀ i a, l[i]? = some a → h.left a = l[2 * i + 1]?
  right : ∀ i a, l[i]? = some a → h.right a = l[2 * i + 2]?

/-- The links of `a` are as they were. -/
def SameLinks (h h' : HeapNodes) (a : ℕ) : Prop := h'.parent a = h.parent a ∧ h'.left a = h.left a ∧ h'.right a = h.right a

variable {h : HeapNodes} {l : List ℕ} {a n s p c i j : ℕ} {q r : Option ℕ}

theorem SameLinks.trans {h' h'' : HeapNodes} (h₁ : SameLinks h h' a) (h₂ : SameLinks h' h'' a) : SameLinks h h'' a :=
  ⟨h₂.1.trans h₁.1, h₂.2.1.trans h₁.2.1, h₂.2.2.trans h₁.2.2⟩

theorem Shape.congr {h' : HeapNodes} (hs : Shape h l) (hnelts : h'.nelts = h.nelts) (hroot : h'.root = h.root)
    (hsame : ∀ a ∈ l, SameLinks h h' a) : Shape h' l :=
  ⟨hs.nodup, hnelts.trans hs.nelts, hroot.trans hs.root,
    fun i a hi => (hsame a (List.mem_of_getElem? hi)).1.trans (hs.parent i a hi),
    fun i a hi => (hsame a (List.mem_of_getElem? hi)).2.1.trans (hs.left i a hi),
    fun i a hi => (hsame a (List.mem_of_getElem? hi)).2.2.trans (hs.right i a hi)⟩

theorem Shape.links_mem (hs : Shape h l) {x : ℕ} (hx : x ∈ l) (h : h.parent x = some a ∨ h.left x = some a ∨ h.right x = some a) :
    a ∈ l := by
  obtain ⟨i, hi⟩ := List.mem_iff_getElem?.mp hx
  rw [hs.parent i x hi, hs.left i x hi, hs.right i x hi] at h
  rcases h with h | h | h
  · split_ifs at h
    exact List.mem_of_getElem? h
  · exact List.mem_of_getElem? h
  · exact List.mem_of_getElem? h

@[simp] theorem setParent_root : (h.setParent n q).root = h.root := rfl
@[simp] theorem setParent_nelts : (h.setParent n q).nelts = h.nelts := rfl
@[simp] theorem setParent_parent : (h.setParent n q).parent a = if a = n then q else h.parent a := Function.update_apply ..
@[simp] theorem setParent_left : (h.setParent n q).left = h.left := rfl
@[simp] theorem setParent_right : (h.setParent n q).right = h.right := rfl
@[simp] theorem setLeft_root : (h.setLeft n q).root = h.root := rfl
@[simp] theorem setLeft_nelts : (h.setLeft n q).nelts = h.nelts := rfl
@[simp] theorem setLeft_parent : (h.setLeft n q).parent = h.parent := rfl
@[simp] theorem setLeft_left : (h.setLeft n q).left a = if a = n then q else h.left a := Function.update_apply ..
@[simp] theorem setLeft_right : (h.setLeft n q).right = h.right := rfl
@[simp] theorem setRight_root : (h.setRight n q).root = h.root := rfl
@[simp] theorem setRight_nelts : (h.setRight n q).nelts = h.nelts := rfl
@[simp] theorem setRight_parent : (h.setRight n q).parent = h.parent := rfl
@[simp] theorem setRight_left : (h.setRight n q).left = h.left := rfl
@[simp] theorem setRight_right : (h.setRight n q).right a = if a = n then q else h.right a := Function.update_apply ..

@[simp] theorem adopt_root : (h.adopt q r).root = h.root := by cases q <;> rfl
@[simp] theorem adopt_nelts : (h.adopt q r).nelts = h.nelts := by cases q <;> rfl
@[simp] theorem adopt_left : (h.adopt q r).left = h.left := by cases q <;> rfl
@[simp] theorem adopt_right : (h.adopt q r).right = h.right := by cases q <;> rfl

@[simp]
theorem adopt_parent : (h.adopt q r).parent a = if q = some a then r else h.parent a := by
  cases q with
  | none => rfl
  | some c => simp only [adopt, setParent_parent, Option.some.injEq, eq_comm]

@[simp]
theorem relink_root : (h.relink q s r).root = if q = none then r else h.root := by
  cases q with
  | none => rfl
  | some p =>
    unfold relink
    dsimp only
    split_ifs <;> simp_all

@[simp]
theorem relink_nelts : (h.relink q s r).nelts = h.nelts := by
  unfold relink
  split
  · rfl
  · split_ifs <;> rfl

@[simp]
theorem relink_parent : (h.relink q s r).parent = h.parent := by
  unfold relink
  split
  · rfl
  · split_ifs <;> rfl

@[simp]
theorem relink_left : (h.relink q s r).left a = if q = some a ∧ h.left a = some s then r else h.left a := by
  unfold relink
  split
  · simp
  · split_ifs <;> grind [setLeft_left, setRight_left]

@[simp]
theorem relink_right :
    (h.relink q s r).right a = if q = some a ∧ h.left a ≠ some s ∧ h.right a = some s then r else h.right a := by
  unfold relink
  split
  · simp
  · split_ifs <;> grind [setRight_right, setLeft_right]

theorem getElem?_swap (hi : l[i]? = some p) (hj : l[j]? = some c) (k : ℕ) :
    (Heap.swap l j i)[k]? = if k = i then l[j]? else if k = j then l[i]? else l[k]? := by
  rw [Heap.getElem?_swap (List.getElem?_eq_some_iff.mp hj).1 (List.getElem?_eq_some_iff.mp hi).1, Equiv.swap_apply_def]
  split_ifs <;> simp_all

def sibling (h : HeapNodes) (p c : ℕ) : Option ℕ := if h.left p = some c then h.right p else h.left p

/-- `h'` is `h` with the node `p` and its child `c` in each other's place. -/
structure Swapped (h h' : HeapNodes) (p c : ℕ) : Prop where
  nelts : h'.nelts = h.nelts
  root : h'.root = if h.parent p = none then some c else h.root
  parent : ∀ a, h'.parent a = if a = p then some c else if h.sibling p c = some a then some c else if a = c then h.parent p
    else if h.right c = some a then some p else if h.left c = some a then some p else h.parent a
  left : ∀ a, h'.left a = if a = p then h.left c else if a = c then if h.left p = some c then some p else h.left p
    else if h.parent p = some a ∧ h.left a = some p then some c else h.left a
  right : ∀ a, h'.right a = if a = p then h.right c else if a = c then if h.left p = some c then h.right p else some p
    else if h.parent p = some a ∧ h.left a ≠ some p ∧ h.right a = some p then some c else h.right a

theorem swap_eq (hassert : h.parent c = some p ∧ (h.left p = some c ∨ h.right p = some c)) (hself : h.parent p ≠ some p) :
    ∃ h', h.swap p c = some h' ∧ Swapped h h' p c := by
  refine ⟨_, if_pos hassert, ?_⟩
  by_cases honleft : h.left p = some c <;> constructor <;> simp [hself, sibling, honleft]

theorem swap_cases (hnodup : l.Nodup) (hi : l[i]? = some p) (hj : l[j]? = some c) {k : ℕ} (hk : (Heap.swap l j i)[k]? = some a) :
    (k = i ∧ a = c) ∨ (k = j ∧ a = p) ∨ (l[k]? = some a ∧ k ≠ i ∧ k ≠ j ∧ a ≠ p ∧ a ≠ c) := by
  rw [getElem?_swap hi hj] at hk
  split_ifs at hk with hki hkj
  · exact .inl ⟨hki, Option.some.inj (hk.symm.trans hj)⟩
  · exact .inr (.inl ⟨hkj, Option.some.inj (hk.symm.trans hi)⟩)
  · refine .inr (.inr ⟨hk, hki, hkj, ?_, ?_⟩)
    · rintro rfl
      exact hki ((Links.getElem?_eq_some hnodup hi).mp hk)
    · rintro rfl
      exact hkj ((Links.getElem?_eq_some hnodup hj).mp hk)

theorem Shape.index_eq (hs : Shape h l) {k : ℕ} (hk : l[k]? = some a) (x : ℕ) : l[x]? = some a ↔ x = k :=
  Links.getElem?_eq_some hs.nodup hk

theorem Shape.ne_parent (hs : Shape h l) (hi : l[i]? = some p) (hj : l[j]? = some c) (hij : (j - 1) / 2 = i) (hzero : j ≠ 0) : c ≠ p := by
  rintro rfl
  have := (hs.index_eq hi j).mp hj
  omega

section
variable {h' : HeapNodes} (hs : Shape h l) (hsw : Swapped h h' p c) (hi : l[i]? = some p) (hj : l[j]? = some c) (hzero : j ≠ 0)
include hs hsw hi hj hzero

theorem Shape.swapped_root : h'.root = (Heap.swap l j i)[0]? := by
  rw [hsw.root, getElem?_swap hi hj, hs.root, hs.parent i p hi]
  by_cases hiz : i = 0
  · rw [if_pos hiz, if_pos rfl, if_pos hiz.symm, hj]
  · have hup : l[(i - 1) / 2]? ≠ none := by
      have hlt := (List.getElem?_eq_some_iff.mp hi).1
      rw [Ne, List.getElem?_eq_none_iff]
      omega
    rw [if_neg hiz, if_neg hup, if_neg (Ne.symm hiz), if_neg (Ne.symm hzero)]

variable (hij : (j - 1) / 2 = i)
include hij

theorem Shape.swapped_parent (k a : ℕ) (hk : (Heap.swap l j i)[k]? = some a) :
    h'.parent a = if k = 0 then none else (Heap.swap l j i)[(k - 1) / 2]? := by
  have hne := hs.ne_parent hi hj hij hzero
  have hleft := hs.left i p hi
  have hright := hs.right i p hi
  rw [hsw.parent]
  obtain ⟨rfl, rfl⟩ | ⟨rfl, rfl⟩ | ⟨hk, hki, hkj, hap, hac⟩ := swap_cases hs.nodup hi hj hk
  · have hsib : h.sibling p a ≠ some a := by
      simp only [sibling, hleft, hright, hs.index_eq hj]
      split_ifs <;> rw [Ne, hs.index_eq hj] <;> omega
    rw [if_neg hne, if_neg hsib, if_pos rfl, hs.parent k p hi]
    split_ifs
    · rfl
    · rw [getElem?_swap hi hj, if_neg (by omega), if_neg (by omega)]
  · rw [if_pos rfl, if_neg hzero, hij, getElem?_swap hi hj, if_pos rfl, hj]
  · have hsib : h.sibling p c = some a ↔ k ≠ 0 ∧ (k - 1) / 2 = i := by
      simp only [sibling, hleft, hright, hs.index_eq hj]
      split_ifs <;> rw [hs.index_eq hk] <;> omega
    rw [if_neg hap, if_neg hac, hs.left j c hj, hs.right j c hj, hs.parent k a hk, getElem?_swap hi hj]
    simp only [hsib, hs.index_eq hk, hi, hj]
    by_cases hk0 : k = 0
    · rw [if_neg (by omega), if_neg (by omega), if_neg (by omega), if_pos hk0, if_pos hk0]
    · by_cases hup : (k - 1) / 2 = i
      · rw [if_pos ⟨hk0, hup⟩, if_neg hk0, if_pos hup]
      · rw [if_neg fun hc => hup hc.2, if_neg hk0, if_neg hk0, if_neg hup]
        split_ifs <;> first | rfl | omega

theorem Shape.swapped_left (k a : ℕ) (hk : (Heap.swap l j i)[k]? = some a) : h'.left a = (Heap.swap l j i)[2 * k + 1]? := by
  rw [hsw.left, getElem?_swap hi hj]
  obtain ⟨rfl, rfl⟩ | ⟨rfl, rfl⟩ | ⟨hk, hki, hkj, hap, hac⟩ := swap_cases hs.nodup hi hj hk
  · rw [if_neg (hs.ne_parent hi hj hij hzero), if_pos rfl, hs.left k p hi]
    simp only [hs.index_eq hj, hi]
    split_ifs <;> first | rfl | omega
  · rw [if_pos rfl, hs.left k c hj, if_neg (by omega), if_neg (by omega)]
  · have hup : h.parent p = some a ∧ h.left a = some p ↔ 2 * k + 1 = i := by
      rw [hs.parent i p hi, hs.left k a hk, hs.index_eq hi]
      split_ifs
      · simp only [false_and, false_iff]
        omega
      · rw [hs.index_eq hk]
        omega
    rw [if_neg hap, if_neg hac, if_congr hup rfl (hs.left k a hk), hj]
    split_ifs <;> first | rfl | omega

theorem Shape.swapped_right (k a : ℕ) (hk : (Heap.swap l j i)[k]? = some a) : h'.right a = (Heap.swap l j i)[2 * k + 2]? := by
  rw [hsw.right, getElem?_swap hi hj]
  obtain ⟨rfl, rfl⟩ | ⟨rfl, rfl⟩ | ⟨hk, hki, hkj, hap, hac⟩ := swap_cases hs.nodup hi hj hk
  · rw [if_neg (hs.ne_parent hi hj hij hzero), if_pos rfl, hs.left k p hi, hs.right k p hi]
    simp only [hs.index_eq hj, hi]
    split_ifs <;> first | rfl | omega
  · rw [if_pos rfl, hs.right k c hj, if_neg (by omega), if_neg (by omega)]
  · have hup : h.parent p = some a ∧ h.left a ≠ some p ∧ h.right a = some p ↔ 2 * k + 2 = i := by
      rw [hs.parent i p hi, hs.left k a hk, hs.right k a hk, Ne, hs.index_eq hi, hs.index_eq hi]
      split_ifs
      · simp only [false_and, false_iff]
        omega
      · rw [hs.index_eq hk]
        omega
    rw [if_neg hap, if_neg hac, if_congr hup rfl (hs.right k a hk), hj]
    split_ifs <;> first | rfl | omega

end

theorem Shape.swapped_same {h' : HeapNodes} (hs : Shape h l) (hsw : Swapped h h' p c) (hp : p ∈ l) (hc : c ∈ l) (ha : a ∉ l) :
    SameLinks h h' a := by
  have hap : a ≠ p := fun he => ha (he ▸ hp)
  have hac : a ≠ c := fun he => ha (he ▸ hc)
  have hup : h.parent p ≠ some a := fun he => ha (hs.links_mem hp (.inl he))
  have hsib : h.sibling p c ≠ some a := by
    unfold sibling
    split_ifs
    · exact fun he => ha (hs.links_mem hp (.inr (.inr he)))
    · exact fun he => ha (hs.links_mem hp (.inr (.inl he)))
  have hlc : h.left c ≠ some a := fun he => ha (hs.links_mem hc (.inr (.inl he)))
  have hrc : h.right c ≠ some a := fun he => ha (hs.links_mem hc (.inr (.inr he)))
  refine ⟨?_, ?_, ?_⟩
  · rw [hsw.parent, if_neg hap, if_neg hsib, if_neg hac, if_neg hrc, if_neg hlc]
  · rw [hsw.left, if_neg hap, if_neg hac, if_neg fun he => hup he.1]
  · rw [hsw.right, if_neg hap, if_neg hac, if_neg fun he => hup he.1]

theorem Shape.swap (hs : Shape h l) (hi : l[i]? = some p) (hj : l[j]? = some c) (hzero : j ≠ 0) (hij : (j - 1) / 2 = i) :
    ∃ h', h.swap p c = some h' ∧ Shape h' (Heap.swap l j i) ∧ ∀ a ∉ l, SameLinks h h' a := by
  have hassert : h.parent c = some p ∧ (h.left p = some c ∨ h.right p = some c) := by
    rw [hs.parent j c hj, if_neg hzero, hij, hs.left i p hi, hs.right i p hi, hs.index_eq hj, hs.index_eq hj]
    exact ⟨hi, by omega⟩
  have hself : h.parent p ≠ some p := by
    rw [hs.parent i p hi]
    split_ifs with hiz
    · simp
    · rw [Ne, hs.index_eq hi]
      omega
  obtain ⟨h', hswap, hsw⟩ := swap_eq hassert hself
  refine ⟨h', hswap, ⟨(Heap.perm_swap l j i).nodup_iff.mpr hs.nodup, ?_, hs.swapped_root hsw hi hj hzero,
    hs.swapped_parent hsw hi hj hzero hij, hs.swapped_left hsw hi hj hzero hij, hs.swapped_right hsw hi hj hzero hij⟩, fun a ha => ?_⟩
  · rw [hsw.nelts, Heap.length_swap, hs.nelts]
  · exact hs.swapped_same hsw (List.mem_of_getElem? hi) (List.mem_of_getElem? hj) ha

/-! ## Sifting -/

variable {compare : ℕ → ℕ → Bool} {v fuel : ℕ}

theorem Shape.siftUp (hs : Shape h l) (hv : l[i]? = some v) (hfuel : i < fuel) :
    ∃ h', h.siftUp compare v fuel = some h' ∧ Shape h' (Heap.siftUp compare fuel i l) ∧ ∀ a ∉ l, SameLinks h h' a := by
  induction fuel generalizing h l i with
  | zero => cases hfuel
  | succ fuel ih =>
    unfold HeapNodes.siftUp Heap.siftUp
    rw [hs.parent i v hv]
    split_ifs with hzero
    · exact ⟨h, rfl, hs, fun a _ => ⟨rfl, rfl, rfl⟩⟩
    · have hlt := (List.getElem?_eq_some_iff.mp hv).1
      have hp := List.getElem?_eq_getElem (l := l) (i := (i - 1) / 2) (by omega)
      rw [hv, hp]
      dsimp only
      split_ifs
      · obtain ⟨h', hswap, hs', hsame⟩ := hs.swap hp hv hzero rfl
        have hv' : (Heap.swap l i ((i - 1) / 2))[(i - 1) / 2]? = some v := by rw [getElem?_swap hp hv, if_pos rfl, hv]
        obtain ⟨h'', hsift, hs'', hsame'⟩ := ih hs' hv' (by omega)
        refine ⟨h'', by rw [hswap, Option.bind_some, hsift], hs'', fun a ha => (hsame a ha).trans (hsame' a ?_)⟩
        rwa [(Heap.perm_swap ..).mem_iff]
      · exact ⟨h, rfl, hs, fun a _ => ⟨rfl, rfl, rfl⟩⟩

theorem Shape.est_eq (hs : Shape h l) (hv : l[i]? = some v) : l[Heap.est compare i l]? = some (est compare h v) := by
  have hpick : ∀ {e x c}, l[e]? = some x → l[Heap.pick compare l e c]? = some (match l[c]? with
      | none => x
      | some y => if compare x y then x else y) := by
    intro e x c he
    unfold Heap.pick
    rw [he]
    cases hc : l[c]? with
    | none => exact he
    | some y =>
      dsimp only
      split_ifs
      · exact he
      · exact hc
  rw [Heap.est_eq, est, hs.left i v hv, hs.right i v hv]
  exact hpick (hpick hv)

theorem Shape.siftDown (ho : StrictWeakOrder compare) (hs : Shape h l) (hv : l[i]? = some v) (hfuel : l.length ≤ fuel + i) :
    ∃ h', h.siftDown compare v fuel = some h' ∧ Shape h' (Heap.siftDown compare fuel i l).2 ∧
      (Heap.siftDown compare fuel i l).2[(Heap.siftDown compare fuel i l).1]? = some v ∧ ∀ a ∉ l, SameLinks h h' a := by
  induction fuel generalizing h l i with
  | zero =>
    have := (List.getElem?_eq_some_iff.mp hv).1
    omega
  | succ fuel ih =>
    have hi := (List.getElem?_eq_some_iff.mp hv).1
    have hest : l[Heap.est compare i l]? = some (est compare h v) := hs.est_eq hv
    unfold HeapNodes.siftDown Heap.siftDown
    obtain ⟨hstop, -⟩ | ⟨hzero, hparent, hlen, -⟩ := Heap.est_spec ho hi
    · rw [hstop, hv] at hest
      rw [if_pos (Option.some.inj hest).symm, if_pos hstop]
      exact ⟨h, rfl, hs, hv, fun a _ => ⟨rfl, rfl, rfl⟩⟩
    · have hne : Heap.est compare i l ≠ i := by omega
      have hnode : est compare h v ≠ v := by
        intro he
        rw [he] at hest
        exact hne ((Links.getElem?_eq_some hs.nodup hv).mp hest)
      obtain ⟨h', hswap, hs', hsame⟩ := hs.swap hv hest hzero hparent
      have hv' : (Heap.swap l (Heap.est compare i l) i)[Heap.est compare i l]? = some v := by
        rw [getElem?_swap hv hest, if_neg hne, if_pos rfl, hv]
      rw [if_neg hnode, if_neg hne, hswap, Option.bind_some, Heap.swap_comm hi hlen]
      obtain ⟨h'', hsift, hs'', hv'', hsame'⟩ := ih hs' hv' (by rw [Heap.length_swap]; omega)
      refine ⟨h'', hsift, hs'', hv'', fun a ha => (hsame a ha).trans (hsame' a ?_)⟩
      rwa [(Heap.perm_swap ..).mem_iff]

end HeapNodes
end Yjc
