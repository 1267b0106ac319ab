import Yjc.Container.Heap
import Mathlib.Logic.Equiv.Basic

/-! The order of the binary heap by positions: no node compares before its parent. -/

namespace Yjc
open SwapRemove
variable {α : Type*} {lt : α → α → Bool} {l : List α} {i j k : ℕ}

structure StrictWeakOrder (lt : α → α → Bool) : Prop where
  asymm : ∀ x y, lt x y = true → lt y x = false
  negTrans : ∀ x y z, lt x y = false → lt y z = false → lt x z = false

namespace Heap

theorem getElem?_swap (hi : i < l.length) (hj : j < l.length) (k : ℕ) : (swap l i j)[k]? = l[Equiv.swap i j k]? := by
  rw [swap, List.getElem?_eq_getElem hi, List.getElem?_eq_getElem hj]
  dsimp only
  rcases eq_or_ne k j with rfl | hkj
  · rw [List.getElem?_set_self (by rwa [List.length_set]), Equiv.swap_apply_right, List.getElem?_eq_getElem hi]
  · rw [List.getElem?_set_ne hkj.symm]
    rcases eq_or_ne k i with rfl | hki
    · rw [List.getElem?_set_self hi, Equiv.swap_apply_left, List.getElem?_eq_getElem hj]
    · rw [List.getElem?_set_ne hki.symm, Equiv.swap_apply_of_ne_of_ne hki hkj]

theorem swap_comm (hi : i < l.length) (hj : j < l.length) : swap l i j = swap l j i := by
  refine List.ext_getElem? fun k => ?_
  rw [getElem?_swap hi hj, getElem?_swap hj hi, Equiv.swap_comm]

theorem length_swap (l : List α) (i j : ℕ) : (swap l i j).length = l.length := (perm_swap l i j).length_eq

/-- The node at `i` does not compare before the one at `j`. -/
def After (lt : α → α → Bool) (l : List α) (i j : ℕ) : Prop := ∀ x ∈ l[i]?, ∀ y ∈ l[j]?, lt x y = false

theorem after_swap (hi : i < l.length) (hj : j < l.length) {a b : ℕ} :
    After lt (swap l i j) a b ↔ After lt l (Equiv.swap i j a) (Equiv.swap i j b) := by
  rw [After, getElem?_swap hi hj, getElem?_swap hi hj, After]

theorem After.trans (ho : StrictWeakOrder lt) (hij : After lt l i j) (hjk : After lt l j k) (hj : j < l.length) :
    After lt l i k := by
  intro x hx z hz
  have hy : l[j] ∈ l[j]? := List.getElem?_eq_getElem hj
  exact ho.negTrans x l[j] z (hij x hx _ hy) (hjk _ hy z hz)

theorem after_of_lt (ho : StrictWeakOrder lt) {x y : α} (hx : l[i]? = some x) (hy : l[j]? = some y) (h : lt x y = true) :
    After lt l j i := by
  intro y' hy' x' hx'
  cases hx.symm.trans hx'
  cases hy.symm.trans hy'
  exact ho.asymm x y h

theorem after_of_not_lt {x y : α} (hx : l[i]? = some x) (hy : l[j]? = some y) (h : lt x y = false) : After lt l i j := by
  intro x' hx' y' hy'
  cases hx.symm.trans hx'
  cases hy.symm.trans hy'
  exact h

theorem after_self (ho : StrictWeakOrder lt) : After lt l i i := by
  intro x hx y hy
  cases Option.some.inj (hx.symm.trans hy)
  cases h : lt x x with
  | false => rfl
  | true =>
    rw [ho.asymm x x h] at h
    cases h

theorem after_none (h : l[i]? = none) : After lt l i j := by
  intro x hx
  rw [h] at hx
  cases hx

def Ordered (lt : α → α → Bool) (l : List α) : Prop := ∀ k, k ≠ 0 → After lt l k ((k - 1) / 2)

/-- Only the node at `i` may be out of order, with its parent or with its children. -/
structure Hole (lt : α → α → Bool) (l : List α) (i : ℕ) : Prop where
  others : ∀ k, k ≠ 0 → k ≠ i → (k - 1) / 2 ≠ i → After lt l k ((k - 1) / 2)
  grand : ∀ k, k ≠ 0 → (k - 1) / 2 = i → i ≠ 0 → After lt l k ((i - 1) / 2)

/-- The node at `i` may be out of order with its parent only. -/
structure Rising (lt : α → α → Bool) (l : List α) (i : ℕ) : Prop extends Hole lt l i where
  children : ∀ k, k ≠ 0 → (k - 1) / 2 = i → After lt l k i

theorem Rising.ordered (h : Rising lt l i) (hi : i ≠ 0 → After lt l i ((i - 1) / 2)) : Ordered lt l := by
  intro k hk
  by_cases hki : k = i
  · subst hki
    exact hi hk
  · by_cases hp : (k - 1) / 2 = i
    · rw [hp]
      exact h.children k hk hp
    · exact h.others k hk hki hp

theorem Rising.swap (ho : StrictWeakOrder lt) (h : Rising lt l i) (hi : i < l.length) (hzero : i ≠ 0)
    (hbefore : After lt l ((i - 1) / 2) i) : Rising lt (swap l i ((i - 1) / 2)) ((i - 1) / 2) := by
  have hp : (i - 1) / 2 < i := by omega
  have hplen : (i - 1) / 2 < l.length := by omega
  refine ⟨⟨?_, ?_⟩, ?_⟩
  · intro k hk hkp hpk
    have hki : k ≠ i := fun he => hpk (he ▸ rfl)
    rw [after_swap hi hplen, Equiv.swap_apply_of_ne_of_ne hki hkp]
    by_cases hpi : (k - 1) / 2 = i
    · rw [hpi, Equiv.swap_apply_left]
      exact h.grand k hk hpi hzero
    · rw [Equiv.swap_apply_of_ne_of_ne hpi hpk]
      exact h.others k hk hki hpi
  · intro k hk hkp hpzero
    have hroot : After lt l ((i - 1) / 2) (((i - 1) / 2 - 1) / 2) := h.others _ hpzero (by omega) (by omega)
    rw [after_swap hi hplen, Equiv.swap_apply_of_ne_of_ne (x := ((i - 1) / 2 - 1) / 2) (by omega) (by omega)]
    by_cases hki : k = i
    · rwa [hki, Equiv.swap_apply_left]
    · rw [Equiv.swap_apply_of_ne_of_ne hki (by omega)]
      have hsib := h.others k hk hki (by omega)
      rw [hkp] at hsib
      exact hsib.trans ho hroot hplen
  · intro k hk hkp
    rw [after_swap hi hplen, Equiv.swap_apply_right]
    by_cases hki : k = i
    · rwa [hki, Equiv.swap_apply_left]
    · rw [Equiv.swap_apply_of_ne_of_ne hki (by omega)]
      have hsib := h.others k hk hki (by omega)
      rw [hkp] at hsib
      exact hsib.trans ho hbefore hplen

theorem siftUp_ordered (ho : StrictWeakOrder lt) {fuel : ℕ} (h : Rising lt l i) (hi : i < l.length) (hfuel : i < fuel) :
    Ordered lt (siftUp lt fuel i l) := by
  induction fuel generalizing i l with
  | zero => cases hfuel
  | succ fuel ih =>
    unfold siftUp
    split_ifs with hzero
    · exact h.ordered fun hc => absurd hzero hc
    · have hplen : (i - 1) / 2 < l.length := by omega
      have hx := List.getElem?_eq_getElem hi
      have hy := List.getElem?_eq_getElem hplen
      rw [hx, hy]
      dsimp only
      split_ifs with hlt
      · exact ih (h.swap ho hi hzero (after_of_lt ho hx hy hlt)) (by rw [length_swap]; omega) (by omega)
      · exact h.ordered fun _ => after_of_not_lt hx hy (Bool.not_eq_true _ ▸ hlt)

theorem siftUp_fuel {f g : ℕ} (hf : i < f) (hg : i < g) : siftUp lt f i l = siftUp lt g i l := by
  induction f generalizing g i l with
  | zero => cases hf
  | succ f ih =>
    obtain ⟨g, rfl⟩ : ∃ k, g = k + 1 := ⟨g - 1, by omega⟩
    unfold siftUp
    split_ifs with hzero
    · rfl
    · split
      · rw [ih (g := g) (by omega) (by omega)]
      · rfl

/-- The comparison of `est` with a child. -/
def pick (lt : α → α → Bool) (l : List α) (e c : ℕ) : ℕ :=
  match l[e]?, l[c]? with
  | some x, some y => if lt x y then e else c
  | _, _ => e

theorem est_eq : est lt i l = pick lt l (pick lt l i (2 * i + 1)) (2 * i + 2) := rfl

theorem pick_cases (ho : StrictWeakOrder lt) {e : ℕ} (he : e < l.length) (c : ℕ) :
    (pick lt l e c = e ∧ After lt l c e) ∨ (pick lt l e c = c ∧ c < l.length ∧ After lt l e c) := by
  have hx := List.getElem?_eq_getElem he
  rw [pick, hx]
  cases hy : l[c]? with
  | none => exact .inl ⟨rfl, after_none hy⟩
  | some y =>
    dsimp only
    split_ifs with hlt
    · exact .inl ⟨rfl, after_of_lt ho hx hy hlt⟩
    · exact .inr ⟨rfl, (List.getElem?_eq_some_iff.mp hy).1, after_of_not_lt hx hy (Bool.not_eq_true _ ▸ hlt)⟩

theorem est_spec (ho : StrictWeakOrder lt) (hi : i < l.length) :
    (est lt i l = i ∧ ∀ k, k ≠ 0 → (k - 1) / 2 = i → After lt l k i) ∨
      (est lt i l ≠ 0 ∧ (est lt i l - 1) / 2 = i ∧ est lt i l < l.length ∧
        ∀ k, k ≠ 0 → (k - 1) / 2 = i → After lt l k (est lt i l)) := by
  -- `est` is a child that compares after none, unless the node compares before both
  have hchildren : ∀ j, After lt l (2 * i + 1) j → After lt l (2 * i + 2) j →
      ∀ k, k ≠ 0 → (k - 1) / 2 = i → After lt l k j := by
    intro j hleft hright k hk hki
    obtain rfl | rfl : k = 2 * i + 1 ∨ k = 2 * i + 2 := by omega
    · exact hleft
    · exact hright
  rw [est_eq]
  obtain ⟨hfirst, hleft⟩ | ⟨hfirst, hlen, hleft⟩ := pick_cases ho hi (2 * i + 1)
  · rw [hfirst]
    obtain ⟨hsecond, hright⟩ | ⟨hsecond, hlen, hright⟩ := pick_cases ho hi (2 * i + 2)
    · exact .inl ⟨hsecond, hchildren _ hleft hright⟩
    · rw [hsecond]
      exact .inr ⟨by omega, by omega, hlen, hchildren _ (hleft.trans ho hright hi) (after_self ho)⟩
  · rw [hfirst]
    obtain ⟨hsecond, hright⟩ | ⟨hsecond, hlen', hright⟩ := pick_cases ho hlen (2 * i + 2)
    · rw [hsecond]
      exact .inr ⟨by omega, by omega, hlen, hchildren _ (after_self ho) hright⟩
    · rw [hsecond]
      exact .inr ⟨by omega, by omega, hlen', hchildren _ hright (after_self ho)⟩

theorem Hole.swap (h : Hole lt l i) (hi : i < l.length) (hj : j < l.length) (hzero : j ≠ 0) (hji : (j - 1) / 2 = i)
    (hchildren : ∀ k, k ≠ 0 → (k - 1) / 2 = i → After lt l k j) : Hole lt (swap l i j) j := by
  refine ⟨?_, ?_⟩
  · intro k hk hkj hpj
    rw [after_swap hi hj]
    by_cases hki : k = i
    · subst hki
      rw [Equiv.swap_apply_left, Equiv.swap_apply_of_ne_of_ne (by omega) hpj]
      exact h.grand j hzero hji hk
    · rw [Equiv.swap_apply_of_ne_of_ne hki hkj]
      by_cases hpi : (k - 1) / 2 = i
      · rw [hpi, Equiv.swap_apply_left]
        exact hchildren k hk hpi
      · rw [Equiv.swap_apply_of_ne_of_ne hpi hpj]
        exact h.others k hk hki hpi
  · intro k hk hkj _
    rw [after_swap hi hj, hji, Equiv.swap_apply_left, Equiv.swap_apply_of_ne_of_ne (by omega) (by omega)]
    have := h.others k hk (by omega) (by omega)
    rwa [hkj] at this

theorem siftDown_rising (ho : StrictWeakOrder lt) {fuel : ℕ} (h : Hole lt l i) (hi : i < l.length)
    (hfuel : l.length ≤ fuel + i) : Rising lt (siftDown lt fuel i l).2 (siftDown lt fuel i l).1 := by
  induction fuel generalizing i l with
  | zero => omega
  | succ fuel ih =>
    unfold siftDown
    obtain ⟨hest, hchildren⟩ | ⟨hzero, hparent, hlen, hchildren⟩ := est_spec ho hi
    · rw [if_pos hest]
      exact ⟨h, hchildren⟩
    · rw [if_neg (by omega)]
      exact ih (h.swap hi hlen hzero hparent hchildren) (by rwa [length_swap]) (by rw [length_swap]; omega)

theorem siftDown_lt (ho : StrictWeakOrder lt) {fuel : ℕ} (hi : i < l.length) :
    (siftDown lt fuel i l).1 < (siftDown lt fuel i l).2.length := by
  induction fuel generalizing i l with
  | zero => exact hi
  | succ fuel ih =>
    unfold siftDown
    obtain ⟨hest, -⟩ | ⟨hzero, hparent, hlen, -⟩ := est_spec ho hi
    · rwa [if_pos hest]
    · rw [if_neg (by omega)]
      exact ih (by rwa [length_swap])

theorem siftDown_fuel (ho : StrictWeakOrder lt) {f g : ℕ} (hi : i < l.length) (hf : l.length ≤ f + i) (hg : l.length ≤ g + i) :
    siftDown lt f i l = siftDown lt g i l := by
  induction f generalizing g i l with
  | zero => omega
  | succ f ih =>
    obtain ⟨g, rfl⟩ : ∃ k, g = k + 1 := ⟨g - 1, by omega⟩
    unfold siftDown
    obtain ⟨hest, -⟩ | ⟨hzero, hparent, hlen, -⟩ := est_spec ho hi
    · rw [if_pos hest, if_pos hest]
    · have hne : est lt i l ≠ i := by omega
      rw [if_neg hne, if_neg hne]
      refine ih ?_ ?_ ?_ <;> rw [length_swap] <;> omega

/-! ## The operations -/

theorem Ordered.append (h : Ordered lt l) (x : α) : Rising lt (l ++ [x]) l.length := by
  have hend : ∀ k, l.length < k → (l ++ [x])[k]? = none := by
    intro k hk
    rw [List.getElem?_eq_none]
    rw [List.length_append, List.length_singleton]
    exact hk
  refine ⟨⟨?_, ?_⟩, ?_⟩
  · intro k hk hkl hp
    rcases Nat.lt_or_ge k l.length with hlt | hge
    · rw [After, List.getElem?_append_left hlt, List.getElem?_append_left (by omega)]
      exact h k hk
    · exact after_none (hend k (by omega))
  · intro k hk hp _
    exact after_none (hend k (by omega))
  · intro k hk hp
    exact after_none (hend k (by omega))

theorem insert_ordered (ho : StrictWeakOrder lt) {h : Heap α} (hord : Ordered lt h.elts) (x : α) :
    Ordered lt (insert lt x h).elts :=
  siftUp_ordered ho (hord.append x) (by rw [List.length_append, List.length_singleton]; omega) (Nat.lt_succ_self _)

theorem Ordered.swapRemove (ho : StrictWeakOrder lt) (h : Ordered lt l) (hi : i < l.length) :
    Hole lt (swapRemove l i) i := by
  have hend : ∀ k, l.length ≤ k + 1 → (SwapRemove.swapRemove l i)[k]? = none := by
    intro k hk
    rw [List.getElem?_eq_none]
    rw [length_swapRemove]
    omega
  refine ⟨?_, ?_⟩
  · intro k hk hki hp
    rcases Nat.lt_or_ge (k + 1) l.length with hlt | hge
    · rw [After, getElem?_swapRemove_of_ne hki hlt, getElem?_swapRemove_of_ne hp (by omega)]
      exact h k hk
    · exact after_none (hend k hge)
  · intro k hk hp hzero
    rcases Nat.lt_or_ge (k + 1) l.length with hlt | hge
    · rw [After, getElem?_swapRemove_of_ne (by omega) hlt, getElem?_swapRemove_of_ne (by omega) (by omega)]
      have hkp := h k hk
      rw [hp] at hkp
      exact hkp.trans ho (h i hzero) hi
    · exact after_none (hend k hge)

theorem Ordered.of_swapRemove_last (h : Ordered lt l) (hi : l.length ≤ i + 1) : Ordered lt (SwapRemove.swapRemove l i) := by
  intro k hk
  rcases Nat.lt_or_ge (k + 1) l.length with hlt | hge
  · rw [After, getElem?_swapRemove_of_ne (by omega) hlt, getElem?_swapRemove_of_ne (by omega) (by omega)]
    exact h k hk
  · refine after_none ?_
    rw [List.getElem?_eq_none]
    rw [length_swapRemove]
    omega

theorem remove_ordered [DecidableEq α] (ho : StrictWeakOrder lt) {h h' : Heap α} (hord : Ordered lt h.elts) {x : α}
    (hremove : remove lt x h = some h') : Ordered lt h'.elts := by
  unfold remove at hremove
  split_ifs at hremove with hzero
  · cases hremove
    exact hord
  · cases hidx : h.elts.idxOf? x with
    | none =>
      rw [hidx] at hremove
      cases hremove
    | some i =>
      have hi := (List.idxOf?_eq_some_iff.mp hidx).1
      rw [hidx] at hremove
      dsimp only at hremove
      split_ifs at hremove with hlt
      · cases hremove
        have hrising := siftDown_rising ho (hord.swapRemove ho hi) hlt (Nat.le_add_right ..)
        exact siftUp_ordered ho hrising (siftDown_lt ho hlt) (Nat.lt_succ_self _)
      · cases hremove
        rw [length_swapRemove] at hlt
        exact hord.of_swapRemove_last (by omega)

theorem Ordered.congr {lt' : α → α → Bool} (h : Ordered lt l) (hlt : ∀ x ∈ l, ∀ y ∈ l, lt' x y = lt x y) : Ordered lt' l := by
  intro k hk x hx y hy
  rw [hlt x (List.mem_of_getElem? hx) y (List.mem_of_getElem? hy)]
  exact h k hk x hx y hy

theorem Ordered.root (ho : StrictWeakOrder lt) (h : Ordered lt l) (k : ℕ) : After lt l k 0 := by
  induction k using Nat.strongRecOn with
  | ind k ih =>
    by_cases hk : k = 0
    · rw [hk]
      exact after_self ho
    · by_cases hlen : (k - 1) / 2 < l.length
      · exact (h k hk).trans ho (ih _ (by omega)) hlen
      · exact after_none (List.getElem?_eq_none (by omega))

end Heap
end Yjc
