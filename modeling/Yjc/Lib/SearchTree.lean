import Yjc.Lib.TotalPreorder
import Mathlib.Data.List.Perm.Basic

/-! Binary search trees with colours, where elements with the same key may be on either side of one another. -/

namespace Yjc

inductive RbTree (α : Type*)
  | nil
  | node (red : Bool) (left : RbTree α) (a : α) (right : RbTree α)

namespace RbTree
variable {α δ : Type*}

def inorder : RbTree α → List α
  | nil => []
  | node _ left a right => left.inorder ++ a :: right.inorder

/-- A red leaf for `a`, on the left of the nodes that it is below. -/
def link (below : α → Bool) (a : α) : RbTree α → RbTree α
  | nil => node true nil a nil
  | node red left e right => if below e then node red (link below a left) e right else node red left e (link below a right)

/-- The descent with a comparison that is zero where it ends. -/
def find (cmp : α → ℤ) : RbTree α → Option α
  | nil => none
  | node _ left e right => if cmp e < 0 then find cmp left else if 0 < cmp e then find cmp right else some e

def Sorted (c : δ → δ → ℤ) (key : α → δ) (l : List α) : Prop := l.Pairwise fun a b => c (key a) (key b) ≤ 0

variable {c : δ → δ → ℤ} {key : α → δ} {t : RbTree α} {a : α} {n : δ}

theorem link_perm (below : α → Bool) (a : α) (t : RbTree α) : (t.link below a).inorder.Perm (a :: t.inorder) := by
  induction t with
  | nil => exact .refl _
  | node red left e right ihl ihr =>
    rw [link]
    split_ifs
    · exact ihl.append_right _
    · have hright : (left.inorder ++ e :: (right.link below a).inorder).Perm (left.inorder ++ e :: a :: right.inorder) :=
        (ihr.cons e).append_left _
      have hswap : (e :: a :: right.inorder).Perm (a :: e :: right.inorder) := .swap ..
      exact hright.trans ((hswap.append_left _).trans List.perm_middle)

theorem sorted_node {red : Bool} {left right : RbTree α} : Sorted c key (node red left a right).inorder ↔
    Sorted c key left.inorder ∧ Sorted c key right.inorder ∧ (∀ x ∈ left.inorder, c (key x) (key a) ≤ 0) ∧
      (∀ y ∈ right.inorder, c (key a) (key y) ≤ 0) ∧ ∀ x ∈ left.inorder, ∀ y ∈ right.inorder, c (key x) (key y) ≤ 0 := by
  rw [Sorted, inorder, List.pairwise_append, List.pairwise_cons]
  constructor
  · rintro ⟨hleft, ⟨hroot, hright⟩, hcross⟩
    exact ⟨hleft, hright, fun x hx => hcross x hx a List.mem_cons_self, hroot, fun x hx y hy => hcross x hx y (List.mem_cons_of_mem a hy)⟩
  · rintro ⟨hleft, hright, hbelow, habove, hcross⟩
    exact ⟨hleft, ⟨habove, hright⟩, fun x hx => List.forall_mem_cons.mpr ⟨hbelow x hx, hcross x hx⟩⟩

theorem sorted_link (hc : TotalPreorder c) (h : Sorted c key t.inorder) :
    Sorted c key (t.link (fun e => c (key a) (key e) < 0) a).inorder := by
  induction t with
  | nil => exact List.pairwise_singleton _ a
  | node red left e right ihl ihr =>
    obtain ⟨hleft, hright, hbelow, habove, hcross⟩ := sorted_node.mp h
    rw [link]
    split_ifs with hlt
    · have hae : c (key a) (key e) ≤ 0 := Int.le_of_lt (of_decide_eq_true hlt)
      have hmem (x : α) (hx : x ∈ (left.link (fun e => c (key a) (key e) < 0) a).inorder) : x = a ∨ x ∈ left.inorder :=
        List.mem_cons.mp ((link_perm _ a left).mem_iff.mp hx)
      refine sorted_node.mpr ⟨ihl hleft, hright, fun x hx => ?_, habove, fun x hx y hy => ?_⟩
      · obtain rfl | hx := hmem x hx
        · exact hae
        · exact hbelow x hx
      · obtain rfl | hx := hmem x hx
        · exact hc.trans _ _ _ hae (habove y hy)
        · exact hcross x hx y hy
    · have hea : c (key e) (key a) ≤ 0 := hc.le_of_not_lt fun h => hlt (decide_eq_true h)
      have hmem (y : α) (hy : y ∈ (right.link (fun e => c (key a) (key e) < 0) a).inorder) : y = a ∨ y ∈ right.inorder :=
        List.mem_cons.mp ((link_perm _ a right).mem_iff.mp hy)
      refine sorted_node.mpr ⟨hleft, ihr hright, hbelow, fun y hy => ?_, fun x hx y hy => ?_⟩
      · obtain rfl | hy := hmem y hy
        · exact hea
        · exact habove y hy
      · obtain rfl | hy := hmem y hy
        · exact hc.trans _ _ _ (hbelow x hx) hea
        · exact hcross x hx y hy

theorem link_congr {below below' : α → Bool} (h : ∀ e ∈ t.inorder, below e = below' e) : t.link below a = t.link below' a := by
  induction t with
  | nil => rfl
  | node red left e right ihl ihr =>
    rw [link, link, h e (List.mem_append_right _ List.mem_cons_self), ihl fun x hx => h x (List.mem_append_left _ hx),
      ihr fun x hx => h x (List.mem_append_right _ (List.mem_cons_of_mem e hx))]

theorem find_congr {cmp cmp' : α → ℤ} (h : ∀ e ∈ t.inorder, cmp e = cmp' e) : t.find cmp = t.find cmp' := by
  induction t with
  | nil => rfl
  | node red left e right ihl ihr =>
    rw [find, find, h e (List.mem_append_right _ List.mem_cons_self), ihl fun x hx => h x (List.mem_append_left _ hx),
      ihr fun x hx => h x (List.mem_append_right _ (List.mem_cons_of_mem e hx))]

theorem find_mem (h : t.find (fun e => c n (key e)) = some a) : a ∈ t.inorder ∧ c n (key a) = 0 := by
  induction t with
  | nil => cases h
  | node red left e right ihl ihr =>
    rw [find] at h
    rw [inorder]
    split_ifs at h with hlt hgt
    · exact ⟨List.mem_append_left _ (ihl h).1, (ihl h).2⟩
    · exact ⟨List.mem_append_right _ (List.mem_cons_of_mem e (ihr h).1), (ihr h).2⟩
    · obtain rfl := Option.some.inj h
      exact ⟨List.mem_append_right _ List.mem_cons_self, by omega⟩

theorem find_isSome (hc : TotalPreorder c) (h : Sorted c key t.inorder) (ha : a ∈ t.inorder) (hn : c n (key a) = 0) :
    (t.find fun e => c n (key e)).isSome = true := by
  induction t with
  | nil => cases ha
  | node red left e right ihl ihr =>
    obtain ⟨hleft, hright, hbelow, habove, -⟩ := sorted_node.mp h
    rw [find]
    rw [inorder, List.mem_append, List.mem_cons] at ha
    have hswap := hc.swap n (key e)
    split_ifs with hlt hgt
    · obtain ha | rfl | ha := ha
      · exact ihl hleft ha
      · omega
      · have hle := hc.trans _ _ _ (habove a ha) (hc.eq_swap hn).le
        omega
    · obtain ha | rfl | ha := ha
      · have hle := hc.trans _ _ _ hn.le (hbelow a ha)
        omega
      · omega
      · exact ihr hright ha
    · rfl

end RbTree
end Yjc
