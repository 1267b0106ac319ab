import Yjc.Util.JsonRuns

/-! What can be read of the objects, in every state that a run of the interface comes to. -/

namespace Yjc.Json
open CLib Rings Function

namespace Heap
variable {D : Type} {h : Heap D} {S : Lists D} {depth a memb obj : ℕ} {name : List UInt8} (R : Rebalancing)

theorem Refines.denote (hr : Refines h S ∅) (hlive : h.block a ≠ none) : h.denote depth a = S.value depth a := by
  induction depth generalizing a with
  | zero => rfl
  | succ depth ih =>
    have hh := hr.good.holds a hlive
    unfold Holds at hh
    have hkind : (h.value a).kind = S.kind a := congrFun hr.kind a
    rw [Heap.denote, Lists.value, ← hkind]
    cases hv : h.value a with
    | object root size =>
      rw [hv] at hh
      obtain ⟨hring, -, -, hsize⟩ := hh
      obtain rfl := hsize.resolve_left (Set.notMem_empty a)
      dsimp only [Payload.kind]
      rw [hr.good.entries hring, hr.name, Int.toNat_natCast]
      exact congrArg (Option.map _) (Lists.mapM_congr fun x hx => by rw [ih (hr.good.kid a x hx).1])
    | array size =>
      rw [hv] at hh
      obtain ⟨hring, hsize⟩ := hh
      obtain rfl := hsize.resolve_left (Set.notMem_empty a)
      dsimp only [Payload.kind]
      rw [hr.good.entries hring, Int.toNat_natCast]
      exact congrArg (Option.map _) (Lists.mapM_congr fun x hx => ih (hr.good.kid a x hx).1)
    | _ => rfl

theorem Refines.object (hr : Refines h S ∅) (hobj : h.isObject obj = true) :
    h.entries obj = S.kids obj ∧ h.jsonObjectSize obj = (S.kids obj).length ∧ (h.index obj).Perm (S.kids obj) := by
  obtain ⟨hlive, root, size, hvalue⟩ := isObject_iff.mp hobj
  have hh := hr.good.holds obj hlive
  unfold Holds at hh
  rw [hvalue] at hh
  refine ⟨hr.good.entries_object hobj, ?_, ?_⟩
  · rw [jsonObjectSize, hvalue]
    exact hr.good.size hlive hvalue
  · rw [index, hvalue]
    exact hh.2.1

theorem Refines.find_mem (hr : Refines h S ∅) (hobj : h.isObject obj = true) (hfind : h.jsonObjectFind name obj = some memb) :
    memb ∈ S.kids obj ∧ cString (S.name memb) = cString name := by
  obtain ⟨-, -, hperm⟩ := hr.object hobj
  obtain ⟨-, root, size, hvalue⟩ := isObject_iff.mp hobj
  rw [index, hvalue] at hperm
  rw [jsonObjectFind, hvalue] at hfind
  obtain ⟨hmem, hcmp⟩ := @RbTree.find_mem _ _ strcmp h.key root memb (cString name) hfind
  rw [← hr.name]
  exact ⟨hperm.mem_iff.mp hmem, (strcmp_eq_zero.mp hcmp).symm⟩

theorem Refines.find_isSome (hr : Refines h S ∅) (hobj : h.isObject obj = true) (hmemb : memb ∈ S.kids obj)
    (hname : cString (S.name memb) = cString name) : (h.jsonObjectFind name obj).isSome = true := by
  obtain ⟨-, -, hperm⟩ := hr.object hobj
  obtain ⟨hlive, root, size, hvalue⟩ := isObject_iff.mp hobj
  have hh := hr.good.holds obj hlive
  unfold Holds at hh
  rw [hvalue] at hh
  rw [index, hvalue] at hperm
  rw [← hr.name] at hname
  rw [jsonObjectFind, hvalue]
  exact RbTree.find_isSome strcmp_totalPreorder hh.2.2.1 (hperm.mem_iff.mpr hmemb) (strcmp_eq_zero.mpr hname.symm)

end Heap

/-! ## A tree with a black root -/

end Yjc.Json
