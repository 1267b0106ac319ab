import Mathlib.Data.Fin.Basic
import Mathlib.Data.ZMod.Defs
import Mathlib.Tactic.Abel

/-! Rounds over registers that change their names instead of their contents. -/

/-- `n` registers. -/
abbrev Registers (β : Type*) (n : ℕ) := Vector β n

namespace Yjc.Rounds
variable {n : ℕ} [NeZero n] {β ι : Type*} {i k : Fin n} {S T : Fin n → β}

/-- The registers as round `i` names them. -/
def view (i : Fin n) (S : Fin n → β) : Fin n → β := fun j => S (j - i)

/-- The change `g` of the named registers, in place. -/
def inPlace (i : Fin n) (g : (Fin n → β) → Fin n → β) (S : Fin n → β) : Fin n → β := fun j => g (view i S) (j + i)

def shift (T : Fin n → β) : Fin n → β := fun j => T (j - 1)

theorem view_zero (S : Fin n → β) : view 0 S = S := funext fun j => congrArg S (sub_zero j)

theorem get_set {m : ℕ} (S : Registers β m) (k : Fin m) (v : β) : (S.set k v).get = Function.update S.get k v := by
  funext j
  rw [Function.update_apply]
  show (S.set k v)[j.val] = if j = k then v else S[j.val]
  rw [Vector.getElem_set]
  exact if_congr (Fin.val_inj.trans eq_comm) rfl rfl

theorem toList_eq {m : ℕ} (S : Registers β m) : S.toList = List.ofFn S.get := by
  rw [← Vector.toList_ofFn]
  exact congrArg Vector.toList Vector.ofFn_getElem.symm

theorem update_inPlace (T : Fin n → β) (i k : Fin n) (v : β) :
    (fun j => Function.update T k v (j + i)) = Function.update (fun j => T (j + i)) (k - i) v := by
  funext j
  by_cases h : j = k - i
  · subst h
    rw [Function.update_self, sub_add_cancel, Function.update_self]
  · rw [Function.update_of_ne h, Function.update_of_ne fun heq => h (eq_sub_of_add_eq heq)]

theorem view_add (i : Fin n) (S : Fin n → β) : (fun j => view i S (j + i)) = S := funext fun j => congrArg S (add_sub_cancel_right j i)

theorem view_inPlace (g : (Fin n → β) → Fin n → β) (i : Fin n) (S : Fin n → β) :
    view (i + 1) (inPlace i g S) = shift (g (view i S)) := by
  funext j
  show g (view i S) (j - (i + 1) + i) = g (view i S) (j - 1)
  congr 1
  abel

/-- The rounds in place, from round `i` on. -/
def run (g : ι → (Fin n → β) → Fin n → β) : Fin n → List ι → (Fin n → β) → Fin n → β
  | _, [], S => S
  | i, x :: xs, S => run g (i + 1) xs (inPlace i (g x) S)

theorem ofNat_succ (m : ℕ) : Fin.ofNat n (m + 1) = 1 + Fin.ofNat n m := by
  refine Fin.ext ?_
  rw [Fin.val_add, Fin.val_one', Fin.val_ofNat, Fin.val_ofNat, ← Nat.add_mod, Nat.add_comm]

theorem view_run (g : ι → (Fin n → β) → Fin n → β) (i : Fin n) (xs : List ι) (S : Fin n → β) :
    view (i + Fin.ofNat n xs.length) (run g i xs S) = xs.foldl (fun T x => shift (g x T)) (view i S) := by
  induction xs generalizing i S with
  | nil =>
    rw [List.length_nil, run, List.foldl_nil]
    exact congrArg (fun j => view j S) (add_zero i)
  | cons x xs ih => rw [List.length_cons, ofNat_succ, ← add_assoc, run, ih, List.foldl_cons, view_inPlace]

/-- After as many rounds as bring the names back, the registers hold what rounds with a shift give. -/
theorem run_eq (g : ι → (Fin n → β) → Fin n → β) {xs : List ι} (hxs : n ∣ xs.length) (S : Fin n → β) :
    run g 0 xs S = xs.foldl (fun T x => shift (g x T)) S := by
  have h := view_run g 0 xs S
  have hzero : Fin.ofNat n xs.length = 0 := Fin.ext (Nat.mod_eq_zero_of_dvd hxs)
  rwa [hzero, add_zero, view_zero, view_zero] at h

end Yjc.Rounds
