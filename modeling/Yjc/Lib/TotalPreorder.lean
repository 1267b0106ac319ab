import Mathlib.Algebra.Order.Ring.Int
import Mathlib.Tactic.ByContra

/-! Comparison functions that answer below, at or above zero. -/

namespace Yjc
variable {δ : Type*} {c : δ → δ → ℤ}

/-- The sign of the one way is that of the other way turned round. -/
structure TotalPreorder (c : δ → δ → ℤ) : Prop where
  swap : ∀ x y, c x y < 0 ↔ 0 < c y x
  trans : ∀ x y z, c x y ≤ 0 → c y z ≤ 0 → c x z ≤ 0

theorem TotalPreorder.le_of_not_lt (hc : TotalPreorder c) {x y : δ} (h : ¬c x y < 0) : c y x ≤ 0 := by
  have := hc.swap x y
  omega

theorem TotalPreorder.eq_swap (hc : TotalPreorder c) {x y : δ} (h : c x y = 0) : c y x = 0 := by
  have hxy := hc.swap x y
  have hyx := hc.swap y x
  omega

theorem TotalPreorder.lt_of_lt_of_le (hc : TotalPreorder c) {x y z : δ} (h : c x y < 0) (hyz : c y z ≤ 0) : c x z < 0 := by
  by_contra hxz
  have hzx := hc.le_of_not_lt hxz
  have hyx := hc.trans y z x hyz hzx
  have := hc.swap x y
  omega

theorem TotalPreorder.lt_of_le_of_lt (hc : TotalPreorder c) {x y z : δ} (h : c x y ≤ 0) (hyz : c y z < 0) : c x z < 0 := by
  by_contra hxz
  have hzx := hc.le_of_not_lt hxz
  have hzy := hc.trans z x y hzx h
  have := hc.swap y z
  omega

theorem TotalPreorder.eq_trans (hc : TotalPreorder c) {x y z : δ} (h : c x y = 0) (hyz : c y z = 0) : c x z = 0 := by
  have hxz := hc.trans x y z h.le hyz.le
  have hzx := hc.trans z y x (hc.eq_swap hyz).le (hc.eq_swap h).le
  have := hc.swap x z
  omega

theorem TotalPreorder.refl (hc : TotalPreorder c) (x : δ) : c x x = 0 := by
  have := hc.swap x x
  omega

theorem TotalPreorder.difference (f : δ → ℤ) : TotalPreorder fun x y => f x - f y := by
  constructor <;> intros <;> omega

end Yjc
