import Mathlib.Algebra.Polynomial.Div
import Mathlib.Algebra.Field.ZMod
import Mathlib.Algebra.CharP.Two
import Mathlib.Tactic.LinearCombination

/-! Cyclic redundancy checks by their parameters: the register of `w` bits that shifts left, and the remainder of a division of
polynomials over the field of two elements that it holds. -/

namespace Yjc.Crc
open Polynomial
variable {w : ℕ}

structure Params (w : ℕ) where
  poly : BitVec w
  init : BitVec w
  refin : Bool
  refout : Bool
  xorout : BitVec w

def shift (poly s : BitVec w) (b : Bool) : BitVec w := if s.msb ^^ b then (s <<< 1) ^^^ poly else s <<< 1

def bits (refin : Bool) (x : UInt8) : List Bool := (List.range 8).map fun i => x.toBitVec.getLsbD (if refin then i else 7 - i)

namespace Params

def message (p : Params w) (data : List UInt8) : List Bool := data.flatMap (bits p.refin)

def run (p : Params w) (s : BitVec w) (data : List UInt8) : BitVec w := (p.message data).foldl (shift p.poly) s

def output (p : Params w) (s : BitVec w) : BitVec w := (if p.refout then s.reverse else s) ^^^ p.xorout

def crc (p : Params w) (data : List UInt8) : BitVec w := p.output (p.run p.init data)

theorem run_append (p : Params w) (s : BitVec w) (x y : List UInt8) : p.run s (x ++ y) = p.run (p.run s x) y := by
  rw [run, message, List.flatMap_append, List.foldl_append]
  rfl

theorem length_message (p : Params w) (data : List UInt8) : (p.message data).length = 8 * data.length := by
  induction data with
  | nil => rfl
  | cons x data ih =>
    rw [message, List.flatMap_cons, List.length_append, List.length_cons, Nat.mul_succ, Nat.add_comm, ← ih, bits, List.length_map,
      List.length_range]
    rfl

end Params

/-! ## Polynomials -/

def coeffOf (b : Bool) : ZMod 2 := if b then 1 else 0

theorem coeffOf_xor (a b : Bool) : coeffOf (a ^^ b) = coeffOf a + coeffOf b := by
  cases a <;> cases b <;> decide

noncomputable def toPoly (s : BitVec w) : (ZMod 2)[X] := ∑ i : Fin w, C (coeffOf (s.getLsbD i)) * X ^ (i : ℕ)

/-- The polynomial of a message, whose first bit is the highest coefficient. -/
noncomputable def messagePoly (l : List Bool) : (ZMod 2)[X] :=
  match l with
  | [] => 0
  | b :: l => C (coeffOf b) * X ^ l.length + messagePoly l

noncomputable def generator (poly : BitVec w) : (ZMod 2)[X] := X ^ w + toPoly poly

theorem degree_toPoly (s : BitVec w) : (toPoly s).degree < w := degree_sum_fin_lt _

theorem monic_generator (poly : BitVec w) : (generator poly).Monic := monic_X_pow_add (degree_toPoly poly)

theorem degree_generator (poly : BitVec w) : (generator poly).degree = w := by
  rw [generator, degree_add_eq_left_of_degree_lt, degree_X_pow]
  rw [degree_X_pow]
  exact degree_toPoly poly

theorem toPoly_xor (s t : BitVec w) : toPoly (s ^^^ t) = toPoly s + toPoly t := by
  unfold toPoly
  rw [← Finset.sum_add_distrib]
  refine Finset.sum_congr rfl fun i _ => ?_
  rw [BitVec.getLsbD_xor, coeffOf_xor, C_add, add_mul]

theorem toPoly_shiftLeft (s : BitVec w) : toPoly s * X = toPoly (s <<< 1) + C (coeffOf s.msb) * X ^ w := by
  cases w with
  | zero =>
    rw [BitVec.of_length_zero (x := s)]
    simp [toPoly, coeffOf]
  | succ w =>
    have hhigh : toPoly s * X = ∑ i : Fin (w + 1), C (coeffOf (s.getLsbD i)) * X ^ ((i : ℕ) + 1) := by
      rw [toPoly, Finset.sum_mul]
      exact Finset.sum_congr rfl fun i _ => by rw [mul_assoc, ← pow_succ]
    have hlow : toPoly (s <<< 1) = ∑ i : Fin w, C (coeffOf (s.getLsbD i)) * X ^ ((i : ℕ) + 1) := by
      rw [toPoly, Fin.sum_univ_succ]
      have hzero : (s <<< 1).getLsbD ((0 : Fin (w + 1)) : ℕ) = false := by simp
      rw [hzero, show coeffOf false = 0 by rfl, C_0, zero_mul, zero_add]
      refine Finset.sum_congr rfl fun i _ => ?_
      rw [Fin.val_succ, BitVec.getLsbD_shiftLeft]
      simp
    rw [hhigh, hlow, Fin.sum_univ_castSucc, BitVec.msb_eq_getLsbD_last]
    simp

theorem toPoly_shift (poly s : BitVec w) (b : Bool) :
    toPoly s * X + C (coeffOf b) * X ^ w = toPoly (shift poly s b) + generator poly * C (coeffOf (s.msb ^^ b)) := by
  have htwo : (2 : (ZMod 2)[X]) = 0 := CharTwo.two_eq_zero
  have hsum : C (coeffOf (s.msb ^^ b)) = C (coeffOf s.msb) + C (coeffOf b) := by rw [coeffOf_xor, C_add]
  rw [toPoly_shiftLeft, shift, generator, hsum]
  split_ifs with h
  · have hone : C (coeffOf s.msb) + C (coeffOf b) = 1 := by
      rw [← hsum, h]
      exact C_1
    rw [toPoly_xor]
    linear_combination -toPoly poly * hone - toPoly poly * htwo
  · have hzero : C (coeffOf s.msb) + C (coeffOf b) = 0 := by
      rw [← hsum, Bool.eq_false_of_not_eq_true h]
      exact C_0
    linear_combination -toPoly poly * hzero

theorem toPoly_foldl (poly s : BitVec w) (l : List Bool) :
    ∃ q, toPoly s * X ^ l.length + messagePoly l * X ^ w = toPoly (l.foldl (shift poly) s) + generator poly * q := by
  induction l generalizing s with
  | nil => exact ⟨0, by simp [messagePoly]⟩
  | cons b l ih =>
    obtain ⟨q, hq⟩ := ih (shift poly s b)
    have hstep := toPoly_shift poly s b
    refine ⟨q + C (coeffOf (s.msb ^^ b)) * X ^ l.length, ?_⟩
    rw [List.foldl_cons, List.length_cons, messagePoly]
    linear_combination hq + X ^ l.length * hstep

/-- The register holds the remainder of the message, with as many zeros after it as it has bits, and the first state before
it, by the generator. -/
theorem toPoly_run (poly s : BitVec w) (l : List Bool) :
    toPoly (l.foldl (shift poly) s) = (toPoly s * X ^ l.length + messagePoly l * X ^ w) %ₘ generator poly := by
  obtain ⟨q, hq⟩ := toPoly_foldl poly s l
  refine ((div_modByMonic_unique q _ (monic_generator poly) ⟨hq.symm, ?_⟩).2).symm
  rw [degree_generator]
  exact degree_toPoly _

end Yjc.Crc
