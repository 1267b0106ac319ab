import Yjc.Lib.CText
import Yjc.Lib.ThreeWay

/-! Comparing strings, by the C library. -/

namespace Yjc.CLib
open ThreeWay

/-- Only the sign of what the library's function returns is specified. -/
def strcmp : List UInt8 → List UInt8 → ℤ
  | [], [] => 0
  | [], _ :: _ => -1
  | _ :: _, [] => 1
  | a :: s, b :: t => if a = b then strcmp s t else threeWay a.toNat b.toNat

def strncmp (s t : List UInt8) (n : ℕ) : ℤ := strcmp (s.take n) (t.take n)

/-- `strspn`, with the digits. -/
def digitSpan (s : List UInt8) : ℕ := (s.takeWhile isdigit).length

/-- `strcspn`, with the digits. -/
def digitCspan (s : List UInt8) : ℕ := (s.takeWhile (!isdigit ·)).length

variable {s t D E : List UInt8} {a b : UInt8} {n : ℕ}

theorem digitCspan_digit (h : isdigit a) (s : List UInt8) : digitCspan (a :: s) = 0 := by
  rw [digitCspan, List.takeWhile_cons_of_neg (by simp [h]), List.length_nil]

theorem digitCspan_char (h : ¬isdigit a) (s : List UInt8) : digitCspan (a :: s) = digitCspan s + 1 := by
  rw [digitCspan, List.takeWhile_cons_of_pos (by simpa using h), List.length_cons, digitCspan]

theorem strcmp_swap (s t : List UInt8) : strcmp t s = -strcmp s t := by
  induction s generalizing t with
  | nil => cases t <;> rfl
  | cons a s ih =>
    cases t with
    | nil => rfl
    | cons b t =>
      rw [strcmp, strcmp]
      by_cases h : a = b
      · rw [if_pos h, if_pos h.symm, ih]
      · rw [if_neg h, if_neg (Ne.symm h), threeWay_swap]

theorem strcmp_eq_zero : strcmp s t = 0 ↔ s = t := by
  induction s generalizing t with
  | nil => cases t <;> simp [strcmp]
  | cons a s ih =>
    cases t with
    | nil => simp [strcmp]
    | cons b t =>
      rw [strcmp, List.cons_eq_cons]
      by_cases h : a = b
      · rw [if_pos h, ih, and_iff_right h]
      · rw [if_neg h, threeWay_eq_zero, UInt8.toNat_inj]
        exact iff_of_false h fun heq => h heq.1

theorem strcmp_eq_threeWay (s t : List UInt8) : strcmp s t = threeWay (s.map UInt8.toNat) (t.map UInt8.toNat) := by
  induction s generalizing t with
  | nil =>
    cases t with
    | nil => exact (threeWay_eq_zero.mpr rfl).symm
    | cons b t => exact (threeWay_lt (List.nil_lt_cons _ _)).symm
  | cons a s ih =>
    cases t with
    | nil => exact (threeWay_gt (List.nil_lt_cons _ _)).symm
    | cons b t =>
      rw [strcmp, List.map_cons, List.map_cons, threeWay_cons, ← ih]
      simp only [UInt8.toNat_inj]

theorem strcmp_totalPreorder : TotalPreorder strcmp := by
  have hkey := totalPreorder_key (List.map UInt8.toNat)
  simp only [← strcmp_eq_threeWay] at hkey
  exact hkey

theorem strcmp_append (s : List UInt8) (c : UInt8) (t : List UInt8) : strcmp s (s ++ c :: t) = -1 := by
  induction s with
  | nil => rfl
  | cons a s ih => rw [List.cons_append, strcmp, if_pos rfl, ih]

theorem digits_inj (hD : ∀ c ∈ D, isdigit c) (hE : ∀ c ∈ E, isdigit c) (hlen : D.length = E.length) (h : digitsValue D = digitsValue E) :
    D = E := by
  induction D generalizing E with
  | nil => exact (List.length_eq_zero_iff.mp hlen.symm).symm
  | cons d D ih =>
    cases E with
    | nil => cases hlen
    | cons e E =>
      have hd := digit_range (hD d List.mem_cons_self)
      have he := digit_range (hE e List.mem_cons_self)
      have hD' : ∀ c ∈ D, isdigit c := fun c hc => hD c (List.mem_cons_of_mem d hc)
      have hE' : ∀ c ∈ E, isdigit c := fun c hc => hE c (List.mem_cons_of_mem e hc)
      have hlen' : D.length = E.length := Nat.succ.inj hlen
      have hltD := digitsValue_lt hD'
      have hltE := digitsValue_lt hE'
      rw [digitsValue_cons, digitsValue_cons, ← hlen'] at h
      rw [← hlen'] at hltE
      have hdiv := congrArg (· / 10 ^ D.length) h
      have hpos : 0 < 10 ^ D.length := Nat.pow_pos (by decide)
      simp only [Nat.mul_comm _ (10 ^ D.length), Nat.mul_add_div hpos, Nat.div_eq_of_lt hltD, Nat.div_eq_of_lt hltE, Nat.add_zero] at hdiv
      have hde : d = e := UInt8.toNat_inj.mp (by omega)
      subst hde
      rw [ih hD' hE' hlen' (Nat.add_left_cancel h)]

theorem strcmp_zeros (hD : ∀ c ∈ D, isdigit c) (hE : ∀ c ∈ E, isdigit c) (hlen : D.length < E.length)
    (h : digitsValue D = digitsValue E) (h0 : digitsValue D ≠ 0) : strcmp (D ++ s) (E ++ t) = 1 := by
  induction D generalizing E with
  | nil => exact absurd rfl h0
  | cons d D ih =>
    cases E with
    | nil => cases hlen
    | cons e E =>
      have hd := digit_range (hD d List.mem_cons_self)
      have he := digit_range (hE e List.mem_cons_self)
      have hlt := digitsValue_lt hD
      have hpow : 10 ^ (d :: D).length ≤ 10 ^ E.length := Nat.pow_le_pow_right (by decide) (Nat.le_of_lt_succ hlen)
      have he0 : e.toNat - 48 = 0 := by
        by_contra hne
        have hlead : 1 * 10 ^ E.length ≤ (e.toNat - 48) * 10 ^ E.length := Nat.mul_le_mul_right _ (by omega)
        rw [digitsValue_cons e E] at h
        omega
      rw [List.cons_append, List.cons_append, strcmp]
      by_cases hde : d = e
      · subst hde
        rw [if_pos rfl]
        rw [digitsValue_cons, digitsValue_cons, he0, Nat.zero_mul, Nat.zero_mul, Nat.zero_add, Nat.zero_add] at h
        rw [digitsValue_cons, he0, Nat.zero_mul, Nat.zero_add] at h0
        exact ih (fun c hc => hD c (List.mem_cons_of_mem d hc)) (fun c hc => hE c (List.mem_cons_of_mem d hc)) (Nat.lt_of_succ_lt_succ hlen) h h0
      · have hne := mt UInt8.toNat_inj.mp hde
        have hgt : e.toNat < d.toNat := by omega
        rw [if_neg hde, threeWay_gt hgt]

end Yjc.CLib
