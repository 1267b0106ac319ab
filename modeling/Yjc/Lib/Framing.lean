import Mathlib.Data.List.Basic
import Mathlib.Tactic.Common

/-! Framing of a stream into packages. A framer reads the length of the first package off the front
of a stream once enough of it is there, and does not change its mind when more arrives. Cutting a
stream into packages then does not depend on how it arrives. -/

namespace Yjc
variable {α : Type*}

structure Framer (α : Type*) where
  next : List α → Option ℕ
  pos : ∀ {xs n}, next xs = some n → 0 < n
  le_length : ∀ {xs n}, next xs = some n → n ≤ xs.length
  stable : ∀ {xs n} (ys), next xs = some n → next (xs ++ ys) = some n

namespace Framer

def scanFuel (next : List α → Option ℕ) : ℕ → List α → List (List α) × List α
  | 0, xs => ([], xs)
  | k + 1, xs =>
    match next xs with
    | none => ([], xs)
    | some n => (xs.take n :: (scanFuel next k (xs.drop n)).1, (scanFuel next k (xs.drop n)).2)

variable (F : Framer α)

/-- The packages of a stream from the left, and the rest that is not yet one. -/
def scan (xs : List α) : List (List α) × List α := scanFuel F.next xs.length xs

def packages (xs : List α) : List (List α) := (F.scan xs).1

def rest (xs : List α) : List α := (F.scan xs).2

theorem scanFuel_eq (k j : ℕ) (xs : List α) (hk : xs.length ≤ k) (hj : xs.length ≤ j) :
    scanFuel F.next k xs = scanFuel F.next j xs := by
  induction k generalizing j xs with
  | zero =>
    cases j with
    | zero => rfl
    | succ j =>
      have hn : F.next xs = none := by
        cases h : F.next xs with
        | none => rfl
        | some n =>
          have := F.pos h
          have := F.le_length h
          omega
      simp only [scanFuel, hn]
  | succ k ih =>
    cases hn : F.next xs with
    | none => cases j <;> simp only [scanFuel, hn]
    | some n =>
      have hpos := F.pos hn
      have hle := F.le_length hn
      obtain ⟨j, rfl⟩ : ∃ i, j = i + 1 := ⟨j - 1, by omega⟩
      have hl : (xs.drop n).length = xs.length - n := List.length_drop ..
      simp only [scanFuel, hn, ih j (xs.drop n) (by omega) (by omega)]

theorem scan_none {xs : List α} (h : F.next xs = none) : F.scan xs = ([], xs) := by
  unfold scan
  cases xs.length <;> simp only [scanFuel, h]

theorem scan_some {xs : List α} {n : ℕ} (h : F.next xs = some n) :
    F.scan xs = (xs.take n :: F.packages (xs.drop n), F.rest (xs.drop n)) := by
  have hpos := F.pos h
  have hle := F.le_length h
  have hl : (xs.drop n).length = xs.length - n := List.length_drop ..
  obtain ⟨k, hk⟩ : ∃ k, xs.length = k + 1 := ⟨xs.length - 1, by omega⟩
  have hs := F.scanFuel_eq k (xs.drop n).length (xs.drop n) (by omega) (Nat.le_refl _)
  simp only [packages, rest, scan, ← hs]
  rw [hk]
  simp only [scanFuel, h]

theorem packages_none {xs : List α} (h : F.next xs = none) : F.packages xs = [] := by
  rw [packages, F.scan_none h]

theorem rest_none {xs : List α} (h : F.next xs = none) : F.rest xs = xs := by rw [rest, F.scan_none h]

theorem packages_some {xs : List α} {n : ℕ} (h : F.next xs = some n) :
    F.packages xs = xs.take n :: F.packages (xs.drop n) := by
  rw [packages, F.scan_some h]

theorem rest_some {xs : List α} {n : ℕ} (h : F.next xs = some n) : F.rest xs = F.rest (xs.drop n) := by
  conv_lhs => rw [rest, F.scan_some h]

theorem scan_induction {motive : List α → Prop} (none : ∀ xs, F.next xs = none → motive xs)
    (some : ∀ xs n, F.next xs = some n → motive (xs.drop n) → motive xs) (xs : List α) : motive xs := by
  induction hl : xs.length using Nat.strongRecOn generalizing xs with
  | ind l ih =>
    cases h : F.next xs with
    | none => exact none xs h
    | some n =>
      have hpos := F.pos h
      have hle := F.le_length h
      exact some xs n h (ih _ (by rw [List.length_drop]; omega) _ rfl)

theorem next_rest (xs : List α) : F.next (F.rest xs) = none := by
  induction xs using F.scan_induction with
  | none xs h => rwa [F.rest_none h]
  | some xs n h ih => rwa [F.rest_some h]

theorem packages_append (xs ys : List α) : F.packages (xs ++ ys) = F.packages xs ++ F.packages (F.rest xs ++ ys) := by
  -- the packages of a longer stream are those of its front, then those of what was left over and the new part
  induction xs using F.scan_induction with
  | none xs h => rw [F.packages_none h, F.rest_none h, List.nil_append]
  | some xs n h ih =>
    have hle := F.le_length h
    rw [F.packages_some (F.stable ys h), F.packages_some h, F.rest_some h, List.take_append_of_le_length hle,
      List.drop_append_of_le_length hle, ih, List.cons_append]

theorem rest_append (xs ys : List α) : F.rest (xs ++ ys) = F.rest (F.rest xs ++ ys) := by
  induction xs using F.scan_induction with
  | none xs h => rw [F.rest_none h]
  | some xs n h ih =>
    have hle := F.le_length h
    rw [F.rest_some (F.stable ys h), F.rest_some h, List.drop_append_of_le_length hle, ih]

/-! ## Framers given by the end of a package -/

section
variable (stop : List α → Prop) [DecidablePred stop]

/-- The first package is the shortest front of the stream, not empty, that `stop` accepts. -/
def upTo : Framer α where
  next xs := (List.range (xs.length + 1)).find? fun n => 0 < n ∧ stop (xs.take n)
  pos h := by
    have hp := List.find?_some h
    rw [decide_eq_true_eq] at hp
    exact hp.1
  le_length h := Nat.le_of_lt_succ (List.mem_range.mp (List.mem_of_find?_eq_some h))
  stable {xs n} ys h := by
    rw [List.find?_range_eq_some] at h ⊢
    obtain ⟨hn, hlt, hmin⟩ := h
    rw [List.mem_range] at hlt
    have htake (m : ℕ) (hm : m ≤ n) : (xs ++ ys).take m = xs.take m :=
      List.take_append_of_le_length (by omega)
    refine ⟨by rwa [htake n (Nat.le_refl n)], by simp; omega, fun m hm => ?_⟩
    rw [htake m (by omega)]
    exact hmin m hm

variable {stop}

theorem upTo_next_eq_some {xs : List α} {n : ℕ} (hn : 0 < n) (hle : n ≤ xs.length) (h : stop (xs.take n))
    (hmin : ∀ m, 0 < m → m < n → ¬stop (xs.take m)) : (upTo stop).next xs = some n := by
  refine List.find?_range_eq_some.mpr ⟨decide_eq_true ⟨hn, h⟩, by simp; omega, fun m hm => ?_⟩
  simp only [Bool.not_eq_true', decide_eq_false_iff_not, not_and]
  exact fun h0 => hmin m h0 hm

theorem stop_of_mem_packages {xs pkg : List α} (h : pkg ∈ (upTo stop).packages xs) : stop pkg := by
  induction xs using (upTo stop).scan_induction with
  | none xs hn => simp [(upTo stop).packages_none hn] at h
  | some xs n hn ih =>
    rw [(upTo stop).packages_some hn, List.mem_cons] at h
    rcases h with rfl | h
    · have hp := List.find?_some hn
      rw [decide_eq_true_eq] at hp
      exact hp.2
    · exact ih h

theorem upTo_next_eq_none {xs : List α} :
    (upTo stop).next xs = none ↔ ∀ n, 0 < n → n ≤ xs.length → ¬stop (xs.take n) := by
  simp only [upTo, List.find?_range_eq_none, Bool.not_eq_true', decide_eq_false_iff_not, not_and]
  exact ⟨fun h n h0 hn => h n (by omega) h0, fun h n hn h0 => h n h0 (by omega)⟩

/-! ## Streams made of packages -/

def Started (stop : List α → Prop) (xs : List α) : Prop :=
  ∃ (ys : List α) (pkgs : List (List α)), ys ≠ [] ∧ (∀ pkg ∈ pkgs, stop pkg) ∧ xs ++ ys = pkgs.flatten

omit [DecidablePred stop] in
theorem Started.of_append {xs ys : List α} (h : Started stop (xs ++ ys)) : Started stop xs := by
  obtain ⟨zs, pkgs, hz, hp, he⟩ := h
  exact ⟨ys ++ zs, pkgs, by simp [hz], hp, by rw [← he, List.append_assoc]⟩

omit [DecidablePred stop] in
theorem Started.first {xs : List α} (h : Started stop xs) :
    (∃ pkg zs, stop pkg ∧ xs = pkg ++ zs) ∨ ∃ zs, zs ≠ [] ∧ stop (xs ++ zs) := by
  obtain ⟨ys, pkgs, hy, hp, he⟩ := h
  cases pkgs with
  | nil => simp [hy] at he
  | cons p pkgs =>
    have hstop := hp p (by simp)
    rcases List.append_eq_append_iff.mp he with ⟨as, rfl, -⟩ | ⟨bs, rfl, -⟩
    · rcases eq_or_ne as [] with rfl | has
      · exact .inl ⟨xs, [], by rwa [List.append_nil] at hstop, (List.append_nil xs).symm⟩
      · exact .inr ⟨as, has, hstop⟩
    · exact .inl ⟨p, bs, hstop, rfl⟩

section
variable (free : ∀ p q, stop p → stop q → p <+: q → p = q) (nonempty : ∀ p, stop p → p ≠ [])
include free nonempty

theorem upTo_next_of_append {xs ys p zs : List α} (hp : stop p) (he : xs ++ ys = p ++ zs) :
    (upTo stop).next xs = if p.length ≤ xs.length then some p.length else none := by
  have htake (m : ℕ) (hx : m ≤ xs.length) (hm : m ≤ p.length) : xs.take m = p.take m := by
    rw [← List.take_append_of_le_length hx, he, List.take_append_of_le_length hm]
  have hlt (m : ℕ) (hx : m ≤ xs.length) (hm : m < p.length) : ¬stop (xs.take m) := by
    intro h
    rw [htake m hx (by omega)] at h
    have hl := congrArg List.length (free _ _ h hp (List.take_prefix m p))
    rw [List.length_take] at hl
    omega
  split_ifs with hle
  · refine upTo_next_eq_some (List.length_pos_iff.mpr (nonempty p hp)) hle ?_ fun m _ hm => hlt m (by omega) hm
    rwa [htake _ hle (Nat.le_refl _), List.take_length]
  · exact upTo_next_eq_none.mpr fun m _ hm => hlt m hm (by omega)

theorem Started.drop {xs ys : List α} {n : ℕ} (h : Started stop (xs ++ ys)) (hn : (upTo stop).next xs = some n) :
    Started stop (xs.drop n ++ ys) := by
  obtain ⟨zs, pkgs, hz, hp, he⟩ := h
  cases pkgs with
  | nil => simp [hz] at he
  | cons p pkgs =>
    rw [List.flatten_cons, List.append_assoc] at he
    have hnext := upTo_next_of_append free nonempty (hp p (by simp)) he
    rw [hn] at hnext
    split_ifs at hnext with hpl
    cases hnext
    refine ⟨zs, pkgs, hz, fun q hq => hp q (by simp [hq]), ?_⟩
    have hd := congrArg (List.drop p.length) he
    rwa [List.drop_append_of_le_length hpl, List.drop_left, ← List.append_assoc] at hd

theorem Started.rest {xs ys : List α} (h : Started stop (xs ++ ys)) : Started stop ((upTo stop).rest xs ++ ys) := by
  induction xs using (upTo stop).scan_induction with
  | none xs hn => rwa [(upTo stop).rest_none hn]
  | some xs n hn ih =>
    rw [(upTo stop).rest_some hn]
    exact ih (h.drop free nonempty hn)

theorem packages_rest_of_flatten {pkgs : List (List α)} {r q : List α} (hp : ∀ pkg ∈ pkgs, stop pkg) (hq : q ≠ [])
    (hr : stop (r ++ q)) :
    (upTo stop).packages (pkgs.flatten ++ r) = pkgs ∧ (upTo stop).rest (pkgs.flatten ++ r) = r := by
  induction pkgs with
  | nil =>
    have hnext : (upTo stop).next r = none := by
      rw [upTo_next_of_append free nonempty hr (List.append_nil (r ++ q)).symm, if_neg]
      rw [List.length_append]
      have := List.length_pos_iff.mpr hq
      omega
    rw [List.flatten_nil, List.nil_append]
    exact ⟨(upTo stop).packages_none hnext, (upTo stop).rest_none hnext⟩
  | cons p pkgs ih =>
    obtain ⟨ihp, ihr⟩ := ih fun q hq => hp q (by simp [hq])
    have hnext : (upTo stop).next ((p :: pkgs).flatten ++ r) = some p.length := by
      have he : (p :: pkgs).flatten ++ r ++ [] = p ++ (pkgs.flatten ++ r) := by
        rw [List.append_nil, List.flatten_cons, List.append_assoc]
      rw [upTo_next_of_append free nonempty (hp p (by simp)) he, if_pos (by simp)]
    rw [(upTo stop).packages_some hnext, (upTo stop).rest_some hnext, List.flatten_cons, List.append_assoc,
      List.take_left, List.drop_left, ihp]
    exact ⟨rfl, ihr⟩

end

end

end Framer
end Yjc
