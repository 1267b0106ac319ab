import Mathlib.Algebra.Order.Ring.Int
import Mathlib.Order.Bounds.Basic

/-! Events that recur at most once in each period of a calendar, and the first one after a time. -/

namespace Yjc

/-- Periods are numbered in the order of time, and an event occurs at a time of its own in each period that has one. -/
structure Recurs {τ : Type*} [LinearOrder τ] (period : τ → ℤ) (has : ℤ → Prop) (event : ℤ → τ) (occurs : τ → Prop) : Prop where
  mono : ∀ s t, s ≤ t → period s ≤ period t
  period_event : ∀ k, has k → period (event k) = k
  occurs_iff : ∀ s, occurs s ↔ has (period s) ∧ s = event (period s)

namespace Recurs
variable {τ : Type*} [LinearOrder τ] {period : τ → ℤ} {has : ℤ → Prop} {event : ℤ → τ} {occurs : τ → Prop} {s t : τ} {k : ℤ}

theorem occurs_event (h : Recurs period has event occurs) (hk : has k) : occurs (event k) := by
  rw [h.occurs_iff, h.period_event k hk]
  exact ⟨hk, rfl⟩

theorem event_le (h : Recurs period has event occurs) (hk : has k) (hs : occurs s) (hle : k ≤ period s) : event k ≤ s := by
  obtain ⟨_, hevent⟩ := (h.occurs_iff s).mp hs
  rcases Int.lt_or_eq_of_le hle with hlt | heq
  · refine le_of_not_gt fun hgt => ?_
    have hperiod := h.mono _ _ hgt.le
    rw [h.period_event k hk] at hperiod
    omega
  · exact (heq ▸ hevent).ge

theorem isLeast_now (h : Recurs period has event occurs) (hk : has (period t)) (hlt : t < event (period t)) :
    IsLeast {s | t < s ∧ occurs s} (event (period t)) := by
  refine ⟨⟨hlt, h.occurs_event hk⟩, fun s hs => ?_⟩
  exact h.event_le hk hs.2 (h.mono _ _ hs.1.le)

theorem isLeast_next (h : Recurs period has event occurs) (hpassed : has (period t) → event (period t) ≤ t) (hk : has (period t + 1)) :
    IsLeast {s | t < s ∧ occurs s} (event (period t + 1)) := by
  refine ⟨⟨?_, h.occurs_event hk⟩, fun s hs => ?_⟩
  · refine lt_of_not_ge fun hge => ?_
    have hperiod := h.mono _ _ hge
    rw [h.period_event _ hk] at hperiod
    omega
  · obtain ⟨hlt, hs⟩ := hs
    obtain ⟨hhas, hevent⟩ := (h.occurs_iff s).mp hs
    refine h.event_le hk hs (Int.add_one_le_of_lt (lt_of_le_of_ne (h.mono _ _ hlt.le) fun heq => ?_))
    rw [← heq] at hhas hevent
    exact absurd (hpassed hhas) (not_le_of_gt (hevent ▸ hlt))

theorem isLeast_iff (h : Recurs period has event occurs) {r : τ} (hnow : t < event (period t) → r = event (period t))
    (hnext : has (period t) → event (period t) ≤ t → r = event (period t + 1)) (hnone : ¬has (period t) → ¬occurs r)
    (hevent : ∀ k, ¬has k → ¬occurs (event k)) :
    IsLeast {s | t < s ∧ occurs s} r ↔ has (period t) ∧ (t < event (period t) ∨ has (period t + 1)) := by
  by_cases hk : has (period t)
  · rw [and_iff_right hk]
    by_cases hlt : t < event (period t)
    · rw [hnow hlt]
      exact iff_of_true (h.isLeast_now hk hlt) (.inl hlt)
    · have hle := le_of_not_gt hlt
      rw [hnext hk hle, or_iff_right hlt]
      refine ⟨fun hleast => ?_, fun hk' => h.isLeast_next (fun _ => hle) hk'⟩
      by_contra hk'
      exact hevent _ hk' hleast.1.2
  · exact iff_of_false (fun hleast => hnone hk hleast.1.2) fun hcond => hk hcond.1

theorem of_emod {p a c : ℤ} (hp : 0 < p) (ha : 0 ≤ a) (ha' : a < p) :
    Recurs (fun s => (s + c) / p) (fun _ => True) (fun k => k * p + a - c) (fun s : ℤ => (s + c) % p = a) := by
  -- the times of a residue class recur, once in each period from `-c` on
  refine ⟨fun s t hst => Int.ediv_le_ediv hp (Int.add_le_add_right hst c), fun k _ => ?_, fun s => ?_⟩
  · rw [Int.sub_add_cancel, Int.add_comm, Int.add_mul_ediv_right _ _ hp.ne', Int.ediv_eq_zero_of_lt ha ha', Int.zero_add]
  · have hdiv := Int.ediv_mul_add_emod (s + c) p
    rw [true_and]
    constructor
    · intro h
      omega
    · intro h
      omega

end Recurs

theorem isLeast_emod {p a c t r : ℤ} (hp : 0 < p) (ha : 0 ≤ a) (ha' : a < p) (hr : r = (t + c) / p * p + a - c) :
    IsLeast {s | t < s ∧ (s + c) % p = a} (if t < r then r else r + p) := by
  have h := @Recurs.of_emod p a c hp ha ha'
  subst hr
  by_cases hlt : t < (t + c) / p * p + a - c
  · rw [if_pos hlt]
    exact @Recurs.isLeast_now _ _ _ _ _ _ t h trivial hlt
  · rw [if_neg hlt]
    have hnext := @Recurs.isLeast_next _ _ _ _ _ _ t h (fun _ => not_lt.mp hlt) trivial
    rw [Int.add_mul, Int.one_mul] at hnext
    have heq : (t + c) / p * p + a - c + p = (t + c) / p * p + p + a - c := by omega
    rw [heq]
    exact hnext

end Yjc
