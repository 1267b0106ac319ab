import Mathlib.Logic.Relation
import Mathlib.Tactic.Common

/-! Loops as iterated bodies: a body either goes round again or leaves with a result.
The fuel of `run` only bounds the rounds, so a divergent loop is one that no fuel finishes. -/

namespace Yjc.Loop
variable {σ ρ : Type*}

def run (body : σ → σ ⊕ ρ) : ℕ → σ → Option ρ
  | 0, _ => none
  | n + 1, s =>
    match body s with
    | .inl s' => run body n s'
    | .inr r => some r

/-- `Visits body s t`: the loop started in `s` comes round to `t`. -/
def Visits (body : σ → σ ⊕ ρ) : σ → σ → Prop :=
  Relation.ReflTransGen fun s t => body s = .inl t

theorem run_again {body : σ → σ ⊕ ρ} {s t : σ} (h : body s = .inl t) (n : ℕ) :
    run body (n + 1) s = run body n t := by
  simp only [run, h]

theorem run_leave {body : σ → σ ⊕ ρ} {s : σ} {r : ρ} (h : body s = .inr r) (n : ℕ) :
    run body (n + 1) s = some r := by
  simp only [run, h]

theorem run_mono {body : σ → σ ⊕ ρ} {n m : ℕ} {s : σ} {r : ρ} (hnm : n ≤ m)
    (h : run body n s = some r) : run body m s = some r := by
  induction n generalizing m s with
  | zero => simp [run] at h
  | succ n ih =>
    obtain ⟨m, rfl⟩ : ∃ k, m = k + 1 := ⟨m - 1, by omega⟩
    cases hb : body s with
    | inl t =>
      rw [run_again hb] at h ⊢
      exact ih (by omega) h
    | inr r' =>
      rw [run_leave hb] at h ⊢
      exact h

/-- The rule for a loop that finishes: an invariant, a measure that drops on every round, and a
postcondition of every way out. -/
theorem run_of_measure (body : σ → σ ⊕ ρ) (Inv : σ → Prop) (Post : ρ → Prop) (μ : σ → ℕ)
    (round : ∀ s t, Inv s → body s = .inl t → Inv t ∧ μ t < μ s)
    (leave : ∀ s r, Inv s → body s = .inr r → Post r) {s : σ} (hs : Inv s) {n : ℕ} (hn : μ s < n) :
    ∃ r, run body n s = some r ∧ Post r := by
  induction n generalizing s with
  | zero => omega
  | succ n ih =>
    cases hb : body s with
    | inl t =>
      obtain ⟨ht, hlt⟩ := round s t hs hb
      rw [run_again hb]
      exact ih ht (by omega)
    | inr r => exact ⟨r, run_leave hb n, leave s r hs hb⟩

/-- The rule for a loop that never finishes: a set of states that each round stays in. -/
theorem run_none_of_trapped (body : σ → σ ⊕ ρ) (Trap : σ → Prop)
    (round : ∀ s, Trap s → ∃ t, body s = .inl t ∧ Trap t) {s : σ} (hs : Trap s) (n : ℕ) :
    run body n s = none := by
  induction n generalizing s with
  | zero => rfl
  | succ n ih =>
    obtain ⟨t, hb, ht⟩ := round s hs
    rw [run_again hb]
    exact ih ht

theorem Visits.refl (body : σ → σ ⊕ ρ) (s : σ) : Visits body s s := Relation.ReflTransGen.refl

theorem Visits.round {body : σ → σ ⊕ ρ} {s t u : σ} (h : Visits body s t) (hb : body t = .inl u) :
    Visits body s u := Relation.ReflTransGen.tail h hb

theorem Visits.invariant {body : σ → σ ⊕ ρ} (Inv : σ → Prop)
    (round : ∀ s t, Inv s → body s = .inl t → Inv t) {s t : σ} (hs : Inv s) (h : Visits body s t) :
    Inv t := by
  induction h with
  | refl => exact hs
  | tail _ hb ih => exact round _ _ ih hb

theorem Visits.run_eq {body : σ → σ ⊕ ρ} {s t : σ} (h : Visits body s t) :
    ∃ k, ∀ n, run body (n + k) s = run body n t := by
  -- some fuel brings the loop from `s` to the state `t` it visits, and no less
  induction h with
  | refl => exact ⟨0, fun _ => rfl⟩
  | tail _ hb ih =>
    obtain ⟨k, hk⟩ := ih
    refine ⟨k + 1, fun n => ?_⟩
    rw [show n + (k + 1) = (n + 1) + k by omega, hk, run_again hb]

theorem exists_visits_of_run {body : σ → σ ⊕ ρ} {n : ℕ} {s : σ} {r : ρ} (h : run body n s = some r) :
    ∃ t, Visits body s t ∧ body t = .inr r := by
  induction n generalizing s with
  | zero => simp [run] at h
  | succ n ih =>
    cases hb : body s with
    | inl u =>
      rw [run_again hb] at h
      obtain ⟨t, hv, ht⟩ := ih h
      exact ⟨t, Relation.ReflTransGen.head hb hv, ht⟩
    | inr r' =>
      rw [run_leave hb] at h
      cases h
      exact ⟨s, .refl body s, hb⟩

end Yjc.Loop
