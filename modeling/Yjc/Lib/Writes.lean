import Mathlib.Algebra.Group.Defs
import Mathlib.Tactic.SplitIfs

/-! Computations that do not fail, and write to the state without reading it: the writes form a monoid. -/

namespace Yjc
universe u v
variable {σ α β : Type u} {ε : Type v} [Monoid σ] {P : α → σ → Prop} {Q R : β → σ → Prop} {x y : StateT σ (Except ε) β}

/-- In every state, the same value and the same write, which meet `P`. -/
def Writes (x : StateT σ (Except ε) α) (P : α → σ → Prop) : Prop := ∃ a w, (∀ s, x.run s = .ok (a, w * s)) ∧ P a w

namespace Writes

theorem of_pure {b : β} (h : Q b 1) : Writes (pure b : StateT σ (Except ε) β) Q :=
  ⟨b, 1, fun s => by rw [one_mul]; rfl, h⟩

theorem mono (hx : Writes x Q) (h : ∀ b w, Q b w → R b w) : Writes x R := by
  obtain ⟨b, w, hx, hQ⟩ := hx
  exact ⟨b, w, hx, h b w hQ⟩

theorem bind {x : StateT σ (Except ε) α} {f : α → StateT σ (Except ε) β} (hx : Writes x P)
    (hf : ∀ a w, P a w → Writes (f a) fun b v => Q b (v * w)) : Writes (x >>= f) Q := by
  obtain ⟨a, w, hx, hP⟩ := hx
  obtain ⟨b, v, hf, hQ⟩ := hf a w hP
  refine ⟨b, v * w, fun s => ?_, hQ⟩
  rw [StateT.run_bind, hx]
  exact (hf (w * s)).trans (by rw [mul_assoc])

theorem bind_modify {g : σ → σ} {w : σ} {f : PUnit → StateT σ (Except ε) β} (hg : ∀ s, g s = w * s)
    (hf : Writes (f ⟨⟩) fun b v => Q b (v * w)) : Writes (modify g >>= f) Q :=
  bind (P := fun _ v => v = w) ⟨⟨⟩, w, fun s => by rw [← hg]; rfl, rfl⟩ fun _ _ hv => hv ▸ hf

theorem bind_lift {e : Except ε α} {a : α} {f : α → StateT σ (Except ε) β} (he : e = .ok a) (hf : Writes (f a) Q) :
    Writes (liftM e >>= f) Q := by
  obtain ⟨b, w, hf, hQ⟩ := hf
  subst he
  exact ⟨b, w, hf, hQ⟩

theorem of_ite {c : Prop} [Decidable c] (hx : c → Writes x Q) (hy : ¬c → Writes y Q) : Writes (if c then x else y) Q := by
  split_ifs with hc
  · exact hx hc
  · exact hy hc

end Writes
end Yjc
