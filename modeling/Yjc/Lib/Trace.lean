import Mathlib.Data.List.Basic
import Mathlib.Tactic.Common

/-! Histories that a mark cuts into segments, and conditions on the order of the events of a segment. -/

namespace Yjc.Trace
variable {ε : Type*} {mark : ε} {tr seg : List ε} {e : ε}

def Since (mark : ε) (tr seg : List ε) : Prop := ∃ pre, tr = pre ++ mark :: seg ∧ mark ∉ seg

/-- The condition holds of the events between a mark and any event before the next. -/
def Every (mark : ε) (P : List ε → Prop) (tr : List ε) : Prop :=
  ∀ pre seg post, tr = pre ++ mark :: seg ++ post → mark ∉ seg → P seg

theorem Since.snoc (h : Since mark tr seg) (he : e ≠ mark) : Since mark (tr ++ [e]) (seg ++ [e]) := by
  obtain ⟨pre, rfl, hm⟩ := h
  refine ⟨pre, by simp, ?_⟩
  rw [List.mem_append, List.mem_singleton]
  rintro (h | h)
  · exact hm h
  · exact he h.symm

theorem since_mark (mark : ε) (tr : List ε) : Since mark (tr ++ [mark]) [] := ⟨tr, rfl, List.not_mem_nil⟩

theorem Since.unique {seg' : List ε} (h : Since mark tr seg) (h' : Since mark tr seg') : seg = seg' := by
  obtain ⟨pre, rfl, hm⟩ := h
  obtain ⟨pre', heq, hm'⟩ := h'
  induction pre generalizing pre' with
  | nil =>
    cases pre' with
    | nil => exact (List.cons.inj heq).2
    | cons x pre' =>
      refine absurd ?_ hm
      rw [(List.cons.inj heq).2]
      exact List.mem_append_right _ List.mem_cons_self
  | cons x pre ih =>
    cases pre' with
    | nil =>
      refine absurd ?_ hm'
      rw [← (List.cons.inj heq).2]
      exact List.mem_append_right _ List.mem_cons_self
    | cons y pre' => exact ih pre' (List.cons.inj heq).2

theorem Every.snoc {P : List ε → Prop} (h : Every mark P tr) (hnew : ∀ seg, Since mark (tr ++ [e]) seg → P seg) :
    Every mark P (tr ++ [e]) := by
  intro pre seg post heq hm
  rcases List.eq_nil_or_concat post with rfl | ⟨post, x, rfl⟩
  · exact hnew seg ⟨pre, by rw [heq, List.append_nil], hm⟩
  · rw [List.concat_eq_append, ← List.append_assoc] at heq
    exact h pre seg post (List.append_inj_left' heq rfl) hm

/-- After the first event that asks, none that stops comes before one that releases. -/
def Guarded (asks releases stops : ε → Prop) (seg : List ε) : Prop :=
  ∀ before a after x rest, seg = before ++ a :: after ++ x :: rest → asks a → stops x → (∀ e ∈ before, ¬asks e) →
    ∃ e ∈ after, releases e

/-- Some event has asked, and none has released since the first one did. -/
def Pending (asks releases : ε → Prop) (seg : List ε) : Prop :=
  ∃ before a after, seg = before ++ a :: after ∧ asks a ∧ (∀ e ∈ before, ¬asks e) ∧ ∀ e ∈ after, ¬releases e

section
variable {asks releases stops : ε → Prop}

theorem Guarded.snoc (h : Guarded asks releases stops seg) (he : stops e → ¬Pending asks releases seg) :
    Guarded asks releases stops (seg ++ [e]) := by
  intro before a after x rest heq ha hx hb
  rcases List.eq_nil_or_concat rest with rfl | ⟨rest, y, rfl⟩
  · have hseg : seg = before ++ a :: after ∧ [e] = [x] := List.append_inj' heq rfl
    cases hseg.2
    by_contra hno
    push Not at hno
    exact he hx ⟨before, a, after, hseg.1, ha, hb, hno⟩
  · rw [List.concat_eq_append, ← List.cons_append, ← List.append_assoc] at heq
    exact h before a after x rest (List.append_inj_left' heq rfl) ha hx hb

theorem pending_snoc (h : Pending asks releases (seg ++ [e])) :
    Pending asks releases seg ∧ ¬releases e ∨ asks e ∧ ∀ x ∈ seg, ¬asks x := by
  obtain ⟨before, a, after, heq, ha, hb, hn⟩ := h
  rcases List.eq_nil_or_concat after with rfl | ⟨after, y, rfl⟩
  · have hseg : seg = before ∧ [e] = [a] := List.append_inj' heq rfl
    cases hseg.2
    exact .inr ⟨ha, hseg.1 ▸ hb⟩
  · rw [List.concat_eq_append, ← List.cons_append, ← List.append_assoc] at heq
    have hseg := List.append_inj' heq rfl
    cases hseg.2
    rw [List.concat_eq_append] at hn
    exact .inl ⟨⟨before, a, after, hseg.1, ha, hb, fun x hx => hn x (List.mem_append_left _ hx)⟩,
      hn e (List.mem_append_right _ List.mem_cons_self)⟩

end

end Yjc.Trace
