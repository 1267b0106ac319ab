import Mathlib.Tactic.Common
import Mathlib.Data.List.Basic
import Mathlib.Tactic.SplitIfs

/-! Shortest paths where weights are not negative. `E u v x` is an edge from `u` to `v` with the weight `x`, and there may be
several; the labels of Dijkstra's algorithm are for one weight for each pair of nodes. -/

namespace Yjc.ShortestPath
variable {ι : Type*} {E : ι → ι → ℕ → Prop} {a u v : ι} {l : List ι} {c x M : ℕ}

/-- The walks that begin at `a`, with their weights. -/
inductive Walk (E : ι → ι → ℕ → Prop) (a : ι) : ι → ℕ → Prop
  | nil : Walk E a a 0
  | snoc {u v : ι} {c x : ℕ} (h : Walk E a u c) (he : E u v x) : Walk E a v (c + x)

/-- The walks that come to no node twice, with their nodes from the last one back. -/
inductive Path (E : ι → ι → ℕ → Prop) (a : ι) : List ι → ℕ → Prop
  | nil : Path E a [a] 0
  | snoc {u v : ι} {l : List ι} {c x : ℕ} (h : Path E a (u :: l) c) (he : E u v x) (hv : v ∉ u :: l) :
    Path E a (v :: u :: l) (c + x)

def Shortest (E : ι → ι → ℕ → Prop) (a v : ι) (c : ℕ) : Prop := Walk E a v c ∧ ∀ d, Walk E a v d → c ≤ d

theorem Path.walk (h : Path E a (v :: l) c) : Walk E a v c := by
  generalize hl : v :: l = vl at h
  induction h generalizing v l with
  | nil =>
    cases hl
    exact .nil
  | snoc _ he _ ih =>
    cases hl
    exact .snoc (ih rfl) he

theorem Path.last (h : Path E a (v :: l) c) : v = a ∨ ∃ u x, E u v x := by
  cases h with
  | nil => exact .inl rfl
  | snoc _ he _ => exact .inr ⟨_, _, he⟩

theorem Walk.map {κ : Type*} {F : κ → κ → ℕ → Prop} (f : ι → κ) (hf : ∀ u v x, E u v x → F (f u) (f v) x) (h : Walk E a v c) :
    Walk F (f a) (f v) c := by
  induction h with
  | nil => exact .nil
  | snoc _ he ih => exact .snoc ih (hf _ _ _ he)

theorem Path.map {κ : Type*} {F : κ → κ → ℕ → Prop} (f : ι → κ) {S : ι → Prop} (hf : ∀ u v x, E u v x → F (f u) (f v) x)
    (ha : S a) (hS : ∀ u v x, E u v x → S v) (hinj : ∀ u v, S u → S v → f u = f v → u = v) (h : Path E a l c) :
    Path F (f a) (l.map f) c := by
  suffices hmap : Path F (f a) (l.map f) c ∧ ∀ u ∈ l, S u from hmap.1
  induction h with
  | nil => exact ⟨.nil, by simpa using ha⟩
  | snoc _ he hv ih =>
    obtain ⟨hpath, hall⟩ := ih
    have hSv := hS _ _ _ he
    refine ⟨.snoc hpath (hf _ _ _ he) ?_, List.forall_mem_cons.mpr ⟨hSv, hall⟩⟩
    rw [← List.map_cons]
    intro hmem
    obtain ⟨u, hu, heq⟩ := List.mem_map.mp hmem
    exact hv (hinj u _ (hall u hu) hSv heq ▸ hu)

theorem Shortest.unique {d : ℕ} (h : Shortest E a v c) (h' : Shortest E a v d) : c = d :=
  Nat.le_antisymm (h.2 d h'.1) (h'.2 c h.1)

/-- Labels that no edge improves are below the weights of all walks. -/
theorem Walk.ge_of_feasible {dist : ι → ℕ} (hM : dist a < M) (hzero : dist a = 0)
    (hfeas : ∀ u v x, dist u < M → E u v x → dist v < M ∧ dist v ≤ dist u + x) (h : Walk E a v c) :
    dist v < M ∧ dist v ≤ c := by
  induction h with
  | nil => exact ⟨hM, Nat.le_of_eq hzero⟩
  | snoc _ he ih =>
    obtain ⟨hlt, hle⟩ := hfeas _ _ _ ih.1 he
    exact ⟨hlt, Nat.le_trans hle (Nat.add_le_add_right ih.2 _)⟩

theorem Walk.le_of_potential {f : ι → ℕ} (hf : ∀ u v x, E u v x → f u + x ≤ f v) (h : Walk E a v c) : f a + c ≤ f v := by
  -- along a walk a potential goes up by the weights
  induction h with
  | nil => exact Nat.le_refl _
  | snoc _ he ih =>
    rw [← Nat.add_assoc]
    exact Nat.le_trans (Nat.add_le_add_right ih _) (hf _ _ _ he)

theorem Path.le_of_potential {f : ι → ℕ} (hf : ∀ u v x, E u v x → f u + x ≤ f v) (hM : ∀ v, f v ≤ M) (h : Path E a l c) :
    c ≤ M := by
  cases h with
  | nil => exact Nat.zero_le M
  | snoc h he hv => exact Nat.le_trans (Nat.le_of_add_left_le ((h.snoc he hv).walk.le_of_potential hf)) (hM _)

/-! ## Dijkstra's labels -/

/-- The edges with the weights `w`. -/
def Of (w : ι → ι → Option ℕ) (u v : ι) (x : ℕ) : Prop := w u v = some x

/-- The labels when the nodes that are done have been looked at; `M` is for no path. -/
structure Labels (w : ι → ι → Option ℕ) (a : ι) (M : ℕ) (dist : ι → ℕ) (pred : ι → Option ι) (done : ι → Prop) : Prop where
  source : dist a = 0
  le : ∀ v, dist v ≤ M
  path : ∀ v, dist v < M → ∃ l, Path (Of w) a (v :: l) (dist v) ∧ ∀ u ∈ l, done u
  pred_none : ∀ v, pred v = none ↔ v = a ∨ dist v = M
  pred_some : ∀ v u, pred v = some u → done u ∧ dist u < M ∧ ∃ x, w u v = some x ∧ dist v = dist u + x
  relaxed : ∀ u v x, done u → dist u < M → w u v = some x → dist v < M ∧ dist v ≤ dist u + x
  order : ∀ u v, done u → ¬done v → dist u ≤ dist v

/-- What one round makes of the labels of `v`, with the node `u` done: better ones over `u`, or the same. -/
def Relaxed (w : ι → ι → Option ℕ) (M : ℕ) (dist : ι → ℕ) (pred : ι → Option ι) (done : ι → Prop) (u v : ι) (d : ℕ)
    (p : Option ι) : Prop :=
  (∃ x, w u v = some x ∧ ¬done v ∧ dist u < M ∧ dist u + x < dist v ∧ d = dist u + x ∧ p = some u) ∨
    ((∀ x, w u v = some x → ¬done v → dist u < M → dist v ≤ dist u + x) ∧ d = dist v ∧ p = pred v)

variable {w : ι → ι → Option ℕ} {dist d : ι → ℕ} {pred p : ι → Option ι} {done : ι → Prop}

theorem labels_start (hzero : dist a = 0) (hinf : ∀ v, v ≠ a → dist v = M) (hpred : ∀ v, pred v = none)
    (hdone : ∀ v, ¬done v) : Labels w a M dist pred done where
  source := hzero
  le v := by
    rcases eq_or_ne v a with rfl | hv
    · exact hzero ▸ Nat.zero_le M
    · exact Nat.le_of_eq (hinf v hv)
  path v hv := by
    rcases eq_or_ne v a with rfl | hne
    · rw [hzero]
      exact ⟨[], .nil, by simp⟩
    · exact absurd (hinf v hne) (Nat.ne_of_lt hv)
  pred_none v := by
    refine iff_of_true (hpred v) ?_
    exact (eq_or_ne v a).imp id (hinf v)
  pred_some v u h := by simp [hpred] at h
  relaxed u v x h := absurd h (hdone u)
  order u v h := absurd h (hdone u)

theorem Labels.add_lt (h : Labels w a M dist pred done) (hbound : ∀ l c, Path (Of w) a l c → c < M) (hw : w u v = some x)
    (hv : ¬done v) (hne : v ≠ u) (hlt : dist u < M) : dist u + x < M := by
  obtain ⟨l, hpath, hl⟩ := h.path u hlt
  refine hbound _ _ (.snoc hpath hw ?_)
  intro hmem
  rcases List.mem_cons.mp hmem with rfl | hmem
  · exact hne rfl
  · exact hv (hl v hmem)

theorem Labels.round (h : Labels w a M dist pred done) (hbound : ∀ l c, Path (Of w) a l c → c < M) (hu : ¬done u)
    (hmin : ∀ v, ¬done v → dist u ≤ dist v) (hround : ∀ v, Relaxed w M dist pred (fun v => done v ∨ v = u) u v (d v) (p v)) :
    Labels w a M d p fun v => done v ∨ v = u := by
  -- labels of nodes that are done stay
  have hkeep (v : ι) (hv : done v ∨ v = u) : d v = dist v := by
    rcases hround v with ⟨_, -, hnot, -⟩ | ⟨-, hd, -⟩
    · exact absurd hv hnot
    · exact hd
  have hbetter (v : ι) (x : ℕ) (hw : w u v = some x) (hv : ¬(done v ∨ v = u)) (hlt : dist u < M) : dist u + x < M :=
    h.add_lt hbound hw (fun hdone => hv (.inl hdone)) (fun he => hv (.inr he)) hlt
  have hle (v : ι) : d v ≤ dist v := by
    rcases hround v with ⟨x, -, -, -, hlt, hd, -⟩ | ⟨-, hd, -⟩
    · exact hd ▸ Nat.le_of_lt hlt
    · exact Nat.le_of_eq hd
  have hge (v : ι) (hv : ¬(done v ∨ v = u)) : dist u ≤ d v := by
    rcases hround v with ⟨x, -, -, -, -, hd, -⟩ | ⟨-, hd, -⟩
    · exact hd ▸ Nat.le_add_right _ _
    · exact hd ▸ hmin v fun hdone => hv (.inl hdone)
  refine ⟨?_, fun v => Nat.le_trans (hle v) (h.le v), fun v hv => ?_, fun v => ?_, fun v u' hp => ?_,
    fun u' v x hdone hlt hw => ?_, fun u' v hdone hv => ?_⟩
  · exact Nat.eq_zero_of_le_zero (h.source ▸ hle a)
  · rcases hround v with ⟨x, hw, hnot, hlt, -, hd, -⟩ | ⟨-, hd, -⟩
    · obtain ⟨l, hpath, hl⟩ := h.path u hlt
      refine ⟨u :: l, hd ▸ .snoc hpath hw ?_, fun b hb => ?_⟩
      · intro hmem
        rcases List.mem_cons.mp hmem with rfl | hmem
        · exact hnot (.inr rfl)
        · exact hnot (.inl (hl v hmem))
      · rcases List.mem_cons.mp hb with rfl | hb
        · exact .inr rfl
        · exact .inl (hl b hb)
    · rw [hd] at hv ⊢
      obtain ⟨l, hpath, hl⟩ := h.path v hv
      exact ⟨l, hpath, fun b hb => .inl (hl b hb)⟩
  · rcases hround v with ⟨x, -, -, -, hlt, hd, hp⟩ | ⟨-, hd, hp⟩
    · have hM := Nat.lt_of_lt_of_le hlt (h.le v)
      refine iff_of_false (by rw [hp]; simp) (not_or.mpr ⟨?_, by omega⟩)
      rintro rfl
      rw [h.source] at hlt
      exact Nat.not_lt_zero _ hlt
    · rw [hp, hd]
      exact h.pred_none v
  · rcases hround v with ⟨x, hw, hnot, hlt, -, hd, hpu⟩ | ⟨-, hd, hpv⟩
    · obtain rfl : u = u' := Option.some.inj (hpu.symm.trans hp)
      rw [hkeep u (.inr rfl)]
      exact ⟨.inr rfl, hlt, x, hw, hd⟩
    · obtain ⟨hdone, hlt, x, hw, hdist⟩ := h.pred_some v u' (hpv.symm.trans hp)
      rw [hkeep u' (.inl hdone)]
      exact ⟨.inl hdone, hlt, x, hw, hd.trans hdist⟩
  · rw [hkeep u' hdone] at hlt ⊢
    rcases hdone with hdone | rfl
    · obtain ⟨hM, hdist⟩ := h.relaxed u' v x hdone hlt hw
      exact ⟨Nat.lt_of_le_of_lt (hle v) hM, Nat.le_trans (hle v) hdist⟩
    · by_cases hv : done v ∨ v = u'
      · rw [hkeep v hv]
        have hdist : dist v ≤ dist u' := by
          rcases hv with hv | rfl
          · exact h.order v u' hv hu
          · exact Nat.le_refl _
        exact ⟨Nat.lt_of_le_of_lt hdist hlt, Nat.le_trans hdist (Nat.le_add_right _ _)⟩
      · have hdist : d v ≤ dist u' + x := by
          rcases hround v with ⟨y, hy, -, -, -, hd, -⟩ | ⟨hnot, hd, -⟩
          · obtain rfl := Option.some.inj (hw.symm.trans hy)
            exact Nat.le_of_eq hd
          · exact hd ▸ hnot x hw hv hlt
        exact ⟨Nat.lt_of_le_of_lt hdist (hbetter v x hw hv hlt), hdist⟩
  · rw [hkeep u' hdone]
    refine Nat.le_trans ?_ (hge v hv)
    rcases hdone with hdone | rfl
    · exact h.order u' u hdone hu
    · exact Nat.le_refl _

/-- When no edge leads on to a node that is not done, the labels are the least weights. -/
theorem Labels.shortest (h : Labels w a M dist pred done) (hM : 0 < M)
    (hlast : ∀ u v x, ¬done u → w u v = some x → v = u ∨ done v) (v : ι) :
    (dist v < M ↔ ∃ c, Walk (Of w) a v c) ∧ (dist v < M → Shortest (Of w) a v (dist v)) := by
  have hfeas : ∀ u v x, dist u < M → Of w u v x → dist v < M ∧ dist v ≤ dist u + x := by
    intro u v x hu hw
    by_cases hdone : done u
    · exact h.relaxed u v x hdone hu hw
    · rcases hlast u v x hdone hw with rfl | hv
      · exact ⟨hu, Nat.le_add_right _ _⟩
      · have hle := h.order v u hv hdone
        exact ⟨Nat.lt_of_le_of_lt hle hu, Nat.le_trans hle (Nat.le_add_right _ _)⟩
  have hwalk (c : ℕ) (hw : Walk (Of w) a v c) : dist v < M ∧ dist v ≤ c :=
    hw.ge_of_feasible (by rw [h.source]; exact hM) h.source hfeas
  have hreach (hv : dist v < M) : Walk (Of w) a v (dist v) := by
    obtain ⟨l, hpath, -⟩ := h.path v hv
    exact hpath.walk
  exact ⟨⟨fun hv => ⟨_, hreach hv⟩, fun ⟨c, hc⟩ => (hwalk c hc).1⟩, fun hv => ⟨hreach hv, fun c hc => (hwalk c hc).2⟩⟩

end Yjc.ShortestPath
