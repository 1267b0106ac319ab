import Mathlib.Data.List.Nodup
import Mathlib.Data.List.Perm.Subperm
import Mathlib.Logic.Relation

/-! Depth-first search over a graph that is given by its lists of successors. -/

namespace Yjc.DepthFirst
variable {α : Type*}

/-- The nodes that were seen and those that the search from `a` adds to them. `none`: the depth of the calls exceeds
`fuel`, or a node has no list. -/
def visit [DecidableEq α] (succ : α → Option (List α)) : ℕ → α → List α → Option (List α)
  | 0, _, _ => none
  | fuel + 1, a, seen =>
    if a ∈ seen then some seen
    else (succ a).bind fun bs => bs.foldlM (fun seen b => visit succ fuel b seen) (seen ++ [a])

/-- There is an edge from `a` to `b`. -/
def Edge (succ : α → Option (List α)) (a b : α) : Prop := ∃ bs, succ a = some bs ∧ b ∈ bs

/-- What a search from the nodes `as` adds to `seen`. -/
structure Searched (succ : α → Option (List α)) (as seen seen' : List α) : Prop where
  grows : seen <+: seen'
  first : ∀ a ∈ as.head?, a ∉ seen → seen ++ [a] <+: seen'
  nodup : seen'.Nodup
  all : ∀ a ∈ as, a ∈ seen'
  reached : ∀ b ∈ seen', b ∈ seen ∨ ∃ a ∈ as, Relation.ReflTransGen (Edge succ) a b
  closed : ∀ b ∈ seen', b ∉ seen → ∀ c, Edge succ b c → c ∈ seen'

/-- All successors of the nodes of `U` are in `U`. -/
def Closed (succ : α → Option (List α)) (U : List α) : Prop := ∀ a ∈ U, ∃ bs, succ a = some bs ∧ ∀ b ∈ bs, b ∈ U

variable {succ : α → Option (List α)} {U as bs seen seen₁ seen₂ : List α} {a : α}

theorem Searched.refl (hnd : seen.Nodup) (has : ∀ a ∈ as, a ∈ seen) : Searched succ as seen seen where
  grows := List.prefix_refl seen
  first a ha hnot := absurd (has a (List.mem_of_mem_head? ha)) hnot
  nodup := hnd
  all := has
  reached _ hb := .inl hb
  closed _ hb hnot := absurd hb hnot

theorem Searched.cons (h₁ : Searched succ [a] seen seen₁) (h₂ : Searched succ as seen₁ seen₂) :
    Searched succ (a :: as) seen seen₂ where
  grows := h₁.grows.trans h₂.grows
  first b hb hnot := (h₁.first b hb hnot).trans h₂.grows
  nodup := h₂.nodup
  all b hb := by
    rcases List.mem_cons.mp hb with rfl | hb
    · exact h₂.grows.subset (h₁.all b (List.mem_singleton_self b))
    · exact h₂.all b hb
  reached b hb := by
    rcases h₂.reached b hb with hb | ⟨c, hc, hcb⟩
    · refine (h₁.reached b hb).imp_right fun ⟨c, hc, hcb⟩ => ⟨c, ?_, hcb⟩
      exact List.mem_cons.mpr (.inl (List.mem_singleton.mp hc))
    · exact .inr ⟨c, List.mem_cons_of_mem a hc, hcb⟩
  closed b hb hnot c hc := by
    by_cases hb₁ : b ∈ seen₁
    · exact h₂.grows.subset (h₁.closed b hb₁ hnot c hc)
    · exact h₂.closed b hb hb₁ c hc

theorem Searched.node (hbs : succ a = some bs) (h : Searched succ bs (seen ++ [a]) seen₂) : Searched succ [a] seen seen₂ where
  grows := (List.prefix_append seen [a]).trans h.grows
  first b hb _ := Option.some.inj hb ▸ h.grows
  nodup := h.nodup
  all b hb := by
    rw [List.mem_singleton] at hb
    exact h.grows.subset (List.mem_append_right seen (List.mem_singleton.mpr hb))
  reached b hb := by
    rcases h.reached b hb with hb | ⟨c, hc, hcb⟩
    · refine (List.mem_append.mp hb).imp_right fun hb => ⟨a, List.mem_singleton_self a, ?_⟩
      rw [List.mem_singleton.mp hb]
    · exact .inr ⟨a, List.mem_singleton_self a, .head ⟨bs, hbs, hc⟩ hcb⟩
  closed b hb hnot c hc := by
    by_cases hba : b = a
    · obtain ⟨cs, hcs, hmem⟩ := hc
      rw [hba, hbs, Option.some.injEq] at hcs
      exact h.all c (hcs ▸ hmem)
    · refine h.closed b hb ?_ c hc
      rw [List.mem_append, List.mem_singleton]
      exact not_or.mpr ⟨hnot, hba⟩

theorem Searched.mem_iff (h : Searched succ [a] [] seen) (b : α) : b ∈ seen ↔ Relation.ReflTransGen (Edge succ) a b := by
  constructor
  · intro hb
    rcases h.reached b hb with hb | ⟨c, hc, hcb⟩
    · cases hb
    · exact List.mem_singleton.mp hc ▸ hcb
  · intro hab
    induction hab with
    | refl => exact h.all a (List.mem_singleton_self a)
    | tail _ hbc ih => exact h.closed _ ih List.not_mem_nil _ hbc

theorem Closed.reach {b : α} (hU : Closed succ U) (ha : a ∈ U) (hab : Relation.ReflTransGen (Edge succ) a b) : b ∈ U := by
  induction hab with
  | refl => exact ha
  | tail _ hbc ih =>
    obtain ⟨bs, hbs, hall⟩ := hU _ ih
    obtain ⟨cs, hcs, hmem⟩ := hbc
    rw [hbs, Option.some.injEq] at hcs
    exact hall _ (hcs ▸ hmem)

theorem Searched.subset (h : Searched succ as seen seen₁) (hU : Closed succ U) (has : ∀ a ∈ as, a ∈ U)
    (hseen : ∀ b ∈ seen, b ∈ U) : ∀ b ∈ seen₁, b ∈ U := by
  intro b hb
  rcases h.reached b hb with hb | ⟨a, ha, hab⟩
  · exact hseen b hb
  · exact hU.reach (has a ha) hab

theorem foldlM_searched (hU : Closed succ U) {f : List α → α → Option (List α)} {bound : ℕ}
    (hf : ∀ b ∈ U, ∀ seen : List α, seen.Nodup → (∀ c ∈ seen, c ∈ U) → bound ≤ seen.length →
      ∃ seen', f seen b = some seen' ∧ Searched succ [b] seen seen')
    (hbs : ∀ b ∈ bs, b ∈ U) (hnd : seen.Nodup) (hseen : ∀ c ∈ seen, c ∈ U) (hbound : bound ≤ seen.length) :
    ∃ seen', bs.foldlM f seen = some seen' ∧ Searched succ bs seen seen' := by
  induction bs generalizing seen with
  | nil => exact ⟨seen, rfl, .refl hnd fun a ha => absurd ha List.not_mem_nil⟩
  | cons b bs ih =>
    have hb := hbs b List.mem_cons_self
    obtain ⟨seen₁, h₁, hone⟩ := hf b hb seen hnd hseen hbound
    have hsub := hone.subset hU (fun c hc => List.mem_singleton.mp hc ▸ hb) hseen
    obtain ⟨seen₂, h₂, hrest⟩ := ih (fun c hc => hbs c (List.mem_cons_of_mem b hc)) hone.nodup hsub
      (Nat.le_trans hbound hone.grows.length_le)
    refine ⟨seen₂, ?_, hone.cons hrest⟩
    rw [List.foldlM_cons, h₁]
    exact h₂

theorem foldlM_mono {f f' : List α → α → Option (List α)} (hf : ∀ s b r, f s b = some r → f' s b = some r) {r : List α}
    (h : bs.foldlM f seen = some r) : bs.foldlM f' seen = some r := by
  induction bs generalizing seen with
  | nil => exact h
  | cons b bs ih =>
    rw [List.foldlM_cons] at h ⊢
    obtain ⟨seen₁, h₁, hrest⟩ := Option.bind_eq_some_iff.mp h
    rw [hf _ _ _ h₁]
    exact ih hrest

variable [DecidableEq α]

theorem visit_searched (hU : Closed succ U) {fuel : ℕ} (ha : a ∈ U) (hnd : seen.Nodup) (hseen : ∀ b ∈ seen, b ∈ U)
    (hfuel : U.length < fuel + seen.length) : ∃ seen', visit succ fuel a seen = some seen' ∧ Searched succ [a] seen seen' := by
  -- the calls are never deeper than there are nodes: each of those that are open has added a node
  induction fuel generalizing a seen with
  | zero =>
    have hle := (List.subperm_of_subset hnd hseen).length_le
    omega
  | succ fuel ih =>
    unfold visit
    split_ifs with hmem
    · exact ⟨seen, rfl, .refl hnd fun b hb => List.mem_singleton.mp hb ▸ hmem⟩
    · obtain ⟨bs, hbs, hall⟩ := hU a ha
      have hnd' : (seen ++ [a]).Nodup := by
        rw [← List.concat_eq_append]
        exact hnd.concat hmem
      have hseen' : ∀ b ∈ seen ++ [a], b ∈ U := by
        intro b hb
        rcases List.mem_append.mp hb with hb | hb
        · exact hseen b hb
        · exact List.mem_singleton.mp hb ▸ ha
      have hlen : (seen ++ [a]).length = seen.length + 1 := by rw [List.length_append, List.length_singleton]
      have hone : ∀ b ∈ U, ∀ seen₀ : List α, seen₀.Nodup → (∀ c ∈ seen₀, c ∈ U) → seen.length + 1 ≤ seen₀.length →
          ∃ seen', visit succ fuel b seen₀ = some seen' ∧ Searched succ [b] seen₀ seen' := by
        intro b hb seen₀ hnd₀ hseen₀ hlen₀
        exact ih hb hnd₀ hseen₀ (by omega)
      obtain ⟨seen₁, h₁, hsearched⟩ := foldlM_searched hU hone hall hnd' hseen' (Nat.le_of_eq hlen.symm)
      refine ⟨seen₁, ?_, .node hbs hsearched⟩
      rw [hbs, Option.bind_some]
      exact h₁

theorem visit_mono {fuel fuel' : ℕ} (hle : fuel ≤ fuel') {r : List α} (h : visit succ fuel a seen = some r) :
    visit succ fuel' a seen = some r := by
  induction fuel generalizing fuel' a seen r with
  | zero => cases h
  | succ fuel ih =>
    obtain ⟨fuel', rfl⟩ := Nat.exists_eq_add_one.mpr (Nat.lt_of_lt_of_le (Nat.zero_lt_succ fuel) hle)
    unfold visit at h ⊢
    split_ifs at h ⊢ with hmem
    · exact h
    · obtain ⟨bs, hbs, hfold⟩ := Option.bind_eq_some_iff.mp h
      rw [hbs, Option.bind_some]
      exact foldlM_mono (fun s b r hr => ih (Nat.le_of_succ_le_succ hle) hr) hfold

/-- The search from `a` ends and finds what can be reached, each node once and `a` first. -/
theorem visit_complete (hU : Closed succ U) (ha : a ∈ U) :
    ∃ found, (∀ fuel, U.length < fuel → visit succ fuel a [] = some found) ∧ found.Nodup ∧ found.head? = some a ∧
      ∀ b, b ∈ found ↔ Relation.ReflTransGen (Edge succ) a b := by
  have hnone : ∀ b ∈ ([] : List α), b ∈ U := fun b hb => absurd hb List.not_mem_nil
  obtain ⟨found, hfound, hsearched⟩ := visit_searched hU ha List.nodup_nil hnone (Nat.lt_succ_self (U.length + 0))
  refine ⟨found, fun fuel hfuel => visit_mono hfuel hfound, hsearched.nodup, ?_, hsearched.mem_iff⟩
  obtain ⟨rest, rfl⟩ := hsearched.first a rfl List.not_mem_nil
  rfl

end Yjc.DepthFirst
