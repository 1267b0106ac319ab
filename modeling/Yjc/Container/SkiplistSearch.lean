import Yjc.Container.Skiplist
import Mathlib.Data.List.TakeWhile

/-! The walks of the skip list: at every level they end before the first node that is not below the key. -/

namespace Yjc.Skiplist
open Links

variable {κ ν : Type} {cmp : κ → κ → ℤ} {s : Skiplist κ ν} {l pre post : List ℕ} {key : κ} {k p : ℕ}

/-- The key splits the list: what is before is below it, and what follows is not. -/
structure Split (cmp : κ → κ → ℤ) (s : Skiplist κ ν) (key : κ) (pre post : List ℕ) : Prop where
  below : ∀ a ∈ pre, cmp (s.key a) key < 0
  above : ∀ a ∈ post, ¬cmp (s.key a) key < 0

theorem walk_eq {fuel : ℕ} {xs ys : List ℕ} (hheight : ∀ a ∈ p :: xs, k ≤ s.height a)
    (hs : Spells (s.forward · k) (s.forward p k) (xs ++ ys)) (hxs : ∀ a ∈ xs, cmp (s.key a) key < 0)
    (hys : ∀ a ∈ ys, ¬cmp (s.key a) key < 0) (hfuel : xs.length < fuel) :
    s.walk cmp key k fuel p = some (lastOr p xs) := by
  induction xs generalizing p fuel with
  | nil =>
    obtain ⟨fuel, rfl⟩ : ∃ n, fuel = n + 1 := ⟨fuel - 1, by simp at hfuel; omega⟩
    rw [walk, get, if_pos (hheight p List.mem_cons_self), Option.bind_some, Spells.eq_head? hs]
    cases ys with
    | nil => rfl
    | cons y ys => exact if_neg (hys y List.mem_cons_self)
  | cons x xs ih =>
    obtain ⟨fuel, rfl⟩ : ∃ n, fuel = n + 1 := ⟨fuel - 1, by simp at hfuel; omega⟩
    obtain ⟨hx, hs⟩ := hs
    rw [walk, get, if_pos (hheight p List.mem_cons_self), Option.bind_some, hx, lastOr_cons]
    refine (if_pos (hxs x List.mem_cons_self)).trans ?_
    exact ih (fun a ha => hheight a (List.mem_cons_of_mem _ ha)) hs (fun a ha => hxs a (List.mem_cons_of_mem _ ha))
      (Nat.lt_of_succ_lt_succ hfuel)

theorem Layered.walk_eq (h : Layered cmp s (pre ++ post)) (hsplit : Split cmp s key pre post) (hk : k ≤ maxNumberOfLevels)
    (hp : Reached s pre k p) : s.walk cmp key k (s.count + 1) p = some (s.stop pre k) := by
  obtain ⟨xs, ys, rfl, rfl, hheight⟩ := hp
  have hs := h.spells_after hk (List.append_assoc xs ys post) hheight
  rw [onLevel_append] at hs
  have hwalk : s.walk cmp key k (s.count + 1) (lastOr s.header xs) = some (lastOr (lastOr s.header xs) (s.onLevel k ys)) := by
    refine Skiplist.walk_eq ?_ hs ?_ ?_ ?_
    · intro a ha
      rcases List.mem_cons.mp ha with rfl | ha
      · exact hheight
      · exact (mem_onLevel.mp ha).2
    · exact fun a ha => hsplit.below a (List.mem_append_right _ (mem_onLevel.mp ha).1)
    · exact fun a ha => hsplit.above a (mem_onLevel.mp ha).1
    · have hle : (s.onLevel k ys).length ≤ ys.length := List.length_filter_le ..
      rw [h.count, List.length_append, List.length_append]
      omega
  rw [hwalk, stop, onLevel_append, lastOr_append, lastOr_onLevel hheight]

theorem Reached.mono {j : ℕ} (hp : Reached s pre k p) (hj : j ≤ k) : Reached s pre j p := by
  obtain ⟨xs, ys, hpre, hlast, hheight⟩ := hp
  exact ⟨xs, ys, hpre, hlast, hj.trans hheight⟩

theorem Layered.search_eq (h : Layered cmp s (pre ++ post)) (hsplit : Split cmp s key pre post) (hk : k < maxNumberOfLevels)
    (hp : Reached s pre k p) (update : ℕ → ℕ) :
    ∃ u, s.search cmp key k p update = some u ∧ (∀ i ≤ k, u i = s.stop pre i) ∧ ∀ i, k < i → u i = update i := by
  induction k generalizing p update with
  | zero =>
    refine ⟨Function.update update 0 (s.stop pre 0), ?_, ?_, ?_⟩
    · rw [search, h.walk_eq hsplit (Nat.zero_le _) hp, Option.bind_some, setUpdate, if_pos hk]
    · intro i hi
      obtain rfl := Nat.le_zero.mp hi
      exact Function.update_self ..
    · exact fun i hi => Function.update_of_ne hi.ne' ..
  | succ k ih =>
    have hreached := (h.reached_stop hk.le pre).mono (Nat.le_succ k)
    obtain ⟨u, hu, hlow, hhigh⟩ := ih (Nat.lt_of_succ_lt hk) hreached (Function.update update (k + 1) (s.stop pre (k + 1)))
    refine ⟨u, ?_, ?_, ?_⟩
    · rw [search, h.walk_eq hsplit hk.le hp, Option.bind_some, setUpdate, if_pos hk, Option.bind_some, hu]
    · intro i hi
      rcases Nat.lt_or_eq_of_le hi with hlt | rfl
      · exact hlow i (Nat.le_of_lt_succ hlt)
      · rw [hhigh _ (Nat.lt_succ_self k), Function.update_self]
    · intro i hi
      rw [hhigh i (Nat.lt_of_succ_lt hi), Function.update_of_ne hi.ne']

theorem Layered.descend_eq (h : Layered cmp s (pre ++ post)) (hsplit : Split cmp s key pre post) (hk : k < maxNumberOfLevels)
    (hp : Reached s pre k p) : s.descend cmp key k p = some (s.stop pre 0) := by
  induction k generalizing p with
  | zero => exact h.walk_eq hsplit (Nat.zero_le _) hp
  | succ k ih =>
    rw [descend, h.walk_eq hsplit hk.le hp, Option.bind_some]
    exact ih (Nat.lt_of_succ_lt hk) ((h.reached_stop hk.le pre).mono (Nat.le_succ k))

theorem Layered.level_lt (h : Layered cmp s l) : s.level < maxNumberOfLevels := Nat.lt_of_le_of_lt h.level (by decide)

theorem Layered.reached_header (h : Layered cmp s l) (pre : List ℕ) : Reached s pre s.level s.header :=
  ⟨[], pre, rfl, rfl, h.level_lt.le.trans_eq h.headerHeight.symm⟩

theorem Layered.forward_stop (h : Layered cmp s (pre ++ post)) : s.forward (s.stop pre 0) 0 = post.head? := by
  have hs := h.spells_stop (Nat.zero_le _)
  rw [onLevel_zero] at hs
  exact Spells.eq_head? hs

theorem Layered.get_stop (h : Layered cmp s (pre ++ post)) : s.get (s.stop pre 0) 0 = some post.head? := by
  rw [get, if_pos (Nat.zero_le _), h.forward_stop]

theorem Layered.exists_split (hc : TotalPreorder cmp) (h : Layered cmp s l) (key : κ) :
    ∃ pre post, l = pre ++ post ∧ Split cmp s key pre post := by
  refine ⟨l.takeWhile fun a => cmp (s.key a) key < 0, l.dropWhile fun a => cmp (s.key a) key < 0,
    List.takeWhile_append_dropWhile.symm, ?_, ?_⟩
  · intro a ha
    have := List.mem_takeWhile_imp ha
    simpa using this
  · have hsorted := h.sorted
    clear h
    induction l with
    | nil => simp
    | cons b l ih =>
      obtain ⟨hb, hl⟩ := List.pairwise_cons.mp hsorted
      rw [List.dropWhile_cons]
      by_cases hlt : cmp (s.key b) key < 0
      · rw [if_pos (by simpa using hlt)]
        exact ih hl
      · rw [if_neg (by simpa using hlt)]
        intro a ha
        rcases List.mem_cons.mp ha with rfl | ha
        · exact hlt
        · exact fun hak => hlt (hc.lt_of_le_of_lt (hb a ha) hak)

theorem Split.any_iff (hc : TotalPreorder cmp) (h : Layered cmp s (pre ++ post)) (hsplit : Split cmp s key pre post) :
    (∃ a ∈ pre ++ post, cmp (s.key a) key = 0) ↔ ∃ a ∈ post.head?, cmp (s.key a) key = 0 := by
  constructor
  · rintro ⟨a, ha, heq⟩
    rcases List.mem_append.mp ha with ha | ha
    · exact absurd heq (hsplit.below a ha).ne
    · cases post with
      | nil => cases ha
      | cons b post =>
        refine ⟨b, rfl, ?_⟩
        rcases List.mem_cons.mp ha with rfl | ha
        · exact heq
        · have hba : cmp (s.key b) (s.key a) ≤ 0 :=
            (List.pairwise_cons.mp (List.pairwise_append.mp h.sorted).2.1).1 a ha
          have hle := hc.trans _ _ _ hba heq.le
          have := hsplit.above b List.mem_cons_self
          omega
  · rintro ⟨a, ha, heq⟩
    exact ⟨a, List.mem_append_right _ (List.mem_of_mem_head? ha), heq⟩

theorem Layered.searchValue_eq (hc : TotalPreorder cmp) (h : Layered cmp s l) (key : κ) :
    ∃ r v, s.searchValue cmp key = some (r, v) ∧ (r = 0 ∨ r = -1) ∧ (r = 0 ↔ ∃ a ∈ l, cmp (s.key a) key = 0) ∧
      ∀ x, v = some x → ∃ a ∈ l, cmp (s.key a) key = 0 ∧ s.value a = x := by
  obtain ⟨pre, post, rfl, hsplit⟩ := h.exists_split hc key
  rw [hsplit.any_iff hc h]
  unfold searchValue
  rw [h.descend_eq hsplit h.level_lt (h.reached_header pre), Option.bind_eq_bind, Option.bind_some, h.get_stop,
    Option.bind_eq_bind, Option.bind_some]
  cases hq : post.head? with
  | none => exact ⟨-1, none, rfl, .inr rfl, by simp, by simp⟩
  | some q =>
    have hmem : q ∈ pre ++ post := List.mem_append_right _ (List.mem_of_mem_head? hq)
    by_cases heq : cmp (s.key q) key = 0
    · refine ⟨0, some (s.value q), if_neg (by simpa using heq), .inl rfl, by simpa using heq, ?_⟩
      intro x hx
      exact ⟨q, hmem, heq, Option.some.inj hx⟩
    · exact ⟨-1, none, if_pos heq, .inr rfl, by simpa using heq, by simp⟩

end Yjc.Skiplist
