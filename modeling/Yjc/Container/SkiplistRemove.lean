import Yjc.Container.SkiplistInsert

/-! A node taken out of the skip list, and the levels that are left. -/

namespace Yjc.Skiplist
open Links

variable {κ ν : Type} {cmp : κ → κ → ℤ} {s : Skiplist κ ν} {l pre post : List ℕ} {key : κ} {value : ν} {k p q m n : ℕ}

/-- The links with a node linked past, at the levels that it has. -/
def past (s : Skiplist κ ν) (update : ℕ → ℕ) (q a i : ℕ) : Option ℕ :=
  if i ≤ s.height q ∧ a = update i then s.forward q i else s.forward a i

/-- The state after the node `q` behind `pre` is taken out. -/
def removed (s : Skiplist κ ν) (pre : List ℕ) (q m : ℕ) (last : Option ℕ) : Skiplist κ ν :=
  { s with
    level := m
    count := s.count - 1
    forward := s.past (s.stop pre) q
    levelStats := Function.update s.levelStats (s.height q) (s.levelStats (s.height q) - 1)
    last := last }

/-- The highest of the levels up to `n` that begins with a link. -/
structure Top (forward : ℕ → Option ℕ) (n m : ℕ) : Prop where
  le : m ≤ n
  above : ∀ j, m < j → j ≤ n → forward j = none
  top : m = 0 ∨ forward m ≠ none

theorem Layered.chains_past (h : Layered cmp s (pre ++ q :: post)) (hk : k ≤ maxNumberOfLevels) :
    Spells (s.past (s.stop pre) q · k) (s.past (s.stop pre) q s.header k) (s.onLevel k (pre ++ post)) := by
  have hchain := h.chains k hk
  have hnodup := h.nodup_onLevel k
  rw [onLevel_append] at hchain hnodup ⊢
  unfold past
  rcases Nat.lt_or_ge (s.height q) k with hlt | hge
  · rw [onLevel_cons_of_lt hlt] at hchain
    simpa only [Nat.not_le_of_lt hlt, false_and, if_false] using hchain
  · rw [onLevel_cons_of_le hge] at hchain hnodup
    simp only [hge, true_and]
    refine Spells.unlink (n := fun a => if a = s.stop pre k then s.forward q k else s.forward a k) hchain hnodup ?_ ?_
    · exact if_pos rfl
    · exact fun a ha _ => if_neg ha

theorem Layered.removed (h : Layered cmp s (pre ++ q :: post)) (htop : Top (s.past (s.stop pre) q s.header) s.level m)
    {last : Option ℕ} (hlast : last = (pre ++ post).getLast?) : Layered cmp (s.removed pre q m last) (pre ++ post) := by
  have hsub : (pre ++ post).Sublist (pre ++ q :: post) := (List.sublist_cons_self q post).append_left pre
  refine ⟨h.nodup.sublist (hsub.cons_cons _), h.headerHeight, fun j hj => h.chains_past hj, ?_, htop.le.trans h.level,
    htop.top, h.sorted.sublist hsub, fun hdup => (h.distinct hdup).sublist hsub, ?_, hlast, ?_⟩
  · intro a ha
    by_contra hlt
    have hle : s.height a ≤ s.level := h.height a (hsub.subset ha)
    have hnone := htop.above (s.height a) (Nat.lt_of_not_le hlt) hle
    have hchain := h.chains_past (hle.trans (h.level.trans (by decide)))
    rw [hnone, spells_none] at hchain
    exact List.not_mem_nil (hchain ▸ mem_onLevel.mpr ⟨ha, Nat.le_refl _⟩)
  · simp only [Skiplist.removed, h.count, List.length_append, List.length_cons]
    omega
  · intro j hj
    have hstats := h.stats j hj
    rw [List.perm_middle.countP_eq, List.countP_cons] at hstats
    change Function.update s.levelStats (s.height q) (s.levelStats (s.height q) - 1) j =
      ((pre ++ post).countP fun a => s.height a = j : ℕ)
    rw [Function.update_apply]
    rcases eq_or_ne j (s.height q) with rfl | hne
    · rw [if_pos rfl, hstats, if_pos (decide_eq_true rfl)]
      omega
    · rw [if_neg hne, hstats, if_neg (by simpa using hne.symm), Nat.add_zero]

/-- The links with the node linked past at the levels below `k` only. -/
def pastBelow (s : Skiplist κ ν) (update : ℕ → ℕ) (q k a i : ℕ) : Option ℕ :=
  if i < k then s.past update q a i else s.forward a i

theorem pastBelow_of_le {update : ℕ → ℕ} {i a : ℕ} (h : k ≤ i) : s.pastBelow update q k a i = s.forward a i :=
  if_neg (Nat.not_lt_of_le h)

theorem pastBelow_succ {update : ℕ → ℕ} (hk : k ≤ s.height q) (a i : ℕ) :
    (if i = k ∧ a = update k then s.forward q k else s.pastBelow update q k a i) = s.pastBelow update q (k + 1) a i := by
  unfold pastBelow past
  grind

theorem pastBelow_height {update : ℕ → ℕ} : s.pastBelow update q (s.height q + 1) = s.past update q := by
  funext a i
  unfold pastBelow past
  grind

theorem unlinkLevels_eq {update : ℕ → ℕ} (hq : s.height q ≤ n) (hheight : ∀ i ≤ n, i ≤ s.height (update i))
    (hfirst : ∀ i ≤ n, s.forward (update i) i = some q ↔ i ≤ s.height q) {left : ℕ} (hk : k ≤ s.height q + 1)
    (hleft : k + left = n + 1) :
    unlinkLevels update q left k (s.withForward (s.pastBelow update q k)) =
      some (s.height q + 1, s.withForward (s.past update q)) := by
  induction left generalizing k with
  | zero =>
    obtain rfl : k = s.height q + 1 := by omega
    rw [unlinkLevels, pastBelow_height]
  | succ left ih =>
    have hkn : k ≤ n := by omega
    rw [unlinkLevels, get_withForward (hheight k hkn), Option.bind_eq_bind, Option.bind_some, pastBelow_of_le (Nat.le_refl k)]
    by_cases hkq : k ≤ s.height q
    · rw [if_pos ((hfirst k hkn).mpr hkq), get_withForward hkq, Option.bind_eq_bind, Option.bind_some,
        put_withForward (hheight k hkn), Option.bind_some, pastBelow_of_le (Nat.le_refl k)]
      simp only [pastBelow_succ hkq]
      exact ih (Nat.succ_le_succ hkq) (by omega)
    · obtain rfl : k = s.height q + 1 := by omega
      rw [if_neg (mt (hfirst _ hkn).mp hkq), pastBelow_height]

theorem shrink_eq (hn : n ≤ s.height s.header) : ∃ m, s.shrink n = some m ∧ Top (s.forward s.header) n m := by
  induction n with
  | zero => exact ⟨0, by rw [shrink, get_of_le hn, Option.map_some], Nat.le_refl 0, by omega, .inl rfl⟩
  | succ n ih =>
    rw [shrink, get_of_le hn, Option.bind_eq_bind, Option.bind_some]
    by_cases hnone : s.forward s.header (n + 1) = none
    · obtain ⟨m, hm, hle, habove, htop⟩ := ih (Nat.le_of_succ_le hn)
      refine ⟨m, by rw [if_pos hnone, hm], Nat.le_succ_of_le hle, fun j hj hjn => ?_, htop⟩
      rcases Nat.lt_or_eq_of_le hjn with hlt | rfl
      · exact habove j hj (Nat.le_of_lt_succ hlt)
      · exact hnone
    · exact ⟨n + 1, by rw [if_neg hnone], Nat.le_refl _, by omega, .inr hnone⟩

/-! ## The loop of `skiplist_delete_first` -/

/-- The links with the node linked past at the levels from `n` on only. -/
def pastFrom (s : Skiplist κ ν) (q n a i : ℕ) : Option ℕ :=
  if n ≤ i then s.past (fun _ => s.header) q a i else s.forward a i

theorem pastFrom_of_lt {i a : ℕ} (h : i < n) : s.pastFrom q n a i = s.forward a i := if_neg (Nat.not_le_of_lt h)

theorem pastFrom_succ (hk : k ≤ s.height q) (a i : ℕ) :
    (if i = k ∧ a = s.header then s.forward q k else s.pastFrom q (k + 1) a i) = s.pastFrom q k a i := by
  unfold pastFrom past
  grind

theorem pastFrom_above (hk : s.height q < k) : s.pastFrom q (k + 1) = s.pastFrom q k := by
  funext a i
  unfold pastFrom past
  grind

theorem pastFrom_zero : s.pastFrom q 0 = s.past (fun _ => s.header) q := rfl

/-- The level `c` in the loop, before the level `n` goes: what was above is gone, and what is left below `n` does not matter
yet. -/
structure Lowered (s : Skiplist κ ν) (q n c : ℕ) : Prop where
  top : Top (s.past (fun _ => s.header) q s.header) s.level c ∨ c + 1 = n ∧ c ≤ s.level ∧
    ∀ j, c < j → j ≤ s.level → s.past (fun _ => s.header) q s.header j = none
  low : c = s.level ∨ c < s.height q

theorem past_header_of_le {i : ℕ} (hi : i ≤ s.height q) : s.past (fun _ => s.header) q s.header i = s.forward q i :=
  if_pos ⟨hi, rfl⟩

theorem past_of_lt {update : ℕ → ℕ} {a i : ℕ} (hi : s.height q < i) : s.past update q a i = s.forward a i :=
  if_neg fun h => Nat.not_le_of_lt hi h.1

theorem Lowered.hit {c : ℕ} (hc : Lowered s q (k + 1) c) (hk : k ≤ s.height q) :
    Lowered s q k (if k = c ∧ s.forward q k = none ∧ 0 < c then c - 1 else c) := by
  obtain ⟨htop, hlow⟩ := hc
  rw [← past_header_of_le hk]
  split_ifs with hlast
  · obtain ⟨rfl, hnone, hpos⟩ := hlast
    rcases htop with ⟨-, -, htop⟩ | ⟨-, hle, habove⟩
    · exact absurd hnone (htop.resolve_left (Nat.ne_of_gt hpos))
    · refine ⟨.inr ⟨Nat.sub_add_cancel hpos, (Nat.sub_le ..).trans hle, fun j hj hjs => ?_⟩, .inr (by omega)⟩
      rcases Nat.lt_or_ge k j with hlt | hge
      · exact habove j hlt hjs
      · obtain rfl : j = k := by omega
        exact hnone
  · refine ⟨.inl ?_, hlow⟩
    rcases htop with htop | ⟨hck, hle, habove⟩
    · exact htop
    · obtain rfl := Nat.succ.inj hck
      refine ⟨hle, habove, ?_⟩
      by_contra hno
      obtain ⟨hc, hnone⟩ := not_or.mp hno
      exact hlast ⟨rfl, not_not.mp hnone, Nat.pos_of_ne_zero hc⟩

theorem Lowered.miss {c : ℕ} (hc : Lowered s q (k + 1) c) (hk : s.height q < k)
    (htop : s.level = 0 ∨ s.forward s.header s.level ≠ none) : Lowered s q k c := by
  obtain ⟨htop' | ⟨hck, hle, habove⟩, hlow⟩ := hc
  · exact ⟨.inl htop', hlow⟩
  · obtain rfl := Nat.succ.inj hck
    obtain rfl : c = s.level := hlow.resolve_right (Nat.not_lt_of_lt hk)
    exact ⟨.inl ⟨hle, habove, by rwa [past_of_lt hk]⟩, hlow⟩

theorem unlinkFirst_eq (hheight : s.level ≤ s.height s.header) (htop : s.level = 0 ∨ s.forward s.header s.level ≠ none)
    (hfirst : ∀ i ≤ s.level, s.forward s.header i = some q ↔ i ≤ s.height q) {c : ℕ} (hn : n ≤ s.level + 1)
    (hc : Lowered s q n c) :
    ∃ m, unlinkFirst q n (if n ≤ s.height q then s.height q else 0) { s with forward := s.pastFrom q n, level := c } =
        some (s.height q, { s with forward := s.past (fun _ => s.header) q, level := m }) ∧
      Top (s.past (fun _ => s.header) q s.header) s.level m := by
  induction n generalizing c with
  | zero =>
    refine ⟨c, by rw [if_pos (Nat.zero_le _), unlinkFirst, pastFrom_zero], ?_⟩
    exact hc.top.resolve_right fun h => Nat.succ_ne_zero c h.1
  | succ k ih =>
    have hks : k ≤ s.level := by omega
    have hheader : k ≤ s.height s.header := hks.trans hheight
    have hget : get { s with forward := s.pastFrom q (k + 1), level := c } s.header k = some (s.forward s.header k) :=
      (get_withForward (s := { s with level := c }) hheader).trans (congrArg some (pastFrom_of_lt (Nat.lt_succ_self k)))
    rw [unlinkFirst, hget, Option.bind_eq_bind, Option.bind_some]
    by_cases hkq : k ≤ s.height q
    · have hgetq : get { s with forward := s.pastFrom q (k + 1), level := c } q k = some (s.forward q k) :=
        (get_withForward (s := { s with level := c }) hkq).trans (congrArg some (pastFrom_of_lt (Nat.lt_succ_self k)))
      have hput : put { s with forward := s.pastFrom q (k + 1), level := c } s.header k (s.forward q k) =
          some { s with forward := s.pastFrom q k, level := c } := by
        refine (put_withForward (s := { s with level := c }) hheader _).trans ?_
        simp only [pastFrom_succ hkq]
        rfl
      rw [if_pos ((hfirst k hks).mpr hkq), hgetq, Option.bind_eq_bind, Option.bind_some, hput, Option.bind_some]
      have hrest := ih (Nat.le_of_succ_le hn) (hc.hit hkq)
      have hlevel : (if (if k + 1 ≤ s.height q then s.height q else 0) = 0 then k else
          if k + 1 ≤ s.height q then s.height q else 0) = s.height q := by
        split_ifs <;> omega
      rw [if_pos hkq] at hrest
      simp only [hlevel]
      split_ifs at hrest ⊢
      all_goals exact hrest
    · rw [if_neg (mt (hfirst k hks).mp hkq), pastFrom_above (Nat.lt_of_not_le hkq)]
      have hrest := ih (Nat.le_of_succ_le hn) (hc.miss (Nat.lt_of_not_le hkq) htop)
      rw [if_neg hkq] at hrest
      rwa [if_neg (mt Nat.le_of_succ_le hkq)]

end Yjc.Skiplist
