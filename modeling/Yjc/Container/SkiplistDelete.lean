import Yjc.Container.SkiplistRemove

/-! The two deletions from the skip list. -/

namespace Yjc.Skiplist
open Links

variable {κ ν : Type} {cmp : κ → κ → ℤ} {s : Skiplist κ ν} {l pre post : List ℕ} {key : κ} {value : ν} {k p q m n : ℕ}

theorem stop_concat (s : Skiplist κ ν) (pre : List ℕ) (q i : ℕ) :
    s.stop (pre ++ [q]) i = if i ≤ s.height q then q else s.stop pre i := by
  unfold stop
  rw [onLevel_append]
  split_ifs with hi
  · rw [onLevel_cons_of_le hi, onLevel_nil, lastOr_concat]
  · rw [onLevel_cons_of_lt (Nat.lt_of_not_le hi), onLevel_nil, List.append_nil]

theorem Layered.forward_stop_eq_some (h : Layered cmp s (pre ++ q :: post)) (hk : k ≤ maxNumberOfLevels) :
    s.forward (s.stop pre k) k = some q ↔ k ≤ s.height q := by
  rw [Spells.eq_head? (h.spells_stop hk)]
  rcases Nat.lt_or_ge (s.height q) k with hlt | hge
  · rw [onLevel_cons_of_lt hlt]
    refine iff_of_false (fun hhead => ?_) (Nat.not_le_of_lt hlt)
    have hmem := (mem_onLevel.mp (List.mem_of_mem_head? hhead)).2
    omega
  · rw [onLevel_cons_of_le hge]
    exact iff_of_true rfl hge

theorem Layered.height_le (h : Layered cmp s (pre ++ q :: post)) : s.height q ≤ s.level :=
  h.height q (List.mem_append_right _ List.mem_cons_self)

theorem Layered.le_headerHeight (h : Layered cmp s l) : s.level ≤ s.height s.header :=
  h.level_lt.le.trans_eq h.headerHeight.symm

theorem Layered.passLevels_eq (h : Layered cmp s (pre ++ q :: post)) (hn : n ≤ s.level + 1) {update : ℕ → ℕ}
    (hupdate : ∀ i ≤ s.level, update i = s.stop pre i) :
    ∃ u, s.passLevels q n update = some u ∧ (∀ i < n, u i = s.stop (pre ++ [q]) i) ∧ ∀ i, n ≤ i → u i = update i := by
  induction n with
  | zero => exact ⟨update, rfl, by omega, fun _ _ => rfl⟩
  | succ n ih =>
    obtain ⟨u, hu, hlow, hhigh⟩ := ih (Nat.le_of_succ_le hn)
    have hns : n < maxNumberOfLevels := Nat.lt_of_lt_of_le hn (Nat.succ_le_of_lt h.level_lt)
    have hun : u n = s.stop pre n := (hhigh n (Nat.le_refl n)).trans (hupdate n (Nat.le_of_succ_le_succ hn))
    rw [passLevels, hu, Option.bind_eq_bind, Option.bind_some, hun, get_of_le (h.stop_height hns.le), Option.bind_eq_bind,
      Option.bind_some]
    simp only [h.forward_stop_eq_some hns.le]
    split_ifs with hnq
    · refine ⟨Function.update u n q, if_pos hns, ?_, ?_⟩
      · intro i hi
        rcases Nat.lt_or_eq_of_le (Nat.le_of_lt_succ hi) with hi | rfl
        · rw [Function.update_of_ne (Nat.ne_of_lt hi), hlow i hi]
        · rw [Function.update_self, stop_concat, if_pos hnq]
      · intro i hi
        rw [Function.update_of_ne (Nat.ne_of_gt hi), hhigh i (Nat.le_of_succ_le hi)]
    · refine ⟨u, rfl, ?_, fun i hi => hhigh i (Nat.le_of_succ_le hi)⟩
      intro i hi
      rcases Nat.lt_or_eq_of_le (Nat.le_of_lt_succ hi) with hi | rfl
      · exact hlow i hi
      · rw [hun, stop_concat, if_neg hnq]

section Skip
variable [DecidableEq ν]

theorem Layered.skip_eq (h : Layered cmp s (pre ++ post)) (key : κ) (value : ν) {update : ℕ → ℕ} (hupdate : ∀ i ≤ s.level, update i = s.stop pre i)
    {fuel : ℕ} (hfuel : post.length < fuel) :
    ∃ pre' post' u, pre ++ post = pre' ++ post' ∧ s.skip cmp key value fuel post.head? update = some (post'.head?, u) ∧
      (∀ i ≤ s.level, u i = s.stop pre' i) ∧ (∀ a ∈ pre', a ∈ pre ∨ cmp (s.key a) key = 0 ∧ s.value a ≠ value) ∧
      post' ⊆ post ∧ ∀ a ∈ post'.head?, cmp (s.key a) key = 0 → s.value a = value := by
  -- the loop passes nodes of equal key and another value only, and stops before any other node
  induction post generalizing pre update fuel with
  | nil => exact ⟨pre, [], update, rfl, by cases fuel <;> rfl, hupdate, fun a ha => .inl ha, by simp, by simp⟩
  | cons q post ih =>
    obtain ⟨fuel, rfl⟩ : ∃ n, fuel = n + 1 := ⟨fuel - 1, by simp at hfuel; omega⟩
    rw [List.head?_cons, skip]
    split_ifs with hskip
    · obtain ⟨u, hu, hlow, -⟩ := h.passLevels_eq (Nat.le_refl _) hupdate
      have hl : pre ++ q :: post = pre ++ [q] ++ post := by simp
      have hnext : s.forward q 0 = post.head? := by
        have hstop : s.stop (pre ++ [q]) 0 = q := by rw [stop_concat, if_pos (Nat.zero_le _)]
        rw [hl] at h
        exact hstop ▸ h.forward_stop
      rw [hu, Option.bind_eq_bind, Option.bind_some, get_of_le (Nat.zero_le _), Option.bind_eq_bind, Option.bind_some, hnext]
      rw [hl] at h
      obtain ⟨pre', post', u', heq, hrun, hstop, hpre, hpost, hhead⟩ := ih h (fun i hi => hlow i (Nat.lt_succ_of_le hi))
        (Nat.lt_of_succ_lt_succ hfuel)
      refine ⟨pre', post', u', hl.trans heq, hrun, hstop, fun a ha => ?_, fun a ha => List.mem_cons_of_mem _ (hpost ha), hhead⟩
      rcases hpre a ha with ha | ha
      · rcases List.mem_append.mp ha with ha | ha
        · exact .inl ha
        · rw [List.mem_singleton.mp ha]
          exact .inr hskip
      · exact .inr ha
    · refine ⟨pre, q :: post, update, rfl, rfl, hupdate, fun a ha => .inl ha, fun a ha => ha, fun a ha heq => ?_⟩
      obtain rfl : q = a := Option.some.inj ha
      by_contra hne
      exact hskip ⟨heq, hne⟩

end Skip

theorem past_congr {u v : ℕ → ℕ} (h : ∀ i ≤ s.height q, u i = v i) : s.past u q = s.past v q := by
  funext a i
  unfold past
  grind

theorem Layered.last_eq (h : Layered cmp s (pre ++ q :: post)) :
    (if s.last = some q then if lastOr s.header pre = s.header then none else some (lastOr s.header pre) else s.last) =
      (pre ++ post).getLast? := by
  obtain ⟨hheader, hnodup⟩ := List.nodup_cons.mp h.nodup
  rw [h.last]
  cases post with
  | nil =>
    rw [List.getLast?_append, List.append_nil]
    refine (if_pos rfl).trans (getLast?_eq_lastOr ?_)
    exact fun hmem => hheader (List.mem_append_left _ hmem)
  | cons b post =>
    have hq : q ∉ b :: post := (List.nodup_cons.mp (List.nodup_append.mp hnodup).2.1).1
    rw [List.getLast?_append, List.getLast?_append, List.getLast?_cons_cons, if_neg]
    intro hlast
    rw [List.getLast?_eq_some_getLast (List.cons_ne_nil b post), Option.some_or] at hlast
    exact hq (Option.some.inj hlast ▸ List.getLast_mem _)

theorem Layered.deleteFound_eq (h : Layered cmp s (pre ++ q :: post)) {update : ℕ → ℕ}
    (hupdate : ∀ i ≤ s.level, update i = s.stop pre i) :
    ∃ m, s.deleteFound update q = some (0, s.removed pre q m (pre ++ post).getLast?) ∧
      Top (s.past (s.stop pre) q s.header) s.level m := by
  have hstop : update 0 = lastOr s.header pre := by rw [hupdate 0 (Nat.zero_le _), stop, onLevel_zero]
  have hmax : s.level ≤ maxNumberOfLevels := h.level_lt.le
  have hset : (if s.last = some q then { s with last := if update 0 = s.header then none else some (update 0) } else s) =
      { s with last := (pre ++ post).getLast? } := by
    rw [← h.last_eq, ← hstop]
    split_ifs <;> rfl
  have hunlink : unlinkLevels update q (s.level + 1) 0 { s with last := (pre ++ post).getLast? } =
      some (s.height q + 1, { s with last := (pre ++ post).getLast?, forward := s.past (s.stop pre) q }) := by
    rw [← past_congr fun i hi => hupdate i (hi.trans h.height_le)]
    refine unlinkLevels_eq (s := { s with last := (pre ++ post).getLast? }) (k := 0) h.height_le ?_ ?_ (Nat.zero_le _)
      (Nat.zero_add _)
    · intro i hi
      rw [hupdate i hi]
      exact h.stop_height (hi.trans hmax)
    · intro i hi
      rw [hupdate i hi]
      exact h.forward_stop_eq_some (hi.trans hmax)
  unfold deleteFound
  simp only [hset]
  rw [hunlink, Option.bind_eq_bind, Option.bind_some]
  simp only [Nat.succ_ne_zero, if_false, Nat.add_sub_cancel, addStats]
  rw [if_pos (h.height_le.trans hmax), Option.bind_eq_bind, Option.bind_some]
  obtain ⟨m, hm, htop⟩ := shrink_eq (s := { s with
    last := (pre ++ post).getLast?
    forward := s.past (s.stop pre) q
    levelStats := Function.update s.levelStats (s.height q) (s.levelStats (s.height q) + -1) }) h.le_headerHeight
  refine ⟨m, ?_, htop⟩
  rw [hm, Option.bind_eq_bind, Option.bind_some]
  rfl

section Delete
variable [DecidableEq ν]

theorem Layered.pass_eq (h : Layered cmp s (pre ++ post)) (hsplit : Split cmp s key pre post) {update : ℕ → ℕ}
    (hupdate : ∀ i ≤ s.level, update i = s.stop pre i) (value : ν) :
    ∃ pre' post' u, pre ++ post = pre' ++ post' ∧
      (if s.allowDuplicates then s.skip cmp key value (s.count + 1) post.head? update else some (post.head?, update)) =
        some (post'.head?, u) ∧
      (∀ i ≤ s.level, u i = s.stop pre' i) ∧
      (∀ a ∈ pre', hits cmp s.allowDuplicates key value (s.key a, s.value a) = false) ∧
      (∀ a ∈ post', ¬cmp (s.key a) key < 0) ∧
      ∀ a ∈ post'.head?, cmp (s.key a) key = 0 → s.allowDuplicates = false ∨ s.value a = value := by
  have hbelow (a : ℕ) (ha : a ∈ pre) : hits cmp s.allowDuplicates key value (s.key a, s.value a) = false := by
    rw [hits, decide_eq_false (Int.ne_of_lt (hsplit.below a ha)), Bool.false_and]
  by_cases hdup : s.allowDuplicates
  · have hfuel : post.length < s.count + 1 := by
      rw [h.count, List.length_append]
      omega
    obtain ⟨pre', post', u, hl, hrun, hstop, hpre, hpost, hhead⟩ := h.skip_eq key value hupdate hfuel
    refine ⟨pre', post', u, hl, (if_pos hdup).trans hrun, hstop, fun a ha => ?_, fun a ha => hsplit.above a (hpost ha),
      fun a ha heq => .inr (hhead a ha heq)⟩
    rcases hpre a ha with ha | ⟨-, hne⟩
    · exact hbelow a ha
    · simp [hits, hdup, hne]
  · exact ⟨pre, post, update, rfl, if_neg hdup, hupdate, hbelow, hsplit.above, fun a _ _ => .inl (by simpa using hdup)⟩

omit [DecidableEq ν] in
theorem Layered.ne_of_head (hc : TotalPreorder cmp) (h : Layered cmp s (pre ++ q :: post))
    (habove : ∀ a ∈ q :: post, ¬cmp (s.key a) key < 0) (hne : cmp (s.key q) key ≠ 0) (a : ℕ) (ha : a ∈ q :: post) :
    cmp (s.key a) key ≠ 0 := by
  intro heq
  have hqa : cmp (s.key q) (s.key a) ≤ 0 := by
    rcases List.mem_cons.mp ha with rfl | ha
    · exact (hc.refl _).le
    · exact (List.pairwise_cons.mp (List.pairwise_append.mp h.sorted).2.1).1 a ha
  have hle := hc.trans _ _ _ hqa heq.le
  have := habove q List.mem_cons_self
  omega

theorem Layered.delete_eq (hc : TotalPreorder cmp) (h : Layered cmp s l) (key : κ) (value : ν) :
    s.delete cmp key value = some (-1, s) ∧
        (∀ a ∈ l, hits cmp s.allowDuplicates key value (s.key a, s.value a) = false) ∨
      ∃ pre q post m, l = pre ++ q :: post ∧
        s.delete cmp key value = some (0, s.removed pre q m (pre ++ post).getLast?) ∧
        Top (s.past (s.stop pre) q s.header) s.level m ∧
        hits cmp s.allowDuplicates key value (s.key q, s.value q) = true ∧
        ∀ a ∈ pre, hits cmp s.allowDuplicates key value (s.key a, s.value a) = false := by
  obtain ⟨pre₀, post₀, rfl, hsplit⟩ := h.exists_split hc key
  obtain ⟨update, hu, hlow, -⟩ := h.search_eq hsplit h.level_lt (h.reached_header pre₀) fun _ => s.header
  obtain ⟨pre, post, u, hl, hrun, hstop, hpre, hpost, hhead⟩ := h.pass_eq hsplit hlow value
  have hget := h.get_stop
  rw [hl] at h ⊢
  unfold delete
  rw [hu, Option.bind_eq_bind, Option.bind_some, hlow 0 (Nat.zero_le _), hget, Option.bind_eq_bind, Option.bind_some, hrun,
    Option.bind_eq_bind, Option.bind_some]
  cases post with
  | nil => exact .inl ⟨rfl, fun a ha => hpre a (by simpa using ha)⟩
  | cons q post =>
    by_cases heq : cmp (s.key q) key = 0
    · obtain ⟨m, hm, htop⟩ := h.deleteFound_eq hstop
      have hvalue := hhead q rfl heq
      refine .inr ⟨pre, q, post, m, rfl, (if_pos ⟨heq, hvalue⟩).trans hm, htop, ?_, hpre⟩
      rcases hvalue with hdup | hvalue
      · simp [hits, heq, hdup]
      · simp [hits, heq, hvalue]
    · refine .inl ⟨if_neg fun hand => heq hand.1, fun a ha => ?_⟩
      rcases List.mem_append.mp ha with ha | ha
      · exact hpre a ha
      · rw [hits, decide_eq_false, Bool.false_and]
        exact h.ne_of_head hc hpost heq a ha

end Delete

theorem pastFrom_eq (hq : s.height q < n) : s.pastFrom q n = s.forward := by
  funext a i
  unfold pastFrom
  split_ifs with hi
  · exact past_of_lt (Nat.lt_of_lt_of_le hq hi)
  · rfl

theorem Layered.deleteFirst_eq (h : Layered cmp s ([] ++ q :: post)) :
    ∃ m, s.deleteFirst = some (0, s.removed [] q m post.getLast?) ∧ Top (s.past (s.stop []) q s.header) s.level m := by
  have hq : s.height q < s.level + 1 := Nat.lt_succ_of_le h.height_le
  have hget : s.get s.header 0 = some (some q) := h.get_stop
  have hlast := h.last_eq
  rw [lastOr_nil, if_pos rfl, List.nil_append] at hlast
  obtain ⟨m, hm, htop⟩ := unlinkFirst_eq h.le_headerHeight h.top
    (fun i hi => h.forward_stop_eq_some (hi.trans h.level_lt.le)) (Nat.le_refl (s.level + 1))
    ⟨.inr ⟨rfl, Nat.le_refl _, by omega⟩, .inl rfl⟩
  rw [if_neg (Nat.not_le_of_lt hq), pastFrom_eq hq] at hm
  refine ⟨m, ?_, htop⟩
  unfold deleteFirst
  rw [hget, Option.bind_eq_bind, Option.bind_some]
  have hmax : s.height q ≤ maxNumberOfLevels := h.height_le.trans h.level_lt.le
  simp only [hm, Option.bind_eq_bind, Option.bind_some, addStats]
  rw [← hlast]
  split_ifs with hlastq
  all_goals rfl

end Yjc.Skiplist
