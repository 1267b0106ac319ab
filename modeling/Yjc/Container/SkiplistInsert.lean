import Yjc.Container.SkiplistSearch

/-! Insertion into the skip list. -/

namespace Yjc.Skiplist
open Links

variable {κ ν : Type} {cmp : κ → κ → ℤ} {s : Skiplist κ ν} {l pre post : List ℕ} {key : κ} {value : ν} {k p q : ℕ}

def withForward (s : Skiplist κ ν) (forward : ℕ → ℕ → Option ℕ) : Skiplist κ ν := { s with forward := forward }

theorem get_of_le (h : k ≤ s.height p) : s.get p k = some (s.forward p k) := if_pos h

theorem put_of_le (h : k ≤ s.height p) (f : Option ℕ) :
    s.put p k f = some (s.withForward fun a i => if i = k ∧ a = p then f else s.forward a i) := by
  rw [put, if_pos h, withForward]
  refine congrArg (fun forward => some { s with forward := forward }) ?_
  funext a i
  by_cases ha : a = p
  · subst ha
    rw [Function.update_self, Function.update_apply]
    simp only [and_true]
  · rw [Function.update_of_ne ha, if_neg fun h => ha h.2]

theorem get_withForward {forward : ℕ → ℕ → Option ℕ} (h : k ≤ s.height p) : (s.withForward forward).get p k = some (forward p k) :=
  get_of_le (s := s.withForward forward) h

theorem put_withForward {forward : ℕ → ℕ → Option ℕ} (h : k ≤ s.height p) (f : Option ℕ) :
    (s.withForward forward).put p k f = some (s.withForward fun a i => if i = k ∧ a = p then f else forward a i) :=
  put_of_le (s := s.withForward forward) h f

theorem linkLevels_eq {update : ℕ → ℕ} {n : ℕ} (hq : ∀ i < n, i ≤ s.height q) (hupdate : ∀ i < n, i ≤ s.height (update i))
    (hne : ∀ i < n, update i ≠ q) :
    linkLevels update q n s = some (s.withForward fun a i =>
      if i < n then if a = q then s.forward (update i) i else if a = update i then some q else s.forward a i
      else s.forward a i) := by
  induction n generalizing s with
  | zero => rfl
  | succ k ih =>
    have hk := Nat.lt_succ_self k
    rw [linkLevels, get_of_le (hupdate k hk), Option.bind_eq_bind, Option.bind_some, put_of_le (hq k hk),
      Option.bind_eq_bind, Option.bind_some, put_withForward (hupdate k hk), Option.bind_some, ih]
    · refine congrArg (fun forward => some (s.withForward forward)) ?_
      funext a i
      have hneq := hne k hk
      simp only [withForward]
      grind
    · exact fun i hi => hq i (Nat.lt_succ_of_lt hi)
    · exact fun i hi => hupdate i (Nat.lt_succ_of_lt hi)
    · exact fun i hi => hne i (Nat.lt_succ_of_lt hi)

theorem randomLevelLoop_le (random : ℕ → ℕ) (fuel : ℕ) {level : ℕ} (rng : Rng) (h : level ≤ maxLevel) :
    (randomLevelLoop random fuel level rng).1 ≤ maxLevel := by
  induction fuel generalizing level rng with
  | zero => exact h
  | succ fuel ih =>
    simp only [randomLevelLoop]
    split_ifs with _ _ hlt
    all_goals first | exact h | exact Nat.le_refl _ | skip
    all_goals exact ih _ (by omega)

/-- The state after an insertion behind the nodes `pre`. -/
def inserted (s : Skiplist κ ν) (pre post : List ℕ) (new k : ℕ) (key : κ) (value : ν) (rng : Rng) : Skiplist κ ν :=
  { s with
    level := max s.level k
    count := s.count + 1
    height := Function.update s.height new k
    forward := fun a i =>
      if i ≤ k then
        if a = new then s.forward (s.stop pre i) i else if a = s.stop pre i then some new else s.forward a i
      else if a = new then none else s.forward a i
    key := Function.update s.key new key
    value := Function.update s.value new value
    levelStats := Function.update s.levelStats k (s.levelStats k + 1)
    last := if post = [] then some new else s.last
    rng := rng }

theorem stop_mem (pre : List ℕ) (k : ℕ) : s.stop pre k ∈ s.header :: pre := by
  rcases List.mem_cons.mp (lastOr_mem s.header (s.onLevel k pre)) with he | hmem
  · exact he ▸ List.mem_cons_self
  · exact List.mem_cons_of_mem _ (mem_onLevel.mp hmem).1

theorem Layered.stop_above (h : Layered cmp s (pre ++ post)) (hk : s.level < k) : s.stop pre k = s.header := by
  have hnil : s.onLevel k pre = [] := by
    refine List.filter_eq_nil_iff.mpr fun a ha => ?_
    have := h.height a (List.mem_append_left _ ha)
    simp only [decide_eq_true_eq]
    omega
  rw [stop, hnil, lastOr_nil]

theorem Layered.raise_eq (h : Layered cmp s (pre ++ post)) (hk : k ≤ maxLevel) (rng : Rng) {update : ℕ → ℕ}
    (hupdate : ∀ i ≤ s.level, update i = s.stop pre i) :
    ∃ j u, { s with rng := rng }.raise k update = some (j, { s with rng := rng, level := max s.level j }, u) ∧
      j ≤ maxLevel ∧ j ≤ s.level + 1 ∧ ∀ i ≤ j, u i = s.stop pre i := by
  unfold raise
  by_cases hlt : s.level < k
  · have hj : s.level + 1 < maxNumberOfLevels := Nat.lt_of_le_of_lt (Nat.succ_le_of_lt hlt) (Nat.lt_of_le_of_lt hk (by decide))
    refine ⟨s.level + 1, Function.update update (s.level + 1) s.header, ?_, by omega, Nat.le_refl _, ?_⟩
    · rw [if_pos hlt, setUpdate, if_pos hj, Option.map_some, Nat.max_eq_right (Nat.le_succ _)]
    · intro i hi
      rcases Nat.lt_or_eq_of_le hi with hi | rfl
      · rw [Function.update_of_ne (Nat.ne_of_lt hi)]
        exact hupdate i (Nat.le_of_lt_succ hi)
      · rw [Function.update_self, h.stop_above (Nat.lt_succ_self _)]
  · refine ⟨k, update, ?_, hk, by omega, fun i hi => hupdate i (by omega)⟩
    rw [if_neg hlt, Nat.max_eq_left (by omega)]

theorem linkLevels_newNode {new : ℕ} {update : ℕ → ℕ} (hupdate : ∀ i ≤ k, i ≤ s.height (update i))
    (hne : ∀ i ≤ k, update i ≠ new) (key : κ) (value : ν) (stats : ℕ → ℤ) :
    linkLevels update new (k + 1) { s.newNode new k key value with levelStats := stats } = some
      { s with
        height := Function.update s.height new k
        forward := fun a i =>
          if i ≤ k then if a = new then s.forward (update i) i else if a = update i then some new else s.forward a i
          else if a = new then none else s.forward a i
        key := Function.update s.key new key
        value := Function.update s.value new value
        levelStats := stats } := by
  rw [linkLevels_eq]
  · refine congrArg some ?_
    unfold withForward newNode
    congr 1
    funext a i
    have hne := hne i
    simp only [Function.update_apply, Nat.lt_succ_iff]
    split_ifs with hi hnew hself <;> first | rfl | exact absurd hself (hne hi)
  · intro i hi
    simpa [newNode] using Nat.le_of_lt_succ hi
  · intro i hi
    have hi := Nat.le_of_lt_succ hi
    simpa [newNode, Function.update_of_ne (hne i hi)] using hupdate i hi
  · exact fun i hi => hne i (Nat.le_of_lt_succ hi)

theorem Layered.insert_eq (h : Layered cmp s (pre ++ post)) (hsplit : Split cmp s key pre post) (random : ℕ → ℕ) {new : ℕ}
    (hnew : new ∉ s.header :: pre ++ post) (value : ν) :
    if !s.allowDuplicates && post.head?.any fun q => cmp (s.key q) key = 0 then
      s.insert cmp random new key value = some (-1, s)
    else ∃ k rng, k ≤ maxLevel ∧ k ≤ s.level + 1 ∧
      s.insert cmp random new key value = some (0, s.inserted pre post new k key value rng) := by
  obtain ⟨update, hu, hlow, -⟩ := h.search_eq hsplit h.level_lt (h.reached_header pre) fun _ => s.header
  have hmax : (randomLevel random s.rng).1 ≤ maxLevel := randomLevelLoop_le random maxNumberOfLevels s.rng (Nat.zero_le _)
  unfold insert
  rw [hu, Option.bind_eq_bind, Option.bind_some, hlow 0 (Nat.zero_le _), h.get_stop, Option.bind_eq_bind, Option.bind_some]
  generalize randomLevel random s.rng = r at hmax ⊢
  obtain ⟨k, rng⟩ := r
  split_ifs with hfound
  · rfl
  · obtain ⟨j, u, hraise, hmax, hsucc, hstop⟩ := h.raise_eq hmax rng hlow
    have hlevel : j ≤ maxNumberOfLevels := hmax.trans (by decide)
    have hne (i : ℕ) : s.stop pre i ≠ new := by
      intro he
      exact hnew (he ▸ List.mem_append_left _ (stop_mem pre i))
    have hupdate : ∀ i ≤ j, i ≤ s.height (u i) := by
      intro i hi
      rw [hstop i hi]
      exact h.stop_height (hi.trans hlevel)
    have hlink := linkLevels_newNode (s := { s with rng := rng, level := max s.level j }) hupdate
      (fun i hi => (hstop i hi).trans_ne (hne i)) key value (Function.update s.levelStats j (s.levelStats j + 1))
    refine ⟨j, rng, hmax, hsucc, ?_⟩
    simp only [Option.bind_eq_bind, hraise, Option.bind_some, addStats, if_pos hlevel]
    simp only [newNode] at hlink ⊢
    rw [hlink, Option.bind_some, get_of_le (Nat.zero_le _), Option.bind_some]
    have hfirst : s.forward (u 0) 0 = post.head? := by rw [hstop 0 (Nat.zero_le _), h.forward_stop]
    have hforward (a i : ℕ) :
        (if i ≤ j then if a = new then s.forward (u i) i else if a = u i then some new else s.forward a i
          else if a = new then none else s.forward a i) =
        if i ≤ j then if a = new then s.forward (s.stop pre i) i else if a = s.stop pre i then some new else s.forward a i
          else if a = new then none else s.forward a i := by
      by_cases hi : i ≤ j
      · rw [if_pos hi, if_pos hi, hstop i hi]
      · rw [if_neg hi, if_neg hi]
    simp only [hforward, Nat.zero_le, if_true, hfirst, List.head?_eq_none_iff]
    unfold inserted
    split_ifs <;> rfl

section Inserted
variable {new : ℕ} {rng : Rng}

theorem onLevel_inserted (hl : new ∉ l) (j : ℕ) : (s.inserted pre post new k key value rng).onLevel j l = s.onLevel j l :=
  onLevel_congr fun _ ha => Function.update_of_ne (ne_of_mem_of_not_mem ha hl) ..

theorem Layered.chains_inserted (h : Layered cmp s (pre ++ post)) (hnew : new ∉ s.header :: pre ++ post) {j : ℕ}
    (hj : j ≤ maxNumberOfLevels) :
    Spells ((s.inserted pre post new k key value rng).forward · j)
      ((s.inserted pre post new k key value rng).forward s.header j)
      ((s.inserted pre post new k key value rng).onLevel j (pre ++ new :: post)) := by
  have hheader : s.header ≠ new := fun he => hnew (he ▸ List.mem_cons_self)
  have hpre : new ∉ pre := fun hmem => hnew (List.mem_cons_of_mem _ (List.mem_append_left _ hmem))
  have hpost : new ∉ post := fun hmem => hnew (List.mem_cons_of_mem _ (List.mem_append_right _ hmem))
  have hstop : s.stop pre j ≠ new := fun he => hnew (he ▸ List.mem_append_left _ (stop_mem pre j))
  have hchain := h.chains j hj
  rw [onLevel_append] at hchain ⊢
  rw [onLevel_inserted hpre]
  have hheight : (s.inserted pre post new k key value rng).height new = k := Function.update_self ..
  rcases Nat.lt_or_ge k j with hlt | hge
  · rw [onLevel_cons_of_lt (hheight.trans_lt hlt), onLevel_inserted hpost]
    have hsame (a : ℕ) (ha : a ≠ new) : (s.inserted pre post new k key value rng).forward a j = s.forward a j := by
      simp only [Skiplist.inserted, if_neg (Nat.not_le_of_lt hlt), if_neg ha]
    rw [hsame _ hheader]
    refine hchain.congr fun a ha => hsame a ?_
    rintro rfl
    rcases List.mem_append.mp ha with ha | ha
    · exact hpre (mem_onLevel.mp ha).1
    · exact hpost (mem_onLevel.mp ha).1
  · rw [onLevel_cons_of_le (hge.trans_eq hheight.symm), onLevel_inserted hpost]
    refine Spells.link hchain ?_ ?_ ?_ ?_ ?_
    · rw [List.cons_append, ← onLevel_append]
      exact h.nodup_onLevel j
    · rw [List.cons_append, ← onLevel_append]
      exact fun hmem => hnew (onLevel_subset j hmem)
    · simp only [Skiplist.inserted, if_pos hge]
      exact (if_neg hstop).trans (if_pos rfl)
    · simp only [Skiplist.inserted, if_pos hge, if_true]
      rfl
    · intro a ha hanew
      simp only [Skiplist.inserted, if_pos hge, if_neg hanew]
      exact if_neg ha

theorem map_update {β : Type} {f : ℕ → β} {x : β} (hl : new ∉ l) : l.map (Function.update f new x) = l.map f :=
  List.map_congr_left fun _ ha => Function.update_of_ne (ne_of_mem_of_not_mem ha hl) ..

theorem map_update_append_cons {β : Type} {f : ℕ → β} {x : β} (hnew : new ∉ pre ++ post) :
    (pre ++ new :: post).map (Function.update f new x) = pre.map f ++ x :: post.map f := by
  obtain ⟨hpre, hpost⟩ := not_or.mp (List.mem_append.not.mp hnew)
  rw [List.map_append, List.map_cons, map_update hpre, map_update hpost, Function.update_self]

theorem pairwise_update {P : κ → κ → Prop} {f : ℕ → κ} (h : (pre ++ post).Pairwise fun a b => P (f a) (f b))
    (hnew : new ∉ pre ++ post) (hpre : ∀ a ∈ pre, P (f a) key) (hpost : ∀ a ∈ post, P key (f a)) :
    (pre ++ new :: post).Pairwise fun a b => P (Function.update f new key a) (Function.update f new key b) := by
  rw [← List.pairwise_map, List.map_append] at h
  obtain ⟨hpre', hpost', hacross⟩ := List.pairwise_append.mp h
  rw [← List.pairwise_map, map_update_append_cons hnew]
  refine List.pairwise_append.mpr ⟨hpre', List.pairwise_cons.mpr ⟨?_, hpost'⟩, ?_⟩
  · exact List.forall_mem_map.mpr hpost
  · intro x hx y hy
    rcases List.mem_cons.mp hy with rfl | hy
    · obtain ⟨a, ha, rfl⟩ := List.mem_map.mp hx
      exact hpre a ha
    · exact hacross x hx y hy

theorem Layered.inserted (hc : TotalPreorder cmp) (h : Layered cmp s (pre ++ post)) (hsplit : Split cmp s key pre post)
    (hnew : new ∉ s.header :: pre ++ post) (hmax : k ≤ maxLevel) (hsucc : k ≤ s.level + 1)
    (hfresh : s.allowDuplicates = false → ∀ a ∈ pre ++ post, cmp (s.key a) key ≠ 0) :
    Layered cmp (s.inserted pre post new k key value rng) (pre ++ new :: post) := by
  have hmem : new ∉ pre ++ post := fun hmem => hnew (List.mem_cons_of_mem _ hmem)
  have hheader : s.header ≠ new := fun he => hnew (he ▸ List.mem_cons_self)
  have hlevel : (s.inserted pre post new k key value rng).level = max s.level k := rfl
  have hself : (s.inserted pre post new k key value rng).height new = k := Function.update_self ..
  have hother (a : ℕ) (ha : a ∈ pre ++ post) : (s.inserted pre post new k key value rng).height a = s.height a :=
    Function.update_of_ne (ne_of_mem_of_not_mem ha hmem) ..
  refine ⟨?_, ?_, fun j hj => h.chains_inserted hnew hj, ?_, ?_, ?_, ?_, ?_, ?_, ?_, ?_⟩
  · have hperm : (s.header :: (pre ++ new :: post)).Perm (new :: s.header :: (pre ++ post)) :=
      (List.perm_middle.cons _).trans (List.Perm.swap ..)
    exact hperm.nodup_iff.mpr (List.nodup_cons.mpr ⟨hnew, h.nodup⟩)
  · exact (Function.update_of_ne hheader ..).trans h.headerHeight
  · intro a ha
    rw [hlevel]
    rcases List.mem_cons.mp (List.perm_middle.mem_iff.mp ha) with rfl | ha
    · exact hself.trans_le (Nat.le_max_right ..)
    · exact (hother a ha).trans_le ((h.height a ha).trans (Nat.le_max_left ..))
  · exact Nat.max_le.mpr ⟨h.level, hmax⟩
  · rw [hlevel, forward_header_ne_none (h.chains_inserted hnew ((Nat.max_le.mpr ⟨h.level, hmax⟩).trans (by decide)))]
    rcases Nat.lt_or_ge s.level k with hlt | hge
    · exact .inr ⟨new, by simp, by rw [hself, Nat.max_eq_right hlt.le]⟩
    · rw [Nat.max_eq_left hge]
      refine h.top.imp id fun htop => ?_
      obtain ⟨a, ha, hle⟩ := (forward_header_ne_none (h.chains _ (h.level.trans (by decide)))).mp htop
      exact ⟨a, List.perm_middle.mem_iff.mpr (List.mem_cons_of_mem _ ha), hle.trans_eq (hother a ha).symm⟩
  · refine pairwise_update (P := fun x y => cmp x y ≤ 0) h.sorted hmem (fun a ha => (hsplit.below a ha).le) fun a ha => ?_
    exact hc.le_of_not_lt (hsplit.above a ha)
  · intro hdup
    refine pairwise_update (P := fun x y => cmp x y ≠ 0) (h.distinct hdup) hmem
      (fun a ha => hfresh hdup a (List.mem_append_left _ ha)) fun a ha heq => ?_
    exact hfresh hdup a (List.mem_append_right _ ha) (hc.eq_swap heq)
  · simp only [Skiplist.inserted, h.count, List.length_append, List.length_cons]
    omega
  · simp only [Skiplist.inserted, h.last]
    cases post with
    | nil => simp
    | cons b post => simp [List.getLast?_append]
  · intro j hj
    have hstats : (s.inserted pre post new k key value rng).levelStats j =
        Function.update s.levelStats k (s.levelStats k + 1) j := rfl
    have hcount : (pre ++ post).countP (fun a => (s.inserted pre post new k key value rng).height a = j) =
        (pre ++ post).countP fun a => s.height a = j := List.countP_congr fun a ha => by rw [hother a ha]
    rw [List.perm_middle.countP_eq, List.countP_cons, hself, hcount, hstats, Function.update_apply, Int.natCast_add,
      ← h.stats j hj]
    rcases eq_or_ne j k with rfl | hne
    · simp
    · simp [hne, hne.symm]

end Inserted

end Yjc.Skiplist
