import Yjc.Container.SkiplistDelete

/-! The skip list is a sorted multiset, whatever the levels drawn. -/

namespace Yjc.Skiplist
open Links

variable {κ ν : Type} {cmp : κ → κ → ℤ} {s t : Skiplist κ ν} {l pre post : List ℕ} {key : κ} {value : ν} {k q : ℕ}

def entries (s : Skiplist κ ν) (l : List ℕ) : List (κ × ν) := l.map fun a => (s.key a, s.value a)

theorem entries_append : s.entries (pre ++ post) = s.entries pre ++ s.entries post := List.map_append

theorem entries_cons : s.entries (q :: l) = (s.key q, s.value q) :: s.entries l := rfl

theorem any_entries {P : κ × ν → Prop} [DecidablePred P] :
    ((s.entries l).any fun e => P e) = true ↔ ∃ a ∈ l, P (s.key a, s.value a) := by
  simp [entries]

theorem Layered.nodes_eq (h : Layered cmp s l) : s.nodes = l := by
  have hchain := h.chains 0 (Nat.zero_le _)
  rw [onLevel_zero] at hchain
  rw [nodes, h.count]
  exact hchain.chain_eq

theorem layered_new (allowDuplicates : Bool) (header : ℕ) (height : ℕ → ℕ) (forward : ℕ → ℕ → Option ℕ) (key : ℕ → κ)
    (value : ℕ → ν) (rng : Rng) : Layered cmp (new allowDuplicates header height forward key value rng) [] where
  nodup := by simp
  headerHeight := Function.update_self ..
  chains := fun k _ => by simp [new, Spells]
  height := by simp
  level := Nat.zero_le _
  top := .inl rfl
  sorted := .nil
  distinct := fun _ => .nil
  count := rfl
  last := rfl
  stats := fun _ _ => rfl

theorem entries_inserted {new : ℕ} {rng : Rng} (hnew : new ∉ pre ++ post) :
    (s.inserted pre post new k key value rng).entries (pre ++ new :: post) =
      s.entries pre ++ (key, value) :: s.entries post := by
  have hpair : (fun a => ((s.inserted pre post new k key value rng).key a, (s.inserted pre post new k key value rng).value a)) =
      Function.update (fun a => (s.key a, s.value a)) new (key, value) := by
    funext a
    simp only [inserted, Function.update_apply]
    split_ifs <;> rfl
  rw [entries, hpair, map_update_append_cons hnew]
  rfl

theorem Split.entries (hsplit : Split cmp s key pre post) :
    ((s.entries (pre ++ post)).takeWhile fun e => cmp e.1 key < 0) = s.entries pre ∧
      ((s.entries (pre ++ post)).dropWhile fun e => cmp e.1 key < 0) = s.entries post := by
  have hpre : ∀ e ∈ s.entries pre, decide (cmp e.1 key < 0) = true := by
    intro e he
    obtain ⟨a, ha, rfl⟩ := List.mem_map.mp he
    exact decide_eq_true (hsplit.below a ha)
  rw [entries_append, List.takeWhile_append_of_pos hpre, List.dropWhile_append_of_pos hpre]
  cases post with
  | nil => exact ⟨List.append_nil _, rfl⟩
  | cons q post =>
    have hq := decide_eq_false (hsplit.above q List.mem_cons_self)
    rw [entries_cons, List.takeWhile_cons_of_neg, List.dropWhile_cons_of_neg, List.append_nil]
    · exact ⟨rfl, rfl⟩
    · simpa using hq
    · simpa using hq

structure Performed [DecidableEq ν] (cmp : κ → κ → ℤ) (random : ℕ → ℕ) (s : Skiplist κ ν) (l : List ℕ) (o : Op κ ν)
    (t : Skiplist κ ν) (l' : List ℕ) : Prop where
  eq : s.perform cmp random o = some ((sortedPerform cmp s.allowDuplicates (s.entries l) o).1, t)
  layered : Layered cmp t l'
  entries : t.entries l' = (sortedPerform cmp s.allowDuplicates (s.entries l) o).2
  flag : t.allowDuplicates = s.allowDuplicates
  same : (sortedPerform cmp s.allowDuplicates (s.entries l) o).1 = -1 → t = s

section Perform
variable [DecidableEq ν] (hc : TotalPreorder cmp) (random : ℕ → ℕ)
include hc

theorem Layered.perform_insert (h : Layered cmp s l) {new : ℕ} (hnew : new ∉ s.header :: l) (key : κ) (value : ν) :
    ∃ t l', Performed cmp random s l (.insert new key value) t l' := by
  obtain ⟨pre, post, rfl, hsplit⟩ := h.exists_split hc key
  have hinsert := h.insert_eq hsplit random hnew value
  have hany : ((s.entries (pre ++ post)).any fun e => cmp e.1 key = 0) = post.head?.any fun q => cmp (s.key q) key = 0 := by
    rw [Bool.eq_iff_iff, any_entries, hsplit.any_iff hc h]
    simp [Option.any_eq_true]
  obtain ⟨htake, hdrop⟩ := hsplit.entries
  split_ifs at hinsert with hfound
  · have hsorted : sortedPerform cmp s.allowDuplicates (s.entries (pre ++ post)) (.insert new key value) =
        (-1, s.entries (pre ++ post)) := by
      rw [sortedPerform, hany, if_pos hfound]
    exact ⟨s, pre ++ post, by rw [hsorted]; exact hinsert, h, by rw [hsorted], rfl, fun _ => rfl⟩
  · obtain ⟨k, rng, hmax, hsucc, hinsert⟩ := hinsert
    have hsorted : sortedPerform cmp s.allowDuplicates (s.entries (pre ++ post)) (.insert new key value) =
        (0, s.entries pre ++ (key, value) :: s.entries post) := by
      rw [sortedPerform, hany, if_neg hfound, htake, hdrop]
    refine ⟨s.inserted pre post new k key value rng, pre ++ new :: post, by rw [hsorted]; exact hinsert, ?_, ?_, rfl, ?_⟩
    · refine h.inserted hc hsplit hnew hmax hsucc fun hdup a ha heq => hfound ?_
      rw [hdup, ← hany, any_entries.mpr ⟨a, ha, heq⟩]
      rfl
    · rw [hsorted]
      exact entries_inserted fun hmem => hnew (List.mem_cons_of_mem _ hmem)
    · rw [hsorted]
      simp

theorem Layered.perform_delete (h : Layered cmp s l) (key : κ) (value : ν) :
    ∃ t l', Performed cmp random s l (.delete key value) t l' := by
  rcases h.delete_eq hc key value with ⟨hdelete, hnone⟩ | ⟨pre, q, post, m, rfl, hdelete, htop, hq, hpre⟩
  · have hsorted : sortedPerform cmp s.allowDuplicates (s.entries l) (.delete key value) = (-1, s.entries l) := by
      rw [sortedPerform, if_neg]
      simpa [entries] using hnone
    exact ⟨s, l, by rw [hsorted]; exact hdelete, h, by rw [hsorted], rfl, fun _ => rfl⟩
  · have hsorted : sortedPerform cmp s.allowDuplicates (s.entries (pre ++ q :: post)) (.delete key value) =
        (0, s.entries (pre ++ post)) := by
      rw [sortedPerform, if_pos, entries_append, entries_cons, List.eraseP_append_right, List.eraseP_cons_of_pos hq,
        entries_append]
      · simpa [entries] using hpre
      · exact List.any_eq_true.mpr ⟨(s.key q, s.value q), by simp [entries], hq⟩
    refine ⟨_, pre ++ post, by rw [hsorted]; exact hdelete, h.removed htop rfl, ?_, rfl, ?_⟩
    · rw [hsorted]
      rfl
    · rw [hsorted]
      simp

omit [DecidableEq ν] hc in
theorem Layered.deleteFirst_nil (h : Layered cmp s []) : s.deleteFirst = some (-1, s) := by
  have h' : Layered cmp s ([] ++ []) := h
  have hget : s.get s.header 0 = some none := h'.get_stop
  rw [deleteFirst, hget]
  rfl

omit hc in
theorem Layered.perform_deleteFirst (h : Layered cmp s l) : ∃ t l', Performed cmp random s l .deleteFirst t l' := by
  cases l with
  | nil => exact ⟨s, [], h.deleteFirst_nil, h, rfl, rfl, fun _ => rfl⟩
  | cons q l =>
    have h' : Layered cmp s ([] ++ q :: l) := h
    obtain ⟨m, hm, htop⟩ := h'.deleteFirst_eq
    exact ⟨_, l, hm, h'.removed htop rfl, rfl, rfl, by simp [sortedPerform, entries]⟩

theorem Layered.perform_eq (h : Layered cmp s l) (o : Op κ ν) (hvalid : Valid s o) : ∃ t l', Performed cmp random s l o t l' := by
  cases o with
  | insert new key value =>
    refine h.perform_insert hc random ?_ key value
    rw [Valid, h.nodes_eq] at hvalid
    exact List.not_mem_cons_of_ne_of_not_mem hvalid.1 hvalid.2
  | delete key value => exact h.perform_delete hc random key value
  | deleteFirst => exact h.perform_deleteFirst random
  | other =>
    exact ⟨_, l, rfl, ⟨h.nodup, h.headerHeight, h.chains, h.height, h.level, h.top, h.sorted, h.distinct, h.count, h.last,
      h.stats⟩, rfl, rfl, by simp [sortedPerform]⟩

/-- In every state the levels hold the nodes of their heights, and the keys and values are those of the sorted list; so is
every result, and a search finds every key that is there. -/
theorem skiplist_sorted_multiset (allowDuplicates : Bool) (header : ℕ) (height : ℕ → ℕ) (forward : ℕ → ℕ → Option ℕ)
    (key : ℕ → κ) (value : ℕ → ν) (rng : Rng) (ops : List (Op κ ν))
    (hvalid : Run.Along (step cmp random) Valid (new allowDuplicates header height forward key value rng) ops) :
    ∃ s, Run.exec (step cmp random) (new allowDuplicates header height forward key value rng) ops = some s ∧
      Layered cmp s s.nodes ∧ (∀ k, (s.onLevel (k + 1) s.nodes).Sublist (s.onLevel k s.nodes)) ∧
      s.entries s.nodes = ops.foldl (fun l o => (sortedPerform cmp allowDuplicates l o).2) [] ∧
      (∀ o, Valid s o → ∃ r t, s.perform cmp random o = some (r, t) ∧
        r = (sortedPerform cmp allowDuplicates (s.entries s.nodes) o).1 ∧ (r = -1 → t = s)) ∧
      ∀ key, ∃ r v, s.searchValue cmp key = some (r, v) ∧ (r = 0 ∨ r = -1) ∧
        (r = 0 ↔ ∃ e ∈ s.entries s.nodes, cmp e.1 key = 0) ∧
        ∀ x, v = some x → ∃ e ∈ s.entries s.nodes, cmp e.1 key = 0 ∧ e.2 = x := by
  obtain ⟨s, hs, l, hlayered, hflag, hentries⟩ := Run.exec_of_along
    (fun hist s => ∃ l, Layered cmp s l ∧ s.allowDuplicates = allowDuplicates ∧
      s.entries l = hist.foldl (fun l o => (sortedPerform cmp allowDuplicates l o).2) [])
    (fun hist s o hinv hvalid => by
      obtain ⟨l, hlayered, hflag, hentries⟩ := hinv
      obtain ⟨t, l', ht⟩ := hlayered.perform_eq hc random o hvalid
      refine ⟨t, by rw [step, ht.eq]; rfl, l', ht.layered, ht.flag.trans hflag, ?_⟩
      rw [ht.entries, hflag, hentries, List.foldl_append]
      rfl)
    [] ⟨[], layered_new .., rfl, rfl⟩ hvalid
  rw [List.nil_append] at hentries
  obtain rfl := hlayered.nodes_eq.symm
  refine ⟨s, hs, hlayered, fun k => ?_, hentries, fun o ho => ?_, fun key => ?_⟩
  · refine List.monotone_filter_right _ fun a ha => ?_
    simp only [decide_eq_true_eq] at ha ⊢
    omega
  · obtain ⟨t, l', ht⟩ := hlayered.perform_eq hc random o ho
    exact ⟨_, t, ht.eq, by rw [hflag], ht.same⟩
  · obtain ⟨r, v, hr, hret, hfound, hval⟩ := hlayered.searchValue_eq hc key
    refine ⟨r, v, hr, hret, ?_, fun x hx => ?_⟩
    · rw [hfound]
      simp [entries]
    · obtain ⟨a, ha, heq, hx⟩ := hval x hx
      exact ⟨_, List.mem_map_of_mem ha, heq, hx⟩

end Perform

/-- The first node is on level 1 and the second on level 2; the last of the keys 5 is left. -/
theorem skiplist_sorted_multiset_sample :
    ∃ s, Run.exec (step (fun x y : ℕ => (x : ℤ) - y) fun _ => 48)
        (new true 0 (fun _ => 0) (fun _ _ => none) (fun _ => 0) (fun _ => 0) ⟨0, 0, 0⟩)
        [.insert 1 5 10, .insert 2 3 11, .insert 3 5 12, .delete 5 10, .deleteFirst] = some s ∧
      s.entries s.nodes = [(5, 12)] ∧ ∃ r v, s.searchValue (fun x y : ℕ => (x : ℤ) - y) 5 = some (r, v) ∧ r = 0 := by
  have hc : TotalPreorder fun x y : ℕ => (x : ℤ) - y := ⟨fun x y => by omega, fun x y z => by omega⟩
  obtain ⟨s, hs, -, -, hentries, -, hsearch⟩ := skiplist_sorted_multiset hc (fun _ => 48) true 0 (fun _ => 0)
    (fun _ _ => none) (fun _ => 0) (fun _ => 0) ⟨0, 0, 0⟩ [.insert 1 5 10, .insert 2 3 11, .insert 3 5 12, .delete 5 10, .deleteFirst] (by decide +kernel)
  obtain ⟨r, v, hr, -, hfound, -⟩ := hsearch 5
  have hlist : s.entries s.nodes = [(5, 12)] := hentries.trans (by decide)
  exact ⟨s, hs, hlist, r, v, hr, hfound.mpr ⟨(5, 12), by rw [hlist]; decide, by decide⟩⟩

end Yjc.Skiplist
