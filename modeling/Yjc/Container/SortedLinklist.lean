import Yjc.Container.Linklist
import Yjc.Lib.TotalPreorder

/-! The sorted insertions of `container/linklist.c`, and what a run of its operations leaves. -/

namespace Yjc.Linklist
open Links

variable {δ : Type*} {s : Linklist δ} {l : List (ℕ × δ)} {new : ℕ} {val : δ} {cmp : Option (δ → δ → ℤ)}

variable {c : δ → δ → ℤ}

def Sorted (c : δ → δ → ℤ) (l : List (ℕ × δ)) : Prop := l.Pairwise fun a b => c a.2 b.2 ≤ 0

theorem sorted_split (hc : TotalPreorder c) (h : Sorted c l) (val : δ) :
    (∀ e ∈ l.take (l.findIdx fun e => c val e.2 < 0), c e.2 val ≤ 0) ∧
      ∀ e ∈ l.drop (l.findIdx fun e => c val e.2 < 0), c val e.2 < 0 := by
  induction l with
  | nil => simp
  | cons a l ih =>
    obtain ⟨ha, hl⟩ := List.pairwise_cons.mp h
    rw [List.findIdx_cons]
    by_cases hlt : c val a.2 < 0
    · simp only [hlt, decide_true, cond_true, List.take_zero, List.drop_zero, List.not_mem_nil, false_implies,
        implies_true, true_and, List.mem_cons, forall_eq_or_imp]
      exact fun e he => hc.lt_of_lt_of_le hlt (ha e he)
    · simp only [hlt, decide_false, cond_false, List.take_succ_cons, List.drop_succ_cons, List.mem_cons, forall_eq_or_imp]
      exact ⟨⟨hc.le_of_not_lt hlt, (ih hl).1⟩, (ih hl).2⟩

theorem insertIdx_eq_append {α : Type*} {l : List α} {i : ℕ} (hi : i ≤ l.length) (x : α) :
    l.insertIdx i x = l.take i ++ x :: l.drop i := by
  induction l generalizing i with
  | nil => simp [Nat.le_zero.mp hi]
  | cons a l ih =>
    cases i with
    | zero => rfl
    | succ i => exact congrArg (a :: ·) (ih (Nat.le_of_succ_le_succ hi))

theorem any_stop_iff (hc : TotalPreorder c) (h : Sorted c l) (val : δ) :
    (l[l.findIdx fun e => c val e.2 ≤ 0]?.any fun e => c val e.2 = 0) ↔ ∃ e ∈ l, c val e.2 = 0 := by
  induction l with
  | nil => simp
  | cons a l ih =>
    obtain ⟨ha, hl⟩ := List.pairwise_cons.mp h
    rw [List.findIdx_cons, List.exists_mem_cons_iff]
    by_cases hle : c val a.2 ≤ 0
    · simp only [hle, decide_true, cond_true, List.getElem?_cons_zero, Option.any_some, decide_eq_true_eq]
      refine (or_iff_left_of_imp ?_).symm
      rintro ⟨e, he, heq⟩
      by_contra hne
      have := hc.lt_of_lt_of_le (by omega : c val a.2 < 0) (ha e he)
      omega
    · simp only [hle, decide_false, cond_false, List.getElem?_cons_succ]
      rw [ih hl, or_iff_right fun heq => hle (Int.le_of_eq heq)]

theorem findIdx_le_eq (h : ¬∃ e ∈ l, c val e.2 = 0) :
    (l.findIdx fun e => c val e.2 ≤ 0) = l.findIdx fun e => c val e.2 < 0 := by
  induction l with
  | nil => rfl
  | cons a l ih =>
    rw [List.exists_mem_cons_iff, not_or] at h
    have : c val a.2 ≤ 0 ↔ c val a.2 < 0 := by
      have := h.1
      omega
    simp only [List.findIdx_cons, this, ih h.2]

theorem sequenceStep_addSortNodup (hc : TotalPreorder c) (h : Sorted c l) :
    sequenceStep (some c) l (.addSortNodup new val) =
      if ∃ e ∈ l, c val e.2 = 0 then l else sequenceStep (some c) l (.addSort new val) := by
  have hany := any_stop_iff hc h val
  by_cases hdup : ∃ e ∈ l, c val e.2 = 0
  · rw [if_pos hdup]
    exact if_pos (hany.mpr hdup)
  · rw [if_neg hdup]
    refine (if_neg (mt hany.mp hdup)).trans ?_
    exact congrArg (l.insertIdx · (new, val)) (findIdx_le_eq hdup)

/-- What the sorted insertions have stored and no deletion has taken out, in the order of insertion. -/
def arrivalStep (c : δ → δ → ℤ) (l : List (ℕ × δ)) : Op δ → List (ℕ × δ)
  | .addSort new val => l ++ [(new, val)]
  | .addSortNodup new val => if ∃ e ∈ l, c val e.2 = 0 then l else l ++ [(new, val)]
  | .deleteNode node => l.filter fun e => e.1 ≠ node
  | _ => l

/-- The list is sorted, and equal elements are in the order of insertion. -/
structure Arranged (c : δ → δ → ℤ) (l arrived : List (ℕ × δ)) : Prop where
  sorted : Sorted c l
  stable : ∀ val, (l.filter fun e => c val e.2 = 0) = arrived.filter fun e => c val e.2 = 0

theorem Arranged.exists_iff {arrived : List (ℕ × δ)} (h : Arranged c l arrived) (val : δ) :
    (∃ e ∈ l, c val e.2 = 0) ↔ ∃ e ∈ arrived, c val e.2 = 0 := by
  have hmem : ∀ e, (e ∈ l ∧ c val e.2 = 0) ↔ (e ∈ arrived ∧ c val e.2 = 0) := by
    intro e
    have := congrArg (e ∈ ·) (h.stable val)
    simpa [List.mem_filter] using this
  exact exists_congr hmem

theorem Arranged.addSort (hc : TotalPreorder c) {arrived : List (ℕ × δ)} (h : Arranged c l arrived) (new : ℕ) (val : δ) :
    Arranged c (sequenceStep (some c) l (.addSort new val)) (arrived ++ [(new, val)]) := by
  obtain ⟨hbelow, habove⟩ := sorted_split hc h.sorted val
  have hle : (l.findIdx fun e => compare (some c) val e.2 < 0) ≤ l.length := List.findIdx_le_length
  rw [sequenceStep, insertIdx_eq_append hle]
  constructor
  · refine List.pairwise_append.mpr ⟨h.sorted.sublist (List.take_sublist ..), ?_, ?_⟩
    · exact List.pairwise_cons.mpr ⟨fun e he => Int.le_of_lt (habove e he), h.sorted.sublist (List.drop_sublist ..)⟩
    · intro a ha b hb
      rcases List.mem_cons.mp hb with rfl | hb
      · exact hbelow a ha
      · exact hc.trans _ _ _ (hbelow a ha) (Int.le_of_lt (habove b hb))
  · intro d
    have hsplit := congrArg (List.filter fun e => c d e.2 = 0)
      (List.take_append_drop (l.findIdx fun e => c val e.2 < 0) l)
    rw [List.filter_append] at hsplit
    rw [List.filter_append, List.filter_append, ← h.stable d, ← hsplit]
    by_cases heq : c d val = 0
    · have hnone : ((l.drop (l.findIdx fun e => c val e.2 < 0)).filter fun e => c d e.2 = 0) = [] := by
        refine List.filter_eq_nil_iff.mpr fun e he => ?_
        have := hc.lt_of_le_of_lt (Int.le_of_eq heq) (habove e he)
        simpa using Int.ne_of_lt this
      rw [hnone, List.append_nil]
      refine congrArg _ ?_
      rw [List.filter_cons_of_pos (by simpa using heq), List.filter_cons_of_pos (by simpa using heq)]
      exact congrArg _ hnone
    · rw [List.filter_cons_of_neg (by simpa using heq), List.filter_cons_of_neg (by simpa using heq), List.filter_nil, List.append_nil]
      rfl

theorem eraseIdx_position (hnodup : (l.map Prod.fst).Nodup) (n : ℕ) :
    l.eraseIdx (position l n) = l.filter fun e => e.1 ≠ n := by
  induction l with
  | nil => rfl
  | cons a l ih =>
    obtain ⟨ha, hl⟩ := List.nodup_cons.mp hnodup
    rw [position, List.findIdx_cons]
    by_cases hn : a.1 = n
    · rw [decide_eq_true hn, cond_true, List.eraseIdx_cons_zero, List.filter_cons_of_neg (by simpa using hn)]
      refine (List.filter_eq_self.mpr fun e he => ?_).symm
      refine decide_eq_true ?_
      rintro rfl
      exact ha (hn ▸ List.mem_map_of_mem he)
    · rw [decide_eq_false hn, cond_false, List.eraseIdx_cons_succ, List.filter_cons_of_pos (by simpa using hn)]
      exact congrArg (a :: ·) (ih hl)

/-- The sorted insertions and the deletion. -/
def Op.sorting : Op δ → Bool
  | .addSort .. | .addSortNodup .. | .deleteNode _ => true
  | _ => false

theorem Arranged.step (hc : TotalPreorder c) {arrived : List (ℕ × δ)} (h : Arranged c l arrived)
    (hnodup : (l.map Prod.fst).Nodup) {o : Op δ} (ho : o.sorting = true) :
    Arranged c (sequenceStep (some c) l o) (arrivalStep c arrived o) := by
  cases o with
  | addSort new val => exact h.addSort hc new val
  | addSortNodup new val =>
    rw [sequenceStep_addSortNodup hc h.sorted, arrivalStep]
    simp only [h.exists_iff val]
    split_ifs
    · exact h
    · exact h.addSort hc new val
  | deleteNode node =>
    rw [sequenceStep, eraseIdx_position hnodup, arrivalStep]
    refine ⟨h.sorted.sublist List.filter_sublist, fun val => ?_⟩
    rw [List.filter_comm, h.stable val, List.filter_comm]
  | _ => cases ho

/-- No insertion but `listnode_add_sort_nodup`, and the deletion. -/
def Op.nodup : Op δ → Bool
  | .addSortNodup .. | .deleteNode _ => true
  | _ => false

def Distinct (c : δ → δ → ℤ) (l : List (ℕ × δ)) : Prop := l.Pairwise fun a b => c a.2 b.2 ≠ 0

theorem Distinct.step (hc : TotalPreorder c) (h : Distinct c l) (hsorted : Sorted c l) {o : Op δ} (ho : o.nodup = true) :
    Distinct c (sequenceStep (some c) l o) := by
  cases o with
  | addSortNodup new val =>
    rw [sequenceStep_addSortNodup hc hsorted]
    split_ifs with hdup
    · exact h
    · have hperm := List.perm_insertIdx (new, val) l (List.findIdx_le_length (p := fun e => compare (some c) val e.2 < 0))
      refine (hperm.pairwise_iff fun {a b} hab heq => hab (hc.eq_swap heq)).mpr ?_
      exact List.pairwise_cons.mpr ⟨fun e he heq => hdup ⟨e, he, heq⟩, h⟩
  | deleteNode node => exact h.sublist (List.eraseIdx_sublist ..)
  | _ => cases ho

/-! ## Runs -/

structure Ran (cmp : Option (δ → δ → ℤ)) (ops : List (Op δ)) (s : Linklist δ) : Prop where
  holds : Holds s (ops.foldl (sequenceStep cmp) [])
  arranged : ∀ c, cmp = some c → TotalPreorder c → (∀ o ∈ ops, o.sorting = true) →
    Arranged c (ops.foldl (sequenceStep cmp) []) (ops.foldl (arrivalStep c) [])
  distinct : ∀ c, cmp = some c → TotalPreorder c → (∀ o ∈ ops, o.nodup = true) →
    Distinct c (ops.foldl (sequenceStep cmp) [])

theorem Op.sorting_of_nodup {o : Op δ} (ho : o.nodup = true) : o.sorting = true := by
  cases o <;> first | rfl | cases ho

theorem Ran.step {ops : List (Op δ)} (h : Ran cmp ops s) {o : Op δ} (hvalid : Valid s o) :
    ∃ t, step cmp s o = some t ∧ Ran cmp (ops ++ [o]) t := by
  obtain ⟨t, ht, hholds⟩ : ∃ t, Linklist.step cmp s o = some t ∧ Holds t _ := step_holds h.holds hvalid
  refine ⟨t, ht, ?_, ?_, ?_⟩
  · rwa [List.foldl_append]
  · rintro c rfl hc hall
    rw [List.foldl_append, List.foldl_append]
    have harr := h.arranged c rfl hc fun o ho => hall o (List.mem_append_left _ ho)
    exact harr.step hc h.holds.linked.nodup (hall o (List.mem_append_right _ List.mem_cons_self))
  · rintro c rfl hc hall
    rw [List.foldl_append]
    have hbefore : ∀ o ∈ ops, o.nodup = true := fun o ho => hall o (List.mem_append_left _ ho)
    have harr := h.arranged c rfl hc fun o ho => Op.sorting_of_nodup (hbefore o ho)
    exact (h.distinct c rfl hc hbefore).step hc harr.sorted (hall o (List.mem_append_right _ List.mem_cons_self))

/-- The two chains hold the same nodes, as the sequence of the operations says; what only the sorted insertions
have filled is sorted, with equal elements in the order of insertion. -/
theorem linklist_refines_sequence (cmp : Option (δ → δ → ℤ)) (next prev : ℕ → Option ℕ) (data : ℕ → δ) (ops : List (Op δ))
    (hvalid : Run.Along (step cmp) Valid (create next prev data) ops) :
    ∃ t, Run.exec (step cmp) (create next prev data) ops = some t ∧
      let l := ops.foldl (sequenceStep cmp) []
      Spells t.next t.head (l.map Prod.fst) ∧ Spells t.prev t.tail (l.map Prod.fst).reverse ∧ (l.map Prod.fst).Nodup ∧
        t.count = l.length ∧ (∀ e ∈ l, t.data e.1 = e.2) ∧
        ∀ c, cmp = some c → TotalPreorder c → (∀ o ∈ ops, o.sorting = true) →
          Sorted c l ∧
          (∀ val, (l.filter fun e => c val e.2 = 0) = (ops.foldl (arrivalStep c) []).filter fun e => c val e.2 = 0) ∧
          ((∀ o ∈ ops, o.nodup = true) → Distinct c l) ∧
          ∀ new val, new ∉ t.nodes → ∃ b u, t.addSortNodup cmp new val = some (b, u) ∧ (b = false ↔ ∃ e ∈ l, c val e.2 = 0) := by
  have hinit : Ran cmp [] (create next prev data) :=
    ⟨⟨linked_nil, rfl, rfl, rfl, by simp⟩, fun _ _ _ _ => ⟨List.Pairwise.nil, fun _ => rfl⟩, fun _ _ _ _ => List.Pairwise.nil⟩
  obtain ⟨t, ht, hran⟩ := Run.exec_of_along (Ran cmp) (fun hist s o h hvalid => h.step hvalid) [] hinit hvalid
  rw [List.nil_append] at hran
  have hlinked := hran.holds.linked
  refine ⟨t, ht, ?_, ?_, hlinked.nodup, hran.holds.count, hran.holds.data, ?_⟩
  · rw [hran.holds.head]
    exact hlinked.spells
  · rw [hran.holds.tail]
    exact hlinked.spells_reverse
  · rintro c rfl hc hall
    obtain ⟨hsorted, hstable⟩ := hran.arranged c rfl hc hall
    refine ⟨hsorted, hstable, hran.distinct c rfl hc, fun new val hnew => ?_⟩
    obtain ⟨b, u, hu, -, hb⟩ : ∃ b u, t.addSortNodup (some c) new val = some (b, u) ∧ _ :=
      addSortNodup_holds hran.holds (hran.holds.nodes_eq ▸ hnew)
    exact ⟨b, u, hu, hb.trans (any_stop_iff hc hsorted val)⟩

/-- The second 5 that may not be stored twice is refused. -/
theorem linklist_refines_sequence_sample :
    ∃ t, Run.exec (step (some fun x y : ℤ => x - y)) (create (fun _ => none) (fun _ => none) fun _ => 0)
        [.addSort 0 5, .addSort 1 3, .addSortNodup 2 5, .addSort 3 5, .deleteNode 1] = some t ∧
      Spells t.next t.head [0, 3] ∧ Spells t.prev t.tail [3, 0] ∧ t.count = 2 ∧
      ∃ u, t.addSortNodup (some fun x y => x - y) 4 5 = some (false, u) := by
  obtain ⟨t, ht, hnext, hprev, -, hcount, -, hsorted⟩ := linklist_refines_sequence (some fun x y : ℤ => x - y) (fun _ => none)
    (fun _ => none) (fun _ => 0) [.addSort 0 5, .addSort 1 3, .addSortNodup 2 5, .addSort 3 5, .deleteNode 1] (by decide +kernel)
  have hnodes : t.nodes = [0, 3] := by
    have := hnext.chain_eq
    rw [List.length_map, ← hcount] at this
    exact this.trans (by decide)
  obtain ⟨-, -, -, hnodup⟩ := hsorted _ rfl ⟨fun x y => by omega, fun x y z => by omega⟩ (by decide)
  obtain ⟨b, u, hu, hb⟩ := hnodup 4 5 (by rw [hnodes]; decide)
  rw [hb.mpr (by decide)] at hu
  exact ⟨t, ht, hnext, hprev, hcount, u, hu⟩

end Yjc.Linklist
