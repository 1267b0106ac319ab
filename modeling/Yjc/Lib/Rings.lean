import Yjc.Lib.Links
import Mathlib.Data.List.Nodup
import Mathlib.Logic.Function.Basic

/-! Circular lists that are linked both ways, through a cell that only marks the beginning. -/

namespace Yjc.Rings
open Links Function
variable {α : Type*}

structure Cells (α : Type*) where
  next : α → α
  prev : α → α

namespace Cells
variable [DecidableEq α]

def init (c : Cells α) (h : α) : Cells α := ⟨update c.next h h, update c.prev h h⟩

/-- A cell is put between two that follow each other. -/
def addBetween (c : Cells α) (n prev next : α) : Cells α :=
  let c := { c with prev := update c.prev next n }
  let c := { c with next := update c.next n next }
  let c := { c with prev := update c.prev n prev }
  { c with next := update c.next prev n }

def add (c : Cells α) (n p : α) : Cells α := c.addBetween n p (c.next p)

def addTail (c : Cells α) (n h : α) : Cells α := c.addBetween n (c.prev h) h

def del (c : Cells α) (n : α) : Cells α :=
  let prev := c.prev n
  let next := c.next n
  ⟨update c.next prev next, update c.prev next prev⟩

/-- What is in the list from `list` on is put behind `head`. -/
def splice (c : Cells α) (list head : α) : Cells α :=
  if c.next list = list then c
  else
    let first := c.next list
    let last := c.prev list
    let next := c.next head
    let c := { c with prev := update c.prev first head }
    let c := { c with next := update c.next head first }
    let c := { c with next := update c.next last next }
    { c with prev := update c.prev next last }

/-- The cells from `a` on, up to `h`, or as many as the fuel. -/
def walk (c : Cells α) (h : α) : ℕ → α → List α
  | 0, _ => []
  | n + 1, a => if a = h then [] else a :: walk c h n (c.next a)

end Cells

/-- The cells of `l` follow `p` and one another. -/
def Seg (c : Cells α) : α → List α → Prop
  | _, [] => True
  | p, a :: l => c.next p = a ∧ c.prev a = p ∧ Seg c a l

variable {c d : Cells α} {h g p q x : α} {l m xs ys : List α}

theorem seg_append : Seg c p (xs ++ ys) ↔ Seg c p xs ∧ Seg c (lastOr p xs) ys := by
  induction xs generalizing p with
  | nil => exact ⟨fun h => ⟨trivial, h⟩, fun h => h.2⟩
  | cons a xs ih => rw [List.cons_append, Seg, Seg, ih, lastOr_cons, and_assoc, and_assoc]

theorem Seg.congr (hs : Seg c p l) (hnext : ∀ a ∈ (p :: l).dropLast, d.next a = c.next a) (hprev : ∀ a ∈ l, d.prev a = c.prev a) :
    Seg d p l := by
  induction l generalizing p with
  | nil => trivial
  | cons a l ih =>
    obtain ⟨hp, ha, hs⟩ := hs
    rw [List.dropLast_cons_cons, List.forall_mem_cons] at hnext
    rw [List.forall_mem_cons] at hprev
    exact ⟨hnext.1.trans hp, hprev.1.trans ha, ih hs hnext.2 hprev.2⟩

theorem lastOr_notMem_dropLast (hnodup : (h :: l).Nodup) : lastOr h l ∉ (h :: l).dropLast := by
  rcases List.eq_nil_or_concat' l with rfl | ⟨l, a, rfl⟩
  · exact List.not_mem_nil
  · rw [lastOr_concat, ← List.cons_append, List.dropLast_concat]
    rw [← List.cons_append] at hnodup
    exact fun ha => (List.disjoint_of_nodup_append hnodup) ha List.mem_cons_self

/-- The cells of `l` are in a circle behind `h`. -/
structure Ring (c : Cells α) (h : α) (l : List α) : Prop where
  nodup : (h :: l).Nodup
  seg : Seg c h (l ++ [h])

theorem Ring.congr (hr : Ring c h l) (hnext : ∀ a ∈ h :: l, d.next a = c.next a) (hprev : ∀ a ∈ h :: l, d.prev a = c.prev a) :
    Ring d h l := by
  refine ⟨hr.nodup, hr.seg.congr (fun a ha => hnext a ?_) fun a ha => hprev a ?_⟩
  · rwa [← List.cons_append, List.dropLast_concat] at ha
  · exact (List.perm_append_singleton h l).mem_iff.mp ha

theorem Ring.cut (hr : Ring c h (xs ++ ys)) : ∃ q rest, ys ++ [h] = q :: rest ∧ Seg c h xs ∧ c.next (lastOr h xs) = q ∧
    c.prev q = lastOr h xs ∧ Seg c q rest := by
  have hs := hr.seg
  rw [List.append_assoc, seg_append] at hs
  cases ys with
  | nil => exact ⟨h, [], rfl, hs⟩
  | cons q ys => exact ⟨q, ys ++ [h], rfl, hs⟩

theorem Ring.prev_head (hr : Ring c h l) : c.prev h = lastOr h l := by
  obtain ⟨q, rest, hq, -, -, hprev, -⟩ := @Ring.cut _ c h l [] (by rwa [List.append_nil])
  obtain ⟨rfl, -⟩ := List.cons.inj hq
  exact hprev

theorem Ring.next_last (hr : Ring c h l) : c.next (lastOr h l) = h := by
  obtain ⟨q, rest, hq, -, hnext, -⟩ := @Ring.cut _ c h l [] (by rwa [List.append_nil])
  obtain ⟨rfl, -⟩ := List.cons.inj hq
  exact hnext

theorem Ring.next_cell (hr : Ring c h (xs ++ ys)) : c.next (lastOr h xs) ∈ h :: (xs ++ ys) := by
  obtain ⟨q, rest, hq, -, hnext, -, -⟩ := hr.cut
  have hmem : q ∈ ys ++ [h] := hq ▸ List.mem_cons_self
  rw [hnext]
  rcases List.mem_append.mp hmem with hq | hq
  · exact List.mem_cons_of_mem _ (List.mem_append_right _ hq)
  · rw [List.mem_singleton.mp hq]
    exact List.mem_cons_self

theorem Ring.next_head_eq (hr : Ring c h l) : c.next h = h ↔ l = [] := by
  cases l with
  | nil => exact iff_of_true hr.seg.1 rfl
  | cons a l =>
    refine iff_of_false (fun heq => ?_) (List.cons_ne_nil a l)
    rw [hr.seg.1] at heq
    exact (List.nodup_cons.mp hr.nodup).1 (heq ▸ List.mem_cons_self)

theorem cut_ne (hnodup : (h :: (xs ++ ys)).Nodup) {rest : List α} (hq : ys ++ [h] = q :: rest) :
    q ∉ xs ∧ q ∉ rest ∧ lastOr h xs ∉ (q :: rest).dropLast := by
  -- the cells on the two sides of a cut are none of the other side
  rw [← hq, List.dropLast_concat]
  have hperm : (h :: (xs ++ ys)).Perm (xs ++ (ys ++ [h])) := by
    rw [← List.append_assoc]
    exact (List.perm_append_singleton h (xs ++ ys)).symm
  have hnodup' := hperm.nodup_iff.mp hnodup
  rw [hq] at hnodup'
  refine ⟨fun hmem => ?_, ?_, fun hmem => ?_⟩
  · exact List.disjoint_of_nodup_append hnodup' hmem List.mem_cons_self
  · exact (List.nodup_cons.mp (List.Nodup.of_append_right hnodup')).1
  · rw [← List.cons_append] at hnodup
    exact List.disjoint_of_nodup_append hnodup (lastOr_mem h xs) hmem

section ops
variable [DecidableEq α]

theorem ring_init (c : Cells α) (h : α) : Ring (c.init h) h [] :=
  ⟨List.nodup_singleton h, update_self .., update_self .., trivial⟩

theorem Ring.add (hr : Ring c h (xs ++ ys)) (hx : x ∉ h :: (xs ++ ys)) : Ring (c.add x (lastOr h xs)) h (xs ++ x :: ys) := by
  obtain ⟨q, rest, hq, hs, hnext, hprev, hs'⟩ := hr.cut
  obtain ⟨hqxs, hqrest, hplast⟩ := cut_ne hr.nodup hq
  have hnodup := hr.nodup
  rw [← List.cons_append] at hnodup hx
  have hpxs := lastOr_notMem_dropLast (List.Nodup.of_append_left hnodup)
  have hsub : ∀ a ∈ q :: rest, a ∈ (h :: xs) ++ ys := by
    intro a ha
    rw [← hq] at ha
    rcases List.mem_append.mp ha with ha | ha
    · exact List.mem_append_right _ ha
    · rw [List.mem_singleton.mp ha]
      exact List.mem_append_left _ List.mem_cons_self
  have hxq : x ≠ q := fun heq => hx (heq ▸ hsub q List.mem_cons_self)
  have hxp : x ≠ lastOr h xs := fun heq => hx (heq ▸ List.mem_append_left _ (lastOr_mem h xs))
  have hcnext (a : α) (hp : a ≠ lastOr h xs) (ha : a ≠ x) : (c.add x (lastOr h xs)).next a = c.next a := by
    simp [Cells.add, Cells.addBetween, hp, ha]
  have hcprev (a : α) (hqa : a ≠ q) (ha : a ≠ x) : (c.add x (lastOr h xs)).prev a = c.prev a := by
    simp [Cells.add, Cells.addBetween, hnext, hqa, ha]
  refine ⟨?_, ?_⟩
  · have hperm : (x :: (h :: xs ++ ys)).Perm (h :: (xs ++ x :: ys)) := (@List.perm_middle _ x (h :: xs) ys).symm
    exact hperm.nodup_iff.mp (List.nodup_cons.mpr ⟨hx, hnodup⟩)
  · rw [List.append_assoc, List.cons_append, hq, seg_append]
    refine ⟨hs.congr (fun a ha => hcnext a ?_ ?_) fun a ha => hcprev a ?_ ?_, ?_, ?_, ?_, ?_, hs'.congr (fun a ha => hcnext a ?_ ?_) fun a ha => hcprev a ?_ ?_⟩
    · exact fun heq => hpxs (heq ▸ ha)
    · exact fun heq => hx (heq ▸ List.mem_append_left _ (List.dropLast_subset _ ha))
    · exact fun heq => hqxs (heq ▸ ha)
    · exact fun heq => hx (heq ▸ List.mem_append_left _ (List.mem_cons_of_mem _ ha))
    · simp [Cells.add, Cells.addBetween]
    · simp [Cells.add, Cells.addBetween]
    · simp [Cells.add, Cells.addBetween, hxp, hnext]
    · simp [Cells.add, Cells.addBetween, hnext, hxq.symm]
    · exact fun heq => hplast (heq ▸ ha)
    · exact fun heq => hx (heq ▸ hsub a (List.dropLast_subset _ ha))
    · exact fun heq => hqrest (heq ▸ ha)
    · exact fun heq => hx (heq ▸ hsub a (List.mem_cons_of_mem _ ha))

theorem Ring.addTail_eq (hr : Ring c h l) (x : α) : c.addTail x h = c.add x (lastOr h l) := by
  rw [Cells.addTail, Cells.add, hr.prev_head, hr.next_last]

theorem Ring.add_same (hr : Ring c h (xs ++ ys)) {a : α} (ha : a ∉ h :: (xs ++ ys)) (hax : a ≠ x) :
    (c.add x (lastOr h xs)).next a = c.next a ∧ (c.add x (lastOr h xs)).prev a = c.prev a := by
  have hp : a ≠ lastOr h xs := fun heq => ha (heq ▸ List.mem_append_left ys (lastOr_mem h xs))
  have hq : a ≠ c.next (lastOr h xs) := fun heq => ha (heq ▸ hr.next_cell)
  constructor
  · simp [Cells.add, Cells.addBetween, hp, hax]
  · simp [Cells.add, Cells.addBetween, hq, hax]

theorem Ring.del (hr : Ring c h (xs ++ x :: ys)) : Ring (c.del x) h (xs ++ ys) ∧
    ∀ a ∉ h :: (xs ++ x :: ys), (c.del x).next a = c.next a ∧ (c.del x).prev a = c.prev a := by
  obtain ⟨x', rest', hx', hs, hnextp, hprevx, hsx⟩ := hr.cut
  obtain ⟨rfl, rfl⟩ := List.cons.inj hx'
  obtain ⟨q, rest, hq⟩ : ∃ q rest, ys ++ [h] = q :: rest := List.exists_cons_of_ne_nil (by simp)
  change Seg c x (ys ++ [h]) at hsx
  rw [hq] at hsx
  obtain ⟨hnextx, hprevq, hs'⟩ := hsx
  have hperm : (h :: (xs ++ x :: ys)).Perm (x :: (h :: (xs ++ ys))) := @List.perm_middle _ x (h :: xs) ys
  have hnodup := (List.nodup_cons.mp (hperm.nodup_iff.mp hr.nodup)).2
  obtain ⟨hqxs, hqrest, hplast⟩ := cut_ne hnodup hq
  have hpxs := lastOr_notMem_dropLast (List.Nodup.of_append_left (List.cons_append ▸ hnodup))
  have hdel : c.del x = ⟨update c.next (lastOr h xs) q, update c.prev q (lastOr h xs)⟩ := by rw [Cells.del, hprevx, hnextx]
  rw [hdel]
  refine ⟨⟨hnodup, ?_⟩, fun a ha => ⟨update_of_ne ?_ _ _, update_of_ne ?_ _ _⟩⟩
  · rw [List.append_assoc, hq, seg_append]
    refine ⟨hs.congr (fun a ha => update_of_ne ?_ _ _) fun a ha => update_of_ne ?_ _ _, update_self .., update_self ..,
      hs'.congr (fun a ha => update_of_ne ?_ _ _) fun a ha => update_of_ne ?_ _ _⟩
    · exact fun heq => hpxs (heq ▸ ha)
    · exact fun heq => hqxs (heq ▸ ha)
    · exact fun heq => hplast (heq ▸ ha)
    · exact fun heq => hqrest (heq ▸ ha)
  · rintro rfl
    exact ha (List.mem_append_left (x :: ys) (lastOr_mem h xs))
  · rintro rfl
    have hmem : a ∈ ys ++ [h] := hq ▸ List.mem_cons_self
    rcases List.mem_append.mp hmem with hmem | hmem
    · exact ha (List.mem_cons_of_mem _ (List.mem_append_right _ (List.mem_cons_of_mem _ hmem)))
    · exact ha (List.mem_singleton.mp hmem ▸ List.mem_cons_self)

theorem Ring.splice (hr : Ring c g l) (hh : Ring c h []) (hne : h ∉ g :: l) : Ring (c.splice g h) h l ∧
    ∀ a ∉ h :: g :: l, (c.splice g h).next a = c.next a ∧ (c.splice g h).prev a = c.prev a := by
  unfold Cells.splice
  cases l with
  | nil =>
    rw [if_pos (hr.next_head_eq.mpr rfl)]
    exact ⟨hh, fun _ _ => ⟨rfl, rfl⟩⟩
  | cons a l =>
    rw [if_neg (mt hr.next_head_eq.mp (List.cons_ne_nil a l))]
    have hlast := hr.prev_head
    have hnexth : c.next h = h := hh.seg.1
    have hs := hr.seg
    rw [seg_append] at hs
    obtain ⟨⟨hfirst, -, hs⟩, -⟩ := hs
    rw [lastOr_cons] at hlast
    obtain ⟨hg, hnodup⟩ := List.nodup_cons.mp hr.nodup
    obtain ⟨hhg, hhl⟩ : h ≠ g ∧ h ∉ a :: l := by rwa [List.mem_cons, not_or] at hne
    have hal : a ∉ l := (List.nodup_cons.mp hnodup).1
    have hha : h ≠ a := fun heq => hhl (heq ▸ List.mem_cons_self)
    have hlastmem := lastOr_mem a l
    have hhlast : h ≠ lastOr a l := fun heq => hhl (heq ▸ hlastmem)
    have hlastnot := lastOr_notMem_dropLast hnodup
    dsimp only
    rw [hfirst, hlast, hnexth]
    refine ⟨⟨List.nodup_cons.mpr ⟨hhl, hnodup⟩, ?_⟩, fun b hb => ?_⟩
    · rw [List.cons_append, Seg, seg_append]
      refine ⟨?_, ?_, hs.congr (fun b hb => ?_) fun b hb => ?_, ?_, ?_, trivial⟩
      · simp [hhlast]
      · simp [hha.symm]
      · have hbh : b ≠ h := fun heq => hhl (heq ▸ List.dropLast_subset _ hb)
        have hblast : b ≠ lastOr a l := fun heq => hlastnot (heq ▸ hb)
        simp [hbh, hblast]
      · have hbh : b ≠ h := fun heq => hhl (heq ▸ List.mem_cons_of_mem _ hb)
        have hba : b ≠ a := fun heq => hal (heq ▸ hb)
        simp [hbh, hba]
      · simp
      · simp
    · simp only [List.mem_cons, not_or] at hb
      have hblast : b ≠ lastOr a l := by
        rintro rfl
        exact (List.mem_cons.mp hlastmem).elim hb.2.2.1 hb.2.2.2
      simp [hb.1, hb.2.2.1, hblast]

theorem walk_seg {n : ℕ} (hs : Seg c p (l ++ [h])) (hh : h ∉ l) (hn : l.length ≤ n) : c.walk h n (c.next p) = l := by
  induction l generalizing p n with
  | nil =>
    rw [hs.1]
    cases n with
    | zero => rfl
    | succ n => exact if_pos rfl
  | cons a l ih =>
    obtain ⟨n, rfl⟩ : ∃ k, n = k + 1 := Nat.exists_eq_add_of_le' (Nat.lt_of_lt_of_le (Nat.succ_pos _) hn)
    obtain ⟨hha, hhl⟩ : h ≠ a ∧ h ∉ l := by rwa [List.mem_cons, not_or] at hh
    obtain ⟨hp, -, hs⟩ := hs
    rw [hp, Cells.walk, if_neg (Ne.symm hha), ih hs hhl (Nat.le_of_succ_le_succ hn)]

theorem Ring.walk {n : ℕ} (hr : Ring c h l) (hn : l.length ≤ n) : c.walk h n (c.next h) = l :=
  walk_seg hr.seg (List.nodup_cons.mp hr.nodup).1 hn

end ops

end Yjc.Rings
