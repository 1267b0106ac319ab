import Mathlib.Algebra.GroupWithZero.Nat
import Mathlib.Algebra.Order.Group.Multiset
import Mathlib.Tactic.SplitIfs

/-! Threads as the list of what each of them is about to do, and condition variables over them: `wake` says how a thread that
sleeps on the variable goes on. Counts of threads, and what they hold, change by what one thread's step changes. -/

namespace Yjc.CondVar
variable {β γ : Type*} {wake : β → Option β} {l l' : List β} {t : ℕ} {x y : β} {p : β → Bool} {w : Option ℕ}

/-- `pthread_cond_signal`: of the threads that sleep, if any, the one of the given number goes on. -/
def signal (wake : β → Option β) (l : List β) : Option ℕ → Option (List β)
  | none => if l.any fun x => (wake x).isSome then none else some l
  | some u => (l[u]?.bind wake).map fun x => l.set u x

/-- `pthread_cond_broadcast`. -/
def broadcast (wake : β → Option β) (l : List β) : List β := l.map fun x => (wake x).getD x

/-- Either nobody slept, or one that slept goes on. -/
inductive Signalled (wake : β → Option β) (l : List β) : List β → Prop
  | nobody (h : ∀ x ∈ l, wake x = none) : Signalled wake l l
  | one (u : ℕ) (x y : β) (hu : l[u]? = some x) (hwake : wake x = some y) : Signalled wake l (l.set u y)

theorem signal_signalled (h : signal wake l w = some l') : Signalled wake l l' := by
  cases w with
  | none =>
    rw [signal] at h
    split_ifs at h with hany
    cases h
    refine .nobody fun x hx => ?_
    by_contra hne
    exact hany (List.any_eq_true.mpr ⟨x, hx, Option.isSome_iff_ne_none.mpr hne⟩)
  | some u =>
    obtain ⟨y, hy, rfl⟩ := Option.map_eq_some_iff.mp h
    obtain ⟨x, hx, hwake⟩ := Option.bind_eq_some_iff.mp hy
    exact .one u x y hx hwake

theorem countP_set (h : l[t]? = some x) (y : β) (p : β → Bool) :
    (l.set t y).countP p + (p x).toNat = l.countP p + (p y).toNat := by
  obtain ⟨ht, rfl⟩ := List.getElem?_eq_some_iff.mp h
  have hpos : p l[t] = true → 0 < l.countP p := fun hp => List.countP_pos_iff.mpr ⟨_, List.getElem_mem ht, hp⟩
  rw [List.countP_set ht]
  cases hx : p l[t] with
  | false => cases p y <;> simp
  | true =>
    have := hpos hx
    cases p y <;> simp <;> omega

theorem countP_pos (h : l[t]? = some x) (hp : p x = true) : 0 < l.countP p :=
  List.countP_pos_iff.mpr ⟨x, List.mem_of_getElem? h, hp⟩

theorem filterMap_set_perm (f : β → Option γ) (h : l[t]? = some x) :
    ((f x).toList ++ (l.set t y).filterMap f).Perm ((f y).toList ++ l.filterMap f) := by
  induction l generalizing t with
  | nil => cases h
  | cons a l ih =>
    have hcons : ∀ (b : β) (m : List β), (b :: m).filterMap f = (f b).toList ++ m.filterMap f := by
      intro b m
      rw [List.filterMap_cons]
      cases f b <;> rfl
    cases t with
    | zero =>
      cases h
      rw [List.set_cons_zero, hcons, hcons, ← List.append_assoc, ← List.append_assoc]
      exact List.perm_append_comm.append_right _
    | succ t =>
      rw [List.set_cons_succ, hcons, hcons, ← List.append_assoc, ← List.append_assoc]
      refine (List.perm_append_comm.append_right _).trans ?_
      rw [List.append_assoc]
      refine ((ih h).append_left _).trans ?_
      rw [← List.append_assoc]
      exact List.perm_append_comm.append_right _

theorem held_perm {f : β → Option γ} {taken taken' done done' : List γ} (h : l[t]? = some x)
    (hheld : taken.Perm (l.filterMap f ++ done))
    (hstep : (taken' ++ ((f x).toList ++ done)).Perm (taken ++ ((f y).toList ++ done'))) :
    taken'.Perm ((l.set t y).filterMap f ++ done') := by
  have hset := filterMap_set_perm (y := y) f h
  simp only [← Multiset.coe_eq_coe, ← Multiset.coe_add] at *
  refine add_right_cancel (b := ((f x).toList + done : Multiset γ)) ?_
  calc (taken' + ((f x).toList + done) : Multiset γ) = l.filterMap f + done + ((f y).toList + done') := by rw [hstep, hheld]
    _ = (f y).toList + l.filterMap f + (done' + done) := by ac_rfl
    _ = (f x).toList + (l.set t y).filterMap f + (done' + done) := by rw [hset]
    _ = (l.set t y).filterMap f + done' + ((f x).toList + done) := by ac_rfl

theorem sum_set (weight : β → ℕ) (h : l[t]? = some x) (y : β) :
    ((l.set t y).map weight).sum + weight x = (l.map weight).sum + weight y := by
  induction l generalizing t with
  | nil => cases h
  | cons a l ih =>
    cases t with
    | zero =>
      cases h
      simp only [List.set_cons_zero, List.map_cons, List.sum_cons]
      omega
    | succ t =>
      have := ih h
      simp only [List.set_cons_succ, List.map_cons, List.sum_cons]
      omega

/-! ## What a signal leaves as it was -/

theorem Signalled.length (h : Signalled wake l l') : l'.length = l.length := by
  cases h with
  | nobody => rfl
  | one => exact List.length_set

theorem Signalled.countP_eq (h : Signalled wake l l') (hp : ∀ x y, wake x = some y → p y = p x) : l'.countP p = l.countP p := by
  cases h with
  | nobody => rfl
  | one u x y hu hwake =>
    have := countP_set hu y p
    rw [hp x y hwake] at this
    exact Nat.add_right_cancel this

theorem Signalled.filterMap_perm (h : Signalled wake l l') {f : β → Option γ} (hf : ∀ x y, wake x = some y → f y = f x) :
    (l'.filterMap f).Perm (l.filterMap f) := by
  cases h with
  | nobody => exact List.Perm.refl _
  | one u x y hu hwake =>
    have := filterMap_set_perm (y := y) f hu
    rw [hf x y hwake] at this
    exact (List.perm_append_left_iff _).mp this

theorem Signalled.awake (h : Signalled wake l l') {asleep : β → Bool} (hasleep : ∀ x, asleep x = true → (wake x).isSome)
    (hwake : ∀ x y, wake x = some y → p y = true) : l'.countP asleep = 0 ∨ 0 < l'.countP p := by
  cases h with
  | nobody hall =>
    refine .inl (List.countP_eq_zero.mpr fun x hx hsleep => ?_)
    have := hasleep x hsleep
    rw [hall x hx] at this
    cases this
  | one u x y hu hxy =>
    have hlt : u < l.length := (List.getElem?_eq_some_iff.mp hu).1
    exact .inr (countP_pos (List.getElem?_set_self hlt) (hwake x y hxy))

theorem Signalled.sum_le (h : Signalled wake l l') (weight : β → ℕ) {k : ℕ} (hk : ∀ x y, wake x = some y → weight y ≤ weight x + k) :
    (l'.map weight).sum ≤ (l.map weight).sum + k := by
  cases h with
  | nobody => exact Nat.le_add_right _ _
  | one u x y hu hwake =>
    have := sum_set weight hu y
    have := hk x y hwake
    omega

theorem Signalled.mem (h : Signalled wake l l') (hy : y ∈ l') : y ∈ l ∨ ∃ x ∈ l, wake x = some y := by
  cases h with
  | nobody => exact .inl hy
  | one u x z hu hwake =>
    rcases List.mem_or_eq_of_mem_set hy with hy | rfl
    · exact .inl hy
    · exact .inr ⟨x, List.mem_of_getElem? hu, hwake⟩

theorem countP_broadcast (hp : ∀ x y, wake x = some y → p y = p x) : (broadcast wake l).countP p = l.countP p := by
  rw [broadcast, List.countP_map]
  congr 1
  funext x
  cases hx : wake x with
  | none => rw [Function.comp, hx, Option.getD_none]
  | some y => rw [Function.comp, hx, Option.getD_some, hp x y hx]

theorem filterMap_broadcast {f : β → Option γ} (hf : ∀ x y, wake x = some y → f y = f x) :
    (broadcast wake l).filterMap f = l.filterMap f := by
  rw [broadcast, List.filterMap_map]
  congr 1
  funext x
  cases hx : wake x with
  | none => rw [Function.comp, hx, Option.getD_none]
  | some y => rw [Function.comp, hx, Option.getD_some, hf x y hx]

theorem countP_asleep_broadcast {asleep : β → Bool} (hasleep : ∀ x, asleep x = true → (wake x).isSome)
    (hwake : ∀ x y, wake x = some y → asleep y = false) : (broadcast wake l).countP asleep = 0 := by
  rw [List.countP_eq_zero, broadcast]
  intro y hy hsleep
  obtain ⟨x, -, rfl⟩ := List.mem_map.mp hy
  cases hx : wake x with
  | none =>
    rw [hx, Option.getD_none] at hsleep
    have := hasleep x hsleep
    rw [hx] at this
    cases this
  | some y =>
    rw [hx, Option.getD_some, hwake x y hx] at hsleep
    cases hsleep

end Yjc.CondVar
