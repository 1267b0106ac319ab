import Mathlib.Tactic.Common

/-! Runs of a labelled machine. `exec` performs a list of actions; `Along` says that a condition on
the state and the next action held before every step of it. -/

namespace Yjc.Run
variable {σ α : Type*}

def exec (step : σ → α → Option σ) : σ → List α → Option σ
  | s, [] => some s
  | s, a :: as => (step s a).bind fun t => exec step t as

def Along (step : σ → α → Option σ) (ok : σ → α → Prop) : σ → List α → Prop
  | _, [] => True
  | s, a :: as => ok s a ∧ ∀ t ∈ step s a, Along step ok t as

theorem exec_cons {step : σ → α → Option σ} {s u : σ} {a : α} {as : List α} :
    exec step s (a :: as) = some u ↔ ∃ t, step s a = some t ∧ exec step t as = some u := by
  simp only [exec, Option.bind_eq_some_iff]

theorem exec_append_eq (step : σ → α → Option σ) (s : σ) (as bs : List α) :
    exec step s (as ++ bs) = (exec step s as).bind fun t => exec step t bs := by
  induction as generalizing s with
  | nil => rfl
  | cons a as ih =>
    rw [List.cons_append, exec, exec, Option.bind_assoc]
    exact congrArg _ (funext ih)

theorem exec_append {step : σ → α → Option σ} {s t u : σ} {as bs : List α} (has : exec step s as = some t)
    (hbs : exec step t bs = some u) : exec step s (as ++ bs) = some u := by
  rw [exec_append_eq, has, Option.bind_some, hbs]

/-- What holds at the start and is kept by every step that meets the condition holds in every state
reached by steps that meet it. -/
theorem invariant {step : σ → α → Option σ} {ok : σ → α → Prop} (Inv : σ → Prop)
    (hstep : ∀ s a t, Inv s → ok s a → step s a = some t → Inv t) {s t : σ} {as : List α}
    (hs : Inv s) (hok : Along step ok s as) (h : exec step s as = some t) : Inv t := by
  induction as generalizing s with
  | nil =>
    cases h
    exact hs
  | cons a as ih =>
    obtain ⟨u, hu, h⟩ := exec_cons.mp h
    exact ih (hstep s a u hs hok.1 hu) (hok.2 u hu) h

theorem invariant_hist {step : σ → α → Option σ} {ok : σ → α → Prop} (Inv : List α → σ → Prop)
    (hstep : ∀ hist s a t, Inv hist s → ok s a → step s a = some t → Inv (hist ++ [a]) t) (hist : List α) {s t : σ}
    {as : List α} (hs : Inv hist s) (hok : Along step ok s as) (h : exec step s as = some t) : Inv (hist ++ as) t := by
  induction as generalizing hist s with
  | nil =>
    cases h
    rwa [List.append_nil]
  | cons a as ih =>
    obtain ⟨u, hu, h⟩ := exec_cons.mp h
    have := ih (hist ++ [a]) (hstep hist s a u hs hok.1 hu) (hok.2 u hu) h
    rwa [List.append_assoc] at this

/-- A machine that does not stop while a condition is met, keeping an invariant that may speak of the
actions so far. -/
theorem exec_of_along {step : σ → α → Option σ} {pre : σ → α → Prop} (Inv : List α → σ → Prop)
    (good : ∀ hist s a, Inv hist s → pre s a → ∃ t, step s a = some t ∧ Inv (hist ++ [a]) t)
    (hist : List α) {s : σ} {as : List α} (hs : Inv hist s) (hpre : Along step pre s as) :
    ∃ t, exec step s as = some t ∧ Inv (hist ++ as) t := by
  induction as generalizing hist s with
  | nil => exact ⟨s, rfl, by rwa [List.append_nil]⟩
  | cons a as ih =>
    obtain ⟨t, ht, hinv⟩ := good hist s a hs hpre.1
    obtain ⟨u, hu, h⟩ := ih (hist ++ [a]) hinv (hpre.2 t ht)
    refine ⟨u, exec_cons.mpr ⟨t, ht, hu⟩, ?_⟩
    rwa [List.append_assoc] at h

/-- A machine that goes on exactly while a condition is met, keeping an invariant that may speak of
the actions so far. -/
theorem along_iff_exec {step : σ → α → Option σ} {pre ok : σ → α → Prop} (Inv : List α → σ → Prop)
    (good : ∀ hist s a, Inv hist s → pre s a → ok s a → ∃ t, step s a = some t ∧ Inv (hist ++ [a]) t)
    (bad : ∀ hist s a, Inv hist s → pre s a → ¬ok s a → step s a = none)
    (hist : List α) {s : σ} {as : List α} (hs : Inv hist s) (hpre : Along step pre s as) :
    (Along step ok s as ↔ ∃ t, exec step s as = some t) ∧ ∀ t ∈ exec step s as, Inv (hist ++ as) t := by
  induction as generalizing hist s with
  | nil => simpa [Along, exec] using hs
  | cons a as ih =>
    by_cases hok : ok s a
    · obtain ⟨t, ht, hinv⟩ := good hist s a hs hpre.1 hok
      have h := ih (hist ++ [a]) hinv (hpre.2 t ht)
      rw [List.append_assoc, List.singleton_append] at h
      simpa only [Along, exec, ht, hok, true_and, Option.mem_some_iff, forall_eq', Option.bind_some] using h
    · simp [Along, exec, hok, bad hist s a hs hpre.1 hok]

/-- A condition on the steps that is exactly what keeps every state of a run safe. -/
theorem along_iff_prefixes {step : σ → α → Option σ} {pre ok : σ → α → Prop} {safe : σ → Prop} (Inv : σ → Prop)
    (good : ∀ s a, Inv s → pre s a → ok s a → ∃ t, step s a = some t ∧ Inv t) (hsafe : ∀ s, Inv s → safe s)
    (bad : ∀ s a t, Inv s → pre s a → ¬ok s a → step s a = some t → ¬safe t) {s : σ} {as : List α} (hs : Inv s)
    (hpre : Along step pre s as) :
    Along step ok s as ↔ ∀ p, p <+: as → ∃ t, exec step s p = some t ∧ safe t := by
  induction as generalizing s with
  | nil =>
    refine iff_of_true trivial fun p hp => ?_
    rw [List.prefix_nil.mp hp]
    exact ⟨s, rfl, hsafe s hs⟩
  | cons a as ih =>
    constructor
    · rintro ⟨hok, hrest⟩ p hp
      obtain ⟨t, ht, hinv⟩ := good s a hs hpre.1 hok
      cases p with
      | nil => exact ⟨s, rfl, hsafe s hs⟩
      | cons b p =>
        obtain ⟨rfl, htail⟩ := List.cons_prefix_cons.mp hp
        obtain ⟨u, hu, hsafe⟩ := (ih hinv (hpre.2 t ht)).mp (hrest t ht) p htail
        exact ⟨u, exec_cons.mpr ⟨t, ht, hu⟩, hsafe⟩
    · intro h
      have hok : ok s a := by
        obtain ⟨u, hu, hsafe⟩ := h [a] (List.cons_prefix_cons.mpr ⟨rfl, List.nil_prefix⟩)
        obtain ⟨t, ht, hu⟩ := exec_cons.mp hu
        cases hu
        by_contra hbad
        exact bad s a u hs hpre.1 hbad ht hsafe
      refine ⟨hok, fun t ht => ?_⟩
      obtain ⟨t', ht', hinv⟩ := good s a hs hpre.1 hok
      have heq : t' = t := Option.some.inj (ht'.symm.trans ht)
      subst heq
      refine (ih hinv (hpre.2 t' ht)).mpr fun p hp => ?_
      obtain ⟨u, hu, hsafe⟩ := h (a :: p) (List.cons_prefix_cons.mpr ⟨rfl, hp⟩)
      obtain ⟨v, hv, hu⟩ := exec_cons.mp hu
      have heq : v = t' := Option.some.inj (hv.symm.trans ht)
      subst heq
      exact ⟨u, hu, hsafe⟩

theorem along_iff_safe {step : σ → α → Option σ} {pre ok : σ → α → Prop} {safe : σ → Prop} (Base : σ → Prop)
    (good : ∀ s a, Base s → safe s → pre s a → ∃ t, step s a = some t ∧ Base t ∧ (safe t ↔ ok s a)) {s : σ} {as : List α}
    (hbase : Base s) (hs : safe s) (hpre : Along step pre s as) :
    Along step ok s as ↔ ∀ p, p <+: as → ∃ t, exec step s p = some t ∧ safe t := by
  refine along_iff_prefixes (fun s => Base s ∧ safe s) (fun s a hs hpre hok => ?_) (fun s hs => hs.2) (fun s a t hs hpre hbad ht => ?_)
    ⟨hbase, hs⟩ hpre
  · obtain ⟨t, ht, hbase, hsafe⟩ := good s a hs.1 hs.2 hpre
    exact ⟨t, ht, hbase, hsafe.mpr hok⟩
  · obtain ⟨t', ht', -, hsafe⟩ := good s a hs.1 hs.2 hpre
    cases ht.symm.trans ht'
    exact mt hsafe.mp hbad

/-- A condition on the steps that is exactly what makes a machine follow another through `f`, over every run that the other has. -/
theorem along_iff_follows {τ : Type*} {step : σ → α → Option σ} {step' : τ → α → Option τ} {ok : σ → α → Prop} {safe : σ → τ → Prop}
    (f : σ → τ) (Inv : σ → Prop) (hsafe : ∀ s, Inv s → safe s (f s))
    (good : ∀ s a, Inv s → ok s a → (step s a).map f = step' (f s) a ∧ ∀ t ∈ step s a, Inv t)
    (bad : ∀ s a, Inv s → ¬ok s a → step s a = none ∧ step' (f s) a ≠ none) {s : σ} {as : List α} (hs : Inv s) :
    Along step ok s as ↔ ∀ p, p <+: as → ∀ u ∈ exec step' (f s) p, ∃ t, exec step s p = some t ∧ safe t u := by
  induction as generalizing s with
  | nil =>
    refine iff_of_true trivial fun p hp u hu => ?_
    rw [List.prefix_nil.mp hp] at hu ⊢
    cases hu
    exact ⟨s, rfl, hsafe s hs⟩
  | cons a as ih =>
    constructor
    · rintro ⟨hok, hrest⟩ p hp u hu
      obtain ⟨hmap, hinv⟩ := good s a hs hok
      cases p with
      | nil =>
        cases hu
        exact ⟨s, rfl, hsafe s hs⟩
      | cons b p =>
        obtain ⟨rfl, htail⟩ := List.cons_prefix_cons.mp hp
        obtain ⟨v, hv, hu⟩ := exec_cons.mp hu
        obtain ⟨t, ht, rfl⟩ := Option.map_eq_some_iff.mp (hmap.trans hv)
        obtain ⟨t', ht', hsafe⟩ := (ih (hinv t ht)).mp (hrest t ht) p htail u hu
        exact ⟨t', exec_cons.mpr ⟨t, ht, ht'⟩, hsafe⟩
    · intro h
      have hok : ok s a := by
        by_contra hbad
        obtain ⟨hnone, hsome⟩ := bad s a hs hbad
        obtain ⟨v, hv⟩ := Option.ne_none_iff_exists'.mp hsome
        obtain ⟨t, ht, -⟩ := h [a] (List.cons_prefix_cons.mpr ⟨rfl, List.nil_prefix⟩) v (exec_cons.mpr ⟨v, hv, rfl⟩)
        obtain ⟨t', ht', -⟩ := exec_cons.mp ht
        rw [hnone] at ht'
        cases ht'
      obtain ⟨hmap, hinv⟩ := good s a hs hok
      refine ⟨hok, fun t ht => (ih (hinv t ht)).mpr fun p hp u hu => ?_⟩
      have hv : step' (f s) a = some (f t) := by
        rw [← hmap, ht]
        rfl
      obtain ⟨t', ht', hsafe⟩ := h (a :: p) (List.cons_prefix_cons.mpr ⟨rfl, hp⟩) u (exec_cons.mpr ⟨f t, hv, hu⟩)
      obtain ⟨w, hw, ht'⟩ := exec_cons.mp ht'
      cases ht.symm.trans hw
      exact ⟨t', ht', hsafe⟩

theorem steps_of_along {step : σ → α → Option σ} {ok : σ → α → Prop} {P : σ → α → σ → Prop} (Inv : σ → Prop)
    (good : ∀ s a, Inv s → ok s a → ∃ t, step s a = some t ∧ Inv t ∧ P s a t) {s : σ} {as p : List α} {a : α} (hs : Inv s)
    (hok : Along step ok s as) (hp : p ++ [a] <+: as) : ∃ t u, exec step s p = some t ∧ step t a = some u ∧ P t a u := by
  induction as generalizing s p with
  | nil => simp at hp
  | cons b as ih =>
    obtain ⟨u, hu, hinv, hP⟩ := good s b hs hok.1
    cases p with
    | nil =>
      obtain ⟨rfl, -⟩ := List.cons_prefix_cons.mp hp
      exact ⟨s, u, rfl, hu, hP⟩
    | cons c p =>
      obtain ⟨rfl, htail⟩ := List.cons_prefix_cons.mp hp
      obtain ⟨v, w, hv, hw, hP⟩ := ih hinv (hok.2 u hu) htail
      exact ⟨v, w, exec_cons.mpr ⟨u, hu, hv⟩, hw, hP⟩

/-- A condition held before every step of a run exactly when it holds in each state that the run reaches of the action that comes next. -/
theorem along_iff_forall {step : σ → α → Option σ} {ok : σ → α → Prop} {s : σ} {as : List α} :
    Along step ok s as ↔ ∀ p a, p ++ [a] <+: as → ∀ t ∈ exec step s p, ok t a := by
  induction as generalizing s with
  | nil => exact iff_of_true trivial fun p a hp => by simp at hp
  | cons b as ih =>
    constructor
    · rintro ⟨hok, hrest⟩ p a hp t ht
      cases p with
      | nil =>
        obtain ⟨rfl, -⟩ := List.cons_prefix_cons.mp hp
        cases ht
        exact hok
      | cons c p =>
        obtain ⟨rfl, htail⟩ := List.cons_prefix_cons.mp hp
        obtain ⟨u, hu, ht⟩ := exec_cons.mp ht
        exact ih.mp (hrest u hu) p a htail t ht
    · intro h
      refine ⟨h [] b (List.cons_prefix_cons.mpr ⟨rfl, List.nil_prefix⟩) s rfl, fun u hu => ih.mpr fun p a hp t ht => ?_⟩
      exact h (b :: p) a (List.cons_prefix_cons.mpr ⟨rfl, hp⟩) t (exec_cons.mpr ⟨u, hu, ht⟩)

theorem along_and {step : σ → α → Option σ} {p q : σ → α → Prop} {s : σ} {as : List α} :
    Along step (fun s a => p s a ∧ q s a) s as ↔ Along step p s as ∧ Along step q s as := by
  induction as generalizing s with
  | nil => simp only [Along, and_self]
  | cons a as ih =>
    simp only [Along, ih]
    constructor
    · rintro ⟨⟨hp, hq⟩, h⟩
      exact ⟨⟨hp, fun t ht => (h t ht).1⟩, hq, fun t ht => (h t ht).2⟩
    · rintro ⟨⟨hp, h⟩, hq, h'⟩
      exact ⟨⟨hp, hq⟩, fun t ht => ⟨h t ht, h' t ht⟩⟩

theorem along_append {step : σ → α → Option σ} {ok : σ → α → Prop} {s : σ} {as bs : List α} :
    Along step ok s (as ++ bs) ↔ Along step ok s as ∧ ∀ t ∈ exec step s as, Along step ok t bs := by
  induction as generalizing s with
  | nil => simp [Along, exec]
  | cons a as ih =>
    rw [List.cons_append, Along, Along, and_assoc]
    refine and_congr_right fun _ => ⟨fun h => ⟨fun t ht => (ih.mp (h t ht)).1, fun u hu => ?_⟩, fun h t ht => ih.mpr ⟨h.1 t ht, ?_⟩⟩
    · obtain ⟨t, ht, hu⟩ := exec_cons.mp hu
      exact (ih.mp (h t ht)).2 u hu
    · exact fun u hu => h.2 u (exec_cons.mpr ⟨t, ht, hu⟩)

theorem along_of_forall {step : σ → α → Option σ} {ok : σ → α → Prop} (h : ∀ s a, ok s a) (s : σ)
    (as : List α) : Along step ok s as := by
  induction as generalizing s with
  | nil => trivial
  | cons a as ih => exact ⟨h s a, fun t _ => ih t⟩

theorem along_of_mem {step : σ → α → Option σ} {p : α → Prop} {as : List α} (h : ∀ a ∈ as, p a) (s : σ) :
    Along step (fun _ a => p a) s as := by
  induction as generalizing s with
  | nil => trivial
  | cons a as ih =>
    exact ⟨h a List.mem_cons_self, fun t _ => ih (fun b hb => h b (List.mem_cons_of_mem _ hb)) t⟩

/-- The machine with a log of what its steps put out. -/
def logged {β : Type*} (step : σ → α → Option σ) (out : σ → α → σ → List β) (p : σ × List β) (a : α) :
    Option (σ × List β) := (step p.1 a).map fun t => (t, p.2 ++ out p.1 a t)

section logged
variable {β : Type*} {step : σ → α → Option σ} {out : σ → α → σ → List β}

theorem exec_logged_cons {s t : σ} {a : α} (h : step s a = some t) (log : List β) (as : List α) :
    exec (logged step out) (s, log) (a :: as) = exec (logged step out) (t, log ++ out s a t) as := by
  rw [exec, logged, h]
  rfl

theorem along_logged {ok : σ → α → Prop} {p : σ × List β} {as : List α} (h : Along step ok p.1 as) :
    Along (logged step out) (fun p a => ok p.1 a) p as := by
  induction as generalizing p with
  | nil => trivial
  | cons a as ih =>
    refine ⟨h.1, fun q hq => ih (h.2 q.1 ?_)⟩
    obtain ⟨t, ht, rfl⟩ := Option.map_eq_some_iff.mp hq
    exact ht

end logged

instance decidableAlong (step : σ → α → Option σ) (ok : σ → α → Prop) [∀ s a, Decidable (ok s a)] :
    ∀ s as, Decidable (Along step ok s as)
  | _, [] => isTrue trivial
  | s, a :: as =>
    have : ∀ t, Decidable (Along step ok t as) := fun t => decidableAlong step ok t as
    match h : step s a with
    | none => decidable_of_iff (ok s a) (by simp [Along, h])
    | some t => decidable_of_iff (ok s a ∧ Along step ok t as) (by simp [Along, h])

end Yjc.Run
