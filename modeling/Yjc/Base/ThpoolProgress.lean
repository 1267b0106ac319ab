import Yjc.Base.ThpoolRuns

/-! What the users of `base/thpool.c` rely on, whatever the threads do in between. -/

namespace Yjc
open CondVar

namespace Thpool
variable {α : Type*} {s s' : Thpool α} {t n m : ℕ} {x : ThreadPc α}

def given : Act α → Option α
  | .push job => some job
  | _ => none

theorem step_pushed {a : Act α} (h : s.step a = some s') : s'.pushed = s.pushed ++ (given a).toList := by
  have hnil : ∀ {l : List α}, s'.pushed = l → s'.pushed = l ++ [] := fun heq => heq.trans (List.append_nil _).symm
  cases a with
  | thread t wake =>
    obtain ⟨pc, -, h⟩ := Option.bind_eq_some_iff.mp h
    rcases threadStep_cases h with ⟨s₁, y, hmove, rfl⟩ | ⟨job, threads, -, -, rfl⟩
    · exact hnil hmove.frame.pushed
    · exact hnil rfl
  | waiter c =>
    obtain ⟨pc, -, h⟩ := Option.bind_eq_some_iff.mp h
    obtain ⟨s₁, w, hmove, rfl⟩ := waitStep_cases h
    cases hmove <;> exact hnil rfl
  | wakeThread t =>
    obtain ⟨pc, -, rfl⟩ := Option.map_eq_some_iff.mp h
    exact hnil rfl
  | wakeWaiter c =>
    obtain ⟨pc, -, rfl⟩ := Option.map_eq_some_iff.mp h
    exact hnil rfl
  | push job =>
    obtain ⟨-, h⟩ := Option.ite_none_right_eq_some.mp h
    cases h
    rfl
  | post wake =>
    obtain ⟨-, h⟩ := Option.ite_none_right_eq_some.mp h
    obtain ⟨threads, -, rfl⟩ := Option.map_eq_some_iff.mp h
    exact hnil rfl
  | opened | destroy | postAll | cleanup =>
    obtain ⟨-, h⟩ := Option.ite_none_right_eq_some.mp h
    cases h
    exact hnil rfl

theorem pushed_run {acts : List (Act α)} (h : Run.exec step (initial n m) acts = some s) : s.pushed = acts.filterMap given :=
  Run.invariant_hist (fun hist s => s.pushed = hist.filterMap given)
    (fun hist s a s' hs _ hstep => by
      rw [step_pushed hstep, hs, List.filterMap_append]
      cases hgiven : given a <;> simp [hgiven])
    [] rfl (Run.along_of_forall (fun _ _ => trivial) _ _) h

theorem jobOf_of_counted (h : counted x = false) : jobOf x = none := by cases x <;> first | rfl | cases h

theorem filterMap_jobOf_nil {p : ThreadPc α → Bool} (hp : ∀ x, p x = false → jobOf x = none) {l : List (ThreadPc α)}
    (h : l.countP p = 0) : l.filterMap jobOf = [] :=
  List.filterMap_eq_nil_iff.mpr fun x hx => hp x (Bool.eq_false_iff.mpr (List.countP_eq_zero.mp h x hx))

/-- The number of jobs that a caller of `thpool_wait` has to see done. -/
def seenOf : WaitPc → Option ℕ
  | .out => none
  | .enter seen | .test seen _ | .asleep seen => some seen

theorem Moves.seenOf {c k : ℕ} {w : WaitPc} (h : Moves s s') (hw : s.waiters[c]? = some w) (hk : Thpool.seenOf w = some k) :
    ∃ w', s'.waiters[c]? = some w' ∧ (w' = .out ∨ Thpool.seenOf w' = some k) := by
  have hlt : c < s.waiters.length := (List.getElem?_eq_some_iff.mp hw).1
  have hset : ∀ (u : ℕ) (x y : WaitPc), s.waiters[u]? = some x → (y = .out ∨ ∀ k, Thpool.seenOf x = some k → Thpool.seenOf y = some k) →
      ∃ w', (s.waiters.set u y)[c]? = some w' ∧ (w' = .out ∨ Thpool.seenOf w' = some k) := by
    intro u x y hx hy
    by_cases huc : u = c
    · subst huc
      cases hw.symm.trans hx
      exact ⟨y, List.getElem?_set_self hlt, hy.imp_right fun hy => hy k hk⟩
    · exact ⟨w, by rw [List.getElem?_set_ne huc, hw], .inr hk⟩
  cases h with
  | thread t x y s₁ ht hthread =>
    rcases hthread.waiters with heq | hsignal
    · exact ⟨w, (congrArg (·[c]?) heq).trans hw, .inr hk⟩
    · show ∃ w', s₁.waiters[c]? = some w' ∧ _
      generalize s₁.waiters = waiters at hsignal
      cases hsignal with
      | nobody => exact ⟨w, hw, .inr hk⟩
      | one u a b hu hwake =>
        obtain ⟨seen, rfl, rfl⟩ := wakeWaiter_eq hwake
        exact hset u _ _ hu (.inr fun k hk => hk)
  | waiter u x y s₁ hu hwait =>
    cases hwait with
    | call => exact hset u _ _ hu (.inr fun k hk => by cases hk)
    | enter => exact hset u _ _ hu (.inr fun k hk => hk)
    | test_out => exact hset u _ _ hu (.inl rfl)
    | test_sleep => exact hset u _ _ hu (.inr fun k hk => hk)
  | wakeWaiter u seen hu => exact hset u _ _ hu (.inr fun k hk => hk)
  | _ => exact ⟨w, hw, .inr hk⟩

theorem seenOf_run {c k : ℕ} {acts : List (Act α)} {w : WaitPc} (hw : s.waiters[c]? = some w) (hk : seenOf w = some k)
    (hinside : Run.Along step (fun s _ => s.waiters[c]? ≠ some .out) s acts) (h : Run.exec step s acts = some s')
    (hend : s'.waiters[c]? ≠ some .out) : ∃ w', s'.waiters[c]? = some w' ∧ seenOf w' = some k := by
  have hrun := Run.invariant (fun s : Thpool α => ∃ w', s.waiters[c]? = some w' ∧ (w' = .out ∨ seenOf w' = some k))
    (fun s a s' hs hin hstep => by
      obtain ⟨w, hw, rfl | hk⟩ := hs
      · exact absurd hw hin
      · exact (step_moves hstep).seenOf hw hk) ⟨w, hw, .inr hk⟩ hinside h
  obtain ⟨w', hw', rfl | hk'⟩ := hrun
  · exact absurd hw' hend
  · exact ⟨w', hw', hk'⟩

/-- When `thpool_wait` returns, every job given to the pool before it was called has been done. -/
theorem thpool_wait_returns (n m c : ℕ) (before during : List (Act α)) (s₀ s₁ s₂ s₃ : Thpool α)
    (hbefore : Run.exec step (initial n m) before = some s₀) (hout : s₀.waiters[c]? = some .out)
    (hcall : s₀.step (.waiter c) = some s₁) (hduring : Run.exec step s₁ during = some s₂)
    (hinside : Run.Along step (fun s _ => s.waiters[c]? ≠ some .out) s₁ during) (hstill : s₂.waiters[c]? ≠ some .out)
    (hopen : s₂.phase ≠ .destroyed) (hreturn : s₂.step (.waiter c) = some s₃) (hdone : s₃.waiters[c]? = some .out) :
    ∃ k, (before.filterMap given).length ≤ k ∧ s₃.finished.Perm (((before ++ during).filterMap given).take k) := by
  have hrun : Run.exec step (initial n m) (before ++ .waiter c :: during) = some s₂ :=
    Run.exec_append hbefore (Run.exec_cons.mpr ⟨s₁, hcall, hduring⟩)
  have hgiven : s₂.pushed = (before ++ during).filterMap given := by
    rw [pushed_run hrun, List.filterMap_append, List.filterMap_append]
    rfl
  have hinv := inv_run hrun
  -- the call notes how many jobs there are
  have hentered : s₁.waiters[c]? = some (.enter s₀.pushed.length) := by
    rw [step, hout, Option.bind_some, waitStep, Option.ite_none_right_eq_some] at hcall
    cases hcall.2
    exact List.getElem?_set_self (List.getElem?_eq_some_iff.mp hout).1
  obtain ⟨w, hw, hseen⟩ := seenOf_run hentered rfl hinside hduring hstill
  rw [step, hw, Option.bind_some] at hreturn
  have hlt : c < s₂.waiters.length := (List.getElem?_eq_some_iff.mp hw).1
  cases w with
  | out => exact absurd hw hstill
  | enter seen =>
    rw [waitStep, Option.ite_none_left_eq_some] at hreturn
    cases hreturn.2
    rw [waitGoto, List.getElem?_set_self hlt] at hdone
    cases hdone
  | asleep seen => cases hreturn
  | test seen idle =>
    cases hseen
    cases hreturn
    rw [waitGoto, List.getElem?_set_self hlt] at hdone
    have hidle : (idle && s₂.numThreadsWorking == 0) = true := by
      by_contra hbusy
      rw [if_neg hbusy] at hdone
      cases hdone
    obtain ⟨rfl, hworking⟩ := Bool.and_eq_true_iff.mp hidle
    refine ⟨s₂.started.length, ?_, ?_⟩
    · rw [← pushed_run hbefore]
      exact hinv.waits.seen hopen _ (List.mem_of_getElem? hw)
    · -- no thread is counted, so none holds a job
      have hzero : s₂.threads.countP counted = 0 := hinv.counts.working.symm.trans (eq_of_beq hworking)
      have hjobs := hinv.jobs.jobs
      rw [filterMap_jobOf_nil (fun x => jobOf_of_counted) hzero, List.nil_append] at hjobs
      rw [← hgiven, hinv.jobs.order, List.take_left]
      exact hjobs.symm

theorem thpool_wait_returns_sample :
    ∃ s : Thpool ℕ, s.waiters[0]? = some .out ∧ s.finished.Perm [7] := by
  obtain ⟨k, hk, hperm⟩ := thpool_wait_returns 1 1 0 [Act.thread 0 none, Act.opened, Act.push 7, Act.post none]
    [Act.thread 0 none, Act.thread 0 none, Act.thread 0 none, Act.thread 0 none, Act.thread 0 none, Act.thread 0 none,
      Act.thread 0 none, Act.waiter 0] _ _ _ _ rfl rfl rfl rfl (by decide) (by decide) (by decide) rfl rfl
  exact ⟨_, rfl, hperm.trans (List.Perm.of_eq (List.take_of_length_le hk))⟩

/-! ## The pool goes on by itself -/

def rank : ThreadPc α → ℕ
  | .gone | .asleep => 0
  | .wait | .leave => 1
  | .loop => 2
  | .start => 3
  | .finish => 5
  | .run _ => 6
  | .pull => 7
  | .count => 8
  | .taken => 9
  | .post _ => 17

theorem WaitMove.frame {w w' : WaitPc} (h : WaitMove s w s' w') : ∃ lock, s' = { s with thcountLock := lock } := by
  cases h <;> exact ⟨_, rfl⟩

end Thpool
end Yjc
