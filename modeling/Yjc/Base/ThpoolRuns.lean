import Yjc.Base.ThpoolCounts

/-! Every interleaving of the threads of `base/thpool.c`, of those that give it jobs and of those that wait for it: no job is lost
or done twice, `thpool_wait` returns when the jobs are done, and no thread sleeps through a job. -/

namespace Yjc
open CondVar

namespace Thpool
variable {α : Type*} {s s₁ s' : Thpool α} {t c : ℕ} {x y : ThreadPc α} {w w' : WaitPc}

/-! ## Jobs -/

/-- Every job is where it was started, freed or queued, in the order in which the jobs came; and a job that was started is with
a thread or done. -/
structure Jobs (s : Thpool α) : Prop where
  freed : s.phase ≠ .destroyed → s.freed = []
  order : s.pushed = s.started ++ (s.freed ++ s.queue)
  jobs : s.started.Perm (s.threads.filterMap jobOf ++ s.finished)
  empty : s.phase = .destroyed → s.queue = []

theorem ThreadMove.order (h : ThreadMove s x s₁ y) : s₁.started ++ s₁.queue = s.started ++ s.queue := by
  cases h with
  | pull_last job hlock hqueue =>
    rw [hqueue]
    exact List.append_nil _
  | pull_more job next rest hlock hqueue =>
    rw [hqueue]
    exact List.append_assoc _ _ _
  | _ => rfl

theorem ThreadMove.jobs (h : ThreadMove s x s₁ y) :
    (s₁.started ++ ((jobOf x).toList ++ s.finished)).Perm (s.started ++ ((jobOf y).toList ++ s₁.finished)) := by
  cases h with
  | pull_last job => exact List.Perm.of_eq (List.append_assoc _ _ _)
  | pull_more job => exact List.Perm.of_eq (List.append_assoc _ _ _)
  | run job => exact List.perm_append_comm.append_left _
  | _ => exact List.Perm.refl _

theorem Moves.jobs (hcounts : Counts s) (h : Jobs s) (hmove : Moves s s') : Jobs s' := by
  cases hmove with
  | thread t x y s₁ ht hthread =>
    obtain ⟨hthreads, hphase, -, -, hpushed, hfreed⟩ := hthread.frame
    have hopen := hcounts.not_destroyed ht hthread
    have hnil := h.freed hopen
    refine ⟨fun hphase' => ?_, ?_, ?_, fun hphase' => absurd (hphase ▸ hphase') hopen⟩
    · exact hfreed.trans (h.freed (hphase ▸ hphase'))
    · show s₁.pushed = s₁.started ++ (s₁.freed ++ s₁.queue)
      rw [hpushed, hfreed, hnil, List.nil_append, hthread.order, h.order, hnil, List.nil_append]
    · show s₁.started.Perm ((s₁.threads.set t y).filterMap jobOf ++ s₁.finished)
      rw [hthreads]
      exact held_perm ht h.jobs hthread.jobs
  | post t job threads ht hsignal =>
    have hrun : s.started.Perm ((s.threads.set t (.run (some job))).filterMap jobOf ++ s.finished) :=
      held_perm ht h.jobs (List.Perm.refl _)
    exact ⟨h.freed, h.order, hrun.trans ((woken_of_signalled hsignal).jobs.symm.append_right _), h.empty⟩
  | wakeThread t ht => exact ⟨h.freed, h.order, held_perm ht h.jobs (List.Perm.refl _), h.empty⟩
  | waiter c x y s₁ hc hwait => cases hwait <;> exact ⟨h.freed, h.order, h.jobs, h.empty⟩
  | wakeWaiter c seen hc => exact ⟨h.freed, h.order, h.jobs, h.empty⟩
  | opened hphase hall => exact ⟨fun _ => h.freed (by rw [hphase]; decide), h.order, h.jobs, fun hphase' => (by cases hphase')⟩
  | push job hphase hlock =>
    refine ⟨h.freed, ?_, h.jobs, fun hphase' => ?_⟩
    · show s.pushed ++ [job] = s.started ++ (s.freed ++ (s.queue ++ [job]))
      rw [h.order, List.append_assoc, List.append_assoc]
    · have hphase' : s.phase = .destroyed := hphase'
      rw [hphase'] at hphase
      rcases hphase with hphase | hphase <;> cases hphase
  | push_post threads hpushing hsignal =>
    exact ⟨h.freed, h.order, h.jobs.trans ((woken_of_signalled hsignal).jobs.symm.append_right _), h.empty⟩
  | destroy hphase => exact ⟨fun _ => h.freed (by rw [hphase]; decide), h.order, h.jobs, fun hphase' => (by cases hphase')⟩
  | postAll hphase halive => exact ⟨h.freed, h.order, h.jobs.trans ((woken_broadcast _).jobs.symm.append_right _), h.empty⟩
  | cleanup hphase halive hlock =>
    refine ⟨fun hne => absurd rfl hne, ?_, h.jobs, fun _ => rfl⟩
    show s.pushed = s.started ++ (s.freed ++ s.queue ++ [])
    rw [List.append_nil]
    exact h.order

/-! ## Those that wait -/

/-- How many jobs there had been when the caller came is no more than there are; or than were started, once it has seen the
queue empty. -/
def Seen (pushed started : ℕ) : WaitPc → Prop
  | .out => True
  | .enter seen | .asleep seen | .test seen false => seen ≤ pushed
  | .test seen true => seen ≤ started

structure Waits (s : Thpool α) : Prop where
  lock : s.thcountLock.toNat = s.waiters.countP testing
  seen : s.phase ≠ .destroyed → ∀ w ∈ s.waiters, Seen s.pushed.length s.started.length w
  /-- A single caller sleeps only while a job is queued or a thread is counted as working. -/
  rest : s.waiters.length ≤ 1 → s.phase ≠ .destroyed → 0 < s.waiters.countP resting →
    s.queue ≠ [] ∨ 0 < s.numThreadsWorking

theorem Seen.mono {p p' q q' : ℕ} (h : Seen p q w) (hp : p ≤ p') (hq : q ≤ q') : Seen p' q' w := by
  cases w with
  | out => trivial
  | enter seen => exact Nat.le_trans (show seen ≤ p from h) hp
  | test seen idle =>
    cases idle with
    | true => exact Nat.le_trans (show seen ≤ q from h) hq
    | false => exact Nat.le_trans (show seen ≤ p from h) hp
  | asleep seen => exact Nat.le_trans (show seen ≤ p from h) hp

theorem ThreadMove.started (h : ThreadMove s x s₁ y) : s.started.length ≤ s₁.started.length := by
  cases h with
  | pull_last => exact List.length_append.ge.trans' (Nat.le_add_right _ _)
  | pull_more => exact List.length_append.ge.trans' (Nat.le_add_right _ _)
  | _ => exact Nat.le_refl _

theorem ThreadMove.waiters (h : ThreadMove s x s₁ y) : s₁.waiters = s.waiters ∨ Signalled wakeWaiter s.waiters s₁.waiters := by
  -- the callers as they were, or one of them woken by the last thread to finish
  cases h with
  | finish_last waiters hlock hlast hsignal => exact .inr hsignal
  | _ => exact .inl rfl

theorem ThreadMove.thcountLock (h : ThreadMove s x s₁ y) : s₁.thcountLock = s.thcountLock := by cases h <;> rfl

theorem resting_signalled {l l' : List WaitPc} (h : Signalled wakeWaiter l l') (hone : l.length ≤ 1) (htesting : l.countP testing = 0) :
    l'.countP resting = 0 := by
  -- with no caller at its tests, one signal wakes the only one that sleeps
  cases h with
  | nobody hall =>
    refine List.countP_eq_zero.mpr fun w hw hrest => ?_
    cases w with
    | test seen idle => exact List.countP_eq_zero.mp htesting _ hw rfl
    | asleep seen => cases hall _ hw
    | _ => cases hrest
  | one u a b hu hwake =>
    obtain ⟨seen, rfl, rfl⟩ := wakeWaiter_eq hwake
    have hset : (l.set u (.enter seen)).countP resting + 1 = l.countP resting := countP_set hu (.enter seen) resting
    have hle : l.countP resting ≤ l.length := List.countP_le_length
    omega

theorem ThreadMove.rest (h : ThreadMove s x s₁ y) (hone : s.waiters.length ≤ 1)
    (htesting : s.thcountLock.toNat = s.waiters.countP testing) (hpos : counted x = true → 0 < s.numThreadsWorking)
    (hinv : 0 < s.waiters.countP resting → s.queue ≠ [] ∨ 0 < s.numThreadsWorking) (hrest : 0 < s₁.waiters.countP resting) :
    s₁.queue ≠ [] ∨ 0 < s₁.numThreadsWorking := by
  cases h with
  | count => exact .inr (Nat.succ_pos _)
  | pull_none => exact .inr (hpos rfl)
  | pull_last => exact .inr (hpos rfl)
  | pull_more => exact .inr (hpos rfl)
  | finish_last waiters hlock hlast hsignal =>
    rw [hlock] at htesting
    exact absurd (resting_signalled hsignal hone htesting.symm) (Nat.ne_of_gt hrest)
  | finish hlock hmore => exact .inr (Nat.pos_of_ne_zero hmore)
  | _ => exact hinv hrest

theorem seen_signalled {l l' : List WaitPc} {p q : ℕ} (h : Signalled wakeWaiter l l') (hl : ∀ w ∈ l, Seen p q w) :
    ∀ w ∈ l', Seen p q w := by
  intro w hw
  rcases h.mem hw with hw | ⟨w₀, hw₀, hwake⟩
  · exact hl w hw
  · obtain ⟨seen, rfl, rfl⟩ := wakeWaiter_eq hwake
    have hle : seen ≤ p := hl (.asleep seen) hw₀
    exact hle

theorem waits_thread (hcounts : Counts s) (h : Waits s) (ht : s.threads[t]? = some x) (hmove : ThreadMove s x s₁ y) :
    Waits (s₁.goto t y) := by
  obtain ⟨-, hphase, -, -, hpushed, -⟩ := hmove.frame
  have hpos : counted x = true → 0 < s.numThreadsWorking := fun hx => hcounts.working ▸ countP_pos ht hx
  have hlength : s₁.waiters.length = s.waiters.length := by
    rcases hmove.waiters with heq | hsignal
    · rw [heq]
    · exact hsignal.length
  refine ⟨?_, fun hopen w hw => ?_, fun hone hopen hrest => ?_⟩
  · show s₁.thcountLock.toNat = s₁.waiters.countP testing
    rw [hmove.thcountLock, h.lock]
    rcases hmove.waiters with heq | hsignal
    · rw [heq]
    · refine (hsignal.countP_eq fun a b hab => ?_).symm
      obtain ⟨seen, rfl, rfl⟩ := wakeWaiter_eq hab
      rfl
  · have hseen : ∀ w ∈ s₁.waiters, Seen s.pushed.length s.started.length w := by
      rcases hmove.waiters with heq | hsignal
      · rw [heq]
        exact h.seen (hphase ▸ hopen)
      · exact seen_signalled hsignal (h.seen (hphase ▸ hopen))
    exact (hseen w hw).mono (hpushed ▸ Nat.le_refl _) hmove.started
  · exact hmove.rest (hlength ▸ hone) h.lock hpos (h.rest (hlength ▸ hone) (hphase ▸ hopen)) hrest

theorem waits_waiter (hjobs : Jobs s) (h : Waits s) (hc : s.waiters[c]? = some w) (hmove : WaitMove s w s₁ w') :
    Waits (s₁.waitGoto c w') := by
  have htest := countP_set hc w' testing
  have hrest := countP_set hc w' resting
  have hlock := h.lock
  have hmem : w ∈ s.waiters := List.mem_of_getElem? hc
  have hset : ∀ {p q : ℕ}, Seen p q w' → (∀ w ∈ s.waiters, Seen p q w) → ∀ v ∈ s.waiters.set c w', Seen p q v := by
    intro p q hw' hall v hv
    rcases List.mem_or_eq_of_mem_set hv with hv | rfl
    · exact hall v hv
    · exact hw'
  have hone : ∀ {n : ℕ}, (s.waiters.set c w').length ≤ n → s.waiters.length ≤ n := fun hle => List.length_set.symm.le.trans hle
  cases hmove with
  | call hphase =>
    refine ⟨hlock.trans (Nat.add_right_cancel htest).symm, fun hopen => hset (Nat.le_refl _) (h.seen hopen), fun hle hopen hpos => ?_⟩
    exact h.rest (hone hle) hopen ((Nat.add_right_cancel hrest) ▸ hpos)
  | enter seen hfree =>
    rw [hfree] at hlock
    refine ⟨?_, fun hopen => hset ?_ (h.seen hopen), fun hle hopen hpos => ?_⟩
    · show 1 = (s.waiters.set c (.test seen s.queue.isEmpty)).countP testing
      have : (s.waiters.set c (.test seen s.queue.isEmpty)).countP testing + 0 = s.waiters.countP testing + 1 := htest
      rw [Bool.toNat_false] at hlock
      omega
    · -- with an empty queue every job there is was started
      cases hempty : s.queue.isEmpty with
      | false => exact (h.seen hopen _ hmem : Seen _ _ (.enter seen))
      | true =>
        have hle : seen ≤ s.pushed.length := h.seen hopen _ hmem
        have horder := congrArg List.length hjobs.order
        rw [hjobs.freed hopen, List.isEmpty_iff.mp hempty, List.append_nil, List.append_nil] at horder
        exact horder ▸ hle
    · cases hempty : s.queue.isEmpty with
      | false => exact .inl fun hnil => by rw [show s.queue = [] from hnil] at hempty; cases hempty
      | true =>
        rw [hempty] at hrest
        have hpos : 0 < (s.waiters.set c (.test seen s.queue.isEmpty)).countP resting := hpos
        rw [hempty] at hpos
        exact h.rest (hone hle) hopen ((Nat.add_right_cancel hrest) ▸ hpos)
  | test_out seen hidle =>
    have htest : (s.waiters.set c .out).countP testing + 1 = s.waiters.countP testing := htest
    have hle := Bool.toNat_le s.thcountLock
    refine ⟨?_, fun hopen => hset trivial (h.seen hopen), fun hle hopen hpos => ?_⟩
    · show 0 = (s.waiters.set c .out).countP testing
      omega
    · exact h.rest (hone hle) hopen ((Nat.add_right_cancel hrest) ▸ hpos)
  | test_sleep seen idle hbusy =>
    have htest : (s.waiters.set c (.asleep seen)).countP testing + 1 = s.waiters.countP testing := htest
    have hle := Bool.toNat_le s.thcountLock
    refine ⟨?_, fun hopen => hset ?_ (h.seen hopen), fun hle hopen hpos => ?_⟩
    · show 0 = (s.waiters.set c (.asleep seen)).countP testing
      omega
    · show seen ≤ s.pushed.length
      cases idle with
      | false => exact h.seen hopen _ hmem
      | true =>
        have hle : seen ≤ s.started.length := h.seen hopen _ hmem
        have horder := congrArg List.length hjobs.order
        rw [List.length_append] at horder
        omega
    · rcases hbusy with rfl | hworking
      · exact h.rest (hone hle) hopen ((Nat.add_right_cancel hrest) ▸ hpos)
      · exact .inr (Nat.pos_of_ne_zero hworking)

theorem Moves.waits (hcounts : Counts s) (hjobs : Jobs s) (h : Waits s) (hmove : Moves s s') : Waits s' := by
  have hkeep : ∀ {s' : Thpool α}, s'.thcountLock = s.thcountLock → s'.waiters = s.waiters → s'.started = s.started →
      s.pushed.length ≤ s'.pushed.length → (s'.phase ≠ .destroyed → s.phase ≠ .destroyed ∧
        (s.queue ≠ [] ∨ 0 < s.numThreadsWorking → s'.queue ≠ [] ∨ 0 < s'.numThreadsWorking)) → Waits s' := by
    intro s' hlock hwaiters hstarted hpushed hopen
    refine ⟨by rw [hlock, hwaiters]; exact h.lock, fun hphase w hw => ?_, fun hone hphase hrest => ?_⟩
    · rw [hwaiters] at hw
      rw [hstarted]
      exact (h.seen (hopen hphase).1 w hw).mono hpushed (Nat.le_refl _)
    · rw [hwaiters] at hone hrest
      exact (hopen hphase).2 (h.rest hone (hopen hphase).1 hrest)
  cases hmove with
  | thread t x y s₁ ht hthread => exact waits_thread hcounts h ht hthread
  | waiter c x y s₁ hc hwait => exact waits_waiter hjobs h hc hwait
  | wakeWaiter c seen hc =>
    have htest := countP_set hc (.enter seen) testing
    have hrest : (s.waiters.set c (.enter seen)).countP resting + 1 = s.waiters.countP resting := countP_set hc (.enter seen) resting
    refine ⟨h.lock.trans (Nat.add_right_cancel htest).symm, fun hopen w hw => ?_, fun hone hopen hpos => ?_⟩
    · rcases List.mem_or_eq_of_mem_set hw with hw | rfl
      · exact h.seen hopen w hw
      · exact (h.seen hopen _ (List.mem_of_getElem? hc) : Seen _ _ (.asleep seen))
    · have hpos : 0 < (s.waiters.set c (.enter seen)).countP resting := hpos
      exact h.rest (List.length_set.symm.le.trans hone) hopen (by omega)
  | opened hphase hall => exact hkeep rfl rfl rfl (Nat.le_refl _) fun _ => ⟨by rw [hphase]; decide, id⟩
  | push job hphase hlock =>
    refine hkeep rfl rfl rfl (List.length_append.ge.trans' (Nat.le_add_right _ _)) fun hopen => ⟨hopen, fun _ => .inl ?_⟩
    exact List.append_ne_nil_of_right_ne_nil _ (List.cons_ne_nil _ _)
  | destroy hphase => exact hkeep rfl rfl rfl (Nat.le_refl _) fun _ => ⟨by rw [hphase]; decide, id⟩
  | cleanup hphase halive hlock => exact hkeep rfl rfl rfl (Nat.le_refl _) fun hopen => absurd rfl hopen
  | _ => exact hkeep rfl rfl rfl (Nat.le_refl _) fun hopen => ⟨hopen, id⟩

/-! ## Runs -/

structure Inv (s : Thpool α) : Prop where
  counts : Counts s
  jobs : Jobs s
  waits : Waits s

theorem Inv.step {a : Act α} (h : Inv s) (hstep : s.step a = some s') : Inv s' :=
  have hmove := step_moves hstep
  ⟨hmove.counts h.counts, hmove.jobs h.counts h.jobs, hmove.waits h.counts h.jobs h.waits⟩

theorem inv_initial (n m : ℕ) : Inv (initial n m : Thpool α) := by
  have hcount : ∀ p : WaitPc → Bool, p .out = false → (List.replicate m WaitPc.out).countP p = 0 := by
    intro p hp
    rw [List.countP_replicate, hp, if_neg Bool.false_ne_true]
  refine ⟨counts_initial n m, ⟨fun _ => rfl, rfl, ?_, fun _ => rfl⟩, ⟨(hcount _ rfl).symm, fun _ w hw => ?_, fun _ _ hpos => ?_⟩⟩
  · have hnone : (List.replicate n (.start : ThreadPc α)).filterMap jobOf = [] := List.filterMap_replicate_of_none rfl
    show List.Perm [] ((List.replicate n (.start : ThreadPc α)).filterMap jobOf ++ [])
    rw [hnone]
    exact List.Perm.refl _
  · rw [List.eq_of_mem_replicate hw]
    trivial
  · exact absurd (hcount _ rfl) (Nat.ne_of_gt hpos)

theorem inv_run {n m : ℕ} {acts : List (Act α)} (h : Run.exec step (initial n m) acts = some s) : Inv s :=
  Run.invariant Inv (fun _ _ _ hs _ hstep => hs.step hstep) (inv_initial n m)
    (Run.along_of_forall (fun _ _ => trivial) _ _) h

end Thpool
end Yjc
