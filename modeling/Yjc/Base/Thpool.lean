import Yjc.Lib.CondVar
import Yjc.Lib.Run

/-! The thread pool of `base/thpool.c`. A step is a critical section of one thread, or what lies between two of them; a lock that
stays taken over more than one step is a field. Signals and broadcasts wake sleeping threads, which may also wake by
themselves. There is one pool, so `threads_keepalive` is a field; holding threads by a signal is left out. -/

namespace Yjc
open CondVar

/-- What a thread of `thread_do` does next. -/
inductive ThreadPc (α : Type*)
  | start
  | loop
  /-- In `bsem_wait`, about to look at the semaphore. -/
  | wait
  /-- In `bsem_wait`, on its condition. -/
  | asleep
  /-- Back from `bsem_wait`, with the semaphore taken. -/
  | taken
  | count
  | pull
  /-- In `jobqueue_pull`, about to post that there are more jobs, with `rwmutex`. -/
  | post (job : α)
  | run (job : Option α)
  | finish
  | leave
  | gone

/-- What a caller of `thpool_wait` does next. `seen` is how many jobs there had been when it was called. -/
inductive WaitPc
  | out
  | enter (seen : ℕ)
  /-- With `thcount_lock`, and `jobqueue.len` read. -/
  | test (seen : ℕ) (idle : Bool)
  | asleep (seen : ℕ)
  deriving DecidableEq

inductive PoolPhase
  | init
  | opened
  | closing
  | destroyed
  deriving DecidableEq

structure Thpool (α : Type*) where
  keepalive : Bool
  /-- The value of the semaphore `has_jobs`. -/
  v : Bool
  queue : List α
  /-- Taken over two steps, by a push or a pull that is about to post. -/
  rwmutex : Bool
  pushing : Bool
  /-- Taken over two steps, by a caller of `thpool_wait`. -/
  thcountLock : Bool
  numThreadsAlive : ℕ
  numThreadsWorking : ℕ
  threads : List (ThreadPc α)
  waiters : List WaitPc
  phase : PoolPhase
  /-- The jobs given to the pool, pulled by a thread, done, and freed without being done, each in their order. -/
  pushed : List α
  started : List α
  finished : List α
  freed : List α

namespace Thpool
variable {α : Type*}

def wakeThread : ThreadPc α → Option (ThreadPc α)
  | .asleep => some .wait
  | _ => none

def wakeWaiter : WaitPc → Option WaitPc
  | .asleep seen => some (.enter seen)
  | _ => none

/-- `thpool_init` up to its last loop, for `n` threads; and `m` other threads that may wait for the pool. -/
def initial (n m : ℕ) : Thpool α where
  keepalive := true
  v := false
  queue := []
  rwmutex := false
  pushing := false
  thcountLock := false
  numThreadsAlive := 0
  numThreadsWorking := 0
  threads := List.replicate n .start
  waiters := List.replicate m .out
  phase := .init
  pushed := []
  started := []
  finished := []
  freed := []

def goto (s : Thpool α) (t : ℕ) (pc : ThreadPc α) : Thpool α := { s with threads := s.threads.set t pc }

def waitGoto (s : Thpool α) (c : ℕ) (pc : WaitPc) : Thpool α := { s with waiters := s.waiters.set c pc }

/-- `jobqueue_pull` up to its `bsem_post`: with more than one job it goes on to that, and keeps the lock. -/
def pullJob (s : Thpool α) (t : ℕ) : Thpool α :=
  match s.queue with
  | [] => s.goto t (.run none)
  | [job] => { s with queue := [], started := s.started ++ [job] }.goto t (.run (some job))
  | job :: rest => { s with queue := rest, started := s.started ++ [job], rwmutex := true }.goto t (.post job)

/-- A step of a thread of the pool. `wake` says whom its signal wakes, if it signals. One that is `gone` is no longer counted in
`num_threads_alive`, which `thpool_destroy` reads without the lock; it may have yet to unlock `thcount_lock`. -/
def threadStep (s : Thpool α) (t : ℕ) (wake : Option ℕ) : ThreadPc α → Option (Thpool α)
  | .start => if s.thcountLock then none else some ({ s with numThreadsAlive := s.numThreadsAlive + 1 }.goto t .loop)
  | .loop => some (s.goto t (if s.keepalive then .wait else .leave))
  | .wait => some (if s.v then { s with v := false }.goto t .taken else s.goto t .asleep)
  | .asleep => none
  | .taken => some (s.goto t (if s.keepalive then .count else .loop))
  | .count => if s.thcountLock then none else some ({ s with numThreadsWorking := s.numThreadsWorking + 1 }.goto t .pull)
  | .pull => if s.rwmutex then none else some (s.pullJob t)
  | .post job =>
    (signal wakeThread (s.threads.set t (.run (some job))) wake).map fun threads =>
      { s with v := true, rwmutex := false, threads := threads }
  | .run job => some ({ s with finished := s.finished ++ job.toList }.goto t .finish)
  | .finish =>
    if s.thcountLock then none
    else if s.numThreadsWorking - 1 = 0 then
      (signal wakeWaiter s.waiters wake).map fun waiters =>
        { s with numThreadsWorking := s.numThreadsWorking - 1, waiters := waiters }.goto t .loop
    else some ({ s with numThreadsWorking := s.numThreadsWorking - 1 }.goto t .loop)
  | .leave => if s.thcountLock then none else some ({ s with numThreadsAlive := s.numThreadsAlive - 1 }.goto t .gone)
  | .gone => none

/-- A step of a caller of `thpool_wait`. -/
def waitStep (s : Thpool α) (c : ℕ) : WaitPc → Option (Thpool α)
  | .out => if s.phase = .opened then some (s.waitGoto c (.enter s.pushed.length)) else none
  | .enter seen => if s.thcountLock then none else some ({ s with thcountLock := true }.waitGoto c (.test seen s.queue.isEmpty))
  | .test seen idle =>
    some ({ s with thcountLock := false }.waitGoto c (if idle && s.numThreadsWorking == 0 then .out else .asleep seen))
  | .asleep _ => none

inductive Act (α : Type*)
  | thread (t : ℕ) (wake : Option ℕ)
  | wakeThread (t : ℕ)
  | waiter (c : ℕ)
  | wakeWaiter (c : ℕ)
  /-- The end of `thpool_init`, when all threads are there. -/
  | opened
  /-- `jobqueue_push` in two steps. -/
  | push (job : α)
  | post (wake : Option ℕ)
  /-- `thpool_destroy`: its start, a round of its loops, and its end. -/
  | destroy
  | postAll
  | cleanup

def step (s : Thpool α) : Act α → Option (Thpool α)
  | .thread t wake => s.threads[t]?.bind fun pc => s.threadStep t wake pc
  | .wakeThread t => (s.threads[t]?.bind wakeThread).map fun pc => s.goto t pc
  | .waiter c => s.waiters[c]?.bind fun pc => s.waitStep c pc
  | .wakeWaiter c => (s.waiters[c]?.bind wakeWaiter).map fun pc => s.waitGoto c pc
  | .opened => if s.phase = .init ∧ s.numThreadsAlive = s.threads.length then some { s with phase := .opened } else none
  | .push job =>
    if (s.phase = .opened ∨ s.phase = .closing) ∧ s.rwmutex = false then
      some { s with queue := s.queue ++ [job], pushed := s.pushed ++ [job], rwmutex := true, pushing := true }
    else none
  | .post wake =>
    if s.pushing then
      (signal Thpool.wakeThread s.threads wake).map fun threads =>
        { s with v := true, rwmutex := false, pushing := false, threads := threads }
    else none
  | .destroy => if s.phase = .opened then some { s with phase := .closing, keepalive := false } else none
  | .postAll =>
    if s.phase = .closing ∧ s.numThreadsAlive ≠ 0 then
      some { s with v := true, threads := broadcast Thpool.wakeThread s.threads }
    else none
  | .cleanup =>
    if s.phase = .closing ∧ s.numThreadsAlive = 0 ∧ s.rwmutex = false then
      some { s with phase := .destroyed, queue := [], freed := s.freed ++ s.queue, v := false }
    else none

/-! ## What a step can do -/

/-- A step of a thread from one place to another, with what it does to the rest of the pool; but for the one that posts. -/
inductive ThreadMove (s : Thpool α) : ThreadPc α → Thpool α → ThreadPc α → Prop
  | start (hlock : s.thcountLock = false) : ThreadMove s .start { s with numThreadsAlive := s.numThreadsAlive + 1 } .loop
  | loop (hkeep : s.keepalive = true) : ThreadMove s .loop s .wait
  | loop_quit (hkeep : s.keepalive = false) : ThreadMove s .loop s .leave
  | wait (hv : s.v = true) : ThreadMove s .wait { s with v := false } .taken
  | wait_sleep (hv : s.v = false) : ThreadMove s .wait s .asleep
  | taken (hkeep : s.keepalive = true) : ThreadMove s .taken s .count
  | taken_quit (hkeep : s.keepalive = false) : ThreadMove s .taken s .loop
  | count (hlock : s.thcountLock = false) : ThreadMove s .count { s with numThreadsWorking := s.numThreadsWorking + 1 } .pull
  | pull_none (hlock : s.rwmutex = false) (hqueue : s.queue = []) : ThreadMove s .pull s (.run none)
  | pull_last (job : α) (hlock : s.rwmutex = false) (hqueue : s.queue = [job]) :
    ThreadMove s .pull { s with queue := [], started := s.started ++ [job] } (.run (some job))
  | pull_more (job next : α) (rest : List α) (hlock : s.rwmutex = false) (hqueue : s.queue = job :: next :: rest) :
    ThreadMove s .pull { s with queue := next :: rest, started := s.started ++ [job], rwmutex := true } (.post job)
  | run (job : Option α) : ThreadMove s (.run job) { s with finished := s.finished ++ job.toList } .finish
  | finish_last (waiters : List WaitPc) (hlock : s.thcountLock = false) (hlast : s.numThreadsWorking - 1 = 0)
      (hsignal : Signalled wakeWaiter s.waiters waiters) :
    ThreadMove s .finish { s with numThreadsWorking := s.numThreadsWorking - 1, waiters := waiters } .loop
  | finish (hlock : s.thcountLock = false) (hmore : s.numThreadsWorking - 1 ≠ 0) :
    ThreadMove s .finish { s with numThreadsWorking := s.numThreadsWorking - 1 } .loop
  | leave (hlock : s.thcountLock = false) : ThreadMove s .leave { s with numThreadsAlive := s.numThreadsAlive - 1 } .gone

/-- The same for a caller of `thpool_wait`. -/
inductive WaitMove (s : Thpool α) : WaitPc → Thpool α → WaitPc → Prop
  | call (hphase : s.phase = .opened) : WaitMove s .out s (.enter s.pushed.length)
  | enter (seen : ℕ) (hlock : s.thcountLock = false) :
    WaitMove s (.enter seen) { s with thcountLock := true } (.test seen s.queue.isEmpty)
  | test_out (seen : ℕ) (hidle : s.numThreadsWorking = 0) : WaitMove s (.test seen true) { s with thcountLock := false } .out
  | test_sleep (seen : ℕ) (idle : Bool) (hbusy : idle = false ∨ s.numThreadsWorking ≠ 0) :
    WaitMove s (.test seen idle) { s with thcountLock := false } (.asleep seen)

inductive Moves (s : Thpool α) : Thpool α → Prop
  | thread (t : ℕ) (x y : ThreadPc α) (s₁ : Thpool α) (ht : s.threads[t]? = some x) (h : ThreadMove s x s₁ y) :
    Moves s (s₁.goto t y)
  | post (t : ℕ) (job : α) (threads : List (ThreadPc α)) (ht : s.threads[t]? = some (.post job))
      (hsignal : Signalled wakeThread (s.threads.set t (.run (some job))) threads) :
    Moves s { s with v := true, rwmutex := false, threads := threads }
  | wakeThread (t : ℕ) (ht : s.threads[t]? = some .asleep) : Moves s (s.goto t .wait)
  | waiter (c : ℕ) (x y : WaitPc) (s₁ : Thpool α) (hc : s.waiters[c]? = some x) (h : WaitMove s x s₁ y) : Moves s (s₁.waitGoto c y)
  | wakeWaiter (c seen : ℕ) (hc : s.waiters[c]? = some (.asleep seen)) : Moves s (s.waitGoto c (.enter seen))
  | opened (hphase : s.phase = .init) (hall : s.numThreadsAlive = s.threads.length) : Moves s { s with phase := .opened }
  | push (job : α) (hphase : s.phase = .opened ∨ s.phase = .closing) (hlock : s.rwmutex = false) :
    Moves s { s with queue := s.queue ++ [job], pushed := s.pushed ++ [job], rwmutex := true, pushing := true }
  | push_post (threads : List (ThreadPc α)) (hpushing : s.pushing = true)
      (hsignal : Signalled Thpool.wakeThread s.threads threads) :
    Moves s { s with v := true, rwmutex := false, pushing := false, threads := threads }
  | destroy (hphase : s.phase = .opened) : Moves s { s with phase := .closing, keepalive := false }
  | postAll (hphase : s.phase = .closing) (halive : s.numThreadsAlive ≠ 0) :
    Moves s { s with v := true, threads := broadcast Thpool.wakeThread s.threads }
  | cleanup (hphase : s.phase = .closing) (halive : s.numThreadsAlive = 0) (hlock : s.rwmutex = false) :
    Moves s { s with phase := .destroyed, queue := [], freed := s.freed ++ s.queue, v := false }

theorem threadStep_cases {s s' : Thpool α} {t : ℕ} {wake : Option ℕ} {pc : ThreadPc α} (h : s.threadStep t wake pc = some s') :
    (∃ s₁ y, ThreadMove s pc s₁ y ∧ s' = s₁.goto t y) ∨
      ∃ job threads, pc = .post job ∧ Signalled wakeThread (s.threads.set t (.run (some job))) threads ∧
        s' = { s with v := true, rwmutex := false, threads := threads } := by
  cases pc with
  | start =>
    rw [threadStep, Option.ite_none_left_eq_some] at h
    obtain ⟨hlock, h⟩ := h
    cases h
    exact .inl ⟨_, _, .start (Bool.not_eq_true _ ▸ hlock), rfl⟩
  | loop =>
    cases h
    cases hkeep : s.keepalive with
    | true => exact .inl ⟨_, _, .loop hkeep, rfl⟩
    | false => exact .inl ⟨_, _, .loop_quit hkeep, rfl⟩
  | wait =>
    cases hv : s.v with
    | true =>
      rw [threadStep, hv, if_pos rfl] at h
      cases h
      exact .inl ⟨_, _, .wait hv, rfl⟩
    | false =>
      rw [threadStep, hv, if_neg Bool.false_ne_true] at h
      cases h
      exact .inl ⟨_, _, .wait_sleep hv, rfl⟩
  | asleep => cases h
  | taken =>
    cases h
    cases hkeep : s.keepalive with
    | true => exact .inl ⟨_, _, .taken hkeep, rfl⟩
    | false => exact .inl ⟨_, _, .taken_quit hkeep, rfl⟩
  | count =>
    rw [threadStep, Option.ite_none_left_eq_some] at h
    obtain ⟨hlock, h⟩ := h
    cases h
    exact .inl ⟨_, _, .count (Bool.not_eq_true _ ▸ hlock), rfl⟩
  | pull =>
    rw [threadStep, Option.ite_none_left_eq_some] at h
    obtain ⟨hlock, h⟩ := h
    cases h
    have hlock : s.rwmutex = false := Bool.not_eq_true _ ▸ hlock
    rw [pullJob]
    split
    · next hqueue => exact .inl ⟨_, _, .pull_none hlock hqueue, rfl⟩
    · next job hqueue => exact .inl ⟨_, _, .pull_last job hlock hqueue, rfl⟩
    · next job rest hmore hqueue =>
      cases rest with
      | nil => exact (hmore rfl).elim
      | cons next rest => exact .inl ⟨_, _, .pull_more job next rest hlock hqueue, rfl⟩
  | post job =>
    obtain ⟨threads, hsignal, rfl⟩ := Option.map_eq_some_iff.mp h
    exact .inr ⟨job, threads, rfl, signal_signalled hsignal, rfl⟩
  | run job =>
    cases h
    exact .inl ⟨_, _, .run job, rfl⟩
  | finish =>
    rw [threadStep, Option.ite_none_left_eq_some] at h
    obtain ⟨hlock, h⟩ := h
    have hlock : s.thcountLock = false := Bool.not_eq_true _ ▸ hlock
    split_ifs at h with hlast
    · obtain ⟨waiters, hsignal, rfl⟩ := Option.map_eq_some_iff.mp h
      exact .inl ⟨_, _, .finish_last waiters hlock hlast (signal_signalled hsignal), rfl⟩
    · cases h
      exact .inl ⟨_, _, .finish hlock hlast, rfl⟩
  | leave =>
    rw [threadStep, Option.ite_none_left_eq_some] at h
    obtain ⟨hlock, h⟩ := h
    cases h
    exact .inl ⟨_, _, .leave (Bool.not_eq_true _ ▸ hlock), rfl⟩
  | gone => cases h

theorem waitStep_cases {s s' : Thpool α} {c : ℕ} {pc : WaitPc} (h : s.waitStep c pc = some s') :
    ∃ s₁ w, WaitMove s pc s₁ w ∧ s' = s₁.waitGoto c w := by
  cases pc with
  | out =>
    rw [waitStep, Option.ite_none_right_eq_some] at h
    obtain ⟨hphase, h⟩ := h
    cases h
    exact ⟨_, _, .call hphase, rfl⟩
  | enter seen =>
    rw [waitStep, Option.ite_none_left_eq_some] at h
    obtain ⟨hlock, h⟩ := h
    cases h
    exact ⟨_, _, .enter seen (Bool.not_eq_true _ ▸ hlock), rfl⟩
  | test seen idle =>
    cases h
    split_ifs with hout
    · obtain ⟨rfl, hidle⟩ := Bool.and_eq_true_iff.mp hout
      exact ⟨_, _, .test_out seen (eq_of_beq hidle), rfl⟩
    · refine ⟨_, _, .test_sleep seen idle ?_, rfl⟩
      by_contra hboth
      rw [not_or, Bool.not_eq_false, not_not] at hboth
      exact hout (Bool.and_eq_true_iff.mpr ⟨hboth.1, beq_iff_eq.mpr hboth.2⟩)
  | asleep seen => cases h

theorem step_moves {s s' : Thpool α} {a : Act α} (h : s.step a = some s') : Moves s s' := by
  cases a with
  | thread t wake =>
    obtain ⟨pc, ht, h⟩ := Option.bind_eq_some_iff.mp h
    rcases threadStep_cases h with ⟨s₁, y, hmove, rfl⟩ | ⟨job, threads, rfl, hsignal, rfl⟩
    · exact .thread t _ y s₁ ht hmove
    · exact .post t job threads ht hsignal
  | wakeThread t =>
    obtain ⟨pc, hpc, rfl⟩ := Option.map_eq_some_iff.mp h
    obtain ⟨pc₀, ht, hwake⟩ := Option.bind_eq_some_iff.mp hpc
    cases pc₀ <;> cases hwake
    exact .wakeThread t ht
  | waiter c =>
    obtain ⟨pc, hc, h⟩ := Option.bind_eq_some_iff.mp h
    obtain ⟨s₁, w, hmove, rfl⟩ := waitStep_cases h
    exact .waiter c _ w s₁ hc hmove
  | wakeWaiter c =>
    obtain ⟨pc, hpc, rfl⟩ := Option.map_eq_some_iff.mp h
    obtain ⟨pc₀, hc, hwake⟩ := Option.bind_eq_some_iff.mp hpc
    cases pc₀ <;> cases hwake
    exact .wakeWaiter c _ hc
  | opened =>
    rw [step, Option.ite_none_right_eq_some] at h
    obtain ⟨⟨hphase, hall⟩, h⟩ := h
    cases h
    exact .opened hphase hall
  | push job =>
    rw [step, Option.ite_none_right_eq_some] at h
    obtain ⟨⟨hphase, hlock⟩, h⟩ := h
    cases h
    exact .push job hphase hlock
  | post wake =>
    rw [step, Option.ite_none_right_eq_some] at h
    obtain ⟨hpushing, h⟩ := h
    obtain ⟨threads, hsignal, rfl⟩ := Option.map_eq_some_iff.mp h
    exact .push_post threads hpushing (signal_signalled hsignal)
  | destroy =>
    rw [step, Option.ite_none_right_eq_some] at h
    obtain ⟨hphase, h⟩ := h
    cases h
    exact .destroy hphase
  | postAll =>
    rw [step, Option.ite_none_right_eq_some] at h
    obtain ⟨⟨hphase, halive⟩, h⟩ := h
    cases h
    exact .postAll hphase halive
  | cleanup =>
    rw [step, Option.ite_none_right_eq_some] at h
    obtain ⟨⟨hphase, halive, hlock⟩, h⟩ := h
    cases h
    exact .cleanup hphase halive hlock

/-! ## Where threads are -/

/-- Counted in `num_threads_working`. -/
def counted : ThreadPc α → Bool
  | .pull | .post _ | .run _ | .finish => true
  | _ => false

/-- Counted in `num_threads_alive`. -/
def alive : ThreadPc α → Bool
  | .start | .gone => false
  | _ => true

def starting : ThreadPc α → Bool
  | .start => true
  | _ => false

def leaving : ThreadPc α → Bool
  | .leave | .gone => true
  | _ => false

def posting : ThreadPc α → Bool
  | .post _ => true
  | _ => false

/-- Between the semaphore and the queue. -/
def holdsToken : ThreadPc α → Bool
  | .taken | .count | .pull => true
  | _ => false

def sleeping : ThreadPc α → Bool
  | .asleep => true
  | _ => false

def looking : ThreadPc α → Bool
  | .wait => true
  | _ => false

def jobOf : ThreadPc α → Option α
  | .post job => some job
  | .run job => job
  | _ => none

def testing : WaitPc → Bool
  | .test .. => true
  | _ => false

/-- Asleep in `thpool_wait`, or about to. -/
def resting : WaitPc → Bool
  | .test _ idle => !idle
  | .asleep _ => true
  | _ => false

end Thpool
end Yjc
