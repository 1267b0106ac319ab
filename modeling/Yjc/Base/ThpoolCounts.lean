import Yjc.Base.Thpool

/-! What the counters, the locks and the semaphore of `base/thpool.c` say of the threads, in every interleaving. -/

namespace Yjc
open CondVar

namespace Thpool
variable {α : Type*} {s s₁ s' : Thpool α} {t n n' k k' : ℕ} {x y : ThreadPc α}

structure Counts (s : Thpool α) : Prop where
  working : s.numThreadsWorking = s.threads.countP counted
  alive : s.numThreadsAlive = s.threads.countP alive
  rwmutex : s.rwmutex.toNat = s.threads.countP posting + s.pushing.toNat
  started : s.phase ≠ .init → s.threads.countP starting = 0
  keepalive : s.keepalive = true ↔ s.phase = .init ∨ s.phase = .opened
  live : s.keepalive = true → s.threads.countP leaving = 0
  gone : s.phase = .destroyed → s.threads.countP Thpool.alive = 0
  /-- A job in the queue is known to the semaphore, to who is about to post it, or to a thread on its way to the queue. -/
  token : s.keepalive = true → s.queue ≠ [] → s.v = true ∨ s.rwmutex = true ∨ 0 < s.threads.countP holdsToken
  /-- Who posts the semaphore leaves nobody asleep, or somebody about to look at it. -/
  awake : s.v = true → s.threads.countP sleeping = 0 ∨ 0 < s.threads.countP looking

/-! ## One thread -/

/-- What no step of a thread touches. -/
structure Frame (s s₁ : Thpool α) : Prop where
  threads : s₁.threads = s.threads
  phase : s₁.phase = s.phase
  keepalive : s₁.keepalive = s.keepalive
  pushing : s₁.pushing = s.pushing
  pushed : s₁.pushed = s.pushed
  freed : s₁.freed = s.freed

theorem ThreadMove.frame (h : ThreadMove s x s₁ y) : Frame s s₁ := by cases h <;> exact ⟨rfl, rfl, rfl, rfl, rfl, rfl⟩

theorem ThreadMove.working (h : ThreadMove s x s₁ y) (hpos : counted x = true → 0 < s.numThreadsWorking) :
    s₁.numThreadsWorking + (counted x).toNat = s.numThreadsWorking + (counted y).toNat := by
  cases h with
  | finish_last => exact Nat.sub_add_cancel (hpos rfl)
  | finish => exact Nat.sub_add_cancel (hpos rfl)
  | _ => rfl

theorem ThreadMove.alive (h : ThreadMove s x s₁ y) (hpos : Thpool.alive x = true → 0 < s.numThreadsAlive) :
    s₁.numThreadsAlive + (Thpool.alive x).toNat = s.numThreadsAlive + (Thpool.alive y).toNat := by
  cases h with
  | leave => exact Nat.sub_add_cancel (hpos rfl)
  | _ => rfl

theorem ThreadMove.rwmutex (h : ThreadMove s x s₁ y) :
    s₁.rwmutex.toNat + (posting x).toNat = s.rwmutex.toNat + (posting y).toNat := by
  cases h with
  | pull_more job next rest hlock =>
    rw [hlock]
    rfl
  | _ => rfl

theorem ThreadMove.not_starting (h : ThreadMove s x s₁ y) : starting y = false := by cases h <;> rfl

theorem ThreadMove.not_leaving (h : ThreadMove s x s₁ y) (hkeep : s.keepalive = true) (hx : leaving x = false) :
    leaving y = false := by
  cases h with
  | loop_quit hquit =>
    rw [hkeep] at hquit
    cases hquit
  | leave => cases hx
  | _ => rfl

theorem ThreadMove.from_there (h : ThreadMove s x s₁ y) : Thpool.alive x = true ∨ starting x = true := by
  cases h with
  | start => exact .inr rfl
  | _ => exact .inl rfl

theorem ThreadMove.token (h : ThreadMove s x s₁ y) (hn : n' + (holdsToken x).toNat = n + (holdsToken y).toNat)
    (hinv : s.keepalive = true → s.queue ≠ [] → s.v = true ∨ s.rwmutex = true ∨ 0 < n) (hkeep : s₁.keepalive = true)
    (hqueue : s₁.queue ≠ []) : s₁.v = true ∨ s₁.rwmutex = true ∨ 0 < n' := by
  cases h with
  | wait hv => exact .inr (.inr (by simp only [holdsToken, Bool.toNat_true, Bool.toNat_false] at hn; omega))
  | taken_quit hquit =>
    rw [hkeep] at hquit
    cases hquit
  | pull_none hlock hempty => exact absurd hempty hqueue
  | pull_last => exact absurd rfl hqueue
  | pull_more => exact .inr (.inl rfl)
  | _ =>
    rw [show n' = n from Nat.add_right_cancel hn]
    exact hinv hkeep hqueue

theorem ThreadMove.awake (h : ThreadMove s x s₁ y) (hn : n' + (sleeping x).toNat = n + (sleeping y).toNat)
    (hk : k' + (looking x).toNat = k + (looking y).toNat) (hinv : s.v = true → n = 0 ∨ 0 < k) (hv : s₁.v = true) :
    n' = 0 ∨ 0 < k' := by
  cases h with
  | loop => exact .inr (by rw [show k' = k + 1 from hk]; omega)
  | wait => cases hv
  | wait_sleep hdown =>
    rw [hv] at hdown
    cases hdown
  | _ =>
    rw [show n' = n from Nat.add_right_cancel hn, show k' = k from Nat.add_right_cancel hk]
    exact hinv hv

theorem Counts.not_destroyed (h : Counts s) (ht : s.threads[t]? = some x) (hmove : ThreadMove s x s₁ y) : s.phase ≠ .destroyed := by
  intro hdestroyed
  rcases hmove.from_there with hx | hx
  · exact absurd (h.gone hdestroyed) (Nat.ne_of_gt (countP_pos ht hx))
  · exact absurd (h.started (by rw [hdestroyed]; decide)) (Nat.ne_of_gt (countP_pos ht hx))

theorem counts_thread (h : Counts s) (ht : s.threads[t]? = some x) (hmove : ThreadMove s x s₁ y) : Counts (s₁.goto t y) := by
  obtain ⟨hthreads, hphase, hkeepalive, hpushing, -, -⟩ := hmove.frame
  have hset : ∀ p, (s₁.threads.set t y).countP p + (p x).toNat = s.threads.countP p + (p y).toNat := fun p => by
    rw [hthreads]
    exact countP_set ht y p
  have hpos : ∀ p : ThreadPc α → Bool, p x = true → 0 < s.threads.countP p := fun p => countP_pos ht
  refine ⟨?_, ?_, ?_, fun hinit => ?_, ?_, fun hkeep => ?_, fun hdestroyed => ?_, fun hkeep hqueue => ?_, fun hv => ?_⟩
  · have := hmove.working fun hx => h.working ▸ hpos _ hx
    have := hset counted
    have := h.working
    show s₁.numThreadsWorking = (s₁.threads.set t y).countP counted
    omega
  · have := hmove.alive fun hx => h.alive ▸ hpos _ hx
    have := hset Thpool.alive
    have := h.alive
    show s₁.numThreadsAlive = (s₁.threads.set t y).countP Thpool.alive
    omega
  · have := hmove.rwmutex
    have := hset posting
    have := h.rwmutex
    show s₁.rwmutex.toNat = (s₁.threads.set t y).countP posting + s₁.pushing.toNat
    rw [hpushing]
    omega
  · have := hset starting
    have hzero := h.started (hphase ▸ hinit)
    rw [hmove.not_starting, hzero] at this
    exact Nat.eq_zero_of_add_eq_zero_right this
  · show s₁.keepalive = true ↔ s₁.phase = .init ∨ s₁.phase = .opened
    rw [hkeepalive, hphase]
    exact h.keepalive
  · have hkeep : s.keepalive = true := hkeepalive ▸ hkeep
    have hzero := h.live hkeep
    have hx : leaving x = false := Bool.eq_false_iff.mpr fun hx => Nat.ne_of_gt (hpos _ hx) hzero
    have := hset leaving
    rw [hmove.not_leaving hkeep hx, hzero] at this
    exact Nat.eq_zero_of_add_eq_zero_right this
  · exact absurd (hphase ▸ hdestroyed) (h.not_destroyed ht hmove)
  · exact hmove.token (hset holdsToken) h.token hkeep hqueue
  · exact hmove.awake (hset sleeping) (hset looking) h.awake hv

/-! ## Signals -/

theorem wakeThread_eq {x y : ThreadPc α} (h : wakeThread x = some y) : x = .asleep ∧ y = .wait := by
  cases x <;> cases h
  exact ⟨rfl, rfl⟩

theorem wakeWaiter_eq {x y : WaitPc} (h : wakeWaiter x = some y) : ∃ seen, x = .asleep seen ∧ y = .enter seen := by
  cases x <;> cases h
  exact ⟨_, rfl, rfl⟩

structure Same (l l' : List (ThreadPc α)) : Prop where
  counted : l'.countP counted = l.countP counted
  alive : l'.countP alive = l.countP alive
  starting : l'.countP starting = l.countP starting
  leaving : l'.countP leaving = l.countP leaving

structure Woken (l l' : List (ThreadPc α)) : Prop extends Same l l' where
  length : l'.length = l.length
  posting : l'.countP posting = l.countP posting
  token : l'.countP holdsToken = l.countP holdsToken
  jobs : (l'.filterMap jobOf).Perm (l.filterMap jobOf)

theorem woken_of_signalled {l l' : List (ThreadPc α)} (h : Signalled wakeThread l l') : Woken l l' := by
  have hcount : ∀ p : ThreadPc α → Bool, p .wait = p .asleep → l'.countP p = l.countP p := fun p hp => h.countP_eq fun x y hxy => by
    obtain ⟨rfl, rfl⟩ := wakeThread_eq hxy
    exact hp
  refine ⟨⟨hcount _ rfl, hcount _ rfl, hcount _ rfl, hcount _ rfl⟩, h.length, hcount _ rfl, hcount _ rfl, h.filterMap_perm fun x y hxy => ?_⟩
  obtain ⟨rfl, rfl⟩ := wakeThread_eq hxy
  rfl

theorem woken_broadcast (l : List (ThreadPc α)) : Woken l (broadcast wakeThread l) := by
  have hcount : ∀ p : ThreadPc α → Bool, p .wait = p .asleep → (broadcast wakeThread l).countP p = l.countP p :=
    fun p hp => countP_broadcast fun x y hxy => by
      obtain ⟨rfl, rfl⟩ := wakeThread_eq hxy
      exact hp
  refine ⟨⟨hcount _ rfl, hcount _ rfl, hcount _ rfl, hcount _ rfl⟩, List.length_map _, hcount _ rfl, hcount _ rfl, List.Perm.of_eq ?_⟩
  refine filterMap_broadcast fun x y hxy => ?_
  obtain ⟨rfl, rfl⟩ := wakeThread_eq hxy
  rfl

theorem same_set {l : List (ThreadPc α)} (ht : l[t]? = some x) (hcounted : counted y = counted x) (halive : alive y = alive x)
    (hstarting : starting y = starting x) (hleaving : leaving y = leaving x) : Same l (l.set t y) := by
  have hcount : ∀ p : ThreadPc α → Bool, p y = p x → (l.set t y).countP p = l.countP p := fun p hp => by
    have := countP_set ht y p
    rw [hp] at this
    exact Nat.add_right_cancel this
  exact ⟨hcount _ hcounted, hcount _ halive, hcount _ hstarting, hcount _ hleaving⟩

theorem Same.trans {l l₁ l₂ : List (ThreadPc α)} (h : Same l l₁) (h' : Same l₁ l₂) : Same l l₂ :=
  ⟨h'.counted.trans h.counted, h'.alive.trans h.alive, h'.starting.trans h.starting, h'.leaving.trans h.leaving⟩

theorem awake_of_signalled {l l' : List (ThreadPc α)} (h : Signalled wakeThread l l') :
    l'.countP sleeping = 0 ∨ 0 < l'.countP looking := by
  -- after a post nobody sleeps, or somebody is about to look
  refine h.awake (fun x hx => ?_) fun x y hxy => ?_
  · cases x <;> cases hx
    rfl
  · rw [(wakeThread_eq hxy).2]
    rfl

theorem asleep_broadcast (l : List (ThreadPc α)) : (broadcast wakeThread l).countP sleeping = 0 := by
  refine countP_asleep_broadcast (fun x hx => ?_) fun x y hxy => ?_
  · cases x <;> cases hx
    rfl
  · rw [(wakeThread_eq hxy).2]
    rfl

theorem Counts.posted (h : Counts s) {threads : List (ThreadPc α)} (hsame : Same s.threads threads)
    (hawake : threads.countP sleeping = 0 ∨ 0 < threads.countP looking) {rwmutex pushing : Bool}
    (hrw : rwmutex.toNat = threads.countP posting + pushing.toNat) :
    Counts { s with v := true, rwmutex := rwmutex, pushing := pushing, threads := threads } :=
  ⟨h.working.trans hsame.counted.symm, h.alive.trans hsame.alive.symm, hrw, fun hinit => hsame.starting.trans (h.started hinit),
    h.keepalive, fun hkeep => hsame.leaving.trans (h.live hkeep), fun hdestroyed => hsame.alive.trans (h.gone hdestroyed),
    fun _ _ => .inl rfl, fun _ => hawake⟩

theorem Moves.counts (h : Counts s) (hmove : Moves s s') : Counts s' := by
  cases hmove with
  | thread t x y s₁ ht hthread => exact counts_thread h ht hthread
  | post t job threads ht hsignal =>
    have hwoken := woken_of_signalled hsignal
    -- the lock was this thread's, and nobody else's
    have hset : (s.threads.set t (.run (some job))).countP posting + 1 = s.threads.countP posting :=
      countP_set ht (.run (some job)) posting
    have hrw := h.rwmutex
    have hle := Bool.toNat_le s.rwmutex
    have hrun : Same s.threads (s.threads.set t (.run (some job))) := same_set ht rfl rfl rfl rfl
    refine h.posted (hrun.trans hwoken.toSame) (awake_of_signalled hsignal) ?_
    rw [hwoken.posting, Bool.toNat_false]
    omega
  | wakeThread t ht =>
    have hsame : Same s.threads (s.threads.set t .wait) := same_set ht rfl rfl rfl rfl
    have hposting := countP_set ht .wait posting
    have htoken := countP_set ht .wait holdsToken
    have hlooking : 0 < (s.threads.set t .wait).countP looking := by
      have := countP_set ht .wait looking
      have : (s.threads.set t .wait).countP looking + 0 = s.threads.countP looking + 1 := this
      omega
    refine ⟨h.working.trans hsame.counted.symm, h.alive.trans hsame.alive.symm, h.rwmutex.trans ?_,
      fun hinit => hsame.starting.trans (h.started hinit), h.keepalive, fun hkeep => hsame.leaving.trans (h.live hkeep),
      fun hdestroyed => hsame.alive.trans (h.gone hdestroyed), fun hkeep hqueue => ?_, fun _ => .inr hlooking⟩
    · exact congrArg (· + s.pushing.toNat) (Nat.add_right_cancel hposting).symm
    · have := h.token hkeep hqueue
      rwa [← show (s.threads.set t .wait).countP holdsToken = s.threads.countP holdsToken from Nat.add_right_cancel htoken] at this
  | waiter c x y s₁ hc hwait =>
    cases hwait <;> exact ⟨h.working, h.alive, h.rwmutex, h.started, h.keepalive, h.live, h.gone, h.token, h.awake⟩
  | wakeWaiter c seen hc => exact ⟨h.working, h.alive, h.rwmutex, h.started, h.keepalive, h.live, h.gone, h.token, h.awake⟩
  | opened hphase hall =>
    refine ⟨h.working, h.alive, h.rwmutex, fun _ => ?_, ?_, h.live, fun hdestroyed => (by cases hdestroyed), h.token, h.awake⟩
    · -- as many threads are alive as there are, so none is still to start
      have hle : s.threads.countP starting ≤ s.threads.countP fun pc => decide ¬Thpool.alive pc = true :=
        List.countP_mono_left fun pc _ hpc => by cases pc <;> first | rfl | cases hpc
      have hsum := List.length_eq_countP_add_countP (l := s.threads) Thpool.alive
      have halive := h.alive
      show s.threads.countP starting = 0
      omega
    · exact ⟨fun _ => .inr rfl, fun _ => h.keepalive.mpr (.inl hphase)⟩
  | push job hphase hlock =>
    refine ⟨h.working, h.alive, ?_, h.started, h.keepalive, h.live, h.gone, fun _ _ => .inr (.inl rfl), h.awake⟩
    have hrw := h.rwmutex
    rw [hlock] at hrw
    have hzero : s.threads.countP posting = 0 := Nat.eq_zero_of_add_eq_zero_right hrw.symm
    show true.toNat = s.threads.countP posting + true.toNat
    rw [hzero, Nat.zero_add]
  | push_post threads hpushing hsignal =>
    have hwoken := woken_of_signalled hsignal
    have hrw := h.rwmutex
    have hle := Bool.toNat_le s.rwmutex
    refine h.posted hwoken.toSame (awake_of_signalled hsignal) ?_
    rw [hpushing, Bool.toNat_true] at hrw
    rw [hwoken.posting, Bool.toNat_false]
    omega
  | destroy hphase =>
    refine ⟨h.working, h.alive, h.rwmutex, fun _ => h.started (by rw [hphase]; decide), ?_, fun hkeep => (by cases hkeep),
      fun hdestroyed => (by cases hdestroyed), fun hkeep => (by cases hkeep), h.awake⟩
    exact ⟨fun hkeep => (by cases hkeep), fun hphase => (by rcases hphase with hphase | hphase <;> cases hphase)⟩
  | postAll hphase halive =>
    have hwoken := woken_broadcast s.threads
    exact h.posted hwoken.toSame (.inl (asleep_broadcast _)) (by rw [hwoken.posting]; exact h.rwmutex)
  | cleanup hphase halive hlock =>
    have hkeep : s.keepalive = false := by
      refine Bool.eq_false_iff.mpr fun hkeep => ?_
      rcases h.keepalive.mp hkeep with hinit | hopen
      · rw [hphase] at hinit
        cases hinit
      · rw [hphase] at hopen
        cases hopen
    refine ⟨h.working, h.alive, h.rwmutex, fun _ => h.started (by rw [hphase]; decide), ?_, h.live,
      fun _ => h.alive.symm.trans halive, fun _ hqueue => absurd rfl hqueue, fun hv => (by cases hv)⟩
    show s.keepalive = true ↔ _
    rw [hkeep]
    exact ⟨fun hkeep => (by cases hkeep), fun hphase => (by rcases hphase with hphase | hphase <;> cases hphase)⟩

theorem counts_initial (n m : ℕ) : Counts (initial n m : Thpool α) := by
  have hcount : ∀ p : ThreadPc α → Bool, p .start = false → (List.replicate n (.start : ThreadPc α)).countP p = 0 := by
    intro p hp
    rw [List.countP_replicate, hp, if_neg Bool.false_ne_true]
  exact ⟨(hcount _ rfl).symm, (hcount _ rfl).symm, (congrArg (· + 0) (hcount _ rfl)).symm, fun hinit => absurd rfl hinit,
    ⟨fun _ => .inl rfl, fun _ => rfl⟩, fun _ => hcount _ rfl, fun hdestroyed => (by cases hdestroyed), fun _ hqueue => absurd rfl hqueue,
    fun hv => (by cases hv)⟩

end Thpool
end Yjc
