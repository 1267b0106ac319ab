import Yjc.Event.Write

/-! The machine of `Write.lean` with the queue as the sequence it stands for and without the fields that
decide nothing here. `Move` says what a step can do to it, `step_move` that `step` does no more. -/

namespace Yjc.Event

structure Core where
  stack : List Frame
  broken : Bool
  ready : Bool
  closed : Bool
  close : Bool
  error : ℕ
  trace : List Ev
  queue : List OffsetBuf
  bufsize : ℕ
  maxBufsize : ℕ
  fd : List (ℕ × List UInt8)
  submitted : List (List UInt8)
  rejected : Option ℕ
  nextBase : ℕ
  freed : List ℕ
  timers : TimerKind → Option ℕ
  active : List Timer
  nextTimer : ℕ
  connects : ℕ

def Cfg.core (c : Cfg) : Core where
  stack := c.stack
  broken := c.broken
  ready := c.io.ready
  closed := c.io.closed
  close := c.io.close
  error := c.io.error
  trace := c.io.trace
  queue := c.io.writeQueue.toList
  bufsize := c.io.writeBufsize
  maxBufsize := c.io.maxWriteBufsize
  fd := c.io.fd
  submitted := c.io.submitted
  rejected := c.io.rejected
  nextBase := c.io.nextBase
  freed := c.io.freed
  timers := c.io.timers
  active := c.io.active
  nextTimer := c.io.nextTimer
  connects := c.io.connects

namespace Core

def appTurn (k : Core) : Bool :=
  match k.stack with
  | [] => true
  | f :: _ => f.isCb

def log (k : Core) (e : Ev) : Core := { k with trace := k.trace ++ [e] }

def fail (k : Core) (err : ℕ) : Core := { k with error := err }.log (.failed err)

def readied (k : Core) : Core :=
  { k with
    ready := true
    closed := false
    close := false
    error := 0
    bufsize := 0
    maxBufsize := maxWriteBufsizeDefault
    fd := []
    submitted := []
    rejected := none
    timers := fun _ => none
    connects := 0 }.log .ready

def arm (k : Core) (kind : TimerKind) (timeout : ℕ) : Core :=
  { k with
    timers := Function.update k.timers kind (some k.nextTimer)
    active := k.active ++ [⟨k.nextTimer, kind, timeout⟩]
    nextTimer := k.nextTimer + 1 }

def del (k : Core) (kind : TimerKind) : Core :=
  { k with
    active := k.active.filter fun t => k.timers kind ≠ some t.id
    timers := Function.update k.timers kind none }

def reset (k : Core) (id timeout : ℕ) : Core :=
  { k with active := k.active.map fun t => if t.id = id then { t with timeout := timeout } else t }

def expire (k : Core) (id : ℕ) : Core := { k with active := k.active.filter (·.id ≠ id) }

def done (k : Core) : Core :=
  { k with
    ready := false
    freed := if k.ready then k.freed ++ k.queue.map (·.base) else k.freed
    queue := if k.ready then [] else k.queue }

def delAll (k : Core) : Core :=
  (((((k.del .connect).del .close).del .read).del .write).del .keepalive).del .heartbeat

/-- The direct write of `evio_write` took `n` bytes. -/
def sent (k : Core) (buf : List UInt8) (n : ℕ) : Core :=
  { k with
    submitted := k.submitted ++ [buf]
    fd := if n = 0 then k.fd else k.fd ++ [(k.submitted.length, buf.take n)] }

end Core

/-- The direct write takes `n` bytes; there is none where bytes are queued. -/
def Takes (k : Core) (buf : List UInt8) (res : WriteResult) (n : ℕ) : Prop :=
  k.queue ≠ [] ∧ n = 0 ∨ k.queue = [] ∧ (res = .again ∧ n = 0 ∨ res = .wrote n ∧ 0 < n ∧ n ≤ buf.length)

inductive Written (k : Core) (buf : List UInt8) (res : WriteResult) : Core → ℤ → Prop
  | closed : k.closed = true → Written k buf res { k with submitted := k.submitted ++ [buf] } (-1)
  | failed {err : ℕ} : k.closed = false → k.queue = [] → res = .error err → err ≠ 0 →
      Written k buf res ({ k with submitted := k.submitted ++ [buf] }.fail err) (-1)
  | hungUp : k.closed = false → k.queue = [] → res = .wrote 0 →
      Written k buf res { k with submitted := k.submitted ++ [buf] } (-1)
  | rejected {n : ℕ} : k.closed = false → Takes k buf res n → n < buf.length →
      k.maxBufsize < k.bufsize + buf.length - n →
      Written k buf res { k.sent buf n with rejected := k.rejected.or (some k.submitted.length) } (-1)
  | queued {n : ℕ} : k.closed = false → Takes k buf res n → n < buf.length →
      k.bufsize + buf.length - n ≤ k.maxBufsize →
      Written k buf res
        { k.sent buf n with
          queue := k.queue ++ [⟨k.nextBase, k.submitted.length, buf.drop n, 0⟩]
          bufsize := k.bufsize + (buf.length - n)
          nextBase := k.nextBase + 1 } n
  | whole : k.closed = false → Takes k buf res buf.length →
      Written k buf res (k.sent buf buf.length) buf.length

/-- `evio_close` with the mutex. -/
inductive Locked (k : Core) (closer : Closer) : Core → Prop
  | closed : k.closed = true → Locked k closer k
  | putOff : k.closed = false → k.queue ≠ [] → k.error = 0 → k.close = false →
      Locked k closer ({ k with close := true, stack := .arm :: k.stack }.log (.closeCall closer true 0))
  | taken {queued : Bool} : k.closed = false → (queued = true ↔ k.queue ≠ []) →
      ¬(k.queue ≠ [] ∧ k.error = 0 ∧ k.close = false) →
      Locked k closer
        (({ k with closed := true, stack := .finish :: k.stack }.log (.closeCall closer queued k.error)).log .closed)

inductive Turn (k : Core) : Act → List Frame → List Frame → Prop
  | event : Turn k .closeEvent [] [.closing .event]
  | hangup : k.ready = true → Turn k (.hangup none) [] [.closing .hangup]
  | writable : Turn k .writable [] [.events]
  | heartbeat {id : ℕ} {left : Option ℕ} : Turn k (.fire id left) [] [.heartbeatCb]
  | write (s : List Frame) : Turn k .proceed (.events :: s) (.write :: s)
  | again (s : List Frame) : k.queue ≠ [] → Turn k (.nioWrite .again) (.write :: s) s
  | disconnect (s : List Frame) : k.queue ≠ [] → Turn k (.nioWrite (.wrote 0)) (.write :: s) (.closing .hangup :: s)
  | drained (s : List Frame) : k.close = false → Turn k .proceed (.drained :: s) s
  | closeCb (s : List Frame) : Turn k .cbReturn (.closeCb :: s) s
  | connectCb (s : List Frame) : Turn k .cbReturn (.connectCb :: s) s
  | heartbeatCb (s : List Frame) : Turn k .cbReturn (.heartbeatCb :: s) s
  | partialWrite (base : ℕ) (s : List Frame) : Turn k .cbReturn (.writeCb base false :: s) s

/-- Where `nio_read`, `nio_connect` and `nio_write` end with `err`, and what is below then. -/
inductive Ends (err : Option ℕ) : Act → List Frame → List Frame → Prop
  | read : Ends err (.hangup err) [] []
  | connect : Ends err (.connectEvent err) [] []
  | events (s : List Frame) : Ends err (.nioConnect err) (.events :: s) s
  | write {e : ℕ} (s : List Frame) : err = some e → Ends err (.nioWrite (.error e)) (.write :: s) s

inductive Move (k : Core) : Act → Core → Prop
  | stay {a : Act} : Move k a k
  | limit {size : ℕ} : Move k (.setMaxWriteBufsize size) { k with maxBufsize := size }
  | turn {a : Act} {stack : List Frame} : Turn k a k.stack stack → Move k a { k with stack := stack }
  | write {thread : Thread} {buf : List UInt8} {res : WriteResult} {k' : Core} {ret : ℤ} :
      (thread = .loop → k.appTurn = true) → (thread = .other → ∀ f ∈ k.stack, f.holds = false) →
      Written k buf res k' ret → Move k (.write thread buf res) k'
  | close {k' : Core} : k.appTurn = true → Locked k .app k' → Move k .close k'
  | ready {newId : ℕ} : k.appTurn = true → k.ready = false → Move k (.get newId) k.readied
  | connectFail {newId err : ℕ} : k.appTurn = true → err ≠ 0 →
      Move k (.connect newId (.error err)) ({ k with connects := k.connects + 1 }.fail err)
  | connectOk {newId : ℕ} : k.appTurn = true → Move k (.connect newId .ok) { k with connects := k.connects + 1 }
  | connectWait {newId timeout : ℕ} {k' : Core} : k.appTurn = true →
      k' = { k with connects := k.connects + 1 }.arm .connect timeout →
      Move k (.connect newId .inProgress) (if k.ready then k' else k'.readied)
  | delTimeout {kind : TimerKind} : k.appTurn = true → Move k (.setTimeout kind 0) (k.del kind)
  | resetTimeout {kind : TimerKind} {ms id : ℕ} : k.appTurn = true → k.timers kind = some id →
      Move k (.setTimeout kind ms) (k.reset id ms)
  | armTimeout {kind : TimerKind} {ms : ℕ} : k.appTurn = true → k.timers kind = none → kind ≠ .connect → kind ≠ .close →
      Move k (.setTimeout kind ms) (k.arm kind ms)
  | fail {a : Act} {err : ℕ} {stack : List Frame} : err ≠ 0 → Ends (some err) a k.stack stack →
      Move k a ({ k with stack := .closing .fault :: stack }.fail err)
  | connected {a : Act} {stack : List Frame} : Ends none a k.stack stack →
      Move k a ({ k with stack := .connectCb :: stack }.del .connect)
  | expire {t : Timer} {left : Option ℕ} : k.stack = [] → t ∈ k.active →
      Move k (.fire t.id left) ({ k with stack := [.closing .timeout, .timerCb t.id] }.fail etimedout)
  | rearm {t : Timer} {id ms : ℕ} : k.stack = [] → t ∈ k.active → k.timers t.kind = some id →
      Move k (.fire t.id (some ms)) (if id = t.id then k.reset id ms else (k.reset id ms).expire t.id)
  | drain {res : WriteResult} {s : List Frame} : k.stack = .write :: s → k.queue = [] →
      Move k (.nioWrite res) ({ k with stack := .drained :: s }.log .drained)
  | send {n : ℕ} {b : OffsetBuf} {q : List OffsetBuf} {s : List Frame} : k.stack = .write :: s → k.queue = b :: q →
      n ≤ b.unsent.length → n ≠ 0 →
      Move k (.nioWrite (.wrote n))
        { k with
          fd := k.fd ++ [(b.call, b.unsent.take n)]
          queue := { b with offset := b.offset + n } :: q
          bufsize := k.bufsize - n
          stack := .writeCb b.base (n = b.unsent.length) :: s }
  | pop {base : ℕ} {b : OffsetBuf} {q : List OffsetBuf} {s : List Frame} : k.stack = .writeCb base true :: s →
      k.queue = b :: q → base ∉ k.freed →
      Move k .cbReturn
        { k with
          freed := k.freed ++ [base]
          queue := q
          stack := if k.closed then s else .write :: s }
  | crash {base : ℕ} {s : List Frame} : k.stack = .writeCb base true :: s → k.queue = [] ∨ base ∈ k.freed →
      Move k .cbReturn { k with freed := k.freed ++ [base], broken := true }
  | unclose {s : List Frame} : k.stack = .drained :: s → k.close = true →
      Move k .proceed { k with close := false, stack := .closing .drain :: s }
  | locked {closer : Closer} {s : List Frame} {k' : Core} : k.stack = .closing closer :: s →
      Locked { k with stack := s } closer k' → Move k .proceed k'
  | arm {timeout : ℕ} {s : List Frame} : k.stack = .arm :: s →
      Move k .proceed ({ k with stack := s }.arm .close timeout)
  | finish {s : List Frame} : k.stack = .finish :: s →
      Move k .proceed ({ { k with stack := .closeCb :: s }.done.delAll with closed := true }.log .closeCb)
  | timerCb {id : ℕ} {s : List Frame} : k.stack = .timerCb id :: s →
      Move k .proceed ({ k with stack := s }.expire id)

/-! ## Simulation -/

section
variable (io : Evio) (stack : List Frame) (broken : Bool)

theorem core_delTimer (kind : TimerKind) :
    (Cfg.mk (delTimer kind io) stack broken).core = (Cfg.mk io stack broken).core.del kind := by
  have hk : (Cfg.mk io stack broken).core.timers kind = io.timers kind := rfl
  unfold delTimer Core.del
  rw [hk]
  cases h : io.timers kind with
  | none =>
    simp [Cfg.core, h]
  | some t =>
    simp only [ne_eq, Option.some.injEq, Cfg.core, eq_comm (a := t)]

theorem core_evioReady (newId : ℕ) :
    (Cfg.mk (evioReady newId io) stack broken).core =
      if io.ready then (Cfg.mk io stack broken).core else (Cfg.mk io stack broken).core.readied := by
  unfold evioReady
  split_ifs <;> rfl

theorem core_evioDone : (Cfg.mk (evioDone io) stack broken).core = (Cfg.mk io stack broken).core.done := by
  have h : (Cfg.mk io stack broken).core.ready = io.ready := rfl
  have hq : ∀ q : Queue OffsetBuf, q.cleanup.toList = [] := Queue.toList_cleanup
  unfold evioDone Core.done evioFreeReadbuf
  rw [h]
  dsimp only
  split_ifs with hr
  · simp only [Cfg.core, hq]
  · simp only [Cfg.core, hq]
  · simp only [Cfg.core, (Bool.not_eq_true _).mp hr]

theorem core_evioCloseFinish :
    (Cfg.mk (evioCloseFinish io) stack broken).core =
      { (Cfg.mk io stack broken).core.done.delAll with closed := true }.log .closeCb := by
  have h : ∀ io : Evio, (Cfg.mk (closeCb io) stack broken).core =
      { (Cfg.mk io stack broken).core.delAll with closed := true }.log .closeCb := by
    intro io
    simp only [Core.delAll, ← core_delTimer]
    rfl
  rw [evioCloseFinish, h, core_evioDone]

theorem core_closeLocked (closer : Closer) :
    Locked (Cfg.mk io stack broken).core closer ((Cfg.mk io stack broken).closeLocked closer).core := by
  have hempty : (!io.writeQueue.empty) = true ↔ io.writeQueue.toList ≠ [] := by
    rw [Ne, ← io.writeQueue.empty_iff, Bool.not_eq_true', Bool.not_eq_true]
  unfold Cfg.closeLocked evioCloseLocked
  dsimp only
  by_cases hc : io.closed = true
  · rw [if_pos hc]
    exact .closed hc
  rw [if_neg hc]
  have hc' : io.closed = false := by simpa using hc
  by_cases hp : io.putsOffClose = true
  · rw [if_pos hp]
    simp only [Evio.putsOffClose, Bool.and_eq_true, decide_eq_true_eq, Bool.not_eq_true'] at hp
    obtain ⟨⟨hq, herr⟩, hclose⟩ := hp
    have hlog : io.logClose closer = io.log (.closeCall closer true 0) := by rw [Evio.logClose, hq, herr]; rfl
    rw [hlog]
    exact .putOff hc' (hempty.mp (by rw [hq]; rfl)) herr hclose
  · rw [if_neg hp]
    refine .taken hc' hempty ?_
    rintro ⟨hq, herr, hclose⟩
    apply hp
    have hclose' : io.close = false := hclose
    simp only [Evio.putsOffClose, Bool.and_eq_true, decide_eq_true_eq, hclose']
    exact ⟨⟨hempty.mpr hq, herr⟩, rfl⟩

theorem core_evioEnqueue {buf : List UInt8} {res : WriteResult} {n : ℕ} {io₁ : Evio} (hopen : io.closed = false)
    (hk : (Cfg.mk io₁ stack broken).core = (Cfg.mk io stack broken).core.sent buf n)
    (hle : n ≤ buf.length) (ht : Takes (Cfg.mk io stack broken).core buf res n) {r : Evio × ℤ}
    (hr : evioEnqueue io.submitted.length buf n io₁ = r) :
    Written (Cfg.mk io stack broken).core buf res (Cfg.mk r.1 stack broken).core r.2 := by
  have hmax : io₁.maxWriteBufsize = io.maxWriteBufsize := congrArg Core.maxBufsize hk
  have hsize : io₁.writeBufsize = io.writeBufsize := congrArg Core.bufsize hk
  have hrej : io₁.rejected = io.rejected := congrArg Core.rejected hk
  have hbase : io₁.nextBase = io.nextBase := congrArg Core.nextBase hk
  have hqueue : io₁.writeQueue.toList = io.writeQueue.toList := congrArg Core.queue hk
  -- the queue is allocated where nothing is queued
  have hinit : (if io₁.writeQueue.maxsize = 0 then Queue.init 4 else io₁.writeQueue).toList = io.writeQueue.toList := by
    split_ifs with h0
    · have hnil : io₁.writeQueue.toList = [] := by
        have := io₁.writeQueue.bound
        exact List.length_eq_zero_iff.mp (by rw [Queue.length_toList]; omega)
      rw [Queue.toList_init, ← hqueue, hnil]
    · exact hqueue
  subst hr
  unfold evioEnqueue
  rw [hmax, hsize, hrej, hbase]
  by_cases hlt : n < buf.length
  · rw [if_pos hlt]
    by_cases hover : io.maxWriteBufsize < io.writeBufsize + buf.length - n
    · rw [if_pos hover]
      have := Written.rejected (k := (Cfg.mk io stack broken).core) hopen ht hlt hover
      rw [← hk] at this
      exact this
    · rw [if_neg hover]
      have := Written.queued (k := (Cfg.mk io stack broken).core) hopen ht hlt (Nat.le_of_not_lt hover)
      rw [← hk] at this
      simp only [Cfg.core, Queue.toList_pushed, hinit, hmax, hrej] at this ⊢
      exact this
  · obtain rfl : n = buf.length := by omega
    rw [if_neg hlt]
    have := Written.whole (k := (Cfg.mk io stack broken).core) hopen ht
    rw [← hk] at this
    exact this

theorem core_evioWrite {buf : List UInt8} {res : WriteResult} {r : Evio × ℤ} (h : evioWrite buf res io = some r) :
    Written (Cfg.mk io stack broken).core buf res (Cfg.mk r.1 stack broken).core r.2 := by
  have hempty := io.writeQueue.empty_iff
  unfold evioWrite at h
  dsimp only at h
  split_ifs at h with hc hq
  · cases h
    exact .closed hc
  · have hopen : io.closed = false := by simpa using hc
    have hnil := hempty.mp hq
    cases res with
    | error err =>
      simp only at h
      split_ifs at h with h0
      cases h
      exact .failed hopen hnil rfl h0
    | again =>
      cases h
      exact core_evioEnqueue io stack broken hopen rfl (Nat.zero_le _) (.inr ⟨hnil, .inl ⟨rfl, rfl⟩⟩) rfl
    | wrote n =>
      simp only at h
      split_ifs at h with hlt h0 hw
      · cases h
        exact .hungUp hopen hnil (by rw [h0])
      · cases h
        subst hw
        have : Written (Cfg.mk io stack broken).core buf (.wrote buf.length) _ _ :=
          .whole hopen (.inr ⟨hnil, .inr ⟨rfl, Nat.pos_of_ne_zero h0, Nat.le_refl _⟩⟩)
        simp only [Core.sent, if_neg h0, List.take_length] at this
        exact this
      · cases h
        refine core_evioEnqueue io stack broken hopen ?_ (Nat.le_of_not_lt hlt)
          (.inr ⟨hnil, .inr ⟨rfl, Nat.pos_of_ne_zero h0, Nat.le_of_not_lt hlt⟩⟩) rfl
        simp only [Core.sent, if_neg h0]
        rfl
  · have hopen : io.closed = false := by simpa using hc
    cases h
    exact core_evioEnqueue io stack broken hopen rfl (Nat.zero_le _) (.inl ⟨fun hn => hq (hempty.mpr hn), rfl⟩) rfl

theorem core_evioSetTimeout {kind : TimerKind} {ms : ℕ} (ht : (Cfg.mk io stack broken).core.appTurn = true) :
    Move (Cfg.mk io stack broken).core (.setTimeout kind ms) (Cfg.mk (evioSetTimeout kind ms io) stack broken).core := by
  have hdel : Move (Cfg.mk io stack broken).core (.setTimeout kind 0) (Cfg.mk (delTimer kind io) stack broken).core := by
    rw [core_delTimer]
    exact .delTimeout ht
  unfold evioSetTimeout
  split
  · exact .stay
  · exact .stay
  all_goals
    split_ifs with h0
    · subst h0
      exact hdel
    · split
      · rename_i hk
        exact .resetTimeout ht hk
      · rename_i hk
        exact .armTimeout ht hk (by simp) (by simp)

theorem core_evioConnect {newId : ℕ} {res : ConnectResult} {io' : Evio}
    (ht : (Cfg.mk io stack broken).core.appTurn = true) (h : evioConnect newId res io = some io') :
    Move (Cfg.mk io stack broken).core (.connect newId res) (Cfg.mk io' stack broken).core := by
  cases res with
  | ok =>
    cases h
    exact .connectOk ht
  | error err =>
    simp only [evioConnect] at h
    split_ifs at h with h0
    cases h
    exact .connectFail ht h0
  | inProgress =>
    obtain rfl := Option.some.inj h
    let io₁ : Evio := { io with connects := io.connects + 1 }
    let timeout := if io.timeouts .connect = 0 then eioDefaultConnectTimeout else io.timeouts .connect
    change Move _ _ (Cfg.mk (evioReady newId { armTimer .connect timeout io₁ with connect := true }) stack broken).core
    rw [core_evioReady]
    exact .connectWait ht rfl

end

section
variable {c c' : Cfg} {a : Act} {io : Evio} {stack : List Frame}

theorem Move.turnOf {s s' : List Frame} (hs : c.stack = s) (ht : Turn c.core a s s') :
    Move c.core a { c.core with stack := s' } := by
  subst hs
  exact .turn ht

theorem Move.failClose (closer : Closer) {err : Option ℕ} (h : (Cfg.mk io stack c.broken).failClose closer err = some c')
    (hio : (Cfg.mk io c.stack c.broken).core = c.core) (he : Ends err a c.stack stack)
    (ht : err = none → Turn c.core a c.stack (.closing closer :: stack)) : Move c.core a c'.core := by
  cases err with
  | none =>
    cases h
    have := Move.turn (k := c.core) (a := a) (ht rfl)
    rw [← hio] at this ⊢
    exact this
  | some err =>
    simp only [Cfg.failClose] at h
    split_ifs at h with h0
    cases h
    have := Move.fail (k := c.core) (a := a) h0 he
    rw [← hio] at this ⊢
    exact this

theorem Move.nioConnect {err : Option ℕ} (h : (Cfg.mk io stack c.broken).nioConnect err = some c')
    (hio : (Cfg.mk io c.stack c.broken).core = c.core) (he : Ends err a c.stack stack) : Move c.core a c'.core := by
  cases err with
  | none =>
    cases h
    have := Move.connected (k := c.core) (a := a) he
    rw [← hio] at this ⊢
    simp only [core_delTimer]
    exact this
  | some err =>
    have h' : (Cfg.mk io stack c.broken).failClose .fault (some err) = some c' := h
    exact .failClose .fault h' hio he fun h0 => absurd h0 (Option.some_ne_none _)

theorem Move.fire {t : Timer} {left : Option ℕ} (hs : c.stack = []) (ht : t ∈ c.io.active)
    (h : c.fire t left = some c') : Move c.core (.fire t.id left) c'.core := by
  obtain ⟨io, stack, broken⟩ := c
  cases hs
  have hrearm : ∀ {ms : ℕ}, ((io.timers t.kind).map fun id =>
      let io' := resetTimer id ms io
      Cfg.mk (if id = t.id then io' else { io' with active := io'.active.filter (·.id ≠ t.id) }) [] broken) = some c' →
      Move (Cfg.mk io [] broken).core (.fire t.id (some ms)) c'.core := by
    intro ms hm
    obtain ⟨id, hid, rfl⟩ := Option.map_eq_some_iff.mp hm
    have : Move (Cfg.mk io [] broken).core (.fire t.id (some ms))
        (if id = t.id then (Cfg.mk io [] broken).core.reset id ms
          else ((Cfg.mk io [] broken).core.reset id ms).expire t.id) := .rearm rfl ht hid
    dsimp only
    split_ifs at this ⊢
    · exact this
    · exact this
  unfold Cfg.fire at h
  split at h
  · cases h
    exact .turn .heartbeat
  · exact hrearm h
  · exact hrearm h
  · exact hrearm h
  · cases h
    exact .expire rfl ht

theorem Move.nioWrite {s : List Frame} {res : WriteResult} (hs : c.stack = .write :: s)
    (h : c.nioWrite s res = some c') : Move c.core (.nioWrite res) c'.core := by
  unfold Cfg.nioWrite at h
  rw [Queue.front_eq] at h
  cases hq : c.io.writeQueue.toList with
  | nil =>
    rw [hq] at h
    cases h
    exact .drain hs hq
  | cons b q =>
    have hne : c.core.queue ≠ [] := by
      change c.io.writeQueue.toList ≠ []
      rw [hq]
      exact List.cons_ne_nil b q
    rw [hq] at h
    cases res with
    | again =>
      cases h
      exact .turnOf hs (.again s hne)
    | error err =>
      exact .failClose .fault h rfl (by rw [hs]; exact .write s rfl) fun h0 => absurd h0 (Option.some_ne_none _)
    | wrote n =>
      simp only [List.head?_cons] at h
      split_ifs at h with hle h0
      · subst h0
        cases h
        exact .turnOf hs (.disconnect s hne)
      · cases h
        have := Move.send (k := c.core) hs hq (Nat.le_of_not_lt hle) h0
        have hm : (c.io.writeQueue.modifyFront fun b => { b with offset := b.offset + n }).toList =
            { b with offset := b.offset + n } :: q := by
          rw [Queue.toList_modifyFront, hq]
          rfl
        simp only [Cfg.core, Evio.send, hm] at this ⊢
        exact this

theorem Move.writeCbReturn {s : List Frame} {base : ℕ} (hs : c.stack = .writeCb base true :: s) :
    Move c.core .cbReturn (c.writeCbReturn s base true).core := by
  unfold Cfg.writeCbReturn
  rw [if_pos rfl]
  dsimp only
  split
  next queue hp =>
    obtain ⟨b, hq⟩ := Queue.popFront_cons hp
    by_cases hmem : base ∈ c.io.freed
    · rw [if_pos hmem]
      exact .crash hs (.inr hmem)
    · rw [if_neg hmem]
      exact .pop (k := c.core) hs hq hmem
  next hp => exact .crash hs (.inl (Queue.popFront_none hp))

theorem Move.cbReturn (h : c.cbReturn = some c') : Move c.core .cbReturn c'.core := by
  unfold Cfg.cbReturn at h
  split at h
  next base full s hs =>
    cases h
    cases full with
    | true => exact .writeCbReturn hs
    | false => exact .turnOf hs (.partialWrite base s)
  next s hs =>
    cases h
    exact .turnOf hs (.closeCb s)
  next s hs =>
    cases h
    exact .turnOf hs (.connectCb s)
  next s hs =>
    cases h
    exact .turnOf hs (.heartbeatCb s)
  · cases h

theorem Move.proceed (h : c.proceed = some c') : Move c.core .proceed c'.core := by
  unfold Cfg.proceed at h
  split at h
  next s hs =>
    split_ifs at h
    cases h
    exact .turnOf hs (.write s)
  next s hs =>
    split_ifs at h with hc
    · cases h
      exact .unclose (k := c.core) hs hc
    · cases h
      exact .turnOf hs (.drained s ((Bool.not_eq_true _).mp hc))
  next closer s hs =>
    cases h
    exact .locked (k := c.core) hs (core_closeLocked c.io s c.broken closer)
  next s hs =>
    cases h
    exact .arm (k := c.core) hs
  next s hs =>
    cases h
    rw [core_evioCloseFinish]
    exact .finish (k := c.core) hs
  next id s hs =>
    cases h
    exact .timerCb (k := c.core) hs
  · cases h

end

theorem step_move {c c' : Cfg} {a : Act} (h : step c a = some c') : c.broken = false ∧ Move c.core a c'.core := by
  unfold step at h
  by_cases hb : c.broken = true
  · rw [if_pos hb] at h
    cases h
  rw [if_neg hb] at h
  refine ⟨by simpa using hb, ?_⟩
  cases a with
  | write thread buf res =>
    simp only at h
    split_ifs at h with hm
    obtain ⟨r, hw, rfl⟩ := Option.map_eq_some_iff.mp h
    refine .write (fun ht => ?_) (fun ht => ?_) (core_evioWrite c.io c.stack c.broken hw)
    · subst ht
      exact hm
    · subst ht
      have hfree : ∀ f ∈ c.stack, f.holds = false := by simpa [Cfg.mayWrite] using hm
      exact hfree
  | close =>
    simp only at h
    split_ifs at h with hm
    cases h
    exact .close hm (core_closeLocked c.io c.stack c.broken .app)
  | closeAsync =>
    cases h
    exact .stay
  | get newId =>
    simp only at h
    split_ifs at h with hm
    cases h
    rw [core_evioReady]
    split_ifs with hr
    · exact .stay
    · exact .ready hm ((Bool.not_eq_true _).mp hr)
  | connect newId res =>
    simp only at h
    split_ifs at h with hm
    obtain ⟨io, hio, rfl⟩ := Option.map_eq_some_iff.mp h
    exact core_evioConnect c.io c.stack c.broken hm hio
  | setTimeout k ms =>
    simp only at h
    split_ifs at h with hm
    cases h
    exact core_evioSetTimeout c.io c.stack c.broken hm
  | setMaxWriteBufsize size =>
    cases h
    exact .limit
  | closeEvent =>
    simp only at h
    split at h
    next hs hp =>
      cases h
      split_ifs
      · exact .turnOf hs .event
      · exact .stay
    · cases h
  | connectEvent err =>
    simp only at h
    split at h
    next hs hp =>
      split_ifs at h
      · exact .nioConnect h rfl (by rw [hs]; exact .connect)
      · cases h
        exact .stay
    · cases h
  | fire id left =>
    simp only at h
    split at h
    next t hs ht =>
      obtain rfl : t.id = id := by simpa using List.find?_some ht
      exact .fire hs (List.mem_of_find?_eq_some ht) h
    · cases h
  | hangup err =>
    simp only at h
    split_ifs at h with hm
    refine .failClose .hangup h rfl (by rw [hm.1]; exact .read) fun h0 => ?_
    rw [hm.1, h0]
    exact .hangup hm.2
  | writable =>
    simp only at h
    split_ifs at h with hm he <;> cases h <;>
      exact .turnOf hm.1 .writable
  | nioConnect err =>
    simp only at h
    split at h
    next s hs =>
      split_ifs at h
      exact .nioConnect h rfl (by rw [hs]; exact .events s)
    · cases h
  | nioWrite res =>
    simp only at h
    split at h
    next s hs => exact .nioWrite hs h
    · cases h
  | cbReturn => exact .cbReturn h
  | proceed => exact .proceed h

end Yjc.Event
