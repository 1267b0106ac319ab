import Yjc.Container.Heap
import Yjc.Lib.Run
import Mathlib.Logic.Function.Basic
import Mathlib.Data.Int.Order.Basic
import Mathlib.Algebra.Group.Nat.Defs

/-! Timers and idles of a loop: `evtimer_add` .. `evidle_del`, the processing that makes them pending and
`evloop_process_pendings`, with user code running in its callbacks. -/

namespace Yjc.Timers

inductive Kind
  | timeout
  | period
  | idle
  | io
deriving DecidableEq

/-- `priority` is the index of the pendings list. -/
structure Event where
  kind : Kind
  priority : Fin 11
  active : Bool
  pending : Bool
  destroy : Bool
  pendingNext : Option ℕ
  cb : Bool
  repeats : ℕ
  timeout : ℕ
  nextTimeout : ℕ
deriving DecidableEq

/-- Where `evloop_process_pendings` is: not running, at the event `cur` of a list, or in the callback of `cur`, having
read its `pending_next`. -/
inductive Phase
  | out
  | walk (i : ℕ) (cur : Option ℕ)
  | cb (i : ℕ) (cur : ℕ) (next : Option ℕ)
deriving DecidableEq

/-- `mem` has the events at their addresses, which are given out in order and not again; what is freed stays there.
`freed` has the addresses in the order of their frees. -/
structure Loop where
  mem : ℕ → Event
  next : ℕ
  timers : Heap ℕ
  realtimers : Heap ℕ
  idles : List ℕ
  ntimers : ℕ
  nidles : ℕ
  nactives : ℕ
  npendings : ℕ
  pendings : ℕ → Option ℕ
  curHrtime : ℕ
  freed : List ℕ
  phase : Phase

def blank : Event := ⟨.io, 0, false, false, false, none, false, 0, 0, 0⟩

def Loop.init : Loop := ⟨fun _ => blank, 0, .init, .init, [], 0, 0, 0, 0, fun _ => none, 0, [], .out⟩

def infinite : ℕ := 2 ^ 32 - 1

/-- `--repeat` of an `uint32_t`. -/
def dec32 (n : ℕ) : ℕ := if n = 0 then 2 ^ 32 - 1 else n - 1

namespace Loop

def modify (s : Loop) (e : ℕ) (f : Event → Event) : Loop := { s with mem := Function.update s.mem e (f (s.mem e)) }

/-- `timers_compare`. -/
def before (s : Loop) (a b : ℕ) : Bool := (s.mem a).nextTimeout < (s.mem b).nextTimeout

def alloc (s : Loop) (ev : Event) : Loop := { s with mem := Function.update s.mem s.next ev, next := s.next + 1 }

end Loop

/-! ## The macros -/

def eventActive (e : ℕ) (s : Loop) : Loop :=
  if (s.mem e).active then s
  else { s.modify e (fun ev => { ev with active := true }) with nactives := s.nactives + 1 }

def eventInactive (e : ℕ) (s : Loop) : Loop :=
  if (s.mem e).active then { s.modify e (fun ev => { ev with active := false }) with nactives := s.nactives - 1 }
  else s

def eventPending (e : ℕ) (s : Loop) : Loop :=
  if (s.mem e).pending then s
  else
    let i := (s.mem e).priority
    { s.modify e (fun ev => { ev with pending := true, pendingNext := s.pendings i }) with
      npendings := s.npendings + 1
      pendings := Function.update s.pendings i (some e) }

def eventDel (e : ℕ) (s : Loop) : Loop :=
  let s := eventInactive e s
  if (s.mem e).pending then s else { s with freed := s.freed ++ [e] }

def eventReset (e : ℕ) (s : Loop) : Loop :=
  let s := s.modify e fun ev => { ev with destroy := false }
  let s := eventActive e s
  s.modify e fun ev => { ev with pending := false }

/-! ## Timers and idles -/

def evidleAdd (repeats : ℕ) (cb : Bool) (s : Loop) : Loop :=
  let e := s.next
  let s := s.alloc { blank with kind := .idle, priority := 0, repeats := repeats, cb := cb }
  let s := { s with idles := e :: s.idles }
  let s := eventActive e s
  { s with nidles := s.nidles + 1 }

/-- `__evidle_del`. -/
def unlistIdle (e : ℕ) (s : Loop) : Loop :=
  if (s.mem e).destroy then s
  else
    let s := s.modify e fun ev => { ev with destroy := true }
    { s with idles := s.idles.erase e, nidles := s.nidles - 1 }

def evidleDel (e : ℕ) (s : Loop) : Loop := if (s.mem e).active then eventDel e (unlistIdle e s) else s

/-- `next_timeout` for a timeout in milliseconds. -/
def deadline (hrtime timeout : ℕ) : ℕ :=
  let t := hrtime + timeout * 1000
  if 1000 ≤ timeout ∧ timeout % 100 = 0 then t / 100000 * 100000 else t

def evtimerAdd (hrtime timeout repeats : ℕ) (cb : Bool) (s : Loop) : Loop :=
  if timeout = 0 then s
  else
    let e := s.next
    let s := { s with curHrtime := hrtime }
    let s := s.alloc { blank with
      kind := .timeout, priority := 10, repeats := repeats, timeout := timeout, cb := cb
      nextTimeout := deadline hrtime timeout }
    let s := { s with timers := s.timers.insert s.before e }
    let s := eventActive e s
    { s with ntimers := s.ntimers + 1 }

/-- `next` is what `cron_next_timeout` computes, in microseconds. -/
def evtimerAddPeriod (minute hour day week month : ℤ) (next repeats : ℕ) (cb : Bool) (s : Loop) : Loop :=
  if 59 < minute ∨ 23 < hour ∨ 31 < day ∨ 6 < week ∨ 12 < month then s
  else
    let e := s.next
    let s := s.alloc { blank with kind := .period, priority := 8, repeats := repeats, cb := cb, nextTimeout := next }
    let s := { s with realtimers := s.realtimers.insert s.before e }
    let s := eventActive e s
    { s with ntimers := s.ntimers + 1 }

/-- The timer gets its next timeout and goes into the heap. -/
def putBack (e timeout : ℕ) (s : Loop) : Loop :=
  let s := if (s.mem e).repeats = 0 then s.modify e fun ev => { ev with repeats := 1 } else s
  let s := if 0 < timeout then s.modify e fun ev => { ev with timeout := timeout } else s
  let s := s.modify e fun ev => { ev with nextTimeout := deadline s.curHrtime ev.timeout }
  { s with timers := s.timers.insert s.before e }

/-- `evtimer_reset` up to `EVENT_RESET`. -/
def rearm (e timeout : ℕ) (s : Loop) : Option Loop :=
  if (s.mem e).destroy then some (putBack e timeout { s with ntimers := s.ntimers + 1 })
  else (s.timers.remove s.before e).map fun h => putBack e timeout { s with timers := h }

def evtimerReset (e timeout : ℕ) (s : Loop) : Option Loop :=
  if (s.mem e).kind = .timeout then (rearm e timeout s).map (eventReset e) else some s

/-- The timer leaves its heap. -/
def dequeue (e : ℕ) (s : Loop) : Option Loop :=
  match (s.mem e).kind with
  | .timeout => (s.timers.remove s.before e).map fun h => { s with timers := h }
  | .period => (s.realtimers.remove s.before e).map fun h => { s with realtimers := h }
  | .idle | .io => some s

/-- `__evtimer_del`. -/
def unlistTimer (e : ℕ) (s : Loop) : Option Loop :=
  if (s.mem e).destroy then some s
  else do
    let s ← dequeue e s
    some { s.modify e (fun ev => { ev with destroy := true }) with ntimers := s.ntimers - 1 }

def evtimerDel (e : ℕ) (s : Loop) : Option Loop :=
  if (s.mem e).active then (unlistTimer e s).map (eventDel e) else some s

/-! ## Processing -/

def countDown (e : ℕ) (s : Loop) : Loop :=
  if (s.mem e).repeats = infinite then s else s.modify e fun ev => { ev with repeats := dec32 ev.repeats }

/-- A turn of the loop of `evloop_process_idles`. -/
def processIdle (s : Loop) (e : ℕ) : Loop :=
  let s := countDown e s
  let s := if (s.mem e).repeats = 0 then unlistIdle e s else s
  eventPending e s

def processIdles (s : Loop) : Loop := s.idles.foldl processIdle s

/-- The first value after `now` in steps of the timeout. -/
def nextAfter (now timeout next : ℕ) : ℕ :=
  let period := timeout * 1000
  next + ((now - next) / period + 1) * period

inductive Which
  | timers
  | realtimers
deriving DecidableEq

def Which.heap (s : Loop) : Which → Heap ℕ
  | .timers => s.timers
  | .realtimers => s.realtimers

def Which.set (s : Loop) (h : Heap ℕ) : Which → Loop
  | .timers => { s with timers := h }
  | .realtimers => { s with realtimers := h }

/-- `next` is what `cron_next_timeout` computes. -/
def advance (now next : ℕ) (ev : Event) : Event :=
  match ev.kind with
  | .timeout => { ev with nextTimeout := nextAfter now ev.timeout ev.nextTimeout }
  | .period => { ev with nextTimeout := next }
  | .idle | .io => ev

/-- The timer at the root of a heap is taken out and put back for its next timeout. -/
def requeue (w : Which) (now next e : ℕ) (s : Loop) : Option Loop :=
  ((w.heap s).remove s.before e).map fun h =>
    let s := (w.set s h).modify e (advance now next)
    w.set s ((w.heap s).insert s.before e)

/-- A turn of the loop of `__evloop_process_timers`; `none` where the loop ends. -/
def processTimer (w : Which) (now next : ℕ) (s : Loop) : Option Loop := do
  let e ← (w.heap s).root
  if now < (s.mem e).nextTimeout then none
  else
    let s := countDown e s
    let s ← if (s.mem e).repeats = 0 then unlistTimer e s else requeue w now next e s
    some (eventPending e s)

/-- `evloop_process_pendings` goes on after the callback of `cur`, or where there is none to call. -/
def finish (i cur : ℕ) (next : Option ℕ) (s : Loop) : Loop :=
  let s := s.modify cur fun ev => { ev with pending := false }
  let s := if (s.mem cur).destroy then eventDel cur s else s
  { s with phase := .walk i next }

/-- `evloop_process_pendings` comes to `cur`, or to the end of the list `i`. -/
def visit (i : ℕ) (cur : Option ℕ) (s : Loop) : Loop :=
  match cur with
  | none =>
    let s := { s with pendings := Function.update s.pendings i none }
    match i with
    | 0 => { s with npendings := 0, phase := .out }
    | i + 1 => { s with phase := .walk i (s.pendings i) }
  | some c =>
    let ev := s.mem c
    if ev.pending then
      if ev.active && ev.cb then { s with phase := .cb i c ev.pendingNext } else finish i c ev.pendingNext s
    else { s with phase := .walk i ev.pendingNext }

def beginPendings (s : Loop) : Loop := if s.npendings = 0 then s else { s with phase := .walk 10 (s.pendings 10) }

inductive Call
  | evtimerAdd (hrtime timeout repeats : ℕ) (cb : Bool)
  | evtimerAddPeriod (minute hour day week month : ℤ) (next repeats : ℕ) (cb : Bool)
  | evtimerReset (e timeout : ℕ)
  | evtimerDel (e : ℕ)
  | evidleAdd (repeats : ℕ) (cb : Bool)
  | evidleDel (e : ℕ)
  | evioGet (priority : Fin 11) (cb : Bool)
  | evioAdd (e : ℕ)
  | evioDel (e : ℕ)
deriving DecidableEq

def call (s : Loop) : Call → Option Loop
  | .evtimerAdd hrtime timeout repeats cb => some (evtimerAdd hrtime timeout repeats cb s)
  | .evtimerAddPeriod minute hour day week month next repeats cb =>
    some (evtimerAddPeriod minute hour day week month next repeats cb s)
  | .evtimerReset e timeout => evtimerReset e timeout s
  | .evtimerDel e => evtimerDel e s
  | .evidleAdd repeats cb => some (evidleAdd repeats cb s)
  | .evidleDel e => some (evidleDel e s)
  | .evioGet priority cb => some (s.alloc { blank with priority := priority, cb := cb })
  | .evioAdd e => some (eventActive e s)
  | .evioDel e => some (eventInactive e s)

/-- `ioReady` is what polling reports, `start` .. `ret` are the moves of `evloop_process_pendings`. -/
inductive Act
  | call (c : Call)
  | timer (w : Which) (now next : ℕ)
  | idles
  | ioReady (e : ℕ)
  | start
  | visit
  | ret
deriving DecidableEq

def step (s : Loop) : Act → Option Loop
  | .call c =>
    match s.phase with
    | .out | .cb .. => call s c
    | .walk .. => none
  | .timer w now next => if s.phase = .out then processTimer w now next s else none
  | .idles => if s.phase = .out then some (processIdles s) else none
  | .ioReady e => if s.phase = .out then some (eventPending e s) else none
  | .start => if s.phase = .out then some (beginPendings s) else none
  | .visit =>
    match s.phase with
    | .walk i cur => some (visit i cur s)
    | .out | .cb .. => none
  | .ret =>
    match s.phase with
    | .cb i cur next => some (finish i cur next s)
    | .out | .walk .. => none

/-! ## What an operation changes -/

namespace Loop

theorem modify_self (s : Loop) (e : ℕ) (f : Event → Event) : (s.modify e f).mem e = f (s.mem e) :=
  Function.update_self ..

theorem modify_of_ne (s : Loop) {e e' : ℕ} (h : e' ≠ e) (f : Event → Event) : (s.modify e f).mem e' = s.mem e' :=
  Function.update_of_ne h ..

end Loop

structure Changes (s t : Loop) (e : ℕ) (ev : Event) : Prop where
  mem : t.mem = Function.update s.mem e ev
  next : t.next = s.next
  pendings : t.pendings = s.pendings
  npendings : t.npendings = s.npendings
  phase : t.phase = s.phase
  freed : t.freed = s.freed

variable {s t u : Loop} {e : ℕ} {ev ev' : Event}

theorem Changes.refl (s : Loop) (e : ℕ) : Changes s s e (s.mem e) :=
  ⟨(Function.update_eq_self e s.mem).symm, rfl, rfl, rfl, rfl, rfl⟩

theorem Changes.self (h : Changes s t e ev) : t.mem e = ev := by rw [h.mem, Function.update_self]

theorem Changes.trans (h : Changes s t e ev) (h' : Changes t u e ev') : Changes s u e ev' := by
  refine ⟨?_, h'.next.trans h.next, h'.pendings.trans h.pendings, h'.npendings.trans h.npendings,
    h'.phase.trans h.phase, h'.freed.trans h.freed⟩
  rw [h'.mem, h.mem, Function.update_idem]

theorem changes_modify (s : Loop) (e : ℕ) (f : Event → Event) : Changes s (s.modify e f) e (f (s.mem e)) :=
  ⟨rfl, rfl, rfl, rfl, rfl, rfl⟩

theorem eventActive_changes (s : Loop) (e : ℕ) : Changes s (eventActive e s) e { s.mem e with active := true } := by
  unfold eventActive
  split_ifs with h
  · have hsame : ({ s.mem e with active := true } : Event) = s.mem e := by rw [← h]
    rw [hsame]
    exact .refl s e
  · exact ⟨rfl, rfl, rfl, rfl, rfl, rfl⟩

theorem eventInactive_changes (s : Loop) (e : ℕ) : Changes s (eventInactive e s) e { s.mem e with active := false } := by
  unfold eventInactive
  split_ifs with h
  · exact ⟨rfl, rfl, rfl, rfl, rfl, rfl⟩
  · have hsame : ({ s.mem e with active := false } : Event) = s.mem e := by rw [← (Bool.not_eq_true _).mp h]
    rw [hsame]
    exact .refl s e

theorem unlistIdle_changes (s : Loop) (e : ℕ) : Changes s (unlistIdle e s) e { s.mem e with destroy := true } := by
  unfold unlistIdle
  split_ifs with h
  · have hsame : ({ s.mem e with destroy := true } : Event) = s.mem e := by rw [← h]
    rw [hsame]
    exact .refl s e
  · exact ⟨rfl, rfl, rfl, rfl, rfl, rfl⟩

theorem dequeue_changes (h : dequeue e s = some t) : Changes s t e (s.mem e) := by
  unfold dequeue at h
  split at h
  · obtain ⟨h', -, rfl⟩ := Option.map_eq_some_iff.mp h
    exact ⟨(Function.update_eq_self e s.mem).symm, rfl, rfl, rfl, rfl, rfl⟩
  · obtain ⟨h', -, rfl⟩ := Option.map_eq_some_iff.mp h
    exact ⟨(Function.update_eq_self e s.mem).symm, rfl, rfl, rfl, rfl, rfl⟩
  · cases h
    exact .refl s e
  · cases h
    exact .refl s e

theorem unlistTimer_changes (h : unlistTimer e s = some t) : Changes s t e { s.mem e with destroy := true } := by
  unfold unlistTimer at h
  split_ifs at h with hd
  · cases h
    have hsame : ({ s.mem e with destroy := true } : Event) = s.mem e := by rw [← hd]
    rw [hsame]
    exact .refl s e
  · obtain ⟨u, hu, h⟩ := Option.bind_eq_some_iff.mp h
    cases h
    have hch := dequeue_changes hu
    have hmod := changes_modify u e fun ev => { ev with destroy := true }
    rw [hch.self] at hmod
    have := hch.trans hmod
    exact ⟨this.mem, this.next, this.pendings, this.npendings, this.phase, this.freed⟩

theorem countDown_changes (s : Loop) (e : ℕ) : ∃ n, Changes s (countDown e s) e { s.mem e with repeats := n } := by
  unfold countDown
  split_ifs
  · exact ⟨(s.mem e).repeats, .refl s e⟩
  · exact ⟨_, changes_modify s e fun ev => { ev with repeats := dec32 ev.repeats }⟩

theorem putBack_changes (s : Loop) (e timeout : ℕ) :
    ∃ r m n, Changes s (putBack e timeout s) e { s.mem e with repeats := r, timeout := m, nextTimeout := n } := by
  have h₁ : ∃ r, Changes s (if (s.mem e).repeats = 0 then s.modify e fun ev => { ev with repeats := 1 } else s) e
      { s.mem e with repeats := r } := by
    split_ifs
    · exact ⟨1, changes_modify s e fun ev => { ev with repeats := 1 }⟩
    · exact ⟨_, .refl s e⟩
  obtain ⟨r, h₁⟩ := h₁
  unfold putBack
  dsimp only
  generalize (if (s.mem e).repeats = 0 then s.modify e fun ev => { ev with repeats := 1 } else s) = s₁ at h₁ ⊢
  have h₂ : ∃ m, Changes s₁ (if 0 < timeout then s₁.modify e fun ev => { ev with timeout := timeout } else s₁) e
      { s₁.mem e with timeout := m } := by
    split_ifs
    · exact ⟨timeout, changes_modify s₁ e fun ev => { ev with timeout := timeout }⟩
    · exact ⟨_, .refl s₁ e⟩
  obtain ⟨m, h₂⟩ := h₂
  generalize (if 0 < timeout then s₁.modify e fun ev => { ev with timeout := timeout } else s₁) = s₂ at h₂ ⊢
  have h₃ := changes_modify s₂ e fun ev => { ev with nextTimeout := deadline s₂.curHrtime ev.timeout }
  rw [h₂.self, h₁.self] at h₃
  have h := h₁.trans (h₂.trans h₃)
  exact ⟨r, m, _, h.mem, h.next, h.pendings, h.npendings, h.phase, h.freed⟩

theorem eventReset_changes (s : Loop) (e : ℕ) :
    Changes s (eventReset e s) e { s.mem e with destroy := false, active := true, pending := false } := by
  have h₁ := changes_modify s e fun ev => { ev with destroy := false }
  have h₂ := eventActive_changes (s.modify e fun ev => { ev with destroy := false }) e
  have h₃ := changes_modify (eventActive e (s.modify e fun ev => { ev with destroy := false })) e
    fun ev => { ev with pending := false }
  rw [h₂.self, h₁.self] at h₃
  exact (h₁.trans h₂).trans h₃

theorem rearm_changes {timeout : ℕ} (h : rearm e timeout s = some t) :
    ∃ r m n, Changes s t e { s.mem e with repeats := r, timeout := m, nextTimeout := n } := by
  unfold rearm at h
  split_ifs at h
  · cases h
    obtain ⟨r, m, n, hch⟩ := putBack_changes { s with ntimers := s.ntimers + 1 } e timeout
    exact ⟨r, m, n, hch.mem, hch.next, hch.pendings, hch.npendings, hch.phase, hch.freed⟩
  · obtain ⟨heap, -, rfl⟩ := Option.map_eq_some_iff.mp h
    obtain ⟨r, m, n, hch⟩ := putBack_changes { s with timers := heap } e timeout
    exact ⟨r, m, n, hch.mem, hch.next, hch.pendings, hch.npendings, hch.phase, hch.freed⟩

theorem evtimerReset_changes {timeout : ℕ} (hk : (s.mem e).kind = .timeout) (h : evtimerReset e timeout s = some t) :
    ∃ r m n, Changes s t e { s.mem e with
      repeats := r, timeout := m, nextTimeout := n, destroy := false, active := true, pending := false } := by
  unfold evtimerReset at h
  rw [if_pos hk] at h
  obtain ⟨u, hu, rfl⟩ := Option.map_eq_some_iff.mp h
  obtain ⟨r, m, n, hch⟩ := rearm_changes hu
  have hreset := eventReset_changes u e
  rw [hch.self] at hreset
  exact ⟨r, m, n, hch.trans hreset⟩

end Yjc.Timers
