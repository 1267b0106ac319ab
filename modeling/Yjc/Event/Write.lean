import Yjc.Lib.Run
import Yjc.Event.Io

/-! Writing and closing of a stream io, as a machine. The loop thread is a stack of the calls it is in;
an action is a call of the application, an event of the loop, or the next step of the topmost call up
to where another thread may come between. Other threads write while no frame holds `write_mutex`. -/

namespace Yjc.Event

/-- What a call of `write(2)` returns. -/
inductive WriteResult
  | wrote (n : ℕ)
  | again
  | error (err : ℕ)
deriving DecidableEq

/-! ## `evio_write` -/

def Evio.send (io : Evio) (call : ℕ) (bytes : List UInt8) : Evio := { io with fd := io.fd ++ [(call, bytes)] }

/-- `evio_write` after the direct write took `n` bytes: the rest is queued, in a queue that gets its cells. -/
def evioEnqueue (call : ℕ) (buf : List UInt8) (n : ℕ) (io : Evio) : Evio × ℤ :=
  if n < buf.length then
    if io.maxWriteBufsize < io.writeBufsize + buf.length - n then
      ({ evioCloseAsync io with rejected := io.rejected.or (some call) }, -1)
    else
      let queue := if io.writeQueue.maxsize = 0 then Queue.init 4 else io.writeQueue
      ({ io with
        writeQueue := queue.pushed ⟨io.nextBase, call, buf.drop n, 0⟩
        writeBufsize := io.writeBufsize + (buf.length - n)
        nextBase := io.nextBase + 1 }, n)
  else (io, n)

/-- `evio_write` with its return value. `res` is what `write(2)` returns if it is called; `none`: it
cannot return that. An io that is not closed is ready, so `evio_add` only adds the event. -/
def evioWrite (buf : List UInt8) (res : WriteResult) (io : Evio) : Option (Evio × ℤ) :=
  let call := io.submitted.length
  let io := { io with submitted := io.submitted ++ [buf] }
  if io.closed then some (io, -1)
  else if io.writeQueue.empty then
    match res with
    | .error err => if err = 0 then none else some (evioCloseAsync (io.fail err), -1)
    | .again => some (evioEnqueue call buf 0 { io with evWrite := true })
    | .wrote n =>
      if buf.length < n then none
      else if n = 0 then some (evioCloseAsync io, -1)
      else if n = buf.length then some (io.send call buf, n)
      else some (evioEnqueue call buf n { io.send call (buf.take n) with evWrite := true })
  else some (evioEnqueue call buf 0 io)

/-! ## Timeouts -/

/-- `evtimer_reset`. -/
def resetTimer (id timeout : ℕ) (io : Evio) : Evio :=
  { io with active := io.active.map fun t => if t.id = id then { t with timeout := timeout } else t }

/-- `evio_set_connect_timeout` and the five like it. -/
def evioSetTimeout (k : TimerKind) (ms : ℕ) (io : Evio) : Evio :=
  match k with
  | .connect | .close => { io with timeouts := Function.update io.timeouts k ms }
  | .read | .write | .keepalive | .heartbeat =>
    if ms = 0 then delTimer k io
    else
      let io := match io.timers k with
        | some id => resetTimer id ms io
        | none => armTimer k ms io
      { io with timeouts := Function.update io.timeouts k ms }

/-! ## The machine -/

inductive Frame
  /-- `evio_handle_events`, before `nio_write` or `nio_connect` -/
  | events
  /-- `nio_write` at its label `write`, with the mutex -/
  | write
  /-- `write_cb`, called by `nio_write` with the mutex; `full`: the entry is sent -/
  | writeCb (base : ℕ) (full : Bool)
  /-- `nio_write` after it found the queue empty and released the mutex -/
  | drained
  /-- `evio_close`, before it takes the mutex -/
  | closing (closer : Closer)
  /-- `evio_close` after it put the close off -/
  | arm
  /-- `evio_close` after it set `closed` -/
  | finish
  | closeCb
  | connectCb
  | heartbeatCb
  /-- the callback of a timer that runs once, after `evio_close` -/
  | timerCb (id : ℕ)
deriving DecidableEq

def Frame.isCb : Frame → Bool
  | .writeCb _ _ | .closeCb | .connectCb | .heartbeatCb => true
  | _ => false

/-- `nio_write` between its lock and its unlock. -/
def Frame.holds : Frame → Bool
  | .write | .writeCb _ _ => true
  | _ => false

inductive Thread
  | loop
  | other
deriving DecidableEq

inductive ConnectResult
  | ok
  | inProgress
  | error (err : ℕ)
deriving DecidableEq

inductive Act
  -- calls of the application
  | write (thread : Thread) (buf : List UInt8) (res : WriteResult)
  | close
  | closeAsync
  | get (newId : ℕ)
  | connect (newId : ℕ) (res : ConnectResult)
  | setTimeout (k : TimerKind) (ms : ℕ)
  | setMaxWriteBufsize (size : ℕ)
  -- events of the loop
  | closeEvent
  | connectEvent (err : Option ℕ)
  | fire (id : ℕ) (left : Option ℕ)
  | hangup (err : Option ℕ)
  | writable
  -- the next step of the topmost call
  | nioConnect (err : Option ℕ)
  | nioWrite (res : WriteResult)
  | cbReturn
  | proceed
deriving DecidableEq

/-- `broken`: a freed block was freed again, or an empty queue was popped. -/
structure Cfg where
  io : Evio
  stack : List Frame
  broken : Bool

def Cfg.appTurn (c : Cfg) : Bool :=
  match c.stack with
  | [] => true
  | f :: _ => f.isCb

def Cfg.mayWrite (c : Cfg) : Thread → Bool
  | .loop => c.appTurn
  | .other => !c.stack.any Frame.holds

/-- `evio_close` on the loop thread, up to the release of the mutex. -/
def Cfg.closeLocked (c : Cfg) (closer : Closer) : Cfg :=
  match evioCloseLocked closer c.io with
  | (io, .return) => { c with io := io }
  | (io, .arm) => { c with io := io, stack := .arm :: c.stack }
  | (io, .finish) => { c with io := io, stack := .finish :: c.stack }

/-- `evio_connect`, whose `evio_add` makes an io ready again that is not. -/
def evioConnect (newId : ℕ) (res : ConnectResult) (io : Evio) : Option Evio :=
  let io := { io with connects := io.connects + 1 }
  match res with
  | .error err => if err = 0 then none else some (evioCloseAsync (io.fail err))
  | .ok => some { io with postedConnect := io.postedConnect ++ [io.id] }
  | .inProgress =>
    let timeout := if io.timeouts .connect = 0 then eioDefaultConnectTimeout else io.timeouts .connect
    some { evioReady newId { armTimer .connect timeout io with connect := true } with evWrite := true }

/-- The io fails, if `err` is an error, and is closed. -/
def Cfg.failClose (c : Cfg) (closer : Closer) (err : Option ℕ) : Option Cfg :=
  match err with
  | none => some { c with stack := .closing closer :: c.stack }
  | some err =>
    if err = 0 then none else some { c with io := c.io.fail err, stack := .closing .fault :: c.stack }

/-- `nio_connect`; `err` is what `getpeername` fails with. -/
def Cfg.nioConnect (c : Cfg) : Option ℕ → Option Cfg
  | none => some { c with io := delTimer .connect c.io, stack := .connectCb :: c.stack }
  | some err => c.failClose .fault (some err)

/-- The callback of an active timer. `left`: the io was active meanwhile and the timer is set again. -/
def Cfg.fire (c : Cfg) (t : Timer) (left : Option ℕ) : Option Cfg :=
  match t.kind, left with
  | .heartbeat, _ => some { c with stack := .heartbeatCb :: c.stack }
  | .read, some ms | .write, some ms | .keepalive, some ms =>
    (c.io.timers t.kind).map fun id =>
      let io := resetTimer id ms c.io
      { c with io := if id = t.id then io else { io with active := io.active.filter (·.id ≠ t.id) } }
  | _, _ => some { c with io := c.io.fail etimedout, stack := .closing .timeout :: .timerCb t.id :: c.stack }

/-- `nio_write` from its label `write` to the next call of `write_cb`, or to its end. -/
def Cfg.nioWrite (c : Cfg) (stack : List Frame) (res : WriteResult) : Option Cfg :=
  match c.io.writeQueue.front with
  | none => some { c with io := c.io.log .drained, stack := .drained :: stack }
  | some pbuf =>
    match res with
    | .again => some { c with stack := stack }
    | .error err => { c with stack := stack }.failClose .fault (some err)
    | .wrote n =>
      if pbuf.unsent.length < n then none
      else if n = 0 then { c with stack := stack }.failClose .hangup none
      else
        let io := c.io.send pbuf.call (pbuf.unsent.take n)
        some
          { c with
            io :=
              { io with
                writeQueue := io.writeQueue.modifyFront fun b => { b with offset := b.offset + n }
                writeBufsize := io.writeBufsize - n }
            stack := .writeCb pbuf.base (n = pbuf.unsent.length) :: stack }

/-- `nio_write` after `write_cb` returned. -/
def Cfg.writeCbReturn (c : Cfg) (stack : List Frame) (base : ℕ) (full : Bool) : Cfg :=
  if full then
    let io := { c.io with freed := c.io.freed ++ [base] }
    match io.writeQueue.popFront with
    | some queue =>
      if base ∈ c.io.freed then { c with io := io, broken := true }
      else
        { c with
          io := { io with writeQueue := queue }
          stack := if io.closed then stack else .write :: stack }
    | none => { c with io := io, broken := true }
  else { c with stack := stack }

def Cfg.proceed (c : Cfg) : Option Cfg :=
  match c.stack with
  | .events :: stack => if c.io.connect then none else some { c with stack := .write :: stack }
  | .drained :: stack =>
    if c.io.close then some { c with io := { c.io with close := false }, stack := .closing .drain :: stack }
    else some { c with stack := stack }
  | .closing closer :: stack => some ({ c with stack := stack }.closeLocked closer)
  | .arm :: stack => some { c with io := evioCloseArm c.io, stack := stack }
  | .finish :: stack => some { c with io := evioCloseFinish c.io, stack := .closeCb :: stack }
  | .timerCb id :: stack =>
    some { c with io := { c.io with active := c.io.active.filter (·.id ≠ id) }, stack := stack }
  | _ => none

def Cfg.cbReturn (c : Cfg) : Option Cfg :=
  match c.stack with
  | .writeCb base full :: stack => some (c.writeCbReturn stack base full)
  | .closeCb :: stack | .connectCb :: stack | .heartbeatCb :: stack => some { c with stack := stack }
  | _ => none

/-- `none`: the action cannot be taken. -/
def step (c : Cfg) (a : Act) : Option Cfg :=
  if c.broken then none
  else
    match a with
    | .write thread buf res =>
      if c.mayWrite thread then (evioWrite buf res c.io).map fun r => { c with io := r.1 } else none
    | .close => if c.appTurn then some (c.closeLocked .app) else none
    | .closeAsync => some { c with io := evioCloseAsync c.io }
    | .get newId => if c.appTurn then some { c with io := evioReady newId c.io } else none
    | .connect newId res =>
      if c.appTurn then (evioConnect newId res c.io).map fun io => { c with io := io } else none
    | .setTimeout k ms => if c.appTurn then some { c with io := evioSetTimeout k ms c.io } else none
    | .setMaxWriteBufsize size => some { c with io := { c.io with maxWriteBufsize := size } }
    | .closeEvent =>
      match c.stack, c.io.posted with
      | [], id :: posted =>
        let c := { c with io := { c.io with posted := posted } }
        some (if c.io.id = id then { c with stack := [.closing .event] } else c)
      | _, _ => none
    | .connectEvent err =>
      match c.stack, c.io.postedConnect with
      | [], id :: posted =>
        let c := { c with io := { c.io with postedConnect := posted } }
        if c.io.id = id then c.nioConnect err else some c
      | _, _ => none
    | .fire id left =>
      match c.stack, c.io.active.find? (·.id = id) with
      | [], some t => c.fire t left
      | _, _ => none
    | .hangup err => if c.stack = [] ∧ c.io.ready then c.failClose .hangup err else none
    | .writable =>
      if c.stack = [] ∧ c.io.evWrite then
        some { c with
          io := if c.io.writeQueue.empty then { c.io with evWrite := false } else c.io
          stack := [.events] }
      else none
    | .nioConnect err =>
      match c.stack with
      | .events :: stack =>
        if c.io.connect then { c with io := { c.io with connect := false }, stack := stack }.nioConnect err
        else none
      | _ => none
    | .nioWrite res =>
      match c.stack with
      | .write :: stack => c.nioWrite stack res
      | _ => none
    | .cbReturn => c.cbReturn
    | .proceed => c.proceed

/-- An io that `evio_get` has made for a new descriptor. -/
def Cfg.start : Cfg := ⟨.fresh, [], false⟩

end Yjc.Event
