import Yjc.Container.Queue
import Yjc.Lib.CInt
import Mathlib.Logic.Function.Basic
import Mathlib.Data.Int.Order.Basic
import Mathlib.Tactic.SplitIfs

/-! The io of the event loop: the fields of `evio_s` that reading, writing, closing and the timers
work on, what its loop keeps for it, and a history of what was observable. -/

namespace Yjc.Event
open Mem

def evloopReadBufsize : ℕ := 8192
def readBufsizeHighWater : ℕ := 65536
def maxReadBufsizeDefault : ℕ := 2 ^ 24
def maxWriteBufsizeDefault : ℕ := 2 ^ 24
def defaultPackageMaxLength : ℕ := 2 ^ 21
def eioDefaultConnectTimeout : ℕ := 10000
def eioDefaultCloseTimeout : ℕ := 60000
def errOverLimit : ℕ := 1022
def etimedout : ℕ := 110

/-- The memory `readbuf.base` points at: the buffer all ios of the loop share, one the application
passed in, or one the io allocated. -/
inductive Block
  | loop
  | user
  | own
deriving DecidableEq

structure FifoBuf where
  base : Block
  mem : List UInt8
  len : ℕ
  head : ℕ
  tail : ℕ
deriving DecidableEq

namespace FifoBuf

def pending (b : FifoBuf) : List UInt8 := slice b.mem b.head b.tail

structure Ok (b : FifoBuf) : Prop where
  mem_length : b.mem.length = b.len
  head_le : b.head ≤ b.tail
  tail_le : b.tail ≤ b.len

end FifoBuf

/-- `base` names the allocation, `call` the `evio_write` whose rest it holds. -/
structure OffsetBuf where
  base : ℕ
  call : ℕ
  data : List UInt8
  offset : ℕ
deriving DecidableEq, Inhabited

def OffsetBuf.unsent (b : OffsetBuf) : List UInt8 := b.data.drop b.offset

structure ReadFlags where
  once : Bool
  untilLength : Bool
  untilDelim : Bool
deriving DecidableEq

def ReadFlags.none : ReadFlags := ⟨false, false, false⟩

inductive UnpackCoding
  | varint
  | littleEndian
  | bigEndian
deriving DecidableEq

structure LengthField where
  bodyOffset : ℕ
  lengthFieldOffset : ℕ
  lengthFieldBytes : ℕ
  lengthAdjustment : ℤ
  lengthFieldCoding : UnpackCoding
  bodyOffset_lt : bodyOffset < 2 ^ 16 := by decide
  lengthFieldBytes_lt : lengthFieldBytes < 2 ^ 16 := by decide
  lengthAdjustment_ge : -2 ^ 15 ≤ lengthAdjustment := by decide
  lengthAdjustment_lt : lengthAdjustment < 2 ^ 15 := by decide
deriving DecidableEq

inductive UnpackMode
  | none
  | fixedLength (n : ℕ)
  | delimiter (delimiter : List UInt8) (delimiterBytes : ℕ)
  | lengthField (s : LengthField)
deriving DecidableEq

structure UnpackSetting where
  mode : UnpackMode
  packageMaxLength : ℕ
deriving DecidableEq

inductive TimerKind
  | connect
  | close
  | read
  | write
  | keepalive
  | heartbeat
deriving DecidableEq

structure Timer where
  id : ℕ
  kind : TimerKind
  timeout : ℕ
deriving DecidableEq

/-- Who calls `evio_close`. -/
inductive Closer
  | app
  | event
  | drain
  | timeout
  | fault
  | hangup
deriving DecidableEq

inductive Ev
  | ready
  | readCb (off : ℕ) (pkg : List UInt8)
  | load (off : ℕ)
  | setFifo
  | move
  | failed (err : ℕ)
  | closeCall (closer : Closer) (queued : Bool) (err : ℕ)
  | drained
  | closed
  | closeCb
deriving DecidableEq

structure Evio where
  ready : Bool
  closed : Bool
  close : Bool
  connect : Bool
  id : ℕ
  error : ℕ
  evRead : Bool
  evWrite : Bool
  -- read
  readbuf : FifoBuf
  allocedReadbuf : Bool
  readFlags : ReadFlags
  readUntil : ℕ
  maxReadBufsize : ℕ
  smallReadbytesCnt : ℕ
  unpackSetting : Option UnpackSetting
  -- write
  writeQueue : Queue OffsetBuf
  writeBufsize : ℕ
  maxWriteBufsize : ℕ
  -- timers
  timers : TimerKind → Option ℕ
  timeouts : TimerKind → ℕ
  -- the loop: its read buffer, the active timers whose privdata is the io, the posted close and
  -- connect events
  loopReadbuf : List UInt8
  active : List Timer
  nextTimer : ℕ
  posted : List ℕ
  postedConnect : List ℕ
  -- history: bytes taken by write(2), buffers passed to evio_write and the first of them that was over
  -- the limit, calls of evio_connect, EV_FREE of queued buffers
  fd : List (ℕ × List UInt8)
  submitted : List (List UInt8)
  rejected : Option ℕ
  connects : ℕ
  nextBase : ℕ
  freed : List ℕ
  trace : List Ev

namespace Evio

/-- A zero-filled `evio_t` of a new loop. -/
def zero : Evio where
  ready := false
  closed := false
  close := false
  connect := false
  id := 0
  error := 0
  evRead := false
  evWrite := false
  readbuf := ⟨.loop, [], 0, 0, 0⟩
  allocedReadbuf := false
  readFlags := .none
  readUntil := 0
  maxReadBufsize := 0
  smallReadbytesCnt := 0
  unpackSetting := none
  writeQueue := Queue.init 0
  writeBufsize := 0
  maxWriteBufsize := 0
  timers := fun _ => none
  timeouts := fun _ => 0
  loopReadbuf := List.replicate evloopReadBufsize 0
  active := []
  nextTimer := 0
  posted := []
  postedConnect := []
  fd := []
  submitted := []
  rejected := none
  connects := 0
  nextBase := 0
  freed := []
  trace := []

def log (io : Evio) (e : Ev) : Evio := { io with trace := io.trace ++ [e] }

@[simp] theorem log_trace (io : Evio) (e : Ev) : (io.log e).trace = io.trace ++ [e] := rfl

def fail (io : Evio) (err : ℕ) : Evio := { io with error := err }.log (.failed err)

end Evio

/-- `evio_ready` with the number `evio_next_id` returned. -/
def evioReady (newId : ℕ) (io : Evio) : Evio :=
  if io.ready then io
  else
    { io with
      ready := true
      closed := false
      close := false
      connect := false
      id := newId
      error := 0
      evRead := false
      evWrite := false
      readbuf := ⟨.loop, io.loopReadbuf, io.loopReadbuf.length, 0, 0⟩
      allocedReadbuf := false
      readFlags := .none
      readUntil := 0
      maxReadBufsize := maxReadBufsizeDefault
      smallReadbytesCnt := 0
      unpackSetting := none
      writeBufsize := 0
      maxWriteBufsize := maxWriteBufsizeDefault
      timers := fun _ => none
      timeouts := fun _ => 0
      fd := []
      submitted := []
      rejected := none
      connects := 0 }.log .ready

/-- The io that `evio_get` returns for a descriptor it sees for the first time. -/
def Evio.fresh : Evio := evioReady 1 .zero

/-! ## Read buffer -/

def evioCloseAsync (io : Evio) : Evio := { io with posted := io.posted ++ [io.id] }

/-- `none`: the allocator cannot serve the size, which ends the process. -/
def evioAllocReadbuf (len : ℤ) (io : Evio) : Option Evio :=
  if io.maxReadBufsize < (len % 2 ^ 32).toNat then some (evioCloseAsync io)
  else if len < 0 ∨ len = 0 ∧ io.allocedReadbuf then none
  else
    let mem :=
      if io.allocedReadbuf then zrealloc io.readbuf.mem len.toNat else List.replicate len.toNat 0
    some
      { io with
        readbuf := { io.readbuf with base := .own, mem := mem, len := len.toNat }
        allocedReadbuf := true
        smallReadbytesCnt := 0 }

theorem evioAllocReadbuf_of_lt {n : ℕ} {io : Evio} (h0 : 0 < n) (h : n < 2 ^ 31) (hmax : n ≤ io.maxReadBufsize) :
    evioAllocReadbuf (cInt n) io = some
      { io with
        readbuf :=
          { io.readbuf with
            base := .own
            mem := if io.allocedReadbuf then zrealloc io.readbuf.mem n else List.replicate n 0
            len := n }
        allocedReadbuf := true
        smallReadbytesCnt := 0 } := by
  have hn : ((n : ℤ) % 2 ^ 32).toNat = n := by omega
  rw [evioAllocReadbuf, cInt_of_lt h, if_neg (by omega), if_neg (by omega), Int.toNat_natCast]

theorem evioAllocReadbuf_of_ge {n : ℕ} {io : Evio} (h : 2 ^ 31 ≤ n) (h' : n < 2 ^ 32) (hmax : n ≤ io.maxReadBufsize) :
    evioAllocReadbuf (cInt n) io = none := by
  have hn : (((n : ℤ) - 2 ^ 32) % 2 ^ 32).toNat = n := by omega
  rw [evioAllocReadbuf, cInt_of_ge h h', if_neg (by omega), if_pos (by omega)]

def evioFreeReadbuf (io : Evio) : Evio :=
  if io.allocedReadbuf then
    { io with
      allocedReadbuf := false
      readbuf := { io.readbuf with base := .loop, mem := io.loopReadbuf, len := io.loopReadbuf.length } }
  else io

def evioMemmoveReadbuf (io : Evio) : Evio :=
  let b := io.readbuf
  if b.tail = b.head then { io with readbuf := { b with head := 0, tail := 0 } }
  else if b.head < b.tail then
    { io with readbuf := { b with mem := store b.mem 0 b.pending, head := 0, tail := b.tail - b.head } }
  else io

def evioSetReadbuf (buf : List UInt8) (io : Evio) : Evio :=
  let io := evioFreeReadbuf io
  { io with readbuf := ⟨.user, buf, buf.length, 0, 0⟩, allocedReadbuf := false }

def evioIsLoopReadbuf (io : Evio) : Bool := io.readbuf.base = .loop

/-! ## Timers -/

/-- `evtimer_add` for a timer of the io, whose pointer the io keeps in the field of that kind. -/
def armTimer (k : TimerKind) (timeout : ℕ) (io : Evio) : Evio :=
  { io with
    timers := Function.update io.timers k (some io.nextTimer)
    active := io.active ++ [⟨io.nextTimer, k, timeout⟩]
    nextTimer := io.nextTimer + 1 }

/-- The six `evio_del_*_timer`. -/
def delTimer (k : TimerKind) (io : Evio) : Evio :=
  match io.timers k with
  | none => io
  | some t =>
    { io with
      active := io.active.filter (·.id ≠ t)
      timers := Function.update io.timers k none
      timeouts := Function.update io.timeouts k 0 }

/-! ## Close -/

def evioDone (io : Evio) : Evio :=
  if io.ready then
    let io := evioFreeReadbuf { io with ready := false, evRead := false, evWrite := false }
    { io with
      freed := io.freed ++ io.writeQueue.toList.map (·.base)
      writeQueue := io.writeQueue.cleanup }
  else io

/-- `__close_cb`, up to the call of `close_cb`. -/
def closeCb (io : Evio) : Evio :=
  let io := delTimer .connect io
  let io := delTimer .close io
  let io := delTimer .read io
  let io := delTimer .write io
  let io := delTimer .keepalive io
  let io := delTimer .heartbeat io
  { io with closed := true }.log .closeCb

inductive CloseNext
  | return
  | arm
  | finish
deriving DecidableEq

/-- Data is queued, nothing has failed and the close was not put off before. -/
def Evio.putsOffClose (io : Evio) : Bool := !io.writeQueue.empty && io.error = 0 && !io.close

def Evio.logClose (io : Evio) (closer : Closer) : Evio :=
  io.log (.closeCall closer (!io.writeQueue.empty) io.error)

/-- `evio_close` up to the release of `write_mutex`. -/
def evioCloseLocked (closer : Closer) (io : Evio) : Evio × CloseNext :=
  if io.closed then (io, .return)
  else if io.putsOffClose then ({ io.logClose closer with close := true }, .arm)
  else ({ io.logClose closer with closed := true }.log .closed, .finish)

/-- `evio_close` after it put the close off. -/
def evioCloseArm (io : Evio) : Evio :=
  armTimer .close (if io.timeouts .close = 0 then eioDefaultCloseTimeout else io.timeouts .close) io

/-- `evio_close` after it set `closed`. -/
def evioCloseFinish (io : Evio) : Evio := closeCb (evioDone io)

def evioClose (closer : Closer) (io : Evio) : Evio :=
  match evioCloseLocked closer io with
  | (io, .return) => io
  | (io, .arm) => evioCloseArm io
  | (io, .finish) => evioCloseFinish io

theorem evioClose_eq (closer : Closer) (io : Evio) :
    evioClose closer io =
      if io.closed then io
      else if io.putsOffClose then evioCloseArm { io.logClose closer with close := true }
      else evioCloseFinish ({ io.logClose closer with closed := true }.log .closed) := by
  unfold evioClose evioCloseLocked
  split_ifs <;> rfl

@[simp] theorem evioFreeReadbuf_trace (io : Evio) : (evioFreeReadbuf io).trace = io.trace := by
  unfold evioFreeReadbuf
  split <;> rfl

@[simp] theorem delTimer_trace (k : TimerKind) (io : Evio) : (delTimer k io).trace = io.trace := by
  unfold delTimer
  split <;> rfl

@[simp] theorem evioDone_trace (io : Evio) : (evioDone io).trace = io.trace := by
  unfold evioDone
  split
  · exact evioFreeReadbuf_trace _
  · rfl

@[simp] theorem closeCb_trace (io : Evio) : (closeCb io).trace = io.trace ++ [Ev.closeCb] := by
  simp only [closeCb, Evio.log_trace, delTimer_trace]

@[simp] theorem delTimer_error (k : TimerKind) (io : Evio) : (delTimer k io).error = io.error := by
  unfold delTimer
  split <;> rfl

@[simp] theorem closeCb_error (io : Evio) : (closeCb io).error = io.error := by
  simp only [closeCb, Evio.log, delTimer_error]

@[simp] theorem evioDone_error (io : Evio) : (evioDone io).error = io.error := by
  unfold evioDone evioFreeReadbuf
  dsimp only
  split_ifs <;> rfl

theorem evioClose_trace (closer : Closer) (io : Evio) :
    (evioClose closer io).trace = io.trace ++
      if io.closed then []
      else .closeCall closer (!io.writeQueue.empty) io.error ::
        if io.putsOffClose then [] else [.closed, .closeCb] := by
  rw [evioClose_eq]
  split_ifs
  · rw [List.append_nil]
  · rfl
  · simp only [evioCloseFinish, closeCb_trace, evioDone_trace, Evio.log_trace, Evio.logClose, List.append_assoc,
      List.cons_append, List.nil_append]

/-! ## Reading -/

/-- `evio_read_cb` up to the call of `read_cb`, with the bytes at offset `off` of the buffer. -/
def evioReadCbEnter (off : ℕ) (pkg : List UInt8) (io : Evio) : Evio :=
  let io :=
    if io.readFlags.once then { io with readFlags := { io.readFlags with once := false }, evRead := false }
    else io
  io.log (.readCb off pkg)

/-- `evio_read_cb` after `read_cb` returned. -/
def evioReadCbLeave (len : ℕ) (io : Evio) : Evio :=
  if io.allocedReadbuf && readBufsizeHighWater < io.readbuf.len then
    if len < io.readbuf.len / 2 then { io with smallReadbytesCnt := io.smallReadbytesCnt + 1 }
    else { io with smallReadbytesCnt := 0 }
  else io

/-- The end of `evio_handle_read`, after the bytes were handled. -/
def evioAutosizeReadbuf (io : Evio) : Option Evio :=
  let b := io.readbuf
  let io := if b.head = b.tail then { io with readbuf := { b with head := 0, tail := 0 } } else io
  if io.readbuf.tail = io.readbuf.len then
    if io.readbuf.head = 0 then evioAllocReadbuf (cInt (io.readbuf.len * 2)) io
    else some (evioMemmoveReadbuf io)
  else if io.readbuf.tail < io.readbuf.len / 2 ∧ 3 ≤ io.smallReadbytesCnt then
    evioAllocReadbuf (cInt (io.readbuf.len / 2 : ℕ)) io
  else some io

/-- The part of `nio_read` that puts received bytes behind `tail`. -/
def nioReadStore (bytes : List UInt8) (io : Evio) : Evio :=
  let b := io.readbuf
  { io with readbuf := { b with mem := store b.mem b.tail bytes, tail := b.tail + bytes.length } }

/-! ## Unpack settings -/

def UnpackMode.withDefaults : UnpackMode → UnpackMode
  | .delimiter d n => .delimiter d (if n = 0 then (d.takeWhile (· ≠ 0)).length else n)
  | m => m

def UnpackSetting.withDefaults (s : UnpackSetting) : UnpackSetting where
  mode := s.mode.withDefaults
  packageMaxLength := if s.packageMaxLength = 0 then defaultPackageMaxLength else s.packageMaxLength

/-- The asserts of `evio_set_unpack`. -/
def UnpackSetting.Admitted (s : UnpackSetting) : Prop :=
  match s.mode with
  | .fixedLength n => n ≠ 0 ∧ n ≤ s.packageMaxLength
  | .lengthField f => f.lengthFieldOffset + f.lengthFieldBytes ≤ f.bodyOffset
  | _ => True

instance : (s : UnpackSetting) → Decidable s.Admitted
  | ⟨.none, _⟩ => inferInstanceAs (Decidable True)
  | ⟨.fixedLength n, m⟩ => inferInstanceAs (Decidable (n ≠ 0 ∧ n ≤ m))
  | ⟨.delimiter _ _, _⟩ => inferInstanceAs (Decidable True)
  | ⟨.lengthField f, _⟩ => inferInstanceAs (Decidable (f.lengthFieldOffset + f.lengthFieldBytes ≤ f.bodyOffset))

def evioUnsetUnpack (io : Evio) : Evio :=
  if io.unpackSetting.isSome then evioFreeReadbuf { io with unpackSetting := none } else io

/-- The buffer an io gets for its unpack setting. -/
def UnpackSetting.readbufLen (s : UnpackSetting) : ℕ :=
  match s.mode with
  | .fixedLength n => n
  | _ => min evloopReadBufsize s.packageMaxLength

/-- `none`: an assert fails, or the buffer cannot be allocated. -/
def evioSetUnpack (s : UnpackSetting) (io : Evio) : Option Evio :=
  let io := evioUnsetUnpack io
  let s := s.withDefaults
  if s.Admitted then
    evioAllocReadbuf (cInt s.readbufLen)
      { io with
        unpackSetting := some s
        readbuf := { io.readbuf with len := s.readbufLen }
        maxReadBufsize := s.packageMaxLength }
  else none

end Yjc.Event
