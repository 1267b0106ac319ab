import Yjc.Lib.Run
import Yjc.Event.Io

/-! The reading of an io without an unpack setting, as a machine. The application's calls and what the
socket delivers are its actions; a call of `read_cb` is a frame on the stack, inside which the
application may call again, and `cbReturn` goes on where the code called `read_cb`. -/

namespace Yjc.Event
open Mem

/-- What a buffer was passed to `read_cb` for. -/
inductive ReadRequest
  | plain
  | untilLength (n : ℕ)
  | untilDelim (d : UInt8)
deriving DecidableEq

/-- `read_cb` was called with `len` bytes; `autosize`: by a branch of `evio_handle_read` that goes on
to resize the buffer. -/
structure ReadFrame where
  len : ℕ
  autosize : Bool
deriving DecidableEq

structure ReadCfg where
  io : Evio
  stack : List ReadFrame
  received : List UInt8
  handed : List (ReadRequest × List UInt8)

/-- `evio_read_cb` up to the call of `read_cb` with `[off, off + len)` of the block. -/
def ReadCfg.enter (req : ReadRequest) (off len : ℕ) (autosize : Bool) (mem : List UInt8) (c : ReadCfg) : ReadCfg :=
  { c with
    io := evioReadCbEnter off (slice mem off (off + len)) c.io
    stack := ⟨len, autosize⟩ :: c.stack
    handed := c.handed ++ [(req, slice mem off (off + len))] }

/-- `tail - head` as a `size_t`. -/
def FifoBuf.size (b : FifoBuf) : ℕ := if b.head ≤ b.tail then b.tail - b.head else 2 ^ 64 + b.tail - b.head

/-- `head += n`, and both ends back to the front when nothing is left. -/
def FifoBuf.consume (n : ℕ) (b : FifoBuf) : FifoBuf :=
  if b.head + n = b.tail then { b with head := 0, tail := 0 } else { b with head := b.head + n }

def evioReadRemain (c : ReadCfg) : ReadCfg :=
  let b := c.io.readbuf
  if b.head < b.tail then
    { c with io := { c.io with readbuf := { b with head := 0, tail := 0 } } }.enter .plain b.head (b.tail - b.head)
      false b.mem
  else c

def evioRead (c : ReadCfg) : ReadCfg :=
  if c.io.closed then c
  else
    let c := { c with io := { c.io with evRead := true } }
    if c.io.readbuf.head < c.io.readbuf.tail ∧ c.io.unpackSetting = none ∧ c.io.readFlags = .none then
      evioReadRemain c
    else c

def evioReadOnce (c : ReadCfg) : ReadCfg :=
  evioRead { c with io := { c.io with readFlags := { c.io.readFlags with once := true } } }

/-- The flags of a wait for `n` bytes; the pending ones go to the front. -/
def waitUntilLength (n : ℕ) (io : Evio) : Evio :=
  let b := io.readbuf
  let io := { io with readFlags := { ReadFlags.none with untilLength := true }, readUntil := n }
  if 1024 < b.head ∨ b.size < 1024 then evioMemmoveReadbuf io else io

/-- The buffer is made ready for `n` bytes from `head` on. `none`: the allocation ends the process. -/
def prepareReadbuf (n : ℕ) (io : Evio) : Option Evio :=
  let need := cInt (io.readbuf.head + n)
  if evioIsLoopReadbuf io ∨ need < 0 ∨ io.readbuf.len < need.toNat then evioAllocReadbuf need io else some io

def evioReadUntilLength (n : ℕ) (c : ReadCfg) : Option ReadCfg :=
  let b := c.io.readbuf
  if n = 0 then some c
  else if n ≤ b.size then
    some ({ c with io := { c.io with readbuf := b.consume n } }.enter (.untilLength n) b.head n false b.mem)
  else (prepareReadbuf n (waitUntilLength n c.io)).map fun io => evioReadOnce { c with io := io }

/-- The flags of a wait for `d`, and the buffer made ready for it. -/
def waitUntilDelim (d : UInt8) (io : Evio) : Option Evio :=
  let io := { io with readFlags := { ReadFlags.none with untilDelim := true }, readUntil := d.toNat }
  if evioIsLoopReadbuf io ∨ io.readbuf.len < evloopReadBufsize then evioAllocReadbuf evloopReadBufsize io
  else some io

/-- The loop over the pending bytes also looks at the byte behind them. `none`: that byte is outside
the block, or the allocation ends the process. -/
def evioReadUntilDelim (d : UInt8) (c : ReadCfg) : Option ReadCfg :=
  let b := c.io.readbuf
  let window := slice b.mem b.head (b.tail + 1)
  if b.head ≠ b.tail ∧ d ∈ window then
    let len := window.idxOf d + 1
    some ({ c with io := { c.io with readbuf := b.consume len } }.enter (.untilDelim d) b.head len false b.mem)
  else if b.head < b.tail ∧ b.mem.length ≤ b.tail then none
  else (waitUntilDelim d c.io).map fun io => evioReadOnce { c with io := io }

/-- `evio_handle_read` for the bytes that now stand at `[buf, tail)`. -/
def evioHandleRead (buf : ℕ) (c : ReadCfg) : Option ReadCfg :=
  let io := c.io
  let b := io.readbuf
  if io.readFlags.untilLength then
    if (io.readUntil : ℤ) ≤ b.tail - b.head then
      some ({ c with
        io := { io with
          readbuf := b.consume io.readUntil
          readFlags := { io.readFlags with untilLength := false } } }.enter
        (.untilLength io.readUntil) b.head io.readUntil true b.mem)
    else (evioAutosizeReadbuf io).map fun io => { c with io := io }
  else if io.readFlags.untilDelim then
    let d := UInt8.ofNat io.readUntil
    let new := slice b.mem buf b.tail
    if d ∈ new then
      let len := buf + new.idxOf d - b.head + 1
      some ({ c with
        io := { io with
          readbuf := b.consume len
          readFlags := { io.readFlags with untilDelim := false } } }.enter
        (.untilDelim d) b.head len false b.mem)
    else (evioAutosizeReadbuf io).map fun io => { c with io := io }
  else
    some ({ c with io := { io with readbuf := { b with head := 0, tail := 0 } } }.enter
      .plain b.head (b.tail - b.head) true b.mem)

/-- The `len` that `nio_read` passes to `read(2)`. -/
def nioReadLen (io : Evio) : ℤ :=
  let b := io.readbuf
  cInt (if io.readFlags.untilLength then io.readUntil - ((b.tail : ℤ) - b.head) else (b.len : ℤ) - b.tail)

inductive ReadAct
  | recv (bytes : List UInt8)
  | readUntilLength (n : ℕ)
  | readUntilDelim (d : UInt8)
  | readOnce
  | read
  | cbReturn
deriving DecidableEq

/-- `none`: the action cannot be taken, or it ends the process. -/
def readStep (c : ReadCfg) : ReadAct → Option ReadCfg
  | .recv bytes =>
    if c.stack = [] ∧ c.io.evRead ∧ bytes ≠ [] ∧ (bytes.length : ℤ) ≤ nioReadLen c.io then
      evioHandleRead c.io.readbuf.tail { c with io := nioReadStore bytes c.io, received := c.received ++ bytes }
    else none
  | .readUntilLength n => if n < 2 ^ 32 then evioReadUntilLength n c else none
  | .readUntilDelim d => evioReadUntilDelim d c
  | .readOnce => some (evioReadOnce c)
  | .read => some (evioRead c)
  | .cbReturn =>
    match c.stack with
    | [] => none
    | f :: stack =>
      let io := evioReadCbLeave f.len c.io
      (if f.autosize then evioAutosizeReadbuf io else some io).map fun io => { c with io := io, stack := stack }

/-- An io that `evio_ready` has made, with a buffer of the application if there is one. -/
def ReadCfg.start (buf : Option (List UInt8)) : ReadCfg where
  io := match buf with
    | none => .fresh
    | some buf => evioSetReadbuf buf .fresh
  stack := []
  received := []
  handed := []

end Yjc.Event
