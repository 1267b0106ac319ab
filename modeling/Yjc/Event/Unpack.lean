import Yjc.Lib.Loop
import Yjc.Base.Varint
import Yjc.Event.Io

/-! `unpack.c`: the three ways to cut what was read into packages. Pointers into the read buffer are
offsets in the block `mem` that `readbuf.base` points at on entry; `read_cb` may close the io, which
frees that block, but the functions go on using it. -/

namespace Yjc.Event
open Mem Yjc.Base

def Ev.package? : Ev → Option (List UInt8)
  | .readCb _ pkg => some pkg
  | _ => none

/-- The buffers passed to `read_cb`, in order. -/
def Evio.delivered (io : Evio) : List (List UInt8) := io.trace.filterMap Ev.package?

@[simp] theorem Evio.delivered_log (io : Evio) (e : Ev) : (io.log e).delivered = io.delivered ++ e.package?.toList := by
  cases h : e.package? <;> simp [delivered, h]

/-- What `read_cb` does to the io: how often it calls `evio_close`, given the buffers passed to it,
the one at hand included. -/
abbrev ReadCb := List (List UInt8) → ℕ

def ReadCb.idle : ReadCb := fun _ => 0

def evioReadCb (cb : ReadCb) (off : ℕ) (pkg : List UInt8) (io : Evio) : Evio :=
  let io := evioReadCbEnter off pkg io
  evioReadCbLeave pkg.length ((evioClose .app)^[cb io.delivered] io)

/-- An open io whose own read buffer is full of `bytes`. -/
def Evio.holding (bytes : List UInt8) : Evio :=
  { Evio.fresh with readbuf := ⟨.own, bytes, bytes.length, 0, bytes.length⟩, allocedReadbuf := true }

/-- The events by which an unpack function uses the read buffer or hands out its content. -/
def Ev.usesReadbuf : Ev → Bool
  | .readCb _ _ | .load _ | .setFifo | .move => true
  | _ => false

@[simp] theorem evioReadCbEnter_trace (off : ℕ) (pkg : List UInt8) (io : Evio) :
    (evioReadCbEnter off pkg io).trace = io.trace ++ [Ev.readCb off pkg] := by
  unfold evioReadCbEnter
  split <;> rfl

@[simp] theorem evioReadCbLeave_trace (len : ℕ) (io : Evio) : (evioReadCbLeave len io).trace = io.trace := by
  unfold evioReadCbLeave
  split_ifs <;> rfl

theorem evioClose_iterate_trace (closer : Closer) (k : ℕ) (io : Evio) :
    ∃ new, ((evioClose closer)^[k] io).trace = io.trace ++ new ∧ ∀ e ∈ new, e.usesReadbuf = false := by
  induction k generalizing io with
  | zero => exact ⟨[], by simp, by simp⟩
  | succ k ih =>
    obtain ⟨new, ht, hn⟩ := ih (evioClose closer io)
    rw [Function.iterate_succ_apply, ht, evioClose_trace, List.append_assoc]
    refine ⟨_, rfl, fun e he => ?_⟩
    rcases List.mem_append.mp he with he | he
    · split_ifs at he <;> simp at he <;> aesop
    · exact hn e he

theorem evioReadCb_trace (cb : ReadCb) (off : ℕ) (pkg : List UInt8) (io : Evio) :
    ∃ new, (evioReadCb cb off pkg io).trace = io.trace ++ Ev.readCb off pkg :: new ∧
      ∀ e ∈ new, e.usesReadbuf = false := by
  obtain ⟨new, ht, hn⟩ := evioClose_iterate_trace .app (cb (evioReadCbEnter off pkg io).delivered)
    (evioReadCbEnter off pkg io)
  refine ⟨new, ?_, hn⟩
  rw [evioReadCb, evioReadCbLeave_trace, ht, evioReadCbEnter_trace, List.append_assoc, List.singleton_append]

/-- The end of every `evio_unpack_by_*`: `[p, p + remain)` of the block the function started with
becomes the content of the read buffer. -/
def keepRest (base : Block) (mem : List UInt8) (p remain : ℕ) (io : Evio) : Evio :=
  let io := { io with readbuf := { io.readbuf with head := 0, tail := remain } }.log .setFifo
  if remain ≠ 0 ∧ ¬(base = io.readbuf.base ∧ p = 0) then
    { io with readbuf := { io.readbuf with mem := store io.readbuf.mem 0 (slice mem p (p + remain)) } }.log .move
  else io

/-! ## Fixed length -/

structure FixedLoop where
  io : Evio
  p : ℕ
  remain : ℕ
  handled : ℕ

def fixedBody (cb : ReadCb) (fixedLength : ℕ) (mem : List UInt8) (s : FixedLoop) : FixedLoop ⊕ FixedLoop :=
  if fixedLength ≤ s.remain then
    .inl
      { io := evioReadCb cb s.p (slice mem s.p (s.p + fixedLength)) s.io
        p := s.p + fixedLength
        remain := s.remain - fixedLength
        handled := s.handled + fixedLength }
  else .inr s

def fixedStart (buf readbytes : ℕ) (io : Evio) : FixedLoop :=
  ⟨io, io.readbuf.head, buf + readbytes - io.readbuf.head, 0⟩

/-- Each round takes at least one byte, so that many rounds are enough. -/
def evioUnpackByFixedLength (cb : ReadCb) (fixedLength buf readbytes : ℕ) (io : Evio) : Option (Evio × ℤ) :=
  let mem := io.readbuf.mem
  let start := fixedStart buf readbytes io
  if fixedLength ≤ io.readbuf.len then
    (Loop.run (fixedBody cb fixedLength mem) (start.remain + 1) start).map fun s =>
      (keepRest io.readbuf.base mem s.p s.remain s.io, s.handled)
  else none

/-! ## Delimiter -/

structure DelimLoop where
  io : Evio
  sp : ℕ
  p : ℕ
  remain : ℕ
  handled : ℕ

def delimBody (cb : ReadCb) (delimiter mem : List UInt8) (s : DelimLoop) : DelimLoop ⊕ DelimLoop :=
  if s.remain < delimiter.length then .inr s
  else
    let io := s.io.log (.load s.p)
    if slice mem s.p (s.p + delimiter.length) = delimiter then
      let p := s.p + delimiter.length
      .inl
        { io := evioReadCb cb s.sp (slice mem s.sp p) io
          sp := p
          p := p
          remain := s.remain - delimiter.length
          handled := s.handled + (p - s.sp) }
    else .inl { s with io := io, p := s.p + 1, remain := s.remain - 1 }

/-- The close with `ERR_OVER_LIMIT` and the return of -1. -/
def overLimit (io : Evio) : Evio × ℤ := (evioClose .fault (io.fail errOverLimit), -1)

/-- The search starts at `buf - delimiter_bytes + 1`, but not before `sp`. -/
def delimStart (delimiter : List UInt8) (buf readbytes : ℕ) (io : Evio) : DelimLoop :=
  let p := max io.readbuf.head (buf + 1 - delimiter.length)
  ⟨io, io.readbuf.head, p, buf + readbytes - p, 0⟩

def evioUnpackByDelimiter (cb : ReadCb) (delimiter : List UInt8) (packageMaxLength buf readbytes : ℕ)
    (io : Evio) : Option (Evio × ℤ) :=
  let mem := io.readbuf.mem
  let base := io.readbuf.base
  let start := delimStart delimiter buf readbytes io
  (Loop.run (delimBody cb delimiter mem) (start.remain + 1) start).bind fun s =>
    let remain := buf + readbytes - s.sp
    let io := keepRest base mem s.sp remain s.io
    if remain ≠ 0 ∧ io.readbuf.tail = io.readbuf.len then
      if packageMaxLength ≤ io.readbuf.len then some (overLimit io)
      else
        (evioAllocReadbuf (cInt (min (io.readbuf.len * 2) packageMaxLength : ℕ)) io).map fun io => (io, s.handled)
    else some (io, s.handled)

/-! ## Length field -/

def bigEndian (bytes : List UInt8) : ℕ := bytes.foldl (fun bodyLen b => (bodyLen <<< 8 ||| b.toNat) % 2 ^ 32) 0

/-- `none`: the byte is shifted by 32 bits or more, which C leaves undefined. -/
def littleEndian : List UInt8 → ℕ → ℕ → Option ℕ
  | [], _, bodyLen => some bodyLen
  | b :: bs, i, bodyLen =>
    if 32 ≤ i * 8 then none else littleEndian bs (i + 1) (bodyLen ||| (b.toNat <<< (i * 8)) % 2 ^ 32)

inductive LengthRead
  | lengths (headLen bodyLen : ℕ)
  | short
  | tooBig
  | undefined
deriving DecidableEq

def readLength (f : LengthField) (mem : List UInt8) (p ep : ℕ) : LengthRead :=
  let lp := p + f.lengthFieldOffset
  match f.lengthFieldCoding with
  | .bigEndian => .lengths f.bodyOffset (bigEndian (slice mem lp (lp + f.lengthFieldBytes)))
  | .littleEndian =>
    match littleEndian (slice mem lp (lp + f.lengthFieldBytes)) 0 0 with
    | some bodyLen => .lengths f.bodyOffset bodyLen
    | none => .undefined
  | .varint =>
    match varintDecode (mem.drop lp) (ep - lp) with
    | .found value bytes => .lengths (f.bodyOffset + bytes - f.lengthFieldBytes) (value % 2 ^ 32)
    | .short => .short
    | .tooBig => .tooBig
    | .outOfBounds => .undefined

structure LengthLoop where
  io : Evio
  p : ℕ
  remain : ℕ
  handled : ℕ
  packageLen : ℕ

inductive LengthExit
  | rest (s : LengthLoop)
  | tooBig (s : LengthLoop)
  | undefined (s : LengthLoop)

/-- The unsigned 32-bit sum `head_len + body_len + length_adjustment`. -/
def packageLen (f : LengthField) (headLen bodyLen : ℕ) : ℕ :=
  ((headLen + bodyLen + f.lengthAdjustment : ℤ) % 2 ^ 32).toNat

/-- The round that hands `n` bytes at `p` to `read_cb`. -/
def LengthLoop.deliver (cb : ReadCb) (mem : List UInt8) (n : ℕ) (s : LengthLoop) : LengthLoop where
  io := evioReadCb cb s.p (slice mem s.p (s.p + n)) (s.io.log (.load s.p))
  p := s.p + n
  remain := s.remain - n
  handled := s.handled + n
  packageLen := n

def lengthBody (cb : ReadCb) (f : LengthField) (mem : List UInt8) (s : LengthLoop) : LengthLoop ⊕ LengthExit :=
  if s.remain < f.bodyOffset then .inr (.rest s)
  else
    let io := s.io.log (.load s.p)
    match readLength f mem s.p (s.p + s.remain) with
    | .undefined => .inr (.undefined { s with io := io })
    | .short => .inr (.rest { s with io := io })
    | .tooBig => .inr (.tooBig { s with io := io })
    | .lengths headLen bodyLen =>
      let n := packageLen f headLen bodyLen
      if n ≤ s.remain then .inl (s.deliver cb mem n) else .inr (.rest { s with io := io, packageLen := n })

def limit (lower v upper : ℕ) : ℕ := if v < lower then lower else if upper < v then upper else v

def lengthStart (f : LengthField) (buf readbytes : ℕ) (io : Evio) : LengthLoop :=
  ⟨io, io.readbuf.head, buf + readbytes - io.readbuf.head, 0, f.bodyOffset⟩

/-- `none`: the behaviour is undefined, the process ends, or more rounds were made than there are
bytes, which is the case of a round that takes none and repeats for ever. -/
def evioUnpackByLengthField (cb : ReadCb) (f : LengthField) (packageMaxLength buf readbytes : ℕ)
    (io : Evio) : Option (Evio × ℤ) :=
  let mem := io.readbuf.mem
  let base := io.readbuf.base
  let start := lengthStart f buf readbytes io
  (Loop.run (lengthBody cb f mem) (start.remain + 1) start).bind fun
    | .undefined _ => none
    | .tooBig s => some (overLimit s.io)
    | .rest s =>
      let io := keepRest base mem s.p s.remain s.io
      if s.remain ≠ 0 ∧ io.readbuf.len < s.packageLen then
        if packageMaxLength < s.packageLen then some (overLimit io)
        else
          (evioAllocReadbuf (cInt (limit s.packageLen (io.readbuf.len * 2) packageMaxLength)) io).map
            fun io => (io, s.handled)
      else some (io, s.handled)

/-! ## Dispatch -/

def evioUnpack (cb : ReadCb) (s : UnpackSetting) (buf readbytes : ℕ) (io : Evio) : Option (Evio × ℤ) :=
  match s.mode with
  | .fixedLength n => evioUnpackByFixedLength cb n buf readbytes io
  | .delimiter d n => evioUnpackByDelimiter cb (d.take n) s.packageMaxLength buf readbytes io
  | .lengthField f => evioUnpackByLengthField cb f s.packageMaxLength buf readbytes io
  | .none => some (evioReadCb cb buf (slice io.readbuf.mem buf (buf + readbytes)) io, readbytes)

/-- How an io with an unpack setting reads: `nio_read` passes on what `read(2)` returned, and then the
rest of `evio_handle_read` resizes the buffer. -/
inductive Feed
  | read (bytes : List UInt8)
  | autosize

def Feed.bytes : Feed → List UInt8
  | .read bytes => bytes
  | .autosize => []

def feed (cb : ReadCb) (io : Evio) : Feed → Option Evio
  | .read bytes =>
    io.unpackSetting.bind fun s =>
      (evioUnpack cb s io.readbuf.tail bytes.length (nioReadStore bytes io)).map Prod.fst
  | .autosize => evioAutosizeReadbuf io

/-- An open io reads at least one byte, and no more than its buffer has room for. -/
def Feed.Fits (io : Evio) : Feed → Prop
  | .read bytes => io.closed = false ∧ bytes ≠ [] ∧ bytes.length ≤ io.readbuf.len - io.readbuf.tail
  | .autosize => io.closed = false

instance (io : Evio) : (a : Feed) → Decidable (a.Fits io)
  | .read bytes =>
    inferInstanceAs (Decidable (io.closed = false ∧ bytes ≠ [] ∧ bytes.length ≤ io.readbuf.len - io.readbuf.tail))
  | .autosize => inferInstanceAs (Decidable (io.closed = false))

end Yjc.Event
