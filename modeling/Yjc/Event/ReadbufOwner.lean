import Yjc.Event.Io
import Yjc.Lib.Run
import Mathlib.Data.Finset.Basic

/-! Who owns `readbuf.base`: the operations that set it, with the allocations of `evio_alloc_readbuf` named. -/

namespace Yjc.Readbuf
open Event

/-- A buffer that is not the io's: the one a loop shares among its ios, or one the application passed in. -/
inductive Foreign
  | loop (n : ℕ)
  | user (n : ℕ)
deriving DecidableEq

inductive Base
  | foreign (f : Foreign)
  | heap (b : ℕ)
deriving DecidableEq

/-- The fields of an io that its read buffer depends on. `live` are the blocks that `evio_alloc_readbuf` got for it
and that were not freed, `next` is the next one; `faults` counts what was freed or reallocated and is none of them. -/
structure Owner where
  ready : Bool
  closed : Bool
  loop : ℕ
  base : Base
  len : ℕ
  head : ℕ
  tail : ℕ
  alloced : Bool
  maxReadBufsize : ℕ
  unpackSetting : Option UnpackSetting
  live : Finset ℕ
  next : ℕ
  faults : ℕ

/-- An io after `EV_ALLOC_SIZEOF` and `evio_init`. -/
def Owner.init (loop : ℕ) : Owner := ⟨false, false, loop, .foreign (.loop loop), 0, 0, 0, false, 0, none, ∅, 0, 0⟩

def evioReady (io : Owner) : Owner :=
  if io.ready then io
  else
    { io with
      ready := true
      closed := false
      alloced := false
      base := .foreign (.loop io.loop)
      len := evloopReadBufsize
      head := 0
      tail := 0
      maxReadBufsize := maxReadBufsizeDefault
      unpackSetting := none }

/-- `EV_FREE(io->readbuf.base)`, and what realloc does with the old block. -/
def free (io : Owner) : Owner :=
  match io.base with
  | .heap b => if b ∈ io.live then { io with live := io.live.erase b } else { io with faults := io.faults + 1 }
  | .foreign _ => { io with faults := io.faults + 1 }

def alloc (io : Owner) : Owner := { io with base := .heap io.next, live := insert io.next io.live, next := io.next + 1 }

/-- Without the `evio_close_async` of a length over the limit. -/
def evioAllocReadbuf (len : ℕ) (io : Owner) : Owner :=
  if io.maxReadBufsize < len then io
  else
    let io := alloc (if io.alloced then free io else io)
    { io with len := len, alloced := true }

def evioFreeReadbuf (io : Owner) : Owner :=
  if io.alloced then
    { free io with alloced := false, base := .foreign (.loop io.loop), len := evloopReadBufsize }
  else io

def evioSetReadbuf (buf : Foreign) (len : ℕ) (io : Owner) : Owner :=
  { evioFreeReadbuf io with base := .foreign buf, len := len, head := 0, tail := 0, alloced := false }

/-- `evio_read`, which makes an io ready through `evio_add`. What it does with bytes that are buffered is a move of
its own. -/
def evioRead (io : Owner) : Owner := if io.closed then io else evioReady io

def hread (buf : Option (Foreign × ℕ)) (io : Owner) : Owner :=
  let io := evioReady io
  evioRead
    (match buf with
    | none => io
    | some (buf, len) => { io with base := .foreign buf, len := len })

def evioIsLoopReadbuf (io : Owner) : Bool := io.base = .foreign (.loop io.loop)

/-- The bytes up to `n` are handed to the callback. -/
def consume (n : ℕ) (io : Owner) : Owner :=
  if io.head + n = io.tail then { io with head := 0, tail := 0 } else { io with head := io.head + n }

def evioMemmoveReadbuf (io : Owner) : Owner :=
  if io.tail = io.head then { io with head := 0, tail := 0 }
  else if io.head < io.tail then { io with head := 0, tail := io.tail - io.head }
  else io

/-- The io when `evio_read_until_length` comes to prepare its buffer. -/
def compacted (io : Owner) : Owner :=
  if 1024 < io.head ∨ io.tail - io.head < 1024 then evioMemmoveReadbuf io else io

/-- Whether a buffer for `len` bytes has to be allocated. -/
def unfit (len : ℕ) (io : Owner) : Bool := evioIsLoopReadbuf io || io.len < len

def evioReadUntilLength (len : ℕ) (io : Owner) : Owner :=
  if len = 0 then io
  else if len ≤ io.tail - io.head then consume len io
  else
    let io := compacted io
    let need := io.head + len
    evioRead (if unfit need io then evioAllocReadbuf need io else io)

/-- `hit` is the length up to the delimiter, where it is among the bytes that are buffered. -/
def evioReadUntilDelim (hit : Option ℕ) (io : Owner) : Owner :=
  match hit with
  | some n => consume n io
  | none => evioRead (if unfit evloopReadBufsize io then evioAllocReadbuf evloopReadBufsize io else io)

def evioUnsetUnpack (io : Owner) : Owner :=
  if io.unpackSetting.isSome then evioFreeReadbuf { io with unpackSetting := none } else io

/-- The length of the buffer that a setting asks for, and its limit; `none` where an assert fails. -/
def unpackBufsize (setting : UnpackSetting) : Option (ℕ × ℕ) :=
  let limit := if setting.packageMaxLength = 0 then defaultPackageMaxLength else setting.packageMaxLength
  match setting.mode with
  | .fixedLength n => if n ≠ 0 ∧ n ≤ limit then some (n, limit) else none
  | .lengthField s =>
    if s.lengthFieldOffset + s.lengthFieldBytes ≤ s.bodyOffset then some (min evloopReadBufsize limit, limit) else none
  | .none | .delimiter .. => some (min evloopReadBufsize limit, limit)

def evioSetUnpack (setting : Option UnpackSetting) (io : Owner) : Option Owner := do
  let io := evioUnsetUnpack io
  match setting with
  | none => some io
  | some setting => do
    let (len, limit) ← unpackBufsize setting
    some (evioAllocReadbuf len { io with unpackSetting := setting, len := len, maxReadBufsize := limit })

/-- `evio_attach`, as far as the io goes. -/
def evioAttach (loop : ℕ) (io : Owner) : Owner :=
  { io with loop := loop, base := .foreign (.loop loop), len := evloopReadBufsize }

def evioDone (io : Owner) : Owner := if io.ready then evioFreeReadbuf { io with ready := false } else io

/-- `resize` are the allocations of unpacking and of autosizing, `move` is what reading and the callbacks do to `head`
and `tail`, `close` is the end of `evio_close`. -/
inductive Op
  | ready
  | setReadbuf (buf : Foreign) (len : ℕ)
  | hread (buf : Option (Foreign × ℕ))
  | readUntilLength (len : ℕ)
  | readUntilDelim (hit : Option ℕ)
  | setUnpack (setting : Option UnpackSetting)
  | unsetUnpack
  | detach
  | attach (loop : ℕ)
  | done
  | close
  | resize (len : ℕ)
  | move (head tail : ℕ)
  | setMaxReadBufsize (size : ℕ)

def step (io : Owner) : Op → Option Owner
  | .ready => some (evioReady io)
  | .setReadbuf buf len => some (evioSetReadbuf buf len io)
  | .hread buf => some (hread buf io)
  | .readUntilLength len => some (evioReadUntilLength len io)
  | .readUntilDelim hit => some (evioReadUntilDelim hit io)
  | .setUnpack setting => evioSetUnpack setting io
  | .unsetUnpack => some (evioUnsetUnpack io)
  | .detach => some io
  | .attach loop => some (evioAttach loop io)
  | .done => some (evioDone io)
  | .close => some (if io.closed then io else evioDone { io with closed := true })
  | .resize len => some (evioAllocReadbuf len io)
  | .move head tail => some { io with head := head, tail := tail }
  | .setMaxReadBufsize size => some { io with maxReadBufsize := size }

/-! ## Ownership -/

/-- The io owns its buffer iff it is marked so, and it has no other block. -/
structure Marked (io : Owner) : Prop where
  alloced : io.alloced = true → ∃ b, io.base = .heap b ∧ io.live = {b}
  shared : io.alloced = false → (∃ f, io.base = .foreign f) ∧ io.live = ∅
  faults : io.faults = 0

/-- Besides, an io that is not ready has none. -/
structure Owned (io : Owner) : Prop extends Marked io where
  idle : io.ready = false → io.alloced = false

/-- A call that keeps the rule: the base is not replaced while it is owned, and no buffer is allocated for an io that
is not ready. -/
def Safe (io : Owner) : Op → Prop
  | .hread (some _) => io.ready = true → io.alloced = false
  | .attach _ => io.alloced = false
  | .readUntilLength len =>
    io.ready = true ∨ len ≤ io.tail - io.head ∨ unfit ((compacted io).head + len) io = false ∨
      io.maxReadBufsize < (compacted io).head + len
  | .readUntilDelim none =>
    io.ready = true ∨ unfit evloopReadBufsize io = false ∨ io.maxReadBufsize < evloopReadBufsize
  | .setUnpack (some _) => io.ready = true
  | .resize len => io.ready = true ∨ io.maxReadBufsize < len
  | _ => True

variable {io io' : Owner}

theorem free_eq {b : ℕ} (hb : io.base = .heap b) (hlive : io.live = {b}) : free io = { io with live := ∅ } := by
  rw [free, hb]
  dsimp only
  rw [hlive, if_pos (Finset.mem_singleton_self b), Finset.erase_singleton]

theorem Owned.foreign (h : Owned io) (ha : io.alloced = false) (f : Foreign) (len : ℕ) :
    Owned { io with base := .foreign f, len := len } :=
  ⟨⟨fun ha' => absurd ha' (by rw [ha]; decide), fun _ => ⟨⟨f, rfl⟩, (h.shared ha).2⟩, h.faults⟩, h.idle⟩

theorem Owned.move (h : Owned io) (head tail : ℕ) : Owned { io with head := head, tail := tail } :=
  ⟨⟨h.alloced, h.shared, h.faults⟩, h.idle⟩

theorem Owned.ready (h : Owned io) : Owned (evioReady io) := by
  unfold evioReady
  split_ifs with hr
  · exact h
  · have hlive := (h.shared (h.idle ((Bool.not_eq_true _).mp hr))).2
    refine ⟨⟨fun ha => ?_, fun _ => ⟨⟨_, rfl⟩, hlive⟩, h.faults⟩, fun hc => ?_⟩
    · cases ha
    · cases hc

theorem Owned.read (h : Owned io) : Owned (evioRead io) := by
  unfold evioRead
  split_ifs
  · exact h
  · exact h.ready

theorem Owned.alloc (h : Owned io) {len : ℕ} (hready : io.ready = true ∨ io.maxReadBufsize < len) :
    Owned (evioAllocReadbuf len io) := by
  unfold evioAllocReadbuf
  split_ifs with hmax ha
  · exact h
  all_goals
    have hr : io.ready = true := hready.resolve_right hmax
  · obtain ⟨b, hb, hlive⟩ := h.alloced ha
    rw [free_eq hb hlive]
    refine ⟨⟨fun _ => ⟨_, rfl, insert_empty_eq io.next⟩, fun hc => (by cases hc), h.faults⟩, fun hc => ?_⟩
    exact absurd (hr.symm.trans hc) (by decide)
  · have hlive := (h.shared ((Bool.not_eq_true _).mp ha)).2
    refine ⟨⟨fun _ => ⟨_, rfl, ?_⟩, fun hc => (by cases hc), h.faults⟩, fun hc => ?_⟩
    · change insert io.next io.live = {io.next}
      rw [hlive]
      exact insert_empty_eq io.next
    · exact absurd (hr.symm.trans hc) (by decide)

theorem Marked.free (h : Marked io) : Owned (evioFreeReadbuf io) ∧ (evioFreeReadbuf io).alloced = false := by
  unfold evioFreeReadbuf
  split_ifs with ha
  · obtain ⟨b, hb, hlive⟩ := h.alloced ha
    rw [free_eq hb hlive]
    exact ⟨⟨⟨fun hc => (by cases hc), fun _ => ⟨⟨_, rfl⟩, rfl⟩, h.faults⟩, fun _ => rfl⟩, rfl⟩
  · have ha' := (Bool.not_eq_true _).mp ha
    exact ⟨⟨h, fun _ => ha'⟩, ha'⟩

theorem Owned.consume (h : Owned io) (n : ℕ) : Owned (consume n io) := by
  unfold Readbuf.consume
  split_ifs
  · exact h.move 0 0
  · exact h.move _ io.tail

theorem compacted_eq (io : Owner) : ∃ head tail, compacted io = { io with head := head, tail := tail } := by
  unfold Readbuf.compacted evioMemmoveReadbuf
  split_ifs
  · exact ⟨0, 0, rfl⟩
  · exact ⟨0, _, rfl⟩
  · exact ⟨io.head, io.tail, rfl⟩
  · exact ⟨io.head, io.tail, rfl⟩

theorem Owned.readUntilLength (h : Owned io) {len : ℕ} (hsafe : Safe io (.readUntilLength len)) :
    Owned (evioReadUntilLength len io) := by
  unfold evioReadUntilLength
  by_cases hzero : len = 0
  · rw [if_pos hzero]
    exact h
  rw [if_neg hzero]
  by_cases hbuf : len ≤ io.tail - io.head
  · rw [if_pos hbuf]
    exact h.consume len
  rw [if_neg hbuf]
  obtain ⟨head, tail, heq⟩ := compacted_eq io
  have hcomp := h.move head tail
  rw [Safe] at hsafe
  rw [heq] at hsafe ⊢
  refine Owned.read ?_
  dsimp only at hsafe ⊢
  split_ifs with hfit
  · refine hcomp.alloc ?_
    rcases hsafe with hr | hle | hnot | hmax
    · exact .inl hr
    · exact absurd hle hbuf
    · exact absurd (hnot.symm.trans hfit) (by decide)
    · exact .inr hmax
  · exact hcomp

theorem Owned.readUntilDelim (h : Owned io) {hit : Option ℕ} (hsafe : Safe io (.readUntilDelim hit)) :
    Owned (evioReadUntilDelim hit io) := by
  cases hit with
  | some n => exact h.consume n
  | none =>
    refine Owned.read ?_
    split_ifs with hfit
    · refine h.alloc ?_
      rcases hsafe with hr | hnot | hmax
      · exact .inl hr
      · exact absurd (hnot.symm.trans hfit) (by decide)
      · exact .inr hmax
    · exact h

theorem Owned.unsetUnpack (h : Owned io) : Owned (evioUnsetUnpack io) := by
  unfold evioUnsetUnpack
  split_ifs
  · have h₁ : Marked { io with unpackSetting := none } := ⟨h.alloced, h.shared, h.faults⟩
    exact h₁.free.1
  · exact h

theorem unsetUnpack_ready (io : Owner) : (evioUnsetUnpack io).ready = io.ready := by
  unfold evioUnsetUnpack evioFreeReadbuf free
  split_ifs
  · dsimp only
    cases io.base with
    | foreign f => rfl
    | heap b =>
      dsimp only
      split_ifs <;> rfl
  · rfl
  · rfl

theorem Owned.setUnpack (h : Owned io) {setting : Option UnpackSetting} (hsafe : Safe io (.setUnpack setting))
    (hstep : evioSetUnpack setting io = some io') : Owned io' := by
  unfold evioSetUnpack at hstep
  have h₁ := h.unsetUnpack
  cases setting with
  | none =>
    cases hstep
    exact h₁
  | some setting =>
    obtain ⟨⟨len, limit⟩, -, hstep⟩ := Option.bind_eq_some_iff.mp hstep
    cases hstep
    have hr : (evioUnsetUnpack io).ready = true := (unsetUnpack_ready io).trans hsafe
    have h₂ : Owned { evioUnsetUnpack io with unpackSetting := some setting, len := len, maxReadBufsize := limit } :=
      ⟨⟨h₁.alloced, h₁.shared, h₁.faults⟩, h₁.idle⟩
    exact h₂.alloc (.inl hr)

theorem Owned.done (h : Owned io) : Owned (evioDone io) := by
  unfold evioDone
  split_ifs
  · have h₁ : Marked { io with ready := false } := ⟨h.alloced, h.shared, h.faults⟩
    exact h₁.free.1
  · exact h

theorem Owned.step (h : Owned io) {op : Op} (hsafe : Safe io op) (hstep : step io op = some io') : Owned io' := by
  cases op with
  | setUnpack setting => exact h.setUnpack hsafe hstep
  | ready =>
    cases hstep
    exact h.ready
  | setReadbuf buf len =>
    cases hstep
    obtain ⟨h₁, ha⟩ := h.toMarked.free
    exact ⟨⟨fun hc => (by cases hc), fun _ => ⟨⟨buf, rfl⟩, (h₁.shared ha).2⟩, h₁.faults⟩, fun _ => rfl⟩
  | hread buf =>
    cases hstep
    refine Owned.read ?_
    cases buf with
    | none => exact h.ready
    | some buf =>
      have ha : (evioReady io).alloced = false := by
        unfold evioReady
        split_ifs with hr
        · exact hsafe hr
        · rfl
      exact h.ready.foreign ha buf.1 buf.2
  | readUntilLength len =>
    cases hstep
    exact h.readUntilLength hsafe
  | readUntilDelim hit =>
    cases hstep
    exact h.readUntilDelim hsafe
  | unsetUnpack =>
    cases hstep
    exact h.unsetUnpack
  | detach =>
    cases hstep
    exact h
  | attach loop =>
    cases hstep
    have h₁ := h.foreign hsafe (.loop loop) evloopReadBufsize
    exact ⟨⟨h₁.alloced, h₁.shared, h₁.faults⟩, h₁.idle⟩
  | done =>
    cases hstep
    exact h.done
  | close =>
    cases hstep
    split_ifs
    · exact h
    · have h₁ : Owned { io with closed := true } := ⟨⟨h.alloced, h.shared, h.faults⟩, h.idle⟩
      exact h₁.done
  | resize len =>
    cases hstep
    exact h.alloc hsafe
  | move head tail =>
    cases hstep
    exact h.move head tail
  | setMaxReadBufsize size =>
    cases hstep
    exact ⟨⟨h.alloced, h.shared, h.faults⟩, h.idle⟩

instance (io : Owner) : (op : Op) → Decidable (Safe io op)
  | .hread (some _) => inferInstanceAs (Decidable (io.ready = true → io.alloced = false))
  | .attach _ => inferInstanceAs (Decidable (io.alloced = false))
  | .readUntilLength _ => inferInstanceAs (Decidable (_ ∨ _ ∨ _ ∨ _))
  | .readUntilDelim none => inferInstanceAs (Decidable (_ ∨ _ ∨ _))
  | .setUnpack (some _) => inferInstanceAs (Decidable (io.ready = true))
  | .resize _ => inferInstanceAs (Decidable (_ ∨ _))
  | .hread none | .readUntilDelim (some _) | .setUnpack none | .ready | .setReadbuf .. | .unsetUnpack | .detach | .done
  | .close | .move .. | .setMaxReadBufsize _ => isTrue trivial

end Yjc.Readbuf
