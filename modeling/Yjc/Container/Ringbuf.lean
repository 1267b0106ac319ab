import Yjc.Lib.Cyclic
import Yjc.Lib.Run
import Mathlib.Logic.Function.Basic
import Mathlib.Tactic.SplitIfs

/-! `container/ringbuf.c`: a ring of bytes in which `start = end` is an empty or a full buffer, as `empty` says. -/

namespace Yjc
open Mem Cyclic

structure Ringbuf where
  size : ℕ
  start : ℕ
  end_ : ℕ
  empty : Bool
  data : List UInt8

namespace Ringbuf

def new (size : ℕ) : Ringbuf := ⟨size, 0, 0, true, List.replicate size 0⟩

def remain (buf : Ringbuf) : ℕ :=
  let diff : ℤ := buf.end_ - buf.start
  let diff := diff + if diff = 0 ∧ buf.empty = false then (buf.size : ℤ) else 0
  let diff := diff + if diff < 0 then (buf.size : ℤ) else 0
  diff.toNat

def space (buf : Ringbuf) : ℕ := buf.size - buf.remain

/-- `none`: a copy that leaves one of its two blocks. -/
def memcpy (dst : List UInt8) (d : ℕ) (src : List UInt8) (s n : ℕ) : Option (List UInt8) :=
  if d + n ≤ dst.length ∧ s + n ≤ src.length then some (store dst d (slice src s (s + n))) else none

/-- The copies of `ringbuf_put`, and where the data ends after them. -/
def copyIn (buf : Ringbuf) (src : List UInt8) (tocopy : ℕ) : Option (List UInt8 × ℕ) :=
  if buf.size - buf.end_ ≤ tocopy then do
    let ts := buf.size - buf.end_
    let data ← memcpy buf.data buf.end_ src 0 ts
    let data ← memcpy data 0 src ts (tocopy - ts)
    some (data, 0 + (tocopy - ts))
  else do
    let data ← memcpy buf.data buf.end_ src 0 tocopy
    some (data, buf.end_ + tocopy)

/-- The copies of `ringbuf_get` and `ringbuf_peek`, and where they leave off. -/
def copyOut (buf : Ringbuf) (cstart : ℕ) (dst : List UInt8) (tocopy : ℕ) : Option (List UInt8 × ℕ) :=
  if buf.size - cstart ≤ tocopy then do
    let ts := buf.size - cstart
    let dst ← memcpy dst 0 buf.data cstart ts
    let dst ← memcpy dst ts buf.data 0 (tocopy - ts)
    some (dst, 0 + (tocopy - ts))
  else do
    let dst ← memcpy dst 0 buf.data cstart tocopy
    some (dst, cstart + tocopy)

/-- `src` are the bytes of the caller. -/
def put (src : List UInt8) (buf : Ringbuf) : Option (ℕ × Ringbuf) := do
  let copysize := min src.length buf.space
  let r ← copyIn buf src copysize
  some (copysize,
    { buf with data := r.1, end_ := r.2, empty := decide (buf.start = r.2) && (buf.empty && decide (copysize = 0)) })

/-- `dst` is the buffer of the caller. -/
def get (dst : List UInt8) (buf : Ringbuf) : Option (ℕ × List UInt8 × Ringbuf) := do
  let copysize := min buf.remain dst.length
  let r ← copyOut buf buf.start dst copysize
  some (copysize, r.1,
    { buf with start := r.2, empty := decide (r.2 = buf.end_) && (buf.empty || decide (copysize ≠ 0)) })

def peek (offset : ℕ) (dst : List UInt8) (buf : Ringbuf) : Option (ℕ × List UInt8) :=
  if buf.remain ≤ offset then some (0, dst)
  else do
    let copysize := max (min (buf.remain - offset) dst.length) 0
    let r ← copyOut buf ((buf.start + offset) % buf.size) dst copysize
    some (copysize, r.1)

def copy (to_ from_ : Ringbuf) (size : ℕ) : Option (ℕ × Ringbuf) := do
  let tocopy := min to_.space size
  let r ← from_.peek 0 (List.replicate tocopy 0)
  to_.put (r.2.take r.1)

def reset (buf : Ringbuf) : Ringbuf := { buf with start := 0, end_ := 0, empty := true }

def wipe (buf : Ringbuf) : Ringbuf := reset { buf with data := List.replicate buf.size 0 }

inductive Op (ι : Type*)
  | put (i : ι) (src : List UInt8)
  | get (i : ι) (dst : List UInt8)
  | peek (i : ι) (offset : ℕ) (dst : List UInt8)
  | copy (to_ from_ : ι) (size : ℕ)
  | reset (i : ι)
  | wipe (i : ι)

def step {ι : Type*} [DecidableEq ι] (s : ι → Ringbuf) : Op ι → Option (ι → Ringbuf)
  | .put i src => ((s i).put src).map fun r => Function.update s i r.2
  | .get i dst => ((s i).get dst).map fun r => Function.update s i r.2.2
  | .peek i offset dst => ((s i).peek offset dst).map fun _ => s
  | .copy to_ from_ size => ((s to_).copy (s from_) size).map fun r => Function.update s to_ r.2
  | .reset i => some (Function.update s i (s i).reset)
  | .wipe i => some (Function.update s i (s i).wipe)

def fifoStep {ι : Type*} [DecidableEq ι] (size : ι → ℕ) (c : ι → List UInt8) : Op ι → ι → List UInt8
  | .put i src => Function.update c i (c i ++ src.take (size i - (c i).length))
  | .get i dst => Function.update c i ((c i).drop dst.length)
  | .peek .. => c
  | .copy to_ from_ n => Function.update c to_ (c to_ ++ (c from_).take (min (size to_ - (c to_).length) n))
  | .reset i | .wipe i => Function.update c i []

/-! ## The bytes of a buffer -/

/-- The bytes from `start` on, past the end of the data from its beginning. -/
def content (buf : Ringbuf) : List UInt8 := (buf.data.rotate buf.start).take buf.remain

structure Ok (buf : Ringbuf) : Prop where
  data : buf.data.length = buf.size
  start : buf.start < buf.size
  end_ : buf.end_ < buf.size
  empty : buf.empty = true → buf.start = buf.end_

variable {buf : Ringbuf}

theorem remain_eq_iff (h : buf.Ok) {r : ℕ} :
    buf.remain = r ↔ r ≤ buf.size ∧ (buf.start + r = buf.end_ ∨ buf.start + r = buf.end_ + buf.size) ∧
      (buf.empty = true ↔ r = 0) := by
  have hs := h.start
  have he := h.end_
  unfold remain
  dsimp only
  cases hempty : buf.empty with
  | true =>
    have hse := h.empty hempty
    rw [hse, Int.sub_self, if_neg fun hc => Bool.noConfusion hc.2, if_neg (by omega)]
    constructor
    · rintro rfl
      refine ⟨by omega, .inl (by omega), ?_⟩
      simp
    · rintro ⟨-, -, hr⟩
      simp [hr.mp rfl]
  | false =>
    simp only [Bool.false_eq_true, false_iff, and_true]
    split_ifs <;> omega

theorem remain_le (h : buf.Ok) : buf.remain ≤ buf.size := ((remain_eq_iff h).mp rfl).1

theorem empty_iff (h : buf.Ok) : buf.empty = true ↔ buf.remain = 0 := ((remain_eq_iff h).mp rfl).2.2

theorem start_add_remain (h : buf.Ok) : buf.start + buf.remain = buf.end_ ∨ buf.start + buf.remain = buf.end_ + buf.size :=
  ((remain_eq_iff h).mp rfl).2.1

theorem length_content (h : buf.Ok) : buf.content.length = buf.remain := by
  rw [content, List.length_take, List.length_rotate, h.data, Nat.min_eq_left (remain_le h)]

/-- `n` bytes from `i` on come to `p`. -/
def Ahead (size i n p : ℕ) : Prop := p < size ∧ (i + n = p ∨ i + n = p + size)

theorem Ahead.rotate {size i n p : ℕ} (h : Ahead size i n p) {m : List UInt8} (hm : m.length = size) :
    m.rotate p = m.rotate (i + n) := by
  rcases h.2 with he | he
  · rw [he]
  · rw [he, ← hm, ← rotate_sub_length (Nat.le_add_left ..), Nat.add_sub_cancel]

/-! ## The copies -/

theorem memcpy_eq {dst src : List UInt8} {d s n : ℕ} (hd : d + n ≤ dst.length) (hs : s + n ≤ src.length) :
    memcpy dst d src s n = some (store dst d (slice src s (s + n))) := if_pos ⟨hd, hs⟩

theorem copyOut_eq (hdata : buf.data.length = buf.size) {cstart tocopy : ℕ} {dst : List UInt8} (hstart : cstart < buf.size)
    (hsize : tocopy ≤ buf.size) (hdst : tocopy ≤ dst.length) :
    ∃ p, copyOut buf cstart dst tocopy = some ((buf.data.rotate cstart).take tocopy ++ dst.drop tocopy, p) ∧
      Ahead buf.size cstart tocopy p := by
  unfold copyOut
  split_ifs with hwrap
  · have hfirst : (slice buf.data cstart (cstart + (buf.size - cstart))).length = buf.size - cstart := by
      rw [length_slice (by omega)]
      omega
    have hmid : (store dst 0 (slice buf.data cstart (cstart + (buf.size - cstart)))).length = dst.length :=
      length_store (by omega)
    dsimp only
    rw [memcpy_eq (by omega) (by omega), Option.bind_eq_bind, Option.bind_some, memcpy_eq (by omega) (by omega), Option.bind_some]
    refine ⟨_, congrArg (fun l => some (l, _)) ?_, by omega, by omega⟩
    have hjoin := store_store_append (slice buf.data cstart (cstart + (buf.size - cstart)))
      (slice buf.data 0 (0 + (tocopy - (buf.size - cstart)))) (Nat.zero_le dst.length)
    rw [hfirst, Nat.zero_add] at hjoin
    rw [hjoin, store_zero, List.length_append, hfirst, length_slice (by omega), take_rotate_wrap (by omega) (by omega) (by omega),
      hdata, show cstart + (buf.size - cstart) = buf.size by omega]
    congr 2
    · rw [Nat.zero_add]
    · omega
  · rw [memcpy_eq (by omega) (by omega), Option.bind_eq_bind, Option.bind_some]
    refine ⟨_, congrArg (fun l => some (l, _)) ?_, by omega, by omega⟩
    rw [take_rotate (by omega), store_zero, length_slice (by omega)]
    congr 2
    omega

theorem copyIn_eq (h : buf.Ok) {src : List UInt8} {tocopy : ℕ} (hsize : tocopy ≤ buf.size) (hsrc : tocopy ≤ src.length) :
    ∃ data p, copyIn buf src tocopy = some (data, p) ∧ data.length = buf.size ∧
      data.rotate buf.end_ = src.take tocopy ++ (buf.data.rotate buf.end_).drop tocopy ∧ Ahead buf.size buf.end_ tocopy p := by
  have hdata := h.data
  have hend := h.end_
  unfold copyIn
  split_ifs with hwrap
  · have hfirst : (slice src 0 (0 + (buf.size - buf.end_))).length = buf.size - buf.end_ := by
      rw [length_slice (by omega)]
      omega
    have hmid : (store buf.data buf.end_ (slice src 0 (0 + (buf.size - buf.end_)))).length = buf.data.length :=
      length_store (by omega)
    have hrest : (slice src (buf.size - buf.end_) (buf.size - buf.end_ + (tocopy - (buf.size - buf.end_)))).length =
        tocopy - (buf.size - buf.end_) := by
      rw [length_slice (by omega)]
      omega
    dsimp only
    rw [memcpy_eq (by omega) (by omega), Option.bind_eq_bind, Option.bind_some, memcpy_eq (by omega) (by omega), Option.bind_some]
    refine ⟨_, _, rfl, ?_, ?_, by omega, by omega⟩
    · rw [length_store (by omega), hmid, hdata]
    · rw [rotate_store_wrap (by omega) (by omega) (by omega), hfirst, hrest, Nat.zero_add,
        slice_append_slice (by omega) (by omega), slice_zero, show buf.size - buf.end_ + (tocopy - (buf.size - buf.end_)) = tocopy by omega]
  · rw [memcpy_eq (by omega) (by omega), Option.bind_eq_bind, Option.bind_some]
    have hlen : (slice src 0 (0 + tocopy)).length = tocopy := by
      rw [length_slice (by omega)]
      omega
    refine ⟨_, _, rfl, ?_, ?_, by omega, by omega⟩
    · rw [length_store (by omega), hdata]
    · rw [rotate_store (by omega), hlen, Nat.zero_add, slice_zero]

/-! ## The operations -/

theorem take_min_length {α : Type*} (l : List α) (n : ℕ) : l.take (min l.length n) = l.take n := by
  rcases Nat.le_total l.length n with h | h
  · rw [Nat.min_eq_left h, List.take_length, List.take_of_length_le h]
  · rw [Nat.min_eq_right h]

theorem drop_min_length {α : Type*} (l : List α) (n : ℕ) : l.drop (min l.length n) = l.drop n := by
  rcases Nat.le_total l.length n with h | h
  · rw [Nat.min_eq_left h, List.drop_length, List.drop_eq_nil_of_le h]
  · rw [Nat.min_eq_right h]

theorem put_eq (h : buf.Ok) (src : List UInt8) :
    ∃ buf', put src buf = some (min src.length buf.space, buf') ∧ buf'.Ok ∧ buf'.size = buf.size ∧
      buf'.content = buf.content ++ src.take (min src.length buf.space) := by
  have hle := remain_le h
  have hstart := h.start
  have hnext := start_add_remain h
  have hempty := empty_iff h
  have hspace : buf.space = buf.size - buf.remain := rfl
  have hlensrc := Nat.min_le_left src.length buf.space
  have hlenspace := Nat.min_le_right src.length buf.space
  obtain ⟨data, p, hcopy, hlen, hrot, hp, hahead⟩ := copyIn_eq h (Nat.le_trans hlenspace (by omega)) hlensrc
  unfold put
  dsimp only
  rw [hcopy, Option.bind_eq_bind, Option.bind_some]
  generalize min src.length buf.space = c at *
  have hok : Ok { buf with data := data, end_ := p, empty := decide (buf.start = p) && (buf.empty && decide (c = 0)) } :=
    ⟨hlen, hstart, hp, fun he => of_decide_eq_true ((Bool.and_eq_true ..).mp he).1⟩
  refine ⟨_, rfl, hok, rfl, ?_⟩
  have hremain : remain { buf with data := data, end_ := p, empty := decide (buf.start = p) && (buf.empty && decide (c = 0)) } =
      buf.remain + c := by
    rw [remain_eq_iff hok]
    simp only [Bool.and_eq_true, decide_eq_true_eq, hempty]
    omega
  have hxs : (src.take c).length = c := by rw [List.length_take, Nat.min_eq_left hlensrc]
  have hread : Ahead buf.size buf.start buf.remain buf.end_ := ⟨h.end_, hnext⟩
  rw [hread.rotate hlen, hread.rotate h.data] at hrot
  have hwritten : (data.rotate buf.start).take (buf.remain + (src.take c).length) =
      (buf.data.rotate buf.start).take buf.remain ++ src.take c := by
    refine take_rotate_of_written (hlen.trans h.data.symm) (by rw [hxs, h.data]; omega) ?_
    rw [hxs]
    exact hrot
  rw [hxs] at hwritten
  rw [content, hremain]
  exact hwritten

theorem get_eq (h : buf.Ok) (dst : List UInt8) :
    ∃ buf', get dst buf = some (min buf.remain dst.length,
        buf.content.take (min buf.remain dst.length) ++ dst.drop (min buf.remain dst.length), buf') ∧ buf'.Ok ∧
      buf'.size = buf.size ∧ buf'.content = buf.content.drop (min buf.remain dst.length) := by
  have hle := remain_le h
  have hend := h.end_
  have hstart := h.start
  have hnext := start_add_remain h
  have hempty := empty_iff h
  have hlenremain := Nat.min_le_left buf.remain dst.length
  have hlendst := Nat.min_le_right buf.remain dst.length
  obtain ⟨p, hcopy, hread⟩ := copyOut_eq h.data hstart (Nat.le_trans hlenremain hle) hlendst
  have hp := hread.1
  have hahead := hread.2
  have htake : buf.content.take (min buf.remain dst.length) = (buf.data.rotate buf.start).take (min buf.remain dst.length) := by
    rw [content, List.take_take, Nat.min_eq_left hlenremain]
  unfold get
  dsimp only
  rw [hcopy, Option.bind_eq_bind, Option.bind_some, htake]
  generalize min buf.remain dst.length = c at *
  have hok : Ok { buf with start := p, empty := decide (p = buf.end_) && (buf.empty || decide (c ≠ 0)) } :=
    ⟨h.data, hp, hend, fun he => of_decide_eq_true ((Bool.and_eq_true ..).mp he).1⟩
  refine ⟨_, rfl, hok, rfl, ?_⟩
  have hremain : remain { buf with start := p, empty := decide (p = buf.end_) && (buf.empty || decide (c ≠ 0)) } =
      buf.remain - c := by
    rw [remain_eq_iff hok]
    simp only [Bool.and_eq_true, Bool.or_eq_true, decide_eq_true_eq, hempty]
    omega
  have hsplit : (buf.data.rotate buf.start).rotate c = (buf.data.rotate buf.start).drop c ++ (buf.data.rotate buf.start).take c :=
    List.rotate_eq_drop_append_take (by rw [List.length_rotate, h.data]; omega)
  rw [content, hremain, hread.rotate h.data, ← List.rotate_rotate, hsplit, content, List.drop_take,
    List.take_append_of_le_length (by rw [List.length_drop, List.length_rotate, h.data]; omega)]

theorem peek_eq (h : buf.Ok) (offset : ℕ) (dst : List UInt8) :
    peek offset dst buf = some (min (buf.remain - offset) dst.length,
      slice buf.content offset (offset + min (buf.remain - offset) dst.length) ++
        dst.drop (min (buf.remain - offset) dst.length)) := by
  have hle := remain_le h
  have hstart := h.start
  unfold peek
  split_ifs with hoff
  · rw [Nat.sub_eq_zero_of_le hoff, Nat.zero_min, Nat.add_zero, slice_self, List.drop_zero, List.nil_append]
  · have hmin := Nat.min_le_left (buf.remain - offset) dst.length
    obtain ⟨p, hcopy, -⟩ := copyOut_eq h.data (Nat.mod_lt (buf.start + offset) (by omega)) (Nat.le_trans hmin (by omega))
      (Nat.min_le_right (buf.remain - offset) dst.length)
    have hrot : buf.data.rotate ((buf.start + offset) % buf.size) = (buf.data.rotate buf.start).rotate offset := by
      rw [← h.data, List.rotate_mod, List.rotate_rotate]
    have hsplit : (buf.data.rotate buf.start).rotate offset =
        (buf.data.rotate buf.start).drop offset ++ (buf.data.rotate buf.start).take offset :=
      List.rotate_eq_drop_append_take (by rw [List.length_rotate, h.data]; omega)
    dsimp only
    rw [Nat.max_eq_left (Nat.zero_le _), hcopy, Option.bind_eq_bind, Option.bind_some, hrot, hsplit,
      List.take_append_of_le_length (by rw [List.length_drop, List.length_rotate, h.data]; omega), List.take_drop, content,
      slice_take (by omega), slice]

theorem copy_eq {to_ from_ : Ringbuf} (h : to_.Ok) (h' : from_.Ok) (size : ℕ) :
    ∃ buf', copy to_ from_ size = some (min from_.remain (min to_.space size), buf') ∧ buf'.Ok ∧ buf'.size = to_.size ∧
      buf'.content = to_.content ++ from_.content.take (min to_.space size) := by
  have hlen := length_content h'
  unfold copy
  dsimp only
  rw [peek_eq h', Option.bind_eq_bind, Option.bind_some]
  dsimp only
  rw [List.length_replicate, Nat.sub_zero, Nat.zero_add, slice_zero, ← hlen, take_min_length]
  have hlentake : (from_.content.take (min to_.space size)).length = min from_.content.length (min to_.space size) := by
    rw [List.length_take, Nat.min_comm]
  obtain ⟨buf', hput, hok, hsize, hcontent⟩ := put_eq h (from_.content.take (min to_.space size))
  rw [List.take_left' hlentake]
  refine ⟨buf', ?_, hok, hsize, ?_⟩
  · rw [hput, hlentake, Nat.min_eq_left (by omega)]
  · rw [hcontent, take_min_length, List.take_take, Nat.min_eq_right (Nat.min_le_left ..)]

theorem reset_eq (h : buf.Ok) : buf.reset.Ok ∧ buf.reset.content = [] := by
  have hpos := Nat.lt_of_le_of_lt (Nat.zero_le _) h.start
  have hok : buf.reset.Ok := ⟨h.data, hpos, hpos, fun _ => rfl⟩
  refine ⟨hok, ?_⟩
  rw [content, (empty_iff hok).mp rfl, List.take_zero]

theorem wipe_eq (h : buf.Ok) : buf.wipe.Ok ∧ buf.wipe.content = [] := by
  have hwiped : Ok { buf with data := List.replicate buf.size 0 } := ⟨List.length_replicate, h.start, h.end_, h.empty⟩
  exact reset_eq hwiped

/-! ## Sequences of operations -/

section
variable {ι : Type*} [DecidableEq ι] {size : ι → ℕ} {s : ι → Ringbuf} {c : ι → List UInt8}

structure Holds (size : ι → ℕ) (s : ι → Ringbuf) (c : ι → List UInt8) : Prop where
  ok : ∀ i, (s i).Ok
  size : ∀ i, (s i).size = size i
  content : ∀ i, (s i).content = c i

omit [DecidableEq ι] in
theorem Holds.space (h : Holds size s c) (i : ι) : (s i).space = size i - (c i).length := by
  rw [Ringbuf.space, h.size, ← h.content, length_content (h.ok i)]

theorem Holds.update (h : Holds size s c) {i : ι} {buf : Ringbuf} {l : List UInt8} (hok : buf.Ok)
    (hsize : buf.size = (s i).size) (hcontent : buf.content = l) :
    Holds size (Function.update s i buf) (Function.update c i l) := by
  refine ⟨fun j => ?_, fun j => ?_, fun j => ?_⟩
  · rcases eq_or_ne j i with rfl | hj
    · rw [Function.update_self]
      exact hok
    · rw [Function.update_of_ne hj]
      exact h.ok j
  · rcases eq_or_ne j i with rfl | hj
    · rw [Function.update_self, hsize, h.size]
    · rw [Function.update_of_ne hj, h.size]
  · rcases eq_or_ne j i with rfl | hj
    · rw [Function.update_self, Function.update_self, hcontent]
    · rw [Function.update_of_ne hj, Function.update_of_ne hj, h.content]

theorem Holds.step (h : Holds size s c) (op : Op ι) : ∃ s', step s op = some s' ∧ Holds size s' (fifoStep size c op) := by
  cases op with
  | put i src =>
    obtain ⟨buf, hput, hok, hsize, hcontent⟩ := put_eq (h.ok i) src
    refine ⟨Function.update s i buf, ?_, h.update hok hsize ?_⟩
    · rw [Ringbuf.step, hput, Option.map_some]
    · rw [hcontent, take_min_length, h.content, h.space]
  | get i dst =>
    obtain ⟨buf, hget, hok, hsize, hcontent⟩ := get_eq (h.ok i) dst
    refine ⟨Function.update s i buf, ?_, h.update hok hsize ?_⟩
    · rw [Ringbuf.step, hget, Option.map_some]
    · rw [hcontent, ← length_content (h.ok i), drop_min_length, h.content]
  | peek i offset dst =>
    refine ⟨s, ?_, h⟩
    rw [Ringbuf.step, peek_eq (h.ok i), Option.map_some]
  | copy to_ from_ n =>
    obtain ⟨buf, hcopy, hok, hsize, hcontent⟩ := copy_eq (h.ok to_) (h.ok from_) n
    refine ⟨Function.update s to_ buf, ?_, h.update hok hsize ?_⟩
    · rw [Ringbuf.step, hcopy, Option.map_some]
    · rw [hcontent, h.content, h.content, h.space]
  | reset i =>
    obtain ⟨hok, hcontent⟩ := reset_eq (h.ok i)
    exact ⟨_, rfl, h.update hok rfl hcontent⟩
  | wipe i =>
    obtain ⟨hok, hcontent⟩ := wipe_eq (h.ok i)
    exact ⟨_, rfl, h.update hok rfl hcontent⟩

theorem ok_new {n : ℕ} (hn : 1 ≤ n) : (new n).Ok ∧ (new n).content = [] := by
  have hok : (new n).Ok := ⟨List.length_replicate, hn, hn, fun _ => rfl⟩
  refine ⟨hok, ?_⟩
  rw [Ringbuf.content, (empty_iff hok).mp rfl, List.take_zero]

/-- What a caller can count on: the bounds, the bytes that are there, and what each operation makes of them. -/
structure Fifo (buf : Ringbuf) (size : ℕ) (l : List UInt8) : Prop where
  data : buf.data.length = size
  start : buf.start < size
  end_ : buf.end_ < size
  content : (buf.data.rotate buf.start).take buf.remain = l
  space : buf.remain + buf.space = size
  put : ∀ src, ∃ buf', buf.put src = some (min src.length buf.space, buf') ∧
    buf'.content = l ++ src.take (min src.length buf.space)
  get : ∀ dst, ∃ buf', buf.get dst = some (min buf.remain dst.length,
      l.take (min buf.remain dst.length) ++ dst.drop (min buf.remain dst.length), buf') ∧
    buf'.content = l.drop (min buf.remain dst.length)
  peek : ∀ offset dst, buf.peek offset dst = some (min (buf.remain - offset) dst.length,
    slice l offset (offset + min (buf.remain - offset) dst.length) ++ dst.drop (min (buf.remain - offset) dst.length))

theorem Ok.fifo (h : buf.Ok) : Fifo buf buf.size buf.content := by
  refine ⟨h.data, h.start, h.end_, rfl, Nat.add_sub_cancel' (remain_le h), fun src => ?_, fun dst => ?_, peek_eq h⟩
  · obtain ⟨buf', hput, -, -, hcontent⟩ := put_eq h src
    exact ⟨buf', hput, hcontent⟩
  · obtain ⟨buf', hget, -, -, hcontent⟩ := get_eq h dst
    exact ⟨buf', hget, hcontent⟩

/-- Every run comes to its end without a copy beyond a block, and each buffer is the bounded queue of its bytes. -/
theorem ringbuf_refines_fifo (size : ι → ℕ) (hsize : ∀ i, 1 ≤ size i) (ops : List (Op ι)) :
    ∃ s, Run.exec Ringbuf.step (fun i => new (size i)) ops = some s ∧
      ∀ i, Fifo (s i) (size i) (ops.foldl (fifoStep size) (fun _ => []) i) := by
  have hinit : Holds size (fun i => new (size i)) fun _ => [] :=
    ⟨fun i => (ok_new (hsize i)).1, fun _ => rfl, fun i => (ok_new (hsize i)).2⟩
  have hgood : ∀ (hist : List (Op ι)) s op, Holds size s (hist.foldl (fifoStep size) fun _ => []) → True →
      ∃ s', Ringbuf.step s op = some s' ∧ Holds size s' ((hist ++ [op]).foldl (fifoStep size) fun _ => []) := by
    intro hist s op h _
    rw [List.foldl_append]
    exact h.step op
  have hall : Run.Along Ringbuf.step (fun _ _ => True) (fun i => new (size i)) ops :=
    Run.along_of_forall (fun _ _ => trivial) _ ops
  obtain ⟨s, hs, h⟩ := Run.exec_of_along (fun hist s => Holds size s (hist.foldl (fifoStep size) fun _ => [])) hgood [] hinit
    hall
  refine ⟨s, hs, fun i => ?_⟩
  have hcontent : (s i).content = ops.foldl (fifoStep size) (fun _ => []) i := h.content i
  rw [← h.size i, ← hcontent]
  exact (h.ok i).fifo

theorem ringbuf_refines_fifo_sample :
    ∃ s, Run.exec Ringbuf.step (fun _ : Bool => new 3) [.put true [1, 2, 3, 4], .get true [0, 0], .put true [5],
        .copy false true 9, .peek true 1 [0]] = some s ∧
      ∀ i, Fifo (s i) 3 ([.put true [1, 2, 3, 4], .get true [0, 0], .put true [5], .copy false true 9,
        .peek true 1 [0]].foldl (fifoStep fun _ => 3) (fun _ => []) i) :=
  ringbuf_refines_fifo (fun _ => 3) (fun _ => by decide) _

end
end Ringbuf
end Yjc
