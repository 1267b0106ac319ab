import Yjc.Lib.Loop
import Yjc.Lib.Mem
import Yjc.Lib.Run
import Mathlib.Tactic.SplitIfs

/-! `container/buffer.c`: output in chunks of one size, of which a write to the descriptor takes what it likes. -/

namespace Yjc
open Mem

/-- A chunk: the bytes `[sp, cp)` of its memory are pending. -/
structure BufferData where
  cp : ℕ
  sp : ℕ
  data : List UInt8

/-- The chunks from `head` to `tail`. -/
structure Buffer where
  head : List BufferData
  size : ℕ

inductive BufferStatus
  | error | empty | pending
deriving DecidableEq

/-- What a write does: it takes `1 + n % total` of the bytes that it is called with, or fails. -/
inductive SysWrite
  | took (n : ℕ)
  | again
  | intr
  | fatal
deriving DecidableEq

/-- The buffer, the bytes that the descriptor has taken, and whether `errno` is `EINTR`. -/
structure Output where
  b : Buffer
  fd : List UInt8
  eintr : Bool

namespace Buffer

def new (size : ℕ) : Buffer := ⟨[], size⟩

def tail (b : Buffer) : Option BufferData := b.head.getLast?

def add (b : Buffer) : Buffer := { b with head := b.head ++ [⟨0, 0, List.replicate b.size 0⟩] }

/-- Adds a chunk if there is none, or the last one is full. -/
def room (b : Buffer) : Buffer :=
  match b.tail with
  | none => b.add
  | some data => if data.cp = b.size then b.add else b

/-- A copy to the end of the last chunk; `none` outside of its memory. -/
def copy (xs : List UInt8) (b : Buffer) : Option Buffer :=
  b.tail.bind fun d => (write d.data d.cp xs).map fun data =>
    { b with head := b.head.dropLast ++ [{ d with cp := d.cp + xs.length, data }] }

/-- The body of the loop of `buffer_put`, with the bytes that are left. -/
def putRound (s : List UInt8 × Buffer) : List UInt8 × Buffer ⊕ Option Buffer :=
  if s.1 = [] then .inr (some s.2)
  else
    let b := s.2.room
    match b.tail with
    | none => .inr none
    | some data =>
      let chunk := if s.1.length ≤ b.size - data.cp then s.1.length else b.size - data.cp
      match b.copy (s.1.take chunk) with
      | none => .inr none
      | some b => .inl (s.1.drop chunk, b)

def put (p : List UInt8) (b : Buffer) : Option Buffer := (Loop.run putRound (p.length + 1) (p, b)).join

def putc (c : UInt8) (b : Buffer) : Option Buffer := b.put [c]

def strlen (c : List UInt8) : ℕ := (c.takeWhile (· != 0)).length

def putstr (c : List UInt8) (b : Buffer) : Option Buffer := b.put (c.take (strlen c))

/-- The first line feed from `p` on. -/
def memchrLf (m : List UInt8) (p : ℕ) : Option ℕ := ((m.drop p).findIdx? (· == 10)).map (p + ·)

/-- The body of the loop of `buffer_put_crlf`, with `p`, `lf` and the buffer. -/
def crlfRound (orig : List UInt8) (s : ℕ × Option ℕ × Buffer) : ℕ × Option ℕ × Buffer ⊕ Option Buffer :=
  let (p, lf, b) := s
  if p < orig.length then
    let b := b.room
    match b.tail with
    | none => .inr none
    | some data =>
      let size := lf.getD orig.length - p
      let avail := b.size - data.cp
      let chunk := if size ≤ avail then size else avail
      match b.copy (slice orig p (p + chunk)) with
      | none => .inr none
      | some b =>
        let p := p + chunk
        if lf.isSome ∧ size ≤ avail then
          match (b.room.copy [13]).bind fun b => b.room.copy [10] with
          | none => .inr none
          | some b => .inl (p + 1, memchrLf orig (p + 1), b)
        else .inl (p, lf, b)
  else .inr (some b)

def putCrlf (orig : List UInt8) (b : Buffer) : Option Buffer :=
  (Loop.run (crlfRound orig) (orig.length + 1) (0, memchrLf orig 0, b)).join

def maxChunks : ℕ := 16

def maxFlush : ℕ := 131072

/-- The vector that is written: `k` more chunks at most, `nbyte` bytes so far. -/
def gather : ℕ → ℕ → List BufferData → List (List UInt8)
  | k + 1, nbyte, d :: ds =>
    if nbyte < maxFlush then
      slice d.data d.sp d.cp :: gather k (nbyte + (slice d.data d.sp d.cp).length) ds
    else []
  | _, _, _ => []

/-- What is left of the chunks after `written` bytes. -/
def drain (written : ℕ) : List BufferData → List BufferData × BufferStatus
  | [] => ([], .empty)
  | d :: ds =>
    if written = 0 then (d :: ds, .pending)
    else if written < d.cp - d.sp then ({ d with sp := d.sp + written } :: ds, .pending)
    else drain (written - (d.cp - d.sp)) ds

/-- The bytes that a write of `total` bytes takes. -/
def taken (n total : ℕ) : ℕ := if total = 0 then 0 else 1 + n % total

end Buffer

namespace Output
open Buffer

def flushAvailable (r : SysWrite) (s : Output) : BufferStatus × Output :=
  let iov := (gather maxChunks 0 s.b.head).flatten
  if iov.length = 0 then (.empty, s)
  else
    match r with
    | .took n =>
      let written := taken n iov.length
      let (head, status) := drain written s.b.head
      (status, { s with b := { s.b with head }, fd := s.fd ++ iov.take written })
    | .again => (.pending, { s with eintr := false })
    | .intr => (.pending, { s with eintr := true })
    | .fatal => (.error, { s with eintr := false })

def headSp (s : Output) : ℕ := (s.b.head.head?.map BufferData.sp).getD 0

/-- The loop of `buffer_flush_all`, over what the writes do; no status when there is none left. The head is the same chunk when as
many are there. -/
def flushLoop : List SysWrite → ℕ → ℕ → Output → Option BufferStatus × Output
  | [], _, _, s => (none, s)
  | r :: rs, left, sp, s =>
    let (ret, s) := s.flushAvailable r
    if ret = .pending then
      if s.b.head.length = left ∧ s.headSp = sp ∧ s.eintr = false then (some ret, s)
      else flushLoop rs s.b.head.length s.headSp s
    else (some ret, s)

def flushAll (rs : List SysWrite) (s : Output) : Option BufferStatus × Output :=
  if s.b.head = [] then (some .empty, s) else flushLoop rs s.b.head.length s.headSp s

/-- The end of `buffer_write`, after `nbytes` were written. -/
def rest (p : List UInt8) (nbytes : ℕ) (s : Output) : Option (BufferStatus × Output) :=
  (if nbytes < p.length then s.b.put (p.drop nbytes) else some s.b).map fun b =>
    (if b.head = [] then .empty else .pending, { s with b })

def write (p : List UInt8) (r : SysWrite) (s : Output) : Option (BufferStatus × Output) :=
  if s.b.head ≠ [] then s.rest p 0
  else
    match r with
    | .took n => { s with fd := s.fd ++ p.take (taken n p.length) }.rest p (taken n p.length)
    | .again => { s with eintr := false }.rest p 0
    | .intr => { s with eintr := true }.rest p 0
    | .fatal => some (.error, { s with eintr := false })

end Output

inductive BufferOp
  | put (p : List UInt8)
  | putc (c : UInt8)
  | putstr (c : List UInt8)
  | putCrlf (p : List UInt8)
  | write (p : List UInt8) (r : SysWrite)
  | flushAvailable (r : SysWrite)
  | flushAll (rs : List SysWrite)

def Output.perform (s : Output) : BufferOp → Option (Option BufferStatus × Output)
  | .put p => (s.b.put p).map fun b => (none, { s with b })
  | .putc c => (s.b.putc c).map fun b => (none, { s with b })
  | .putstr c => (s.b.putstr c).map fun b => (none, { s with b })
  | .putCrlf p => (s.b.putCrlf p).map fun b => (none, { s with b })
  | .write p r => (s.write p r).map fun t => (some t.1, t.2)
  | .flushAvailable r => some (some (s.flushAvailable r).1, (s.flushAvailable r).2)
  | .flushAll rs => some (s.flushAll rs)

def Output.step (s : Output) (op : BufferOp) : Option Output := (s.perform op).map Prod.snd

namespace Buffer
variable {b b' : Buffer} {d : BufferData} {pre : List BufferData} {xs p : List UInt8} {n size : ℕ}

/-! ## The chunks -/

/-- The pending bytes of the chunks `ds`. -/
def pending (ds : List BufferData) : List UInt8 := ds.flatMap fun d => slice d.data d.sp d.cp

def content (b : Buffer) : List UInt8 := pending b.head

structure Full (size : ℕ) (d : BufferData) : Prop where
  length : d.data.length = size
  lt : d.sp < d.cp
  cp : d.cp = size

structure Last (size : ℕ) (d : BufferData) : Prop where
  length : d.data.length = size
  le : d.sp ≤ d.cp
  cp : d.cp ≤ size

/-- The chunks are full but for the last one, `d`. -/
structure Ends (b : Buffer) (pre : List BufferData) (d : BufferData) : Prop where
  head : b.head = pre ++ [d]
  full : ∀ c ∈ pre, Full b.size c
  last : Last b.size d

/-- Ready to be put to: no byte of the last chunk is pending, if at all, when it has room. -/
def Ready (b : Buffer) : Prop := 0 < b.size ∧ (b.head = [] ∨ ∃ pre d, Ends b pre d ∧ (d.cp = b.size → d.sp < d.cp))

def Ok (b : Buffer) : Prop := 0 < b.size ∧ (b.head = [] ∨ ∃ pre d, Ends b pre d ∧ d.sp < d.cp)

theorem Ok.ready (h : Ok b) : Ready b :=
  ⟨h.1, h.2.imp id fun ⟨pre, d, hends, hlt⟩ => ⟨pre, d, hends, fun _ => hlt⟩⟩

theorem Ends.tail (h : Ends b pre d) : b.tail = some d := by
  rw [Buffer.tail, h.head, List.getLast?_concat]

theorem ends_add (hfull : ∀ c ∈ b.head, Full b.size c) :
    Ends b.add b.head ⟨0, 0, List.replicate b.size 0⟩ ∧ b.add.content = b.content := by
  refine ⟨⟨rfl, hfull, ⟨List.length_replicate, Nat.le_refl 0, Nat.zero_le _⟩⟩, ?_⟩
  rw [content, pending, add, List.flatMap_append, List.flatMap_singleton, slice_self, List.append_nil]
  rfl

theorem Ready.room (h : Ready b) :
    ∃ pre d, Ends b.room pre d ∧ d.cp < b.size ∧ b.room.size = b.size ∧ b.room.content = b.content := by
  obtain ⟨hsize, hnil | ⟨pre, d, hends, hlt⟩⟩ := h
  · have htail : b.tail = none := by rw [Buffer.tail, hnil, List.getLast?_nil]
    obtain ⟨hends, hcontent⟩ := ends_add (b := b) (by simp [hnil])
    rw [Buffer.room, htail]
    exact ⟨_, _, hends, hsize, rfl, hcontent⟩
  · rw [Buffer.room, hends.tail]
    dsimp only
    split_ifs with hcp
    · obtain ⟨hends', hcontent⟩ := ends_add (b := b) (fun c hc => by
        rw [hends.head] at hc
        rcases List.mem_append.mp hc with hc | hc
        · exact hends.full c hc
        · rw [List.mem_singleton.mp hc]
          exact ⟨hends.last.length, hlt hcp, hcp⟩)
      exact ⟨_, _, hends', hsize, rfl, hcontent⟩
    · exact ⟨pre, d, hends, Nat.lt_of_le_of_ne hends.last.cp hcp, rfl, rfl⟩

theorem Ends.copy (h : Ends b pre d) (hlen : xs.length ≤ b.size - d.cp) :
    ∃ b', b.copy xs = some b' ∧ (∃ data, Ends b' pre ⟨d.cp + xs.length, d.sp, data⟩) ∧ b'.size = b.size ∧
      b'.content = b.content ++ xs := by
  have hcp := h.last.cp
  have hle := h.last.le
  have hdata := h.last.length
  have hwrite : write d.data d.cp xs = some (store d.data d.cp xs) := write_eq (by omega)
  refine ⟨{ b with head := pre ++ [⟨d.cp + xs.length, d.sp, store d.data d.cp xs⟩] }, ?_, ⟨_, rfl, h.full, ?_⟩, rfl, ?_⟩
  · rw [Buffer.copy, h.tail, Option.bind_some, hwrite, Option.map_some, h.head, List.dropLast_concat]
  · refine ⟨by rw [length_store (by omega), hdata], ?_, ?_⟩
    · dsimp only
      omega
    · dsimp only
      omega
  · rw [content, content, pending, pending, h.head, List.flatMap_append, List.flatMap_append, List.flatMap_singleton, List.flatMap_singleton,
      List.append_assoc, slice_store_append _ _ hle (by omega)]

theorem Ready.copy (h : Ready b) (xs : List UInt8) (hlen : ∀ d, b.room.tail = some d → xs.length ≤ b.size - d.cp) :
    ∃ b', b.room.copy xs = some b' ∧ Ready b' ∧ (xs ≠ [] → Ok b') ∧ b'.size = b.size ∧ b'.content = b.content ++ xs := by
  obtain ⟨pre, d, hends, hcp, hsize, hcontent⟩ := h.room
  obtain ⟨b', hb', ⟨data, hends'⟩, hsize', hcontent'⟩ := hends.copy (by rw [hsize]; exact hlen d hends.tail)
  rw [hsize] at hsize'
  rw [hcontent] at hcontent'
  have hpos : 0 < b'.size := hsize' ▸ h.1
  have hle := hends.last.le
  refine ⟨b', hb', ⟨hpos, .inr ⟨pre, _, hends', fun hfull => ?_⟩⟩, fun hne => ⟨hpos, .inr ⟨pre, _, hends', ?_⟩⟩, hsize', hcontent'⟩
  · dsimp only at hfull ⊢
    omega
  · have hxs := List.length_pos_of_ne_nil hne
    dsimp only
    omega

/-! ## Putting -/

theorem putRound_spec {s : List UInt8 × Buffer} (h : Ok s.2) :
    (s.1 = [] ∧ putRound s = .inr (some s.2)) ∨
      ∃ t, putRound s = .inl t ∧ Ok t.2 ∧ t.2.size = s.2.size ∧ t.1.length < s.1.length ∧
        t.2.content ++ t.1 = s.2.content ++ s.1 := by
  unfold putRound
  split_ifs with hnil
  · exact .inl ⟨hnil, rfl⟩
  · obtain ⟨pre, d, hends, hcp, hsize, -⟩ := h.ready.room
    have hpos := List.length_pos_of_ne_nil hnil
    dsimp only
    rw [hends.tail, hsize]
    dsimp only
    generalize hchunk : (if s.1.length ≤ s.2.size - d.cp then s.1.length else s.2.size - d.cp) = chunk
    have hle : 0 < chunk ∧ chunk ≤ s.1.length ∧ chunk ≤ s.2.size - d.cp := by
      rw [← hchunk]
      split_ifs <;> omega
    have hne : s.1.take chunk ≠ [] := by
      rw [Ne, List.take_eq_nil_iff, not_or]
      exact ⟨Nat.ne_of_gt hle.1, hnil⟩
    obtain ⟨b', hb', -, hok, hsize', hcontent⟩ := h.ready.copy (s.1.take chunk) fun d' hd' => by
      obtain rfl := Option.some.inj (hends.tail.symm.trans hd')
      rw [List.length_take]
      omega
    rw [hb']
    refine .inr ⟨_, rfl, hok hne, hsize', ?_, ?_⟩
    · rw [List.length_drop]
      omega
    · rw [hcontent, List.append_assoc, List.take_append_drop]

theorem Ok.put (h : Ok b) (p : List UInt8) : ∃ b', b.put p = some b' ∧ Ok b' ∧ b'.size = b.size ∧ b'.content = b.content ++ p := by
  obtain ⟨r, hr, b', rfl, hok, hsize, hcontent⟩ := Loop.run_of_measure putRound
    (fun s => Ok s.2 ∧ s.2.size = b.size ∧ s.2.content ++ s.1 = b.content ++ p)
    (fun r => ∃ b', r = some b' ∧ Ok b' ∧ b'.size = b.size ∧ b'.content = b.content ++ p) (fun s => s.1.length)
    (fun s t ⟨hok, hsize, hcontent⟩ hround => by
      obtain ⟨-, hleave⟩ | ⟨t', ht', hok', hsize', hlt, hcontent'⟩ := putRound_spec hok
      · rw [hleave] at hround
        cases hround
      · obtain rfl := Sum.inl.inj (ht'.symm.trans hround)
        exact ⟨⟨hok', hsize'.trans hsize, hcontent'.trans hcontent⟩, hlt⟩)
    (fun s r ⟨hok, hsize', hcontent⟩ hround => by
      obtain ⟨hnil, hleave⟩ | ⟨t', ht', -⟩ := putRound_spec hok
      · rw [hnil, List.append_nil] at hcontent
        exact ⟨s.2, Sum.inr.inj (hround.symm.trans hleave), hok, hsize', hcontent⟩
      · rw [ht'] at hround
        cases hround)
    (s := (p, b)) ⟨h, rfl, rfl⟩ (Nat.lt_succ_self p.length)
  exact ⟨b', by rw [Buffer.put, hr, Option.join_some], hok, hsize, hcontent⟩

/-! ## Line feeds -/

/-- Every line feed with a carriage return before it. -/
def crlf (xs : List UInt8) : List UInt8 := xs.flatMap fun c => if c = 10 then [13, 10] else [c]

theorem crlf_of_forall (h : ∀ c ∈ xs, c ≠ 10) : crlf xs = xs := by
  induction xs with
  | nil => rfl
  | cons c xs ih =>
    obtain ⟨hc, hxs⟩ := List.forall_mem_cons.mp h
    rw [crlf, List.flatMap_cons, if_neg hc]
    exact congrArg (c :: ·) (ih hxs)

theorem crlf_append (xs ys : List UInt8) : crlf (xs ++ ys) = crlf xs ++ crlf ys := List.flatMap_append

theorem findLf_none (h : xs.findIdx? (· == 10) = none) : ∀ c ∈ xs, c ≠ 10 := by
  intro c hc heq
  have := List.findIdx?_eq_none_iff.mp h c hc
  simp [heq] at this

theorem findLf_some (h : xs.findIdx? (· == 10) = some n) :
    n < xs.length ∧ (∀ c ∈ xs.take n, c ≠ 10) ∧ xs.drop n = 10 :: xs.drop (n + 1) := by
  obtain ⟨hn, hlf, hbefore⟩ := List.findIdx?_eq_some_iff_getElem.mp h
  refine ⟨hn, fun c hc heq => ?_, ?_⟩
  · obtain ⟨i, hi, rfl⟩ := List.mem_take_iff_getElem.mp hc
    refine hbefore i (by omega) ?_
    simp [heq]
  · rw [List.drop_eq_getElem_cons hn, beq_iff_eq.mp hlf]

theorem memchrLf_add {m : List UInt8} {p c : ℕ} (h : ∀ x ∈ (m.drop p).take c, x ≠ 10) (hc : p + c ≤ m.length) :
    memchrLf m (p + c) = memchrLf m p := by
  -- the first line feed stays the first one when bytes before it are passed
  have hnone : ((m.drop p).take c).findIdx? (· == 10) = none :=
    List.findIdx?_eq_none_iff.mpr fun x hx => beq_eq_false_iff_ne.mpr (h x hx)
  have hlen : ((m.drop p).take c).length = c := by
    rw [List.length_take, List.length_drop]
    omega
  have hsplit : (m.drop p).findIdx? (· == 10) = ((m.drop (p + c)).findIdx? (· == 10)).map (c + ·) := by
    conv_lhs => rw [← List.take_append_drop c (m.drop p)]
    rw [List.findIdx?_append, hnone, Option.none_or, hlen, List.drop_drop]
    refine congrArg (fun f => Option.map f _) (funext fun i => Nat.add_comm i c)
  rw [memchrLf, memchrLf, hsplit, Option.map_map]
  exact congrArg (fun f => Option.map f _) (funext fun i => Nat.add_assoc p c i)

theorem Ready.putByte (h : Ready b) (c : UInt8) :
    ∃ b', b.room.copy [c] = some b' ∧ Ok b' ∧ b'.size = b.size ∧ b'.content = b.content ++ [c] := by
  obtain ⟨pre, d, hends, hcp, -⟩ := h.room
  obtain ⟨b', hb', -, hok, hsize, hcontent⟩ := h.copy [c] fun d' hd' => by
    obtain rfl := Option.some.inj (hends.tail.symm.trans hd')
    rw [List.length_singleton]
    omega
  exact ⟨b', hb', hok (List.cons_ne_nil c []), hsize, hcontent⟩

theorem lf_spec (m : List UInt8) {p : ℕ} (hp : p ≤ m.length) :
    ∃ n, (memchrLf m p).getD m.length - p = n ∧ p + n ≤ m.length ∧ (∀ c ∈ (m.drop p).take n, c ≠ 10) ∧
      (((memchrLf m p).isSome = true ∧ p + n < m.length ∧ m.drop (p + n) = 10 :: m.drop (p + n + 1)) ∨
        ((memchrLf m p).isSome = false ∧ p + n = m.length)) := by
  cases hfind : (m.drop p).findIdx? (· == 10) with
  | none =>
    have hnone : memchrLf m p = none := by rw [memchrLf, hfind, Option.map_none]
    rw [hnone, Option.getD_none]
    refine ⟨m.length - p, rfl, by omega, ?_, .inr ⟨rfl, by omega⟩⟩
    rw [List.take_of_length_le (Nat.le_of_eq List.length_drop)]
    exact findLf_none hfind
  | some n =>
    obtain ⟨hn, hplain, hlf⟩ := findLf_some hfind
    have hsome : memchrLf m p = some (p + n) := by rw [memchrLf, hfind, Option.map_some]
    rw [List.length_drop] at hn
    rw [List.drop_drop, List.drop_drop] at hlf
    rw [hsome, Option.getD_some]
    exact ⟨n, Nat.add_sub_cancel_left p n, by omega, hplain, .inl ⟨rfl, by omega, hlf⟩⟩

theorem slice_add (m : List UInt8) (p c : ℕ) : slice m p (p + c) = (m.drop p).take c := by
  rw [slice, List.drop_take, Nat.add_sub_cancel_left]

theorem crlf_drop {m : List UInt8} {p c : ℕ} (h : ∀ x ∈ (m.drop p).take c, x ≠ 10) :
    crlf (m.drop p) = (m.drop p).take c ++ crlf (m.drop (p + c)) := by
  conv_lhs => rw [← List.take_append_drop c (m.drop p)]
  rw [crlf_append, crlf_of_forall h, List.drop_drop]

theorem crlfRound_spec {orig : List UInt8} {p : ℕ} (h : Ok b) (hp : p ≤ orig.length) :
    (p = orig.length ∧ crlfRound orig (p, memchrLf orig p, b) = .inr (some b)) ∨
      ∃ p' b', crlfRound orig (p, memchrLf orig p, b) = .inl (p', memchrLf orig p', b') ∧ Ok b' ∧ b'.size = b.size ∧
        p < p' ∧ p' ≤ orig.length ∧ b'.content ++ crlf (orig.drop p') = b.content ++ crlf (orig.drop p) := by
  unfold crlfRound
  dsimp only
  split_ifs with hlt
  · right
    obtain ⟨pre, d, hends, hcp, hsize, -⟩ := h.ready.room
    obtain ⟨n, hn, hle, hplain, hlf⟩ := lf_spec orig hp
    rw [hends.tail, hsize, hn]
    dsimp only
    generalize hchunk : (if n ≤ b.size - d.cp then n else b.size - d.cp) = chunk
    have hbound : chunk ≤ n ∧ chunk ≤ b.size - d.cp ∧ (n ≤ b.size - d.cp → chunk = n) ∧ (¬n ≤ b.size - d.cp → 0 < chunk) := by
      rw [← hchunk]
      split_ifs <;> omega
    have hplain' : ∀ x ∈ (orig.drop p).take chunk, x ≠ 10 := fun x hx =>
      hplain x (List.take_subset_take_left _ hbound.1 hx)
    have hlen : ((orig.drop p).take chunk).length = chunk := by
      rw [List.length_take, List.length_drop]
      omega
    obtain ⟨b₁, hb₁, hready, hok, hsize₁, hcontent₁⟩ := h.ready.copy ((orig.drop p).take chunk) fun d' hd' => by
      obtain rfl := Option.some.inj (hends.tail.symm.trans hd')
      rw [hlen]
      exact hbound.2.1
    rw [slice_add, hb₁]
    dsimp only
    split_ifs with hcond
    · obtain ⟨hsome, hfits⟩ := hcond
      obtain rfl := hbound.2.2.1 hfits
      obtain ⟨-, hend, hdrop⟩ | ⟨hnone, -⟩ := hlf
      · obtain ⟨b₂, hb₂, hok₂, hsize₂, hcontent₂⟩ := hready.putByte 13
        obtain ⟨b₃, hb₃, hok₃, hsize₃, hcontent₃⟩ := hok₂.ready.putByte 10
        rw [hb₂, Option.bind_some, hb₃]
        refine ⟨_, b₃, rfl, hok₃, hsize₃.trans (hsize₂.trans hsize₁), by omega, hend, ?_⟩
        rw [hcontent₃, hcontent₂, hcontent₁, crlf_drop hplain', hdrop]
        simp [crlf]
      · rw [hnone] at hsome
        cases hsome
    · have hpos : 0 < chunk := by
        rcases Nat.lt_or_ge (b.size - d.cp) n with hfar | hfits
        · exact hbound.2.2.2 (Nat.not_le_of_lt hfar)
        · obtain ⟨hsome, -⟩ | ⟨-, hend⟩ := hlf
          · exact absurd ⟨hsome, hfits⟩ hcond
          · have := hbound.2.2.1 hfits
            omega
      have hne : (orig.drop p).take chunk ≠ [] := by
        rw [Ne, ← List.length_eq_zero_iff, hlen]
        omega
      rw [← memchrLf_add hplain' (by omega)]
      refine ⟨p + chunk, b₁, rfl, hok hne, hsize₁, by omega, by omega, ?_⟩
      rw [hcontent₁, crlf_drop hplain', List.append_assoc]
  · exact .inl ⟨by omega, rfl⟩

theorem Ok.putCrlf (h : Ok b) (orig : List UInt8) :
    ∃ b', b.putCrlf orig = some b' ∧ Ok b' ∧ b'.size = b.size ∧ b'.content = b.content ++ crlf orig := by
  obtain ⟨r, hr, b', rfl, hok, hsize, hcontent⟩ := Loop.run_of_measure (crlfRound orig)
    (fun s => s.1 ≤ orig.length ∧ s.2.1 = memchrLf orig s.1 ∧ Ok s.2.2 ∧ s.2.2.size = b.size ∧
      s.2.2.content ++ crlf (orig.drop s.1) = b.content ++ crlf orig)
    (fun r => ∃ b', r = some b' ∧ Ok b' ∧ b'.size = b.size ∧ b'.content = b.content ++ crlf orig) (fun s => orig.length - s.1)
    (fun s t ⟨hle, hlf, hok, hsize, hcontent⟩ hround => by
      obtain ⟨p, lf, c⟩ := s
      dsimp only at *
      subst hlf
      obtain ⟨-, hleave⟩ | ⟨p', c', hgo, hok', hsize', hlt, hle', hcontent'⟩ := crlfRound_spec hok hle
      · rw [hleave] at hround
        cases hround
      · obtain rfl := Sum.inl.inj (hgo.symm.trans hround)
        exact ⟨⟨hle', rfl, hok', hsize'.trans hsize, hcontent'.trans hcontent⟩, by omega⟩)
    (fun s r ⟨hle, hlf, hok, hsize, hcontent⟩ hround => by
      obtain ⟨p, lf, c⟩ := s
      dsimp only at *
      subst hlf
      obtain ⟨rfl, hleave⟩ | ⟨p', c', hgo, -⟩ := crlfRound_spec hok hle
      · rw [List.drop_length] at hcontent
        exact ⟨c, Sum.inr.inj (hround.symm.trans hleave), hok, hsize, by rw [← hcontent, crlf, List.flatMap_nil, List.append_nil]⟩
      · rw [hgo] at hround
        cases hround)
    (s := (0, memchrLf orig 0, b)) (n := orig.length + 1) ⟨Nat.zero_le _, rfl, h, rfl, by rw [List.drop_zero]⟩
    (Nat.lt_succ_self orig.length)
  exact ⟨b', by rw [Buffer.putCrlf, hr, Option.join_some], hok, hsize, hcontent⟩

/-! ## Flushing -/

theorem gather_prefix (k nbyte : ℕ) (ds : List BufferData) : (gather k nbyte ds).flatten <+: pending ds := by
  fun_induction gather k nbyte ds with
  | case1 k nbyte d ds hlt ih =>
    rw [List.flatten_cons, pending, List.flatMap_cons]
    exact (List.prefix_append_right_inj _).mpr ih
  | case2 => exact List.nil_prefix
  | case3 => exact List.nil_prefix

/-- Every chunk has bytes that are pending, and they are in its memory. -/
def Pending (d : BufferData) : Prop := d.sp < d.cp ∧ d.cp ≤ d.data.length

theorem Pending.length (h : Pending d) : (slice d.data d.sp d.cp).length = d.cp - d.sp := length_slice h.2

theorem gather_eq_nil {ds : List BufferData} (h : ∀ d ∈ ds, Pending d) :
    (gather maxChunks 0 ds).flatten.length = 0 ↔ ds = [] := by
  cases ds with
  | nil => exact iff_of_true rfl rfl
  | cons d ds =>
    have hd := h d List.mem_cons_self
    have hlen := hd.length
    refine iff_of_false ?_ (List.cons_ne_nil d ds)
    have hgather : gather maxChunks 0 (d :: ds) = slice d.data d.sp d.cp :: gather 15 (0 + (slice d.data d.sp d.cp).length) ds :=
      if_pos (by decide)
    rw [hgather, List.flatten_cons, List.length_append, hlen]
    have := hd.1
    omega

theorem drain_spec {ds : List BufferData} (h : ∀ d ∈ ds, Pending d) (hn : n ≤ (pending ds).length) :
    pending (drain n ds).1 = (pending ds).drop n ∧ ((drain n ds).2 = if (drain n ds).1 = [] then .empty else .pending) ∧
      ((drain n ds).1 = [] ∨ ∃ d pre sp, (d :: pre) <:+ ds ∧ d.sp ≤ sp ∧ sp < d.cp ∧ (drain n ds).1 = { d with sp } :: pre) := by
  induction ds generalizing n with
  | nil => exact ⟨by simp [pending, drain], rfl, .inl rfl⟩
  | cons d ds ih =>
    obtain ⟨hd, hds⟩ := List.forall_mem_cons.mp h
    have hlen := hd.length
    have hlt := hd.1
    have hcons : pending (d :: ds) = slice d.data d.sp d.cp ++ pending ds := List.flatMap_cons
    rw [hcons, List.length_append, hlen] at hn
    by_cases hzero : n = 0
    · have hdrain : drain n (d :: ds) = (d :: ds, .pending) := if_pos hzero
      rw [hdrain, hzero]
      exact ⟨rfl, (if_neg (List.cons_ne_nil _ _)).symm, .inr ⟨d, ds, d.sp, List.suffix_refl _, Nat.le_refl _, hlt, rfl⟩⟩
    · by_cases hpart : n < d.cp - d.sp
      · have hdrain : drain n (d :: ds) = ({ d with sp := d.sp + n } :: ds, .pending) := (if_neg hzero).trans (if_pos hpart)
        rw [hdrain, hcons]
        refine ⟨?_, (if_neg (List.cons_ne_nil _ _)).symm,
          .inr ⟨d, ds, d.sp + n, List.suffix_refl _, Nat.le_add_right _ _, by omega, rfl⟩⟩
        rw [List.drop_append_of_le_length (by omega), drop_slice]
        rfl
      · have hdrain : drain n (d :: ds) = drain (n - (d.cp - d.sp)) ds := (if_neg hzero).trans (if_neg hpart)
        obtain ⟨hpending, hstatus, hshape⟩ := ih hds (n := n - (d.cp - d.sp)) (by omega)
        rw [hdrain, hcons]
        refine ⟨?_, hstatus, hshape.imp id ?_⟩
        · have hfirst : (slice d.data d.sp d.cp).drop n = [] := List.drop_eq_nil_of_le (by omega)
          rw [hpending, List.drop_append, hlen, hfirst, List.nil_append]
        · rintro ⟨d', pre, sp, hsuffix, hrest⟩
          exact ⟨d', pre, sp, hsuffix.trans (List.suffix_cons d ds), hrest⟩

theorem Ok.pending (h : Ok b) : ∀ d ∈ b.head, Pending d := by
  intro d hd
  obtain ⟨-, hnil | ⟨pre, e, hends, hlt⟩⟩ := h
  · rw [hnil] at hd
    cases hd
  · rw [hends.head] at hd
    rcases List.mem_append.mp hd with hd | hd
    · have hfull := hends.full d hd
      exact ⟨hfull.lt, Nat.le_of_eq (hfull.cp.trans hfull.length.symm)⟩
    · rw [List.mem_singleton.mp hd]
      exact ⟨hlt, hends.last.length ▸ hends.last.cp⟩

theorem Ok.drain (h : Ok b) (hn : n ≤ b.content.length) : Ok { b with head := (Buffer.drain n b.head).1 } := by
  obtain ⟨-, -, hnil | ⟨d, pre, sp, hsuffix, hsp, hlt, heq⟩⟩ := drain_spec h.pending hn
  · exact ⟨h.1, .inl hnil⟩
  · obtain ⟨hsize, hb | ⟨pre', e, hends, hlast⟩⟩ := h
    · rw [hb] at hsuffix
      exact absurd (List.suffix_nil.mp hsuffix) (List.cons_ne_nil d pre)
    · rw [hends.head] at hsuffix
      obtain ⟨ys, hys⟩ := hsuffix
      refine ⟨hsize, .inr ?_⟩
      rw [heq]
      rcases List.eq_nil_or_concat pre with rfl | ⟨pre₂, f, rfl⟩
      · -- only the last chunk is left
        obtain ⟨-, hde⟩ := List.append_inj' hys rfl
        obtain rfl := List.singleton_injective hde
        exact ⟨[], { d with sp }, ⟨rfl, by simp, ⟨hends.last.length, Nat.le_of_lt hlt, hends.last.cp⟩⟩, hlt⟩
      · rw [List.concat_eq_append, ← List.cons_append, ← List.append_assoc] at hys
        obtain ⟨hpre, hfe⟩ := List.append_inj' hys rfl
        obtain rfl := List.singleton_injective hfe
        refine ⟨{ d with sp } :: pre₂, f, ⟨by rw [List.concat_eq_append, List.cons_append], ?_, hends.last⟩, hlast⟩
        have hmem : ∀ c ∈ d :: pre₂, c ∈ pre' := fun c hc => hpre ▸ List.mem_append_right ys hc
        have hd := hends.full d (hmem d List.mem_cons_self)
        exact List.forall_mem_cons.mpr ⟨⟨hd.length, hlt, hd.cp⟩, fun c hc => hends.full c (hmem c (List.mem_cons_of_mem d hc))⟩

theorem Ok.content_eq_nil (h : Ok b) : b.content = [] ↔ b.head = [] := by
  have hpending := h.pending
  rw [content, Buffer.pending, List.flatMap_eq_nil_iff, List.eq_nil_iff_forall_not_mem]
  refine forall₂_congr fun d hd => iff_of_false (fun hnil => ?_) (fun hfalse => hfalse)
  have hlen := (hpending d hd).length
  have hlt := (hpending d hd).1
  rw [hnil, List.length_nil] at hlen
  omega

theorem taken_bound (n : ℕ) {total : ℕ} (h : 0 < total) : 0 < taken n total ∧ taken n total ≤ total := by
  have := Nat.mod_lt n h
  rw [taken, if_neg (by omega)]
  omega

end Buffer

namespace Output
open Buffer
variable {size : ℕ} {xs : List UInt8} {s t : Output}

/-- The chunks are in order, and the bytes taken and the pending ones are `xs`. -/
structure Holds (size : ℕ) (xs : List UInt8) (s : Output) : Prop where
  ok : Ok s.b
  size : s.b.size = size
  bytes : s.fd ++ s.b.content = xs

def Tells (s : Output) (st : BufferStatus) : Prop := st = if s.b.head = [] then .empty else .pending

theorem Holds.flushAvailable (h : Holds size xs s) {r : SysWrite} (hr : r ≠ .fatal) :
    Holds size xs (s.flushAvailable r).2 ∧ (s.flushAvailable r).2.Tells (s.flushAvailable r).1 ∧
      (r ≠ .intr → (s.flushAvailable r).2.b.content.length < s.b.content.length ∨ (s.flushAvailable r).1 = .empty ∨
        s.flushAvailable r = (.pending, { s with eintr := false })) ∧
      (r = .intr → (s.flushAvailable r).2.b = s.b) := by
  have hempty := gather_eq_nil h.ok.pending
  have hpre := gather_prefix maxChunks 0 s.b.head
  unfold Output.flushAvailable
  generalize (gather maxChunks 0 s.b.head).flatten = iov at hempty hpre
  dsimp only
  split_ifs with hzero
  · exact ⟨h, (if_pos (hempty.mp hzero)).symm, fun _ => .inr (.inl rfl), fun _ => rfl⟩
  · have hpending : BufferStatus.pending = if s.b.head = [] then .empty else .pending := (if_neg (mt hempty.mpr hzero)).symm
    cases r with
    | took n =>
      obtain ⟨hpos, hle⟩ := taken_bound n (Nat.pos_of_ne_zero hzero)
      have hlen : taken n iov.length ≤ s.b.content.length := Nat.le_trans hle hpre.length_le
      have htake : iov.take (taken n iov.length) = s.b.content.take (taken n iov.length) := by
        obtain ⟨ys, hys⟩ := hpre
        rw [content, ← hys, List.take_append_of_le_length hle]
      obtain ⟨hbytes, hstatus, -⟩ := drain_spec h.ok.pending hlen
      have hok := h.ok.drain hlen
      dsimp only
      rw [htake]
      refine ⟨⟨hok, h.size, ?_⟩, hstatus, fun _ => .inl ?_, fun hintr => SysWrite.noConfusion hintr⟩
      · change s.fd ++ s.b.content.take (taken n iov.length) ++ Buffer.pending (drain (taken n iov.length) s.b.head).1 = xs
        rw [hbytes, List.append_assoc]
        exact (congrArg (s.fd ++ ·) (List.take_append_drop _ _)).trans h.bytes
      · change (Buffer.pending (drain (taken n iov.length) s.b.head).1).length < s.b.content.length
        rw [hbytes, List.length_drop]
        change s.b.content.length - _ < _
        omega
    | again => exact ⟨⟨h.ok, h.size, h.bytes⟩, hpending, fun _ => .inr (.inr rfl), fun _ => rfl⟩
    | intr => exact ⟨⟨h.ok, h.size, h.bytes⟩, hpending, fun hne => absurd rfl hne, fun _ => rfl⟩
    | fatal => exact absurd rfl hr

theorem Holds.flushRounds {rs : List SysWrite} (h : Holds size xs s) (hrs : ∀ r ∈ rs, r ≠ .fatal) (left sp : ℕ) :
    Holds size xs (flushLoop rs left sp s).2 ∧ ∀ st ∈ (flushLoop rs left sp s).1, (flushLoop rs left sp s).2.Tells st := by
  induction rs generalizing s left sp with
  | nil => exact ⟨h, fun st hst => nomatch hst⟩
  | cons r rs ih =>
    obtain ⟨hr, hrs⟩ := List.forall_mem_cons.mp hrs
    obtain ⟨hholds, htells, -⟩ := h.flushAvailable hr
    rw [Output.flushLoop]
    generalize s.flushAvailable r = u at hholds htells
    have hreturn : ∀ st ∈ some u.1, u.2.Tells st := fun st hst => Option.some.inj hst ▸ htells
    dsimp only
    split_ifs
    · exact ⟨hholds, hreturn⟩
    · exact ih hholds hrs _ _
    · exact ⟨hholds, hreturn⟩

theorem Holds.flushAll {rs : List SysWrite} (h : Holds size xs s) (hrs : ∀ r ∈ rs, r ≠ .fatal) :
    Holds size xs (s.flushAll rs).2 ∧ ∀ st ∈ (s.flushAll rs).1, (s.flushAll rs).2.Tells st := by
  unfold Output.flushAll
  split_ifs with hnil
  · exact ⟨h, fun st hst => Option.some.inj hst ▸ (if_pos hnil).symm⟩
  · exact h.flushRounds hrs _ _

theorem Holds.rest (h : Holds size xs s) {p ys : List UInt8} {n : ℕ} (hys : xs ++ p.drop n = ys) :
    ∃ t, s.rest p n = some t ∧ Holds size ys t.2 ∧ t.2.Tells t.1 := by
  unfold Output.rest
  split_ifs with hlt
  · obtain ⟨b', hb', hok, hsize, hcontent⟩ := h.ok.put (p.drop n)
    rw [hb', Option.map_some]
    refine ⟨_, rfl, ⟨hok, hsize.trans h.size, ?_⟩, rfl⟩
    dsimp only
    rw [hcontent, ← List.append_assoc, h.bytes, hys]
  · rw [List.drop_eq_nil_of_le (Nat.le_of_not_lt hlt), List.append_nil] at hys
    exact ⟨_, rfl, ⟨h.ok, h.size, h.bytes.trans hys⟩, rfl⟩

theorem Holds.write (h : Holds size xs s) (p : List UInt8) {r : SysWrite} (hr : r ≠ .fatal) :
    ∃ t, s.write p r = some t ∧ Holds size (xs ++ p) t.2 ∧ t.2.Tells t.1 := by
  unfold Output.write
  split_ifs with hne
  · exact h.rest rfl
  · have hcontent : s.b.content = [] := h.ok.content_eq_nil.mpr (not_not.mp hne)
    cases r with
    | took n =>
      have hholds : Holds size (xs ++ p.take (taken n p.length)) { s with fd := s.fd ++ p.take (taken n p.length) } := by
        refine ⟨h.ok, h.size, ?_⟩
        dsimp only
        rw [hcontent, List.append_nil, ← h.bytes, hcontent, List.append_nil]
      exact hholds.rest (by rw [List.append_assoc, List.take_append_drop])
    | again => exact Holds.rest (s := { s with eintr := false }) ⟨h.ok, h.size, h.bytes⟩ rfl
    | intr => exact Holds.rest (s := { s with eintr := true }) ⟨h.ok, h.size, h.bytes⟩ rfl
    | fatal => exact absurd rfl hr

end Output

def BufferOp.data : BufferOp → List UInt8
  | .put p => p
  | .putc c => [c]
  | .putstr c => c.takeWhile (· != 0)
  | .putCrlf p => Buffer.crlf p
  | .write p _ => p
  | .flushAvailable _ => []
  | .flushAll _ => []

def BufferOp.Retryable : BufferOp → Prop
  | .write _ r => r ≠ .fatal
  | .flushAvailable r => r ≠ .fatal
  | .flushAll rs => ∀ r ∈ rs, r ≠ .fatal
  | _ => True

namespace Output
open Buffer
variable {size : ℕ} {xs : List UInt8} {s t : Output}

theorem Holds.put (h : Holds size xs s) (p : List UInt8) :
    ∃ b', s.b.put p = some b' ∧ Holds size (xs ++ p) { s with b := b' } := by
  obtain ⟨b', hb', hok, hsize, hcontent⟩ := h.ok.put p
  exact ⟨b', hb', hok, hsize.trans h.size, by rw [hcontent, ← List.append_assoc, h.bytes]⟩

theorem Holds.perform (h : Holds size xs s) {op : BufferOp} (hop : op.Retryable) :
    ∃ t, s.perform op = some t ∧ Holds size (xs ++ op.data) t.2 ∧ ∀ st ∈ t.1, t.2.Tells st := by
  cases op with
  | put p =>
    obtain ⟨b', hb', hholds⟩ := h.put p
    exact ⟨_, congrArg (Option.map _) hb', hholds, fun st hst => nomatch hst⟩
  | putc c =>
    obtain ⟨b', hb', hholds⟩ := h.put [c]
    exact ⟨_, congrArg (Option.map _) hb', hholds, fun st hst => nomatch hst⟩
  | putstr c =>
    obtain ⟨b', hb', hholds⟩ := h.put (c.take (strlen c))
    rw [strlen, ← List.prefix_iff_eq_take.mp (List.takeWhile_prefix _)] at hholds
    exact ⟨_, congrArg (Option.map _) hb', hholds, fun st hst => nomatch hst⟩
  | putCrlf p =>
    obtain ⟨b', hb', hok, hsize, hcontent⟩ := h.ok.putCrlf p
    refine ⟨_, congrArg (Option.map _) hb', ⟨hok, hsize.trans h.size, ?_⟩, fun st hst => nomatch hst⟩
    dsimp only
    rw [hcontent, ← List.append_assoc, h.bytes]
    rfl
  | write p r =>
    obtain ⟨t, ht, hholds, htells⟩ := h.write p hop
    exact ⟨_, congrArg (Option.map _) ht, hholds, fun st hst => Option.some.inj hst ▸ htells⟩
  | flushAvailable r =>
    obtain ⟨hholds, htells, -⟩ := h.flushAvailable hop
    refine ⟨_, rfl, ?_, fun st hst => Option.some.inj hst ▸ htells⟩
    rwa [BufferOp.data, List.append_nil]
  | flushAll rs =>
    obtain ⟨hholds, htells⟩ := h.flushAll hop
    refine ⟨_, rfl, ?_, htells⟩
    rwa [BufferOp.data, List.append_nil]

end Output
end Yjc
