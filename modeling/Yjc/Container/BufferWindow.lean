import Yjc.Container.Buffer
import Yjc.Lib.CInt

/-! `buffer_flush_window`: a page of the buffer to a terminal, with the prompt of the page before it erased and the next one shown. -/

namespace Yjc.Buffer
open Mem

deriving instance DecidableEq for BufferData, Buffer

/-- What a `writev` does: it takes `n` bytes, or all that there are, or fails. -/
inductive Writev
  | took (n : ℕ)
  | failed
deriving DecidableEq

/-- An entry of the vector. -/
inductive WindowIov
  | erase
  | chunk (bytes : List UInt8)
  | more
deriving DecidableEq

namespace WindowIov

/-- The prompt is sent with its terminating zero. -/
def bytes : WindowIov → List UInt8
  | erase => List.replicate 10 8 ++ List.replicate 10 32 ++ List.replicate 10 8
  | chunk bytes => bytes
  | more => [32, 45, 45, 77, 111, 114, 101, 45, 45, 32, 0]

def ofBuffer : WindowIov → Bool
  | chunk _ => true
  | _ => false

end WindowIov

/-! ## The vector -/

/-- The bytes of a chunk that are on the page, where the state is the lines left and the column of the next byte. -/
def scan (width : ℤ) : List UInt8 → ℤ × ℤ → ℕ × ℤ × ℤ
  | [], s => (0, s)
  | x :: xs, (height, column) =>
    if 0 < height then
      let s :=
        if x = 13 then (height, 1)
        else if x = 10 ∨ column = width then (height - 1, 1)
        else (height, column + 1)
      let (cp, s) := scan width xs s
      (cp + 1, s)
    else (0, height, column)

/-- The entries for the chunks, and the chunks with `sp` moved behind what is on the page. -/
def page (width : ℤ) : List BufferData → ℤ × ℤ → List WindowIov × List BufferData
  | [], _ => ([], [])
  | data :: ds, s =>
    if 0 < s.1 then
      let bytes := slice data.data data.sp data.cp
      let (cp, s) := scan width bytes s
      let (iov, ds) := page width ds s
      (.chunk (bytes.take cp) :: iov, { data with sp := data.sp + cp } :: ds)
    else ([], data :: ds)

def needsMore (ds : List BufferData) (noMore : Bool) : Bool :=
  match ds.getLast? with
  | some tail => tail.sp < tail.cp ∧ noMore = false
  | none => false

def window (width height : ℤ) (erase noMore : Bool) (head : List BufferData) : List WindowIov × List BufferData :=
  let (iov, ds) := page width head (height, 1)
  ((if erase then [.erase] else []) ++ iov ++ (if needsMore ds noMore then [.more] else []), ds)

/-- `iov_alloc` at first, unless the product is no `int`. -/
def iovAlloc (b : Buffer) (width height : ℤ) : Option ℤ :=
  match b.head with
  | [_] => some 3
  | _ => if height * (width + 2) < 2 ^ 31 then some (cInt (height * (width + 2) / b.size + 10)) else none

/-- Whether `n` more entries for chunks are in the vector, and one more for the prompt if it is shown; it is doubled when it is full. -/
def roomFor (more : Bool) (index alloc : ℤ) : ℕ → Bool
  | 0 => !more || index < alloc
  | n + 1 =>
    index < alloc &&
      if index + 1 = alloc then alloc * 2 < 2 ^ 31 && roomFor more (index + 1) (alloc * 2) n
      else roomFor more (index + 1) alloc n

def lines (height : ℤ) : ℤ := if height < 1 then 1 else if 2 ≤ height then height - 1 else height

def columns (width : ℤ) : ℤ := if width < 1 then 1 else width

def hasRoom (width height : ℤ) (erase noMore : Bool) (b : Buffer) : Bool :=
  let (iov, ds) := page (columns width) b.head (lines height, 1)
  match b.iovAlloc (columns width) (lines height) with
  | none => false
  | some alloc => 0 < alloc && roomFor (needsMore ds noMore) (if erase then 1 else 0) alloc iov.length

/-! ## The writes -/

def marked (iov : List WindowIov) : List (Bool × UInt8) := iov.flatMap fun e => e.bytes.map (e.ofBuffer, ·)

def own (xs : List (Bool × UInt8)) : List UInt8 := (xs.filter Prod.fst).map Prod.snd

/-- The entries left, the calls and the bytes taken so far, and whether the last call failed. -/
structure Sending where
  iov : List WindowIov
  calls : ℕ
  sent : List (Bool × UInt8)
  failed : Bool

def writevRound (iovMax : ℕ) (results : ℕ → Writev) (s : Sending) : Sending ⊕ Sending :=
  if s.iov = [] then .inr s
  else
    match results s.calls with
    | .failed => .inr { s with failed := true }
    | .took n => .inl ⟨s.iov.drop iovMax, s.calls + 1, s.sent ++ (marked (s.iov.take iovMax)).take n, false⟩

def writevs (iovMax : ℕ) (results : ℕ → Writev) (iov : List WindowIov) : Option Sending :=
  Loop.run (writevRound iovMax results) (iov.length + 1) ⟨iov, 0, [], false⟩

/-- The status, the bytes taken and the buffer; `none` when the vector is written out of its bounds. -/
def flushWindow (iovMax : ℕ) (results : ℕ → Writev) (width height : ℤ) (erase noMore : Bool) (b : Buffer) :
    Option (BufferStatus × List (Bool × UInt8) × Buffer) :=
  if b.head = [] then some (.empty, [], b)
  else if b.hasRoom width height erase noMore then
    let (iov, ds) := window (columns width) (lines height) erase noMore b.head
    (writevs iovMax results iov).map fun s =>
      let head := ds.dropWhile fun data => data.sp = data.cp
      (if s.failed then .error else if head = [] then .empty else .pending, s.sent, { b with head })
  else none

/-! ## What is kept -/

variable {iov iov' : List WindowIov} {xs ys : List (Bool × UInt8)} {b : Buffer} {iovMax : ℕ} {results : ℕ → Writev}

theorem own_append (xs ys : List (Bool × UInt8)) : own (xs ++ ys) = own xs ++ own ys := by
  rw [own, List.filter_append, List.map_append]
  rfl

theorem own_sublist (h : xs.Sublist ys) : (own xs).Sublist (own ys) := (h.filter _).map _

theorem own_take_append_drop (n : ℕ) (xs : List (Bool × UInt8)) : own (xs.take n) ++ own (xs.drop n) = own xs := by
  rw [← own_append, List.take_append_drop]

theorem marked_append (iov iov' : List WindowIov) : marked (iov ++ iov') = marked iov ++ marked iov' := List.flatMap_append

theorem own_marked_take_append_drop (k : ℕ) (iov : List WindowIov) :
    own (marked (iov.take k)) ++ own (marked (iov.drop k)) = own (marked iov) := by
  rw [← own_append, ← marked_append, List.take_append_drop]

theorem own_marked_chunk (bytes : List UInt8) (iov : List WindowIov) :
    own (marked (.chunk bytes :: iov)) = bytes ++ own (marked iov) := by
  have hchunk : own (bytes.map (true, ·)) = bytes := by simp [own, List.filter_map, Function.comp_def]
  have hcons : marked (.chunk bytes :: iov) = bytes.map (true, ·) ++ marked iov := List.flatMap_cons
  rw [hcons, own_append, hchunk]

theorem scan_stops (width : ℤ) (xs : List UInt8) (s : ℤ × ℤ) : (scan width xs s).1 = xs.length ∨ (scan width xs s).2.1 ≤ 0 := by
  -- a chunk is left before its end only when the page is full
  fun_induction scan width xs s with
  | case1 s => exact .inl rfl
  | case2 x xs height column hlines s cp s' hscan ih =>
    rw [hscan] at ih
    exact ih.imp (congrArg (· + 1)) id
  | case3 x xs height column hover => exact .inr (Int.not_lt.mp hover)

theorem page_full (width : ℤ) (ds : List BufferData) {s : ℤ × ℤ} (h : s.1 ≤ 0) : page width ds s = ([], ds) := by
  cases ds with
  | nil => rfl
  | cons data ds => rw [page, if_neg (Int.not_lt.mpr h)]

theorem page_content (width : ℤ) (ds : List BufferData) (s : ℤ × ℤ) :
    own (marked (page width ds s).1) ++ pending (page width ds s).2 = pending ds := by
  fun_induction page width ds s with
  | case1 => rfl
  | case2 data ds s hlines bytes cp s' hscan iov ds' hpage ih =>
    rw [hpage] at ih
    have hcons (data : BufferData) (ds : List BufferData) : pending (data :: ds) = slice data.data data.sp data.cp ++ pending ds :=
      List.flatMap_cons
    have hrest : slice data.data (data.sp + cp) data.cp = bytes.drop cp := drop_slice.symm
    rw [own_marked_chunk, hcons, hcons, hrest]
    -- either nothing of the chunk is behind the page, or nothing of the next ones is on it
    have hstops := scan_stops width bytes s
    rw [hscan] at hstops
    obtain hend | hfull := hstops
    · rw [List.drop_eq_nil_of_le (Nat.le_of_eq hend.symm), List.take_of_length_le (Nat.le_of_eq hend.symm), List.nil_append,
        List.append_assoc, ih]
    · obtain ⟨rfl, rfl⟩ := Prod.mk.inj (hpage.symm.trans (page_full width ds hfull))
      change bytes.take cp ++ [] ++ (bytes.drop cp ++ pending ds') = bytes ++ pending ds'
      rw [List.append_nil, ← List.append_assoc, List.take_append_drop]
  | case3 data ds s hover => rfl

theorem window_content (width height : ℤ) (erase noMore : Bool) (ds : List BufferData) :
    own (marked (window width height erase noMore ds).1) ++ pending (window width height erase noMore ds).2 = pending ds := by
  have hpage := page_content width ds (height, 1)
  have herase : own (marked (if erase then [.erase] else [])) = [] := by cases erase <;> decide
  unfold window
  generalize page width ds (height, 1) = r at hpage
  have hmore : own (marked (if needsMore r.2 noMore then [.more] else [])) = [] := by cases needsMore r.2 noMore <;> decide
  dsimp only
  rw [marked_append, marked_append, own_append, own_append, herase, hmore, List.nil_append, List.append_nil, hpage]

theorem pending_dropWhile (ds : List BufferData) : pending (ds.dropWhile fun data => data.sp = data.cp) = pending ds := by
  induction ds with
  | nil => rfl
  | cons data ds ih =>
    rw [List.dropWhile_cons]
    split_ifs with hdone
    · have hnil : slice data.data data.sp data.cp = [] := slice_eq_nil (Nat.le_of_eq (of_decide_eq_true hdone).symm)
      have hcons : pending (data :: ds) = slice data.data data.sp data.cp ++ pending ds := List.flatMap_cons
      rw [hcons, hnil, ih, List.nil_append]
    · rfl

/-! ## Room -/

theorem roomFor_of_lt (more : Bool) {index alloc : ℤ} {n : ℕ} (hpos : 0 ≤ index) (h : index < alloc)
    (hn : index + n < 2 ^ 30) :
    roomFor more index alloc n = true := by
  induction n generalizing index alloc with
  | zero => simp [roomFor, h]
  | succ n ih =>
    rw [roomFor, decide_eq_true h, Bool.true_and]
    push_cast at hn
    split_ifs with hfull
    · rw [decide_eq_true (by omega), Bool.true_and]
      exact ih (by omega) (by omega) (by omega)
    · exact ih (by omega) (by omega) (by omega)

theorem page_length_le (width : ℤ) (ds : List BufferData) (s : ℤ × ℤ) : (page width ds s).1.length ≤ ds.length := by
  fun_induction page width ds s with
  | case1 => exact Nat.le_refl 0
  | case2 data ds s hlines bytes cp s' hscan iov ds' hpage ih =>
    rw [hpage] at ih
    exact Nat.succ_le_succ ih
  | case3 data ds s hover => exact Nat.zero_le _

theorem hasRoom_of_lt {width height : ℤ} (hproduct : lines height * (columns width + 2) < 2 ^ 30) (hlen : b.head.length < 2 ^ 29)
    (erase noMore : Bool) : b.hasRoom width height erase noMore = true := by
  have hlines : 1 ≤ lines height := by
    unfold lines
    split_ifs <;> omega
  have hcolumns : 1 ≤ columns width := by
    unfold columns
    split_ifs <;> omega
  obtain ⟨alloc, halloc, hpos⟩ : ∃ alloc, b.iovAlloc (columns width) (lines height) = some alloc ∧ 3 ≤ alloc := by
    unfold iovAlloc
    split
    · exact ⟨3, rfl, Int.le_refl 3⟩
    · have hnonneg : 0 ≤ lines height * (columns width + 2) := Int.mul_nonneg (by omega) (by omega)
      have hquotient : 0 ≤ lines height * (columns width + 2) / b.size := Int.ediv_nonneg hnonneg (Int.natCast_nonneg _)
      have hle : lines height * (columns width + 2) / b.size ≤ lines height * (columns width + 2) := Int.ediv_le_self _ hnonneg
      rw [if_pos (by omega)]
      refine ⟨_, rfl, ?_⟩
      rw [cInt_of_eq (Int.toNat_of_nonneg (by omega)).symm (by omega)]
      omega
  have hpage := page_length_le (columns width) b.head (lines height, 1)
  unfold hasRoom
  rw [halloc]
  dsimp only
  rw [decide_eq_true (by omega), Bool.true_and]
  cases erase
  · exact roomFor_of_lt _ (by decide) (by simp; omega) (by simp; omega)
  · exact roomFor_of_lt _ (by decide) (by simp; omega) (by simp; omega)

/-! ## Short writes -/

/-- What is not taken has no byte of the buffer in it: not behind what a call takes of its slice, and not from the slice on whose
call fails. -/
def Kept (iovMax : ℕ) (results : ℕ → Writev) (iov : List WindowIov) : Prop :=
  ∀ k, match results k with
    | .failed => own (marked (iov.drop (k * iovMax))) = []
    | .took n => own ((marked ((iov.drop (k * iovMax)).take iovMax)).drop n) = []

theorem Kept.of_own_eq_nil (h : own (marked iov) = []) : Kept iovMax results iov := by
  intro k
  have hdrop : own (marked (iov.drop (k * iovMax))) = [] := by
    rw [← own_marked_take_append_drop (k * iovMax)] at h
    exact (List.append_eq_nil_iff.mp h).2
  split
  · exact hdrop
  · rename_i n _
    rw [← own_marked_take_append_drop iovMax] at hdrop
    have htake := (List.append_eq_nil_iff.mp hdrop).1
    rw [← own_take_append_drop n] at htake
    exact (List.append_eq_nil_iff.mp htake).2

theorem kept_failed (h : results 0 = .failed) : Kept iovMax results iov ↔ own (marked iov) = [] := by
  refine ⟨fun hkept => ?_, Kept.of_own_eq_nil⟩
  have hfirst := hkept 0
  rwa [h, Nat.zero_mul, List.drop_zero] at hfirst

theorem kept_took {n : ℕ} (h : results 0 = .took n) : Kept iovMax results iov ↔
    own ((marked (iov.take iovMax)).drop n) = [] ∧ Kept iovMax (fun k => results (k + 1)) (iov.drop iovMax) := by
  have hdrop (k : ℕ) : (iov.drop iovMax).drop (k * iovMax) = iov.drop ((k + 1) * iovMax) := by
    rw [List.drop_drop, Nat.succ_mul, Nat.add_comm]
  refine ⟨fun hkept => ⟨?_, fun k => ?_⟩, fun ⟨hfirst, hrest⟩ k => ?_⟩
  · have hfirst := hkept 0
    rwa [h, Nat.zero_mul, List.drop_zero] at hfirst
  · rw [hdrop]
    exact hkept (k + 1)
  · cases k with
    | zero => rwa [h, Nat.zero_mul, List.drop_zero]
    | succ k =>
      have hnext := hrest k
      rwa [hdrop] at hnext

theorem writevs_spec (hmax : 0 < iovMax) (n : ℕ) (s : Sending) (hn : s.iov.length < n) :
    ∃ r, Loop.run (writevRound iovMax results) n s = some r ∧ ∃ xs, r.sent = s.sent ++ xs ∧
      (own xs).Sublist (own (marked s.iov)) ∧ (own xs = own (marked s.iov) ↔ Kept iovMax (fun k => results (s.calls + k)) s.iov) := by
  induction n generalizing s with
  | zero => exact absurd hn (Nat.not_lt_zero _)
  | succ n ih =>
    by_cases hnil : s.iov = []
    · have hround : writevRound iovMax results s = .inr s := if_pos hnil
      refine ⟨s, Loop.run_leave hround n, [], (List.append_nil _).symm, List.nil_sublist _, ?_⟩
      rw [hnil]
      exact iff_of_true rfl (Kept.of_own_eq_nil rfl)
    · cases hresult : results s.calls with
      | failed =>
        have hround : writevRound iovMax results s = .inr { s with failed := true } := by rw [writevRound, if_neg hnil, hresult]
        refine ⟨_, Loop.run_leave hround n, [], (List.append_nil _).symm, List.nil_sublist _, ?_⟩
        rw [kept_failed hresult]
        exact eq_comm
      | took m =>
        have hround : writevRound iovMax results s =
            .inl ⟨s.iov.drop iovMax, s.calls + 1, s.sent ++ (marked (s.iov.take iovMax)).take m, false⟩ := by
          rw [writevRound, if_neg hnil, hresult]
        have hpos := List.length_pos_of_ne_nil hnil
        obtain ⟨r, hrun, xs, hsent, hsub, hkept⟩ := ih ⟨s.iov.drop iovMax, s.calls + 1, s.sent ++ (marked (s.iov.take iovMax)).take m, false⟩
          (by rw [List.length_drop]; omega)
        refine ⟨r, (Loop.run_again hround n).trans hrun, (marked (s.iov.take iovMax)).take m ++ xs, by rw [hsent, List.append_assoc], ?_, ?_⟩
        · rw [own_append, ← own_marked_take_append_drop iovMax s.iov]
          exact (own_sublist (List.take_sublist m _)).append hsub
        · have hcalls : (fun k => results (s.calls + (k + 1))) = fun k => results (s.calls + 1 + k) :=
            funext fun k => congrArg results (by omega)
          rw [kept_took hresult, hcalls, ← hkept, own_append, ← own_marked_take_append_drop iovMax s.iov, ← own_take_append_drop m (marked (s.iov.take iovMax)),
            List.append_assoc, List.append_cancel_left_eq]
          refine ⟨fun heq => ?_, fun ⟨hnone, heq⟩ => by rw [hnone, heq, List.nil_append]⟩
          have hlen := congrArg List.length heq
          have hle := hsub.length_le
          rw [List.length_append] at hlen
          dsimp only at hle
          exact ⟨List.eq_nil_of_length_eq_zero (by omega), hsub.eq_of_length (by dsimp only; omega)⟩

/-- With room for the vector, and only then, the bytes of the buffer that are taken and those that are left are what it held, when none
is behind what the calls take. -/
theorem buffer_flush_window_keeps (hmax : 0 < iovMax) (width height : ℤ) (erase noMore : Bool) :
    (∃ status sent b', b.flushWindow iovMax results width height erase noMore = some (status, sent, b') ∧ own sent ++ b'.content = b.content) ↔
      b.head = [] ∨ (b.hasRoom width height erase noMore = true ∧
        Kept iovMax results (window (columns width) (lines height) erase noMore b.head).1) := by
  unfold flushWindow
  split_ifs with hnil hroom
  · exact iff_of_true ⟨_, _, _, rfl, rfl⟩ (.inl hnil)
  · rw [or_iff_right hnil, and_iff_right hroom]
    have hcontent := window_content (columns width) (lines height) erase noMore b.head
    generalize window (columns width) (lines height) erase noMore b.head = r at hcontent
    obtain ⟨s, hrun, xs, hsent, -, hkept⟩ := @writevs_spec _ results hmax (r.1.length + 1) ⟨r.1, 0, [], false⟩ (Nat.lt_succ_self _)
    have hwritevs : writevs iovMax results r.1 = some s := hrun
    rw [List.nil_append] at hsent
    have hcalls : (fun k => results (0 + k)) = results := funext fun k => congrArg results (Nat.zero_add k)
    dsimp only at hkept
    rw [hcalls] at hkept
    rw [← hkept, ← hsent]
    dsimp only
    rw [hwritevs, Option.map_some]
    have hleft : own s.sent ++ pending (r.2.dropWhile fun data => data.sp = data.cp) = b.content ↔ own s.sent = own (marked r.1) := by
      rw [content, pending_dropWhile, ← hcontent, List.append_cancel_right_eq]
    rw [← hleft]
    refine ⟨?_, fun hkeep => ⟨_, _, _, rfl, hkeep⟩⟩
    rintro ⟨_, _, _, heq, hkeep⟩
    obtain ⟨-, heq⟩ := Prod.mk.inj (Option.some.inj heq)
    obtain ⟨rfl, rfl⟩ := Prod.mk.inj heq
    exact hkeep
  · exact iff_of_false (by simp) fun h => h.elim hnil fun h => hroom h.1

/-- A chunk with two bytes pending. -/
def twoBytes : Buffer := ⟨[⟨2, 0, [65, 66, 0, 0]⟩], 4⟩

/-- A call that takes one byte of two, and one that fails. -/
theorem short_write_loses :
    twoBytes.flushWindow 1024 (fun _ => .took 1) 80 24 false false = some (.empty, [(true, 65)], ⟨[], 4⟩) ∧
      own [(true, 65)] ++ content ⟨[], 4⟩ ≠ twoBytes.content ∧
      twoBytes.flushWindow 1024 (fun _ => .failed) 80 24 false false = some (.error, [], ⟨[], 4⟩) ∧
      own [] ++ content ⟨[], 4⟩ ≠ twoBytes.content := by
  decide +kernel

theorem buffer_flush_window_keeps_sample : ∃ status sent b',
    twoBytes.flushWindow 1024 (fun _ => .took 2) 80 24 false false = some (status, sent, b') ∧ own sent ++ b'.content = twoBytes.content := by
  have hroom : twoBytes.hasRoom 80 24 false false = true := hasRoom_of_lt (by decide) (by decide) false false
  refine (buffer_flush_window_keeps (by decide) 80 24 false false).mpr (.inr ⟨hroom, fun k => ?_⟩)
  have hwindow : (window (columns 80) (lines 24) false false twoBytes.head).1 = [.chunk [65, 66]] := by decide +kernel
  rw [hwindow]
  cases k with
  | zero => decide
  | succ k =>
    rw [List.drop_eq_nil_of_le (by simp; omega)]
    rfl

end Yjc.Buffer
