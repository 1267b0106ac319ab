import Yjc.Lib.CBlock
import Yjc.Lib.Loop

/-! Command lines, in `base/cmd.c`. Allocations succeed, and characters from 128 on are no white space. -/

namespace Yjc.Base
open CLib Mem

inductive ArgState
  | NONE
  | IN_WORD
  | IN_QUOTES
deriving DecidableEq

/-- An entry of `args`: nothing yet, `NULL`, or the string that was the `b`th to be allocated. -/
inductive Arg
  | unset
  | null
  | string (b : ℕ)
deriving DecidableEq

structure CmdArglist where
  count : ℕ
  args : List Arg
deriving DecidableEq

/-- What the counting pass makes of a character. -/
def cmdCount (s : ArgState × ℕ) (c : UInt8) : ArgState × ℕ :=
  match s.1 with
  | .NONE => if isspace c then s else if c = ch '"' then (.IN_QUOTES, s.2) else (.IN_WORD, s.2)
  | .IN_QUOTES => if isspace c then s else if c = ch '"' then (.NONE, s.2 + 1) else s
  | .IN_WORD => if isspace c then (.NONE, s.2 + 1) else s

def cmdCountPass (s : List UInt8) : ℕ :=
  let (state, count) := s.foldl cmdCount (.NONE, 0)
  if state ≠ .NONE then count + 1 else count

/-- The variables of the filling pass, with the line it cuts and the strings it has allocated. -/
structure CmdFill where
  line : List UInt8
  strptr : ℕ
  startptr : ℕ
  i : ℕ
  state : ArgState
  args : List Arg
  strings : List (List UInt8)

namespace CmdFill

/-- `arglist->args[i++] = cmd_strdup(startptr)`. -/
def put (f : CmdFill) : Option CmdFill := do
  let s ← stringAt f.line f.startptr
  let args ← write f.args f.i [.string f.strings.length]
  return { f with args := args, i := f.i + 1, strings := f.strings ++ [s] }

def cut (f : CmdFill) : Option CmdFill := do
  let f ← put { f with line := f.line.set f.strptr 0 }
  return { f with state := .NONE }

/-- What the filling pass makes of the character under the cursor. -/
def char (f : CmdFill) (c : UInt8) : Option CmdFill :=
  match f.state with
  | .NONE =>
    some (if isspace c then f
      else if c = ch '"' then { f with state := .IN_QUOTES, startptr := f.strptr + 1 }
      else { f with state := .IN_WORD, startptr := f.strptr })
  | .IN_QUOTES => if c = ch '"' then f.cut else some f
  | .IN_WORD => if isspace c then f.cut else some f

/-- One round of the filling pass, which leaves at the `NUL`. -/
def round (f : CmdFill) : CmdFill ⊕ Option CmdFill :=
  match f.line[f.strptr]? with
  | none => .inr none
  | some c =>
    if c = 0 then .inr (some f)
    else
      match f.char c with
      | none => .inr none
      | some f => .inl { f with strptr := f.strptr + 1 }

/-- The last argument, and the `NULL` after it. -/
def finish (count : ℕ) (f : CmdFill) : Option (CmdArglist × List (List UInt8)) := do
  let f ← if f.state ≠ .NONE ∧ f.i < count then f.put else some f
  let args ← write f.args f.i [.null]
  return (⟨count, args⟩, f.strings)

end CmdFill

/-- `cmd_parse_arguments` of the line at the front of a block, with the strings it allocates. An access outside of the line or of `args`
has no result. -/
def cmdParseArguments (line : List UInt8) : Option (CmdArglist × List (List UInt8)) := do
  let count := cmdCountPass (← stringAt line 0)
  let start : CmdFill := ⟨line, 0, 0, 0, .NONE, List.replicate (count + 1) .unset, []⟩
  (← (Loop.run CmdFill.round line.length start).join).finish count

inductive CmdFreeEvent
  | read (i : ℕ)
  | string (b : ℕ)
  | array
  | list
deriving DecidableEq

/-- A round of the loop of `cmd_free_arglist`, whose bound is a `size_t`. It has no result where it reads outside of `args`. -/
def cmdFreeRound (r : CmdArglist) (s : ℕ × List CmdFreeEvent) : (ℕ × List CmdFreeEvent) ⊕ Option (List CmdFreeEvent) :=
  if s.1 < (r.count + (2 ^ 64 - 1)) % 2 ^ 64 then
    match r.args[s.1]? with
    | some (.string b) => .inl (s.1 + 1, s.2 ++ [.read s.1, .string b])
    | some .null => .inl (s.1 + 1, s.2 ++ [.read s.1])
    | _ => .inr none
  else .inr (some (s.2 ++ [.array, .list]))

/-- What `cmd_free_arglist` reads of `args`, and what it frees. -/
def cmdFreeArglist (r : CmdArglist) : Option (List CmdFreeEvent) := (Loop.run (cmdFreeRound r) (r.args.length + 1) (0, [])).join

/-- `cmd_free_arglist` of what `cmd_parse_arguments` made of a line frees every string, the array and the list once, and reads no entry but
those of the strings. -/
def CmdFreesAll (line : List UInt8) : Prop :=
  ∃ r strings events, cmdParseArguments line = some (r, strings) ∧ cmdFreeArglist r = some events ∧
    (∀ b < strings.length, events.count (.string b) = 1) ∧ (∀ i, .read i ∈ events → i < r.count) ∧
    events.count .array = 1 ∧ events.count .list = 1

/-- The tokens of a line: from its first character that is no space on, the text up to the next quote after a quote, or else the characters up to
the next space. -/
def cmdTokens : List UInt8 → List (List UInt8)
  | [] => []
  | c :: m =>
    if isspace c then cmdTokens m
    else if c = ch '"' then m.takeWhile (· ≠ ch '"') :: cmdTokens ((m.dropWhile (· ≠ ch '"')).drop 1)
    else (c :: m.takeWhile (!isspace ·)) :: cmdTokens (m.dropWhile (!isspace ·))
termination_by m => m.length
decreasing_by
  · exact Nat.lt_succ_self _
  · exact Nat.lt_succ_of_le ((List.drop_sublist _ _).trans (List.dropWhile_sublist _)).length_le
  · exact Nat.lt_succ_of_le (List.dropWhile_sublist _).length_le

/-! ## Both passes see the same tokens -/

/-- The tokens that are still to come in a state, where `w` is what has been read of the present one. -/
def tokensFrom : ArgState → List UInt8 → List UInt8 → List (List UInt8)
  | .NONE, _, [] => []
  | _, w, [] => [w]
  | .NONE, _, c :: m =>
    if isspace c then tokensFrom .NONE [] m else if c = ch '"' then tokensFrom .IN_QUOTES [] m else tokensFrom .IN_WORD [c] m
  | .IN_QUOTES, w, c :: m => if c = ch '"' then w :: tokensFrom .NONE [] m else tokensFrom .IN_QUOTES (w ++ [c]) m
  | .IN_WORD, w, c :: m => if isspace c then w :: tokensFrom .NONE [] m else tokensFrom .IN_WORD (w ++ [c]) m

variable {count : ℕ} {line w m rest post : List UInt8} {ts : List (List UInt8)} {c : UInt8} {f : CmdFill} {s : ArgState}

theorem tokensFrom_word (w m : List UInt8) :
    tokensFrom .IN_WORD w m = (w ++ m.takeWhile (!isspace ·)) :: tokensFrom .NONE [] (m.dropWhile (!isspace ·)) := by
  induction m generalizing w with
  | nil => simp [tokensFrom]
  | cons c m ih =>
    by_cases hc : isspace c
    · simp [tokensFrom, hc]
    · simp [tokensFrom, hc, ih]

theorem tokensFrom_quotes (w m : List UInt8) :
    tokensFrom .IN_QUOTES w m = (w ++ m.takeWhile (· ≠ ch '"')) :: tokensFrom .NONE [] ((m.dropWhile (· ≠ ch '"')).drop 1) := by
  induction m generalizing w with
  | nil => simp [tokensFrom]
  | cons c m ih =>
    by_cases hc : c = ch '"'
    · simp [tokensFrom, hc]
    · simp [tokensFrom, hc, ih]

theorem tokensFrom_none (m : List UInt8) : tokensFrom .NONE [] m = cmdTokens m := by
  induction m using cmdTokens.induct with
  | case1 => rw [tokensFrom, cmdTokens]
  | case2 c m hc ih => rw [tokensFrom, cmdTokens, if_pos hc, if_pos hc, ih]
  | case3 m hc ih => rw [tokensFrom, cmdTokens, if_neg hc, if_neg hc, if_pos rfl, if_pos rfl, tokensFrom_quotes, ih, List.nil_append]
  | case4 c m hc hq ih => rw [tokensFrom, cmdTokens, if_neg hc, if_neg hc, if_neg hq, if_neg hq, tokensFrom_word, ih, List.singleton_append]

theorem isspace_quote : isspace (ch '"') = false := rfl

theorem cmdCount_step (w m : List UInt8) (n : ℕ) :
    ∃ w', (cmdCount (s, n) c).2 + (tokensFrom (cmdCount (s, n) c).1 w' m).length = n + (tokensFrom s w (c :: m)).length := by
  cases s with
  | NONE =>
    by_cases hc : isspace c
    · exact ⟨[], by simp [cmdCount, tokensFrom, hc]⟩
    · by_cases hq : c = ch '"'
      · exact ⟨[], by simp [cmdCount, tokensFrom, isspace_quote, hq]⟩
      · exact ⟨[c], by simp [cmdCount, tokensFrom, hc, hq]⟩
  | IN_WORD =>
    by_cases hc : isspace c
    · exact ⟨[], by simp only [cmdCount, tokensFrom, hc, if_true, List.length_cons]; omega⟩
    · exact ⟨w ++ [c], by simp [cmdCount, tokensFrom, hc]⟩
  | IN_QUOTES =>
    by_cases hq : c = ch '"'
    · subst hq
      exact ⟨[], by simp only [cmdCount, tokensFrom, isspace_quote, Bool.false_eq_true, if_false, if_true, List.length_cons]; omega⟩
    · exact ⟨w ++ [c], by simp [cmdCount, tokensFrom, hq]⟩

theorem cmdCount_foldl (s : ArgState) (w m : List UInt8) (n : ℕ) :
    (if (m.foldl cmdCount (s, n)).1 ≠ .NONE then (m.foldl cmdCount (s, n)).2 + 1 else (m.foldl cmdCount (s, n)).2) =
      n + (tokensFrom s w m).length := by
  induction m generalizing s w n with
  | nil => cases s <;> rfl
  | cons c m ih =>
    obtain ⟨w', hstep⟩ := cmdCount_step (s := s) (c := c) w m n
    rw [List.foldl_cons, ← hstep]
    exact ih _ w' _

theorem cmdCountPass_eq (m : List UInt8) : cmdCountPass m = (cmdTokens m).length := by
  have hcount := cmdCount_foldl .NONE [] m 0
  rw [Nat.zero_add, tokensFrom_none] at hcount
  exact hcount

/-- The first `n` strings, and then entries without a value. -/
def argsUpTo (n count : ℕ) : List Arg := (List.range n).map .string ++ List.replicate (count - n) .unset

theorem write_argsUpTo {n : ℕ} (h : n < count) : write (argsUpTo n count) n [.string n] = some (argsUpTo (n + 1) count) := by
  have hrep : List.replicate (count - n) Arg.unset = [Arg.unset] ++ List.replicate (count - (n + 1)) .unset := by
    rw [show count - n = count - (n + 1) + 1 by omega, List.replicate_succ, List.singleton_append]
  have hn : n = ((List.range n).map Arg.string).length := by rw [List.length_map, List.length_range]
  have hlen : [Arg.unset].length = [Arg.string n].length := rfl
  rw [argsUpTo, hrep, write_append _ hn hlen, argsUpTo, List.range_succ, List.map_append, List.append_assoc]
  rfl

/-- The filling pass with `rest` before it, having read `w` of the present argument. -/
structure Filling (ts : List (List UInt8)) (post w rest : List UInt8) (f : CmdFill) : Prop where
  cursor : ∃ pre, f.line = pre ++ (w ++ (rest ++ 0 :: post)) ∧ f.strptr = (pre ++ w).length ∧ (f.state ≠ .NONE → f.startptr = pre.length)
  nonzero : 0 ∉ w ∧ 0 ∉ rest
  tokens : f.strings ++ tokensFrom f.state w rest = ts
  stored : f.i = f.strings.length
  args : f.args = argsUpTo f.strings.length (ts.length + 1)

namespace Filling

theorem put (h : 0 ∉ w) {pre : List UInt8} (hline : f.line = pre ++ (w ++ 0 :: post)) (hstart : f.startptr = pre.length)
    (hi : f.i = f.strings.length) (hargs : f.args = argsUpTo f.strings.length count) (hlt : f.strings.length < count) :
    f.put = some { f with
      args := argsUpTo (f.strings.length + 1) count, i := f.strings.length + 1, strings := f.strings ++ [w] } := by
  rw [CmdFill.put, hline, stringAt_append h hstart, hargs, hi, Option.bind_eq_bind, Option.bind_some, write_argsUpTo hlt]
  rfl

theorem line_get (h : Filling ts post w (c :: rest) f) : f.line[f.strptr]? = some c := by
  obtain ⟨pre, hline, hptr, -⟩ := h.cursor
  rw [hline, hptr, ← List.append_assoc, List.getElem?_append_right (Nat.le_refl _), Nat.sub_self]
  rfl

theorem cut (h : Filling ts post w (c :: rest) f) (hs : f.state ≠ .NONE) (hend : tokensFrom f.state w (c :: rest) = w :: tokensFrom .NONE [] rest) :
    ∃ f', f.cut = some f' ∧ Filling ts post [] rest { f' with strptr := f'.strptr + 1 } := by
  obtain ⟨pre, hline, hptr, hstart⟩ := h.cursor
  have htokens := h.tokens
  rw [hend] at htokens
  have hlen := congrArg List.length htokens
  rw [List.length_append, List.length_cons] at hlen
  have hset : f.line.set f.strptr 0 = pre ++ (w ++ 0 :: (rest ++ 0 :: post)) := by
    rw [hline, hptr, ← List.append_assoc, List.set_append_right _ _ (Nat.le_refl _), Nat.sub_self, List.append_assoc]
    rfl
  have hput := @put (ts.length + 1) w (rest ++ 0 :: post) { f with line := f.line.set f.strptr 0 } h.nonzero.1 pre hset (hstart hs) h.stored h.args
    (by change f.strings.length < _; omega)
  refine ⟨_, by rw [CmdFill.cut, hput]; rfl, ⟨pre ++ (w ++ [0]), ?_, ?_, fun hne => absurd rfl hne⟩, ?_, ?_, ?_, ?_⟩
  · simp [hset]
  · simp [hptr]
    omega
  · exact ⟨List.not_mem_nil, fun h0 => h.nonzero.2 (List.mem_cons_of_mem c h0)⟩
  · rw [← htokens, List.append_cons]
  · rw [List.length_append]
    rfl
  · rw [List.length_append]
    rfl

theorem keep (h : Filling ts post w (c :: rest) f) {w' : List UInt8} {state : ArgState} {startptr : ℕ}
    (htokens : tokensFrom f.state w (c :: rest) = tokensFrom state w' rest)
    (hcursor : ∃ pre, f.line = pre ++ (w' ++ (rest ++ 0 :: post)) ∧ f.strptr + 1 = (pre ++ w').length ∧ (state ≠ .NONE → startptr = pre.length))
    (hw : 0 ∉ w') : Filling ts post w' rest { f with state := state, startptr := startptr, strptr := f.strptr + 1 } :=
  ⟨hcursor, ⟨hw, fun h0 => h.nonzero.2 (List.mem_cons_of_mem c h0)⟩, by rw [← h.tokens, htokens], h.stored, h.args⟩

theorem head_ne (h : Filling ts post w (c :: rest) f) : c ≠ 0 := fun h0 => h.nonzero.2 (h0 ▸ List.mem_cons_self)

theorem char_none (h : Filling ts post w (c :: rest) f) (hs : f.state = .NONE) :
    ∃ w' f', f.char c = some f' ∧ Filling ts post w' rest { f' with strptr := f'.strptr + 1 } := by
  obtain ⟨pre, hline, hptr, -⟩ := h.cursor
  have hlen : f.strptr + 1 = (pre ++ (w ++ [c])).length := by simp [hptr, Nat.add_assoc]
  have hpre : f.line = pre ++ (w ++ [c]) ++ (rest ++ 0 :: post) := by simp [hline]
  have hskip : f.line = pre ++ (w ++ [c]) ++ ([] ++ (rest ++ 0 :: post)) ∧ f.strptr + 1 = (pre ++ (w ++ [c]) ++ []).length :=
    ⟨hpre, by rw [hlen, List.append_nil]⟩
  have htokens : tokensFrom f.state w (c :: rest) =
      if isspace c then tokensFrom f.state [] rest else if c = ch '"' then tokensFrom .IN_QUOTES [] rest else tokensFrom .IN_WORD [c] rest := by
    rw [hs, tokensFrom]
  have hchar : f.char c = some (if isspace c then f else if c = ch '"' then { f with state := .IN_QUOTES, startptr := f.strptr + 1 }
      else { f with state := .IN_WORD, startptr := f.strptr }) := by
    rw [CmdFill.char, hs]
  rw [hchar]
  split_ifs at htokens ⊢ with hc hq
  · exact ⟨[], f, rfl, h.keep htokens ⟨_, hskip.1, hskip.2, fun hne => absurd hs hne⟩ List.not_mem_nil⟩
  · exact ⟨[], _, rfl, h.keep htokens ⟨_, hskip.1, hskip.2, fun _ => hlen⟩ List.not_mem_nil⟩
  · refine ⟨[c], _, rfl, h.keep htokens ⟨pre ++ w, by simp [hline], by rw [hlen, List.append_assoc], fun _ => hptr⟩ ?_⟩
    simpa using h.head_ne.symm

theorem char_word (h : Filling ts post w (c :: rest) f) (hs : f.state ≠ .NONE) {p : Prop} [Decidable p]
    (hchar : f.char c = if p then f.cut else some f)
    (htokens : tokensFrom f.state w (c :: rest) = if p then w :: tokensFrom .NONE [] rest else tokensFrom f.state (w ++ [c]) rest) :
    ∃ w' f', f.char c = some f' ∧ Filling ts post w' rest { f' with strptr := f'.strptr + 1 } := by
  by_cases hp : p
  · rw [if_pos hp] at hchar htokens
    obtain ⟨f', hcut, hf'⟩ := h.cut hs htokens
    exact ⟨[], f', hchar.trans hcut, hf'⟩
  · rw [if_neg hp] at hchar htokens
    obtain ⟨pre, hline, hptr, hstart⟩ := h.cursor
    refine ⟨w ++ [c], f, hchar, h.keep htokens ⟨pre, by simp [hline], by simp [hptr, Nat.add_assoc], hstart⟩ ?_⟩
    simpa [h.nonzero.1] using h.head_ne.symm

theorem char (h : Filling ts post w (c :: rest) f) :
    ∃ w' f', f.char c = some f' ∧ Filling ts post w' rest { f' with strptr := f'.strptr + 1 } := by
  cases hs : f.state with
  | NONE => exact h.char_none hs
  | IN_WORD =>
    have hne : f.state ≠ .NONE := by rw [hs]; decide
    exact h.char_word hne (by rw [CmdFill.char, hs]) (by rw [hs, tokensFrom])
  | IN_QUOTES =>
    have hne : f.state ≠ .NONE := by rw [hs]; decide
    exact h.char_word hne (by rw [CmdFill.char, hs]) (by rw [hs, tokensFrom])

theorem run (h : Filling ts post w rest f) :
    ∃ w' f', Loop.run CmdFill.round (rest.length + 1) f = some (some f') ∧ Filling ts post w' [] f' := by
  induction rest generalizing w f with
  | nil =>
    obtain ⟨pre, hline, hptr, -⟩ := h.cursor
    have hget : f.line[f.strptr]? = some 0 := by
      rw [hline, hptr, ← List.append_assoc, List.getElem?_append_right (Nat.le_refl _), Nat.sub_self]
      rfl
    refine ⟨w, f, Loop.run_leave ?_ 0, h⟩
    rw [CmdFill.round, hget]
    rfl
  | cons c rest ih =>
    obtain ⟨w₁, f₁, hchar, h₁⟩ := h.char
    obtain ⟨w', f', hrun, h'⟩ := ih h₁
    refine ⟨w', f', ?_, h'⟩
    rw [List.length_cons, Loop.run_again _ _, hrun]
    rw [CmdFill.round, h.line_get]
    simp only [if_neg h.head_ne, hchar]

theorem finish (h : Filling ts post w [] f) :
    f.finish ts.length = some (⟨ts.length, (List.range ts.length).map Arg.string ++ [Arg.null]⟩, ts) := by
  have htokens := h.tokens
  have hlast {n : ℕ} : write (argsUpTo n (n + 1)) n [.null] = some ((List.range n).map Arg.string ++ [Arg.null]) := by
    have hn : n = ((List.range n).map Arg.string).length := by rw [List.length_map, List.length_range]
    rw [argsUpTo, Nat.add_sub_cancel_left]
    exact @write_append _ _ [.unset] [] [.null] n hn rfl
  rw [CmdFill.finish]
  by_cases hs : f.state = .NONE
  · rw [hs, tokensFrom, List.append_nil] at htokens
    rw [if_neg fun hcond => hcond.1 hs]
    rw [Option.bind_eq_bind, Option.bind_some]
    change (write f.args f.i [.null]).bind _ = _
    rw [h.args, h.stored, htokens, hlast]
    rfl
  · have hone : tokensFrom f.state w [] = [w] := by
      cases hstate : f.state with
      | NONE => exact absurd hstate hs
      | IN_WORD => rfl
      | IN_QUOTES => rfl
    rw [hone] at htokens
    have hlen : f.strings.length + 1 = ts.length := by rw [← htokens, List.length_append, List.length_singleton]
    obtain ⟨pre, hline, -, hstart⟩ := h.cursor
    rw [List.nil_append] at hline
    have hput := put h.nonzero.1 hline (hstart hs) h.stored h.args (by omega)
    rw [if_pos ⟨hs, by rw [h.stored]; omega⟩, hput, Option.bind_eq_bind, Option.bind_some]
    change (write (argsUpTo _ _) _ [.null]).bind _ = _
    rw [hlen, hlast, htokens]
    rfl

end Filling

/-- The list of `n` arguments. -/
def arglist (n : ℕ) : CmdArglist := ⟨n, (List.range n).map .string ++ [.null]⟩

theorem cmdParseArguments_eq (line post : List UInt8) (h : 0 ∉ line) :
    cmdParseArguments (line ++ 0 :: post) = some (arglist (cmdTokens line).length, cmdTokens line) := by
  have hstart : Filling (cmdTokens line) post [] line
      ⟨line ++ 0 :: post, 0, 0, 0, .NONE, List.replicate ((cmdTokens line).length + 1) .unset, []⟩ :=
    ⟨⟨[], rfl, rfl, fun hne => absurd rfl hne⟩, ⟨List.not_mem_nil, h⟩, by rw [tokensFrom_none]; rfl, rfl, rfl⟩
  obtain ⟨w, f, hrun, hf⟩ := hstart.run
  have hfuel : line.length + 1 ≤ (line ++ 0 :: post).length := by simp
  rw [cmdParseArguments, stringAt_front h, Option.bind_eq_bind, Option.bind_some, cmdCountPass_eq]
  change (Loop.run CmdFill.round _ _).join.bind _ = _
  rw [Loop.run_mono hfuel hrun]
  exact hf.finish

theorem args_string {n i : ℕ} (h : i < n) : (arglist n).args[i]? = some (.string i) := by
  have hlen : i < ((List.range n).map Arg.string).length := by rwa [List.length_map, List.length_range]
  rw [arglist, List.getElem?_append_left hlen, List.getElem?_map, List.getElem?_range h, Option.map_some]

/-- Both passes see the tokens of the line: as many are counted as are stored, followed by `NULL`, and every access stays in the line and
in the array of `count + 1` entries. -/
theorem cmdParseArguments_tokens (line post : List UInt8) (h : 0 ∉ line) :
    ∃ r, cmdParseArguments (line ++ 0 :: post) = some (r, cmdTokens line) ∧ r.count = (cmdTokens line).length ∧
      r.args.length = r.count + 1 ∧ (∀ i < r.count, r.args[i]? = some (.string i)) ∧ r.args[r.count]? = some .null := by
  refine ⟨_, cmdParseArguments_eq line post h, rfl, by simp [arglist], fun i hi => args_string hi, ?_⟩
  have hlen : (arglist (cmdTokens line).length).count = ((List.range (cmdTokens line).length).map Arg.string).length := by
    rw [List.length_map, List.length_range]
    rfl
  rw [hlen, arglist, List.getElem?_append_right (Nat.le_refl _), Nat.sub_self]
  rfl

theorem cmdParseArguments_tokens_words :
    cmdTokens [ch '"', ch '"', ch 'a', ch '"', ch 'b', ch ' ', ch '"', ch ' ', ch 'c'] = [[], [ch 'a', ch '"', ch 'b'], [ch ' ', ch 'c']] ∧
      ∃ r, cmdParseArguments ([ch '"', ch '"', ch 'a', ch '"', ch 'b', ch ' ', ch '"', ch ' ', ch 'c'] ++ [0]) =
          some (r, cmdTokens [ch '"', ch '"', ch 'a', ch '"', ch 'b', ch ' ', ch '"', ch ' ', ch 'c']) ∧
        r.count = (cmdTokens [ch '"', ch '"', ch 'a', ch '"', ch 'b', ch ' ', ch '"', ch ' ', ch 'c']).length ∧
        r.args.length = r.count + 1 ∧ (∀ i < r.count, r.args[i]? = some (.string i)) ∧ r.args[r.count]? = some .null :=
  ⟨by decide +kernel, cmdParseArguments_tokens _ [] (by decide)⟩

/-! ## The strings that are freed -/

theorem cmdFree_run {n bound : ℕ} (hbound : ((arglist n).count + (2 ^ 64 - 1)) % 2 ^ 64 = bound) (hn : bound ≤ n) {k i : ℕ} (hi : i + k = bound)
    (events : List CmdFreeEvent) :
    Loop.run (cmdFreeRound (arglist n)) (k + 1) (i, events) =
      some (some (events ++ ((List.range' i k).flatMap fun i => [CmdFreeEvent.read i, .string i]) ++ [CmdFreeEvent.array, .list])) := by
  induction k generalizing i events with
  | zero =>
    refine Loop.run_leave ?_ 0
    rw [cmdFreeRound, if_neg (by omega)]
    simp
  | succ k ih =>
    have hround : cmdFreeRound (arglist n) (i, events) = .inl (i + 1, events ++ [CmdFreeEvent.read i, .string i]) := by
      rw [cmdFreeRound, if_pos (by omega), args_string (by omega)]
    rw [Loop.run_again hround, ih (by omega), List.range'_succ, List.flatMap_cons, List.append_assoc events]

theorem cmdFreeArglist_eq (n : ℕ) :
    cmdFreeArglist (arglist 0) = none ∧
      cmdFreeArglist (arglist (n + 1)) =
        some (((List.range' 0 (n % 2 ^ 64)).flatMap fun i => [CmdFreeEvent.read i, .string i]) ++ [CmdFreeEvent.array, .list]) := by
  refine ⟨by decide, ?_⟩
  have hle : n % 2 ^ 64 ≤ n := Nat.mod_le n _
  have hbound : ((arglist (n + 1)).count + (2 ^ 64 - 1)) % 2 ^ 64 = n % 2 ^ 64 := by
    change (n + 1 + (2 ^ 64 - 1)) % 2 ^ 64 = _
    omega
  have hrun := cmdFree_run hbound (Nat.le_succ_of_le hle) (Nat.zero_add _) []
  have hfuel : n % 2 ^ 64 + 1 ≤ (arglist (n + 1)).args.length + 1 := by simp [arglist]; omega
  rw [cmdFreeArglist, Loop.run_mono hfuel hrun]
  rfl

/-- The string of the last argument is never freed, and where there is none the array is read past its end. -/
theorem not_cmdFreesAll (line post : List UInt8) (h : 0 ∉ line) : ¬CmdFreesAll (line ++ 0 :: post) := by
  rintro ⟨r, strings, events, hparse, hfree, hstrings, -⟩
  rw [cmdParseArguments_eq line post h] at hparse
  obtain ⟨rfl, rfl⟩ := Prod.mk.inj (Option.some.inj hparse)
  cases hcount : (cmdTokens line).length with
  | zero =>
    rw [hcount] at hfree
    exact Option.some_ne_none events (hfree.symm.trans (cmdFreeArglist_eq 0).1)
  | succ n =>
    rw [hcount] at hfree hstrings
    have hevents := Option.some.inj ((cmdFreeArglist_eq n).2.symm.trans hfree)
    have hmem : CmdFreeEvent.string n ∈ events := List.count_pos_iff.mp (by rw [hstrings n (Nat.lt_succ_self n)]; exact Nat.one_pos)
    have hmod := Nat.mod_le n (2 ^ 64)
    rw [← hevents] at hmem
    simp at hmem
    omega

theorem not_cmdFreesAll_quit : ¬CmdFreesAll ([ch 'q', ch 'u', ch 'i', ch 't'] ++ [0]) := not_cmdFreesAll _ [] (by decide)

/-- The only string of a line of one word. -/
theorem cmdFreesAll_leak : ¬CmdFreesAll [ch 'l', ch 's', 0] := by
  rintro ⟨r, strings, events, hparse, hfree, hstrings, -⟩
  have hls : cmdParseArguments [ch 'l', ch 's', 0] = some (arglist 1, [[ch 'l', ch 's']]) := by decide +kernel
  obtain ⟨rfl, rfl⟩ := Prod.mk.inj (Option.some.inj (hls.symm.trans hparse))
  have hevents := Option.some.inj ((show cmdFreeArglist (arglist 1) = some [.array, .list] by decide).symm.trans hfree)
  have hcount := hstrings 0 Nat.one_pos
  rw [← hevents] at hcount
  exact absurd hcount (by decide)

end Yjc.Base
