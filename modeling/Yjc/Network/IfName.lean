import Yjc.Lib.CString
import Yjc.Lib.Loop

/-! The order of interface names, in `network/if.c`. -/

namespace Yjc.Network
open CLib ThreeWay

/-- A round from the numbers on, which `p1` and `p2` begin with after their common name part. The lengths of the spans are `unsigned int`. -/
def ifCmpNumbers (p1 p2 : List UInt8) : (List UInt8 × List UInt8) ⊕ ℤ :=
  if p1 = [] ∧ p2 = [] then .inr 0
  else if p1 = [] then .inr (-1)
  else if p2 = [] then .inr 1
  else if strtol p1 < strtol p2 then .inr (-1)
  else if strtol p2 < strtol p1 then .inr 1
  else if digitSpan p1 % 2 ^ 32 ≠ digitSpan p2 % 2 ^ 32 then .inr (strcmp p1 p2)
  else .inl (strtolEnd p1, strtolEnd p2)

/-- One round of the loop: it goes on with the rests of the strings, or returns. -/
def ifCmpRound (p : List UInt8 × List UInt8) : (List UInt8 × List UInt8) ⊕ ℤ :=
  if p.1 = [] ∨ p.2 = [] then .inr (if p.1 ≠ [] then 1 else if p.2 ≠ [] then -1 else 0)
  else if digitCspan p.1 % 2 ^ 32 ≠ digitCspan p.2 % 2 ^ 32 then .inr (strcmp p.1 p.2)
  else if strncmp p.1 p.2 (digitCspan p.1 % 2 ^ 32) ≠ 0 then .inr (strncmp p.1 p.2 (digitCspan p.1 % 2 ^ 32))
  else ifCmpNumbers (p.1.drop (digitCspan p.1 % 2 ^ 32)) (p.2.drop (digitCspan p.1 % 2 ^ 32))

/-- The result of `if_cmp_name_func`, within some number of rounds. -/
def IfCmpName (p1 p2 : List UInt8) (r : ℤ) : Prop := ∃ fuel, Loop.run ifCmpRound fuel (p1, p2) = some r

/-- Strings without `NUL` whose runs of digits, and of other characters, are shorter than `n`; the runs of digits are numbers below
`2 ^ 63`. What holds of the maximal runs holds of those within them. -/
structure Name (n : ℕ) (s : List UInt8) : Prop where
  nonzero : ∀ c ∈ s, c ≠ 0
  digits : ∀ run, run <:+: s → (∀ c ∈ run, isdigit c) → run.length < n ∧ digitsValue run < 2 ^ 63
  others : ∀ run, run <:+: s → (∀ c ∈ run, ¬isdigit c) → run.length < n

/-- The signs are those of a total order of the strings in `S`, in which a string comes before its extensions by digits. -/
structure OrdersNames (S : List UInt8 → Prop) : Prop where
  terminates : ∀ s t, S s → S t → ∃ r, IfCmpName s t r
  zero : ∀ s t r, S s → S t → IfCmpName s t r → (r = 0 ↔ s = t)
  antisymm : ∀ s t q r, S s → S t → IfCmpName s t q → IfCmpName t s r → (q < 0 ↔ 0 < r)
  trans : ∀ s t u p q r, S s → S t → S u → IfCmpName s t p → IfCmpName t u q → IfCmpName s u r → p ≤ 0 → q ≤ 0 → r ≤ 0
  before : ∀ s d t r, S s → S (s ++ d :: t) → isdigit d → IfCmpName s (s ++ d :: t) r → r < 0

/-! ## The order by tokens -/

/-- Characters below the digits come first, those above them last. -/
def charToken (c : UInt8) : List ℤ := if c < ch '0' then [0, c.toNat] else [2, c.toNat]

/-- A number is compared by its value, and the longer of two equal numbers comes first. The zeros of the number zero stand for themselves. -/
def runToken (ds : List UInt8) : List ℤ :=
  if digitsValue ds = 0 then (List.replicate ds.length [1, 0, 0]).flatten else [1, digitsValue ds, -ds.length]

def nameKey : List UInt8 → List ℤ
  | [] => []
  | c :: m =>
    if isdigit c then runToken (c :: m.takeWhile isdigit) ++ nameKey (m.dropWhile isdigit) else charToken c ++ nameKey m
termination_by s => s.length
decreasing_by
  · exact Nat.lt_succ_of_le (List.dropWhile_sublist _).length_le
  · exact Nat.lt_succ_self _

variable {s t D E : List UInt8} {a b c : UInt8} {n : ℕ}

theorem nameKey_nil : nameKey [] = [] := by rw [nameKey]

theorem nameKey_char (h : ¬isdigit c) (m : List UInt8) : nameKey (c :: m) = charToken c ++ nameKey m := by rw [nameKey, if_neg h]

theorem nameKey_run (hD : ∀ c ∈ D, isdigit c) (hne : D ≠ []) (hs : NotFrom isdigit s) : nameKey (D ++ s) = runToken D ++ nameKey s := by
  cases D with
  | nil => exact absurd rfl hne
  | cons d D =>
    obtain ⟨htake, hdrop⟩ := span_append (fun c hc => hD c (List.mem_cons_of_mem d hc)) hs
    rw [List.cons_append, nameKey, if_pos (hD d List.mem_cons_self), htake, hdrop]

theorem runToken_cons (hne : D ≠ []) : ∃ l, runToken D = 1 :: l := by
  rw [runToken]
  split_ifs
  · obtain ⟨n, hn⟩ := Nat.exists_eq_succ_of_ne_zero (mt List.length_eq_zero_iff.mp hne)
    rw [hn]
    exact ⟨_, rfl⟩
  · exact ⟨_, rfl⟩

theorem nameKey_digit (h : isdigit c) (m : List UInt8) : ∃ l, nameKey (c :: m) = 1 :: l := by
  obtain ⟨l, hl⟩ := runToken_cons (List.cons_ne_nil c (m.takeWhile isdigit))
  rw [nameKey, if_pos h, hl]
  exact ⟨_, rfl⟩

theorem char_range (h : ¬isdigit c) : c.toNat < 48 ∨ 57 < c.toNat := by
  by_contra hrange
  refine h (decide_eq_true ⟨UInt8.le_iff_toNat_le.mpr ?_, UInt8.le_iff_toNat_le.mpr ?_⟩)
  · change 48 ≤ c.toNat
    omega
  · change c.toNat ≤ 57
    omega

theorem charToken_below (h : c.toNat < 48) : charToken c = [0, (c.toNat : ℤ)] := if_pos (UInt8.lt_iff_toNat_lt.mpr h)

theorem charToken_above (h : 57 < c.toNat) : charToken c = [2, (c.toNat : ℤ)] := by
  refine if_neg fun hlt => ?_
  have hnat : c.toNat < 48 := UInt8.lt_iff_toNat_lt.mp hlt
  omega

theorem nameKey_chars (ha : ¬isdigit a) (hb : ¬isdigit b) (s t : List UInt8) :
    threeWay (nameKey (a :: s)) (nameKey (b :: t)) =
      if a = b then threeWay (nameKey s) (nameKey t) else threeWay a.toNat b.toNat := by
  -- characters other than digits are compared one by one
  rw [nameKey_char ha, nameKey_char hb]
  have hcast : threeWay (a.toNat : ℤ) b.toNat = threeWay a.toNat b.toNat := threeWay_congr Nat.cast_lt Nat.cast_lt
  have hab : (a.toNat : ℤ) = b.toNat ↔ a = b := by rw [Nat.cast_inj, UInt8.toNat_inj]
  rcases char_range ha with ha | ha <;> rcases char_range hb with hb | hb
  · simp only [charToken_below ha, charToken_below hb, List.cons_append, List.nil_append, threeWay_cons, if_true, hab, hcast]
  · rw [charToken_below ha, charToken_above hb, if_neg (by rintro rfl; omega), threeWay_lt (by omega : a.toNat < b.toNat)]
    exact threeWay_lt (List.cons_lt_cons_iff.mpr (.inl (by decide)))
  · rw [charToken_above ha, charToken_below hb, if_neg (by rintro rfl; omega), threeWay_gt (by omega : b.toNat < a.toNat)]
    exact threeWay_gt (List.cons_lt_cons_iff.mpr (.inl (by decide)))
  · simp only [charToken_above ha, charToken_above hb, List.cons_append, List.nil_append, threeWay_cons, if_true, hab, hcast]

theorem number_char (ha : isdigit a) (hb : ¬isdigit b) (l : List ℤ) (t : List UInt8) :
    threeWay (1 :: l) (nameKey (b :: t)) = threeWay a.toNat b.toNat := by
  have hrange := digit_range ha
  rw [nameKey_char hb]
  rcases char_range hb with hb | hb
  · rw [charToken_below hb, threeWay_gt (by omega : b.toNat < a.toNat)]
    exact threeWay_gt (List.cons_lt_cons_iff.mpr (.inl (by decide)))
  · rw [charToken_above hb, threeWay_lt (by omega : a.toNat < b.toNat)]
    exact threeWay_lt (List.cons_lt_cons_iff.mpr (.inl (by decide)))

theorem threeWay_nil_cons {α : Type*} [LinearOrder α] (x : α) (l : List α) : threeWay [] (x :: l) = -1 := threeWay_lt (List.nil_lt_cons x l)

theorem nameKey_strcmp (h : digitCspan s ≠ digitCspan t) : threeWay (nameKey s) (nameKey t) = strcmp s t := by
  induction s generalizing t with
  | nil =>
    cases t with
    | nil => exact absurd rfl h
    | cons b t =>
      have hb : ¬isdigit b := fun hb => h (digitCspan_digit hb t).symm
      rw [nameKey_nil, nameKey_char hb, strcmp, charToken]
      split_ifs <;> exact threeWay_nil_cons _ _
  | cons a s ih =>
    cases t with
    | nil =>
      have ha : ¬isdigit a := fun ha => h (digitCspan_digit ha s)
      rw [threeWay_swap, nameKey_nil, nameKey_char ha, strcmp, charToken]
      split_ifs <;> rw [List.cons_append, threeWay_nil_cons] <;> rfl
    | cons b t =>
      have hne (hd : isdigit a ↔ ¬isdigit b) : a ≠ b := by
        rintro rfl
        exact absurd hd (by by_cases h : isdigit a <;> simp [h])
      rw [strcmp]
      by_cases ha : isdigit a <;> by_cases hb : isdigit b
      · exact absurd ((digitCspan_digit ha s).trans (digitCspan_digit hb t).symm) h
      · obtain ⟨l, hl⟩ := nameKey_digit ha s
        rw [hl, number_char ha hb, if_neg (hne (iff_of_true ha hb))]
      · obtain ⟨l, hl⟩ := nameKey_digit hb t
        rw [threeWay_swap, hl, number_char hb ha, ← threeWay_swap, if_neg (hne (iff_of_false ha (not_not_intro hb)))]
      · rw [nameKey_chars ha hb]
        rw [digitCspan_char ha, digitCspan_char hb] at h
        rw [ih fun heq => h (congrArg _ heq)]

theorem nameKey_common {A B : List UInt8} (hA : ∀ c ∈ A, ¬isdigit c) (hB : ∀ c ∈ B, ¬isdigit c) (hlen : A.length = B.length) :
    threeWay (nameKey (A ++ s)) (nameKey (B ++ t)) = if A = B then threeWay (nameKey s) (nameKey t) else strcmp A B := by
  induction A generalizing B with
  | nil => rw [List.length_eq_zero_iff.mp hlen.symm, if_pos rfl, List.nil_append, List.nil_append]
  | cons a A ih =>
    cases B with
    | nil => cases hlen
    | cons b B =>
      rw [List.cons_append, List.cons_append, nameKey_chars (hA a List.mem_cons_self) (hB b List.mem_cons_self),
        ih (fun c hc => hA c (List.mem_cons_of_mem a hc)) (fun c hc => hB c (List.mem_cons_of_mem b hc)) (Nat.succ.inj hlen), strcmp]
      by_cases hab : a = b
      · simp only [hab, if_true, List.cons_eq_cons, true_and]
      · simp only [hab, if_false, List.cons_eq_cons, false_and]

theorem nameKey_values (hD : ∀ c ∈ D, isdigit c) (hD0 : D ≠ []) (hs : NotFrom isdigit s) (hE : ∀ c ∈ E, isdigit c) (hE0 : E ≠ [])
    (ht : NotFrom isdigit t) (h : digitsValue D < digitsValue E) : threeWay (nameKey (D ++ s)) (nameKey (E ++ t)) = -1 := by
  have hE1 : runToken E = [1, (digitsValue E : ℤ), -(E.length : ℤ)] := if_neg (by omega)
  rw [nameKey_run hD hD0 hs, nameKey_run hE hE0 ht, hE1]
  apply threeWay_lt
  rw [runToken]
  split_ifs with hz
  · obtain ⟨n, hn⟩ := Nat.exists_eq_succ_of_ne_zero (mt List.length_eq_zero_iff.mp hD0)
    rw [hn, List.replicate_succ]
    exact List.cons_lt_cons_iff.mpr (.inr ⟨rfl, List.cons_lt_cons_iff.mpr (.inl (by omega))⟩)
  · exact List.cons_lt_cons_iff.mpr (.inr ⟨rfl, List.cons_lt_cons_iff.mpr (.inl (by omega))⟩)

theorem nameKey_leading (hD : ∀ c ∈ D, isdigit c) (hs : NotFrom isdigit s) (hE : ∀ c ∈ E, isdigit c) (ht : NotFrom isdigit t)
    (h : digitsValue D = digitsValue E) (h0 : digitsValue D ≠ 0) (hlen : D.length < E.length) :
    threeWay (nameKey (D ++ s)) (nameKey (E ++ t)) = 1 := by
  have hD0 : D ≠ [] := by
    rintro rfl
    exact h0 rfl
  have hE0 : E ≠ [] := by
    rintro rfl
    exact absurd hlen (Nat.not_lt_zero _)
  rw [nameKey_run hD hD0 hs, nameKey_run hE hE0 ht, runToken, if_neg h0, runToken, if_neg (h ▸ h0), h]
  apply threeWay_gt
  exact List.cons_lt_cons_iff.mpr (.inr ⟨rfl, List.cons_lt_cons_iff.mpr (.inr ⟨rfl, List.cons_lt_cons_iff.mpr (.inl (by omega))⟩)⟩)

theorem zeros_eq (hD : ∀ c ∈ D, isdigit c) (h : digitsValue D = 0) : D = List.replicate D.length (ch '0') := by
  have hzeros : digitsValue (List.replicate D.length (ch '0')) = 0 := by
    clear hD h
    induction D with
    | nil => rfl
    | cons d D ih =>
      rw [List.length_cons, List.replicate_succ, digitsValue_cons, ih]
      exact Nat.zero_mul _
  exact digits_inj hD (fun c hc => by rw [List.eq_of_mem_replicate hc]; decide) (by rw [List.length_replicate]) (h.trans hzeros.symm)

theorem zeros_strcmp (hs : NotFrom isdigit s) {i j : ℕ} (h : i < j) :
    threeWay ((List.replicate i [1, 0, 0]).flatten ++ nameKey s) ((List.replicate j [1, 0, 0]).flatten ++ nameKey t) =
      strcmp (List.replicate i (ch '0') ++ s) (List.replicate j (ch '0') ++ t) := by
  induction i generalizing j with
  | zero =>
    obtain ⟨j, rfl⟩ := Nat.exists_eq_succ_of_ne_zero (Nat.ne_of_gt h)
    simp only [List.replicate_zero, List.flatten_nil, List.nil_append, List.replicate_succ, List.flatten_cons, List.cons_append]
    cases s with
    | nil =>
      rw [nameKey_nil]
      exact threeWay_nil_cons _ _
    | cons b s =>
      have hb : ¬isdigit b := notFrom_cons.mp hs
      have hne : b ≠ ch '0' := by
        rintro rfl
        exact hb (by decide)
      rw [threeWay_swap, number_char (show isdigit (ch '0') from by decide) hb, ← threeWay_swap, strcmp, if_neg hne]
  | succ i ih =>
    obtain ⟨j, rfl⟩ := Nat.exists_eq_succ_of_ne_zero (Nat.ne_of_gt (Nat.zero_lt_of_lt h))
    have hrest := ih (Nat.lt_of_succ_lt_succ h)
    simp only [List.replicate_succ, List.flatten_cons, List.cons_append, List.nil_append, threeWay_cons, strcmp, if_true]
    exact hrest

theorem nameKey_equal_values (hD : ∀ c ∈ D, isdigit c) (hD0 : D ≠ []) (hs : NotFrom isdigit s) (hE : ∀ c ∈ E, isdigit c) (hE0 : E ≠ [])
    (ht : NotFrom isdigit t) (h : digitsValue D = digitsValue E) (hlen : D.length < E.length) :
    threeWay (nameKey (D ++ s)) (nameKey (E ++ t)) = strcmp (D ++ s) (E ++ t) := by
  -- equal numbers with different counts of leading zeros
  by_cases h0 : digitsValue D = 0
  · rw [nameKey_run hD hD0 hs, nameKey_run hE hE0 ht, runToken, if_pos h0, runToken, if_pos (h ▸ h0), zeros_strcmp hs hlen,
      ← zeros_eq hD h0, ← zeros_eq hE (h ▸ h0)]
  · rw [nameKey_leading hD hs hE ht h h0 hlen, strcmp_zeros hD hE hlen h h0]

theorem nameKey_lengths (hD : ∀ c ∈ D, isdigit c) (hD0 : D ≠ []) (hs : NotFrom isdigit s) (hE : ∀ c ∈ E, isdigit c) (hE0 : E ≠ [])
    (ht : NotFrom isdigit t) (h : digitsValue D = digitsValue E) (hlen : D.length ≠ E.length) :
    threeWay (nameKey (D ++ s)) (nameKey (E ++ t)) = strcmp (D ++ s) (E ++ t) := by
  rcases Nat.lt_or_gt_of_ne hlen with hlt | hgt
  · exact nameKey_equal_values hD hD0 hs hE hE0 ht h hlt
  · rw [threeWay_swap, strcmp_swap, nameKey_equal_values hE hE0 ht hD hD0 hs h.symm hgt]

/-! ## The rounds -/

theorem Name.suffix {u : List UInt8} (h : Name n (u ++ s)) : Name n s :=
  ⟨fun c hc => h.nonzero c (List.mem_append_right u hc), fun run hrun => h.digits run (hrun.trans (List.suffix_append u s).isInfix),
    fun run hrun => h.others run (hrun.trans (List.suffix_append u s).isInfix)⟩

structure Round (s t s' t' : List UInt8) : Prop where
  left : Name (2 ^ 32) s'
  right : Name (2 ^ 32) t'
  order : threeWay (nameKey s') (nameKey t') = threeWay (nameKey s) (nameKey t)
  same : s' = t' → s = t

def Right (s t : List UInt8) (r : ℤ) : Prop := r = threeWay (nameKey s) (nameKey t) ∧ (r = 0 → s = t)

theorem name_split (hs : Name n s) : ∃ A D u, s = A ++ (D ++ u) ∧ (∀ c ∈ A, ¬isdigit c) ∧ (∀ c ∈ D, isdigit c) ∧ NotFrom isdigit u ∧
    (D = [] → u = []) ∧ A.length < n ∧ D.length < n ∧ digitsValue D < 2 ^ 63 := by
  obtain ⟨A, m, rfl, hA, hm, -⟩ := exists_span (!isdigit ·) s
  obtain ⟨D, u, rfl, hD, hu, -⟩ := exists_span isdigit m
  have hA' : ∀ c ∈ A, ¬isdigit c := fun c hc => by simpa using hA c hc
  have hdigits := hs.suffix.digits D (List.prefix_append D u).isInfix hD
  refine ⟨A, D, u, rfl, hA', hD, hu, ?_, hs.others A (List.prefix_append A _).isInfix hA', hdigits.1, hdigits.2⟩
  rintro rfl
  cases u with
  | nil => rfl
  | cons c u =>
    have hc := notFrom_cons.mp hm
    exact absurd (notFrom_cons.mp hu) (by simpa using hc)

theorem notFrom_other {u : List UInt8} (hD : ∀ c ∈ D, isdigit c) (hDu : D = [] → u = []) : NotFrom (!isdigit ·) (D ++ u) := by
  cases D with
  | nil =>
    rw [hDu rfl]
    exact nofun
  | cons d D => exact notFrom_cons.mpr (by simp [hD d List.mem_cons_self])

theorem digitCspan_append {A m : List UInt8} (hA : ∀ c ∈ A, ¬isdigit c) (hm : NotFrom (!isdigit ·) m) : digitCspan (A ++ m) = A.length := by
  rw [digitCspan, (span_append (fun c hc => by simpa using hA c hc) hm).1]

theorem nameKey_cons (c : UInt8) (m : List UInt8) : ∃ x l, nameKey (c :: m) = x :: l := by
  by_cases h : isdigit c
  · obtain ⟨l, hl⟩ := nameKey_digit h m
    exact ⟨1, l, hl⟩
  · rw [nameKey_char h, charToken]
    split_ifs <;> exact ⟨_, _, rfl⟩

theorem nameKey_end (h : s ≠ []) : threeWay (nameKey []) (nameKey s) = -1 := by
  obtain ⟨c, m, rfl⟩ := List.exists_cons_of_ne_nil h
  obtain ⟨x, l, hl⟩ := nameKey_cons c m
  rw [nameKey_nil, hl]
  exact threeWay_nil_cons x l

theorem right_end (h : t ≠ []) : Right [] t (-1) := ⟨(nameKey_end h).symm, fun h => absurd h (by decide)⟩

theorem right_after_end (h : s ≠ []) : Right s [] 1 := by
  refine ⟨?_, fun h => absurd h (by decide)⟩
  rw [threeWay_swap, nameKey_end h]
  rfl

theorem right_self (s : List UInt8) : Right s s 0 := ⟨(threeWay_eq_zero.mpr rfl).symm, fun _ => rfl⟩

/-- What a round ends with: shorter names in the same order, or the right result. -/
def RoundEnds (s t : List UInt8) (e : (List UInt8 × List UInt8) ⊕ ℤ) : Prop :=
  (∃ s' t', e = .inl (s', t') ∧ Round s t s' t' ∧ s'.length < s.length) ∨ ∃ r, e = .inr r ∧ Right s t r

theorem ifCmpNumbers_spec {u v : List UInt8} (hs : Name (2 ^ 32) (D ++ u)) (ht : Name (2 ^ 32) (E ++ v)) (hD : ∀ c ∈ D, isdigit c)
    (hu : NotFrom isdigit u) (hDu : D = [] → u = []) (hE : ∀ c ∈ E, isdigit c) (hv : NotFrom isdigit v) (hEv : E = [] → v = []) :
    RoundEnds (D ++ u) (E ++ v) (ifCmpNumbers (D ++ u) (E ++ v)) := by
  by_cases hp1 : D ++ u = []
  · by_cases hp2 : E ++ v = []
    · rw [ifCmpNumbers, if_pos ⟨hp1, hp2⟩, hp1, hp2]
      exact .inr ⟨0, rfl, right_self []⟩
    · rw [ifCmpNumbers, if_neg fun h => hp2 h.2, if_pos hp1, hp1]
      exact .inr ⟨-1, rfl, right_end hp2⟩
  by_cases hp2 : E ++ v = []
  · rw [ifCmpNumbers, if_neg fun h => hp1 h.1, if_neg hp1, if_pos hp2, hp2]
    exact .inr ⟨1, rfl, right_after_end hp1⟩
  have hD0 : D ≠ [] := fun h => hp1 (by rw [h, hDu h]; rfl)
  have hE0 : E ≠ [] := fun h => hp2 (by rw [h, hEv h]; rfl)
  obtain ⟨hDlen, hDval⟩ := hs.digits D (List.prefix_append D u).isInfix hD
  obtain ⟨hElen, hEval⟩ := ht.digits E (List.prefix_append E v).isInfix hE
  have hspanD : digitSpan (D ++ u) = D.length := by rw [digitSpan, (span_append hD hu).1]
  have hspanE : digitSpan (E ++ v) = E.length := by rw [digitSpan, (span_append hE hv).1]
  rw [ifCmpNumbers, if_neg fun h => hp1 h.1, if_neg hp1, if_neg hp2, strtol_digits hD hD0 hu hDval, strtol_digits hE hE0 hv hEval, hspanD,
    hspanE, Nat.mod_eq_of_lt hDlen, Nat.mod_eq_of_lt hElen, strtolEnd_digits hD hD0 hu, strtolEnd_digits hE hE0 hv]
  rcases lt_trichotomy (digitsValue D) (digitsValue E) with hlt | heq | hgt
  · rw [if_pos (Int.ofNat_lt.mpr hlt)]
    exact .inr ⟨-1, rfl, (nameKey_values hD hD0 hu hE hE0 hv hlt).symm, fun h => absurd h (by decide)⟩
  · rw [heq, if_neg (lt_irrefl _), if_neg (lt_irrefl _)]
    by_cases hlen : D.length = E.length
    · -- the numbers are the same digits
      obtain rfl := digits_inj hD hE hlen heq
      rw [if_neg (not_not_intro rfl)]
      refine .inl ⟨u, v, rfl, ⟨hs.suffix, ht.suffix, ?_, fun h => by rw [h]⟩, ?_⟩
      · rw [nameKey_run hD hD0 hu, nameKey_run hD hD0 hv, threeWay_append rfl, if_pos rfl]
      · rw [List.length_append]
        have := List.length_pos_of_ne_nil hD0
        omega
    · rw [if_pos hlen]
      exact .inr ⟨_, rfl, (nameKey_lengths hD hD0 hu hE hE0 hv heq hlen).symm, strcmp_eq_zero.mp⟩
  · rw [if_neg (Int.ofNat_lt.not.mpr hgt.not_gt), if_pos (Int.ofNat_lt.mpr hgt)]
    refine .inr ⟨1, rfl, ?_, fun h => absurd h (by decide)⟩
    rw [threeWay_swap, nameKey_values hE hE0 hv hD hD0 hu hgt]
    rfl

theorem ifCmpRound_spec (hs : Name (2 ^ 32) s) (ht : Name (2 ^ 32) t) : RoundEnds s t (ifCmpRound (s, t)) := by
  by_cases hempty : s = [] ∨ t = []
  · rw [ifCmpRound, if_pos hempty]
    by_cases hs0 : s = []
    · subst hs0
      by_cases ht0 : t = []
      · subst ht0
        exact .inr ⟨0, rfl, right_self []⟩
      · exact .inr ⟨-1, by rw [if_neg (not_not_intro rfl), if_pos ht0], right_end ht0⟩
    · obtain rfl := hempty.resolve_left hs0
      exact .inr ⟨1, by rw [if_pos hs0], right_after_end hs0⟩
  obtain ⟨A, D, u, rfl, hA, hD, hu, hDu, hAlen, -, -⟩ := name_split hs
  obtain ⟨B, E, v, rfl, hB, hE, hv, hEv, hBlen, -, -⟩ := name_split ht
  have hspanA := digitCspan_append hA (notFrom_other hD hDu)
  have hspanB := digitCspan_append hB (notFrom_other hE hEv)
  have htakeA : (A ++ (D ++ u)).take A.length = A := List.take_left
  rw [ifCmpRound, if_neg hempty]
  dsimp only
  rw [hspanA, hspanB, Nat.mod_eq_of_lt hAlen, Nat.mod_eq_of_lt hBlen]
  by_cases hlen : A.length = B.length
  · rw [if_neg (not_not_intro hlen), strncmp, htakeA, hlen, List.take_left]
    have hcommon := @nameKey_common (D ++ u) (E ++ v) A B hA hB hlen
    by_cases hAB : A = B
    · subst hAB
      rw [if_pos rfl] at hcommon
      rw [if_neg (not_not_intro (strcmp_eq_zero.mpr rfl)), List.drop_left, List.drop_left]
      rcases ifCmpNumbers_spec hs.suffix ht.suffix hD hu hDu hE hv hEv with ⟨s', t', he, hround, hlt⟩ | ⟨r, he, hright⟩
      · refine .inl ⟨s', t', he, ⟨hround.left, hround.right, hround.order.trans hcommon.symm, fun h => by rw [hround.same h]⟩, ?_⟩
        rw [List.length_append]
        omega
      · exact .inr ⟨r, he, hright.1.trans hcommon.symm, fun h => by rw [hright.2 h]⟩
    · rw [if_neg hAB] at hcommon
      rw [if_pos (mt strcmp_eq_zero.mp hAB)]
      exact .inr ⟨_, rfl, hcommon.symm, fun h => absurd (strcmp_eq_zero.mp h) hAB⟩
  · rw [if_pos hlen]
    refine .inr ⟨_, rfl, (nameKey_strcmp ?_).symm, strcmp_eq_zero.mp⟩
    rwa [hspanA, hspanB]

theorem ifCmpName_spec (hs : Name (2 ^ 32) s) (ht : Name (2 ^ 32) t) : ∃ r, IfCmpName s t r ∧ Right s t r := by
  have hrun := Loop.run_of_measure ifCmpRound (fun p => Round s t p.1 p.2) (Right s t) (fun p => p.1.length)
    (fun p q hp hq => ?_) (fun p r hp hr => ?_) (s := (s, t)) ⟨hs, ht, rfl, id⟩ (Nat.lt_succ_self _)
  · obtain ⟨r, hr, hright⟩ := hrun
    exact ⟨r, ⟨_, hr⟩, hright⟩
  · rcases ifCmpRound_spec hp.left hp.right with ⟨s', t', he, hround, hlt⟩ | ⟨r, he, -⟩
    · cases he.symm.trans hq
      exact ⟨⟨hround.left, hround.right, hround.order.trans hp.order, fun h => hp.same (hround.same h)⟩, hlt⟩
    · cases he.symm.trans hq
  · rcases ifCmpRound_spec hp.left hp.right with ⟨s', t', he, -, -⟩ | ⟨r', he, hright⟩
    · cases he.symm.trans hr
    · cases he.symm.trans hr
      exact ⟨hright.1.trans hp.order, fun h => hp.same (hright.2 h)⟩

theorem IfCmpName.unique {q r : ℤ} (hq : IfCmpName s t q) (hr : IfCmpName s t r) : q = r := by
  obtain ⟨m, hm⟩ := hq
  obtain ⟨n, hn⟩ := hr
  rcases Nat.le_total m n with h | h
  · exact Option.some.inj ((Loop.run_mono h hm).symm.trans hn)
  · exact Option.some.inj (hm.symm.trans (Loop.run_mono h hn))

/-! ## The laws -/

theorem nameKey_more_digits {F u : List UInt8} (hD : ∀ c ∈ D, isdigit c) (hD0 : D ≠ []) (hF : ∀ c ∈ F, isdigit c) (hF0 : F ≠ [])
    (hu : NotFrom isdigit u) : threeWay (nameKey D) (nameKey (D ++ (F ++ u))) = -1 := by
  have hDF : ∀ c ∈ D ++ F, isdigit c := List.forall_mem_append.mpr ⟨hD, hF⟩
  have hDF0 : D ++ F ≠ [] := fun h => hD0 (List.append_eq_nil_iff.mp h).1
  have hnil : NotFrom isdigit [] := nofun
  have hle : digitsValue D ≤ digitsValue (D ++ F) := by
    rw [digitsValue_append]
    exact (Nat.le_mul_of_pos_right _ (Nat.pow_pos (by decide))).trans (Nat.le_add_right _ _)
  rw [← List.append_nil D, ← List.append_assoc]
  rcases Nat.lt_or_eq_of_le hle with hlt | heq
  · rw [List.append_nil]
    have hvalues := nameKey_values hD hD0 hnil hDF hDF0 hu hlt
    rwa [List.append_nil] at hvalues
  · have hlen : D.length ≠ (D ++ F).length := by
      have := List.length_pos_of_ne_nil hF0
      rw [List.length_append]
      omega
    have hlengths := nameKey_lengths hD hD0 hnil hDF hDF0 hu heq hlen
    obtain ⟨c, F, rfl⟩ := List.exists_cons_of_ne_nil hF0
    rw [List.append_nil, List.append_assoc, List.cons_append, strcmp_append] at hlengths
    rw [List.append_nil, List.append_assoc, List.cons_append, hlengths]

theorem nameKey_before (hd : isdigit a) (s t : List UInt8) : threeWay (nameKey s) (nameKey (s ++ a :: t)) = -1 := by
  induction s using nameKey.induct with
  | case1 => exact nameKey_end (List.cons_ne_nil a t)
  | case2 c m hc ih =>
    obtain ⟨F, u, hm, hF, hu, htake, hdrop⟩ := exists_span isdigit m
    obtain ⟨G, w, hat, hG, hw, -, -⟩ := exists_span isdigit (a :: t)
    have hD : ∀ b ∈ c :: F, isdigit b := List.forall_mem_cons.mpr ⟨hc, hF⟩
    have hsplit : c :: m = (c :: F) ++ u := by rw [hm, List.cons_append]
    rw [hdrop] at ih
    rw [hsplit, List.append_assoc]
    cases u with
    | nil =>
      have hG0 : G ≠ [] := by
        rintro rfl
        rw [List.nil_append] at hat
        exact notFrom_cons.mp (hat ▸ hw) hd
      rw [List.append_nil, List.nil_append, hat]
      exact nameKey_more_digits hD (List.cons_ne_nil c F) hG hG0 hw
    | cons b u =>
      have hu' : NotFrom isdigit (b :: u ++ a :: t) := notFrom_cons.mpr (notFrom_cons.mp hu)
      rw [nameKey_run hD (List.cons_ne_nil c F) hu, nameKey_run hD (List.cons_ne_nil c F) hu', threeWay_append rfl, if_pos rfl]
      exact ih
  | case3 c m hc ih =>
    rw [List.cons_append, nameKey_chars hc hc, if_pos rfl]
    exact ih

theorem Name.mono {m : ℕ} (h : Name m s) (hmn : m ≤ n) : Name n s :=
  ⟨h.nonzero, fun run hrun hc => ⟨Nat.lt_of_lt_of_le (h.digits run hrun hc).1 hmn, (h.digits run hrun hc).2⟩,
    fun run hrun hc => Nat.lt_of_lt_of_le (h.others run hrun hc) hmn⟩

theorem ordersNames (h : n ≤ 2 ^ 32) : OrdersNames (Name n) := by
  have hspec {s t : List UInt8} {r : ℤ} (hs : Name n s) (ht : Name n t) (hr : IfCmpName s t r) : Right s t r := by
    obtain ⟨q, hq, hright⟩ := ifCmpName_spec (hs.mono h) (ht.mono h)
    exact hr.unique hq ▸ hright
  have horder := totalPreorder_key nameKey
  refine ⟨fun s t hs ht => ?_, fun s t r hs ht hr => ?_, fun s t q r hs ht hq hr => ?_, fun s t u p q r hs ht hu hp hq hr => ?_,
    fun s d t r hs ht hd hr => ?_⟩
  · obtain ⟨r, hr, -⟩ := ifCmpName_spec (hs.mono h) (ht.mono h)
    exact ⟨r, hr⟩
  · refine ⟨(hspec hs ht hr).2, ?_⟩
    rintro rfl
    rw [(hspec hs hs hr).1]
    exact threeWay_eq_zero.mpr rfl
  · rw [(hspec hs ht hq).1, (hspec ht hs hr).1]
    exact horder.swap s t
  · rw [(hspec hs ht hp).1, (hspec ht hu hq).1, (hspec hs hu hr).1]
    exact horder.trans s t u
  · rw [(hspec hs ht hr).1, nameKey_before hd]
    decide

theorem strtolEnd_letter (m : List UInt8) : strtolEnd (ch 'a' :: m) = ch 'a' :: m := by
  have hdrop : (ch 'a' :: m).dropWhile isspace = ch 'a' :: m := List.dropWhile_cons_of_neg (by decide)
  have hsign : Strtod.sign (ch 'a' :: m) = ([], ch 'a' :: m) := Strtod.sign_none (notFrom_cons.mpr (by decide))
  rw [strtolEnd, hdrop, hsign]
  exact if_pos (List.takeWhile_cons_of_neg (by decide))

/-- A name of letters whose length is a multiple of `2 ^ 32` is compared with itself for ever. -/
theorem ifCmpRound_letters {k : ℕ} (hk : (k + 1) % 2 ^ 32 = 0) :
    ifCmpRound (List.replicate (k + 1) (ch 'a'), List.replicate (k + 1) (ch 'a')) =
      .inl (List.replicate (k + 1) (ch 'a'), List.replicate (k + 1) (ch 'a')) := by
  have hne : List.replicate (k + 1) (ch 'a') ≠ [] := by
    rw [List.replicate_succ]
    exact List.cons_ne_nil _ _
  have hspan : digitCspan (List.replicate (k + 1) (ch 'a')) = k + 1 := by
    have happend := @digitCspan_append (List.replicate (k + 1) (ch 'a')) [] (fun c hc => by rw [List.eq_of_mem_replicate hc]; decide) nofun
    rwa [List.append_nil, List.length_replicate] at happend
  have hend : strtolEnd (List.replicate (k + 1) (ch 'a')) = List.replicate (k + 1) (ch 'a') := by
    rw [List.replicate_succ, strtolEnd_letter]
  rw [ifCmpRound, if_neg fun h => h.elim hne hne]
  dsimp only
  rw [hspan, hk, if_neg (not_not_intro rfl), strncmp, List.take_zero, if_neg (not_not_intro (strcmp_eq_zero.mpr rfl)), List.drop_zero, ifCmpNumbers,
    if_neg fun h => hne h.1, if_neg hne, if_neg hne, if_neg (lt_irrefl _), if_neg (lt_irrefl _), if_neg (not_not_intro rfl), hend]

theorem letters_diverge {k : ℕ} (hk : (k + 1) % 2 ^ 32 = 0) (r : ℤ) :
    ¬IfCmpName (List.replicate (k + 1) (ch 'a')) (List.replicate (k + 1) (ch 'a')) r := by
  rintro ⟨fuel, hrun⟩
  have hnone := Loop.run_none_of_trapped ifCmpRound (· = (List.replicate (k + 1) (ch 'a'), List.replicate (k + 1) (ch 'a')))
    (fun p hp => ⟨_, hp ▸ ifCmpRound_letters hk, rfl⟩) rfl fuel
  cases hnone.symm.trans hrun

theorem name_letters {k : ℕ} (h : k < n) : Name n (List.replicate k (ch 'a')) := by
  have hmem {run : List UInt8} (hrun : run <:+: List.replicate k (ch 'a')) : ∀ c ∈ run, c = ch 'a' :=
    fun c hc => List.eq_of_mem_replicate (hrun.subset hc)
  refine ⟨fun c hc => by rw [List.eq_of_mem_replicate hc]; decide, fun run hrun hdigits => ?_, fun run hrun _ => ?_⟩
  · have hnil : run = [] := by
      refine List.eq_nil_iff_forall_not_mem.mpr fun c hc => ?_
      have hdigit := hdigits c hc
      rw [hmem hrun c hc] at hdigit
      exact absurd hdigit (by decide)
    subst hnil
    exact ⟨Nat.lt_of_le_of_lt (Nat.zero_le k) h, by decide⟩
  · have hlen := hrun.length_le
    rw [List.length_replicate] at hlen
    omega

/-- The names whose runs are shorter than `n` are ordered exactly when an `unsigned int` holds the lengths of their runs. -/
theorem ordersNames_iff (n : ℕ) : OrdersNames (Name n) ↔ n ≤ 2 ^ 32 := by
  refine ⟨fun h => ?_, ordersNames⟩
  by_contra hn
  have hname : Name n (List.replicate (2 ^ 32 - 1 + 1) (ch 'a')) := name_letters (by omega)
  obtain ⟨r, hr⟩ := h.terminates _ _ hname hname
  exact letters_diverge (by norm_num) r hr

/-- `2 ^ 32` letters. -/
theorem ifCmpName_diverges : ¬∃ r, IfCmpName (List.replicate (2 ^ 32 - 1 + 1) (ch 'a')) (List.replicate (2 ^ 32 - 1 + 1) (ch 'a')) r :=
  not_exists.mpr (letters_diverge (by norm_num))

end Yjc.Network
