import Yjc.Util.JsonText

/-! The numbers that the parser reads. -/

namespace Yjc.Json
open CLib Strtod

/-- What may follow a value. -/
def Ends (c : UInt8) : Prop := isspace c ∨ c = ch ',' ∨ c = ch ']' ∨ c = ch '\x7d' ∨ c = 0

def Ended (m : List UInt8) : Prop := ∃ c rest, m = c :: rest ∧ Ends c

variable {D : Type} {toDouble : List UInt8 → D} {c : UInt8} {m rest : List UInt8}

theorem Ended.notFrom {p : UInt8 → Bool} (h : Ended m) (hp : ∀ c, Ends c → ¬p c) : NotFrom p m := by
  obtain ⟨c, rest, rfl, hc⟩ := h
  exact notFrom_cons.mpr (hp c hc)

instance (c : UInt8) : Decidable (Ends c) := inferInstanceAs (Decidable (_ ∨ _))

theorem ends_mem : Ends c → c ∈ [0x20, 0x09, 0x0a, 0x0b, 0x0c, 0x0d, ch ',', ch ']', ch '\x7d', 0] := by
  intro h
  simp [Ends, isspace, ch, UInt8.le_iff_toNat_le, ← UInt8.toNat_inj] at h ⊢
  omega

theorem not_of_ends {p : UInt8 → Bool} (h : [0x20, 0x09, 0x0a, 0x0b, 0x0c, 0x0d, ch ',', ch ']', ch '\x7d', 0].all (!p ·) = true) (c : UInt8)
    (hc : Ends c) : ¬p c := by
  -- a class that is tried on the few bytes which may follow a value
  have hp := List.all_eq_true.mp h c (ends_mem hc)
  exact fun hpc => by simp [hpc] at hp

theorem ends_digit (c : UInt8) : Ends c → ¬isdigit c := not_of_ends rfl c

theorem ends_e (c : UInt8) : Ends c → ¬decide (tolower c = ch 'e') = true := not_of_ends (p := fun c => tolower c = ch 'e') rfl c

theorem ends_point (c : UInt8) : Ends c → ¬decide (c = ch '.') = true := not_of_ends (p := fun c => c = ch '.') rfl c

/-! ## Reading a number -/

def tailOf (frac : Option (List UInt8)) (exp : Option Exponent) : List UInt8 :=
  frac.elim [] (ch '.' :: ·) ++ exp.elim [] Exponent.render

theorem Exponent.render_eq (e : Exponent) (rest : List UInt8) : e.render ++ rest = e.letter :: (e.sign ++ (e.digits ++ rest)) := by
  rw [Exponent.render, List.cons_append, List.append_assoc]

theorem tailOf_notFrom {p : UInt8 → Bool} (frac : Option (List UInt8)) {exp : Option Exponent} (hexp : ∀ e ∈ exp, e.Rfc)
    (hrest : Ended rest) (hpoint : ¬p (ch '.')) (he : ¬p (ch 'e')) (hE : ¬p (ch 'E')) (hends : ∀ c, Ends c → ¬p c) :
    NotFrom p (tailOf frac exp ++ rest) := by
  unfold tailOf
  cases frac with
  | some ds => exact notFrom_cons.mpr hpoint
  | none =>
    cases exp with
    | none => exact hrest.notFrom hends
    | some e => exact notFrom_cons.mpr (by rcases (hexp e rfl).letter with h | h <;> rw [h] <;> assumption)

theorem exponent_elim {exp : Option Exponent} (h : ∀ e ∈ exp, e.Rfc) (hrest : Ended rest) :
    exponent (ch 'e') (exp.elim [] Exponent.render ++ rest) = (exp.elim [] Exponent.render, rest) ∧
      NotFrom isdigit (exp.elim [] Exponent.render ++ rest) ∧ NotFrom (· = ch '.') (exp.elim [] Exponent.render ++ rest) := by
  cases exp with
  | none => exact ⟨exponent_none (hrest.notFrom ends_e), hrest.notFrom ends_digit, hrest.notFrom ends_point⟩
  | some e =>
    obtain ⟨hletter, hsign, hnonempty, hdigits⟩ := h e rfl
    have hlower : tolower e.letter = ch 'e' := by rcases hletter with h | h <;> rw [h] <;> decide
    have hnot : ¬isdigit e.letter ∧ ¬decide (e.letter = ch '.') = true := by rcases hletter with h | h <;> rw [h] <;> decide
    dsimp only [Option.elim]
    rw [Exponent.render_eq]
    exact ⟨exponent_append hlower hsign hnonempty hdigits (hrest.notFrom ends_digit), notFrom_cons.mpr hnot.1, notFrom_cons.mpr hnot.2⟩

theorem radix_tailOf {frac : Option (List UInt8)} {exp : Option Exponent} (hfrac : ∀ ds ∈ frac, Digits ds) (hexp : ∀ e ∈ exp, e.Rfc)
    (hrest : Ended rest) :
    radix isdigit (tailOf frac exp ++ rest) = (frac.elim [] (ch '.' :: ·), exp.elim [] Exponent.render ++ rest) := by
  obtain ⟨-, hdigit, hpoint⟩ := exponent_elim hexp hrest
  rw [tailOf, List.append_assoc]
  cases frac with
  | none => exact radix_none hpoint
  | some ds => exact radix_append (hfrac ds rfl) hdigit

theorem sequence_decimal {int : List UInt8} {frac : Option (List UInt8)} {exp : Option Exponent} (hint : Digits int)
    (hne : int ≠ [] ∨ ∃ ds, frac = some ds ∧ ds ≠ []) (hfrac : ∀ ds ∈ frac, Digits ds) (hexp : ∀ e ∈ exp, e.Rfc) (hrest : Ended rest) :
    sequence isdigit (ch 'e') (int ++ (tailOf frac exp ++ rest)) = some (int ++ tailOf frac exp, rest) := by
  have hexponent := (exponent_elim hexp hrest).1
  have hradix := radix_tailOf hfrac hexp hrest
  have hspan := span_append hint (tailOf_notFrom frac hexp hrest (by decide) (by decide) (by decide) ends_digit)
  rw [sequence_eq hspan.1 hspan.2 hradix hexponent, if_neg]
  · rfl
  · rintro ⟨rfl, hlen⟩
    obtain hint | ⟨ds, rfl, hds⟩ := hne
    · exact hint rfl
    · have := List.length_pos_iff.mpr hds
      rw [Option.elim_some, List.length_cons] at hlen
      omega

/-- The digit after a leading zero, or the letter of a hexadecimal number. -/
def afterZero (c : UInt8) : Bool := isdigit c ∨ c = ch 'X' ∨ c = ch 'x'

theorem leadingZero_cons (h : NotFrom afterZero m) (z : UInt8) : leadingZero (z :: m) = false := by
  cases m with
  | nil => rfl
  | cons c m =>
    have hc : ¬(isdigit c ∨ c = ch 'X' ∨ c = ch 'x') := by simpa [afterZero] using notFrom_cons.mp h
    exact decide_eq_false fun hboth => hc hboth.2

theorem leadingZero_of_ne {z : UInt8} (h : z ≠ ch '0') (m : List UInt8) : leadingZero (z :: m) = false := by
  cases m with
  | nil => rfl
  | cons c m => exact decide_eq_false fun hboth => h hboth.1

theorem hexadecimal_none (h : leadingZero m = false) : hexadecimal m = none := by
  cases m with
  | nil => rfl
  | cons z m =>
    cases m with
    | nil => rfl
    | cons x m =>
      refine if_neg fun hhex => of_decide_eq_false h ⟨hhex.1, .inr ?_⟩
      exact (tolower_cases hhex.2).symm

theorem IsInt.digits {int : List UInt8} (h : IsInt int) : Digits int ∧ int ≠ [] := by
  obtain rfl | ⟨c, ds, rfl, hge, hle, hds⟩ := h
  · exact ⟨List.forall_mem_singleton.mpr (by decide), nofun⟩
  · have hc : isdigit c := decide_eq_true ⟨UInt8.le_trans (by decide) hge, hle⟩
    exact ⟨List.forall_mem_cons.mpr ⟨hc, hds⟩, nofun⟩

theorem subject_decimal {minus : Bool} {int : List UInt8} {frac : Option (List UInt8)} {exp : Option Exponent}
    (h : (Numeral.decimal minus int frac exp).Wide) (hrest : Ended rest) :
    leadingZero (int ++ (tailOf frac exp ++ rest)) = false ∧
      subject (int ++ (tailOf frac exp ++ rest)) = some (int ++ tailOf frac exp, rest) := by
  obtain ⟨hint, hfrac, hexp⟩ := h
  have hzero : leadingZero (int ++ (tailOf frac exp ++ rest)) = false := by
    obtain (rfl | ⟨c, ds, rfl, hge, -, -⟩) | ⟨-, rfl, ds, rfl, -⟩ := hint
    · exact leadingZero_cons (tailOf_notFrom _ hexp hrest (by decide) (by decide) (by decide)
        (not_of_ends rfl)) _
    · refine leadingZero_of_ne ?_ _
      rintro rfl
      exact absurd hge (by decide)
    · exact leadingZero_of_ne (by decide) _
  have hsequence : sequence isdigit (ch 'e') (int ++ (tailOf frac exp ++ rest)) = some (int ++ tailOf frac exp, rest) := by
    obtain hint | ⟨-, rfl, ds, hds⟩ := hint
    · exact sequence_decimal hint.digits.1 (.inl hint.digits.2) hfrac hexp hrest
    · exact sequence_decimal nofun (.inr ⟨ds, hds⟩) hfrac hexp hrest
  refine ⟨hzero, ?_⟩
  rw [subject, hexadecimal_none hzero, hsequence]
  rfl

theorem subject_of_letter {a : UInt8} (h : tolower a = ch 'i' ∨ tolower a = ch 'n') (m : List UInt8) :
    leadingZero (a :: m) = false ∧ subject (a :: m) = named (a :: m) := by
  obtain ⟨hzero, hdigit, hpoint⟩ : a ≠ ch '0' ∧ ¬isdigit a ∧ ¬decide (a = ch '.') = true := by
    obtain h | h := h <;> obtain rfl | rfl := tolower_cases h <;> decide
  have hleading := leadingZero_of_ne hzero m
  refine ⟨hleading, ?_⟩
  rw [subject, hexadecimal_none hleading, sequence_none (notFrom_cons.mpr hdigit) (notFrom_cons.mpr hpoint)]
  rfl

theorem named_append {w : List UInt8} (h : Named w) (hrest : Ended rest) : named (w ++ rest) = some (w, rest) := by
  have hparen : NotFrom (· = ch '(') rest :=
    hrest.notFrom (not_of_ends (p := fun c => c = ch '(') rfl)
  obtain h | h | ⟨n, hn, hw⟩ := h
  · rw [named, word_append h]
    rfl
  · obtain ⟨c, m, rfl, hc⟩ := hrest
    have hlonger := word_longer h (fun heq => not_of_ends (p := fun c => tolower c = ch 'i') rfl c hc (decide_eq_true heq))
      [ch 'n', ch 'i', ch 't', ch 'y'] m
    have hinf : Strtod.infinity = inf ++ ch 'i' :: [ch 'n', ch 'i', ch 't', ch 'y'] := rfl
    rw [named, hinf, hlonger, word_append h]
    rfl
  · have hnone (m : List UInt8) : word Strtod.infinity (n ++ m) = none ∧ word inf (n ++ m) = none := by
      cases n with
      | nil => cases hn
      | cons a n =>
        have ha : tolower a ≠ ch 'i' := by
          rw [(List.cons.inj hn).1]
          decide
        exact ⟨word_none ha _ _, word_none ha _ _⟩
    obtain rfl | ⟨cs, rfl, hcs⟩ := hw
    · rw [named, (hnone _).1, (hnone _).2, word_append hn, Option.map_some]
      dsimp only
      rw [ncharSequence_none hparen, List.append_nil]
      rfl
    · have hassoc : n ++ ch '(' :: (cs ++ [ch ')']) ++ rest = n ++ ch '(' :: (cs ++ ch ')' :: rest) := by
        rw [List.append_assoc, List.cons_append, List.append_assoc, List.singleton_append]
      rw [hassoc, named, (hnone _).1, (hnone _).2, word_append hn, Option.map_some]
      dsimp only
      rw [ncharSequence_append hcs]
      rfl

theorem strtod_minus (toDouble : List UInt8 → D) (m : List UInt8) :
    strtod toDouble (ch '-' :: m) = (subject m).map fun r => (toDouble (ch '-' :: r.1), r.2) := by
  rfl

theorem strtod_digit (h : isdigit c) (toDouble : List UInt8 → D) (m : List UInt8) :
    strtod toDouble (c :: m) = (subject (c :: m)).map fun r => (toDouble r.1, r.2) := by
  obtain ⟨hspace, hsign⟩ := isdigit_other h
  rw [strtod, List.dropWhile_cons_of_neg hspace, sign_none (notFrom_cons.mpr fun h => hsign (of_decide_eq_true h))]
  rfl

theorem parseJsonNumber_minus (toDouble : List UInt8 → D) (h : leadingZero m = false) : parseJsonNumber toDouble (ch '-' :: m) =
    match subject m with
    | none => .error (.ret (-2))
    | some (t, rest) => .ok (toDouble (ch '-' :: t), rest) := by
  have hguard : leadingZero (if (ch '-' :: m).head? = some (ch '-') then (ch '-' :: m).tail else ch '-' :: m) = false := h
  rw [parseJsonNumber, hguard, strtod_minus]
  cases subject m <;> rfl

theorem parseJsonNumber_digit (toDouble : List UInt8 → D) (hc : isdigit c) (h : leadingZero (c :: m) = false) :
    parseJsonNumber toDouble (c :: m) =
      match subject (c :: m) with
      | none => .error (.ret (-2))
      | some (t, rest) => .ok (toDouble t, rest) := by
  have hminus : c ≠ ch '-' := by
    rintro rfl
    exact absurd hc (by decide)
  have hguard : leadingZero (if (c :: m).head? = some (ch '-') then (c :: m).tail else c :: m) = false := by
    rw [List.head?_cons, if_neg fun heq => hminus (Option.some.inj heq), h]
  rw [parseJsonNumber, hguard, strtod_digit hc]
  cases subject (c :: m) <;> rfl

theorem Named.letter {w : List UInt8} (h : Named w) : ∃ a w', w = a :: w' ∧ (tolower a = ch 'i' ∨ tolower a = ch 'n') := by
  obtain h | h | ⟨n, hn, hw⟩ := h
  · cases w with
    | nil => cases h
    | cons a w => exact ⟨a, w, rfl, .inl (List.cons.inj h).1⟩
  · cases w with
    | nil => cases h
    | cons a w => exact ⟨a, w, rfl, .inl (List.cons.inj h).1⟩
  · cases n with
    | nil => cases hn
    | cons a n =>
      have ha := (List.cons.inj hn).1
      obtain rfl | ⟨cs, rfl, -⟩ := hw
      · exact ⟨a, n, rfl, .inr ha⟩
      · exact ⟨a, _, rfl, .inr ha⟩

theorem parseJsonNumber_render {n : Numeral} (h : n.Wide) (hrest : Ended rest) (toDouble : List UInt8 → D) :
    parseJsonNumber toDouble (n.render ++ rest) = .ok (toDouble n.render, rest) := by
  cases n with
  | decimal minus int frac exp =>
    obtain ⟨hzero, hsubject⟩ := subject_decimal h hrest
    have hassoc : int ++ tailOf frac exp ++ rest = int ++ (tailOf frac exp ++ rest) := List.append_assoc _ _ _
    cases minus with
    | true =>
      have hrender : (Numeral.decimal true int frac exp).render = ch '-' :: (int ++ tailOf frac exp) := rfl
      rw [hrender, List.cons_append, hassoc, parseJsonNumber_minus toDouble hzero, hsubject]
    | false =>
      have hrender : (Numeral.decimal false int frac exp).render = int ++ tailOf frac exp := rfl
      obtain hint | ⟨hminus, -⟩ := h.1
      · obtain ⟨hdigits, hne⟩ := hint.digits
        cases int with
        | nil => exact absurd rfl hne
        | cons c int =>
          rw [hrender, hassoc, List.cons_append] at *
          rw [parseJsonNumber_digit toDouble (hdigits c List.mem_cons_self) hzero, hsubject]
      · cases hminus
  | named w =>
    obtain ⟨a, w', rfl, ha⟩ := Named.letter h
    obtain ⟨hzero, hsubject⟩ := subject_of_letter ha (w' ++ rest)
    have hnamed := named_append h hrest
    rw [List.cons_append] at hnamed
    have hrender : (Numeral.named (a :: w')).render = ch '-' :: a :: w' := rfl
    rw [hrender, List.cons_append, List.cons_append, parseJsonNumber_minus toDouble hzero, hsubject, hnamed]

theorem Numeral.render_cons {n : Numeral} (h : n.Wide) : ∃ c m, n.render = c :: m ∧ (c = ch '-' ∨ isdigit c) := by
  cases n with
  | named w => exact ⟨_, w, rfl, .inl rfl⟩
  | decimal minus int frac exp =>
    cases minus with
    | true => exact ⟨_, _, rfl, .inl rfl⟩
    | false =>
      obtain hint | ⟨hminus, -⟩ := h.1
      · obtain ⟨hdigits, hne⟩ := hint.digits
        cases int with
        | nil => exact absurd rfl hne
        | cons c int => exact ⟨c, _, rfl, .inr (hdigits c List.mem_cons_self)⟩
      · cases hminus

/-! ## What is read is a number -/

theorem sequence_some {t : List UInt8} (hzero : leadingZero m = false) (h : sequence isdigit (ch 'e') m = some (t, rest)) :
    ∃ int frac exp, t = int ++ tailOf frac exp ∧ m = t ++ rest ∧ (IsInt int ∨ int = [] ∧ ∃ ds, frac = some ds ∧ ds ≠ []) ∧
      (∀ ds ∈ frac, Digits ds) ∧ ∀ e ∈ exp, e.Rfc := by
  obtain ⟨int, m₁, rfl, hint, hm₁, htake, hdrop⟩ := exists_span isdigit m
  have hfrac : ∃ (frac : Option (List UInt8)) (m₂ : List UInt8), m₁ = frac.elim [] (ch '.' :: ·) ++ m₂ ∧ (∀ ds ∈ frac, Digits ds) ∧
      radix isdigit m₁ = (frac.elim [] (ch '.' :: ·), m₂) := by
    obtain hradix | ⟨ds, m₂, rfl, hds, hradix⟩ := radix_cases isdigit m₁
    · exact ⟨none, m₁, rfl, nofun, hradix⟩
    · exact ⟨some ds, m₂, rfl, fun _ heq => Option.some.inj heq ▸ hds, hradix⟩
  obtain ⟨frac, m₂, rfl, hdigits, hradix⟩ := hfrac
  have hexp : ∃ (exp : Option Exponent) (m₃ : List UInt8), m₂ = exp.elim [] Exponent.render ++ m₃ ∧ (∀ e ∈ exp, e.Rfc) ∧
      exponent (ch 'e') m₂ = (exp.elim [] Exponent.render, m₃) := by
    obtain hexponent | ⟨c, sg, ds, m₃, rfl, hc, hsg, hne, hds, hexponent⟩ := exponent_cases (ch 'e') m₂
    · exact ⟨none, m₂, rfl, nofun, hexponent⟩
    · have hletter : c = ch 'e' ∨ c = ch 'E' := tolower_cases hc
      refine ⟨some ⟨c, sg, ds⟩, m₃, (Exponent.render_eq ⟨c, sg, ds⟩ m₃).symm, ?_, hexponent⟩
      rintro _ ⟨⟩
      exact ⟨hletter, hsg, hne, hds⟩
  obtain ⟨exp, m₃, rfl, hrfc, hexponent⟩ := hexp
  rw [sequence_eq htake hdrop hradix hexponent] at h
  split_ifs at h with hempty
  obtain ⟨rfl, rfl⟩ := Prod.mk.inj (Option.some.inj h)
  refine ⟨int, frac, exp, rfl, by simp only [List.append_assoc], ?_, hdigits, hrfc⟩
  cases int with
  | nil =>
    refine .inr ⟨rfl, ?_⟩
    cases frac with
    | none => exact absurd ⟨rfl, Nat.zero_le _⟩ hempty
    | some ds =>
      refine ⟨ds, rfl, ?_⟩
      rintro rfl
      exact hempty ⟨rfl, Nat.le_refl _⟩
  | cons z ds =>
    obtain ⟨hz, hds⟩ := List.forall_mem_cons.mp hint
    have hz' : ch '0' ≤ z ∧ z ≤ ch '9' := of_decide_eq_true hz
    by_cases hone : ch '1' ≤ z
    · exact .inl (.inr ⟨z, ds, rfl, hone, hz'.2, hds⟩)
    · have hz0 : z = ch '0' := by
        have hge : 48 ≤ z.toNat := UInt8.le_iff_toNat_le.mp hz'.1
        have hlt : ¬49 ≤ z.toNat := fun h => hone (UInt8.le_iff_toNat_le.mpr h)
        exact UInt8.toNat_inj.mp (show z.toNat = 48 by omega)
      cases ds with
      | nil => exact .inl (.inl (by rw [hz0]))
      | cons d ds =>
        have hd := hds d List.mem_cons_self
        exact absurd ⟨hz0, .inl hd⟩ (of_decide_eq_false hzero)

theorem named_some {t : List UInt8} (h : named m = some (t, rest)) : m = t ++ rest ∧ Named t := by
  unfold named at h
  rw [Option.or_eq_some_iff, Option.or_eq_some_iff] at h
  obtain h | ⟨-, h | ⟨-, h⟩⟩ := h
  · obtain ⟨rfl, hw⟩ := word_some h
    exact ⟨rfl, .inl hw⟩
  · obtain ⟨rfl, hw⟩ := word_some h
    exact ⟨rfl, .inr (.inl hw)⟩
  · obtain ⟨⟨n, m'⟩, hword, heq⟩ := Option.map_eq_some_iff.mp h
    obtain ⟨rfl, hn⟩ := word_some hword
    dsimp only at heq
    obtain hnone | ⟨cs, rest', rfl, hcs, hsome⟩ := ncharSequence_cases m'
    · rw [hnone] at heq
      obtain ⟨rfl, rfl⟩ := Prod.mk.inj heq
      exact ⟨by rw [List.append_nil], .inr (.inr ⟨n, hn, .inl (List.append_nil n)⟩)⟩
    · rw [hsome] at heq
      obtain ⟨rfl, rfl⟩ := Prod.mk.inj heq
      exact ⟨by simp, .inr (.inr ⟨n, hn, .inr ⟨cs, rfl, hcs⟩⟩)⟩

theorem subject_some {t : List UInt8} (hzero : leadingZero m = false) (h : subject m = some (t, rest)) :
    sequence isdigit (ch 'e') m = some (t, rest) ∨ sequence isdigit (ch 'e') m = none ∧ named m = some (t, rest) := by
  rw [subject, hexadecimal_none hzero] at h
  exact Option.or_eq_some_iff.mp h

theorem parseJsonNumber_ok {x : D} (hc : c = ch '-' ∨ isdigit c) (h : parseJsonNumber toDouble (c :: m) = .ok (x, rest)) :
    ∃ n : Numeral, n.Wide ∧ c :: m = n.render ++ rest ∧ x = toDouble n.render := by
  have hzero : leadingZero (if (c :: m).head? = some (ch '-') then (c :: m).tail else c :: m) = false := by
    by_contra hzero
    rw [parseJsonNumber, if_pos (Bool.not_eq_false _ ▸ hzero)] at h
    cases h
  obtain rfl | hc := hc
  · have hzero : leadingZero m = false := hzero
    rw [parseJsonNumber_minus toDouble hzero] at h
    cases hsubject : subject m with
    | none =>
      rw [hsubject] at h
      cases h
    | some r =>
      rw [hsubject] at h
      obtain ⟨rfl, rfl⟩ := Prod.mk.inj (Except.ok.inj h)
      obtain hsequence | ⟨-, hnamed⟩ := subject_some hzero hsubject
      · obtain ⟨int, frac, exp, ht, rfl, hint, hfrac, hexp⟩ := sequence_some hzero hsequence
        exact ⟨.decimal true int frac exp, ⟨hint.imp id fun hnone => ⟨rfl, hnone⟩, hfrac, hexp⟩, by rw [ht]; rfl, by rw [ht]; rfl⟩
      · obtain ⟨rfl, hw⟩ := named_some hnamed
        exact ⟨.named r.1, hw, rfl, rfl⟩
  · have hminus : c ≠ ch '-' := by
      rintro rfl
      exact absurd hc (by decide)
    rw [List.head?_cons, if_neg fun heq => hminus (Option.some.inj heq)] at hzero
    rw [parseJsonNumber_digit toDouble hc hzero] at h
    cases hsubject : subject (c :: m) with
    | none =>
      rw [hsubject] at h
      cases h
    | some r =>
      rw [hsubject] at h
      obtain ⟨rfl, rfl⟩ := Prod.mk.inj (Except.ok.inj h)
      obtain hsequence | ⟨hsequence, -⟩ := subject_some hzero hsubject
      · obtain ⟨int, frac, exp, ht, hm, hint, hfrac, hexp⟩ := sequence_some hzero hsequence
        obtain hint | ⟨rfl, ds, rfl, -⟩ := hint
        · exact ⟨.decimal false int frac exp, ⟨.inl hint, hfrac, hexp⟩, by rw [hm, ht]; rfl, by rw [ht]; rfl⟩
        · rw [ht] at hm
          obtain rfl : c = ch '.' := (List.cons.inj hm).1
          exact absurd hc (by decide)
      · unfold Strtod.sequence at hsequence
        dsimp only at hsequence
        split_ifs at hsequence with hempty
        rw [List.takeWhile_cons_of_pos hc] at hempty
        cases hempty.1

end Yjc.Json
