import Yjc.Util.JsonAccept

/-! What the parser accepts: the texts of the wide grammar, which are not all JSON. -/

namespace Yjc.Json
open CLib

variable {D α : Type} {toDouble : List UInt8 → D} {m m' w w' rest : List UInt8} {c : UInt8}

/-! ## What is read is a text -/

theorem skipSpace_cons (h : skipSpace m = c :: rest) : ∃ w, (∀ d ∈ w, isspace d) ∧ m = w ++ c :: rest := by
  obtain ⟨w, rest', rfl, hw, -, -, hdrop⟩ := exists_span isspace m
  have hrest : rest' = c :: rest := hdrop.symm.trans h
  exact ⟨w, hw, by rw [hrest]⟩

theorem exists_skipSpace (m : List UInt8) : ∃ w, (∀ d ∈ w, isspace d) ∧ m = w ++ skipSpace m :=
  ⟨m.takeWhile isspace, fun _ hd => List.all_eq_true.mp List.all_takeWhile _ hd, List.takeWhile_append_dropWhile.symm⟩

theorem itemsLoop_ok {close : UInt8} {item : List UInt8 → Outcome (α × List UInt8)} {fuel n : ℕ} {items : List α}
    {r : List α × ℕ × List UInt8} (h : itemsLoop close item (fuel + 1) m items n = .ok r) :
    ∃ a m₁ w m₂, item m = .ok (a, m₁) ∧ (∀ d ∈ w, isspace d) ∧
      (m₁ = w ++ ch ',' :: m₂ ∧ itemsLoop close item fuel (skipSpace m₂) (items ++ [a]) (n + 1) = .ok r ∨
        m₁ = w ++ close :: m₂ ∧ r.2.2 = m₂) := by
  rw [itemsLoop] at h
  obtain ⟨⟨a, m₁⟩, hitem, h⟩ := bind_ok.mp h
  obtain ⟨cnt, hcnt, h⟩ := bind_ok.mp h
  obtain rfl : n + 1 = cnt := by
    unfold incr at hcnt
    split_ifs at hcnt
    exact Except.ok.inj hcnt
  cases hskip : skipSpace m₁ with
  | nil =>
    rw [hskip] at h
    cases h
  | cons c m₂ =>
    obtain ⟨w, hw, rfl⟩ := skipSpace_cons hskip
    rw [hskip] at h
    dsimp only at h
    split_ifs at h with hcomma hclose
    · exact ⟨a, _, w, m₂, hitem, hw, .inl ⟨by rw [hcomma], h⟩⟩
    · cases h
      exact ⟨a, _, w, m₂, hitem, hw, .inr ⟨by rw [hclose], rfl⟩⟩

theorem parseItems_ok {close : UInt8} {item : List UInt8 → Outcome (α × List UInt8)} {r : List α × ℕ × List UInt8}
    (h : parseItems close item m = .ok r) :
    ∃ w m', (∀ d ∈ w, isspace d) ∧ m = w ++ m' ∧ (m' = close :: r.2.2 ∨ ∃ fuel, itemsLoop close item fuel m' [] 0 = .ok r) := by
  rw [parseItems] at h
  cases hskip : skipSpace m with
  | nil =>
    rw [hskip] at h
    cases h
  | cons c m₁ =>
    obtain ⟨w, hw, rfl⟩ := skipSpace_cons hskip
    rw [hskip] at h
    dsimp only at h
    split_ifs at h with hclose
    · cases h
      exact ⟨w, _, hw, rfl, .inl (by rw [hclose])⟩
    · exact ⟨w, _, hw, rfl, .inr ⟨_, h⟩⟩

/-- What a function reads as a value is one of the wide grammar. -/
def ReadsDoc (value : List UInt8 → Outcome (JsonValue D × List UInt8)) : Prop :=
  ∀ m v rest, value m = .ok (v, rest) → ∃ d : Doc, d.Over .wide ∧ m = d.render ++ rest

theorem elements_ok {value : List UInt8 → Outcome (JsonValue D × List UInt8)} (hvalue : ReadsDoc value) {fuel n : ℕ}
    {items : List (JsonValue D)} {r : List (JsonValue D) × ℕ × List UInt8} (h : itemsLoop (ch ']') value fuel m items n = .ok r) :
    ∃ es : Elements, es.Over .wide ∧ m = es.render ++ ch ']' :: r.2.2 := by
  induction fuel generalizing m items n with
  | zero => cases h
  | succ fuel ih =>
    obtain ⟨a, m₁, w, m₂, hitem, hw, ⟨rfl, hrest⟩ | ⟨rfl, rfl⟩⟩ := itemsLoop_ok h
    · obtain ⟨d, hd, rfl⟩ := hvalue _ _ _ hitem
      obtain ⟨es, hes, hm⟩ := ih hrest
      obtain ⟨w', hw', heq⟩ := exists_skipSpace m₂
      refine ⟨.cons d w w' es, ⟨hd, hw, hw', hes⟩, ?_⟩
      rw [heq, hm]
      simp only [Elements.render, List.append_assoc, List.cons_append]
    · obtain ⟨d, hd, rfl⟩ := hvalue _ _ _ hitem
      exact ⟨.last d w, ⟨hd, hw⟩, (List.append_assoc _ _ _).symm⟩

theorem parseJsonString_ok {n size : ℕ} {s : List UInt8} (hlen : jsonStringLength 0 m = .ok n) (h : parseJsonString size m = .ok (s, rest)) :
    ∃ ps : List Piece, (∀ p ∈ ps, p.Wide) ∧ m = quoted ps ++ ch '"' :: rest := by
  obtain ⟨ps, bytes, hps, hm, -, -⟩ := stringLoop_ok hlen h
  exact ⟨ps, hps, hm⟩

theorem member_ok {value : List UInt8 → ℕ → Outcome (JsonValue D × List UInt8)} {depth : ℕ} (hvalue : ReadsDoc fun m => value m depth)
    {a : List UInt8 × JsonValue D}
    (h : ((expect (ch '"') m).bind fun cursor => (jsonStringLength 0 cursor).bind fun len =>
      parseJsonMember value (len + 1) cursor depth) = .ok (a, rest)) :
    ∃ name w₁ w₂, ∃ d : Doc, (∀ p ∈ name, p.Wide) ∧ (∀ d ∈ w₁, isspace d) ∧ (∀ d ∈ w₂, isspace d) ∧ d.Over .wide ∧
      m = ch '"' :: (quoted name ++ ch '"' :: (w₁ ++ ch ':' :: (w₂ ++ (d.render ++ rest)))) := by
  obtain ⟨m₁, hquote, h₁⟩ := bind_ok.mp h
  obtain ⟨len, hlen, h₂⟩ := bind_ok.mp h₁
  obtain ⟨⟨name, m₂⟩, hname, h₃⟩ := bind_ok.mp h₂
  obtain ⟨m₃, hcolon, h₄⟩ := bind_ok.mp h₃
  obtain ⟨⟨v, m₄⟩, hv, heq⟩ := map_ok.mp h₄
  obtain rfl := expect_ok hquote
  obtain ⟨-, rfl⟩ := Prod.mk.inj heq
  obtain ⟨ps, hps, rfl⟩ := parseJsonString_ok hlen hname
  obtain ⟨w₁, hw₁, rfl⟩ := skipSpace_cons (expect_ok hcolon)
  obtain ⟨w₂, hw₂, hm₃⟩ := exists_skipSpace m₃
  obtain ⟨d, hd, hdoc⟩ := hvalue _ _ _ hv
  exact ⟨ps, w₁, w₂, d, hps, hw₁, hw₂, hd, by rw [← hdoc, ← hm₃]⟩

theorem members_ok {value : List UInt8 → ℕ → Outcome (JsonValue D × List UInt8)} {depth : ℕ} (hvalue : ReadsDoc fun m => value m depth)
    {fuel n : ℕ} {items : List (List UInt8 × JsonValue D)} {r : List (List UInt8 × JsonValue D) × ℕ × List UInt8}
    (h : itemsLoop (ch '\x7d') (fun cursor => (expect (ch '"') cursor).bind fun cursor => (jsonStringLength 0 cursor).bind fun len =>
      parseJsonMember value (len + 1) cursor depth) fuel m items n = .ok r) :
    ∃ ms : Members, ms.Over .wide ∧ m = ms.render ++ ch '\x7d' :: r.2.2 := by
  induction fuel generalizing m items n with
  | zero => cases h
  | succ fuel ih =>
    obtain ⟨a, m₁, w, m₂, hitem, hw, ⟨rfl, hrest⟩ | ⟨rfl, rfl⟩⟩ := itemsLoop_ok h
    · obtain ⟨name, w₁, w₂, d, hname, hw₁, hw₂, hd, rfl⟩ := member_ok hvalue hitem
      obtain ⟨ms, hms, hm⟩ := ih hrest
      obtain ⟨w', hw', heq⟩ := exists_skipSpace m₂
      refine ⟨.cons name w₁ w₂ d w w' ms, ⟨hname, hw₁, hw₂, hd, hw, hw', hms⟩, ?_⟩
      rw [heq, hm]
      simp only [Members.render, List.append_assoc, List.cons_append]
    · obtain ⟨name, w₁, w₂, d, hname, hw₁, hw₂, hd, rfl⟩ := member_ok hvalue hitem
      refine ⟨.last name w₁ w₂ d w, ⟨hname, hw₁, hw₂, hd, hw⟩, ?_⟩
      simp only [Members.render, List.append_assoc, List.cons_append]

theorem parseWord_ok {word : List UInt8} {val a : α} (h : parseWord word val m = .ok (a, rest)) : m = word ++ rest := by
  unfold parseWord at h
  split_ifs at h with hword
  cases h
  have hsplit := List.take_append_drop word.length m
  rw [hword] at hsplit
  exact hsplit.symm

theorem parseJsonValue_ok (toDouble : List UInt8 → D) (levels depth : ℕ) : ReadsDoc fun m => parseJsonValue toDouble levels m depth := by
  induction levels generalizing depth with
  | zero => exact fun m v rest h => nomatch h
  | succ levels ih =>
    intro m v rest h
    cases m with
    | nil => cases h
    | cons c m =>
      dsimp only at h
      rw [parseJsonValue] at h
      split_ifs at h with hquote hnumber hobject harray htrue hfalse hnull
      · obtain ⟨len, hlen, h⟩ := bind_ok.mp h
        obtain ⟨size, -, h⟩ := bind_ok.mp h
        obtain ⟨⟨s, m'⟩, hstring, heq⟩ := map_ok.mp h
        obtain ⟨-, rfl⟩ := Prod.mk.inj heq
        obtain ⟨ps, hps, rfl⟩ := parseJsonString_ok hlen hstring
        refine ⟨.string ps, hps, ?_⟩
        rw [Doc.render, hquote, List.cons_append, List.append_assoc, List.singleton_append]
      · obtain ⟨⟨x, m'⟩, hx, heq⟩ := map_ok.mp h
        obtain ⟨-, rfl⟩ := Prod.mk.inj heq
        obtain ⟨n, hn, hm, -⟩ := parseJsonNumber_ok hnumber hx
        exact ⟨.number n, hn, hm⟩
      · rw [parseJsonObject] at h
        split_ifs at h
        obtain ⟨r, hitems, heq⟩ := map_ok.mp h
        obtain ⟨-, rfl⟩ := Prod.mk.inj heq
        obtain ⟨w, m', hw, rfl, rfl | ⟨fuel, hloop⟩⟩ := parseItems_ok hitems
        · refine ⟨.emptyObject w, hw, ?_⟩
          rw [Doc.render, hobject, List.cons_append, List.append_assoc, List.singleton_append]
        · obtain ⟨ms, hms, rfl⟩ := members_ok (ih (depth + 1)) hloop
          refine ⟨.object w ms, ⟨hw, hms⟩, ?_⟩
          simp only [Doc.render, hobject, List.cons_append, List.append_assoc, List.nil_append]
      · rw [parseJsonArray] at h
        split_ifs at h
        obtain ⟨r, hitems, heq⟩ := map_ok.mp h
        obtain ⟨-, rfl⟩ := Prod.mk.inj heq
        obtain ⟨w, m', hw, rfl, rfl | ⟨fuel, hloop⟩⟩ := parseItems_ok hitems
        · refine ⟨.emptyArray w, hw, ?_⟩
          rw [Doc.render, harray, List.cons_append, List.append_assoc, List.singleton_append]
        · obtain ⟨es, hes, rfl⟩ := elements_ok (ih (depth + 1)) hloop
          refine ⟨.array w es, ⟨hw, hes⟩, ?_⟩
          simp only [Doc.render, harray, List.cons_append, List.append_assoc, List.nil_append]
      · exact ⟨.true, trivial, parseWord_ok h⟩
      · exact ⟨.false, trivial, parseWord_ok h⟩
      · exact ⟨.null, trivial, parseWord_ok h⟩

theorem nul_end {s x r : List UInt8} (hs : 0 ∉ s) (h : s ++ [0] = x ++ 0 :: r) : x = s := by
  obtain ⟨y, rfl, hy⟩ | ⟨y, rfl, hy⟩ := List.append_eq_append_iff.mp h
  · cases y with
    | nil => exact List.append_nil s
    | cons c y => exact absurd (congrArg List.length hy) (by simp only [List.length_cons, List.length_append, List.length_nil]; omega)
  · cases y with
    | nil => exact (List.append_nil x).symm
    | cons c y =>
      obtain ⟨rfl, -⟩ := List.cons.inj hy
      exact absurd (List.mem_append_right x List.mem_cons_self) hs

/-- What the parser accepts is a text of the wide grammar. -/
theorem wide_of_value {s : List UInt8} {v : JsonValue D} (hs : 0 ∉ s) (h : jsonValueParse toDouble (s ++ [0]) = some (some v)) :
    ∃ t : Text, t.Over .wide ∧ t.render = s := by
  unfold jsonValueParse at h
  split at h
  · cases h
  · cases h
  · rename_i val cursor hvalue
    cases hskip : skipSpace cursor with
    | nil =>
      rw [hskip] at h
      cases h
    | cons c r =>
      rw [hskip] at h
      dsimp only at h
      split_ifs at h with hc
      · obtain ⟨before, hbefore, hm⟩ := exists_skipSpace (s ++ [0])
        obtain ⟨d, hd, hdoc⟩ := parseJsonValue_ok toDouble _ _ _ _ _ hvalue
        obtain ⟨after, hafter, rfl⟩ := skipSpace_cons hskip
        refine ⟨⟨before, d, after⟩, ⟨hbefore, hd, hafter⟩, nul_end hs (r := r) ?_⟩
        rw [hm, hdoc, hc, Text.render]
        simp only [List.append_assoc]
      · cases h

/-! ## Texts that are JSON -/

theorem span_inj {p : UInt8 → Bool} (hw : ∀ d ∈ w, p d) (hw' : ∀ d ∈ w', p d) (hm : NotFrom p m) (hm' : NotFrom p m')
    (h : w ++ m = w' ++ m') : w = w' ∧ m = m' := by
  have hspan := span_append hw hm
  rw [h, (span_append hw' hm').1, (span_append hw' hm').2] at hspan
  exact ⟨hspan.1.symm, hspan.2.symm⟩

theorem Escape.letter_inj {e e' : Escape} (h : e.letter = e'.letter) : e = e' := by
  cases e <;> cases e' <;> first | rfl | exact absurd h (by decide)

theorem piece_inj {p p' : Piece} (hp : p.Wide) (hp' : p'.Wide) (h : p.render ++ m = p'.render ++ m') : p = p' ∧ m = m' := by
  cases p with
  | raw c =>
    cases p' with
    | raw c' =>
      obtain ⟨rfl, rfl⟩ := List.cons.inj h
      exact ⟨rfl, rfl⟩
    | escape e' => exact absurd (List.cons.inj h).1 hp.2.2
    | unicode a' b' c' d' => exact absurd (List.cons.inj h).1 hp.2.2
  | escape e =>
    cases p' with
    | raw c' => exact absurd (List.cons.inj h).1.symm hp'.2.2
    | escape e' =>
      obtain ⟨hletter, rfl⟩ := List.cons.inj (List.cons.inj h).2
      exact ⟨by rw [Escape.letter_inj hletter], rfl⟩
    | unicode a' b' c' d' => exact absurd (List.cons.inj (List.cons.inj h).2).1 (by cases e <;> decide)
  | unicode a b c d =>
    cases p' with
    | raw c' => exact absurd (List.cons.inj h).1.symm hp'.2.2
    | escape e' => exact absurd (List.cons.inj (List.cons.inj h).2).1.symm (by cases e' <;> decide)
    | unicode a' b' c' d' =>
      simp only [Piece.render, List.cons_append, List.nil_append, List.cons.injEq] at h
      obtain ⟨-, -, rfl, rfl, rfl, rfl, rfl⟩ := h
      exact ⟨rfl, rfl⟩

theorem piece_ne_quote {p : Piece} (hp : p.Wide) (h : p.render ++ m = ch '"' :: m') : False := by
  cases p with
  | raw c => exact hp.2.1 (List.cons.inj h).1
  | escape e => exact absurd (List.cons.inj h).1 (by decide)
  | unicode a b c d => exact absurd (List.cons.inj h).1 (by decide)

theorem quoted_inj {ps ps' : List Piece} (hps : ∀ p ∈ ps, p.Wide) (hps' : ∀ p ∈ ps', p.Wide)
    (h : quoted ps ++ ch '"' :: m = quoted ps' ++ ch '"' :: m') : ps = ps' ∧ m = m' := by
  induction ps generalizing ps' with
  | nil =>
    cases ps' with
    | nil => exact ⟨rfl, (List.cons.inj h).2⟩
    | cons p' ps' =>
      rw [quoted_cons, List.append_assoc] at h
      exact (piece_ne_quote (hps' p' List.mem_cons_self) h.symm).elim
  | cons p ps ih =>
    obtain ⟨hp, hps⟩ := List.forall_mem_cons.mp hps
    cases ps' with
    | nil =>
      rw [quoted_cons, List.append_assoc] at h
      exact (piece_ne_quote hp h).elim
    | cons p' ps' =>
      obtain ⟨hp', htail'⟩ := List.forall_mem_cons.mp hps'
      rw [quoted_cons, quoted_cons, List.append_assoc, List.append_assoc] at h
      obtain ⟨rfl, htail⟩ := piece_inj hp hp' h
      obtain ⟨rfl, rfl⟩ := ih hps htail' htail
      exact ⟨rfl, rfl⟩

theorem Exponent.render_inj {e e' : Exponent} (h : e.Rfc) (h' : e'.Rfc) (heq : e.render = e'.render) : e = e' := by
  obtain ⟨letter, sg, ds⟩ := e
  obtain ⟨letter', sg', ds'⟩ := e'
  obtain ⟨rfl, hrest⟩ := List.cons.inj heq
  have hsign := Strtod.sign_append h.sign h.nonempty h.digits []
  rw [List.append_nil] at hsign
  have hsign' := Strtod.sign_append h'.sign h'.nonempty h'.digits []
  rw [List.append_nil] at hsign'
  obtain ⟨rfl, rfl⟩ := Prod.mk.inj (hsign.symm.trans ((congrArg Strtod.sign hrest).trans hsign'))
  rfl

theorem tailOf_inj {frac frac' : Option (List UInt8)} {exp exp' : Option Exponent} (hfrac : ∀ ds ∈ frac, Digits ds)
    (hfrac' : ∀ ds ∈ frac', Digits ds) (hexp : ∀ e ∈ exp, e.Rfc) (hexp' : ∀ e ∈ exp', e.Rfc) (hm : Ended m) (hm' : Ended m')
    (h : tailOf frac exp ++ m = tailOf frac' exp' ++ m') : frac = frac' ∧ exp = exp' ∧ m = m' := by
  obtain ⟨hpoint, hrest⟩ := Prod.mk.inj
    ((radix_tailOf hfrac hexp hm).symm.trans ((congrArg (Strtod.radix isdigit) h).trans (radix_tailOf hfrac' hexp' hm')))
  obtain ⟨hrender, hend⟩ := Prod.mk.inj
    ((exponent_elim hexp hm).1.symm.trans ((congrArg (Strtod.exponent (ch 'e')) hrest).trans (exponent_elim hexp' hm').1))
  refine ⟨?_, ?_, hend⟩
  · cases frac with
    | none =>
      cases frac' with
      | none => rfl
      | some ds' => cases hpoint
    | some ds =>
      cases frac' with
      | none => cases hpoint
      | some ds' => exact congrArg some (List.cons.inj hpoint).2
  · cases exp with
    | none =>
      cases exp' with
      | none => rfl
      | some e' => cases hrender
    | some e =>
      cases exp' with
      | none => cases hrender
      | some e' => exact congrArg some (Exponent.render_inj (hexp e rfl) (hexp' e' rfl) hrender)

section
variable {minus minus' : Bool} {int int' : List UInt8} {frac frac' : Option (List UInt8)} {exp exp' : Option Exponent}

theorem Numeral.render_body (minus : Bool) (int : List UInt8) (frac : Option (List UInt8)) (exp : Option Exponent) (m : List UInt8) :
    (Numeral.decimal minus int frac exp).render ++ m = (if minus then [ch '-'] else []) ++ (int ++ (tailOf frac exp ++ m)) := by
  rw [Numeral.render, ← tailOf, List.append_assoc, List.append_assoc]

theorem Numeral.body_cons (h : (Numeral.decimal minus int frac exp).Wide) (m : List UInt8) :
    ∃ c m', int ++ (tailOf frac exp ++ m) = c :: m' ∧ (isdigit c ∨ minus ∧ c = ch '.') := by
  obtain ⟨hint | ⟨hminus, rfl, ds, rfl, -⟩, -, -⟩ := h
  · obtain ⟨hdigits, hne⟩ := hint.digits
    cases int with
    | nil => exact absurd rfl hne
    | cons c int => exact ⟨c, _, rfl, .inl (hdigits c List.mem_cons_self)⟩
  · exact ⟨ch '.', _, rfl, .inr ⟨hminus, rfl⟩⟩

theorem Numeral.named_ne_decimal {w : List UInt8} (h : Named w) (h' : (Numeral.decimal minus int frac exp).Wide) :
    (Numeral.named w).render ++ m ≠ (Numeral.decimal minus int frac exp).render ++ m' := by
  intro heq
  obtain ⟨a, w, rfl, ha⟩ := h.letter
  obtain ⟨c, m₁, hbody, hc⟩ := Numeral.body_cons h' m'
  rw [Numeral.render_body, hbody] at heq
  cases minus with
  | false =>
    obtain rfl : ch '-' = c := (List.cons.inj heq).1
    exact absurd hc (by decide)
  | true =>
    obtain rfl : a = c := (List.cons.inj (List.cons.inj heq).2).1
    obtain ha | ha := ha <;> obtain rfl | rfl := tolower_cases ha <;> exact absurd hc (by decide)

theorem Numeral.plus_ne_minus (h : (Numeral.decimal false int frac exp).Wide) :
    (Numeral.decimal false int frac exp).render ++ m ≠ (Numeral.decimal true int' frac' exp').render ++ m' := by
  intro heq
  obtain ⟨c, m₁, hbody, hc⟩ := Numeral.body_cons h m
  rw [Numeral.render_body, hbody] at heq
  obtain rfl : c = ch '-' := (List.cons.inj heq).1
  exact absurd hc (by decide)

theorem Numeral.int_digits (h : (Numeral.decimal minus int frac exp).Wide) : Digits int := by
  obtain ⟨hint | ⟨-, rfl, -⟩, -, -⟩ := h
  · exact hint.digits.1
  · exact nofun

theorem Numeral.body_inj (h : (Numeral.decimal minus int frac exp).Wide) (h' : (Numeral.decimal minus int' frac' exp').Wide)
    (hm : Ended m) (hm' : Ended m') (heq : int ++ (tailOf frac exp ++ m) = int' ++ (tailOf frac' exp' ++ m')) :
    Numeral.decimal minus int frac exp = Numeral.decimal minus int' frac' exp' ∧ m = m' := by
  obtain ⟨rfl, htail⟩ := span_inj (Numeral.int_digits h) (Numeral.int_digits h')
    (tailOf_notFrom frac h.2.2 hm (by decide) (by decide) (by decide) ends_digit)
    (tailOf_notFrom frac' h'.2.2 hm' (by decide) (by decide) (by decide) ends_digit) heq
  obtain ⟨rfl, rfl, rfl⟩ := tailOf_inj h.2.1 h'.2.1 h.2.2 h'.2.2 hm hm' htail
  exact ⟨rfl, rfl⟩

end

theorem Numeral.render_inj {n n' : Numeral} (h : n.Wide) (h' : n'.Wide) (hm : Ended m) (hm' : Ended m')
    (heq : n.render ++ m = n'.render ++ m') : n = n' ∧ m = m' := by
  cases n with
  | named w =>
    cases n' with
    | named w' =>
      have hread := (named_append h hm).symm.trans ((congrArg Strtod.named (List.cons.inj heq).2).trans (named_append h' hm'))
      obtain ⟨rfl, rfl⟩ := Prod.mk.inj (Option.some.inj hread)
      exact ⟨rfl, rfl⟩
    | decimal minus' int' frac' exp' => exact absurd heq (Numeral.named_ne_decimal h h')
  | decimal minus int frac exp =>
    cases n' with
    | named w' => exact absurd heq.symm (Numeral.named_ne_decimal h' h)
    | decimal minus' int' frac' exp' =>
      cases minus with
      | true =>
        cases minus' with
        | true =>
          rw [Numeral.render_body, Numeral.render_body] at heq
          exact Numeral.body_inj h h' hm hm' (List.append_cancel_left heq)
        | false => exact absurd heq.symm (Numeral.plus_ne_minus h')
      | false =>
        cases minus' with
        | true => exact absurd heq (Numeral.plus_ne_minus h)
        | false =>
          rw [Numeral.render_body, Numeral.render_body] at heq
          exact Numeral.body_inj h h' hm hm' (List.append_cancel_left heq)

theorem space_inj {c c' : UInt8} (hw : ∀ d ∈ w, isspace d) (hw' : ∀ d ∈ w', isspace d) (hc : ¬isspace c) (hc' : ¬isspace c')
    (h : w ++ c :: m = w' ++ c' :: m') : w = w' ∧ c = c' ∧ m = m' := by
  obtain ⟨rfl, hrest⟩ := span_inj hw hw' (notFrom_cons.mpr hc) (notFrom_cons.mpr hc') h
  exact ⟨rfl, List.cons.inj hrest⟩

/-- Values that begin with different bytes. -/
inductive Kind
  | null
  | true
  | false
  | number
  | string
  | array
  | object
  deriving DecidableEq

def Kind.ofByte (c : UInt8) : Kind :=
  if c = ch 'n' then .null
  else if c = ch 't' then .true
  else if c = ch 'f' then .false
  else if c = ch '"' then .string
  else if c = ch '[' then .array
  else if c = ch '\x7b' then .object
  else .number

def Doc.kind : Doc → Kind
  | .null => .null
  | .true => .true
  | .false => .false
  | .number _ => .number
  | .string _ => .string
  | .emptyArray _ => .array
  | .array _ _ => .array
  | .emptyObject _ => .object
  | .object _ _ => .object

theorem Doc.kind_eq {d : Doc} (h : d.Over .wide) (heq : d.render ++ m = c :: rest) : d.kind = Kind.ofByte c := by
  cases d with
  | number n =>
    obtain ⟨b, m₁, hn, hb⟩ := Numeral.render_cons h
    rw [Doc.render, hn] at heq
    obtain rfl : b = c := (List.cons.inj heq).1
    exact forall_byte (p := fun b => b = ch '-' ∨ isdigit b → Kind.number = Kind.ofByte b) (by decide +kernel) b hb
  | null => rw [← (List.cons.inj heq).1]; rfl
  | true => rw [← (List.cons.inj heq).1]; rfl
  | false => rw [← (List.cons.inj heq).1]; rfl
  | string ps => rw [← (List.cons.inj heq).1]; rfl
  | emptyArray w => rw [← (List.cons.inj heq).1]; rfl
  | array w es => rw [← (List.cons.inj heq).1]; rfl
  | emptyObject w => rw [← (List.cons.inj heq).1]; rfl
  | object w ms => rw [← (List.cons.inj heq).1]; rfl

theorem Doc.kind_congr {d d' : Doc} (h : d.Over .wide) (h' : d'.Over .wide) (heq : d.render ++ m = d'.render ++ m') : d.kind = d'.kind := by
  obtain ⟨c, m₁, hd, -⟩ := d.render_cons h
  have hcons : d.render ++ m = c :: (m₁ ++ m) := by rw [hd, List.cons_append]
  rw [Doc.kind_eq h hcons, Doc.kind_eq h' (heq.symm.trans hcons)]

theorem member_inj {name name' : List Piece} {w₁ w₁' w₂ w₂' : List UInt8} {v v' : Doc} (hname : ∀ p ∈ name, p.Wide)
    (hname' : ∀ p ∈ name', p.Wide) (hw₁ : ∀ c ∈ w₁, isspace c) (hw₁' : ∀ c ∈ w₁', isspace c) (hw₂ : ∀ c ∈ w₂, isspace c)
    (hw₂' : ∀ c ∈ w₂', isspace c) (hv : v.Over .wide) (hv' : v'.Over .wide)
    (h : ch '"' :: (quoted name ++ ch '"' :: (w₁ ++ ch ':' :: (w₂ ++ (v.render ++ m)))) =
      ch '"' :: (quoted name' ++ ch '"' :: (w₁' ++ ch ':' :: (w₂' ++ (v'.render ++ m'))))) :
    name = name' ∧ w₁ = w₁' ∧ w₂ = w₂' ∧ v.render ++ m = v'.render ++ m' := by
  obtain ⟨c, m₁, hm₁, hspace, -⟩ := v.render_cons hv
  obtain ⟨c', m₁', hm₁', hspace', -⟩ := v'.render_cons hv'
  obtain ⟨rfl, hcolon⟩ := quoted_inj hname hname' (List.cons.inj h).2
  obtain ⟨rfl, -, hrest⟩ := space_inj hw₁ hw₁' (by decide) (by decide) hcolon
  obtain ⟨rfl, hdoc⟩ := span_inj hw₂ hw₂' (by rw [hm₁]; exact notFrom_cons.mpr hspace) (by rw [hm₁']; exact notFrom_cons.mpr hspace') hrest
  exact ⟨rfl, rfl, rfl, hdoc⟩

mutual

theorem Doc.render_inj : ∀ (d d' : Doc) (m m' : List UInt8), d.Over .wide → d'.Over .wide → Ended m → Ended m' →
    d.render ++ m = d'.render ++ m' → d = d' ∧ m = m' := by
  intro d d' m m' h h' hm hm' heq
  have hkind := Doc.kind_congr h h' heq
  match d with
  | .null =>
    cases d' with
    | null => exact ⟨rfl, List.append_cancel_left heq⟩
    | _ => cases hkind
  | .true =>
    cases d' with
    | true => exact ⟨rfl, List.append_cancel_left heq⟩
    | _ => cases hkind
  | .false =>
    cases d' with
    | false => exact ⟨rfl, List.append_cancel_left heq⟩
    | _ => cases hkind
  | .number n =>
    cases d' with
    | number n' =>
      obtain ⟨rfl, rfl⟩ := Numeral.render_inj h h' hm hm' heq
      exact ⟨rfl, rfl⟩
    | _ => cases hkind
  | .string ps =>
    cases d' with
    | string ps' =>
      simp only [Doc.render, List.cons_append, List.append_assoc, List.nil_append] at heq
      obtain ⟨rfl, rfl⟩ := quoted_inj h h' (List.cons.inj heq).2
      exact ⟨rfl, rfl⟩
    | _ => cases hkind
  | .emptyArray w =>
    cases d' with
    | emptyArray w' =>
      simp only [Doc.render, List.cons_append, List.append_assoc, List.nil_append] at heq
      obtain ⟨rfl, -, rfl⟩ := space_inj h h' (by decide) (by decide) (List.cons.inj heq).2
      exact ⟨rfl, rfl⟩
    | array w' es' =>
      obtain ⟨c, m₁, hes, hspace, hclose, -⟩ := es'.render_cons h'.2
      simp only [Doc.render, hes, List.cons_append, List.append_assoc, List.nil_append] at heq
      exact absurd (space_inj h h'.1 (by decide) hspace (List.cons.inj heq).2).2.1.symm hclose
    | _ => cases hkind
  | .array w es =>
    obtain ⟨c, m₁, hes, hspace, hclose, -⟩ := es.render_cons h.2
    cases d' with
    | emptyArray w' =>
      simp only [Doc.render, hes, List.cons_append, List.append_assoc, List.nil_append] at heq
      exact absurd (space_inj h.1 h' hspace (by decide) (List.cons.inj heq).2).2.1 hclose
    | array w' es' =>
      obtain ⟨c', m₁', hes', hspace', -⟩ := es'.render_cons h'.2
      simp only [Doc.render, List.cons_append, List.append_assoc, List.nil_append] at heq
      obtain ⟨rfl, hrest⟩ := span_inj h.1 h'.1 (by rw [hes]; exact notFrom_cons.mpr hspace)
        (by rw [hes']; exact notFrom_cons.mpr hspace') (List.cons.inj heq).2
      obtain ⟨rfl, rfl⟩ := Elements.render_inj es es' m m' h.2 h'.2 hrest
      exact ⟨rfl, rfl⟩
    | _ => cases hkind
  | .emptyObject w =>
    cases d' with
    | emptyObject w' =>
      simp only [Doc.render, List.cons_append, List.append_assoc, List.nil_append] at heq
      obtain ⟨rfl, -, rfl⟩ := space_inj h h' (by decide) (by decide) (List.cons.inj heq).2
      exact ⟨rfl, rfl⟩
    | object w' ms' =>
      obtain ⟨m₁, hms⟩ := ms'.render_cons
      simp only [Doc.render, hms, List.cons_append, List.append_assoc, List.nil_append] at heq
      exact absurd (space_inj h h'.1 (by decide) (by decide) (List.cons.inj heq).2).2.1 (by decide)
    | _ => cases hkind
  | .object w ms =>
    obtain ⟨m₁, hms⟩ := ms.render_cons
    have hquote : ¬isspace (ch '"') := by decide
    cases d' with
    | emptyObject w' =>
      simp only [Doc.render, hms, List.cons_append, List.append_assoc, List.nil_append] at heq
      exact absurd (space_inj h.1 h' hquote (by decide) (List.cons.inj heq).2).2.1 (by decide)
    | object w' ms' =>
      obtain ⟨m₁', hms'⟩ := ms'.render_cons
      simp only [Doc.render, List.cons_append, List.append_assoc, List.nil_append] at heq
      obtain ⟨rfl, hrest⟩ := span_inj h.1 h'.1 (by rw [hms]; exact notFrom_cons.mpr hquote)
        (by rw [hms']; exact notFrom_cons.mpr hquote) (List.cons.inj heq).2
      obtain ⟨rfl, rfl⟩ := Members.render_inj ms ms' m m' h.2 h'.2 hrest
      exact ⟨rfl, rfl⟩
    | _ => cases hkind

theorem Elements.render_inj : ∀ (es es' : Elements) (m m' : List UInt8), es.Over .wide → es'.Over .wide →
    es.render ++ ch ']' :: m = es'.render ++ ch ']' :: m' → es = es' ∧ m = m' := by
  intro es es' m m' h h' heq
  have hends {w : List UInt8} (hw : ∀ c ∈ w, isspace c) (m : List UInt8) : Ended (w ++ ch ']' :: m) := ended_append hw (by decide)
  have hcomma {w : List UInt8} (hw : ∀ c ∈ w, isspace c) (m : List UInt8) : Ended (w ++ ch ',' :: m) := ended_append hw (by decide)
  match es with
  | .last v w =>
    cases es' with
    | last v' w' =>
      simp only [Elements.render, List.append_assoc] at heq
      obtain ⟨rfl, hrest⟩ := Doc.render_inj v v' _ _ h.1 h'.1 (hends h.2 m) (hends h'.2 m') heq
      obtain ⟨rfl, -, rfl⟩ := space_inj h.2 h'.2 (by decide) (by decide) hrest
      exact ⟨rfl, rfl⟩
    | cons v' w' w₂' es' =>
      simp only [Elements.render, List.append_assoc, List.cons_append] at heq
      obtain ⟨-, hrest⟩ := Doc.render_inj v v' _ _ h.1 h'.1 (hends h.2 m) (hcomma h'.2.1 _) heq
      exact absurd (space_inj h.2 h'.2.1 (by decide) (by decide) hrest).2.1 (by decide)
  | .cons v w w₂ es =>
    cases es' with
    | last v' w' =>
      simp only [Elements.render, List.append_assoc, List.cons_append] at heq
      obtain ⟨-, hrest⟩ := Doc.render_inj v v' _ _ h.1 h'.1 (hcomma h.2.1 _) (hends h'.2 m') heq
      exact absurd (space_inj h.2.1 h'.2 (by decide) (by decide) hrest).2.1 (by decide)
    | cons v' w' w₂' es' =>
      obtain ⟨c, m₁, hes, hspace, -⟩ := es.render_cons h.2.2.2
      obtain ⟨c', m₁', hes', hspace', -⟩ := es'.render_cons h'.2.2.2
      simp only [Elements.render, List.append_assoc, List.cons_append] at heq
      obtain ⟨rfl, hafter⟩ := Doc.render_inj v v' _ _ h.1 h'.1 (hcomma h.2.1 _) (hcomma h'.2.1 _) heq
      obtain ⟨rfl, -, hrest⟩ := space_inj h.2.1 h'.2.1 (by decide) (by decide) hafter
      obtain ⟨rfl, htail⟩ := span_inj h.2.2.1 h'.2.2.1 (by rw [hes]; exact notFrom_cons.mpr hspace)
        (by rw [hes']; exact notFrom_cons.mpr hspace') hrest
      obtain ⟨rfl, rfl⟩ := Elements.render_inj es es' m m' h.2.2.2 h'.2.2.2 htail
      exact ⟨rfl, rfl⟩

theorem Members.render_inj : ∀ (ms ms' : Members) (m m' : List UInt8), ms.Over .wide → ms'.Over .wide →
    ms.render ++ ch '\x7d' :: m = ms'.render ++ ch '\x7d' :: m' → ms = ms' ∧ m = m' := by
  intro ms ms' m m' h h' heq
  have hends {w : List UInt8} (hw : ∀ c ∈ w, isspace c) (m : List UInt8) : Ended (w ++ ch '\x7d' :: m) := ended_append hw (by decide)
  have hcomma {w : List UInt8} (hw : ∀ c ∈ w, isspace c) (m : List UInt8) : Ended (w ++ ch ',' :: m) := ended_append hw (by decide)
  match ms with
  | .last name w₁ w₂ v w =>
    obtain ⟨hname, hw₁, hw₂, hv, hw⟩ := h
    cases ms' with
    | last name' w₁' w₂' v' w' =>
      obtain ⟨hname', hw₁', hw₂', hv', hw'⟩ := h'
      simp only [Members.render, List.append_assoc, List.cons_append] at heq
      obtain ⟨rfl, rfl, rfl, hdoc⟩ := member_inj hname hname' hw₁ hw₁' hw₂ hw₂' hv hv' heq
      obtain ⟨rfl, hafter⟩ := Doc.render_inj v v' _ _ hv hv' (hends hw m) (hends hw' m') hdoc
      obtain ⟨rfl, -, rfl⟩ := space_inj hw hw' (by decide) (by decide) hafter
      exact ⟨rfl, rfl⟩
    | cons name' w₁' w₂' v' w' w₃' ms' =>
      obtain ⟨hname', hw₁', hw₂', hv', hw', -⟩ := h'
      simp only [Members.render, List.append_assoc, List.cons_append] at heq
      obtain ⟨-, -, -, hdoc⟩ := member_inj hname hname' hw₁ hw₁' hw₂ hw₂' hv hv' heq
      obtain ⟨-, hafter⟩ := Doc.render_inj v v' _ _ hv hv' (hends hw m) (hcomma hw' _) hdoc
      exact absurd (space_inj hw hw' (by decide) (by decide) hafter).2.1 (by decide)
  | .cons name w₁ w₂ v w w₃ ms =>
    obtain ⟨hname, hw₁, hw₂, hv, hw, hw₃, hms⟩ := h
    cases ms' with
    | last name' w₁' w₂' v' w' =>
      obtain ⟨hname', hw₁', hw₂', hv', hw'⟩ := h'
      simp only [Members.render, List.append_assoc, List.cons_append] at heq
      obtain ⟨-, -, -, hdoc⟩ := member_inj hname hname' hw₁ hw₁' hw₂ hw₂' hv hv' heq
      obtain ⟨-, hafter⟩ := Doc.render_inj v v' _ _ hv hv' (hcomma hw _) (hends hw' m') hdoc
      exact absurd (space_inj hw hw' (by decide) (by decide) hafter).2.1 (by decide)
    | cons name' w₁' w₂' v' w' w₃' ms' =>
      obtain ⟨hname', hw₁', hw₂', hv', hw', hw₃', hms'⟩ := h'
      have hquote : ¬isspace (ch '"') := by decide
      obtain ⟨m₁, hm₁⟩ := ms.render_cons
      obtain ⟨m₁', hm₁'⟩ := ms'.render_cons
      simp only [Members.render, List.append_assoc, List.cons_append] at heq
      obtain ⟨rfl, rfl, rfl, hdoc⟩ := member_inj hname hname' hw₁ hw₁' hw₂ hw₂' hv hv' heq
      obtain ⟨rfl, hafter⟩ := Doc.render_inj v v' _ _ hv hv' (hcomma hw _) (hcomma hw' _) hdoc
      obtain ⟨rfl, -, hrest⟩ := space_inj hw hw' (by decide) (by decide) hafter
      obtain ⟨rfl, htail⟩ := span_inj hw₃ hw₃' (by rw [hm₁]; exact notFrom_cons.mpr hquote)
        (by rw [hm₁']; exact notFrom_cons.mpr hquote) hrest
      obtain ⟨rfl, rfl⟩ := Members.render_inj ms ms' m m' hms hms' htail
      exact ⟨rfl, rfl⟩

end

theorem Text.render_inj {t t' : Text} (h : t.Over .wide) (h' : t'.Over .wide) (heq : t.render = t'.render) : t = t' := by
  obtain ⟨before, d, after⟩ := t
  obtain ⟨before', d', after'⟩ := t'
  obtain ⟨hbefore, hd, hafter⟩ := h
  obtain ⟨hbefore', hd', hafter'⟩ := h'
  obtain ⟨c, m, hm, hspace, -⟩ := d.render_cons hd
  obtain ⟨c', m', hm', hspace', -⟩ := d'.render_cons hd'
  have hended : before ++ (d.render ++ (after ++ [0])) = before' ++ (d'.render ++ (after' ++ [0])) := by
    rw [Text.render, Text.render] at heq
    simpa only [List.append_assoc] using congrArg (· ++ [0]) heq
  obtain ⟨rfl, hdoc⟩ := span_inj hbefore hbefore' (by rw [hm]; exact notFrom_cons.mpr hspace)
    (by rw [hm']; exact notFrom_cons.mpr hspace') hended
  obtain ⟨rfl, hend⟩ := Doc.render_inj d d' _ _ hd hd' (ended_append hafter (by decide)) (ended_append hafter' (by decide)) hdoc
  obtain rfl : after = after' := List.append_cancel_right hend
  rfl

/-- An input that is accepted is JSON, exactly when it is no text of the wide grammar, within the limits of the parser, that uses what JSON
lacks. -/
theorem json_text_rejected (toDouble : List UInt8 → D) (s : List UInt8) (hs : 0 ∉ s) :
    ((∃ v, jsonValueParse toDouble (s ++ [0]) = some (some v)) → ∃ t : Text, t.Over .rfc ∧ t.render = s) ↔
      ∀ t : Text, t.Over .wide → t.render = s → t.doc.depth ≤ depthLimit → ¬t.doc.Lone → t.doc.Counted 0 → t.Over .plain := by
  constructor
  · rintro h t ht rfl hdepth hlone hcounted
    have hstops : ¬t.doc.Stops 0 := by
      rw [Doc.stops_iff (Nat.zero_le depthLimit), Nat.zero_add]
      exact not_or.mpr ⟨hlone, Nat.not_lt_of_le hdepth⟩
    obtain ⟨t', ht', heq⟩ := h ⟨_, (jsonValueParse_render toDouble t ht).2.2 hcounted hstops⟩
    obtain rfl := Text.render_inj (Text.wide_of_rfc ht') ht heq
    exact (Text.over_rfc.mp ht').2
  · rintro h ⟨v, hv⟩
    obtain ⟨t, ht, rfl⟩ := wide_of_value hs hv
    obtain ⟨hundefined, herror, -⟩ := jsonValueParse_render toDouble t ht
    have hcounted : t.doc.Counted 0 := by
      by_contra hcounted
      cases hv.symm.trans (hundefined hcounted)
    have hstops : ¬t.doc.Stops 0 := fun hstops => nomatch hv.symm.trans (herror hcounted hstops)
    rw [Doc.stops_iff (Nat.zero_le depthLimit), Nat.zero_add, not_or] at hstops
    exact ⟨t, Text.over_rfc.mpr ⟨ht, h t ht rfl (Nat.le_of_not_lt hstops.2) hstops.1 hcounted⟩, rfl⟩

theorem json_text_rejected_sample : (∃ v, jsonValueParse (fun lit => lit) ([ch '1'] ++ [0]) = some (some v)) ∧
    ∃ t : Text, t.Over .rfc ∧ t.render = [ch '1'] := by
  have hone : (Text.mk [] (.number (.decimal false [ch '1'] none none)) []).Over .rfc :=
    ⟨nofun, ⟨.inr ⟨ch '1', [], rfl, by decide, by decide, nofun⟩, nofun, nofun⟩, nofun⟩
  have hparsed : ∃ v, jsonValueParse (fun lit => lit) ([ch '1'] ++ [0]) = some (some v) :=
    ⟨_, (jsonValueParse_render (fun lit => lit) _ (Text.wide_of_rfc hone)).2.2 trivial id⟩
  refine ⟨hparsed, (json_text_rejected (fun lit => lit) [ch '1'] (by decide)).mpr (fun t ht heq _ _ _ => ?_) hparsed⟩
  obtain rfl := Text.render_inj ht (Text.wide_of_rfc hone) heq
  exact (Text.over_rfc.mp hone).2

/-- The parser accepts `1.`, with no digit after the point. -/
theorem point_accepted : 0 ∉ [ch '1', ch '.'] ∧
    jsonValueParse (fun lit => lit) ([ch '1', ch '.'] ++ [0]) = some (some (.number [ch '1', ch '.'])) ∧
      ¬∃ t : Text, t.Over .rfc ∧ t.render = [ch '1', ch '.'] := by
  have hwide : (Text.mk [] (.number (.decimal false [ch '1'] (some []) none)) []).Over .wide := by
    refine ⟨nofun, ⟨.inl (.inr ⟨ch '1', [], rfl, by decide, by decide, nofun⟩), ?_, nofun⟩, nofun⟩
    rintro _ ⟨⟩
    exact nofun
  refine ⟨by decide, (jsonValueParse_render (fun lit => lit) _ hwide).2.2 trivial id, ?_⟩
  rintro ⟨t, ht, heq⟩
  obtain rfl := Text.render_inj (Text.wide_of_rfc ht) hwide heq
  exact (ht.2.1.2.1 [] rfl).1 rfl

end Yjc.Json
