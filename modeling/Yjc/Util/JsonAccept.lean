import Yjc.Util.JsonStrings
import Yjc.Util.JsonNumbers

/-! What the parser makes of a text of the wide grammar. -/

namespace Yjc.Json
open CLib

/-- How a function ends: undefined behaviour when a counter of it overflows, an error when something stops it, and else a value. -/
structure Makes {α : Type} (x : Outcome α) (counted stops : Prop) (a : α) : Prop where
  undefined : ¬counted → x = .error .undefined
  error : counted → stops → ∃ code, x = .error (.ret code)
  value : counted → ¬stops → x = .ok a

namespace Makes
variable {α β : Type} {x : Outcome α} {f : α → Outcome β} {c s c' s' : Prop} {a : α} {b : β}

theorem ok (a : α) : Makes (.ok a) True False a := ⟨fun h => absurd trivial h, nofun, fun _ _ => rfl⟩

theorem congr (h : Makes x c s a) (hc : c ↔ c') (hs : s ↔ s') : Makes x c' s' a := by
  rwa [← propext hc, ← propext hs]

theorem bind (h : Makes x c s a) (hf : Makes (f a) c' s' b) : Makes (x.bind f) (c ∧ (s ∨ c')) (s ∨ s') b := by
  constructor
  · intro hnot
    by_cases hc : c
    · rw [h.value hc fun hs => hnot ⟨hc, .inl hs⟩]
      exact hf.undefined fun hc' => hnot ⟨hc, .inr hc'⟩
    · rw [h.undefined hc]
      rfl
  · rintro ⟨hc, hor⟩ hstops
    by_cases hs : s
    · obtain ⟨code, hcode⟩ := h.error hc hs
      exact ⟨code, by rw [hcode]; rfl⟩
    · rw [h.value hc hs]
      exact hf.error (hor.resolve_left hs) (hstops.resolve_left hs)
  · rintro ⟨hc, hor⟩ hstops
    rw [h.value hc fun hs => hstops (.inl hs)]
    exact hf.value (hor.resolve_left fun hs => hstops (.inl hs)) fun hs' => hstops (.inr hs')

theorem map (h : Makes x c s a) (g : α → β) : Makes (x.map g) c s (g a) where
  undefined hc := by rw [h.undefined hc]; rfl
  error hc hs := by
    obtain ⟨code, hcode⟩ := h.error hc hs
    exact ⟨code, by rw [hcode]; rfl⟩
  value hc hs := by rw [h.value hc hs]; rfl

end Makes

variable {D α : Type} {ps : List Piece} {w m rest : List UInt8} {G : Grammar}

/-! ## White space and strings -/

theorem incr_makes (n : ℕ) : Makes (incr n) (n + 1 < 2 ^ 31) False (n + 1) := ⟨fun h => if_neg h, nofun, fun h _ => if_pos h⟩

theorem skipSpace_append (hw : ∀ c ∈ w, isspace c) (hm : NotFrom isspace m) : skipSpace (w ++ m) = m := (span_append hw hm).2

theorem ended_append {c : UInt8} (hw : ∀ c ∈ w, isspace c) (hc : Ends c) : Ended (w ++ c :: m) := by
  cases w with
  | nil => exact ⟨c, m, rfl, hc⟩
  | cons d w => exact ⟨d, w ++ c :: m, rfl, .inl (hw d List.mem_cons_self)⟩

theorem jsonStringLength_makes (h : ∀ p ∈ ps, p.Wide) (rest : List UInt8) :
    Makes (jsonStringLength 0 (quoted ps ++ ch '"' :: rest)) (count ps < 2 ^ 31) False (count ps) := by
  rw [jsonStringLength_quoted h (by decide), counting, Nat.zero_add]
  exact ⟨fun h => if_neg h, fun _ h => h.elim, fun h _ => if_pos h⟩

theorem parseJsonString_makes (h : ∀ p ∈ ps, p.Wide) (rest : List UInt8) :
    Makes (parseJsonString (count ps + 1) (quoted ps ++ ch '"' :: rest)) True (decode ps = none) ((decode ps).getD [], rest) := by
  have hloop := @stringLoop_quoted (count ps + 1) ((quoted ps ++ ch '"' :: rest).length + 1) ps [] h
    (by rw [List.length_append]; omega) (by rw [List.length_nil]; omega) rest
  rw [parseJsonString, hloop, stored]
  cases decode ps with
  | none => exact ⟨fun h => absurd trivial h, fun _ _ => ⟨_, rfl⟩, fun _ h => absurd rfl h⟩
  | some bytes => exact ⟨fun h => absurd trivial h, fun _ h => absurd h (Option.some_ne_none bytes), fun _ _ => rfl⟩

theorem parseStringValue_makes (h : ∀ p ∈ ps, p.Wide) (rest : List UInt8) :
    Makes (parseStringValue (quoted ps ++ ch '"' :: rest)) (count ps + 1 < 2 ^ 31) (decode ps = none)
      ((.string ((decode ps).getD []) : JsonValue D), rest) := by
  -- the buffer of a string value has an `int` as its size, too
  have hstring := (parseJsonString_makes h rest).map fun r => ((.string r.1 : JsonValue D), r.2)
  refine ((jsonStringLength_makes h rest).bind ((incr_makes (count ps)).bind hstring)).congr ?_ ?_
  · simp only [false_or, or_true, and_true]
    omega
  · simp only [false_or]

/-! ## Where the parser stops -/

mutual

/-- A string has a lone surrogate, or an array or object is too deep. -/
def Doc.Stops (depth : ℕ) : Doc → Prop
  | .string ps => decode ps = none
  | .emptyArray _ => depth = depthLimit
  | .array _ es => depth = depthLimit ∨ es.Stops (depth + 1)
  | .emptyObject _ => depth = depthLimit
  | .object _ ms => depth = depthLimit ∨ ms.Stops (depth + 1)
  | _ => False

def Elements.Stops (depth : ℕ) : Elements → Prop
  | .last v _ => v.Stops depth
  | .cons v _ _ es => v.Stops depth ∨ es.Stops depth

def Members.Stops (depth : ℕ) : Members → Prop
  | .last name _ _ v _ => decode name = none ∨ v.Stops depth
  | .cons name _ _ v _ _ ms => (decode name = none ∨ v.Stops depth) ∨ ms.Stops depth

end

mutual

/-- Up to where the parser stops, no counter reaches 2^31: the length of a name, that of a string value with its NUL, and the number of
items. -/
def Doc.Counted (depth : ℕ) : Doc → Prop
  | .string ps => count ps + 1 < 2 ^ 31
  | .array _ es => depth = depthLimit ∨ es.Counted (depth + 1) 0
  | .object _ ms => depth = depthLimit ∨ ms.Counted (depth + 1) 0
  | _ => True

/-- With `n` elements before. -/
def Elements.Counted (depth n : ℕ) : Elements → Prop
  | .last v _ => v.Counted depth ∧ (v.Stops depth ∨ n + 1 < 2 ^ 31)
  | .cons v _ _ es => v.Counted depth ∧ (v.Stops depth ∨ n + 1 < 2 ^ 31 ∧ es.Counted depth (n + 1))

/-- With `n` members before. -/
def Members.Counted (depth n : ℕ) : Members → Prop
  | .last name _ _ v _ => (count name < 2 ^ 31 ∧ (decode name = none ∨ v.Counted depth)) ∧
    ((decode name = none ∨ v.Stops depth) ∨ n + 1 < 2 ^ 31)
  | .cons name _ _ v _ _ ms => (count name < 2 ^ 31 ∧ (decode name = none ∨ v.Counted depth)) ∧
    ((decode name = none ∨ v.Stops depth) ∨ n + 1 < 2 ^ 31 ∧ ms.Counted depth (n + 1))

end

/-! ## Items -/

variable {item : List UInt8 → Outcome (α × List UInt8)} {x items : List UInt8} {close : UInt8} {fuel n : ℕ} {c s c' s' : Prop} {a : α}

theorem itemsLoop_last (h : Makes (item m) c s (a, w ++ close :: rest)) (hw : ∀ c ∈ w, isspace c) (hclose : close = ch ']' ∨ close = ch '\x7d')
    (fuel : ℕ) (items : List α) (n : ℕ) :
    Makes (itemsLoop close item (fuel + 1) m items n) (c ∧ (s ∨ n + 1 < 2 ^ 31)) s (items ++ [a], n + 1, rest) := by
  have hspace : ¬isspace close ∧ close ≠ ch ',' := by rcases hclose with rfl | rfl <;> decide
  rw [itemsLoop]
  refine (h.bind (@Makes.bind _ _ _ _ _ _ True False _ (items ++ [a], n + 1, rest) (incr_makes n) ?_)).congr ?_ ?_
  · rw [skipSpace_append hw (notFrom_cons.mpr hspace.1)]
    dsimp only
    rw [if_neg hspace.2, if_pos rfl]
    exact Makes.ok _
  · simp only [or_true, and_true]
  · simp only [or_false]

theorem itemsLoop_cons {w' m' : List UInt8} {items : List α} {r : List α × ℕ × List UInt8}
    (h : Makes (item m) c s (a, w ++ ch ',' :: (w' ++ m'))) (hw : ∀ c ∈ w, isspace c) (hw' : ∀ c ∈ w', isspace c)
    (hm' : NotFrom isspace m') (hrest : Makes (itemsLoop close item fuel m' (items ++ [a]) (n + 1)) c' s' r) :
    Makes (itemsLoop close item (fuel + 1) m items n) (c ∧ (s ∨ n + 1 < 2 ^ 31 ∧ c')) (s ∨ s') r := by
  have hcomma : ¬isspace (ch ',') := by decide
  rw [itemsLoop]
  refine (h.bind (@Makes.bind _ _ _ _ _ _ c' s' _ r (incr_makes n) ?_)).congr ?_ ?_
  · rw [skipSpace_append hw (notFrom_cons.mpr hcomma)]
    dsimp only
    rwa [if_pos rfl, skipSpace_append hw' hm']
  · simp only [false_or]
  · simp only [false_or]

theorem parseItems_makes {r : List α × ℕ × List UInt8} (hw : ∀ c ∈ w, isspace c) (hm : ∃ d m', m = d :: m' ∧ ¬isspace d ∧ d ≠ close)
    (h : Makes (itemsLoop close item m.length m [] 0) c s r) : Makes (parseItems close item (w ++ m)) c s r := by
  obtain ⟨d, m', rfl, hd, hclose⟩ := hm
  rw [parseItems, skipSpace_append hw (notFrom_cons.mpr hd)]
  dsimp only
  rwa [if_neg hclose]

theorem parseItems_empty (hw : ∀ c ∈ w, isspace c) (hclose : ¬isspace close) :
    parseItems close item (w ++ close :: rest) = .ok ([], 0, rest) := by
  rw [parseItems, skipSpace_append hw (notFrom_cons.mpr hclose)]
  exact if_pos rfl

theorem limit_makes {x : Outcome α} {depth : ℕ} (h : depth ≠ depthLimit → Makes x c s a) :
    Makes (if depth = depthLimit then .error (.ret (-3)) else x) (depth = depthLimit ∨ c) (depth = depthLimit ∨ s) a := by
  by_cases hlimit : depth = depthLimit
  · rw [if_pos hlimit]
    exact ⟨fun h => absurd (.inl hlimit) h, fun _ _ => ⟨_, rfl⟩, fun _ h => absurd (.inl hlimit) h⟩
  · rw [if_neg hlimit]
    exact (h hlimit).congr (or_iff_right hlimit).symm (or_iff_right hlimit).symm

/-! ## Values -/

theorem number_head {c : UInt8} (h : c = ch '-' ∨ isdigit c) : ¬isspace c ∧ c ≠ ch ']' ∧ c ≠ ch '\x7d' ∧ c ≠ ch '"' := by
  simp [isdigit, isspace, ch, UInt8.le_iff_toNat_le, ← UInt8.toNat_inj] at h ⊢
  omega

theorem Doc.render_cons (d : Doc) (h : d.Over .wide) : ∃ c m, d.render = c :: m ∧ ¬isspace c ∧ c ≠ ch ']' ∧ c ≠ ch '\x7d' := by
  -- a value begins with no white space and no closing bracket
  cases d with
  | number n =>
    obtain ⟨c, m, hrender, hc⟩ := Numeral.render_cons h
    obtain ⟨hspace, hbracket, hbrace, -⟩ := number_head hc
    exact ⟨c, m, by rw [Doc.render, hrender], hspace, hbracket, hbrace⟩
  | null => exact ⟨_, _, rfl, by decide⟩
  | true => exact ⟨_, _, rfl, by decide⟩
  | false => exact ⟨_, _, rfl, by decide⟩
  | string ps => exact ⟨_, _, rfl, by decide⟩
  | emptyArray w => exact ⟨_, _, rfl, by decide⟩
  | array w es => exact ⟨_, _, rfl, by decide⟩
  | emptyObject w => exact ⟨_, _, rfl, by decide⟩
  | object w ms => exact ⟨_, _, rfl, by decide⟩

theorem Elements.render_cons (es : Elements) (h : es.Over .wide) : ∃ c m, es.render = c :: m ∧ ¬isspace c ∧ c ≠ ch ']' ∧ c ≠ ch '\x7d' := by
  cases es with
  | last v w =>
    obtain ⟨c, m, hv, hc⟩ := v.render_cons h.1
    exact ⟨c, _, by rw [Elements.render, hv, List.cons_append], hc⟩
  | cons v w w' es =>
    obtain ⟨c, m, hv, hc⟩ := v.render_cons h.1
    exact ⟨c, _, by rw [Elements.render, hv, List.cons_append], hc⟩

theorem Members.render_cons (ms : Members) : ∃ m, ms.render = ch '"' :: m := by
  cases ms with
  | last name w₁ w₂ v w => exact ⟨_, rfl⟩
  | cons name w₁ w₂ v w w' ms => exact ⟨_, rfl⟩

section
variable (toDouble : List UInt8 → D) (levels depth : ℕ) (m : List UInt8)

theorem value_string : parseJsonValue toDouble (levels + 1) (ch '"' :: m) depth = parseStringValue m := by
  rw [parseJsonValue, if_pos rfl]

theorem value_number {c : UInt8} (h : c = ch '-' ∨ isdigit c) : parseJsonValue toDouble (levels + 1) (c :: m) depth =
    (parseJsonNumber toDouble (c :: m)).map fun r => (.number r.1, r.2) := by
  rw [parseJsonValue, if_neg (number_head h).2.2.2, if_pos h]

theorem value_object : parseJsonValue toDouble (levels + 1) (ch '\x7b' :: m) depth =
    parseJsonObject (parseJsonValue toDouble levels) m depth := by
  rw [parseJsonValue, if_neg (by decide), if_neg (by decide), if_pos rfl]

theorem value_array : parseJsonValue toDouble (levels + 1) (ch '[' :: m) depth =
    parseJsonArray (parseJsonValue toDouble levels) m depth := by
  rw [parseJsonValue, if_neg (by decide), if_neg (by decide), if_neg (by decide), if_pos rfl]

end

theorem member_makes {value : List UInt8 → ℕ → Outcome (JsonValue D × List UInt8)} {name : List Piece} {w₁ w₂ : List UInt8} {val : JsonValue D}
    {depth : ℕ} (hname : ∀ p ∈ name, p.Wide) (hw₁ : ∀ c ∈ w₁, isspace c) (hw₂ : ∀ c ∈ w₂, isspace c) (hm : NotFrom isspace m)
    (hvalue : Makes (value m depth) c s (val, rest)) :
    Makes ((expect (ch '"') (ch '"' :: (quoted name ++ ch '"' :: (w₁ ++ ch ':' :: (w₂ ++ m))))).bind fun cursor =>
      (jsonStringLength 0 cursor).bind fun len => parseJsonMember value (len + 1) cursor depth)
      (count name < 2 ^ 31 ∧ (decode name = none ∨ c)) (decode name = none ∨ s) (((decode name).getD [], val), rest) := by
  have hcolon : ¬isspace (ch ':') := by decide
  have hmember : Makes (parseJsonMember value (count name + 1) (quoted name ++ ch '"' :: (w₁ ++ ch ':' :: (w₂ ++ m))) depth)
      (True ∧ (decode name = none ∨ c)) (decode name = none ∨ s) (((decode name).getD [], val), rest) := by
    refine (parseJsonString_makes hname _).bind ?_
    have hexpect : expect (ch ':') (skipSpace (w₁ ++ ch ':' :: (w₂ ++ m))) = .ok (w₂ ++ m) := by
      rw [skipSpace_append hw₁ (notFrom_cons.mpr hcolon), expect_cons]
    dsimp only
    rw [hexpect]
    dsimp only [Except.bind]
    rw [skipSpace_append hw₂ hm]
    exact hvalue.map fun r => (((decode name).getD [], r.1), r.2)
  rw [expect_cons]
  refine ((jsonStringLength_makes hname _).bind hmember).congr ?_ ?_
  · simp only [false_or, true_and]
  · simp only [false_or]

mutual

theorem Doc.makes (toDouble : List UInt8 → D) {levels depth : ℕ} {rest : List UInt8} (hlevels : depthLimit < levels + depth)
    (hdepth : depth ≤ depthLimit) (hrest : Ended rest) : ∀ d : Doc, d.Over .wide →
      Makes (parseJsonValue toDouble levels (d.render ++ rest) depth) (d.Counted depth) (d.Stops depth) (d.tree toDouble, rest) := by
  intro d h
  obtain ⟨levels, rfl⟩ : ∃ k, levels = k + 1 := ⟨levels - 1, by omega⟩
  match d with
  | .null => exact Makes.ok _
  | .true => exact Makes.ok _
  | .false => exact Makes.ok _
  | .number n =>
    obtain ⟨c, m, hrender, hc⟩ := Numeral.render_cons h
    have hnumber := parseJsonNumber_render h hrest toDouble
    rw [Doc.render, Doc.tree, hrender, List.cons_append, value_number _ _ _ _ hc, ← List.cons_append, ← hrender, hnumber]
    exact Makes.ok _
  | .string ps =>
    rw [Doc.render, List.cons_append, List.append_assoc, List.singleton_append, value_string]
    exact parseStringValue_makes h rest
  | .emptyArray w =>
    rw [Doc.render, List.cons_append, List.append_assoc, List.singleton_append, value_array]
    refine (limit_makes fun _ => (?_ : Makes _ True False ((.array [] 0 : JsonValue D), rest))).congr ?_ ?_
    · rw [parseJsonElements, parseItems_empty h (by decide)]
      exact Makes.ok _
    · exact iff_of_true (.inr trivial) trivial
    · exact or_iff_left not_false
  | .array w es =>
    obtain ⟨hw, hes⟩ := h
    rw [Doc.render, List.cons_append, List.append_assoc, List.append_assoc, List.singleton_append, value_array]
    refine limit_makes fun hlimit => ?_
    obtain ⟨d, m, hd, hspace, hbracket, -⟩ := Elements.render_cons es hes
    have hfuel : es.render.length < (es.render ++ ch ']' :: rest).length := by
      rw [List.length_append, List.length_cons]
      omega
    have hitems := parseItems_makes hw ⟨d, m ++ ch ']' :: rest, by rw [hd, List.cons_append], hspace, hbracket⟩
      (Elements.makes toDouble (by omega : depthLimit < levels + (depth + 1)) (by omega) es [] 0 rest hes hfuel)
    rw [List.nil_append, Nat.zero_add] at hitems
    exact hitems.map fun r => (JsonValue.array r.1 r.2.1, r.2.2)
  | .emptyObject w =>
    rw [Doc.render, List.cons_append, List.append_assoc, List.singleton_append, value_object]
    refine (limit_makes fun _ => (?_ : Makes _ True False ((.object [] 0 : JsonValue D), rest))).congr ?_ ?_
    · rw [parseJsonMembers, parseItems_empty h (by decide)]
      exact Makes.ok _
    · exact iff_of_true (.inr trivial) trivial
    · exact or_iff_left not_false
  | .object w ms =>
    obtain ⟨hw, hms⟩ := h
    rw [Doc.render, List.cons_append, List.append_assoc, List.append_assoc, List.singleton_append, value_object]
    refine limit_makes fun hlimit => ?_
    obtain ⟨m, hm⟩ := Members.render_cons ms
    have hfuel : ms.render.length < (ms.render ++ ch '\x7d' :: rest).length := by
      rw [List.length_append, List.length_cons]
      omega
    have hitems := parseItems_makes hw ⟨ch '"', m ++ ch '\x7d' :: rest, by rw [hm, List.cons_append], by decide, by decide⟩
      (Members.makes toDouble (by omega : depthLimit < levels + (depth + 1)) (by omega) ms [] 0 rest hms hfuel)
    rw [List.nil_append, Nat.zero_add] at hitems
    exact hitems.map fun r => (JsonValue.object r.1 r.2.1, r.2.2)

theorem Elements.makes (toDouble : List UInt8 → D) {levels depth fuel : ℕ} (hlevels : depthLimit < levels + depth)
    (hdepth : depth ≤ depthLimit) : ∀ (es : Elements) (items : List (JsonValue D)) (n : ℕ) (rest : List UInt8), es.Over .wide →
      es.render.length < fuel →
      Makes (itemsLoop (ch ']') (fun cursor => parseJsonValue toDouble levels cursor depth) fuel (es.render ++ ch ']' :: rest) items n)
        (es.Counted depth n) (es.Stops depth) (items ++ es.trees toDouble, n + (es.trees toDouble).length, rest) := by
  intro es items n rest h hfuel
  obtain ⟨fuel, rfl⟩ : ∃ k, fuel = k + 1 := ⟨fuel - 1, by omega⟩
  match es with
  | .last v w =>
    obtain ⟨hv, hw⟩ := h
    rw [Elements.render, List.append_assoc]
    exact itemsLoop_last (Doc.makes toDouble hlevels hdepth (ended_append hw (by decide)) v hv) hw (.inl rfl) fuel items n
  | .cons v w w' es =>
    obtain ⟨hv, hw, hw', hes⟩ := h
    obtain ⟨d, m, hd, hspace, -, -⟩ := es.render_cons hes
    rw [Elements.render, List.length_append, List.length_append, List.length_cons, List.length_append] at hfuel
    have hvalue := Doc.makes toDouble hlevels hdepth (ended_append (m := w' ++ (es.render ++ ch ']' :: rest)) hw (c := ch ',') (by decide)) v hv
    have hrest := Elements.makes toDouble hlevels hdepth es (items ++ [v.tree toDouble]) (n + 1) rest hes (by omega : _ < fuel)
    have hr : (items ++ [v.tree toDouble] ++ es.trees toDouble, n + 1 + (es.trees toDouble).length, rest) =
        (items ++ (Elements.cons v w w' es).trees toDouble, n + ((Elements.cons v w w' es).trees toDouble).length, rest) := by
      rw [Elements.trees, List.append_assoc, List.singleton_append, List.length_cons, Nat.add_assoc, Nat.add_comm 1]
    rw [hr] at hrest
    rw [Elements.render]
    simp only [List.append_assoc, List.cons_append]
    exact itemsLoop_cons hvalue hw hw' (by rw [hd]; exact notFrom_cons.mpr hspace) hrest

theorem Members.makes (toDouble : List UInt8 → D) {levels depth fuel : ℕ} (hlevels : depthLimit < levels + depth)
    (hdepth : depth ≤ depthLimit) : ∀ (ms : Members) (items : List (List UInt8 × JsonValue D)) (n : ℕ) (rest : List UInt8),
      ms.Over .wide → ms.render.length < fuel → Makes (itemsLoop (ch '\x7d') (fun cursor => (expect (ch '"') cursor).bind fun cursor =>
        (jsonStringLength 0 cursor).bind fun len => parseJsonMember (parseJsonValue toDouble levels) (len + 1) cursor depth) fuel
          (ms.render ++ ch '\x7d' :: rest) items n)
        (ms.Counted depth n) (ms.Stops depth) (items ++ ms.trees toDouble, n + (ms.trees toDouble).length, rest) := by
  intro ms items n rest h hfuel
  obtain ⟨fuel, rfl⟩ : ∃ k, fuel = k + 1 := ⟨fuel - 1, by omega⟩
  match ms with
  | .last name w₁ w₂ v w =>
    obtain ⟨hname, hw₁, hw₂, hv, hw⟩ := h
    obtain ⟨d, m, hd, hspace, -, -⟩ := v.render_cons hv
    have hvalue := Doc.makes toDouble hlevels hdepth (ended_append (m := rest) hw (c := ch '\x7d') (by decide)) v hv
    have hmember := member_makes hname hw₁ hw₂ (by rw [hd]; exact notFrom_cons.mpr hspace) hvalue
    rw [Members.render]
    simp only [List.append_assoc, List.cons_append]
    exact itemsLoop_last hmember hw (.inr rfl) fuel items n
  | .cons name w₁ w₂ v w w' ms =>
    obtain ⟨hname, hw₁, hw₂, hv, hw, hw', hms⟩ := h
    obtain ⟨d, m, hd, hspace, -, -⟩ := v.render_cons hv
    obtain ⟨m', hm'⟩ := ms.render_cons
    have hquote : ¬isspace (ch '"') := by decide
    simp only [Members.render, List.length_append, List.length_cons] at hfuel
    have hvalue := Doc.makes toDouble hlevels hdepth (ended_append (m := w' ++ (ms.render ++ ch '\x7d' :: rest)) hw (c := ch ',') (by decide)) v hv
    have hmember := member_makes hname hw₁ hw₂ (by rw [hd]; exact notFrom_cons.mpr hspace) hvalue
    have hrest := Members.makes toDouble hlevels hdepth ms (items ++ [((decode name).getD [], v.tree toDouble)]) (n + 1) rest hms
      (by omega : _ < fuel)
    have hr : (items ++ [((decode name).getD [], v.tree toDouble)] ++ ms.trees toDouble, n + 1 + (ms.trees toDouble).length, rest) =
        (items ++ (Members.cons name w₁ w₂ v w w' ms).trees toDouble,
          n + ((Members.cons name w₁ w₂ v w w' ms).trees toDouble).length, rest) := by
      rw [Members.trees, List.append_assoc, List.singleton_append, List.length_cons, Nat.add_assoc, Nat.add_comm 1]
    rw [hr] at hrest
    rw [Members.render]
    simp only [List.append_assoc, List.cons_append]
    exact itemsLoop_cons hmember hw hw' (by rw [hm']; exact notFrom_cons.mpr hquote) hrest

end

/-! ## Depth and grammar -/

theorem atom_iff {p : Prop} {depth : ℕ} (h : depth ≤ depthLimit) : p ↔ p ∨ depthLimit < depth + 0 :=
  (or_iff_left (Nat.not_lt_of_le h)).symm

theorem limit_iff {depth : ℕ} (h : depth ≤ depthLimit) : depth = depthLimit ↔ False ∨ depthLimit < depth + 1 := by
  rw [false_or]
  omega

theorem max_iff (depth a b : ℕ) : depthLimit < depth + max a b ↔ depthLimit < depth + a ∨ depthLimit < depth + b := by
  omega

mutual

theorem Doc.stops_iff {depth : ℕ} (h : depth ≤ depthLimit) : ∀ d : Doc, d.Stops depth ↔ d.Lone ∨ depthLimit < depth + d.depth := by
  intro d
  match d with
  | .null => exact atom_iff h
  | .true => exact atom_iff h
  | .false => exact atom_iff h
  | .number n => exact atom_iff h
  | .string ps => exact atom_iff h
  | .emptyArray w => exact limit_iff h
  | .emptyObject w => exact limit_iff h
  | .array w es =>
    by_cases hlimit : depth = depthLimit
    · exact iff_of_true (.inl hlimit) (.inr (by rw [Doc.depth]; omega))
    · have hes := Elements.stops_iff (by omega : depth + 1 ≤ depthLimit) es
      rw [Doc.Stops, or_iff_right hlimit, hes, Doc.Lone, Doc.depth, Nat.add_assoc, Nat.add_comm 1]
  | .object w ms =>
    by_cases hlimit : depth = depthLimit
    · exact iff_of_true (.inl hlimit) (.inr (by rw [Doc.depth]; omega))
    · have hms := Members.stops_iff (by omega : depth + 1 ≤ depthLimit) ms
      rw [Doc.Stops, or_iff_right hlimit, hms, Doc.Lone, Doc.depth, Nat.add_assoc, Nat.add_comm 1]

theorem Elements.stops_iff {depth : ℕ} (h : depth ≤ depthLimit) :
    ∀ es : Elements, es.Stops depth ↔ es.Lone ∨ depthLimit < depth + es.depth := by
  intro es
  match es with
  | .last v w => exact Doc.stops_iff h v
  | .cons v w w' es =>
    have hv := Doc.stops_iff h v
    have hes := Elements.stops_iff h es
    rw [Elements.Stops, hv, hes, Elements.Lone, Elements.depth, max_iff]
    exact or_or_or_comm

theorem Members.stops_iff {depth : ℕ} (h : depth ≤ depthLimit) :
    ∀ ms : Members, ms.Stops depth ↔ ms.Lone ∨ depthLimit < depth + ms.depth := by
  intro ms
  match ms with
  | .last name w₁ w₂ v w =>
    have hv := Doc.stops_iff h v
    rw [Members.Stops, hv, Members.Lone, Members.depth, or_assoc]
  | .cons name w₁ w₂ v w w' ms =>
    have hv := Doc.stops_iff h v
    have hms := Members.stops_iff h ms
    rw [Members.Stops, hv, hms, Members.Lone, Members.depth, max_iff, ← or_assoc (b := v.Lone)]
    exact or_or_or_comm.trans (or_congr_left or_assoc)

end

/-- White space, numbers and strings that two grammars have in common. -/
def Grammar.Meet (G G₁ G₂ : Grammar) : Prop :=
  (∀ w, G.space w ↔ G₁.space w ∧ G₂.space w) ∧ (∀ n, G.number n ↔ G₁.number n ∧ G₂.number n) ∧
    ∀ ps, G.string ps ↔ G₁.string ps ∧ G₂.string ps

theorem and_meet {p p₁ p₂ q q₁ q₂ : Prop} (hp : p ↔ p₁ ∧ p₂) (hq : q ↔ q₁ ∧ q₂) : p ∧ q ↔ (p₁ ∧ q₁) ∧ p₂ ∧ q₂ := by
  rw [hp, hq]
  exact and_and_and_comm

mutual

theorem Doc.over_meet {G G₁ G₂ : Grammar} (h : G.Meet G₁ G₂) : ∀ d : Doc, d.Over G ↔ d.Over G₁ ∧ d.Over G₂ := by
  intro d
  match d with
  | .null => exact (and_self_iff).symm
  | .true => exact (and_self_iff).symm
  | .false => exact (and_self_iff).symm
  | .number n => exact h.2.1 n
  | .string ps => exact h.2.2 ps
  | .emptyArray w => exact h.1 w
  | .emptyObject w => exact h.1 w
  | .array w es => exact and_meet (h.1 w) (Elements.over_meet h es)
  | .object w ms => exact and_meet (h.1 w) (Members.over_meet h ms)

theorem Elements.over_meet {G G₁ G₂ : Grammar} (h : G.Meet G₁ G₂) : ∀ es : Elements, es.Over G ↔ es.Over G₁ ∧ es.Over G₂ := by
  intro es
  match es with
  | .last v w => exact and_meet (Doc.over_meet h v) (h.1 w)
  | .cons v w w' es => exact and_meet (Doc.over_meet h v) (and_meet (h.1 w) (and_meet (h.1 w') (Elements.over_meet h es)))

theorem Members.over_meet {G G₁ G₂ : Grammar} (h : G.Meet G₁ G₂) : ∀ ms : Members, ms.Over G ↔ ms.Over G₁ ∧ ms.Over G₂ := by
  intro ms
  match ms with
  | .last name w₁ w₂ v w =>
    exact and_meet (h.2.2 name) (and_meet (h.1 w₁) (and_meet (h.1 w₂) (and_meet (Doc.over_meet h v) (h.1 w))))
  | .cons name w₁ w₂ v w w' ms =>
    exact and_meet (h.2.2 name) (and_meet (h.1 w₁) (and_meet (h.1 w₂) (and_meet (Doc.over_meet h v) (and_meet (h.1 w)
      (and_meet (h.1 w') (Members.over_meet h ms))))))

end

theorem rfc_meet : Grammar.rfc.Meet .wide .plain := by
  refine ⟨fun w => ?_, fun n => ?_, fun ps => Iff.rfl⟩
  · have hbyte (c : UInt8) : (c = 0x20 ∨ c = 0x09 ∨ c = 0x0a ∨ c = 0x0d) ↔ isspace c ∧ c ≠ 0x0b ∧ c ≠ 0x0c := by
      simp [isspace, UInt8.le_iff_toNat_le, ← UInt8.toNat_inj]
      omega
    simp only [Grammar.rfc, Grammar.wide, Grammar.plain, hbyte, forall_and]
  · cases n with
    | named w => exact iff_of_false id fun h => h.2
    | decimal minus int frac exp =>
      constructor
      · rintro ⟨hint, hfrac, hexp⟩
        refine ⟨⟨.inl hint, fun ds hds => (hfrac ds hds).2, hexp⟩, hint.digits.2, ?_⟩
        rintro rfl
        exact (hfrac [] rfl).1 rfl
      · rintro ⟨⟨hint, hfrac, hexp⟩, hne, hpoint⟩
        refine ⟨hint.resolve_right fun hnone => hne hnone.2.1, fun ds hds => ⟨?_, hfrac ds hds⟩, hexp⟩
        rintro rfl
        exact hpoint hds

theorem Text.over_rfc {t : Text} : t.Over .rfc ↔ t.Over .wide ∧ t.Over .plain :=
  and_meet (rfc_meet.1 _) (and_meet (t.doc.over_meet rfc_meet) (rfc_meet.1 _))

theorem Text.wide_of_rfc {t : Text} (h : t.Over .rfc) : t.Over .wide := (Text.over_rfc.mp h).1

/-! ## Texts -/

theorem jsonValueParse_render (toDouble : List UInt8 → D) (t : Text) (h : t.Over .wide) :
    (¬t.doc.Counted 0 → jsonValueParse toDouble (t.render ++ [0]) = none) ∧
      (t.doc.Counted 0 → t.doc.Stops 0 → jsonValueParse toDouble (t.render ++ [0]) = some none) ∧
        (t.doc.Counted 0 → ¬t.doc.Stops 0 → jsonValueParse toDouble (t.render ++ [0]) = some (some (t.doc.tree toDouble))) := by
  obtain ⟨hbefore, hdoc, hafter⟩ := h
  have hend : ¬isspace 0 := by decide
  obtain ⟨c, m, hd, hspace, -⟩ := t.doc.render_cons hdoc
  have hskip : skipSpace (t.render ++ [0]) = t.doc.render ++ (t.after ++ [0]) := by
    rw [Text.render, List.append_assoc, List.append_assoc, skipSpace_append hbefore]
    rw [hd]
    exact notFrom_cons.mpr hspace
  have hended : Ended (t.after ++ [0]) := ended_append hafter (by decide)
  have hmakes := Doc.makes toDouble (by decide : depthLimit < depthLimit + 1 + 0) (Nat.zero_le _) hended t.doc hdoc
  unfold jsonValueParse
  rw [hskip]
  refine ⟨fun hcounted => ?_, fun hcounted hstops => ?_, fun hcounted hstops => ?_⟩
  · rw [hmakes.undefined hcounted]
  · obtain ⟨code, hcode⟩ := hmakes.error hcounted hstops
    rw [hcode]
  · rw [hmakes.value hcounted hstops]
    dsimp only
    rw [skipSpace_append hafter (notFrom_cons.mpr hend)]
    rfl

/-- A text within the depth limit and without lone surrogates gets its value, and every other text none, exactly when the `int` counters of
the parser do not overflow on it. -/
theorem json_text_parsed (toDouble : List UInt8 → D) (t : Text) (h : t.Over .rfc) :
    ((t.doc.depth ≤ depthLimit → ¬t.doc.Lone → jsonValueParse toDouble (t.render ++ [0]) = some (some (t.doc.tree toDouble))) ∧
      (depthLimit < t.doc.depth ∨ t.doc.Lone → jsonValueParse toDouble (t.render ++ [0]) = some none)) ↔ t.doc.Counted 0 := by
  obtain ⟨hundefined, herror, hvalue⟩ := jsonValueParse_render toDouble t (Text.wide_of_rfc h)
  have hstops := Doc.stops_iff (Nat.zero_le depthLimit) t.doc
  rw [Nat.zero_add] at hstops
  constructor
  · rintro ⟨hgood, hbad⟩
    by_contra hcounted
    rw [hundefined hcounted] at hgood hbad
    by_cases hs : depthLimit < t.doc.depth ∨ t.doc.Lone
    · cases hbad hs
    · obtain ⟨hdepth, hlone⟩ := not_or.mp hs
      cases hgood (Nat.le_of_not_lt hdepth) hlone
  · intro hcounted
    refine ⟨fun hdepth hlone => hvalue hcounted fun hs => ?_, fun hs => herror hcounted (hstops.mpr hs.symm)⟩
    exact (hstops.mp hs).elim hlone (Nat.not_lt_of_le hdepth)

theorem json_text_parsed_sample : jsonValueParse (fun lit => lit) [ch '[', ch '1', ch ']', 0] =
    some (some (.array [.number [ch '1']] 1)) := by
  have hint : IsInt [ch '1'] := .inr ⟨ch '1', [], rfl, by decide, by decide, nofun⟩
  have hparsed := json_text_parsed (fun lit => lit)
    ⟨[], .array [] (.last (.number (.decimal false [ch '1'] none none)) []), []⟩ ⟨nofun, ⟨nofun, ⟨hint, nofun, nofun⟩, nofun⟩, nofun⟩
  exact (hparsed.mpr (.inr ⟨trivial, .inr (by decide)⟩)).1 (by decide) id

def letters (n : ℕ) : List Piece := List.replicate n (.raw (ch 'a'))

theorem isUtf8_letters (n : ℕ) : IsUtf8 (quoted (letters n)) := by
  refine ⟨List.replicate n 'a', ?_⟩
  rw [quoted, letters, List.flatMap_replicate, List.flatMap_replicate]
  rfl

theorem letters_succ (n : ℕ) : letters (n + 1) = .raw (ch 'a') :: letters n := List.replicate_succ

theorem decode_letters (n : ℕ) : decode (letters n) ≠ none := by
  induction n with
  | zero => exact nofun
  | succ n ih =>
    rw [letters_succ, decode_raw]
    exact fun h => ih (Option.map_eq_none_iff.mp h)

theorem count_letters (n : ℕ) : count (letters n) = n := by
  induction n with
  | zero => rfl
  | succ n ih => rw [letters_succ, count_cons, ih, Piece.count, Nat.add_comm]

/-- A string of 2^31 letters. -/
theorem long_string_lost : ∃ t : Text, t = ⟨[], .string (letters (2 ^ 31)), []⟩ ∧ t.Over .rfc ∧ t.doc.depth ≤ depthLimit ∧ ¬t.doc.Lone ∧
    jsonValueParse (fun lit => lit) (t.render ++ [0]) ≠ some (some (t.doc.tree fun lit => lit)) := by
  have hletter : ∀ p ∈ letters (2 ^ 31), p.Wide := fun p hp => by
    rw [List.eq_of_mem_replicate hp]
    exact ⟨by decide, by decide, by decide⟩
  have hrfc : (⟨[], .string (letters (2 ^ 31)), []⟩ : Text).Over .rfc := ⟨nofun, ⟨hletter, isUtf8_letters _⟩, nofun⟩
  refine ⟨_, rfl, hrfc, Nat.zero_le _, decode_letters _, ?_⟩
  have hcounted : ¬(Doc.string (letters (2 ^ 31))).Counted 0 := by
    rw [Doc.Counted, count_letters]
    omega
  rw [(jsonValueParse_render _ _ (Text.wide_of_rfc hrfc)).1 hcounted]
  exact nofun

end Yjc.Json
