import Yjc.Netlink.AttrBuild

/-! What the parsers read back from a forest. -/

namespace Yjc.Netlink
open Mem

/-- The payload of the attribute at `r`. -/
def Matches (m : List UInt8) (a : Attr) (r : ℕ) : Prop :=
  ∃ len : ℕ, rtaPayload m r = some (len : ℤ) ∧ r + 4 + len ≤ m.length ∧
    match a with
    | .data _ payload => slice m (r + 4) (r + 4 + len) = payload
    | .nest _ inner => inner.Spelled (slice m (r + 4) (r + 4 + len))

def Yields (m : List UInt8) (a : Option Attr) (entry : Option (Option ℕ)) : Prop :=
  match a with
  | none => entry = some none
  | some a => ∃ r, entry = some (some r) ∧ Matches m a r

/-- What the two parsers make of the `len` bytes from `p` on. -/
def Parsed (m : List UInt8) (max : ℕ) (f : Forest) (p : ℕ) (len : ℤ) : Prop :=
  (∃ tb, netlinkParseRtattrFlags m max p len nested = some tb ∧ ∀ t ≤ max, Yields m (f.first t) tb[t]?) ∧
    ∃ tb, netlinkParseRtattr m max p len = some tb ∧ ∀ t ≤ max, Yields m (f.last t) tb[t]?

def payloadAt (m : List UInt8) (max : ℕ) : List ℕ → ℕ → ℤ → Option (ℕ × ℤ)
  | [], p, len => some (p, len)
  | t :: path, p, len => do
    let tb ← netlinkParseRtattrFlags m max p len nested
    let rta ← tb[t]?.join
    let payload ← rtaPayload m rta
    payloadAt m max path (rta + 4) payload

/-! ## The loop -/

variable {m pre xs post payload : List UInt8} {max rtaLen rtaType t r : ℕ} {store : List (Option ℕ) → ℕ → ℕ → List (Option ℕ)}
  {tb : List (Option ℕ)} {f : Forest} {a : Attr}

theorem Forest.type_le (hf : f.Fits max) (ha : a ∈ f.attrs) : a.type ≤ max := by
  induction f with
  | nil => cases ha
  | data type payload rest ih =>
    obtain rfl | ha := List.mem_cons.mp ha
    · exact hf.1
    · exact ih hf.2.2 ha
  | nest type inner rest _ ih =>
    obtain rfl | ha := List.mem_cons.mp ha
    · exact hf.1
    · exact ih hf.2.2 ha

theorem Forest.fits_inner {inner : Forest} (hf : f.Fits max) (ha : .nest t inner ∈ f.attrs) : inner.Fits max := by
  induction f with
  | nil => cases ha
  | data type payload rest ih =>
    obtain ha | ha := List.mem_cons.mp ha
    · cases ha
    · exact ih hf.2.2 ha
  | nest type inner rest _ ih =>
    obtain ha | ha := List.mem_cons.mp ha
    · cases ha
      exact hf.2.1
    · exact ih hf.2.2 ha

theorem parseRound_spell (hmin : 4 ≤ rtaLen) (hlen : rtaLen < 2 ^ 16) (htype : rtaType < 2 ^ 16) {len : ℤ} (hle : rtaLen ≤ len)
    (tb : List (Option ℕ)) : parseRound (pre ++ spell rtaLen rtaType payload) store (pre.length, len, tb) =
      .inl (pre.length + align rtaLen, len - align rtaLen, store tb rtaType pre.length) := by
  unfold parseRound rtaOk
  dsimp only
  rw [if_pos (by omega), read_spell.1, Option.map_some, Nat.mod_eq_of_lt hlen, if_pos ⟨hmin, hle⟩]
  dsimp only
  rw [read_spell.2, Nat.mod_eq_of_lt htype]

theorem rtaPayload_spell (hlen : rtaLen < 2 ^ 16) :
    rtaPayload (pre ++ spell rtaLen rtaType payload) pre.length = some ((rtaLen : ℤ) - 4) := by
  rw [rtaPayload, read_spell.1, Nat.mod_eq_of_lt hlen, Option.map_some]

theorem slice_spell : slice (pre ++ spell rtaLen rtaType (payload ++ post)) (pre.length + 4) (pre.length + 4 + payload.length) = payload := by
  have hsplit : pre ++ spell rtaLen rtaType (payload ++ post) =
      ((pre ++ (LittleEndian.bytes 2 rtaLen ++ LittleEndian.bytes 2 rtaType)) ++ payload) ++ post := by
    simp only [spell, List.append_assoc]
  have hlen : (pre ++ (LittleEndian.bytes 2 rtaLen ++ LittleEndian.bytes 2 rtaType)).length = pre.length + 4 := by
    rw [List.length_append, List.length_append, LittleEndian.length_bytes, LittleEndian.length_bytes]
  rw [hsplit, slice, List.take_left' (by rw [List.length_append, hlen]), List.drop_left' hlen]

/-- The loop over the `len` bytes from `p` on stores the attributes of a list. -/
def Reads (m : List UInt8) (store : List (Option ℕ) → ℕ → ℕ → List (Option ℕ)) (as : List Attr) (p len : ℕ) : Prop :=
  ∃ l : List (Attr × ℕ), l.map Prod.fst = as ∧ (∀ e ∈ l, Matches m e.1 e.2) ∧ ∀ (tb : List (Option ℕ)) (fuel : ℕ), len < fuel →
    Loop.run (parseRound m store) fuel (p, (len : ℤ), tb) = some (some (l.foldl (fun tb e => store tb e.1.rtaType e.2) tb))

theorem Reads.nil (m : List UInt8) (store : List (Option ℕ) → ℕ → ℕ → List (Option ℕ)) (p : ℕ) : Reads m store [] p 0 := by
  refine ⟨[], rfl, nofun, fun tb fuel hfuel => ?_⟩
  obtain ⟨fuel, rfl⟩ : ∃ k, fuel = k + 1 := ⟨fuel - 1, by omega⟩
  exact Loop.run_leave rfl fuel

theorem Reads.cons {as : List Attr} {pad : List UInt8} {len : ℕ} (htype : a.rtaType < 2 ^ 16) (hlt : 4 + payload.length < 2 ^ 16)
    (hpad : 4 + payload.length + pad.length = align (4 + payload.length))
    (ha : match a with
      | .data _ bytes => payload = bytes
      | .nest _ inner => inner.Spelled payload)
    (h : Reads (pre ++ (spell (4 + payload.length) a.rtaType (payload ++ pad) ++ post)) store as
      (pre.length + align (4 + payload.length)) len) :
    Reads (pre ++ (spell (4 + payload.length) a.rtaType (payload ++ pad) ++ post)) store (a :: as) pre.length
      (align (4 + payload.length) + len) := by
  obtain ⟨l, hl, hmatches, hrun⟩ := h
  have hm : pre ++ (spell (4 + payload.length) a.rtaType (payload ++ pad) ++ post) =
      pre ++ spell (4 + payload.length) a.rtaType (payload ++ (pad ++ post)) := by
    rw [spell_append, List.append_assoc]
  have halign := align_eq (n := 4 + payload.length) (by omega)
  rw [hm] at hmatches hrun ⊢
  refine ⟨(a, pre.length) :: l, by rw [List.map_cons, hl], List.forall_mem_cons.mpr ⟨⟨payload.length, ?_, ?_, ?_⟩, hmatches⟩,
    fun tb fuel hfuel => ?_⟩
  · rw [rtaPayload_spell hlt]
    congr 1
    push_cast
    omega
  · simp only [List.length_append, length_spell]
    omega
  · rw [slice_spell]
    exact ha
  · obtain ⟨fuel, rfl⟩ : ∃ k, fuel = k + 1 := ⟨fuel - 1, by omega⟩
    have hround := @parseRound_spell pre (payload ++ (pad ++ post)) (4 + payload.length) a.rtaType store (Nat.le_add_right _ _) hlt htype
      (align (4 + payload.length) + len : ℕ) (by push_cast; omega) tb
    have hrest : ((align (4 + payload.length) + len : ℕ) : ℤ) - align (4 + payload.length) = len := by
      push_cast
      omega
    rw [hrest] at hround
    rw [Loop.run_again hround, hrun _ _ (by omega), List.foldl_cons]

theorem reads_spelled (hmax : max < 2 ^ 14) (hfits : f.Fits max) (hf : f.Spelled xs) (store : List (Option ℕ) → ℕ → ℕ → List (Option ℕ))
    (pre post : List UInt8) : Reads (pre ++ (xs ++ post)) store f.attrs pre.length xs.length := by
  induction f generalizing xs pre with
  | nil =>
    obtain rfl : xs = [] := hf
    exact Reads.nil _ _ _
  | data type payload rest ih =>
    obtain ⟨pad, ys, rfl, hpad, hlt, hys⟩ := hf
    obtain ⟨htype, -, hfits⟩ := hfits
    have hlen : (spell (4 + payload.bytes.length) type (payload.bytes ++ pad)).length = align (4 + payload.bytes.length) := by
      rw [length_spell, List.length_append]
      omega
    have h := ih hfits hys (pre ++ spell (4 + payload.bytes.length) type (payload.bytes ++ pad))
    rw [List.append_assoc, List.length_append, hlen] at h
    rw [List.append_assoc, List.length_append, hlen]
    exact Reads.cons (a := .data type payload.bytes) (Nat.lt_of_le_of_lt htype (by omega)) hlt hpad rfl h
  | nest type inner rest _ ih =>
    obtain ⟨zs, ys, rfl, hdvd, hlt, hzs, hys⟩ := hf
    obtain ⟨htype, -, hfits⟩ := hfits
    have halign : align (4 + zs.length) = 4 + zs.length := align_of_dvd (by omega) (by omega)
    have hlen : (spell (4 + zs.length) (nested + type) (zs ++ [])).length = align (4 + zs.length) := by
      rw [length_spell, List.append_nil, halign]
    have h := ih hfits hys (pre ++ spell (4 + zs.length) (nested + type) (zs ++ []))
    rw [List.append_assoc, List.length_append, hlen] at h
    have hxs : spell (4 + zs.length) (nested + type) zs = spell (4 + zs.length) (nested + type) (zs ++ []) := by rw [List.append_nil]
    rw [hxs, List.append_assoc, List.length_append, hlen]
    have hflag : nested + type < 2 ^ 16 := by
      rw [nested]
      omega
    exact Reads.cons (a := .nest type inner) hflag hlt halign.symm hzs h

/-! ## The tables -/

theorem storeFlags_getElem? (hmax : max < 2 ^ 14) (ha : a.type ≤ max) (tb : List (Option ℕ)) (r t : ℕ) :
    (storeFlags max nested tb a.rtaType r)[t]? = tb[t]?.map fun entry => entry.or (if a.type = t then some r else none) := by
  have hmask : a.rtaType &&& (0xffff ^^^ nested) = a.type := by
    have hmod : a.rtaType &&& (0xffff ^^^ nested) = a.rtaType % 2 ^ 15 := Nat.and_two_pow_sub_one_eq_mod _ 15
    rw [hmod, Attr.rtaType]
    split_ifs
    · rw [nested]
      omega
    · omega
  unfold storeFlags
  dsimp only
  rw [hmask]
  split_ifs with hstore htype htype
  · rw [← htype, List.getElem?_set_self' , hstore.2]
    rfl
  · rw [List.getElem?_set_ne htype]
    cases tb[t]? <;> simp
  · subst htype
    cases hentry : tb[a.type]? with
    | none => rfl
    | some entry =>
      cases entry with
      | none => exact absurd ⟨ha, hentry⟩ hstore
      | some r => rfl
  · cases tb[t]? <;> simp

theorem foldl_storeFlags (hmax : max < 2 ^ 14) (l : List (Attr × ℕ)) (hl : ∀ e ∈ l, e.1.type ≤ max) (tb : List (Option ℕ)) (t : ℕ) :
    (l.foldl (fun tb e => storeFlags max nested tb e.1.rtaType e.2) tb)[t]? =
      tb[t]?.map fun entry => entry.or ((l.find? fun e => e.1.type = t).map Prod.snd) := by
  induction l generalizing tb with
  | nil =>
    rw [List.foldl_nil]
    cases htb : tb[t]? <;> simp
  | cons e l ih =>
    obtain ⟨he, hl⟩ := List.forall_mem_cons.mp hl
    rw [List.foldl_cons, ih hl, storeFlags_getElem? hmax he, Option.map_map]
    congr 1
    funext entry
    by_cases htype : e.1.type = t <;> simp [htype]

theorem storeLast_getElem? (hmax : max < 2 ^ 14) (ha : a.type ≤ max) (tb : List (Option ℕ)) (r t : ℕ) :
    (storeLast max tb a.rtaType r)[t]? = tb[t]?.map fun entry => (if a.type = t ∧ ¬a.IsNest then some r else none).or entry := by
  cases a with
  | data type payload =>
    have hunflagged : (Attr.data type payload).rtaType = type := rfl
    have hle : type ≤ max := ha
    rw [storeLast, hunflagged, if_pos hle]
    by_cases htype : type = t
    · subst htype
      rw [List.getElem?_set_self']
      cases htb : tb[type]? <;> simp [Attr.type, Attr.IsNest]
    · rw [List.getElem?_set_ne htype]
      cases htb : tb[t]? <;> simp [Attr.type, htype]
  | nest type inner =>
    have hgt : ¬(Attr.nest type inner).rtaType ≤ max := by
      have hflag : (Attr.nest type inner).rtaType = nested + type := rfl
      rw [hflag, nested]
      omega
    rw [storeLast, if_neg hgt]
    cases htb : tb[t]? <;> simp [Attr.IsNest]

theorem foldl_storeLast (hmax : max < 2 ^ 14) (l : List (Attr × ℕ)) (hl : ∀ e ∈ l, e.1.type ≤ max) (tb : List (Option ℕ)) (t : ℕ) :
    (l.foldl (fun tb e => storeLast max tb e.1.rtaType e.2) tb)[t]? =
      tb[t]?.map fun entry => ((l.reverse.find? fun e => e.1.type = t ∧ ¬e.1.IsNest).map Prod.snd).or entry := by
  induction l generalizing tb with
  | nil =>
    rw [List.foldl_nil]
    cases htb : tb[t]? <;> simp
  | cons e l ih =>
    obtain ⟨he, hl⟩ := List.forall_mem_cons.mp hl
    rw [List.foldl_cons, ih hl, storeLast_getElem? hmax he, Option.map_map]
    congr 1
    funext entry
    have hlast : List.find? (fun e : Attr × ℕ => decide (e.1.type = t ∧ ¬e.1.IsNest)) [e] =
        if e.1.type = t ∧ ¬e.1.IsNest then some e else none := by
      simp only [List.find?_singleton, decide_eq_true_iff]
    rw [List.reverse_cons, List.find?_append, hlast, Option.map_or, Option.or_assoc]
    split_ifs <;> rfl

/-! ## A forest -/

theorem Yields.of_find {p : Attr → Bool} {l : List (Attr × ℕ)} (hl : ∀ e ∈ l, Matches m e.1 e.2) :
    Yields m ((l.map Prod.fst).find? p) (some ((l.find? fun e => p e.1).map Prod.snd)) := by
  have hfind : (l.map Prod.fst).find? p = (l.find? fun e => p e.1).map Prod.fst := List.find?_map ..
  rw [hfind]
  cases h : l.find? fun e => p e.1 with
  | none => rfl
  | some e => exact ⟨e.2, rfl, hl e (List.mem_of_find?_eq_some h)⟩

theorem parsed_spelled (hmax : max < 2 ^ 14) (hfits : f.Fits max) (hf : f.Spelled xs) (pre post : List UInt8) :
    Parsed (pre ++ (xs ++ post)) max f pre.length xs.length := by
  have hentry (t : ℕ) (ht : t ≤ max) : (List.replicate (max + 1) (none : Option ℕ))[t]? = some none := by
    rw [List.getElem?_replicate, if_pos (Nat.lt_succ_of_le ht)]
  have htypes {l : List (Attr × ℕ)} (hl : l.map Prod.fst = f.attrs) : ∀ e ∈ l, e.1.type ≤ max := fun e he =>
    Forest.type_le hfits (hl ▸ List.mem_map_of_mem he)
  have hfuel : xs.length < (xs.length : ℤ).toNat + 1 := Nat.lt_succ_self _
  constructor
  · obtain ⟨l, hl, hmatches, hrun⟩ := reads_spelled hmax hfits hf (storeFlags max nested) pre post
    refine ⟨_, by rw [netlinkParseRtattrFlags, hrun _ _ hfuel, Option.join_some], fun t ht => ?_⟩
    rw [foldl_storeFlags hmax l (htypes hl), hentry t ht, Forest.first, ← hl]
    exact Yields.of_find hmatches
  · obtain ⟨l, hl, hmatches, hrun⟩ := reads_spelled hmax hfits hf (storeLast max) pre post
    refine ⟨_, by rw [netlinkParseRtattr, hrun _ _ hfuel, Option.join_some], fun t ht => ?_⟩
    have hreverse : ∀ e ∈ l.reverse, Matches (pre ++ (xs ++ post)) e.1 e.2 := fun e he => hmatches e (List.mem_reverse.mp he)
    rw [foldl_storeLast hmax l (htypes hl), hentry t ht, Forest.last, ← hl, ← List.map_reverse, Option.map_some, Option.or_none]
    exact Yields.of_find hreverse

theorem parsed_path (hmax : max < 2 ^ 14) (hfits : f.Fits max) (hf : f.Spelled xs) (pre post : List UInt8) {path : List ℕ} {g : Forest}
    (hpath : f.inside path = some g) :
    ∃ p len, payloadAt (pre ++ (xs ++ post)) max path pre.length xs.length = some (p, len) ∧ Parsed (pre ++ (xs ++ post)) max g p len := by
  induction path generalizing f xs pre post with
  | nil =>
    obtain rfl := Option.some.inj hpath
    exact ⟨_, _, rfl, parsed_spelled hmax hfits hf pre post⟩
  | cons t path ih =>
    cases hfirst : f.first t with
    | none =>
      rw [Forest.inside, hfirst] at hpath
      cases hpath
    | some a =>
      cases a with
      | data type payload =>
        rw [Forest.inside, hfirst] at hpath
        cases hpath
      | nest type inner =>
        rw [Forest.inside, hfirst] at hpath
        have hmem := List.mem_of_find?_eq_some hfirst
        have hfound := List.find?_some hfirst
        have htype : type = t := of_decide_eq_true hfound
        obtain ⟨⟨tb, htb, hyields⟩, -⟩ := parsed_spelled hmax hfits hf pre post
        have hentry := hyields t (htype ▸ Forest.type_le hfits hmem)
        rw [hfirst] at hentry
        obtain ⟨r, hr, len, hlen, hle, hinner⟩ := hentry
        have hsplit := take_slice_drop (pre ++ (xs ++ post)) (Nat.le_add_right (r + 4) len)
        have hpre : ((pre ++ (xs ++ post)).take (r + 4)).length = r + 4 := by
          rw [List.length_take]
          omega
        have hxs := length_slice hle (a := r + 4)
        rw [Nat.add_sub_cancel_left] at hxs
        obtain ⟨p, len', hpayload, hparsed⟩ := ih (Forest.fits_inner hfits hmem) hinner _ _ hpath
        rw [hsplit, hpre, hxs] at hpayload
        rw [hsplit] at hparsed
        refine ⟨p, len', ?_, hparsed⟩
        rw [payloadAt, htb, Option.bind_eq_bind, Option.bind_some, hr, Option.join_some, Option.bind_eq_bind, Option.bind_some,
          hlen, Option.bind_eq_bind, Option.bind_some, hpayload]

/-! ## Building and parsing -/

variable {maxlen : ℕ} {n : Nlmsg}

/-- The calls of a builder fail without a change and stay below `maxlen`, a forest that is built is what both parsers find in the added
bytes and in the payload of every nest, and on any bytes the parsers end with attributes that lie inside of them. -/
theorem attributes_round_trip (h : Room maxlen n) (hge : 16 ≤ n.nlmsgLen) :
    (∀ (cs : List Call) (c : Call), WellNested 0 (cs ++ [c]) → (∀ d ∈ cs ++ [c], d.Fits) → ∃ s ok t,
      Run.exec (Builder.step maxlen) ⟨n, []⟩ cs = some s ∧ s.perform maxlen c = some (ok, t) ∧ (ok = false → t.n = s.n) ∧
        t.n.nlmsgLen ≤ maxlen ∧ t.n.mem.length = n.mem.length ∧ t.n.mem.drop maxlen = n.mem.drop maxlen) ∧
    (∀ (max : ℕ) (f : Forest), max < 2 ^ 14 → f.Fits max →
      Run.Along (Builder.step maxlen) (Builder.Succeeds maxlen) ⟨n, []⟩ f.calls →
        ∃ t, Run.exec (Builder.step maxlen) ⟨n, []⟩ f.calls = some ⟨t, []⟩ ∧ ∀ (path : List ℕ) (g : Forest), f.inside path = some g →
          ∃ p len, payloadAt t.mem max path n.nlmsgLen ((t.nlmsgLen : ℤ) - n.nlmsgLen) = some (p, len) ∧ Parsed t.mem max g p len) ∧
    ∀ (m : List UInt8) (max p len flags : ℕ), p + len ≤ m.length →
      (∃ tb, netlinkParseRtattrFlags m max p len flags = some tb ∧ ∀ t r : ℕ, some r ∈ tb[t]? → Inside m p (p + len) r) ∧
        (∃ tb, netlinkParseRtattr m max p len = some tb ∧ ∀ t r : ℕ, some r ∈ tb[t]? → Inside m p (p + len) r) ∧
        ∀ rta, Inside m p (p + len) rta →
          ∃ tb, netlinkParseRtattrNested m max rta = some tb ∧ ∀ t r : ℕ, some r ∈ tb[t]? → Inside m (rta + 4) (p + len) r := by
  refine ⟨fun cs c hcs hfits => ?_, fun max f hmax hfits hrun => ?_, fun m max p len flags hm => ⟨?_, ?_, fun rta hrta => ?_⟩⟩
  · have hsafe : Safe maxlen n.mem 0 ⟨n, []⟩ := ⟨h, hge, rfl, rfl, rfl, nofun⟩
    obtain ⟨s, d, hexec, hs, hc⟩ := hsafe.exec hcs fun d hd => hfits d (List.mem_append_left _ hd)
    obtain ⟨ok, t, d', hperform, ht, -, hfail⟩ := hs.perform (hfits c (List.mem_append_right _ List.mem_cons_self)) hc
    exact ⟨s, ok, t, hexec, hperform, hfail, ht.room.le, ht.length, ht.drop⟩
  · obtain ⟨pre, rest, hn, hpre⟩ := exists_append (Nat.le_trans h.le h.mem)
    obtain ⟨xs, post, hxs, -, -, -, hexec⟩ := built f hmax hfits h hn hpre hrun
    refine ⟨_, hexec, fun path g hpath => ?_⟩
    have hlen : ((n.nlmsgLen + xs.length : ℕ) : ℤ) - n.nlmsgLen = xs.length := by
      push_cast
      omega
    dsimp only
    rw [hlen, ← hpre]
    exact parsed_path hmax hfits hxs pre post hpath
  · exact parse_inside (storesOnly_flags max flags) hm max
  · exact parse_inside (storesOnly_last max) hm max
  · obtain ⟨-, rtaLen, hread, hmin, hle⟩ := hrta
    obtain ⟨tb, htb, hinside⟩ := parse_inside (storesOnly_last max) (p := rta + 4) (n := rtaLen - 4) (m := m) (by omega) max
    refine ⟨tb, ?_, fun t r hr => ?_⟩
    · rw [netlinkParseRtattrNested, rtaPayload, hread, Option.map_some, Option.bind_some, ← htb, Int.ofNat_sub hmin]
      rfl
    · obtain ⟨hr, rLen, hread, hmin, hle⟩ := hinside t r hr
      exact ⟨hr, rLen, hread, hmin, by omega⟩

theorem attributes_round_trip_sample :
    ∃ t, Run.exec (Builder.step 40) ⟨⟨List.replicate 40 0, 16⟩, []⟩ [.nest 1, .put 2 (.u16 7), .nestEnd] = some ⟨t, []⟩ ∧
      ∃ p len, payloadAt t.mem 2 [1] 16 ((t.nlmsgLen : ℤ) - 16) = some (p, len) ∧ Parsed t.mem 2 (.data 2 (.u16 7) .nil) p len := by
  have hroom : Room 40 ⟨List.replicate 40 0, 16⟩ := ⟨by decide, by decide, by decide, by decide⟩
  obtain ⟨t, hexec, hpath⟩ := (attributes_round_trip hroom (Nat.le_refl 16)).2.1 2 (.nest 1 (.data 2 (.u16 7) .nil) .nil) (by decide)
    ⟨by decide, ⟨by decide, by decide, trivial⟩, trivial⟩ (by decide +kernel)
  exact ⟨t, hexec, hpath [1] _ rfl⟩

end Yjc.Netlink
