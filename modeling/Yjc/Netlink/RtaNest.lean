import Yjc.Netlink.AttrParse

/-! Attributes that are put into an attribute: `nl_rta_put` to `nl_rta_nest_end` of `netlink/nl_kernel.c`. The attribute `rta` is at an
offset of the memory, which holds its length. -/

namespace Yjc.Netlink
open Mem

/-- The `alen` bytes at `data`; the length is stored in an `unsigned short`. -/
def nlRtaPut (rta maxlen type : ℕ) (data : List UInt8) (mem : List UInt8) : Option (Bool × List UInt8) := do
  let len := (4 + data.length) % 2 ^ 32
  let rtaLen ← LittleEndian.read mem rta 2
  if (align rtaLen + align len) % 2 ^ 32 > maxlen then some (false, mem)
  else do
    let subrta := rta + align rtaLen
    let mem ← write mem (subrta + 2) (LittleEndian.bytes 2 type)
    let mem ← write mem subrta (LittleEndian.bytes 2 len)
    let mem ← putData mem subrta data.length (if data.length ≠ 0 then some data else none)
    let rtaLen ← LittleEndian.read mem rta 2
    let mem ← write mem rta (LittleEndian.bytes 2 (align rtaLen + align len))
    return (true, mem)

def nlRtaPut16 (rta maxlen type : ℕ) (data : UInt16) (mem : List UInt8) : Option (Bool × List UInt8) :=
  nlRtaPut rta maxlen type (LittleEndian.bytes 2 data.toNat) mem

def nlRtaPut64 (rta maxlen type : ℕ) (data : UInt64) (mem : List UInt8) : Option (Bool × List UInt8) :=
  nlRtaPut rta maxlen type (LittleEndian.bytes 8 data.toNat) mem

/-- With the nest, or no nest for `NULL`. -/
def nlRtaNest (rta maxlen type : ℕ) (mem : List UInt8) : Option (Option ℕ × List UInt8) := do
  let rtaLen ← LittleEndian.read mem rta 2
  let nest := rta + align rtaLen
  let (ok, mem) ← nlRtaPut rta maxlen type [] mem
  -- the test is not negated, as it is in `nl_attr_nest`
  if ok then return (none, mem)
  else do
    let rtaType ← LittleEndian.read mem (nest + 2) 2
    let mem ← write mem (nest + 2) (LittleEndian.bytes 2 (rtaType ||| nested))
    return (some nest, mem)

def nlRtaNestEnd (rta nest : ℕ) (mem : List UInt8) : Option (ℕ × List UInt8) := do
  let rtaLen ← LittleEndian.read mem rta 2
  let mem ← write mem nest (LittleEndian.bytes 2 (rta + align rtaLen - nest))
  let rtaLen ← LittleEndian.read mem rta 2
  return (rtaLen, mem)

inductive RtaCall
  | put (type : ℕ) (data : List UInt8)
  | put16 (type : ℕ) (data : UInt16)
  | put64 (type : ℕ) (data : UInt64)

namespace RtaCall

def type : RtaCall → ℕ
  | .put type _ => type
  | .put16 type _ => type
  | .put64 type _ => type

def payload : RtaCall → List UInt8
  | .put _ data => data
  | .put16 _ data => LittleEndian.bytes 2 data.toNat
  | .put64 _ data => LittleEndian.bytes 8 data.toNat

def perform (rta maxlen : ℕ) (mem : List UInt8) : RtaCall → Option (Bool × List UInt8)
  | .put type data => nlRtaPut rta maxlen type data mem
  | .put16 type data => nlRtaPut16 rta maxlen type data mem
  | .put64 type data => nlRtaPut64 rta maxlen type data mem

def step (rta maxlen : ℕ) (mem : List UInt8) (c : RtaCall) : Option (List UInt8) :=
  (c.perform rta maxlen mem).bind fun r => if r.1 then some r.2 else none

theorem perform_eq (rta maxlen : ℕ) (mem : List UInt8) (c : RtaCall) :
    c.perform rta maxlen mem = nlRtaPut rta maxlen c.type c.payload mem := by
  cases c with
  | put type data => rfl
  | put16 type data => rfl
  | put64 type data => rfl

def forest : List RtaCall → Forest
  | [] => .nil
  | c :: cs => .data c.type (.raw c.payload) (forest cs)

end RtaCall

/-- What `netlink_parse_rtattr_nested` finds in the nest, once it has been ended, after calls that all fit. -/
def HoldsPuts (rta maxlen nest : ℕ) (mem : List UInt8) : Prop :=
  ∀ (max : ℕ) (cs : List RtaCall) (mem' : List UInt8), max < 2 ^ 14 → (RtaCall.forest cs).Fits max →
    Run.exec (RtaCall.step rta maxlen) mem cs = some mem' →
      ∃ len m tb, nlRtaNestEnd rta nest mem' = some (len, m) ∧ netlinkParseRtattrNested m max nest = some tb ∧
        ∀ t ≤ max, Yields m ((RtaCall.forest cs).last t) tb[t]?

/-- What `nl_attr_nest` does in a message, for an attribute of the length `rtaLen`. -/
structure NestMirrors (rta maxlen type rtaLen : ℕ) (mem : List UInt8) : Prop where
  fits : rtaLen + 4 ≤ maxlen → ∃ mem', nlRtaNest rta maxlen type mem = some (some (rta + rtaLen), mem') ∧
    LittleEndian.read mem' rta 2 = some (rtaLen + 4) ∧ LittleEndian.read mem' (rta + rtaLen + 2) 2 = some (nested + type) ∧
      HoldsPuts rta maxlen (rta + rtaLen) mem'
  full : maxlen < rtaLen + 4 → nlRtaNest rta maxlen type mem = some (none, mem)

/-! ## The test of the nest -/

variable {rta maxlen type rtaLen : ℕ} {mem data : List UInt8}

theorem nlRtaPut_full (hread : LittleEndian.read mem rta 2 = some rtaLen)
    (h : maxlen < (align rtaLen + align ((4 + data.length) % 2 ^ 32)) % 2 ^ 32) : nlRtaPut rta maxlen type data mem = some (false, mem) := by
  unfold nlRtaPut
  rw [hread, Option.bind_eq_bind, Option.bind_some, if_pos h]

theorem nlRtaPut_fits {ok : Bool} {mem' : List UInt8} (hread : LittleEndian.read mem rta 2 = some rtaLen)
    (h : (align rtaLen + align ((4 + data.length) % 2 ^ 32)) % 2 ^ 32 ≤ maxlen)
    (hput : nlRtaPut rta maxlen type data mem = some (ok, mem')) : ok = true := by
  unfold nlRtaPut at hput
  rw [hread, Option.bind_eq_bind, Option.bind_some, if_neg (Nat.not_lt.mpr h)] at hput
  obtain ⟨m₁, -, hput⟩ := Option.bind_eq_some_iff.mp hput
  obtain ⟨m₂, -, hput⟩ := Option.bind_eq_some_iff.mp hput
  obtain ⟨m₃, -, hput⟩ := Option.bind_eq_some_iff.mp hput
  obtain ⟨n, -, hput⟩ := Option.bind_eq_some_iff.mp hput
  obtain ⟨m₄, -, hput⟩ := Option.bind_eq_some_iff.mp hput
  cases hput
  rfl

theorem nlRtaNest_inverted {nest : Option ℕ} {mem' : List UInt8} (hread : LittleEndian.read mem rta 2 = some rtaLen)
    (hdvd : 4 ∣ rtaLen) (hnest : nlRtaNest rta maxlen type mem = some (nest, mem')) :
    nest = if rtaLen + 4 ≤ maxlen then none else some (rta + rtaLen) := by
  have hlt := LittleEndian.read_lt hread
  have halign := align_of_dvd (by omega) hdvd
  have hfour : align ((4 + ([] : List UInt8).length) % 2 ^ 32) = 4 := rfl
  have hsum : (align rtaLen + align ((4 + ([] : List UInt8).length) % 2 ^ 32)) % 2 ^ 32 = rtaLen + 4 := by
    rw [hfour, halign]
    omega
  unfold nlRtaNest at hnest
  rw [hread, Option.bind_eq_bind, Option.bind_some] at hnest
  obtain ⟨⟨ok, m⟩, hput, hnest⟩ := Option.bind_eq_some_iff.mp hnest
  dsimp only at hnest
  split_ifs with hfits
  · rw [nlRtaPut_fits hread (by rw [hsum]; exact hfits) hput, if_pos rfl] at hnest
    cases hnest
    rfl
  · rw [nlRtaPut_full hread (by rw [hsum]; omega)] at hput
    cases hput
    rw [if_neg Bool.false_ne_true] at hnest
    obtain ⟨t, -, hnest⟩ := Option.bind_eq_some_iff.mp hnest
    obtain ⟨m, -, hnest⟩ := Option.bind_eq_some_iff.mp hnest
    cases hnest
    rw [halign]

/-- For no attribute, bound and type is the nest what it is in a message. -/
theorem rta_nest_never_mirrors (hread : LittleEndian.read mem rta 2 = some rtaLen) (hdvd : 4 ∣ rtaLen) (maxlen type : ℕ) :
    ¬NestMirrors rta maxlen type rtaLen mem := by
  intro h
  rcases Nat.lt_or_ge maxlen (rtaLen + 4) with hfull | hfits
  · have hnest := nlRtaNest_inverted hread hdvd (h.full hfull)
    rw [if_neg (Nat.not_le.mpr hfull)] at hnest
    cases hnest
  · obtain ⟨mem', hsome, -⟩ := h.fits hfits
    have hnest := nlRtaNest_inverted hread hdvd hsome
    rw [if_pos hfits] at hnest
    cases hnest

theorem rta_nest_never_mirrors_sample : ¬NestMirrors 0 8 1 4 [4, 0, 7, 0, 9, 9, 9, 9] :=
  rta_nest_never_mirrors (by decide) (Nat.dvd_refl 4) 8 1

/-- The nest is appended and `NULL` returned, and with no room for it `NLA_F_NESTED` is written behind the attribute. -/
theorem rta_nest_inverted :
    nlRtaNest 0 8 1 [4, 0, 7, 0, 9, 9, 9, 9] = some (none, [8, 0, 7, 0, 4, 0, 1, 0]) ∧
      nlRtaNest 0 4 1 [4, 0, 7, 0, 9, 9, 9, 9] = some (some 4, [4, 0, 7, 0, 9, 9, 9, 0x89]) ∧
      ¬NestMirrors 0 8 1 4 [4, 0, 7, 0, 9, 9, 9, 9] := by
  refine ⟨by decide, by decide, fun h => ?_⟩
  obtain ⟨mem', hsome, -⟩ := h.fits (by decide)
  have hnone : nlRtaNest 0 8 1 [4, 0, 7, 0, 9, 9, 9, 9] = some (none, [8, 0, 7, 0, 4, 0, 1, 0]) := by decide
  rw [hnone] at hsome
  cases hsome

/-! ## What is put into the nest -/

/-- The attribute with `done` in it and `rest` behind it, in memory for `maxlen` bytes. -/
structure RtaRoom (maxlen rtaLen : ℕ) (done rest : List UInt8) : Prop where
  len : rtaLen = 4 + done.length
  dvd : 4 ∣ rtaLen
  le : rtaLen ≤ maxlen
  mem : maxlen ≤ rtaLen + rest.length
  bound : maxlen ≤ 65535

variable {pre done rest : List UInt8}

theorem nlRtaPut_cases (h : RtaRoom maxlen rtaLen done rest) (pre : List UInt8) (rtaType : ℕ) (hdata : data.length ≤ 65535) (type : ℕ) :
    nlRtaPut pre.length maxlen type data (pre ++ spell rtaLen rtaType (done ++ rest)) =
        some (false, pre ++ spell rtaLen rtaType (done ++ rest)) ∨
      ∃ pad post, 4 + data.length + pad.length = align (4 + data.length) ∧ 4 + data.length < 2 ^ 16 ∧
        RtaRoom maxlen (rtaLen + align (4 + data.length)) (done ++ spell (4 + data.length) type (data ++ pad)) post ∧
        nlRtaPut pre.length maxlen type data (pre ++ spell rtaLen rtaType (done ++ rest)) =
          some (true, pre ++ spell (rtaLen + align (4 + data.length)) rtaType
            ((done ++ spell (4 + data.length) type (data ++ pad)) ++ post)) := by
  obtain ⟨hlen, hdvd, hle, hmem, hbound⟩ := h
  have halign := align_of_dvd (by omega) hdvd
  have hk := align_eq (n := 4 + data.length) (by omega)
  have hmod : (4 + data.length) % 2 ^ 32 = 4 + data.length := Nat.mod_eq_of_lt (by omega)
  have hread (n : ℕ) (xs : List UInt8) (hn : n < 2 ^ 16) :
      LittleEndian.read (pre ++ spell n rtaType xs) pre.length 2 = some n := by
    rw [read_spell.1, Nat.mod_eq_of_lt hn]
  have hsum : (rtaLen + align (4 + data.length)) % 2 ^ 32 = rtaLen + align (4 + data.length) := Nat.mod_eq_of_lt (by omega)
  obtain ⟨arg, harg, hor⟩ : ∃ arg, (if data.length ≠ 0 then some data else none) = arg ∧ (arg = some data ∨ arg = none ∧ data = []) := by
    by_cases hzero : data.length = 0
    · exact ⟨none, if_neg (not_not.mpr hzero), .inr ⟨rfl, List.eq_nil_of_length_eq_zero hzero⟩⟩
    · exact ⟨some data, if_pos hzero, .inl rfl⟩
  unfold nlRtaPut
  dsimp only
  rw [hmod, hread _ _ (by omega), Option.bind_eq_bind, Option.bind_some, halign, hsum, harg]
  split_ifs with hfull
  · exact .inl rfl
  · right
    have hprelen : (pre ++ spell rtaLen rtaType done).length = pre.length + rtaLen := by rw [List.length_append, length_spell, hlen]
    have hsplit (xs : List UInt8) : pre ++ spell rtaLen rtaType (done ++ xs) = (pre ++ spell rtaLen rtaType done) ++ xs := by
      rw [List.append_assoc, spell_append]
    obtain ⟨pad, post, hpad, hrest, -, hwrite⟩ :=
      @write_attr (pre ++ spell rtaLen rtaType done) rest data (by omega) (by omega) type arg hor
    have hlast : write (pre ++ spell rtaLen rtaType (done ++ (spell (4 + data.length) type (data ++ pad) ++ post))) pre.length
        (LittleEndian.bytes 2 (rtaLen + align (4 + data.length))) = some (pre ++ spell (rtaLen + align (4 + data.length)) rtaType
          (done ++ (spell (4 + data.length) type (data ++ pad) ++ post))) :=
      write_append _ rfl (by rw [LittleEndian.length_bytes, LittleEndian.length_bytes])
    refine ⟨pad, post, hpad, by omega, ⟨?_, by omega, by omega, by omega, hbound⟩, ?_⟩
    · rw [List.length_append, length_spell, List.length_append]
      omega
    · rw [← hsplit rest, ← hsplit (_ ++ post), hprelen, ← Option.bind_assoc] at hwrite
      simp only [Option.bind_eq_bind]
      rw [← Option.bind_assoc, ← Option.bind_assoc, hwrite, Option.bind_some, hread _ _ (by omega), Option.bind_some, halign, hlast,
        List.append_assoc]
      rfl

theorem puts_spelled (h : RtaRoom maxlen rtaLen done rest) (rtaType : ℕ) (cs : List RtaCall) {max : ℕ}
    (hfits : (RtaCall.forest cs).Fits max) {mem' : List UInt8}
    (hexec : Run.exec (RtaCall.step pre.length maxlen) (pre ++ spell rtaLen rtaType (done ++ rest)) cs = some mem') :
    ∃ xs post, (RtaCall.forest cs).Spelled xs ∧ RtaRoom maxlen (rtaLen + xs.length) (done ++ xs) post ∧
      mem' = pre ++ spell (rtaLen + xs.length) rtaType ((done ++ xs) ++ post) := by
  induction cs generalizing rtaLen done rest with
  | nil =>
    cases hexec
    exact ⟨[], rest, rfl, by rw [List.append_nil]; exact h, by rw [List.append_nil]; rfl⟩
  | cons c cs ih =>
    obtain ⟨-, hpayload, hfits⟩ := hfits
    obtain ⟨m, hstep, hexec⟩ := Run.exec_cons.mp hexec
    rw [RtaCall.step, RtaCall.perform_eq] at hstep
    obtain hfail | ⟨pad, post, hpad, hlt, hroom, hput⟩ := nlRtaPut_cases h pre rtaType hpayload c.type
    · rw [show c.payload = (Payload.raw c.payload).bytes from rfl, hfail] at hstep
      cases hstep
    · rw [show c.payload = (Payload.raw c.payload).bytes from rfl, hput] at hstep
      cases hstep
      have hlen : (spell (4 + c.payload.length) c.type (c.payload ++ pad)).length = align (4 + c.payload.length) := by
        rw [length_spell, List.length_append, ← Nat.add_assoc]
        exact hpad
      obtain ⟨ys, post', hys, hroom', rfl⟩ := ih hroom hfits hexec
      refine ⟨spell (4 + c.payload.length) c.type (c.payload ++ pad) ++ ys, post', ⟨pad, ys, rfl, hpad, hlt, hys⟩, ?_, ?_⟩
      · rw [List.length_append, hlen, ← Nat.add_assoc, ← List.append_assoc]
        exact hroom'
      · rw [List.length_append, hlen, ← Nat.add_assoc, ← List.append_assoc]
        rfl

theorem holdsPuts_header (outer : ℕ) {before rest : List UInt8} {nestType : ℕ}
    (h : RtaRoom maxlen (rtaLen + 4) (before ++ spell 4 nestType []) rest) (hlen : rtaLen = 4 + before.length) :
    HoldsPuts pre.length maxlen (pre.length + rtaLen)
      (pre ++ spell (rtaLen + 4) outer ((before ++ spell 4 nestType []) ++ rest)) := by
  intro max cs mem' hmax hfits hexec
  obtain ⟨xs, post, hxs, hroom, rfl⟩ := puts_spelled h outer cs hfits hexec
  obtain ⟨-, hdvd, hle, -, hbound⟩ := hroom
  have halign := align_of_dvd (by omega) hdvd
  obtain ⟨p, hp⟩ : ∃ p, p = pre ++ spell (rtaLen + 4 + xs.length) outer before := ⟨_, rfl⟩
  have hplen : p.length = pre.length + rtaLen := by rw [hp, List.length_append, length_spell, hlen]
  -- the memory from the nest on
  have hsplit (n : ℕ) : pre ++ spell (rtaLen + 4 + xs.length) outer (before ++ spell n nestType (xs ++ post)) =
      p ++ spell n nestType (xs ++ post) := by rw [hp, List.append_assoc, spell_append]
  have hread (n : ℕ) : LittleEndian.read (p ++ spell n nestType (xs ++ post)) pre.length 2 = some (rtaLen + 4 + xs.length) := by
    rw [← hsplit, read_spell.1, Nat.mod_eq_of_lt (by omega)]
  have hend : nlRtaNestEnd pre.length p.length (p ++ spell 4 nestType (xs ++ post)) =
      some (rtaLen + 4 + xs.length, p ++ spell (4 + xs.length) nestType (xs ++ post)) := by
    have hwrite : write (p ++ spell 4 nestType (xs ++ post)) p.length (LittleEndian.bytes 2 (4 + xs.length)) =
        some (p ++ spell (4 + xs.length) nestType (xs ++ post)) :=
      write_append _ rfl (by rw [LittleEndian.length_bytes, LittleEndian.length_bytes])
    rw [nlRtaNestEnd, hread, Option.bind_eq_bind, Option.bind_some, halign,
      show pre.length + (rtaLen + 4 + xs.length) - p.length = 4 + xs.length by omega, hwrite, Option.bind_eq_bind, Option.bind_some,
      hread]
    rfl
  have hinner : p ++ spell (4 + xs.length) nestType (xs ++ post) =
      (p ++ spell (4 + xs.length) nestType []) ++ (xs ++ post) := by rw [List.append_assoc, spell_append, List.nil_append]
  have hinnerlen : (p ++ spell (4 + xs.length) nestType []).length = p.length + 4 := by rw [List.length_append, length_spell]; rfl
  obtain ⟨tb, htb, hyields⟩ := (parsed_spelled hmax hfits hxs (p ++ spell (4 + xs.length) nestType []) post).2
  rw [← hinner, hinnerlen] at htb
  rw [← hinner] at hyields
  refine ⟨rtaLen + 4 + xs.length, p ++ spell (4 + xs.length) nestType (xs ++ post), tb, ?_, ?_, hyields⟩
  · rw [← hend, ← hsplit 4, hplen]
    simp only [List.append_assoc, spell_append, List.nil_append]
  · have hpayload : ((4 + xs.length : ℕ) : ℤ) - 4 = xs.length := by
      push_cast
      omega
    rw [netlinkParseRtattrNested, ← hplen, rtaPayload_spell (by omega), Option.bind_some, hpayload, htb]

theorem exists_spell (hread : LittleEndian.read mem rta 2 = some rtaLen) (hdvd : 4 ∣ rtaLen) (hmin : 4 ≤ rtaLen)
    (hle : rtaLen ≤ maxlen) (hmem : rta + maxlen ≤ mem.length) (hbound : maxlen ≤ 65535) :
    ∃ pre rtaType done rest, mem = pre ++ spell rtaLen rtaType (done ++ rest) ∧ pre.length = rta ∧
      RtaRoom maxlen rtaLen done rest := by
  obtain ⟨pre, r₀, rfl, hpre⟩ := exists_append (l := mem) (n := rta) (by omega)
  rw [List.length_append] at hmem
  obtain ⟨b₀, r₁, rfl, hb₀⟩ := exists_append (l := r₀) (n := 2) (by omega)
  rw [List.length_append] at hmem
  obtain ⟨b₁, r₂, rfl, hb₁⟩ := exists_append (l := r₁) (n := 2) (by omega)
  rw [List.length_append] at hmem
  obtain ⟨done, rest, rfl, hdone⟩ := exists_append (l := r₂) (n := rtaLen - 4) (by omega)
  rw [List.length_append] at hmem
  have h₀ := LittleEndian.bytes_value b₀
  have h₁ := LittleEndian.bytes_value b₁
  have hlt := LittleEndian.value_lt b₀
  rw [hb₀] at h₀ hlt
  rw [hb₁] at h₁
  have hvalue : LittleEndian.read (pre ++ (LittleEndian.bytes 2 (LittleEndian.value b₀) ++ (b₁ ++ (done ++ rest)))) rta 2 =
      some (LittleEndian.value b₀) := LittleEndian.read_append hpre.symm hlt
  rw [h₀, hread] at hvalue
  obtain rfl := Option.some.inj hvalue
  refine ⟨pre, LittleEndian.value b₁, done, rest, by rw [spell, h₀, h₁], hpre, ⟨by omega, hdvd, hle, by omega, hbound⟩⟩

/-- Apart from the test and the flag the nest is right: with room for it, its header is appended, and it holds what is put. -/
theorem rta_nest_holds_puts (hread : LittleEndian.read mem rta 2 = some rtaLen) (hdvd : 4 ∣ rtaLen) (hmin : 4 ≤ rtaLen)
    (hfits : rtaLen + 4 ≤ maxlen) (hmem : rta + maxlen ≤ mem.length) (hbound : maxlen ≤ 65535) (htype : type < 2 ^ 16) :
    ∃ mem', nlRtaNest rta maxlen type mem = some (none, mem') ∧ LittleEndian.read mem' rta 2 = some (rtaLen + 4) ∧
      LittleEndian.read mem' (rta + rtaLen + 2) 2 = some type ∧ HoldsPuts rta maxlen (rta + rtaLen) mem' := by
  obtain ⟨pre, rtaType, done, rest, rfl, rfl, h⟩ := exists_spell hread hdvd hmin (by omega) hmem hbound
  have hlen := h.len
  have halign := align_of_dvd (by omega) hdvd
  have hfour : align ((4 + ([] : List UInt8).length) % 2 ^ 32) = 4 := rfl
  obtain hfail | ⟨pad, post, hpad, -, hroom, hput⟩ :=
    @nlRtaPut_cases maxlen rtaLen [] done rest h pre rtaType (Nat.zero_le _) type
  · have hok := nlRtaPut_fits hread (by rw [hfour, halign]; omega) hfail
    cases hok
  · have hfour' : align (4 + ([] : List UInt8).length) = 4 := rfl
    rw [hfour'] at hpad hroom hput
    rw [List.length_nil, Nat.add_zero] at hpad hroom hput
    obtain rfl := List.eq_nil_of_length_eq_zero (l := pad) (by omega)
    rw [List.append_nil] at hroom hput
    refine ⟨_, ?_, ?_, ?_, holdsPuts_header rtaType hroom hlen⟩
    · rw [nlRtaNest, hread, Option.bind_eq_bind, Option.bind_some, hput]
      rfl
    · rw [read_spell.1, Nat.mod_eq_of_lt (by omega)]
    · have hp : (pre ++ spell (rtaLen + 4) rtaType done).length = pre.length + rtaLen := by rw [List.length_append, length_spell, hlen]
      have hsplit : pre ++ spell (rtaLen + 4) rtaType ((done ++ spell 4 type []) ++ post) =
          (pre ++ spell (rtaLen + 4) rtaType done) ++ spell 4 type post := by
        rw [List.append_assoc, List.append_assoc, spell_append, spell_append, List.nil_append]
      rw [hsplit, ← hp, read_spell.2, Nat.mod_eq_of_lt htype]

end Yjc.Netlink
