import Yjc.Netlink.Attr

/-! Forests of attributes, and what a run of the builders writes for one. -/

namespace Yjc.Netlink
open Mem

/-- What is put: bytes, or a number of the width that `nl_attr_put8` to `nl_attr_put64` take. -/
inductive Payload
  | raw (data : List UInt8)
  | u8 (data : UInt8)
  | u16 (data : UInt16)
  | u32 (data : UInt32)
  | u64 (data : UInt64)

namespace Payload

def bytes : Payload → List UInt8
  | .raw data => data
  | .u8 data => LittleEndian.bytes 1 data.toNat
  | .u16 data => LittleEndian.bytes 2 data.toNat
  | .u32 data => LittleEndian.bytes 4 data.toNat
  | .u64 data => LittleEndian.bytes 8 data.toNat

def put (maxlen type : ℕ) (n : Nlmsg) : Payload → Option (Bool × Nlmsg)
  | .raw data => nlAttrPut maxlen type (some data) data.length n
  | .u8 data => nlAttrPut8 maxlen type data n
  | .u16 data => nlAttrPut16 maxlen type data n
  | .u32 data => nlAttrPut32 maxlen type data n
  | .u64 data => nlAttrPut64 maxlen type data n

theorem put_eq (maxlen type : ℕ) (n : Nlmsg) (data : Payload) :
    data.put maxlen type n = nlAttrPut maxlen type (some data.bytes) data.bytes.length n := by
  cases data with
  | raw data => rfl
  | u8 data => rfl
  | u16 data => rfl
  | u32 data => rfl
  | u64 data => rfl

end Payload

inductive Call
  | put (type : ℕ) (data : Payload)
  | nest (type : ℕ)
  | nestEnd

/-- The message, and the nests that are to be ended; `none` for one that did not fit. -/
structure Builder where
  n : Nlmsg
  nests : List (Option ℕ)

namespace Builder

/-- A call, with whether it succeeds. There is no call for the end of a nest that did not fit. -/
def perform (maxlen : ℕ) (s : Builder) : Call → Option (Bool × Builder)
  | .put type data => (data.put maxlen type s.n).map fun r => (r.1, { s with n := r.2 })
  | .nest type => (nlAttrNest maxlen type s.n).map fun r => (r.1.isSome, ⟨r.2, r.1 :: s.nests⟩)
  | .nestEnd =>
    match s.nests with
    | [] => none
    | none :: nests => some (true, { s with nests })
    | some nest :: nests => (nlAttrNestEnd nest s.n).map fun n => (true, ⟨n, nests⟩)

def step (maxlen : ℕ) (s : Builder) (c : Call) : Option Builder := (s.perform maxlen c).map Prod.snd

def Succeeds (maxlen : ℕ) (s : Builder) (c : Call) : Prop := ∃ t, s.perform maxlen c = some (true, t)

instance (maxlen : ℕ) (s : Builder) (c : Call) : Decidable (s.Succeeds maxlen c) :=
  decidable_of_iff ((s.perform maxlen c).map Prod.fst = some true) <| by simp [Succeeds]

end Builder

def Call.Fits : Call → Prop
  | .put _ data => data.bytes.length ≤ 65535
  | _ => True

/-- Calls that end as many nests as they begin at most, with `d` begun before. -/
def WellNested : ℕ → List Call → Prop
  | _, [] => True
  | d, .put _ _ :: cs => WellNested d cs
  | d, .nest _ :: cs => WellNested (d + 1) cs
  | d, .nestEnd :: cs => 0 < d ∧ WellNested (d - 1) cs

/-- Attributes one after the other: with a payload, or a nest of attributes. -/
inductive Forest
  | nil
  | data (type : ℕ) (payload : Payload) (rest : Forest)
  | nest (type : ℕ) (inner rest : Forest)

inductive Attr
  | data (type : ℕ) (payload : List UInt8)
  | nest (type : ℕ) (inner : Forest)

namespace Attr

def type : Attr → ℕ
  | .data type _ => type
  | .nest type _ => type

def IsNest : Attr → Bool
  | .data _ _ => false
  | .nest _ _ => true

def rtaType (a : Attr) : ℕ := if a.IsNest then nested + a.type else a.type

end Attr

namespace Forest

def attrs : Forest → List Attr
  | nil => []
  | data type payload rest => .data type payload.bytes :: rest.attrs
  | nest type inner rest => .nest type inner :: rest.attrs

def calls : Forest → List Call
  | nil => []
  | data type payload rest => .put type payload :: rest.calls
  | nest type inner rest => .nest type :: (inner.calls ++ .nestEnd :: rest.calls)

/-- The types are up to `max`, and the lengths are in the bound. -/
def Fits (max : ℕ) : Forest → Prop
  | nil => True
  | data type payload rest => type ≤ max ∧ payload.bytes.length ≤ 65535 ∧ rest.Fits max
  | nest type inner rest => type ≤ max ∧ inner.Fits max ∧ rest.Fits max

def first (f : Forest) (t : ℕ) : Option Attr := f.attrs.find? fun a => a.type = t

def last (f : Forest) (t : ℕ) : Option Attr := f.attrs.reverse.find? fun a => a.type = t ∧ ¬a.IsNest

def inside : Forest → List ℕ → Option Forest
  | f, [] => some f
  | f, t :: path =>
    match f.first t with
    | some (.nest _ inner) => inner.inside path
    | _ => none

end Forest

/-- An attribute: its length, its type, and what follows. -/
def spell (rtaLen rtaType : ℕ) (payload : List UInt8) : List UInt8 :=
  LittleEndian.bytes 2 rtaLen ++ (LittleEndian.bytes 2 rtaType ++ payload)

/-- The bytes of a forest; the padding of a payload is left as it was. -/
def Forest.Spelled : Forest → List UInt8 → Prop
  | nil, xs => xs = []
  | data type payload rest, xs => ∃ pad ys, xs = spell (4 + payload.bytes.length) type (payload.bytes ++ pad) ++ ys ∧
    4 + payload.bytes.length + pad.length = align (4 + payload.bytes.length) ∧ 4 + payload.bytes.length < 2 ^ 16 ∧ rest.Spelled ys
  | nest type inner rest, xs => ∃ zs ys, xs = spell (4 + zs.length) (nested + type) zs ++ ys ∧
    4 ∣ zs.length ∧ 4 + zs.length < 2 ^ 16 ∧ inner.Spelled zs ∧ rest.Spelled ys

/-! ## Building -/

variable {maxlen type : ℕ} {n : Nlmsg} {pre rest data : List UInt8} {s : Builder} {d : ℕ} {cs : List Call}

structure Room (maxlen : ℕ) (n : Nlmsg) : Prop where
  dvd : 4 ∣ n.nlmsgLen
  le : n.nlmsgLen ≤ maxlen
  mem : maxlen ≤ n.mem.length
  bound : maxlen ≤ 65535

@[simp] theorem length_spell (rtaLen rtaType : ℕ) (payload : List UInt8) : (spell rtaLen rtaType payload).length = 4 + payload.length := by
  simp only [spell, List.length_append, LittleEndian.length_bytes]
  omega

theorem spell_append (rtaLen rtaType : ℕ) (payload post : List UInt8) :
    spell rtaLen rtaType payload ++ post = spell rtaLen rtaType (payload ++ post) := by
  simp only [spell, List.append_assoc]

theorem write_rtaType {pre post : List UInt8} {rtaLen rtaType : ℕ} (x : ℕ) :
    write (pre ++ spell rtaLen rtaType post) (pre.length + 2) (LittleEndian.bytes 2 x) = some (pre ++ spell rtaLen x post) := by
  have h : (LittleEndian.bytes 2 rtaType).length = (LittleEndian.bytes 2 x).length := by
    rw [LittleEndian.length_bytes, LittleEndian.length_bytes]
  have hpre : pre.length + 2 = (pre ++ LittleEndian.bytes 2 rtaLen).length := by rw [List.length_append, LittleEndian.length_bytes]
  have hsplit (y : ℕ) : pre ++ spell rtaLen y post = (pre ++ LittleEndian.bytes 2 rtaLen) ++ (LittleEndian.bytes 2 y ++ post) := by
    rw [spell, List.append_assoc]
  rw [hsplit, hsplit]
  exact write_append _ hpre h

theorem write_payload {pre payload post : List UInt8} {rtaLen rtaType : ℕ} (xs : List UInt8) (h : payload.length = xs.length) :
    write (pre ++ spell rtaLen rtaType (payload ++ post)) (pre.length + 4) xs =
      some (pre ++ spell rtaLen rtaType (xs ++ post)) := by
  have hsplit (ys : List UInt8) : pre ++ spell rtaLen rtaType (ys ++ post) =
      (pre ++ (LittleEndian.bytes 2 rtaLen ++ LittleEndian.bytes 2 rtaType)) ++ (ys ++ post) := by
    simp only [spell, List.append_assoc]
  rw [hsplit, hsplit]
  refine write_append _ ?_ h
  rw [List.length_append, List.length_append, LittleEndian.length_bytes, LittleEndian.length_bytes]

theorem read_spell {pre post : List UInt8} {rtaLen rtaType : ℕ} :
    LittleEndian.read (pre ++ spell rtaLen rtaType post) pre.length 2 = some (rtaLen % 2 ^ 16) ∧
      LittleEndian.read (pre ++ spell rtaLen rtaType post) (pre.length + 2) 2 = some (rtaType % 2 ^ 16) := by
  refine ⟨LittleEndian.read_bytes rfl, ?_⟩
  rw [spell, ← List.append_assoc]
  exact LittleEndian.read_bytes (by rw [List.length_append, LittleEndian.length_bytes])

theorem write_attr (hdata : 4 + data.length < 2 ^ 31) (hrest : align (4 + data.length) ≤ rest.length) (type : ℕ)
    {arg : Option (List UInt8)} (harg : arg = some data ∨ arg = none ∧ data = []) :
    ∃ pad post, 4 + data.length + pad.length = align (4 + data.length) ∧ rest.length = align (4 + data.length) + post.length ∧
      (∀ k, pre.length + align (4 + data.length) ≤ k →
        (pre ++ (spell (4 + data.length) type (data ++ pad) ++ post)).drop k = (pre ++ rest).drop k) ∧
      ((write (pre ++ rest) (pre.length + 2) (LittleEndian.bytes 2 type)).bind fun mem =>
        (write mem pre.length (LittleEndian.bytes 2 (4 + data.length))).bind fun mem => putData mem pre.length data.length arg) =
          some (pre ++ (spell (4 + data.length) type (data ++ pad) ++ post)) := by
  have hk := align_eq hdata
  obtain ⟨h₀, r₀, rfl, hh₀⟩ := exists_append (l := rest) (n := 2) (by omega)
  rw [List.length_append] at hrest
  obtain ⟨h₁, r₁, rfl, hh₁⟩ := exists_append (l := r₀) (n := 2) (by omega)
  rw [List.length_append] at hrest
  obtain ⟨old, r₂, rfl, hold⟩ := exists_append (l := r₁) (n := data.length) (by omega)
  rw [List.length_append] at hrest
  obtain ⟨pad, post, rfl, hpad⟩ := exists_append (l := r₂) (n := align (4 + data.length) - (4 + data.length)) (by omega)
  have htype : write (pre ++ (h₀ ++ (h₁ ++ (old ++ (pad ++ post))))) (pre.length + 2) (LittleEndian.bytes 2 type) =
      some (pre ++ (h₀ ++ (LittleEndian.bytes 2 type ++ (old ++ (pad ++ post))))) := by
    rw [← List.append_assoc pre, write_append _ (by rw [List.length_append]; omega) (by rw [LittleEndian.length_bytes, hh₁]),
      List.append_assoc]
  have hrta : write (pre ++ (h₀ ++ (LittleEndian.bytes 2 type ++ (old ++ (pad ++ post))))) pre.length
      (LittleEndian.bytes 2 (4 + data.length)) = some (pre ++ spell (4 + data.length) type (old ++ (pad ++ post))) :=
    write_append _ rfl (by rw [LittleEndian.length_bytes, hh₀])
  have hput : putData (pre ++ spell (4 + data.length) type (old ++ (pad ++ post))) pre.length data.length arg =
      some (pre ++ (spell (4 + data.length) type (data ++ pad) ++ post)) := by
    rw [spell_append, List.append_assoc]
    obtain rfl | ⟨rfl, rfl⟩ := harg
    · rw [putData, if_pos (Nat.le_refl _), List.take_length]
      exact write_payload data hold
    · obtain rfl := List.eq_nil_of_length_eq_zero hold
      rfl
  refine ⟨pad, post, by omega, by simp only [List.length_append]; omega, fun k hk => ?_, ?_⟩
  · have hover := @drop_over _ pre (h₀ ++ (h₁ ++ (old ++ pad))) (spell (4 + data.length) type (data ++ pad)) post k
      (by simp only [List.length_append, length_spell]; omega) (by simp only [List.length_append, length_spell]; omega)
    simpa only [List.append_assoc] using hover
  · rw [htype, Option.bind_some, hrta, Option.bind_some, hput]

theorem nlAttrPut_cases (h : Room maxlen n) (hn : n.mem = pre ++ rest) (hpre : pre.length = n.nlmsgLen) (hdata : data.length ≤ 65535)
    (type : ℕ) {arg : Option (List UInt8)} (harg : arg = some data ∨ arg = none ∧ data = []) :
    nlAttrPut maxlen type arg data.length n = some (false, n) ∨
      ∃ pad post, 4 + data.length + pad.length = align (4 + data.length) ∧ 4 + data.length < 2 ^ 16 ∧
        rest.length = align (4 + data.length) + post.length ∧ n.nlmsgLen + align (4 + data.length) ≤ maxlen ∧
        (∀ k, maxlen ≤ k → (pre ++ (spell (4 + data.length) type (data ++ pad) ++ post)).drop k = n.mem.drop k) ∧
        nlAttrPut maxlen type arg data.length n = some (true,
          ⟨pre ++ (spell (4 + data.length) type (data ++ pad) ++ post), n.nlmsgLen + align (4 + data.length)⟩) := by
  have hle := h.le
  have hbound := h.bound
  have hmem := h.mem
  have hlen := align_of_dvd (by omega) h.dvd
  have hk := align_eq (n := 4 + data.length) (by omega)
  have hmod : (4 + data.length) % 2 ^ 32 = 4 + data.length := Nat.mod_eq_of_lt (by omega)
  have hsum : (n.nlmsgLen + align (4 + data.length)) % 2 ^ 32 = n.nlmsgLen + align (4 + data.length) := Nat.mod_eq_of_lt (by omega)
  unfold nlAttrPut
  rw [hmod, hlen]
  dsimp only
  rw [hsum]
  split_ifs with hfull
  · exact .inl rfl
  · right
    rw [hn, List.length_append] at hmem
    obtain ⟨pad, post, hpad, hrest, hdrop, hwrite⟩ := @write_attr pre rest data (by omega) (by omega) type arg harg
    refine ⟨pad, post, hpad, by omega, hrest, by omega, fun k hk => ?_, ?_⟩
    · rw [hdrop k (by omega), hn]
    · simp only [Option.bind_eq_bind]
      rw [← Option.bind_assoc] at hwrite
      rw [← Option.bind_assoc, ← Option.bind_assoc, hn, ← hpre, hwrite]
      rfl

theorem or_nested (h : type < 2 ^ 15) : type % 2 ^ 16 ||| nested = nested + type := by
  rw [Nat.mod_eq_of_lt (by omega), Nat.or_comm]
  exact (Nat.two_pow_add_eq_or_of_lt h 1).symm

theorem nlAttrNest_cases (h : Room maxlen n) (hn : n.mem = pre ++ rest) (hpre : pre.length = n.nlmsgLen) (type : ℕ) :
    nlAttrNest maxlen type n = some (none, n) ∨
      ∃ post, rest.length = 4 + post.length ∧ n.nlmsgLen + 4 ≤ maxlen ∧
        (∀ k, maxlen ≤ k → (pre ++ spell 4 (type % 2 ^ 16 ||| nested) post).drop k = n.mem.drop k) ∧
        nlAttrNest maxlen type n = some (some n.nlmsgLen, ⟨pre ++ spell 4 (type % 2 ^ 16 ||| nested) post, n.nlmsgLen + 4⟩) := by
  have hle := h.le
  have hbound := h.bound
  have hlen := align_of_dvd (by omega) h.dvd
  have hfour : align 4 = 4 := rfl
  unfold nlAttrNest
  rw [hlen]
  dsimp only
  obtain hfail | ⟨pad, post, hpad, -, hrest, hfits, hdrop, hput⟩ :=
    @nlAttrPut_cases maxlen n pre rest [] h hn hpre (Nat.zero_le _) type none (.inr ⟨rfl, rfl⟩)
  · left
    rw [List.length_nil] at hfail
    rw [hfail]
    rfl
  · right
    rw [List.length_nil, Nat.add_zero, hfour] at hpad hrest hfits hput
    rw [List.length_nil, Nat.add_zero] at hdrop
    obtain rfl := List.eq_nil_of_length_eq_zero (l := pad) (by omega)
    rw [List.nil_append, spell_append, List.nil_append] at hput hdrop
    refine ⟨post, hrest, hfits, fun k hk => ?_, ?_⟩
    · rw [← hdrop k hk]
      have hover := @drop_over _ pre (spell 4 type []) (spell 4 (type % 2 ^ 16 ||| nested) []) post k
        (by rw [length_spell, length_spell]) (by rw [length_spell, List.length_nil]; omega)
      rwa [spell_append, spell_append, List.nil_append] at hover
    · rw [hput, Option.bind_eq_bind, Option.bind_some]
      dsimp only
      rw [if_pos rfl, ← hpre, read_spell.2, Option.bind_eq_bind, Option.bind_some, write_rtaType]
      rfl

theorem nlAttrNestEnd_eq {old post : List UInt8} (hold : old.length = 2) (hlen : n.nlmsgLen < 2 ^ 31) (hdvd : 4 ∣ n.nlmsgLen)
    (hn : n.mem = pre ++ (old ++ post)) :
    nlAttrNestEnd pre.length n = some ⟨pre ++ (LittleEndian.bytes 2 (n.nlmsgLen - pre.length) ++ post), n.nlmsgLen⟩ := by
  rw [nlAttrNestEnd, align_of_dvd hlen hdvd, hn, write_append _ rfl (by rw [LittleEndian.length_bytes, hold])]
  rfl

theorem perform_put (maxlen type : ℕ) (s : Builder) (data : Payload) : s.perform maxlen (.put type data) =
    (nlAttrPut maxlen type (some data.bytes) data.bytes.length s.n).map fun r => (r.1, { s with n := r.2 }) := by
  rw [Builder.perform, Payload.put_eq]

/-! ## Any calls -/

/-- The state after calls on the memory `m`, with `d` nests begun. -/
structure Safe (maxlen : ℕ) (m : List UInt8) (d : ℕ) (s : Builder) : Prop where
  room : Room maxlen s.n
  ge : 16 ≤ s.n.nlmsgLen
  length : s.n.mem.length = m.length
  drop : s.n.mem.drop maxlen = m.drop maxlen
  nests : s.nests.length = d
  begun : ∀ nest, some nest ∈ s.nests → nest + 4 ≤ s.n.nlmsgLen

variable {m : List UInt8} {c : Call}

theorem Room.grown (h : Room maxlen n) (hn : n.mem = pre ++ rest) {x post : List UInt8} {k : ℕ} (hrest : rest.length = k + post.length)
    (hx : x.length = k) (hdvd : 4 ∣ k) (hfits : n.nlmsgLen + k ≤ maxlen) :
    Room maxlen ⟨pre ++ (x ++ post), n.nlmsgLen + k⟩ ∧ (pre ++ (x ++ post)).length = n.mem.length := by
  have hlength : (pre ++ (x ++ post)).length = n.mem.length := by
    rw [hn, List.length_append, List.length_append, List.length_append, hx, hrest]
  exact ⟨⟨Nat.dvd_add h.dvd hdvd, hfits, hlength ▸ h.mem, h.bound⟩, hlength⟩

theorem Safe.put (h : Safe maxlen m d s) {data : Payload} (hdata : data.bytes.length ≤ 65535) (type : ℕ) :
    ∃ ok t, s.perform maxlen (.put type data) = some (ok, t) ∧ Safe maxlen m d t ∧ (ok = false → t.n = s.n) := by
  have hle := h.room.le
  have hmem := h.room.mem
  have hbound := h.room.bound
  obtain ⟨pre, rest, hn, hpre⟩ := exists_append (l := s.n.mem) (n := s.n.nlmsgLen) (by omega)
  rw [perform_put]
  obtain hfail | ⟨pad, post, hpad, hlt, hrest, hfits, hdrop, hput⟩ := nlAttrPut_cases h.room hn hpre hdata type (.inl rfl)
  · rw [hfail]
    exact ⟨false, s, rfl, h, fun _ => rfl⟩
  · have halign := align_eq (n := 4 + data.bytes.length) (by omega)
    obtain ⟨hroom, hlength⟩ := h.room.grown hn (x := spell (4 + data.bytes.length) type (data.bytes ++ pad)) hrest
      (by rw [length_spell, List.length_append]; omega) (by omega) hfits
    rw [hput]
    refine ⟨true, _, rfl, ⟨hroom, Nat.le_add_right_of_le h.ge, hlength.trans h.length, ?_, h.nests, fun nest hnest => ?_⟩, nofun⟩
    · exact (hdrop maxlen (Nat.le_refl _)).trans h.drop
    · exact Nat.le_add_right_of_le (h.begun nest hnest)

theorem Safe.nest (h : Safe maxlen m d s) (type : ℕ) :
    ∃ ok t, s.perform maxlen (.nest type) = some (ok, t) ∧ Safe maxlen m (d + 1) t ∧ (ok = false → t.n = s.n) := by
  have hle := h.room.le
  have hmem := h.room.mem
  obtain ⟨pre, rest, hn, hpre⟩ := exists_append (l := s.n.mem) (n := s.n.nlmsgLen) (by omega)
  rw [Builder.perform]
  obtain hfail | ⟨post, hrest, hfits, hdrop, hput⟩ := nlAttrNest_cases h.room hn hpre type
  · rw [hfail]
    refine ⟨false, ⟨s.n, none :: s.nests⟩, rfl, ⟨h.room, h.ge, h.length, h.drop, by rw [List.length_cons, h.nests], fun nest hnest => ?_⟩,
      fun _ => rfl⟩
    rcases List.mem_cons.mp hnest with hnone | hnest
    · cases hnone
    · exact h.begun nest hnest
  · obtain ⟨hroom, hlength⟩ := h.room.grown hn (x := spell 4 (type % 2 ^ 16 ||| nested) []) hrest (by rw [length_spell, List.length_nil])
      (Nat.dvd_refl 4) hfits
    rw [spell_append, List.nil_append] at hroom hlength
    rw [hput]
    refine ⟨true, _, rfl, ⟨hroom, Nat.le_add_right_of_le h.ge, hlength.trans h.length, ?_, by rw [List.length_cons, h.nests],
      fun nest hnest => ?_⟩, nofun⟩
    · exact (hdrop maxlen (Nat.le_refl _)).trans h.drop
    · rcases List.mem_cons.mp hnest with hnew | hnest
      · obtain rfl := Option.some.inj hnew
        exact Nat.le_refl _
      · exact Nat.le_add_right_of_le (h.begun nest hnest)

theorem Safe.nestEnd (h : Safe maxlen m d s) (hpos : 0 < d) :
    ∃ t, s.perform maxlen .nestEnd = some (true, t) ∧ Safe maxlen m (d - 1) t := by
  have hle := h.room.le
  have hmem := h.room.mem
  have hbound := h.room.bound
  obtain ⟨n, nests⟩ := s
  cases nests with
  | nil => exact absurd h.nests (Nat.ne_of_lt hpos)
  | cons nest nests =>
    have hnests : nests.length = d - 1 := Nat.eq_sub_of_add_eq h.nests
    have hbegun : ∀ nest, some nest ∈ nests → nest + 4 ≤ n.nlmsgLen := fun nest hnest =>
      h.begun nest (List.mem_cons_of_mem _ hnest)
    cases nest with
    | none => exact ⟨⟨n, nests⟩, rfl, ⟨h.room, h.ge, h.length, h.drop, hnests, hbegun⟩⟩
    | some nest =>
      have hnest := h.begun nest List.mem_cons_self
      dsimp only at *
      obtain ⟨before, after, hb, hbefore⟩ := exists_append (l := n.mem) (n := nest) (by omega)
      have hlength := congrArg List.length hb
      rw [List.length_append] at hlength
      obtain ⟨old, post, rfl, hold⟩ := exists_append (l := after) (n := 2) (by omega)
      have hend := nlAttrNestEnd_eq hold (Nat.lt_of_le_of_lt hle (by omega)) h.room.dvd hb
      rw [hbefore] at hend
      have hperform := congrArg (Option.map fun n => (true, (⟨n, nests⟩ : Builder))) hend
      refine ⟨_, hperform, ⟨⟨h.room.dvd, h.room.le, ?_, hbound⟩, h.ge, ?_, ?_, hnests, hbegun⟩⟩
      · rw [List.length_append] at hlength
        simp only [List.length_append, LittleEndian.length_bytes]
        omega
      · rw [← h.length, hb]
        simp only [List.length_append, LittleEndian.length_bytes, hold]
      · rw [← h.drop, hb]
        exact drop_over (by rw [LittleEndian.length_bytes, hold]) (by rw [LittleEndian.length_bytes]; omega)

theorem Safe.perform (h : Safe maxlen m d s) (hc : c.Fits) (hcs : WellNested d (c :: cs)) :
    ∃ ok t d', s.perform maxlen c = some (ok, t) ∧ Safe maxlen m d' t ∧ WellNested d' cs ∧ (ok = false → t.n = s.n) := by
  cases c with
  | put type data =>
    obtain ⟨ok, t, hperform, hsafe, hsame⟩ := h.put hc type
    exact ⟨ok, t, d, hperform, hsafe, hcs, hsame⟩
  | nest type =>
    obtain ⟨ok, t, hperform, hsafe, hsame⟩ := h.nest type
    exact ⟨ok, t, d + 1, hperform, hsafe, hcs, hsame⟩
  | nestEnd =>
    obtain ⟨t, hperform, hsafe⟩ := h.nestEnd hcs.1
    exact ⟨true, t, d - 1, hperform, hsafe, hcs.2, nofun⟩

theorem Safe.exec {more : List Call} (h : Safe maxlen m d s) (hcs : WellNested d (cs ++ more)) (hfits : ∀ c ∈ cs, c.Fits) :
    ∃ t d', Run.exec (Builder.step maxlen) s cs = some t ∧ Safe maxlen m d' t ∧ WellNested d' more := by
  induction cs generalizing s d with
  | nil => exact ⟨s, d, rfl, h, hcs⟩
  | cons c cs ih =>
    obtain ⟨hc, hfits⟩ := List.forall_mem_cons.mp hfits
    obtain ⟨ok, t, d', hperform, hsafe, hcs, -⟩ := h.perform hc hcs
    obtain ⟨u, d'', hexec, hsafe, hmore⟩ := ih hsafe hcs hfits
    exact ⟨u, d'', Run.exec_cons.mpr ⟨t, congrArg (Option.map Prod.snd) hperform, hexec⟩, hsafe, hmore⟩

/-! ## A forest -/

variable {max : ℕ}

theorem built (f : Forest) (hmax : max < 2 ^ 14) (hfits : f.Fits max) (h : Room maxlen s.n) (hn : s.n.mem = pre ++ rest)
    (hpre : pre.length = s.n.nlmsgLen) (hrun : Run.Along (Builder.step maxlen) (Builder.Succeeds maxlen) s f.calls) :
    ∃ xs post, f.Spelled xs ∧ 4 ∣ xs.length ∧ rest.length = xs.length + post.length ∧ s.n.nlmsgLen + xs.length ≤ maxlen ∧
      Run.exec (Builder.step maxlen) s f.calls = some ⟨⟨pre ++ (xs ++ post), s.n.nlmsgLen + xs.length⟩, s.nests⟩ := by
  have hbound := h.bound
  induction f generalizing s pre rest with
  | nil => exact ⟨[], rest, rfl, Nat.dvd_zero 4, (Nat.zero_add _).symm, h.le, by rw [List.nil_append, ← hn]; rfl⟩
  | data type payload forest ih =>
    obtain ⟨-, hpayload, hfits⟩ := hfits
    obtain ⟨⟨t, hsucceeds⟩, hrun⟩ := hrun
    obtain hfail | ⟨pad, post, hpad, hlt, hrest, hle, -, hput⟩ := nlAttrPut_cases h hn hpre hpayload type (.inl rfl)
    · rw [perform_put, hfail] at hsucceeds
      cases hsucceeds
    · have hlen : (spell (4 + payload.bytes.length) type (payload.bytes ++ pad)).length = align (4 + payload.bytes.length) := by
        rw [length_spell, List.length_append]
        omega
      have halign := align_eq (n := 4 + payload.bytes.length) (by omega)
      generalize hx : spell (4 + payload.bytes.length) type (payload.bytes ++ pad) = x at hput hlen
      have hstep : s.step maxlen (.put type payload) =
          some ⟨⟨(pre ++ x) ++ post, s.n.nlmsgLen + align (4 + payload.bytes.length)⟩, s.nests⟩ := by
        rw [Builder.step, perform_put, hput, List.append_assoc]
        rfl
      have hroom : Room maxlen ⟨(pre ++ x) ++ post, s.n.nlmsgLen + align (4 + payload.bytes.length)⟩ := by
        rw [List.append_assoc]
        exact (h.grown hn hrest hlen (by omega) hle).1
      obtain ⟨ys, post', hys, hdvd', hpost, hle', hexec⟩ := ih hfits hroom rfl (by rw [List.length_append, hpre, hlen]) (hrun _ hstep)
      refine ⟨x ++ ys, post', ⟨pad, ys, by rw [hx], by omega, hlt, hys⟩, ?_, ?_, ?_, Run.exec_cons.mpr ⟨_, hstep, ?_⟩⟩
      · rw [List.length_append]
        omega
      · rw [List.length_append]
        omega
      · rw [List.length_append]
        dsimp only at hle'
        omega
      · refine hexec.trans ?_
        simp only [List.length_append, hlen, Nat.add_assoc, List.append_assoc]
  | nest type inner forest ihInner ihForest =>
    have hdvd := h.dvd
    have hmem := h.mem
    rw [hn, List.length_append] at hmem
    obtain ⟨htype, hinner, hfits⟩ := hfits
    obtain ⟨⟨t, hsucceeds⟩, hrun⟩ := hrun
    obtain hfail | ⟨post, hrest, hle, -, hput⟩ := nlAttrNest_cases h hn hpre type
    · rw [Builder.perform, hfail] at hsucceeds
      cases hsucceeds
    · rw [or_nested (by omega)] at hput
      have hheader : pre ++ spell 4 (nested + type) post = (pre ++ spell 4 (nested + type) []) ++ post := by
        rw [List.append_assoc, spell_append, List.nil_append]
      have hlen : (pre ++ spell 4 (nested + type) []).length = s.n.nlmsgLen + 4 := by
        rw [List.length_append, length_spell, List.length_nil, hpre]
      rw [hheader] at hput
      have hstep : s.step maxlen (.nest type) =
          some ⟨⟨(pre ++ spell 4 (nested + type) []) ++ post, s.n.nlmsgLen + 4⟩, some s.n.nlmsgLen :: s.nests⟩ := by
        rw [Builder.step, Builder.perform, hput]
        rfl
      obtain ⟨hin, hout⟩ := Run.along_append.mp (hrun _ hstep)
      have hroom : Room maxlen ⟨(pre ++ spell 4 (nested + type) []) ++ post, s.n.nlmsgLen + 4⟩ := by
        rw [List.append_assoc]
        exact (h.grown hn hrest (by rw [length_spell, List.length_nil]) (Nat.dvd_refl 4) hle).1
      obtain ⟨zs, post', hzs, hdvd', hpost, hle', hexec⟩ := ihInner hinner hroom rfl hlen hin
      have hspell : (pre ++ spell 4 (nested + type) []) ++ (zs ++ post') =
          pre ++ (LittleEndian.bytes 2 4 ++ (LittleEndian.bytes 2 (nested + type) ++ (zs ++ post'))) := by
        rw [spell, List.append_nil, List.append_assoc, List.append_assoc]
      have hend := nlAttrNestEnd_eq (LittleEndian.length_bytes 2 4) (n := ⟨_, s.n.nlmsgLen + 4 + zs.length⟩) (by dsimp only; dsimp only at hle'; omega)
        (by dsimp only; omega) hspell
      have hrta : s.n.nlmsgLen + 4 + zs.length - pre.length = 4 + zs.length := by omega
      have hx : pre ++ (LittleEndian.bytes 2 (4 + zs.length) ++ (LittleEndian.bytes 2 (nested + type) ++ (zs ++ post'))) =
          (pre ++ spell (4 + zs.length) (nested + type) zs) ++ post' := by
        rw [spell, List.append_assoc, List.append_assoc, List.append_assoc]
      dsimp only at hend hle'
      rw [hrta, hx, hpre] at hend
      have hstepEnd : Builder.step maxlen ⟨⟨(pre ++ spell 4 (nested + type) []) ++ (zs ++ post'), s.n.nlmsgLen + 4 + zs.length⟩,
          some s.n.nlmsgLen :: s.nests⟩ .nestEnd =
            some ⟨⟨(pre ++ spell (4 + zs.length) (nested + type) zs) ++ post', s.n.nlmsgLen + 4 + zs.length⟩, s.nests⟩ := by
        rw [Builder.step, Builder.perform]
        dsimp only
        rw [hend]
        rfl
      have hlenEnd : (pre ++ spell (4 + zs.length) (nested + type) zs).length = s.n.nlmsgLen + 4 + zs.length := by
        rw [List.length_append, length_spell]
        omega
      obtain ⟨ys, post'', hys, hdvd'', hpost', hle'', hexec'⟩ := ihForest hfits
        (s := ⟨⟨(pre ++ spell (4 + zs.length) (nested + type) zs) ++ post', s.n.nlmsgLen + 4 + zs.length⟩, s.nests⟩)
        ⟨by dsimp only; omega, hle', by rw [List.length_append, hlenEnd]; omega, hbound⟩ rfl hlenEnd ((hout _ hexec).2 _ hstepEnd)
      refine ⟨spell (4 + zs.length) (nested + type) zs ++ ys, post'', ⟨zs, ys, rfl, hdvd', by omega, hzs, hys⟩, ?_, ?_, ?_,
        Run.exec_cons.mpr ⟨_, hstep, Run.exec_append hexec (Run.exec_cons.mpr ⟨_, hstepEnd, ?_⟩)⟩⟩
      · rw [List.length_append, length_spell]
        omega
      · rw [List.length_append, length_spell]
        omega
      · rw [List.length_append, length_spell]
        dsimp only at hle''
        omega
      · refine hexec'.trans ?_
        simp only [List.length_append, length_spell, Nat.add_assoc, List.append_assoc]

end Yjc.Netlink
