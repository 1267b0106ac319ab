import Yjc.Lib.LittleEndian
import Yjc.Lib.Loop
import Yjc.Lib.Run
import Mathlib.Data.Int.Order.Basic
import Mathlib.Tactic.SplitIfs
import Mathlib.Algebra.Group.Int.Defs

/-! The attributes of a Netlink message, in `netlink/nl_kernel.c`. An offset is from the start of the message, or of the bytes that are
parsed. -/

namespace Yjc.Netlink
open Mem

/-- `RTA_ALIGN` and `NLMSG_ALIGN`, of a 32-bit number. -/
def align (n : ℕ) : ℕ := (n + 3) % 2 ^ 32 / 4 * 4

/-- The message and the memory after it, with `nlmsg_len`. -/
structure Nlmsg where
  mem : List UInt8
  nlmsgLen : ℕ

def nested : ℕ := 0x8000

/-! ## Building -/

/-- The copy of a payload; `none` for an access outside of the memory, or a failed assertion. -/
def putData (mem : List UInt8) (rta alen : ℕ) : Option (List UInt8) → Option (List UInt8)
  | some data => if alen ≤ data.length then write mem (rta + 4) (data.take alen) else none
  | none => if alen = 0 then some mem else none

def nlAttrPut (maxlen type : ℕ) (data : Option (List UInt8)) (alen : ℕ) (n : Nlmsg) : Option (Bool × Nlmsg) :=
  let len := (4 + alen) % 2 ^ 32
  if (align n.nlmsgLen + align len) % 2 ^ 32 > maxlen then some (false, n)
  else do
    let rta := align n.nlmsgLen
    let mem ← write n.mem (rta + 2) (LittleEndian.bytes 2 type)
    let mem ← write mem rta (LittleEndian.bytes 2 len)
    let mem ← putData mem rta alen data
    return (true, ⟨mem, (align n.nlmsgLen + align len) % 2 ^ 32⟩)

def nlAttrPut8 (maxlen type : ℕ) (data : UInt8) (n : Nlmsg) : Option (Bool × Nlmsg) :=
  nlAttrPut maxlen type (some (LittleEndian.bytes 1 data.toNat)) 1 n

def nlAttrPut16 (maxlen type : ℕ) (data : UInt16) (n : Nlmsg) : Option (Bool × Nlmsg) :=
  nlAttrPut maxlen type (some (LittleEndian.bytes 2 data.toNat)) 2 n

def nlAttrPut32 (maxlen type : ℕ) (data : UInt32) (n : Nlmsg) : Option (Bool × Nlmsg) :=
  nlAttrPut maxlen type (some (LittleEndian.bytes 4 data.toNat)) 4 n

def nlAttrPut64 (maxlen type : ℕ) (data : UInt64) (n : Nlmsg) : Option (Bool × Nlmsg) :=
  nlAttrPut maxlen type (some (LittleEndian.bytes 8 data.toNat)) 8 n

/-- With the nest, or no nest for `NULL`. -/
def nlAttrNest (maxlen type : ℕ) (n : Nlmsg) : Option (Option ℕ × Nlmsg) := do
  let nest := align n.nlmsgLen
  let (ok, n) ← nlAttrPut maxlen type none 0 n
  if ok then
    let rtaType ← LittleEndian.read n.mem (nest + 2) 2
    let mem ← write n.mem (nest + 2) (LittleEndian.bytes 2 (rtaType ||| nested))
    return (some nest, { n with mem })
  else return (none, n)

def nlAttrNestEnd (nest : ℕ) (n : Nlmsg) : Option Nlmsg := do
  let mem ← write n.mem nest (LittleEndian.bytes 2 (align n.nlmsgLen - nest))
  return { n with mem }

/-! ## Parsing -/

/-- `RTA_OK`, with the length of the attribute; `none` for a read outside of the memory. -/
def rtaOk (m : List UInt8) (rta : ℕ) (len : ℤ) : Option (Option ℕ) :=
  if 4 ≤ len then (LittleEndian.read m rta 2).map fun rtaLen : ℕ => if 4 ≤ rtaLen ∧ rtaLen ≤ len then some rtaLen else none
  else some none

/-- The body of the loop of both parsers, with the attribute, the bytes that are left and the table: `store` tells what to do with an
attribute of a type. -/
def parseRound (m : List UInt8) (store : List (Option ℕ) → ℕ → ℕ → List (Option ℕ)) (s : ℕ × ℤ × List (Option ℕ)) :
    ℕ × ℤ × List (Option ℕ) ⊕ Option (List (Option ℕ)) :=
  let (rta, len, tb) := s
  match rtaOk m rta len with
  | none => .inr none
  | some none => .inr (some tb)
  | some (some rtaLen) =>
    match LittleEndian.read m (rta + 2) 2 with
    | none => .inr none
    | some rtaType => .inl (rta + align rtaLen, len - align rtaLen, store tb rtaType rta)

def storeFlags (max flags : ℕ) (tb : List (Option ℕ)) (rtaType rta : ℕ) : List (Option ℕ) :=
  let type := rtaType &&& (0xffff ^^^ flags)
  if type ≤ max ∧ tb[type]? = some none then tb.set type (some rta) else tb

def storeLast (max : ℕ) (tb : List (Option ℕ)) (rtaType rta : ℕ) : List (Option ℕ) :=
  if rtaType ≤ max then tb.set rtaType (some rta) else tb

def netlinkParseRtattrFlags (m : List UInt8) (max rta : ℕ) (len : ℤ) (flags : ℕ) : Option (List (Option ℕ)) :=
  (Loop.run (parseRound m (storeFlags max flags)) (len.toNat + 1) (rta, len, List.replicate (max + 1) none)).join

def netlinkParseRtattr (m : List UInt8) (max rta : ℕ) (len : ℤ) : Option (List (Option ℕ)) :=
  (Loop.run (parseRound m (storeLast max)) (len.toNat + 1) (rta, len, List.replicate (max + 1) none)).join

/-- `RTA_PAYLOAD`. -/
def rtaPayload (m : List UInt8) (rta : ℕ) : Option ℤ := (LittleEndian.read m rta 2).map fun rtaLen : ℕ => rtaLen - 4

def netlinkParseRtattrNested (m : List UInt8) (max rta : ℕ) : Option (List (Option ℕ)) :=
  (rtaPayload m rta).bind fun len => netlinkParseRtattr m max (rta + 4) len

/-! ## Any bytes -/

variable {m : List UInt8} {max flags p stop n t r : ℕ} {store : List (Option ℕ) → ℕ → ℕ → List (Option ℕ)} {tb : List (Option ℕ)}

theorem align_eq (h : n < 2 ^ 31) : align n = (n + 3) / 4 * 4 := by
  rw [align, Nat.mod_eq_of_lt (by omega)]

theorem align_of_dvd (h : n < 2 ^ 31) (hdvd : 4 ∣ n) : align n = n := by
  rw [align_eq h]
  omega

theorem parseRound_cases {rta : ℕ} {len : ℤ} (tb : List (Option ℕ)) (h : rta + len = stop) (hm : stop ≤ m.length) :
    parseRound m store (rta, len, tb) = .inr (some tb) ∨ ∃ rtaLen rtaType, LittleEndian.read m rta 2 = some rtaLen ∧
      4 ≤ rtaLen ∧ rtaLen ≤ len ∧ rtaLen < 2 ^ 16 ∧
      parseRound m store (rta, len, tb) = .inl (rta + align rtaLen, len - align rtaLen, store tb rtaType rta) := by
  unfold parseRound rtaOk
  dsimp only
  by_cases hlen : 4 ≤ len
  · obtain ⟨rtaLen, hlt, hread⟩ := LittleEndian.read_isSome (m := m) (i := rta) (k := 2) (by omega)
    obtain ⟨rtaType, -, htype⟩ := LittleEndian.read_isSome (m := m) (i := rta + 2) (k := 2) (by omega)
    rw [if_pos hlen, hread, Option.map_some]
    by_cases hok : 4 ≤ rtaLen ∧ rtaLen ≤ len
    · rw [if_pos hok, htype]
      exact .inr ⟨rtaLen, rtaType, rfl, hok.1, hok.2, hlt, rfl⟩
    · rw [if_neg hok]
      exact .inl rfl
  · rw [if_neg hlen]
    exact .inl rfl

/-- An attribute of at least a header that lies in `[p, stop)`. -/
def Inside (m : List UInt8) (p stop r : ℕ) : Prop :=
  p ≤ r ∧ ∃ rtaLen, LittleEndian.read m r 2 = some rtaLen ∧ 4 ≤ rtaLen ∧ r + rtaLen ≤ stop

/-- The table gets no other attribute than the one that is stored. -/
def StoresOnly (store : List (Option ℕ) → ℕ → ℕ → List (Option ℕ)) : Prop :=
  ∀ (tb : List (Option ℕ)) (rtaType rta t r : ℕ), some r ∈ (store tb rtaType rta)[t]? → r = rta ∨ some r ∈ tb[t]?

theorem mem_set (tb : List (Option ℕ)) (i rta t r : ℕ) (h : some r ∈ (tb.set i (some rta))[t]?) : r = rta ∨ some r ∈ tb[t]? := by
  rw [List.getElem?_set] at h
  split_ifs at h
  · exact .inl (Option.some.inj (Option.some.inj h)).symm
  · cases h
  · exact .inr h

theorem storesOnly_flags (max flags : ℕ) : StoresOnly (storeFlags max flags) := by
  intro tb rtaType rta t r h
  unfold storeFlags at h
  dsimp only at h
  split_ifs at h
  · exact mem_set _ _ _ _ _ h
  · exact .inr h

theorem storesOnly_last (max : ℕ) : StoresOnly (storeLast max) := by
  intro tb rtaType rta t r h
  unfold storeLast at h
  split_ifs at h
  · exact mem_set _ _ _ _ _ h
  · exact .inr h

theorem parse_inside (hstore : StoresOnly store) (hm : p + n ≤ m.length) (max : ℕ) :
    ∃ tb, (Loop.run (parseRound m store) ((n : ℤ).toNat + 1) (p, n, List.replicate (max + 1) none)).join = some tb ∧
      ∀ t r : ℕ, some r ∈ tb[t]? → Inside m p (p + n) r := by
  obtain ⟨r, hr, tb, rfl, hinside⟩ := Loop.run_of_measure (parseRound m store)
    (fun s => p ≤ s.1 ∧ (s.1 : ℤ) + s.2.1 = (p + n : ℕ) ∧ ∀ t r : ℕ, some r ∈ s.2.2[t]? → Inside m p (p + n) r)
    (fun r => ∃ tb, r = some tb ∧ ∀ t r : ℕ, some r ∈ tb[t]? → Inside m p (p + n) r) (fun s => s.2.1.toNat)
    (fun s s' ⟨hp, hstop, hinside⟩ hround => by
      obtain ⟨rta, len, tb⟩ := s
      obtain hleave | ⟨rtaLen, rtaType, hread, hmin, hmax, hlt, hgo⟩ := parseRound_cases tb hstop hm
      · rw [hleave] at hround
        cases hround
      · obtain rfl := Sum.inl.inj (hgo.symm.trans hround)
        have halign := align_eq (n := rtaLen) (by omega)
        dsimp only at *
        refine ⟨⟨by omega, by omega, fun t r hr => ?_⟩, by omega⟩
        obtain rfl | hold := hstore _ _ _ _ _ hr
        · exact ⟨hp, rtaLen, hread, hmin, by omega⟩
        · exact hinside t r hold)
    (fun s r ⟨_, hstop, hinside⟩ hround => by
      obtain ⟨rta, len, tb⟩ := s
      obtain hleave | ⟨rtaLen, rtaType, -, -, -, -, hgo⟩ := parseRound_cases tb hstop hm
      · exact ⟨tb, Sum.inr.inj (hround.symm.trans hleave), hinside⟩
      · rw [hgo] at hround
        cases hround)
    (s := (p, n, List.replicate (max + 1) none)) (n := (n : ℤ).toNat + 1)
    ⟨Nat.le_refl p, by push_cast; rfl, fun t r hr => by rw [List.getElem?_replicate] at hr; split_ifs at hr <;> cases hr⟩
    (Nat.lt_succ_self _)
  exact ⟨tb, by rw [hr, Option.join_some], hinside⟩

end Yjc.Netlink
