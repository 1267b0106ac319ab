import Mathlib.Data.Nat.Bitwise
import Mathlib.Algebra.Order.Ring.Int
import Yjc.Lib.CInt
import Yjc.Lib.LittleEndian

/-! The stream macros of `base/macros.h`. An access outside of the buffer has no result, and neither has a shift by the width of the `int` that is
shifted or more, which C leaves undefined. A shift that reaches the sign is taken as the two's complement. -/

namespace Yjc.Base
open Mem LittleEndian

/-- `(*(cp)++) << k`, of a byte that is promoted to `int`. -/
def shiftInt (b : UInt8) (k : ℕ) : Option ℤ := if k < 32 then some (cInt (b.toNat * 2 ^ k)) else none

/-- The bytes at the cursor are shifted by `ks` and joined to `Xv`, which has `n` bits. -/
def getShifted (n : ℕ) (m : List UInt8) : List ℕ → ℕ → ℕ → Option (ℕ × ℕ)
  | [], cp, Xv => some (Xv, cp)
  | k :: ks, cp, Xv => do
    let b ← m[cp]?
    let z ← shiftInt b k
    getShifted n m ks (cp + 1) (Xv ||| (z % 2 ^ n).toNat)

/-- The bytes of `Xv` at the bits `ks` are written at the cursor. -/
def putShifted (Xv : ℕ) : List ℕ → List UInt8 → ℕ → Option (List UInt8 × ℕ)
  | [], m, cp => some (m, cp)
  | k :: ks, m, cp => do putShifted Xv ks (← write m cp [UInt8.ofNat (Xv / 2 ^ k)]) (cp + 1)

def getHost16 (m : List UInt8) (cp : ℕ) : Option (ℕ × ℕ) := getShifted 16 m [8, 0] cp 0

def getNet16 (m : List UInt8) (cp : ℕ) : Option (ℕ × ℕ) := getShifted 16 m [0, 8] cp 0

def getHost32 (m : List UInt8) (cp : ℕ) : Option (ℕ × ℕ) := getShifted 32 m [24, 16, 8, 0] cp 0

def getNet32 (m : List UInt8) (cp : ℕ) : Option (ℕ × ℕ) := getShifted 32 m [0, 8, 16, 24] cp 0

def getHost64 (m : List UInt8) (cp : ℕ) : Option (ℕ × ℕ) := getShifted 64 m [56, 48, 40, 32, 24, 16, 8, 0] cp 0

def putHost16 (val : ℕ) (m : List UInt8) (cp : ℕ) : Option (List UInt8 × ℕ) := putShifted (val % 2 ^ 16) [8, 0] m cp

def putNet16 (val : ℕ) (m : List UInt8) (cp : ℕ) : Option (List UInt8 × ℕ) := putShifted (val % 2 ^ 16) [0, 8] m cp

def putHost32 (val : ℕ) (m : List UInt8) (cp : ℕ) : Option (List UInt8 × ℕ) := putShifted (val % 2 ^ 32) [24, 16, 8, 0] m cp

def putNet32 (val : ℕ) (m : List UInt8) (cp : ℕ) : Option (List UInt8 × ℕ) := putShifted (val % 2 ^ 32) [0, 8, 16, 24] m cp

def putHost64 (val : ℕ) (m : List UInt8) (cp : ℕ) : Option (List UInt8 × ℕ) :=
  putShifted (val % 2 ^ 64) [56, 48, 40, 32, 24, 16, 8, 0] m cp

inductive StreamForm
  | HOST16
  | NET16
  | HOST32
  | NET32
  | HOST64
deriving DecidableEq

namespace StreamForm

def bits : StreamForm → ℕ
  | .HOST16 | .NET16 => 16
  | .HOST32 | .NET32 => 32
  | .HOST64 => 64

def get : StreamForm → List UInt8 → ℕ → Option (ℕ × ℕ)
  | .HOST16 => getHost16
  | .NET16 => getNet16
  | .HOST32 => getHost32
  | .NET32 => getNet32
  | .HOST64 => getHost64

def put : StreamForm → ℕ → List UInt8 → ℕ → Option (List UInt8 × ℕ)
  | .HOST16 => putHost16
  | .NET16 => putNet16
  | .HOST32 => putHost32
  | .NET32 => putNet32
  | .HOST64 => putHost64

/-- What a value is on the wire: its bytes from the high to the low one, or the other way round. -/
def wire : StreamForm → ℕ → List UInt8
  | .HOST16, v => (bytes 2 v).reverse
  | .NET16, v => bytes 2 v
  | .HOST32, v => (bytes 4 v).reverse
  | .NET32, v => bytes 4 v
  | .HOST64, v => (bytes 8 v).reverse

end StreamForm

/-- A value for a form of its width. -/
structure StreamValue where
  form : StreamForm
  value : ℕ
  fits : value < 2 ^ form.bits

namespace StreamValue

def wire (d : StreamValue) : List UInt8 := d.form.wire d.value

def puts : List StreamValue → List UInt8 → ℕ → Option (List UInt8 × ℕ)
  | [], m, cp => some (m, cp)
  | d :: ds, m, cp => do
    let (m, cp) ← d.form.put d.value m cp
    puts ds m cp

end StreamValue

def streamGets (m : List UInt8) : List StreamForm → ℕ → Option (List ℕ × ℕ)
  | [], cp => some ([], cp)
  | f :: fs, cp => do
    let (v, cp) ← f.get m cp
    let (vs, cp) ← streamGets m fs cp
    return (v :: vs, cp)

def streamBytes (ds : List StreamValue) : ℕ := (ds.map fun d => d.form.bits / 8).sum

/-- The puts write the values on the wire at the cursor, and nothing else; the same sequence of gets reads them back. Both move the cursor by
the bytes of the values. -/
def StreamReadsBack (ds : List StreamValue) (m : List UInt8) (cp : ℕ) : Prop :=
  ∃ m', StreamValue.puts ds m cp = some (m', cp + streamBytes ds) ∧ m' = store m cp (ds.flatMap StreamValue.wire) ∧
    (ds.flatMap StreamValue.wire).length = streamBytes ds ∧
    streamGets m' (ds.map StreamValue.form) cp = some (ds.map StreamValue.value, cp + streamBytes ds)

variable {n v k : ℕ} {ks : List ℕ} {pre old post : List UInt8}

/-- The byte of `v` from the bit `k` on. -/
def byteAt (v k : ℕ) : UInt8 := UInt8.ofNat (v / 2 ^ k)

theorem putShifted_append (v : ℕ) (ks : List ℕ) (pre : List UInt8) {old : List UInt8} (hold : old.length = ks.length) (post : List UInt8) :
    putShifted v ks (pre ++ (old ++ post)) pre.length = some (pre ++ (ks.map (byteAt v) ++ post), pre.length + ks.length) := by
  induction ks generalizing pre old with
  | nil =>
    rw [List.length_eq_zero_iff.mp hold]
    rfl
  | cons k ks ih =>
    obtain ⟨c, old, rfl⟩ := List.exists_cons_of_length_pos (by rw [hold]; exact Nat.succ_pos _)
    have hwrite := @write_append _ pre [c] (old ++ post) [byteAt v k] pre.length rfl rfl
    have hnext := ih (pre ++ [byteAt v k]) (Nat.succ.inj hold)
    rw [List.length_append, List.length_singleton, List.append_assoc, List.append_assoc] at hnext
    change (write (pre ++ ([c] ++ (old ++ post))) pre.length [byteAt v k]).bind (fun m => putShifted v ks m (pre.length + 1)) = _
    rw [hwrite, Option.bind_some, hnext, List.length_cons, Nat.add_assoc, Nat.add_comm 1]
    rfl

theorem shiftInt_mod (b : UInt8) (hn : n ≤ 32) (hk : k + 8 ≤ n) : ∃ z, shiftInt b k = some z ∧ (z % 2 ^ n).toNat = b.toNat * 2 ^ k := by
  -- a shifted byte that fits in `n` bits, whatever becomes of the sign on the way
  refine ⟨_, if_pos (by omega), ?_⟩
  have hlt : b.toNat * 2 ^ k < 2 ^ n := by
    have hpow : 2 ^ (8 + k) ≤ 2 ^ n := Nat.pow_le_pow_right (by decide) (by omega)
    rw [Nat.pow_add] at hpow
    exact ((Nat.mul_lt_mul_right (Nat.two_pow_pos k)).mpr b.toNat_lt).trans_le hpow
  have hdvd : (2 : ℤ) ^ n ∣ 2 ^ 32 := pow_dvd_pow 2 hn
  have hmod : cInt (b.toNat * 2 ^ k) % 2 ^ n = ((b.toNat * 2 ^ k : ℕ) : ℤ) % 2 ^ n := by
    have hbmod : cInt (b.toNat * 2 ^ k) % 2 ^ 32 = (b.toNat * 2 ^ k : ℤ) % 2 ^ 32 := Int.bmod_emod
    rw [← Int.emod_emod_of_dvd _ hdvd, hbmod, Int.emod_emod_of_dvd _ hdvd]
    push_cast
    rfl
  rw [hmod]
  have hcast : ((b.toNat * 2 ^ k : ℕ) : ℤ) % 2 ^ n = ((b.toNat * 2 ^ k % 2 ^ n : ℕ) : ℤ) := by push_cast; rfl
  rw [hcast, Int.toNat_natCast, Nat.mod_eq_of_lt hlt]

/-- The bytes of `v` at the bits `ks`, joined to `Xv`. -/
def joined (v : ℕ) (ks : List ℕ) (Xv : ℕ) : ℕ := ks.foldl (fun Xv k => Xv ||| v / 2 ^ k % 2 ^ 8 * 2 ^ k) Xv

theorem testBit_joined (v : ℕ) (ks : List ℕ) (Xv j : ℕ) :
    (joined v ks Xv).testBit j = (Xv.testBit j || ks.any (fun k => k ≤ j ∧ j < k + 8) && v.testBit j) := by
  induction ks generalizing Xv with
  | nil => simp [joined]
  | cons k ks ih =>
    have hbyte : (v / 2 ^ k % 2 ^ 8 * 2 ^ k).testBit j = (decide (k ≤ j ∧ j < k + 8) && v.testBit j) := by
      rw [Nat.testBit_mul_two_pow, Nat.testBit_mod_two_pow, Nat.testBit_div_two_pow]
      by_cases hk : k ≤ j
      · have hlt : j - k < 8 ↔ j < k + 8 := by omega
        simp [hk, hlt, Nat.sub_add_cancel hk]
      · simp [hk]
    rw [joined, List.foldl_cons, ← joined, ih, Nat.testBit_or, hbyte, List.any_cons, Bool.and_or_distrib_right, Bool.or_assoc]

theorem joined_eq (hv : v < 2 ^ n) (hks : ∀ j < n, ∃ k ∈ ks, k ≤ j ∧ j < k + 8) : joined v ks 0 = v := by
  refine Nat.eq_of_testBit_eq fun j => ?_
  rw [testBit_joined, Nat.zero_testBit, Bool.false_or]
  by_cases hj : j < n
  · obtain ⟨k, hk, hrange⟩ := hks j hj
    have hany : ks.any (fun k => k ≤ j ∧ j < k + 8) := List.any_eq_true.mpr ⟨k, hk, decide_eq_true hrange⟩
    rw [hany, Bool.true_and]
  · have hbit : v.testBit j = false := Nat.testBit_lt_two_pow (hv.trans_le (Nat.pow_le_pow_right (by decide) (Nat.le_of_not_lt hj)))
    rw [hbit, Bool.and_false]

theorem getShifted_append (hn : n ≤ 32) (hks : ∀ k ∈ ks, k + 8 ≤ n) (pre post : List UInt8) (v Xv : ℕ) :
    getShifted n (pre ++ (ks.map (byteAt v) ++ post)) ks pre.length Xv = some (joined v ks Xv, pre.length + ks.length) := by
  induction ks generalizing pre Xv with
  | nil => rfl
  | cons k ks ih =>
    obtain ⟨z, hshift, hz⟩ := shiftInt_mod (byteAt v k) hn (hks k List.mem_cons_self)
    have hget : (pre ++ ((k :: ks).map (byteAt v) ++ post))[pre.length]? = some (byteAt v k) := by
      rw [List.getElem?_append_right (Nat.le_refl _), Nat.sub_self]
      rfl
    have hbyte : (byteAt v k).toNat = v / 2 ^ k % 2 ^ 8 := UInt8.toNat_ofNat'
    have hnext := ih (fun k hk => hks k (List.mem_cons_of_mem _ hk)) (pre ++ [byteAt v k]) (Xv ||| v / 2 ^ k % 2 ^ 8 * 2 ^ k)
    rw [List.length_append, List.length_singleton, List.append_assoc] at hnext
    rw [getShifted, hget, Option.bind_eq_bind, Option.bind_some, hshift, Option.bind_eq_bind, Option.bind_some, hz, hbyte]
    rw [List.length_cons, Nat.add_comm ks.length, ← Nat.add_assoc]
    exact hnext

namespace StreamForm

/-- The bits at which the bytes of a value are put and got, in order. -/
def shifts : StreamForm → List ℕ
  | .HOST16 => [8, 0]
  | .NET16 => [0, 8]
  | .HOST32 => [24, 16, 8, 0]
  | .NET32 => [0, 8, 16, 24]
  | .HOST64 => [56, 48, 40, 32, 24, 16, 8, 0]

theorem put_eq (f : StreamForm) (v : ℕ) (m : List UInt8) (cp : ℕ) : f.put v m cp = putShifted (v % 2 ^ f.bits) f.shifts m cp := by
  cases f <;> rfl

theorem get_eq (f : StreamForm) (m : List UInt8) (cp : ℕ) : f.get m cp = getShifted f.bits m f.shifts cp 0 := by
  cases f <;> rfl

theorem wire_eq (f : StreamForm) (v : ℕ) : f.wire v = f.shifts.map (byteAt v) := by
  cases f <;> simp [wire, shifts, bytes, byteAt, Nat.div_div_eq_div_mul]

theorem length_shifts (f : StreamForm) : f.shifts.length = f.bits / 8 := by
  cases f <;> rfl

theorem get_HOST64 (m : List UInt8) (cp : ℕ) : get .HOST64 m cp = none := by
  change getHost64 m cp = none
  rw [getHost64, getShifted]
  cases m[cp]? <;> rfl

theorem shifts_cover {f : StreamForm} (h : f ≠ .HOST64) :
    f.bits ≤ 32 ∧ (∀ k ∈ f.shifts, k + 8 ≤ f.bits) ∧ ∀ j < f.bits, ∃ k ∈ f.shifts, k ≤ j ∧ j < k + 8 := by
  cases f with
  | HOST64 => exact absurd rfl h
  | _ => decide

end StreamForm

namespace StreamValue

variable {d : StreamValue} {ds : List StreamValue}

theorem length_wire (d : StreamValue) : d.wire.length = d.form.bits / 8 := by
  rw [wire, StreamForm.wire_eq, List.length_map, StreamForm.length_shifts]

theorem length_flatMap_wire (ds : List StreamValue) : (ds.flatMap wire).length = streamBytes ds := by
  rw [List.length_flatMap, streamBytes]
  congr 1
  exact List.map_congr_left fun d _ => length_wire d

theorem put_append (d : StreamValue) (pre : List UInt8) {old : List UInt8} (hold : old.length = d.wire.length) (post : List UInt8) :
    d.form.put d.value (pre ++ (old ++ post)) pre.length = some (pre ++ (d.wire ++ post), pre.length + d.wire.length) := by
  have hlen : old.length = d.form.shifts.length := by rw [hold, length_wire, StreamForm.length_shifts]
  rw [StreamForm.put_eq, Nat.mod_eq_of_lt d.fits, putShifted_append _ _ _ hlen, wire, StreamForm.wire_eq, List.length_map]

theorem get_append (d : StreamValue) (h : d.form ≠ .HOST64) (pre post : List UInt8) :
    d.form.get (pre ++ (d.wire ++ post)) pre.length = some (d.value, pre.length + d.wire.length) := by
  obtain ⟨hbits, hbelow, hcover⟩ := StreamForm.shifts_cover h
  rw [StreamForm.get_eq, wire, StreamForm.wire_eq, getShifted_append hbits hbelow, joined_eq d.fits hcover, List.length_map]

theorem puts_append (ds : List StreamValue) (pre : List UInt8) {old : List UInt8} (hold : old.length = (ds.flatMap wire).length)
    (post : List UInt8) :
    puts ds (pre ++ (old ++ post)) pre.length = some (pre ++ (ds.flatMap wire ++ post), pre.length + (ds.flatMap wire).length) := by
  induction ds generalizing pre old with
  | nil =>
    rw [List.length_eq_zero_iff.mp hold]
    rfl
  | cons d ds ih =>
    rw [List.flatMap_cons, List.length_append] at hold
    obtain ⟨old₁, old₂, rfl, hlen⟩ := exists_append (show d.wire.length ≤ old.length by omega)
    have hnext := ih (pre ++ d.wire) (show old₂.length = _ by rw [List.length_append] at hold; omega)
    rw [List.length_append, List.append_assoc, List.append_assoc] at hnext
    rw [puts, List.append_assoc, put_append d pre hlen, Option.bind_eq_bind, Option.bind_some]
    simp only [hnext, List.flatMap_cons, List.append_assoc, List.length_append, Nat.add_assoc]

theorem gets_append (ds : List StreamValue) (h : ∀ d ∈ ds, d.form ≠ .HOST64) (pre post : List UInt8) :
    streamGets (pre ++ (ds.flatMap wire ++ post)) (ds.map form) pre.length =
      some (ds.map value, pre.length + (ds.flatMap wire).length) := by
  induction ds generalizing pre with
  | nil => rfl
  | cons d ds ih =>
    have hnext := ih (fun e he => h e (List.mem_cons_of_mem d he)) (pre ++ d.wire)
    rw [List.length_append, List.append_assoc] at hnext
    rw [List.flatMap_cons, List.append_assoc, List.map_cons, streamGets, get_append d (h d List.mem_cons_self), Option.bind_eq_bind,
      Option.bind_some]
    simp only [hnext, List.map_cons, List.length_append, Nat.add_assoc]
    rfl

end StreamValue

theorem streamGets_some {m : List UInt8} {fs : List StreamForm} {cp : ℕ} {r : List ℕ × ℕ} (h : streamGets m fs cp = some r) :
    ∀ f ∈ fs, f ≠ .HOST64 := by
  induction fs generalizing cp r with
  | nil => exact fun f hf => absurd hf List.not_mem_nil
  | cons f fs ih =>
    obtain ⟨⟨v, cp'⟩, hget, h⟩ := Option.bind_eq_some_iff.mp h
    obtain ⟨r', hgets, -⟩ := Option.bind_eq_some_iff.mp h
    refine List.forall_mem_cons.mpr ⟨?_, ih hgets⟩
    rintro rfl
    exact Option.some_ne_none _ (hget.symm.trans (StreamForm.get_HOST64 m cp))

/-- Sequences of values are read back as they were put, but for those with a 64-bit value: its first byte is shifted as an `int`. -/
theorem streamReadsBack_iff (ds : List StreamValue) (m : List UInt8) (cp : ℕ) (h : cp + streamBytes ds ≤ m.length) :
    StreamReadsBack ds m cp ↔ ∀ d ∈ ds, d.form ≠ .HOST64 := by
  have hwire := StreamValue.length_flatMap_wire ds
  constructor
  · rintro ⟨m', -, -, -, hgets⟩ d hd
    exact streamGets_some hgets d.form (List.mem_map_of_mem hd)
  · intro hforms
    obtain ⟨pre, tail, rfl, rfl⟩ := exists_append (show cp ≤ m.length by omega)
    rw [List.length_append] at h
    obtain ⟨old, post, rfl, hold⟩ := exists_append (show streamBytes ds ≤ tail.length by omega)
    have hputs := StreamValue.puts_append ds pre (hold.trans hwire.symm) post
    have hgets := StreamValue.gets_append ds hforms pre post
    rw [hwire] at hputs hgets
    exact ⟨_, hputs, (store_append _ (hold.trans hwire.symm)).symm, hwire, hgets⟩

theorem streamReadsBack_iff_mixed :
    StreamReadsBack [⟨.NET16, 0xff01, by decide⟩, ⟨.HOST32, 0x80ff0001, by decide⟩] [0, 0, 0, 0, 0, 0, 0] 1 ↔
      ∀ d ∈ [(⟨.NET16, 0xff01, by decide⟩ : StreamValue), ⟨.HOST32, 0x80ff0001, by decide⟩], d.form ≠ .HOST64 :=
  streamReadsBack_iff _ _ _ (by decide)

/-- A 64-bit value is put but not read back. -/
theorem streamReadsBack_HOST64 : ¬StreamReadsBack [⟨.HOST64, 1, by decide⟩] [0, 0, 0, 0, 0, 0, 0, 0] 0 := by
  rintro ⟨m', -, -, -, hgets⟩
  exact streamGets_some hgets .HOST64 List.mem_cons_self rfl

end Yjc.Base
