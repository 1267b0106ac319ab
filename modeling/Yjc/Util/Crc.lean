import Yjc.Lib.CrcDivision

/-! The routines of `util/crc.c` against the checks that they are named after. -/

namespace Yjc
open Crc Polynomial
variable {w n : ℕ}

/-- The body of the loop over the bits, in the routines that shift right. -/
def crcBitRight (poly crc : BitVec n) : BitVec n := if crc &&& 1#n ≠ 0#n then (crc >>> 1) ^^^ poly else crc >>> 1

/-- The loop over the bytes of these routines. -/
def crcRight (poly crc : BitVec n) (data : List UInt8) : BitVec n :=
  data.foldl (fun (crc : BitVec n) x => (crcBitRight poly)^[8] (crc ^^^ x.toBitVec.setWidth n)) crc

/-- The same in the routines that shift left; `top` is the bit that is looked at. -/
def crcBitLeft (top poly crc : BitVec n) : BitVec n := if crc &&& top ≠ 0#n then (crc <<< 1) ^^^ poly else crc <<< 1

/-- A byte in the high bits. -/
def highByte (n : ℕ) (x : UInt8) : BitVec n := x.toBitVec.setWidth n <<< (n - 8)

def crcLeft (top poly crc : BitVec n) (data : List UInt8) : BitVec n :=
  data.foldl (fun (crc : BitVec n) x => (crcBitLeft top poly)^[8] (crc ^^^ highByte n x)) crc

def crc4Itu (data : List UInt8) : BitVec 8 := crcRight 0x0C 0 data

def crc5Epc (data : List UInt8) : BitVec 8 := crcLeft 0x80 0x48 0x48 data >>> 3

def crc5Itu (data : List UInt8) : BitVec 8 := crcRight 0x15 0 data

def crc5Usb (data : List UInt8) : BitVec 8 := crcRight 0x14 0x1F data ^^^ 0x1F

def crc6Itu (data : List UInt8) : BitVec 8 := crcRight 0x30 0 data

def crc7Mmc (data : List UInt8) : BitVec 8 := crcLeft 0x80 0x12 0 data >>> 1

def crc8 (data : List UInt8) : BitVec 8 := crcLeft 0x80 0x07 0 data

def crc8Itu (data : List UInt8) : BitVec 8 := crcLeft 0x80 0x07 0 data ^^^ 0x55

def crc8Rohc (data : List UInt8) : BitVec 8 := crcRight 0xE0 0xFF data

def crc8Maxim (data : List UInt8) : BitVec 8 := crcRight 0x8C 0 data

def crc16Ibm (data : List UInt8) : BitVec 16 := crcRight 0xA001 0 data

def crc16Maxim (data : List UInt8) : BitVec 16 := ~~~crcRight 0xA001 0 data

def crc16Usb (data : List UInt8) : BitVec 16 := ~~~crcRight 0xA001 0xffff data

def crc16Modbus (data : List UInt8) : BitVec 16 := crcRight 0xA001 0xffff data

def crc16Ccitt (data : List UInt8) : BitVec 16 := crcRight 0x8408 0 data

def crc16CcittFalse (data : List UInt8) : BitVec 16 := crcLeft 0x8000 0x1021 0xffff data

def crc16X25 (data : List UInt8) : BitVec 16 := ~~~crcRight 0x8408 0xffff data

def crc16Xmodem (data : List UInt8) : BitVec 16 := crcLeft 0x8000 0x1021 0 data

def crc16Dnp (data : List UInt8) : BitVec 16 := ~~~crcRight 0xA6BC 0 data

def crc16Cus (data : List UInt8) : BitVec 16 := ~~~crcLeft 0x8000 0x8005 0xFFFF data

def crc32 (data : List UInt8) : BitVec 32 := ~~~crcRight 0xEDB88320 0xffffffff data

def crc32Mpeg2 (data : List UInt8) : BitVec 32 := crcLeft 0x80000000 0x04C11DB7 0xffffffff data

/-! ## Shifting right -/

/-- The reflected register in the low bits of a wider one. -/
def reflected (n : ℕ) (s : BitVec w) : BitVec n := s.reverse.setWidth n

theorem getLsbD_setWidth_of_le (s : BitVec w) (hw : w ≤ n) (i : ℕ) : (s.setWidth n).getLsbD i = s.getLsbD i := by
  rw [BitVec.getLsbD_setWidth]
  by_cases hi : i < n
  · rw [decide_eq_true hi, Bool.true_and]
  · rw [decide_eq_false hi, Bool.false_and, BitVec.getLsbD_of_ge s i (by omega)]

theorem getLsbD_reflected (s : BitVec w) (hw : w ≤ n) (i : ℕ) : (reflected n s).getLsbD i = s.getMsbD i := by
  rw [reflected, getLsbD_setWidth_of_le _ hw, BitVec.getLsbD_reverse]

theorem and_twoPow_ne_zero {k : ℕ} (hk : k < n) (x : BitVec n) : x &&& BitVec.twoPow n k ≠ 0#n ↔ x.getLsbD k = true := by
  have hne : BitVec.twoPow n k ≠ 0#n := fun h => by
    have hbit := congrArg (fun y : BitVec n => y.getLsbD k) h
    simp [hk] at hbit
  rw [BitVec.and_twoPow]
  split_ifs with h
  · exact iff_of_true hne h
  · exact iff_of_false (fun hc => hc rfl) h

theorem and_one_ne_zero (hn : 0 < n) (x : BitVec n) : x &&& 1#n ≠ 0#n ↔ x.getLsbD 0 = true := by
  rw [← BitVec.twoPow_zero, and_twoPow_ne_zero hn]

theorem crcBitRight_reflected (hw : w ≤ n) (hn : 8 ≤ n) (poly s : BitVec w) (d : BitVec 8) :
    crcBitRight (reflected n poly) (reflected n s ^^^ d.setWidth n) =
      reflected n (shift poly s (d.getLsbD 0)) ^^^ (d >>> 1).setWidth n := by
  have hbit : (reflected n s ^^^ d.setWidth n).getLsbD 0 = (s.msb ^^ d.getLsbD 0) := by
    rw [BitVec.getLsbD_xor, getLsbD_reflected s hw, getLsbD_setWidth_of_le d hn, BitVec.msb_eq_getMsbD_zero]
  have hshift : (reflected n s ^^^ d.setWidth n) >>> 1 = reflected n (s <<< 1) ^^^ (d >>> 1).setWidth n := by
    refine BitVec.eq_of_getLsbD_eq fun i _ => ?_
    rw [BitVec.getLsbD_ushiftRight, BitVec.getLsbD_xor, BitVec.getLsbD_xor, getLsbD_reflected s hw, getLsbD_reflected _ hw,
      getLsbD_setWidth_of_le d hn, getLsbD_setWidth_of_le _ hn, BitVec.getLsbD_ushiftRight, BitVec.getMsbD_shiftLeft, Nat.add_comm]
  have hxor : reflected n (s <<< 1 ^^^ poly) = reflected n (s <<< 1) ^^^ reflected n poly := by
    refine BitVec.eq_of_getLsbD_eq fun i _ => ?_
    rw [BitVec.getLsbD_xor, getLsbD_reflected _ hw, getLsbD_reflected _ hw, getLsbD_reflected _ hw, BitVec.getMsbD_xor]
  unfold crcBitRight shift
  rw [if_congr (and_one_ne_zero (by omega) _) rfl rfl, hbit, hshift]
  split_ifs
  · rw [hxor, BitVec.xor_assoc, BitVec.xor_assoc, BitVec.xor_comm (BitVec.setWidth n _)]
  · rfl

theorem crcRight_bits (hw : w ≤ n) (hn : 8 ≤ n) (poly s : BitVec w) (x : BitVec 8) (k : ℕ) :
    (crcBitRight (reflected n poly))^[k] (reflected n s ^^^ x.setWidth n) =
      reflected n (((List.range k).map fun i => x.getLsbD i).foldl (shift poly) s) ^^^ (x >>> k).setWidth n := by
  induction k with
  | zero => simp
  | succ k ih =>
    rw [Function.iterate_succ_apply', ih, crcBitRight_reflected hw hn, BitVec.getLsbD_ushiftRight, List.range_succ, List.map_append,
      List.foldl_append, Nat.add_zero, ← BitVec.shiftRight_add]
    rfl

theorem crcRight_eq (hw : w ≤ n) (hn : 8 ≤ n) {p : Params w} (hrefin : p.refin = true) (s : BitVec w) (data : List UInt8) :
    crcRight (reflected n p.poly) (reflected n s) data = reflected n (p.run s data) := by
  induction data generalizing s with
  | nil => rfl
  | cons x data ih =>
    have hzero : (x.toBitVec >>> 8).setWidth n = 0#n := by
      rw [BitVec.ushiftRight_eq_zero (Nat.le_refl 8), BitVec.setWidth_zero]
    have hbits : bits p.refin x = (List.range 8).map fun i => x.toBitVec.getLsbD i := by
      rw [hrefin]
      rfl
    rw [show x :: data = [x] ++ data by rfl, Params.run_append, ← ih, Params.run, Params.message, List.flatMap_singleton, hbits]
    change crcRight _ ((crcBitRight (reflected n p.poly))^[8] (reflected n s ^^^ x.toBitVec.setWidth n)) data = _
    rw [crcRight_bits hw hn, hzero, BitVec.xor_zero]

/-! ## Shifting left -/

def aligned (n : ℕ) (s : BitVec w) : BitVec n := s.setWidth n <<< (n - w)

theorem getMsbD_aligned (s : BitVec w) (hw : w ≤ n) (i : ℕ) : (aligned n s).getMsbD i = s.getMsbD i := by
  rw [aligned, BitVec.getMsbD_shiftLeft, BitVec.getMsbD_setWidth, decide_eq_true (by omega), Bool.true_and,
    show i + (n - w) + w - n = i by omega]

theorem crcBitLeft_aligned (hw : w ≤ n) (hn : 8 ≤ n) (poly s : BitVec w) (d : BitVec 8) :
    crcBitLeft (BitVec.twoPow n (n - 1)) (aligned n poly) (aligned n s ^^^ aligned n d) =
      aligned n (shift poly s d.msb) ^^^ aligned n (d <<< 1) := by
  have hbit : (aligned n s ^^^ aligned n d).getLsbD (n - 1) = (s.msb ^^ d.msb) := by
    rw [← BitVec.msb_eq_getLsbD_last, BitVec.msb_eq_getMsbD_zero, BitVec.getMsbD_xor, getMsbD_aligned s hw, getMsbD_aligned d hn,
      BitVec.msb_eq_getMsbD_zero, BitVec.msb_eq_getMsbD_zero]
  have hshift : (aligned n s ^^^ aligned n d) <<< 1 = aligned n (s <<< 1) ^^^ aligned n (d <<< 1) := by
    refine BitVec.eq_of_getMsbD_eq fun i _ => ?_
    rw [BitVec.getMsbD_shiftLeft, BitVec.getMsbD_xor, BitVec.getMsbD_xor, getMsbD_aligned s hw, getMsbD_aligned d hn,
      getMsbD_aligned _ hw, getMsbD_aligned _ hn, BitVec.getMsbD_shiftLeft, BitVec.getMsbD_shiftLeft]
  have hxor : aligned n (s <<< 1 ^^^ poly) = aligned n (s <<< 1) ^^^ aligned n poly := by
    refine BitVec.eq_of_getMsbD_eq fun i _ => ?_
    rw [BitVec.getMsbD_xor, getMsbD_aligned _ hw, getMsbD_aligned _ hw, getMsbD_aligned _ hw, BitVec.getMsbD_xor]
  unfold crcBitLeft shift
  rw [if_congr (and_twoPow_ne_zero (by omega) _) rfl rfl, hbit, hshift]
  split_ifs
  · rw [hxor, BitVec.xor_assoc, BitVec.xor_assoc, BitVec.xor_comm (aligned n (d <<< 1))]
  · rfl

theorem crcLeft_bits (hw : w ≤ n) (hn : 8 ≤ n) (poly s : BitVec w) (x : BitVec 8) (k : ℕ) :
    (crcBitLeft (BitVec.twoPow n (n - 1)) (aligned n poly))^[k] (aligned n s ^^^ aligned n x) =
      aligned n (((List.range k).map fun i => x.getMsbD i).foldl (shift poly) s) ^^^ aligned n (x <<< k) := by
  induction k with
  | zero => simp
  | succ k ih =>
    rw [Function.iterate_succ_apply', ih, crcBitLeft_aligned hw hn, BitVec.msb_eq_getMsbD_zero, BitVec.getMsbD_shiftLeft,
      List.range_succ, List.map_append, List.foldl_append, Nat.zero_add, ← BitVec.shiftLeft_add]
    rfl

theorem crcLeft_eq (hw : w ≤ n) (hn : 8 ≤ n) {p : Params w} (hrefin : p.refin = false) (s : BitVec w) (data : List UInt8) :
    crcLeft (BitVec.twoPow n (n - 1)) (aligned n p.poly) (aligned n s) data = aligned n (p.run s data) := by
  induction data generalizing s with
  | nil => rfl
  | cons x data ih =>
    have hzero : aligned n (x.toBitVec <<< 8) = 0#n := by
      rw [BitVec.shiftLeft_eq_zero (Nat.le_refl 8), aligned, BitVec.setWidth_zero, BitVec.zero_shiftLeft]
    have hbits : bits p.refin x = (List.range 8).map fun i => x.toBitVec.getMsbD i := by
      rw [hrefin]
      refine List.map_congr_left fun i hi => ?_
      rw [BitVec.getMsbD_eq_getLsbD, decide_eq_true (List.mem_range.mp hi), Bool.true_and]
      rfl
    rw [show x :: data = [x] ++ data by rfl, Params.run_append, ← ih, Params.run, Params.message, List.flatMap_singleton, hbits]
    change crcLeft _ _ ((crcBitLeft _ (aligned n p.poly))^[8] (aligned n s ^^^ aligned n x.toBitVec)) data = _
    rw [crcLeft_bits hw hn, hzero, BitVec.xor_zero]

/-! ## The routines -/

/-- `f` gives out the check of these parameters, which is the remainder of a division, and goes on from where it stopped. -/
structure Computes (f : List UInt8 → BitVec n) (p : Params w) : Prop where
  crc : ∀ data, f data = (p.crc data).setWidth n
  remainder : ∀ data, toPoly (p.run p.init data) =
    (toPoly p.init * X ^ (8 * data.length) + messagePoly (p.message data) * X ^ w) %ₘ generator p.poly
  append : ∀ x y, f (x ++ y) = (p.output (p.run (p.run p.init x) y)).setWidth n

theorem computes_of_crc {f : List UInt8 → BitVec n} {p : Params w} (h : ∀ data, f data = (p.crc data).setWidth n) :
    Computes f p where
  crc := h
  remainder data := by rw [Params.run, toPoly_run, Params.length_message]
  append x y := by rw [h, Params.crc, Params.run_append]

theorem computes_right {f : List UInt8 → BitVec n} {p : Params w} (poly crc xorout : BitVec n)
    (hf : ∀ data, f data = crcRight poly crc data ^^^ xorout) (hw : w ≤ n ∧ 8 ≤ n) (href : p.refin = true ∧ p.refout = true)
    (hconst : poly = reflected n p.poly ∧ crc = reflected n p.init ∧ xorout = p.xorout.setWidth n) : Computes f p := by
  obtain ⟨hw, hn⟩ := hw
  obtain ⟨hrefin, hrefout⟩ := href
  obtain ⟨rfl, rfl, rfl⟩ := hconst
  refine computes_of_crc fun data => ?_
  rw [hf, crcRight_eq hw hn hrefin, Params.crc, Params.output, hrefout, if_pos rfl]
  refine BitVec.eq_of_getLsbD_eq fun i _ => ?_
  rw [BitVec.getLsbD_xor, reflected, getLsbD_setWidth_of_le _ hw, getLsbD_setWidth_of_le _ hw, getLsbD_setWidth_of_le _ hw,
    BitVec.getLsbD_xor]

theorem aligned_ushiftRight (s : BitVec w) (hw : w ≤ n) : aligned n s >>> (n - w) = s.setWidth n := by
  refine BitVec.eq_of_getLsbD_eq fun i _ => ?_
  rw [BitVec.getLsbD_ushiftRight, aligned, BitVec.getLsbD_shiftLeft, getLsbD_setWidth_of_le _ hw, getLsbD_setWidth_of_le _ hw,
    Nat.add_sub_cancel_left, decide_eq_false (show ¬n - w + i < n - w by omega), Bool.not_false, Bool.and_true]
  rcases Nat.lt_or_ge i w with hi | hi
  · rw [decide_eq_true (by omega), Bool.true_and]
  · rw [BitVec.getLsbD_of_ge s i hi, Bool.and_false]

theorem computes_left {f : List UInt8 → BitVec n} {p : Params w} (top poly crc xorout : BitVec n)
    (hf : ∀ data, f data = crcLeft top poly crc data >>> (n - w) ^^^ xorout) (hw : w ≤ n ∧ 8 ≤ n)
    (href : p.refin = false ∧ p.refout = false) (hconst : top = BitVec.twoPow n (n - 1) ∧ poly = aligned n p.poly ∧
      crc = aligned n p.init ∧ xorout = p.xorout.setWidth n) : Computes f p := by
  obtain ⟨hw, hn⟩ := hw
  obtain ⟨hrefin, hrefout⟩ := href
  obtain ⟨rfl, rfl, rfl, rfl⟩ := hconst
  refine computes_of_crc fun data => ?_
  rw [hf, crcLeft_eq hw hn hrefin, aligned_ushiftRight _ hw, Params.crc, Params.output, hrefout, if_neg Bool.false_ne_true]
  refine BitVec.eq_of_getLsbD_eq fun i _ => ?_
  rw [BitVec.getLsbD_xor, getLsbD_setWidth_of_le _ hw, getLsbD_setWidth_of_le _ hw, getLsbD_setWidth_of_le _ hw,
    BitVec.getLsbD_xor]

/-- The checks with their width, polynomial, first state, reflections and last exclusive or. -/
theorem crc_routines :
    Computes crc4Itu (w := 4) ⟨0x3, 0x0, true, true, 0x0⟩ ∧
      Computes crc5Epc (w := 5) ⟨0x09, 0x09, false, false, 0x00⟩ ∧
      Computes crc5Itu (w := 5) ⟨0x15, 0x00, true, true, 0x00⟩ ∧
      Computes crc5Usb (w := 5) ⟨0x05, 0x1F, true, true, 0x1F⟩ ∧
      Computes crc6Itu (w := 6) ⟨0x03, 0x00, true, true, 0x00⟩ ∧
      Computes crc7Mmc (w := 7) ⟨0x09, 0x00, false, false, 0x00⟩ ∧
      Computes crc8 (w := 8) ⟨0x07, 0x00, false, false, 0x00⟩ ∧
      Computes crc8Itu (w := 8) ⟨0x07, 0x00, false, false, 0x55⟩ ∧
      Computes crc8Rohc (w := 8) ⟨0x07, 0xFF, true, true, 0x00⟩ ∧
      Computes crc8Maxim (w := 8) ⟨0x31, 0x00, true, true, 0x00⟩ ∧
      Computes crc16Ibm (w := 16) ⟨0x8005, 0x0000, true, true, 0x0000⟩ ∧
      Computes crc16Maxim (w := 16) ⟨0x8005, 0x0000, true, true, 0xFFFF⟩ ∧
      Computes crc16Usb (w := 16) ⟨0x8005, 0xFFFF, true, true, 0xFFFF⟩ ∧
      Computes crc16Modbus (w := 16) ⟨0x8005, 0xFFFF, true, true, 0x0000⟩ ∧
      Computes crc16Ccitt (w := 16) ⟨0x1021, 0x0000, true, true, 0x0000⟩ ∧
      Computes crc16CcittFalse (w := 16) ⟨0x1021, 0xFFFF, false, false, 0x0000⟩ ∧
      Computes crc16X25 (w := 16) ⟨0x1021, 0xFFFF, true, true, 0xFFFF⟩ ∧
      Computes crc16Xmodem (w := 16) ⟨0x1021, 0x0000, false, false, 0x0000⟩ ∧
      Computes crc16Dnp (w := 16) ⟨0x3D65, 0x0000, true, true, 0xFFFF⟩ ∧
      Computes crc16Cus (w := 16) ⟨0x8005, 0xFFFF, false, false, 0xFFFF⟩ ∧
      Computes crc32 (w := 32) ⟨0x04C11DB7, 0xFFFFFFFF, true, true, 0xFFFFFFFF⟩ ∧
      Computes crc32Mpeg2 (w := 32) ⟨0x04C11DB7, 0xFFFFFFFF, false, false, 0x00000000⟩ ∧
      (∀ (n : ℕ) (poly crc : BitVec n) (x y : List UInt8), crcRight poly crc (x ++ y) = crcRight poly (crcRight poly crc x) y) ∧
      ∀ (n : ℕ) (top poly crc : BitVec n) (x y : List UInt8),
        crcLeft top poly crc (x ++ y) = crcLeft top poly (crcLeft top poly crc x) y := by
  have hzero {n : ℕ} (x : BitVec n) : x = x ^^^ 0#n := BitVec.xor_zero.symm
  have hsame {n : ℕ} (x : BitVec n) : x = x >>> (n - n) ^^^ 0#n := by
    rw [Nat.sub_self, BitVec.ushiftRight_zero, BitVec.xor_zero]
  have hnot {n : ℕ} (x : BitVec n) : ~~~x = x ^^^ BitVec.allOnes n := BitVec.xor_allOnes.symm
  exact ⟨
    computes_right 0x0C 0 0 (fun _ => hzero _) (by decide) (by decide) (by decide),
    computes_left 0x80 0x48 0x48 0 (fun _ => hzero _) (by decide) (by decide) (by decide),
    computes_right 0x15 0 0 (fun _ => hzero _) (by decide) (by decide) (by decide),
    computes_right 0x14 0x1F 0x1F (fun _ => rfl) (by decide) (by decide) (by decide),
    computes_right 0x30 0 0 (fun _ => hzero _) (by decide) (by decide) (by decide),
    computes_left 0x80 0x12 0 0 (fun _ => hzero _) (by decide) (by decide) (by decide),
    computes_left 0x80 0x07 0 0 (fun _ => hsame _) (by decide) (by decide) (by decide),
    computes_left 0x80 0x07 0 0x55 (fun _ => rfl) (by decide) (by decide) (by decide),
    computes_right 0xE0 0xFF 0 (fun _ => hzero _) (by decide) (by decide) (by decide),
    computes_right 0x8C 0 0 (fun _ => hzero _) (by decide) (by decide) (by decide),
    computes_right 0xA001 0 0 (fun _ => hzero _) (by decide) (by decide) (by decide +kernel),
    computes_right 0xA001 0 (BitVec.allOnes 16) (fun _ => hnot _) (by decide) (by decide) (by decide +kernel),
    computes_right 0xA001 0xffff (BitVec.allOnes 16) (fun _ => hnot _) (by decide) (by decide) (by decide +kernel),
    computes_right 0xA001 0xffff 0 (fun _ => hzero _) (by decide) (by decide) (by decide +kernel),
    computes_right 0x8408 0 0 (fun _ => hzero _) (by decide) (by decide) (by decide +kernel),
    computes_left 0x8000 0x1021 0xffff 0 (fun _ => hsame _) (by decide) (by decide) (by decide),
    computes_right 0x8408 0xffff (BitVec.allOnes 16) (fun _ => hnot _) (by decide) (by decide) (by decide +kernel),
    computes_left 0x8000 0x1021 0 0 (fun _ => hsame _) (by decide) (by decide) (by decide),
    computes_right 0xA6BC 0 (BitVec.allOnes 16) (fun _ => hnot _) (by decide) (by decide) (by decide +kernel),
    computes_left 0x8000 0x8005 0xFFFF (BitVec.allOnes 16) (fun _ => hnot _) (by decide) (by decide) (by decide),
    computes_right 0xEDB88320 0xffffffff (BitVec.allOnes 32) (fun _ => hnot _) (by decide) (by decide) (by decide +kernel),
    computes_left 0x80000000 0x04C11DB7 0xffffffff 0 (fun _ => hsame _) (by decide) (by decide) (by decide),
    fun _ _ _ _ _ => List.foldl_append, fun _ _ _ _ _ _ => List.foldl_append⟩

example : crc32 [49, 50, 51, 52, 53, 54, 55, 56, 57] = 0xCBF43926 := by decide +kernel

end Yjc
