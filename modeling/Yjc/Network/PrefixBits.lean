import Yjc.Network.Prefix

/-! The operations on prefixes by the bits of their addresses. -/

namespace Yjc.Network
open Mem BitPrefix ThreeWay

namespace Prefix
variable {p q : Prefix} {i j n : ℕ} {b : UInt8} {bs : List UInt8}

theorem val_eq (h : i < 48) : p.val i = some (p.byte i) := by
  rw [val, byte, List.getD_eq_getElem?_getD, List.getElem?_eq_getElem (by rw [p.length_u]; exact h), Option.getD_some]

theorem val_eq_none (h : 48 ≤ i) : p.val i = none := List.getElem?_eq_none (by rw [p.length_u]; exact h)

@[simp] theorem family_setByte : (p.setByte i b).family = p.family := rfl

@[simp] theorem prefixlen_setByte : (p.setByte i b).prefixlen = p.prefixlen := rfl

@[simp] theorem family_put : (p.put i bs).family = p.family := by
  induction bs generalizing p i with
  | nil => rfl
  | cons b bs ih => rw [put, ih, family_setByte]

@[simp] theorem prefixlen_put : (p.put i bs).prefixlen = p.prefixlen := by
  induction bs generalizing p i with
  | nil => rfl
  | cons b bs ih => rw [put, ih, prefixlen_setByte]

theorem byte_setByte (hi : i < 48) : (p.setByte i b).byte j = if j = i then b else p.byte j := by
  rw [byte, byte, setByte, List.getD_eq_getElem?_getD, List.getD_eq_getElem?_getD, List.getElem?_set]
  by_cases h : j = i
  · subst h
    rw [if_pos rfl, if_pos rfl, if_pos (by rw [p.length_u]; exact hi), Option.getD_some]
  · rw [if_neg (Ne.symm h), if_neg h]

theorem byte_put (h : i + bs.length ≤ 48) :
    (p.put i bs).byte j = if i ≤ j ∧ j < i + bs.length then bs.getD (j - i) 0 else p.byte j := by
  induction bs generalizing p i with
  | nil => rw [put, if_neg (by rw [List.length_nil]; omega)]
  | cons b bs ih =>
    rw [List.length_cons] at h ⊢
    rw [put, ih (by omega), byte_setByte (by omega)]
    by_cases hj : j = i
    · subst hj
      rw [if_neg (by omega), if_pos rfl, if_pos (by omega), Nat.sub_self, List.getD_cons_zero]
    · by_cases hin : i + 1 ≤ j ∧ j < i + 1 + bs.length
      · obtain ⟨k, rfl⟩ := Nat.exists_eq_add_of_le hin.1
        rw [if_pos hin, if_pos (by omega), show i + 1 + k - (i + 1) = k by omega, show i + 1 + k - i = k + 1 by omega,
          List.getD_cons_succ]
      · rw [if_neg hin, if_neg hj, if_neg (by omega)]

theorem slice_eq (h : i + n ≤ 48) : slice p.u i (i + n) = (List.range n).map fun k => p.byte (i + k) := by
  apply List.ext_getElem?
  intro k
  by_cases hk : k < n
  · rw [slice_getElem? (by omega), List.getElem?_map, List.getElem?_range hk, Option.map_some]
    exact val_eq (by omega)
  · rw [List.getElem?_eq_none (by rw [length_slice (by rw [p.length_u]; omega)]; omega),
      List.getElem?_eq_none (by rw [List.length_map, List.length_range]; omega)]

end Prefix

variable {n p q : Prefix} {k : ℕ} {np pp : ℕ → Option UInt8} {s t : ℕ → UInt8}

theorem maskbit_eq (h : k ≤ 8) : maskbit k = high k := by
  have hall : ∀ k : Fin 9, maskbit k = high k := by decide
  exact hall ⟨k, Nat.lt_succ_of_le h⟩

theorem sameDown_eq (hnp : ∀ i < k, np i = some (s i)) (hpp : ∀ i < k, pp i = some (t i)) :
    sameDown np pp k = some (if ∀ i < k, s i = t i then 1 else 0) := by
  induction k with
  | zero => rw [sameDown, if_pos fun i hi => absurd hi (Nat.not_lt_zero i)]
  | succ k ih =>
    rw [sameDown, hnp k k.lt_succ_self, hpp k k.lt_succ_self]
    change (if s k ≠ t k then _ else _) = _
    by_cases h : s k = t k
    · rw [if_neg (not_not_intro h), ih (fun i hi => hnp i (Nat.lt_succ_of_lt hi)) fun i hi => hpp i (Nat.lt_succ_of_lt hi)]
      simp only [Nat.forall_lt_succ_right, h, and_true]
    · rw [if_pos h]
      simp only [Nat.forall_lt_succ_right, h, and_false, if_false]

theorem toNat_div_mod {len : UInt16} (h : len.toNat ≤ 384) (hshift : len.toNat % 8 ≠ 0) : len.toNat / 8 < 48 := by omega

theorem prefixMatch_eq (hn : n.family ≠ afFlowspec) (hlen : n.prefixlen.toNat ≤ 384) :
    prefixMatch n p = some (if n.prefixlen ≤ p.prefixlen ∧ Agree n.prefixlen.toNat n.byte p.byte then 1 else 0) := by
  -- a prefix that is not of the flowspec family covers another one by its bits
  by_cases hle : p.prefixlen < n.prefixlen
  · rw [prefixMatch, if_pos hle, if_neg fun h => UInt16.not_le.mpr hle h.1]
  have hsame := sameDown_eq (k := n.prefixlen.toNat / 8) (s := n.byte) (t := p.byte) (fun i hi => Prefix.val_eq (by omega))
    fun i hi => Prefix.val_eq (by omega)
  rw [prefixMatch, if_neg hle, if_neg hn]
  simp only [UInt16.not_lt.mp hle, true_and, agree_iff]
  by_cases hshift : n.prefixlen.toNat % 8 = 0
  · rw [if_neg (not_not_intro hshift), hsame, hshift, high_zero, UInt8.and_zero, UInt8.and_zero]
    simp only [and_true]
  · have hk : n.prefixlen.toNat % 8 ≤ 8 := by omega
    have hval := toNat_div_mod hlen hshift
    rw [if_pos hshift, Prefix.val_eq hval, Prefix.val_eq hval, hsame]
    change (if _ &&& (_ ^^^ _) ≠ 0 then _ else _) = _
    rw [maskbit_eq hk]
    simp only [ne_eq, high_and_xor_eq_zero_iff hk]
    by_cases hlast : n.byte (n.prefixlen.toNat / 8) &&& high (n.prefixlen.toNat % 8) =
        p.byte (n.prefixlen.toNat / 8) &&& high (n.prefixlen.toNat % 8)
    · simp only [hlast, not_true, if_false, and_true]
    · simp only [hlast, not_false_iff, if_true, and_false, if_false]

theorem bit_sAddr (p : Prefix) {i j : ℕ} (hi : i < 4) : (sAddr p).toNat.testBit (8 * i + (7 - j)) = bit (p.byte i) j := by
  have hlen : (slice p.u 0 4).length = 4 := by rw [length_slice (by rw [p.length_u]; decide)]
  have hlt := LittleEndian.value_lt (slice p.u 0 4)
  rw [hlen] at hlt
  have hbyte : (slice p.u 0 4).getD i 0 = p.byte i := by
    rw [List.getD_eq_getElem?_getD, slice_getElem? (by omega), Nat.zero_add, Prefix.byte, List.getD_eq_getElem?_getD]
  rw [sAddr, UInt32.toNat_ofNat', Nat.mod_eq_of_lt hlt, LittleEndian.testBit_value _ _ (by omega), hbyte, bit]

theorem readBytes_eq (h : ∀ i < k, np i = some (s i)) : readBytes np k = some ((List.range k).map s) := by
  have hall : ∀ l : List ℕ, (∀ i ∈ l, i < k) → l.mapM np = some (l.map s) := by
    intro l hl
    induction l with
    | nil => rfl
    | cons i l ih =>
      rw [List.mapM_cons, h i (hl i List.mem_cons_self), ih fun j hj => hl j (List.mem_cons_of_mem i hj)]
      rfl
  exact hall _ fun i hi => List.mem_range.mp hi

theorem compareBytes_eq {l m : List UInt8} (h : l.length = m.length) :
    compareBytes l m = threeWay (l.map UInt8.toNat) (m.map UInt8.toNat) := by
  induction l generalizing m with
  | nil =>
    rw [List.length_eq_zero_iff.mp h.symm, List.map_nil, threeWay_eq_zero.mpr rfl]
    rfl
  | cons a l ih =>
    cases m with
    | nil => cases h
    | cons b m =>
      rw [compareBytes, List.map_cons, List.map_cons, threeWay_cons, ih (Nat.succ.inj h)]
      by_cases hab : a = b
      · rw [if_neg (not_not_intro hab), if_pos (congrArg _ hab)]
      · rw [if_pos hab, if_neg (mt UInt8.toNat_inj.mp hab)]

theorem memcmp_eq (hnp : ∀ i < k, np i = some (s i)) (hpp : ∀ i < k, pp i = some (t i)) :
    memcmp np pp k = some (threeWay ((List.range k).map fun i => (s i).toNat) ((List.range k).map fun i => (t i).toNat)) := by
  rw [memcmp, readBytes_eq hnp, readBytes_eq hpp]
  change some (compareBytes _ _) = _
  rw [compareBytes_eq (by rw [List.length_map, List.length_map]), List.map_map, List.map_map]
  rfl

theorem compareDown_eq (hnp : ∀ i < k, np i = some (s i)) (hpp : ∀ i < k, pp i = some (t i)) :
    compareDown np pp k =
      some (threeWay ((List.range k).reverse.map fun i => (s i).toNat) ((List.range k).reverse.map fun i => (t i).toNat)) := by
  induction k with
  | zero =>
    rw [compareDown, List.range_zero, List.reverse_nil, List.map_nil, List.map_nil, threeWay_eq_zero.mpr rfl]
  | succ k ih =>
    rw [compareDown, hnp k k.lt_succ_self, hpp k k.lt_succ_self, List.range_succ, List.reverse_append, List.reverse_singleton,
      List.singleton_append, List.map_cons, List.map_cons, threeWay_cons]
    change (if s k ≠ t k then _ else _) = _
    by_cases h : s k = t k
    · rw [if_neg (not_not_intro h), if_pos (congrArg _ h)]
      exact ih (fun i hi => hnp i (Nat.lt_succ_of_lt hi)) fun i hi => hpp i (Nat.lt_succ_of_lt hi)
    · rw [if_pos h, if_neg (mt UInt8.toNat_inj.mp h)]

/-- The network part: the whole bytes that the length covers, and the masked byte after them. -/
def networkPart (k : ℕ) (s : ℕ → UInt8) : List ℕ :=
  (List.range (k / 8)).map (fun i => (s i).toNat) ++ [(s (k / 8) &&& high (k % 8)).toNat]

theorem map_toNat_inj : ((List.range k).map fun i => (s i).toNat) = ((List.range k).map fun i => (t i).toNat) ↔ ∀ i < k, s i = t i := by
  rw [List.map_inj_left]
  exact forall_congr' fun i => by rw [List.mem_range, UInt8.toNat_inj]

theorem networkPart_inj : networkPart k s = networkPart k t ↔ Agree k s t := by
  rw [agree_iff]
  constructor
  · intro h
    obtain ⟨hbytes, hlast⟩ := List.append_inj h (by rw [List.length_map, List.length_map])
    exact ⟨map_toNat_inj.mp hbytes, UInt8.toNat_inj.mp (List.singleton_inj.mp hlast)⟩
  · rintro ⟨hbytes, hlast⟩
    rw [networkPart, networkPart, map_toNat_inj.mpr hbytes, hlast]

/-- What `prefixCmp` compares, in this order. -/
def key (mem : Memory) (p : Prefix) : List ℕ :=
  p.family.toNat ::
    if p.family = afFlowspec then
      p.fsPrefixlen :: (List.range p.fsPrefixlen).reverse.map fun i => ((mem (p.fsPtr + i)).getD 0).toNat
    else p.prefixlen.toNat :: networkPart p.prefixlen.toNat p.byte

/-- The network part lies within the union, or can be read through the pointer. -/
def Comparable (mem : Memory) (p : Prefix) : Prop :=
  if p.family = afFlowspec then ∀ i < p.fsPrefixlen, (mem (p.fsPtr + i)).isSome else p.prefixlen.toNat ≤ 8 * 48

variable {mem : Memory} {a b : Prefix}

theorem prefixCmp_of_family_ne (h : a.family ≠ b.family) : prefixCmp mem a b = some (threeWay (key mem a) (key mem b)) := by
  rw [prefixCmp, if_pos h, key, key, threeWay_cons, if_neg (mt UInt8.toNat_inj.mp h)]

theorem key_bits (h : a.family ≠ afFlowspec) :
    key mem a = a.family.toNat :: a.prefixlen.toNat :: networkPart a.prefixlen.toNat a.byte := by rw [key, if_neg h]

theorem key_flowspec (h : a.family = afFlowspec) : key mem a = a.family.toNat :: a.fsPrefixlen ::
    (List.range a.fsPrefixlen).reverse.map fun i => ((mem (a.fsPtr + i)).getD 0).toNat := by rw [key, if_pos h]

theorem prefixCmp_bits (hf : a.family = b.family) (ha : a.family ≠ afFlowspec) (hlen : a.prefixlen.toNat ≤ 8 * 48) :
    prefixCmp mem a b = some (threeWay (key mem a) (key mem b)) := by
  have hb : b.family ≠ afFlowspec := hf ▸ ha
  rw [prefixCmp, if_neg (not_not_intro hf), if_neg ha, key_bits ha, key_bits hb, threeWay_cons, if_pos (congrArg _ hf), threeWay_cons]
  by_cases hpl : a.prefixlen = b.prefixlen
  · have hmem : memcmp a.val b.val (a.prefixlen.toNat / 8) = _ :=
      memcmp_eq (fun i hi => Prefix.val_eq (by omega)) fun i hi => Prefix.val_eq (by omega)
    rw [if_neg (not_not_intro hpl), if_pos (congrArg _ hpl), ← hpl, networkPart, networkPart,
      threeWay_append (by rw [List.length_map, List.length_map])]
    change (memcmp a.val b.val (a.prefixlen.toNat / 8) >>= _) = _
    rw [hmem]
    change (if threeWay _ _ ≠ 0 then _ else _) = _
    by_cases hbytes : ((List.range (a.prefixlen.toNat / 8)).map fun i => (a.byte i).toNat) =
        (List.range (a.prefixlen.toNat / 8)).map fun i => (b.byte i).toNat
    · rw [if_neg (not_not_intro (threeWay_eq_zero.mpr hbytes)), if_pos hbytes]
      by_cases hshift : a.prefixlen.toNat % 8 = 0
      · rw [if_neg (not_not_intro hshift), hshift, high_zero, UInt8.and_zero, UInt8.and_zero, threeWay_eq_zero.mpr rfl]
      · have hval := toNat_div_mod hlen hshift
        rw [if_pos hshift, Prefix.val_eq hval, Prefix.val_eq hval, maskbit_eq (by omega), threeWay_singleton]
        rfl
    · rw [if_pos (mt threeWay_eq_zero.mp hbytes), if_neg hbytes]
  · rw [if_pos hpl, if_neg (mt UInt16.toNat_inj.mp hpl)]

theorem eq_some_getD {o : Option UInt8} (h : o.isSome) : o = some (o.getD 0) := by
  obtain ⟨x, rfl⟩ := Option.isSome_iff_exists.mp h
  rfl

theorem prefixCmp_flowspec (hf : a.family = b.family) (ha : a.family = afFlowspec) (hfs : a.fsFamily = b.fsFamily)
    (hca : Comparable mem a) (hcb : Comparable mem b) : prefixCmp mem a b = some (threeWay (key mem a) (key mem b)) := by
  have hb : b.family = afFlowspec := hf ▸ ha
  rw [Comparable, if_pos ha] at hca
  rw [Comparable, if_pos hb] at hcb
  rw [prefixCmp, if_neg (not_not_intro hf), if_pos ha, if_neg (not_not_intro hfs), key_flowspec ha, key_flowspec hb, threeWay_cons,
    if_pos (congrArg _ hf), threeWay_cons]
  by_cases hpl : a.fsPrefixlen = b.fsPrefixlen
  · rw [← hpl] at hcb
    rw [if_neg (not_not_intro hpl), if_pos hpl, ← hpl]
    exact compareDown_eq (fun i hi => eq_some_getD (hca i hi)) fun i hi => eq_some_getD (hcb i hi)
  · rw [if_pos hpl, if_neg hpl]

end Yjc.Network
