import Yjc.Network.PrefixOrder

/-! Copies of prefixes, and when two prefixes are the same, in `network/prefix.c`. -/

namespace Yjc.Network
open Mem BitPrefix ThreeWay

/-- The memory after `calloc` of `len` bytes has returned `temp`, which is 0 for `NULL`. -/
def calloc (mem : Memory) (temp len : ℕ) : Memory :=
  if temp = 0 then mem else fun a => if temp ≤ a ∧ a < temp + len then some 0 else mem a

/-- `none` for a read or a write that the memory does not have, or through `NULL`. -/
def memcpy (mem : Memory) (dst src len : ℕ) : Option Memory :=
  if len ≠ 0 ∧ dst = 0 then none
  else do
    let bs ← readBytes (fun i => mem (src + i)) len
    if ∀ i < len, (mem (dst + i)).isSome then
      return fun a => if dst ≤ a ∧ a < dst + len then some (bs.getD (a - dst) 0) else mem a
    else none

/-- A member of the union, at the bytes `[i, i + n)`, assigned. -/
def Prefix.assign (dest src : Prefix) (i n : ℕ) : Prefix := dest.put i (slice src.u i (i + n))

/-- The bytes that a member of the union without a pointer takes. -/
def memberSize (family : UInt8) : ℕ :=
  if family = afInet then 4 else if family = afInet6 then 16 else if family = afEthernet then 6 else 44

/-- `temp` is what `calloc` returns; `none` where the assertion fails or the memory is not there. -/
def prefixCopy (mem : Memory) (temp : ℕ) (dest src : Prefix) : Option (Memory × Prefix) :=
  let dest := { dest with family := src.family, prefixlen := src.prefixlen }
  if src.family = afInet then some (mem, dest.assign src 0 4)
  else if src.family = afInet6 then some (mem, dest.assign src 0 16)
  else if src.family = afEthernet then some (mem, dest.assign src 0 6)
  else if src.family = afEvpn then some (mem, dest.assign src 0 44)
  else if src.family = afUnspec then some (mem, (dest.assign src 0 4).assign src 4 4)
  else if src.family = afFlowspec then do
    let len := src.fsPrefixlen
    let dest := dest.put 2 (LittleEndian.bytes 2 src.fsPrefixlen)
    let dest := dest.put 0 [src.fsFamily]
    let mem := calloc mem temp len
    let dest := dest.put 8 (LittleEndian.bytes 8 temp)
    let mem ← memcpy mem dest.fsPtr src.fsPtr len
    return (mem, dest)
  else none

/-- `!i` -/
def lnot (i : ℤ) : ℤ := if i = 0 then 1 else 0

/-- `none` for a read outside of the prefixes. -/
def samePrefixes (p1 p2 : Prefix) : Option ℤ :=
  if p1.family = p2.family ∧ p1.prefixlen = p2.prefixlen then
    if p1.family = afInet then some (if sAddr p1 = sAddr p2 then 1 else 0)
    else if p1.family = afInet6 then (memcmp p1.val p2.val 16).map lnot
    else if p1.family = afEthernet then (memcmp p1.val p2.val 6).map lnot
    else if p1.family = afEvpn then (memcmp p1.val p2.val 44).map lnot
    else if p1.family = afFlowspec then
      if p1.fsFamily ≠ p2.fsFamily then some 0
      else if p1.fsPrefixlen ≠ p2.fsPrefixlen then some 0
      else (memcmp p1.ptrBytes p2.ptrBytes p2.fsPrefixlen).map lnot
    else some 0
  else some 0

def prefixSame : Option Prefix → Option Prefix → Option ℤ
  | some p1, some p2 => samePrefixes p1 p2
  | none, none => some 1
  | _, _ => some 0

variable {mem : Memory} {temp i j k n : ℕ} {d p a b : Prefix} {np pp : ℕ → Option UInt8} {s t : ℕ → UInt8}

namespace Prefix

theorem slice_getD (h : i + n ≤ 48) (hk : k < n) : (slice p.u i (i + n)).getD k 0 = p.byte (i + k) := by
  rw [slice_eq h, List.getD_eq_getElem?_getD, List.getElem?_map, List.getElem?_range hk]
  rfl

theorem length_slice_u (h : i + n ≤ 48) : (slice p.u i (i + n)).length = n := by
  rw [length_slice (by rw [p.length_u]; exact h), Nat.add_sub_cancel_left]

@[simp] theorem family_assign : (d.assign p i n).family = d.family := family_put

@[simp] theorem prefixlen_assign : (d.assign p i n).prefixlen = d.prefixlen := prefixlen_put

theorem byte_assign (h : i + n ≤ 48) : (d.assign p i n).byte j = if i ≤ j ∧ j < i + n then p.byte j else d.byte j := by
  rw [assign, byte_put (by rw [length_slice_u h]; exact h), length_slice_u h]
  by_cases hj : i ≤ j ∧ j < i + n
  · rw [if_pos hj, if_pos hj, slice_getD h (by omega), Nat.add_sub_cancel' hj.1]
  · rw [if_neg hj, if_neg hj]

theorem slice_of_bytes {bs : List UInt8} (h : i + bs.length ≤ 48) (hbytes : ∀ k < bs.length, p.byte (i + k) = bs.getD k 0) :
    slice p.u i (i + bs.length) = bs := by
  refine List.ext_getElem (length_slice_u h) fun k hk hk' => ?_
  have hget : (slice p.u i (i + bs.length)).getD k 0 = _ := slice_getD h hk'
  rw [hbytes k hk', List.getD_eq_getElem?_getD, List.getElem?_eq_getElem hk, List.getD_eq_getElem?_getD, List.getElem?_eq_getElem hk'] at hget
  exact hget

theorem fsPrefixlen_lt (p : Prefix) : p.fsPrefixlen < 2 ^ 16 := by
  have hlt := LittleEndian.value_lt (slice p.u 2 (2 + 2))
  rwa [length_slice_u (by decide)] at hlt

theorem fsPtr_lt (p : Prefix) : p.fsPtr < 2 ^ 64 := by
  have hlt := LittleEndian.value_lt (slice p.u 8 (8 + 8))
  rwa [length_slice_u (by decide)] at hlt

theorem byte_ptr (hi : i < 8) : p.byte (8 + i) = (LittleEndian.bytes 8 p.fsPtr).getD i 0 := by
  have hbytes := LittleEndian.bytes_value (slice p.u 8 (8 + 8))
  rw [length_slice_u (by decide)] at hbytes
  rw [fsPtr, hbytes, slice_getD (by decide) hi]

end Prefix

theorem memcmp_lnot (hnp : ∀ i < k, np i = some (s i)) (hpp : ∀ i < k, pp i = some (t i)) :
    (memcmp np pp k).map lnot = some (if ∀ i < k, s i = t i then 1 else 0) := by
  rw [memcmp_eq hnp hpp, Option.map_some, lnot]
  simp only [threeWay_eq_zero, map_toNat_inj]

theorem val_memcmp_same (hk : k ≤ 48) (h : ∀ i < k, a.byte i = b.byte i) : (memcmp a.val b.val k).map lnot = some 1 := by
  rw [@memcmp_lnot k a.val b.val a.byte b.byte (fun _ hi => Prefix.val_eq (Nat.lt_of_lt_of_le hi hk))
    fun _ hi => Prefix.val_eq (Nat.lt_of_lt_of_le hi hk), if_pos h]

/-- The families whose copies are those of a member without a pointer. -/
def HasMember (f : UInt8) : Prop := f = afInet ∨ f = afInet6 ∨ f = afEthernet ∨ f = afEvpn

theorem memberSize_le (f : UInt8) : memberSize f ≤ 44 := by
  rw [memberSize]
  split_ifs <;> decide

theorem prefixCopy_member (mem : Memory) (temp : ℕ) (d : Prefix) (h : HasMember p.family) :
    ∃ d', prefixCopy mem temp d p = some (mem, d') ∧ d'.family = p.family ∧ d'.prefixlen = p.prefixlen ∧
      ∀ j, d'.byte j = if j < memberSize p.family then p.byte j else d.byte j := by
  refine ⟨{ d with family := p.family, prefixlen := p.prefixlen }.assign p 0 (memberSize p.family), ?_, Prefix.family_assign,
    Prefix.prefixlen_assign, fun j => ?_⟩
  · obtain h | h | h | h := h <;> simp [prefixCopy, memberSize, h, afInet, afInet6, afEthernet, afEvpn]
  · have hsize := memberSize_le p.family
    rw [Prefix.byte_assign (by omega), Nat.zero_add]
    exact if_congr (and_iff_right (Nat.zero_le j)) rfl rfl

theorem samePrefixes_member (h : HasMember p.family) (hf : d.family = p.family) (hlen : d.prefixlen = p.prefixlen)
    (hbytes : ∀ i < memberSize p.family, d.byte i = p.byte i) : samePrefixes d p = some 1 := by
  rw [samePrefixes, if_pos ⟨hf, hlen⟩, hf]
  obtain h | h | h | h := h <;> rw [h] at hbytes ⊢
  · have haddr : sAddr d = sAddr p := by
      have hslice : slice d.u 0 (0 + 4) = slice p.u 0 (0 + 4) := by
        rw [Prefix.slice_eq (by decide), Prefix.slice_eq (by decide)]
        exact List.map_congr_left fun i hi => by rw [Nat.zero_add, hbytes i (List.mem_range.mp hi)]
      exact congrArg (fun bs => UInt32.ofNat (LittleEndian.value bs)) hslice
    rw [if_pos rfl, if_pos haddr]
  · rw [if_neg (by decide), if_pos rfl]
    exact val_memcmp_same (by decide) hbytes
  · rw [if_neg (by decide), if_neg (by decide), if_pos rfl]
    exact val_memcmp_same (by decide) hbytes
  · rw [if_neg (by decide), if_neg (by decide), if_neg (by decide), if_pos rfl]
    exact val_memcmp_same (by decide) hbytes

theorem sameDown_none (h : np k = none) : sameDown np pp (k + 1) = none := by rw [sameDown, h]; rfl

theorem prefixMatch_none (ha : a.family ≠ afFlowspec) (hle : a.prefixlen ≤ b.prefixlen) (hlen : 8 * 48 < a.prefixlen.toNat) :
    prefixMatch a b = none := by
  rw [prefixMatch, if_neg (UInt16.not_lt.mpr hle), if_neg ha]
  by_cases hshift : a.prefixlen.toNat % 8 = 0
  · rw [if_neg (not_not_intro hshift), show a.prefixlen.toNat / 8 = a.prefixlen.toNat / 8 - 1 + 1 by omega]
    exact sameDown_none (Prefix.val_eq_none (by omega))
  · rw [if_pos hshift, Prefix.val_eq_none (by omega)]
    rfl

/-- What the length covers past the copied member is the same already. -/
def RestAgrees (d p : Prefix) : Prop :=
  p.prefixlen.toNat ≤ 8 * 48 ∧ ∀ i, 8 * memberSize p.family ≤ i → i < p.prefixlen.toNat → bitAt d.byte i = bitAt p.byte i

theorem copied_member (h : HasMember p.family) :
    (∃ mem' d', prefixCopy mem temp d p = some (mem', d') ∧ prefixSame (some d') (some p) = some 1 ∧ prefixMatch d' p = some 1) ↔
      RestAgrees d p := by
  have hfs : p.family ≠ afFlowspec := by obtain h | h | h | h := h <;> rw [h] <;> decide
  obtain ⟨d', hcopy, hf, hlen, hbyte⟩ := prefixCopy_member mem temp d h
  have hsame : prefixSame (some d') (some p) = some 1 := samePrefixes_member h hf hlen fun i hi => by rw [hbyte, if_pos hi]
  -- the bits of the copy are those of `p` as far as the member goes
  have hagree : Agree p.prefixlen.toNat d'.byte p.byte ↔
      ∀ i, 8 * memberSize p.family ≤ i → i < p.prefixlen.toNat → bitAt d.byte i = bitAt p.byte i := by
    refine forall_congr' fun i => ?_
    rw [bitAt, hbyte]
    by_cases hi : i / 8 < memberSize p.family
    · rw [if_pos hi]
      exact iff_of_true (fun _ => rfl) fun hge => by omega
    · rw [if_neg hi]
      exact ⟨fun h _ => h, fun h => h (by omega)⟩
  have hmatch : prefixMatch d' p = some 1 ↔ RestAgrees d p := by
    by_cases hle : p.prefixlen.toNat ≤ 8 * 48
    · rw [prefixMatch_eq (hf ▸ hfs) (hlen ▸ hle), Option.some_inj, hlen, RestAgrees, ← hagree]
      split_ifs with hcond
      · exact iff_of_true rfl ⟨hle, hcond.2⟩
      · exact iff_of_false (by decide) fun hrest => hcond ⟨UInt16.le_refl _, hrest.2⟩
    · rw [prefixMatch_none (hf ▸ hfs) (UInt16.le_of_eq hlen) (by rw [hlen]; omega)]
      exact iff_of_false (fun h => by cases h) fun hrest => hle hrest.1
  rw [← hmatch]
  constructor
  · rintro ⟨mem', d'', hcopy', -, h⟩
    cases hcopy.symm.trans hcopy'
    exact h
  · exact fun h => ⟨mem, d', hcopy, hsame, h⟩

theorem not_same_unspec (h : p.family = afUnspec) :
    ¬∃ mem' d', prefixCopy mem temp d p = some (mem', d') ∧ prefixSame (some d') (some p) = some 1 ∧ prefixMatch d' p = some 1 := by
  rintro ⟨mem', d', -, hsame, -⟩
  have hzero : samePrefixes d' p = some 0 := by
    rw [samePrefixes]
    by_cases hf : d'.family = p.family ∧ d'.prefixlen = p.prefixlen
    · rw [if_pos hf, hf.1, h]
      rfl
    · exact if_neg hf
  rw [prefixSame, hzero] at hsame
  cases hsame


/-- What `calloc` returns on success is new. -/
def Fresh (mem : Memory) (temp len : ℕ) : Prop := temp < 2 ^ 64 ∧ ∀ i < len, mem (temp + i) = none

theorem readBytes_isSome (h : ∀ i < k, (np i).isSome) : ∃ bs, readBytes np k = some bs :=
  ⟨_, readBytes_eq fun i hi => eq_some_getD (h i hi)⟩

theorem readBytes_none (hi : i < k) (h : np i = none) : readBytes np k = none := by
  have hall : ∀ l : List ℕ, i ∈ l → l.mapM np = none := by
    intro l hl
    induction l with
    | nil => cases hl
    | cons j l ih =>
      rw [List.mapM_cons]
      rcases List.mem_cons.mp hl with rfl | hl
      · rw [h]
        rfl
      · rw [ih hl]
        cases np j <;> rfl
  exact hall _ (List.mem_range.mpr hi)

theorem memcpy_isSome {dst src len : ℕ} (h : len = 0 ∨ dst ≠ 0) (hsrc : ∀ i < len, (mem (src + i)).isSome)
    (hdst : ∀ i < len, (mem (dst + i)).isSome) : ∃ mem', memcpy mem dst src len = some mem' := by
  obtain ⟨bs, hbs⟩ : ∃ bs, readBytes (fun i => mem (src + i)) len = some bs := readBytes_isSome hsrc
  rw [memcpy, if_neg (by rintro ⟨hlen, hzero⟩; exact h.elim hlen fun h => h hzero), hbs]
  exact ⟨_, if_pos hdst⟩

theorem calloc_isSome {a len : ℕ} (h : (mem a).isSome) : (calloc mem temp len a).isSome := by
  rw [calloc]
  split_ifs
  · exact h
  · change (if _ then _ else _ : Option UInt8).isSome
    split_ifs
    · rfl
    · exact h

theorem prefixCopy_flowspec (mem : Memory) (d : Prefix) (hp : p.family = afFlowspec) (htemp : temp < 2 ^ 64) :
    ∃ d', prefixCopy mem temp d p = (memcpy (calloc mem temp p.fsPrefixlen) temp p.fsPtr p.fsPrefixlen).map (·, d') ∧
      d'.family = afFlowspec ∧ d'.prefixlen = p.prefixlen ∧ d'.fsFamily = p.fsFamily ∧ d'.fsPrefixlen = p.fsPrefixlen ∧
      ∀ i < 8, d'.byte (8 + i) = (LittleEndian.bytes 8 temp).getD i 0 := by
  have hcopied : ∃ d', d' = (((({ d with family := p.family, prefixlen := p.prefixlen } : Prefix).put 2
      (LittleEndian.bytes 2 p.fsPrefixlen)).put 0 [p.fsFamily]).put 8 (LittleEndian.bytes 8 temp)) := ⟨_, rfl⟩
  obtain ⟨d', hd⟩ := hcopied
  have hbyte (j : ℕ) : d'.byte j = if 8 ≤ j ∧ j < 8 + 8 then (LittleEndian.bytes 8 temp).getD (j - 8) 0
      else if 0 ≤ j ∧ j < 0 + 1 then [p.fsFamily].getD (j - 0) 0
      else if 2 ≤ j ∧ j < 2 + 2 then (LittleEndian.bytes 2 p.fsPrefixlen).getD (j - 2) 0 else d.byte j := by
    rw [hd, Prefix.byte_put (by rw [LittleEndian.length_bytes]; decide), LittleEndian.length_bytes,
      Prefix.byte_put (by rw [List.length_singleton]; decide),
      Prefix.byte_put (by rw [LittleEndian.length_bytes]; decide), LittleEndian.length_bytes]
    rfl
  have hptr : d'.fsPtr = temp := by
    have hslice := @Prefix.slice_of_bytes 8 d' (LittleEndian.bytes 8 temp)
      (by rw [LittleEndian.length_bytes]; decide) fun k hk => by
        rw [LittleEndian.length_bytes] at hk
        rw [hbyte, if_pos (by omega), Nat.add_sub_cancel_left]
    rw [LittleEndian.length_bytes] at hslice
    rw [Prefix.fsPtr, hslice, LittleEndian.value_bytes, Nat.mod_eq_of_lt htemp]
  have hlen : d'.fsPrefixlen = p.fsPrefixlen := by
    have hslice := @Prefix.slice_of_bytes 2 d' (LittleEndian.bytes 2 p.fsPrefixlen)
      (by rw [LittleEndian.length_bytes]; decide) fun k hk => by
        rw [LittleEndian.length_bytes] at hk
        rw [hbyte, if_neg (by omega), if_neg (by omega), if_pos (by omega), Nat.add_sub_cancel_left]
    rw [LittleEndian.length_bytes] at hslice
    rw [Prefix.fsPrefixlen, hslice, LittleEndian.value_bytes, Nat.mod_eq_of_lt p.fsPrefixlen_lt]
  refine ⟨d', ?_, by rw [hd]; simp [hp], by rw [hd]; simp, by rw [Prefix.fsFamily, hbyte]; rfl, hlen, fun i hi => ?_⟩
  · rw [prefixCopy, if_neg (by rw [hp]; decide), if_neg (by rw [hp]; decide), if_neg (by rw [hp]; decide), if_neg (by rw [hp]; decide),
      if_neg (by rw [hp]; decide), if_pos hp]
    change (memcpy _ (Prefix.fsPtr _) _ _ >>= fun mem => some (mem, _)) = _
    rw [← hd, hptr]
    cases memcpy (calloc mem temp p.fsPrefixlen) temp p.fsPtr p.fsPrefixlen <;> rfl
  · rw [hbyte, if_pos (by omega), Nat.add_sub_cancel_left]

/-- The bytes from the pointers on are the same, and lie within the prefixes. -/
def PtrsAgree (a b : Prefix) : Prop := a.fsPrefixlen ≤ 40 ∧ ∀ i < a.fsPrefixlen, a.byte (8 + i) = b.byte (8 + i)

theorem ptrBytes_eq (hi : i < 40) : p.ptrBytes i = some (p.byte (8 + i)) := Prefix.val_eq (by omega)

theorem ptrs_memcmp (hk : k ≤ 40) :
    (memcmp a.ptrBytes b.ptrBytes k).map lnot = some (if ∀ i < k, a.byte (8 + i) = b.byte (8 + i) then 1 else 0) :=
  memcmp_lnot (fun _ hi => ptrBytes_eq (Nat.lt_of_lt_of_le hi hk)) fun _ hi => ptrBytes_eq (Nat.lt_of_lt_of_le hi hk)

theorem ptrs_memcmp_none (hk : ¬k ≤ 40) : memcmp a.ptrBytes b.ptrBytes k = none := by
  have hnone : a.ptrBytes 40 = none := Prefix.val_eq_none (by decide)
  rw [memcmp, readBytes_none (by omega) hnone]
  rfl

theorem samePrefixes_flowspec (ha : a.family = afFlowspec) (hb : b.family = afFlowspec) (hlen : a.prefixlen = b.prefixlen)
    (hfs : a.fsFamily = b.fsFamily) (hfl : a.fsPrefixlen = b.fsPrefixlen) :
    samePrefixes a b = (memcmp a.ptrBytes b.ptrBytes a.fsPrefixlen).map lnot := by
  rw [samePrefixes, if_pos ⟨ha.trans hb.symm, hlen⟩, ha, if_neg (by decide), if_neg (by decide), if_neg (by decide), if_neg (by decide),
    if_pos rfl, if_neg (not_not_intro hfs), if_neg (not_not_intro hfl), hfl]

theorem same_iff_ptrsAgree (ha : a.family = afFlowspec) (hb : b.family = afFlowspec) (hlen : a.prefixlen = b.prefixlen)
    (hfs : a.fsFamily = b.fsFamily) (hfl : a.fsPrefixlen = b.fsPrefixlen) : samePrefixes a b = some 1 ↔ PtrsAgree a b := by
  rw [samePrefixes_flowspec ha hb hlen hfs hfl]
  by_cases hk : a.fsPrefixlen ≤ 40
  · rw [ptrs_memcmp hk, Option.some_inj]
    split_ifs with h
    · exact iff_of_true rfl ⟨hk, h⟩
    · exact iff_of_false (by decide) fun hagree => h hagree.2
  · rw [ptrs_memcmp_none hk]
    exact iff_of_false (fun h => by cases h) fun hagree => hk hagree.1

theorem match_of_ptrsAgree (ha : a.family = afFlowspec) (hlen : a.prefixlen = b.prefixlen)
    (hfs : a.fsFamily = b.fsFamily) (hfl : a.fsPrefixlen = b.fsPrefixlen) (h : PtrsAgree a b) : prefixMatch a b = some 1 := by
  have hsame : sameDown a.ptrBytes b.ptrBytes a.fsPrefixlen = _ :=
    sameDown_eq (fun i hi => ptrBytes_eq (Nat.lt_of_lt_of_le hi h.1)) fun i hi => ptrBytes_eq (Nat.lt_of_lt_of_le hi h.1)
  rw [prefixMatch, if_neg (UInt16.not_lt.mpr (UInt16.le_of_eq hlen)), if_pos ha, if_neg (not_not_intro hfs), if_neg (by omega), hsame,
    if_pos h.2]

/-- The new pointer has the low bytes of the old one, as many as there are bytes behind them. -/
def PointersLookEqual (temp : ℕ) (p : Prefix) : Prop :=
  p.fsPrefixlen = 0 ∨ temp ≠ 0 ∧ p.fsPrefixlen < 8 ∧ LittleEndian.bytes p.fsPrefixlen temp = LittleEndian.bytes p.fsPrefixlen p.fsPtr

theorem ptrs_iff_bytes (hptr : ∀ i < 8, d.byte (8 + i) = (LittleEndian.bytes 8 temp).getD i 0) (hk : k ≤ 8) :
    (∀ i < k, d.byte (8 + i) = p.byte (8 + i)) ↔ LittleEndian.bytes k temp = LittleEndian.bytes k p.fsPtr := by
  rw [LittleEndian.bytes_inj]
  refine forall₂_congr fun i hi => ?_
  have hi8 := Nat.lt_of_lt_of_le hi hk
  rw [hptr i hi8, Prefix.byte_ptr hi8, LittleEndian.getD_bytes hi, LittleEndian.getD_bytes hi, LittleEndian.getD_bytes hi8,
    LittleEndian.getD_bytes hi8]

theorem copied_flowspec (hp : p.family = afFlowspec) (hcomp : Comparable mem p) (hfresh : Fresh mem temp p.fsPrefixlen) :
    (∃ mem' d', prefixCopy mem temp d p = some (mem', d') ∧ prefixSame (some d') (some p) = some 1 ∧ prefixMatch d' p = some 1) ↔
      PointersLookEqual temp p := by
  rw [Comparable, if_pos hp] at hcomp
  obtain ⟨d', hcopy, hf, hlen, hfs, hfl, hptr⟩ := prefixCopy_flowspec mem d hp hfresh.1
  have hsame := same_iff_ptrsAgree hf hp hlen hfs hfl
  rw [PtrsAgree, hfl] at hsame
  constructor
  · rintro ⟨mem', d'', hcopy', h, -⟩
    obtain ⟨mem'', hcpy, heq⟩ := Option.map_eq_some_iff.mp (hcopy.symm.trans hcopy')
    cases heq
    obtain ⟨-, hbytes⟩ := hsame.mp h
    refine or_iff_not_imp_left.mpr fun h0 => ⟨fun htemp => ?_, ?_⟩
    · rw [memcpy, if_pos ⟨h0, htemp⟩] at hcpy
      cases hcpy
    · have hshort : p.fsPrefixlen < 8 := by
        by_contra hlong
        -- all of the pointer's bytes agree, so that the new memory is the old one
        have hall := (ptrs_iff_bytes hptr (le_refl 8)).mp fun i hi => hbytes i (by omega)
        have hvalue := congrArg LittleEndian.value hall
        rw [LittleEndian.value_bytes, LittleEndian.value_bytes, Nat.mod_eq_of_lt hfresh.1, Nat.mod_eq_of_lt p.fsPtr_lt] at hvalue
        have hold := hcomp 0 (by omega)
        rw [← hvalue, hfresh.2 0 (by omega)] at hold
        cases hold
      exact ⟨hshort, (ptrs_iff_bytes hptr (by omega)).mp hbytes⟩
  · intro h
    obtain ⟨mem', hcpy⟩ : ∃ mem', memcpy (calloc mem temp p.fsPrefixlen) temp p.fsPtr p.fsPrefixlen = some mem' := by
      apply memcpy_isSome (h.imp_right And.left) (fun i hi => calloc_isSome (hcomp i hi))
      intro i hi
      rw [calloc, if_neg (h.elim (fun h0 => by omega) And.left)]
      rw [if_pos (by omega)]
      rfl
    have hbytes : p.fsPrefixlen ≤ 40 ∧ ∀ i < p.fsPrefixlen, d'.byte (8 + i) = p.byte (8 + i) := by
      rcases h with h0 | ⟨-, hshort, hlow⟩
      · exact ⟨by omega, fun i hi => by omega⟩
      · exact ⟨by omega, (ptrs_iff_bytes hptr hshort.le).mpr hlow⟩
    refine ⟨mem', d', by rw [hcopy, hcpy]; rfl, hsame.mpr hbytes, match_of_ptrsAgree hf hlen hfs hfl ?_⟩
    rwa [PtrsAgree, hfl]

/-- When the copy passes for the same prefix. -/
def CopyLooksSame (temp : ℕ) (d p : Prefix) : Prop :=
  if p.family = afFlowspec then PointersLookEqual temp p else p.family ≠ afUnspec ∧ RestAgrees d p

/-- When comparing the pointers' bytes says the same as comparing what they point to. -/
def PointersTell (mem : Memory) (a b : Prefix) : Prop :=
  a.fsFamily = b.fsFamily → a.fsPrefixlen = b.fsPrefixlen →
    if a.prefixlen = b.prefixlen then
      a.fsPrefixlen ≤ 40 ∧ ((∀ i < a.fsPrefixlen, a.byte (8 + i) = b.byte (8 + i)) ↔
        ∀ i < a.fsPrefixlen, mem (a.fsPtr + i) = mem (b.fsPtr + i))
    else ¬∀ i < a.fsPrefixlen, mem (a.fsPtr + i) = mem (b.fsPtr + i)

theorem sameNetwork_flowspec (ha : a.family = afFlowspec) (hb : b.family = afFlowspec) : SameNetwork mem a b ↔
    a.fsFamily = b.fsFamily ∧ a.fsPrefixlen = b.fsPrefixlen ∧ ∀ i < a.fsPrefixlen, mem (a.fsPtr + i) = mem (b.fsPtr + i) := by
  rw [SameNetwork, if_pos ha, and_iff_right (ha.trans hb.symm)]

theorem prefixCmp_zero_flowspec (ha : a.family = afFlowspec) (hb : b.family = afFlowspec) (hca : Comparable mem a)
    (hcb : Comparable mem b) : prefixCmp mem a b = some 0 ↔ SameNetwork mem a b := by
  by_cases hfs : a.fsFamily = b.fsFamily
  · rw [prefixCmp_key hca hcb fun _ _ => hfs, Option.some_inj, threeWay_eq_zero, key_inj hca hcb fun _ _ => hfs]
  · rw [prefixCmp_fsFamily_ne ha hb hfs, sameNetwork_flowspec ha hb]
    exact iff_of_false (fun h => by cases h) fun h => hfs h.1

theorem samePrefixes_zero (ha : a.family = afFlowspec) (hb : b.family = afFlowspec)
    (h : ¬(a.prefixlen = b.prefixlen ∧ a.fsFamily = b.fsFamily ∧ a.fsPrefixlen = b.fsPrefixlen)) : samePrefixes a b = some 0 := by
  rw [samePrefixes]
  by_cases hlen : a.prefixlen = b.prefixlen
  · rw [if_pos ⟨ha.trans hb.symm, hlen⟩, ha, if_neg (by decide), if_neg (by decide), if_neg (by decide), if_neg (by decide), if_pos rfl]
    by_cases hfs : a.fsFamily = b.fsFamily
    · rw [if_neg (not_not_intro hfs), if_pos fun hfl => h ⟨hlen, hfs, hfl⟩]
    · exact if_pos hfs
  · exact if_neg fun heq => hlen heq.2

theorem exists_answer {P Q : Prop} [Decidable P] : (∃ r : ℤ, some (if P then 1 else 0) = some r ∧ (r = 1 ↔ Q)) ↔ (P ↔ Q) := by
  by_cases h : P <;> simp [h]

theorem same_flowspec (ha : a.family = afFlowspec) (hb : b.family = afFlowspec) (hca : Comparable mem a) (hcb : Comparable mem b) :
    (∃ r, prefixSame (some a) (some b) = some r ∧ (r = 1 ↔ SameNetwork mem a b) ∧ (r = 1 ↔ prefixCmp mem a b = some 0)) ↔
      PointersTell mem a b := by
  simp only [prefixCmp_zero_flowspec ha hb hca hcb, and_self, sameNetwork_flowspec ha hb, prefixSame]
  by_cases hfs : a.fsFamily = b.fsFamily ∧ a.fsPrefixlen = b.fsPrefixlen
  · obtain ⟨hfs, hfl⟩ := hfs
    simp only [PointersTell, hfs, hfl, true_imp_iff, true_and]
    rw [← hfl]
    by_cases hlen : a.prefixlen = b.prefixlen
    · rw [samePrefixes_flowspec ha hb hlen hfs hfl, if_pos hlen]
      by_cases hk : a.fsPrefixlen ≤ 40
      · rw [ptrs_memcmp hk, and_iff_right hk]
        exact exists_answer
      · rw [ptrs_memcmp_none hk]
        exact iff_of_false (fun ⟨r, hr, _⟩ => by cases hr) fun h => hk h.1
    · rw [samePrefixes_zero ha hb fun h => hlen h.1, if_neg hlen]
      simp
  · rw [samePrefixes_zero ha hb fun h => hfs h.2]
    refine iff_of_true ⟨0, rfl, iff_of_false (by decide) fun h => hfs ⟨h.1, h.2.1⟩⟩ fun h h' => absurd ⟨h, h'⟩ hfs

/-- A copy is the same prefix, and `prefix_same` of flowspec prefixes is that of what they point to, exactly under these conditions. -/
theorem copied_prefix_same_iff (mem : Memory) :
    (∀ temp d p, p.family ≠ afFlowspec ∧ (HasMember p.family ∨ p.family = afUnspec) ∨
        p.family = afFlowspec ∧ Comparable mem p ∧ Fresh mem temp p.fsPrefixlen →
      ((∃ mem' d', prefixCopy mem temp d p = some (mem', d') ∧ prefixSame (some d') (some p) = some 1 ∧ prefixMatch d' p = some 1) ↔
        CopyLooksSame temp d p)) ∧
    ∀ a b, a.family = afFlowspec → b.family = afFlowspec → Comparable mem a → Comparable mem b →
      ((∃ r, prefixSame (some a) (some b) = some r ∧ (r = 1 ↔ SameNetwork mem a b) ∧ (r = 1 ↔ prefixCmp mem a b = some 0)) ↔
        PointersTell mem a b) := by
  refine ⟨fun temp d p hp => ?_, fun a b ha hb hca hcb => same_flowspec ha hb hca hcb⟩
  rcases hp with ⟨hfs, hmember | hunspec⟩ | ⟨hfs, hcomp, hfresh⟩
  · have hne : p.family ≠ afUnspec := by obtain h | h | h | h := hmember <;> rw [h] <;> decide
    rw [CopyLooksSame, if_neg hfs, and_iff_right hne, copied_member hmember]
  · rw [CopyLooksSame, if_neg hfs]
    exact iff_of_false (not_same_unspec hunspec) fun h => h.1 hunspec
  · rw [CopyLooksSame, if_pos hfs, copied_flowspec hfs hcomp hfresh]

/-- One byte behind a pointer to 1000, copied to 1001. -/
theorem copied_prefix_differs : (prefixCopy (fun a => if a = 1000 then some 7 else none) 1001 ⟨afUnspec, 0, List.replicate 48 0, by decide⟩
    ⟨afFlowspec, 0, afInet :: 0 :: 1 :: 0 :: 0 :: 0 :: 0 :: 0 :: 0xe8 :: 0x03 :: List.replicate 38 0, by decide⟩).map (fun r =>
      (prefixSame (some r.2) (some ⟨afFlowspec, 0, afInet :: 0 :: 1 :: 0 :: 0 :: 0 :: 0 :: 0 :: 0xe8 :: 0x03 :: List.replicate 38 0, by decide⟩),
        prefixCmp r.1 r.2 ⟨afFlowspec, 0, afInet :: 0 :: 1 :: 0 :: 0 :: 0 :: 0 :: 0 :: 0xe8 :: 0x03 :: List.replicate 38 0, by decide⟩)) =
    some (some 0, some 0) := by
  decide +kernel

theorem copied_prefix_same_iff_sample : ∃ mem' d', prefixCopy (fun _ => none) 0 ⟨afUnspec, 0, List.replicate 48 0, by decide⟩
      ⟨afInet, 8, 10 :: List.replicate 47 1, by decide⟩ = some (mem', d') ∧
    prefixSame (some d') (some ⟨afInet, 8, 10 :: List.replicate 47 1, by decide⟩) = some 1 ∧
    prefixMatch d' ⟨afInet, 8, 10 :: List.replicate 47 1, by decide⟩ = some 1 := by
  refine ((copied_prefix_same_iff fun _ => none).1 0 _ _ (.inl ⟨by decide, .inl (.inl rfl)⟩)).mpr ?_
  rw [CopyLooksSame, if_neg (by decide)]
  exact ⟨by decide, by decide, fun i hge hlt => absurd (Nat.lt_of_le_of_lt hge hlt) (by decide)⟩

end Yjc.Network
