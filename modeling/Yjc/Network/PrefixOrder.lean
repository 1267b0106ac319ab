import Yjc.Network.PrefixBits

/-! The order of prefixes that `prefix_cmp` gives, in `network/prefix.c`. -/

namespace Yjc.Network
open BitPrefix ThreeWay
variable {mem : Memory} {S : Prefix → Prop} {a b : Prefix}

/-- Family, length and network part are the same; those of a flowspec prefix are behind its pointer. -/
def SameNetwork (mem : Memory) (a b : Prefix) : Prop :=
  a.family = b.family ∧
    if a.family = afFlowspec then
      a.fsFamily = b.fsFamily ∧ a.fsPrefixlen = b.fsPrefixlen ∧ ∀ i < a.fsPrefixlen, mem (a.fsPtr + i) = mem (b.fsPtr + i)
    else a.prefixlen = b.prefixlen ∧ Agree a.prefixlen.toNat a.byte b.byte

/-- The signs of the comparison are those of a linear order of the prefixes in `S`, with the same networks as its equals. -/
structure LinearOn (mem : Memory) (S : Prefix → Prop) : Prop where
  compares : ∀ a b, S a → S b → ∃ r, prefixCmp mem a b = some r
  antisymm : ∀ a b, S a → S b → ∀ r s, prefixCmp mem a b = some r → prefixCmp mem b a = some s → (r < 0 ↔ 0 < s)
  trans : ∀ a b c, S a → S b → S c → ∀ r s t, prefixCmp mem a b = some r → prefixCmp mem b c = some s → prefixCmp mem a c = some t →
    r ≤ 0 → s ≤ 0 → t ≤ 0
  zero : ∀ a b, S a → S b → (prefixCmp mem a b = some 0 ↔ SameNetwork mem a b)

/-- All flowspec prefixes have one flowspec family. -/
def OneFsFamily (S : Prefix → Prop) : Prop :=
  ∀ a b, S a → S b → a.family = afFlowspec → b.family = afFlowspec → a.fsFamily = b.fsFamily

theorem prefixCmp_key (ha : Comparable mem a) (hb : Comparable mem b)
    (hfs : a.family = afFlowspec → b.family = afFlowspec → a.fsFamily = b.fsFamily) :
    prefixCmp mem a b = some (threeWay (key mem a) (key mem b)) := by
  by_cases hf : a.family = b.family
  · by_cases h : a.family = afFlowspec
    · exact prefixCmp_flowspec hf h (hfs h (hf ▸ h)) ha hb
    · rw [Comparable, if_neg h] at ha
      exact prefixCmp_bits hf h ha
  · exact prefixCmp_of_family_ne hf

theorem reverse_map_inj {n : ℕ} {s t : ℕ → ℕ} : (List.range n).reverse.map s = (List.range n).reverse.map t ↔ ∀ i < n, s i = t i := by
  rw [List.map_inj_left]
  exact forall_congr' fun i => by rw [List.mem_reverse, List.mem_range]

theorem key_inj (ha : Comparable mem a) (hb : Comparable mem b)
    (hfs : a.family = afFlowspec → b.family = afFlowspec → a.fsFamily = b.fsFamily) : key mem a = key mem b ↔ SameNetwork mem a b := by
  by_cases hf : a.family = b.family
  · by_cases h : a.family = afFlowspec
    · have hbf : b.family = afFlowspec := hf ▸ h
      rw [Comparable, if_pos h] at ha
      rw [Comparable, if_pos hbf] at hb
      rw [key_flowspec h, key_flowspec hbf, SameNetwork, if_pos h, hf, List.cons_eq_cons, List.cons_eq_cons]
      refine and_congr (iff_of_true rfl rfl) ?_
      rw [and_iff_right (hfs h hbf)]
      refine and_congr_right fun hlen => ?_
      rw [← hlen] at hb ⊢
      rw [reverse_map_inj]
      refine forall₂_congr fun i hi => ?_
      rw [UInt8.toNat_inj]
      refine ⟨fun heq => ?_, fun heq => by rw [heq]⟩
      rw [eq_some_getD (ha i hi), eq_some_getD (hb i hi), heq]
    · rw [key_bits h, key_bits (hf ▸ h), SameNetwork, if_neg h, hf, List.cons_eq_cons, List.cons_eq_cons, UInt16.toNat_inj]
      refine and_congr (iff_of_true rfl rfl) (and_congr_right fun hlen => ?_)
      rw [← hlen, networkPart_inj]
  · refine iff_of_false (fun h => hf ?_) fun h => hf h.1
    rw [key, key] at h
    exact UInt8.toNat_inj.mp (List.cons_eq_cons.mp h).1

theorem prefixCmp_fsFamily_ne (ha : a.family = afFlowspec) (hb : b.family = afFlowspec) (h : a.fsFamily ≠ b.fsFamily) :
    prefixCmp mem a b = some 1 := by
  rw [prefixCmp, if_neg (not_not_intro (ha.trans hb.symm)), if_pos ha, if_pos h]

/-- `prefix_cmp` orders the prefixes of `S` linearly exactly when no two of its flowspec prefixes have different flowspec families. -/
theorem prefixCmp_linear_iff (hS : ∀ p, S p → Comparable mem p) : LinearOn mem S ↔ OneFsFamily S := by
  constructor
  · intro h a b ha hb haf hbf
    by_contra hne
    have hsign := h.antisymm a b ha hb 1 1 (prefixCmp_fsFamily_ne haf hbf hne) (prefixCmp_fsFamily_ne hbf haf (Ne.symm hne))
    omega
  · intro h
    have hkey {a b : Prefix} (ha : S a) (hb : S b) := prefixCmp_key (hS a ha) (hS b hb) (h a b ha hb)
    have horder := totalPreorder_key (key mem)
    refine ⟨fun a b ha hb => ⟨_, hkey ha hb⟩, fun a b ha hb r s hr hs => ?_, fun a b c ha hb hc r s t hr hs ht => ?_, fun a b ha hb => ?_⟩
    · cases (hkey ha hb).symm.trans hr
      cases (hkey hb ha).symm.trans hs
      exact horder.swap a b
    · cases (hkey ha hb).symm.trans hr
      cases (hkey hb hc).symm.trans hs
      cases (hkey ha hc).symm.trans ht
      exact horder.trans a b c
    · rw [hkey ha hb, Option.some_inj, threeWay_eq_zero, key_inj (hS a ha) (hS b hb) (h a b ha hb)]

/-- Two flowspec prefixes without bytes, for IPv4 and for IPv6. -/
theorem prefixCmp_not_linear : ¬LinearOn (fun _ => none) fun p => p = ⟨afFlowspec, 0, afInet :: List.replicate 47 0, by decide⟩ ∨
    p = ⟨afFlowspec, 0, afInet6 :: List.replicate 47 0, by decide⟩ := by
  intro h
  have hsign := h.antisymm _ _ (.inl rfl) (.inr rfl) 1 1 (by decide +kernel) (by decide +kernel)
  omega

theorem prefixCmp_linear_iff_sample : LinearOn (fun _ => none) (fun p => p.family = afInet ∧ p.prefixlen.toNat ≤ 32) := by
  refine (prefixCmp_linear_iff ?_).mpr fun a _ ha _ h _ => absurd (ha.1.symm.trans h) (by decide)
  rintro p ⟨hf, hlen⟩
  rw [Comparable, if_neg (by rw [hf]; decide)]
  omega

end Yjc.Network
