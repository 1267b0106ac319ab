import Mathlib.Data.Fintype.Card
import Mathlib.Data.Set.Finite.Basic
import Mathlib.Order.Interval.Finset.Nat
import Yjc.Lib.CInt
import Yjc.Lib.SearchTree
import Yjc.Network.Vrf

/-! The order of the VRFs by their identifiers, in `network/vrf.c`. -/

namespace Yjc.Network

/-- The difference of two `vrf_id_t`, which `vrf_id_compare` returns as an `int`. -/
def idCompare (a b : ℕ) : ℤ := cInt ((a : ℤ) - b)

def vrfIdCompare (a b : Vrf) : ℤ := idCompare a.vrfId b.vrfId

/-- `RB_INSERT` of `vrf_id_head`, where `insertColor` is `rbe_insert_color`. -/
def rbInsert (insertColor : Vrf → RbTree Vrf → RbTree Vrf) (t : RbTree Vrf) (vrf : Vrf) : RbTree Vrf :=
  match t.find (vrfIdCompare vrf) with
  | some _ => t
  | none => insertColor vrf (t.link (fun e => vrfIdCompare vrf e < 0) vrf)

/-- `vrf_lookup_by_id` in the tree `t`. -/
def lookupById (t : RbTree Vrf) (vrfId : ℕ) : Option Vrf := t.find fun vrf => idCompare vrfId vrf.vrfId

/-- Colours and rotations leave the vrfs in their order. -/
def KeepsInorder (insertColor : Vrf → RbTree Vrf → RbTree Vrf) : Prop := ∀ vrf t, (insertColor vrf t).inorder = t.inorder

/-- The comparison is a total order of the identifiers in `S`, so that the tree finds each of those that are inserted, in any order. -/
structure OrdersIds (S : Set ℕ) : Prop where
  zero : ∀ a ∈ S, ∀ b ∈ S, idCompare a b = 0 ↔ a = b
  swap : ∀ a ∈ S, ∀ b ∈ S, idCompare a b < 0 ↔ 0 < idCompare b a
  trans : ∀ a ∈ S, ∀ b ∈ S, ∀ c ∈ S, idCompare a b < 0 → idCompare b c < 0 → idCompare a c < 0
  finds : ∀ insertColor, KeepsInorder insertColor → ∀ vrfs : List Vrf, (∀ vrf ∈ vrfs, vrf.vrfId ∈ S) → ∀ vrf ∈ vrfs,
    ∃ w ∈ vrfs, w.vrfId = vrf.vrfId ∧ lookupById (vrfs.foldl (rbInsert insertColor) .nil) vrf.vrfId = some w

/-- How far the identifier is above `m`, in the circle of the 32-bit numbers. -/
def above (m : ℤ) (x : ℕ) : ℤ := (x - m) % 2 ^ 32

/-- The identifier is in the half of the circle that begins at `m`. -/
structure Half (m : ℤ) (x : ℕ) : Prop where
  lt : x < 2 ^ 32
  above_lt : above m x < 2 ^ 31

variable {S : Set ℕ} {m : ℤ} {a b : ℕ}

theorem idCompare_eq (ha : Half m a) (hb : Half m b) : idCompare a b = above m a - above m b := by
  have ha := ha.above_lt
  have hb := hb.above_lt
  rw [idCompare, cInt, Int.bmod_def]
  unfold above at *
  omega

theorem above_inj (ha : Half m a) (hb : Half m b) : above m a - above m b = 0 ↔ a = b := by
  have ha := ha.lt
  have hb := hb.lt
  unfold above
  omega

theorem idCompare_neg : idCompare a b < 0 ↔ 2 ^ 31 ≤ above b a := by
  rw [idCompare, cInt, Int.bmod_def, above]
  omega

/-! ## Insertions in half of the circle -/

/-- The tree is sorted by the positions, and its identifiers are those of the vrfs `vrfs`. -/
structure Sorts (m : ℤ) (vrfs : List Vrf) (t : RbTree Vrf) : Prop where
  half : ∀ vrf ∈ vrfs, Half m vrf.vrfId
  sorted : RbTree.Sorted (fun x y => above m x - above m y) Vrf.vrfId t.inorder
  mem : ∀ vrf ∈ t.inorder, vrf ∈ vrfs
  found : ∀ vrf ∈ vrfs, ∃ w ∈ t.inorder, w.vrfId = vrf.vrfId

section Insert
variable {vrfs inserted : List Vrf} {vrf : Vrf} {t : RbTree Vrf} {insertColor : Vrf → RbTree Vrf → RbTree Vrf}

theorem Sorts.find_eq (h : Sorts m inserted t) (ha : Half m a) :
    (t.find fun e => idCompare a e.vrfId) = t.find fun e => above m a - above m e.vrfId :=
  RbTree.find_congr fun e he => idCompare_eq ha (h.half e (h.mem e he))

theorem Sorts.insert (h : Sorts m inserted t) (hcolor : KeepsInorder insertColor) (hvrf : Half m vrf.vrfId) :
    Sorts m (inserted ++ [vrf]) (rbInsert insertColor t vrf) := by
  have hhalf : ∀ e ∈ inserted ++ [vrf], Half m e.vrfId := by
    intro e he
    obtain he | rfl := (List.mem_append.trans (or_congr_right List.mem_singleton)).mp he
    · exact h.half e he
    · exact hvrf
  rw [rbInsert]
  unfold vrfIdCompare
  rw [h.find_eq hvrf]
  cases hfind : t.find fun e => above m vrf.vrfId - above m e.vrfId with
  | some w =>
    -- the identifier is in the tree already
    obtain ⟨hw, hzero⟩ := @RbTree.find_mem _ _ (fun x y => above m x - above m y) Vrf.vrfId t w vrf.vrfId hfind
    have hid := (above_inj hvrf (h.half w (h.mem w hw))).mp hzero
    refine ⟨hhalf, h.sorted, fun e he => List.mem_append_left _ (h.mem e he), fun e he => ?_⟩
    obtain he | rfl := (List.mem_append.trans (or_congr_right List.mem_singleton)).mp he
    · exact h.found e he
    · exact ⟨w, hw, hid.symm⟩
  | none =>
    have hlink : (t.link (fun e => idCompare vrf.vrfId e.vrfId < 0) vrf) =
        t.link (fun e => above m vrf.vrfId - above m e.vrfId < 0) vrf :=
      RbTree.link_congr fun e he => by rw [idCompare_eq hvrf (h.half e (h.mem e he))]
    have hperm := RbTree.link_perm (fun e => above m vrf.vrfId - above m e.vrfId < 0) vrf t
    dsimp only
    rw [hlink]
    refine ⟨hhalf, ?_, fun e he => ?_, fun e he => ?_⟩
    · rw [hcolor]
      exact @RbTree.sorted_link _ _ _ Vrf.vrfId t vrf (.difference (above m)) h.sorted
    · rw [hcolor, hperm.mem_iff, List.mem_cons] at he
      obtain rfl | he := he
      · exact List.mem_append_right _ (List.mem_singleton_self e)
      · exact List.mem_append_left _ (h.mem e he)
    · rw [hcolor]
      obtain he | rfl := (List.mem_append.trans (or_congr_right List.mem_singleton)).mp he
      · obtain ⟨w, hw, hid⟩ := h.found e he
        exact ⟨w, hperm.mem_iff.mpr (List.mem_cons_of_mem vrf hw), hid⟩
      · exact ⟨e, hperm.mem_iff.mpr List.mem_cons_self, rfl⟩

theorem Sorts.insertAll (h : Sorts m inserted t) (hcolor : KeepsInorder insertColor) (hvrfs : ∀ vrf ∈ vrfs, Half m vrf.vrfId) :
    Sorts m (inserted ++ vrfs) (vrfs.foldl (rbInsert insertColor) t) := by
  induction vrfs generalizing inserted t with
  | nil => rwa [List.append_nil]
  | cons vrf vrfs ih =>
    have hall := ih (h.insert hcolor (hvrfs vrf List.mem_cons_self)) fun e he => hvrfs e (List.mem_cons_of_mem vrf he)
    rwa [List.append_assoc] at hall

theorem Sorts.lookup (h : Sorts m inserted t) (hvrf : vrf ∈ inserted) :
    ∃ w ∈ inserted, w.vrfId = vrf.vrfId ∧ lookupById t vrf.vrfId = some w := by
  have hhalf := h.half vrf hvrf
  obtain ⟨e, he, hid⟩ := h.found vrf hvrf
  have hsome := @RbTree.find_isSome _ _ (fun x y => above m x - above m y) Vrf.vrfId t e vrf.vrfId (.difference (above m)) h.sorted he
    ((above_inj hhalf (hid ▸ hhalf)).mpr hid.symm)
  obtain ⟨w, hfind⟩ := Option.isSome_iff_exists.mp hsome
  obtain ⟨hw, hzero⟩ := @RbTree.find_mem _ _ (fun x y => above m x - above m y) Vrf.vrfId t w vrf.vrfId hfind
  have hwmem := h.mem w hw
  exact ⟨w, hwmem, ((above_inj hhalf (h.half w hwmem)).mp hzero).symm, by rw [lookupById, h.find_eq hhalf, hfind]⟩

end Insert

theorem orders_of_half (h : ∀ x ∈ S, Half m x) : OrdersIds S := by
  refine ⟨fun a ha b hb => ?_, fun a ha b hb => ?_, fun a ha b hb c hc hab hbc => ?_, fun insertColor hcolor vrfs hvrfs vrf hvrf => ?_⟩
  · rw [idCompare_eq (h a ha) (h b hb)]
    exact above_inj (h a ha) (h b hb)
  · rw [idCompare_eq (h a ha) (h b hb), idCompare_eq (h b hb) (h a ha)]
    omega
  · rw [idCompare_eq (h a ha) (h b hb)] at hab
    rw [idCompare_eq (h b hb) (h c hc)] at hbc
    rw [idCompare_eq (h a ha) (h c hc)]
    omega
  · have hempty : Sorts m [] .nil := ⟨by simp, List.Pairwise.nil, by simp [RbTree.inorder], by simp⟩
    have hall := hempty.insertAll hcolor fun vrf hvrf => h vrf.vrfId (hvrfs vrf hvrf)
    exact hall.lookup hvrf

/-- Where the comparison is a strict order, the identifiers are in the half of the circle that begins at the least of them. -/
theorem OrdersIds.half (h : OrdersIds S) (hS : ∀ x ∈ S, x < 2 ^ 32) : ∃ m : ℤ, ∀ x ∈ S, Half m x := by
  rcases S.eq_empty_or_nonempty with rfl | hne
  · exact ⟨0, by simp⟩
  · have hfinite : Finite S := Set.Finite.subset (Set.finite_Iio (2 ^ 32)) hS
    -- on finitely many identifiers a strict order has a least one
    let lt (a b : S) : Prop := idCompare a b < 0
    have htrans : IsTrans S lt := ⟨fun a b c hab hbc => h.trans a a.2 b b.2 c c.2 hab hbc⟩
    have hirrefl : Std.Irrefl lt := ⟨fun a haa => by
      have hzero := (h.zero a a.2 a a.2).mpr rfl
      exact absurd haa (by omega)⟩
    have hwf : WellFounded lt := Finite.wellFounded_of_trans_of_irrefl lt
    obtain ⟨m, -, hmin⟩ := hwf.has_min Set.univ ⟨⟨hne.some, hne.some_mem⟩, trivial⟩
    refine ⟨(m : ℕ), fun x hx => ⟨hS x hx, ?_⟩⟩
    have hnot : ¬idCompare x m < 0 := hmin ⟨x, hx⟩ trivial
    rw [idCompare_neg] at hnot
    omega

/-- The comparison orders a set of identifiers exactly when they are in half of the circle of the 32-bit numbers. -/
theorem vrfIdCompare_orders_iff (hS : ∀ x ∈ S, x < 2 ^ 32) : OrdersIds S ↔ ∃ m : ℤ, ∀ x ∈ S, ((x : ℤ) - m) % 2 ^ 32 < 2 ^ 31 := by
  constructor
  · intro h
    obtain ⟨m, hm⟩ := h.half hS
    exact ⟨m, fun x hx => (hm x hx).above_lt⟩
  · rintro ⟨m, hm⟩
    exact orders_of_half fun x hx => ⟨hS x hx, hm x hx⟩

theorem vrfIdCompare_orders_sample : OrdersIds {vrfUnknown, 0, 254, 2 ^ 31 - 2} := by
  refine (vrfIdCompare_orders_iff ?_).mpr ⟨-1, ?_⟩ <;>
    simp only [Set.mem_insert_iff, Set.mem_singleton_iff, forall_eq_or_imp, forall_eq] <;> decide

/-- Three identifiers that go round the circle, and two that are each below the other. -/
theorem vrfIdCompare_cycle : ¬OrdersIds {x | x < 2 ^ 32} ∧
    (idCompare 1 0x60000001 < 0 ∧ idCompare 0x60000001 0xC0000001 < 0 ∧ idCompare 0xC0000001 1 < 0) ∧
    idCompare 0 0x80000000 < 0 ∧ idCompare 0x80000000 0 < 0 := by
  refine ⟨fun h => ?_, by decide, by decide⟩
  have hpos := (h.swap 0 (by decide) 0x80000000 (by decide)).mp (by decide)
  exact absurd hpos (by decide)

end Yjc.Network
