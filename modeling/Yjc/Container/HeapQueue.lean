import Yjc.Container.HeapNodes
import Yjc.Lib.Run
import Mathlib.Data.Finset.Basic

/-! The operations of `container/heap.h` on nodes: each does what it does by positions, and so every run keeps the tree. -/

namespace Yjc
namespace HeapNodes

variable {h : HeapNodes} {l : List ℕ} {a n p c i j v fuel : ℕ} {compare : ℕ → ℕ → Bool}

/-! ## The path to the last node -/

/-- The turns of a path, from position `q` on; positions are counted from 1. -/
def follow : ℕ → ℕ → ℕ → ℕ
  | 0, _, q => q
  | d + 1, path, q => follow d (path / 2) (2 * q + path % 2)

theorem le_follow (d path q : ℕ) : q ≤ follow d path q := by
  induction d generalizing path q with
  | zero => exact le_rfl
  | succ d ih => exact le_trans (by omega) (ih (path / 2) (2 * q + path % 2))

theorem follow_pathLoop {fuel n d path : ℕ} (hn : 1 ≤ n) (hfuel : n ≤ fuel) :
    follow (pathLoop fuel n d path).1 (pathLoop fuel n d path).2 1 = follow d path n := by
  induction fuel generalizing n d path with
  | zero => omega
  | succ fuel ih =>
    unfold pathLoop
    split_ifs with hge
    · rw [ih (by omega) (by omega), follow]
      congr 1 <;> omega
    · rw [show n = 1 by omega]

theorem one_le_pathLoop {fuel n d path : ℕ} (hn : 2 ≤ n) (hfuel : n ≤ fuel) : d < (pathLoop fuel n d path).1 := by
  obtain ⟨fuel, rfl⟩ : ∃ k, fuel = k + 1 := ⟨fuel - 1, by omega⟩
  have hmono : ∀ fuel n d path, d ≤ (pathLoop fuel n d path).1 := by
    intro fuel
    induction fuel with
    | zero => exact fun _ _ _ => le_rfl
    | succ fuel ih =>
      intro n d path
      unfold pathLoop
      split_ifs
      · exact (Nat.le_succ d).trans (ih ..)
      · exact le_rfl
  unfold pathLoop
  rw [if_pos hn]
  exact hmono ..

theorem descend_eq (hleft : ∀ i a, l[i]? = some a → h.left a = l[2 * i + 1]?)
    (hright : ∀ i a, l[i]? = some a → h.right a = l[2 * i + 2]?) {d path q n : ℕ} (hq : 1 ≤ q)
    (hn : follow (d + 1) path q = n) (hlen : n / 2 ≤ l.length) :
    ∃ path', h.descend (d + 1) path l[q - 1]? = some (l[n / 2 - 1]?, path') ∧ path' % 2 = n % 2 := by
  induction d generalizing path q with
  | zero =>
    subst hn
    rw [follow, follow]
    refine ⟨path, ?_, by omega⟩
    rw [show (2 * q + path % 2) / 2 = q by omega]
    rfl
  | succ d ih =>
    have hge := le_follow (d + 1) (path / 2) (2 * q + path % 2)
    rw [follow] at hn
    rw [hn] at hge
    have hp := List.getElem?_eq_getElem (l := l) (i := q - 1) (by omega)
    have hturn : (if path % 2 = 1 then h.right l[q - 1] else h.left l[q - 1]) = l[2 * q + path % 2 - 1]? := by
      split_ifs
      · rw [hright _ _ hp]
        congr 1
        omega
      · rw [hleft _ _ hp]
        congr 1
        omega
    rw [hp, descend, Option.bind_some, hturn]
    exact ih (by omega) hn

theorem descend_pathLoop (hroot : h.root = l[0]?) (hleft : ∀ i a, l[i]? = some a → h.left a = l[2 * i + 1]?)
    (hright : ∀ i a, l[i]? = some a → h.right a = l[2 * i + 2]?) {n : ℕ} (hn : 2 ≤ n) (hlen : n / 2 ≤ l.length) :
    ∃ path', h.descend (pathLoop n n 0 0).1 (pathLoop n n 0 0).2 h.root = some (l[n / 2 - 1]?, path') ∧
      path' % 2 = n % 2 := by
  have hfollow : follow (pathLoop n n 0 0).1 (pathLoop n n 0 0).2 1 = n := follow_pathLoop (by omega) le_rfl
  obtain ⟨d, hd⟩ : ∃ d, (pathLoop n n 0 0).1 = d + 1 := Nat.exists_eq_succ_of_ne_zero (by
    have hpos : 0 < (pathLoop n n 0 0).1 := one_le_pathLoop hn le_rfl
    omega)
  rw [hd] at hfollow ⊢
  rw [hroot]
  exact descend_eq hleft hright le_rfl hfollow hlen

/-! ## The operations -/

theorem append_cases {k : ℕ} (hk : (l ++ [n])[k]? = some a) : (k = l.length ∧ a = n) ∨ l[k]? = some a := by
  rcases Nat.lt_trichotomy k l.length with hlt | rfl | hgt
  · exact .inr (by rwa [List.getElem?_append_left hlt] at hk)
  · rw [List.getElem?_concat_length] at hk
    exact .inl ⟨rfl, (Option.some.inj hk).symm⟩
  · rw [List.getElem?_eq_none (by rw [List.length_append, List.length_singleton]; omega)] at hk
    cases hk

theorem getElem?_append_last (l : List ℕ) (n k : ℕ) : (l ++ [n])[k]? = if k = l.length then some n else l[k]? := by
  rw [List.getElem?_append]
  grind

theorem Shape.append (hs : Shape h l) (hn : n ∉ l) (hl : h.left n = none) (hr : h.right n = none) {h' : HeapNodes}
    (hnelts : h'.nelts = h.nelts + 1) (hroot : h'.root = if l.length = 0 then some n else h.root)
    (hparent : ∀ a, h'.parent a = if a = n then (if l.length = 0 then none else l[(l.length - 1) / 2]?) else h.parent a)
    (hleft : ∀ k a, l[k]? = some a → h'.left a = if 2 * k + 1 = l.length then some n else h.left a)
    (hright : ∀ k a, l[k]? = some a → h'.right a = if 2 * k + 2 = l.length then some n else h.right a)
    (hln : h'.left n = h.left n) (hrn : h'.right n = h.right n) : Shape h' (l ++ [n]) := by
  have hlook := getElem?_append_last l n
  refine ⟨?_, ?_, ?_, ?_, ?_, ?_⟩
  · refine List.nodup_append.mpr ⟨hs.nodup, List.nodup_singleton n, ?_⟩
    rintro a ha b hb rfl
    exact hn (List.mem_singleton.mp hb ▸ ha)
  · rw [hnelts, hs.nelts, List.length_append, List.length_singleton]
  · rw [hroot, hlook, hs.root]
    simp only [eq_comm]
  · intro k a hk
    rw [hparent, hlook]
    obtain ⟨rfl, rfl⟩ | hk := append_cases hk
    · rw [if_pos rfl]
      split_ifs <;> first | rfl | omega
    · have hlt := (List.getElem?_eq_some_iff.mp hk).1
      have hne : a ≠ n := fun he => hn (he ▸ List.mem_of_getElem? hk)
      rw [if_neg hne, hs.parent k a hk]
      split_ifs <;> first | rfl | omega
  · intro k a hk
    rw [hlook]
    obtain ⟨rfl, rfl⟩ | hk := append_cases hk
    · rw [hln, hl, if_neg (by omega), List.getElem?_eq_none (by omega)]
    · rw [hleft k a hk, hs.left k a hk]
  · intro k a hk
    rw [hlook]
    obtain ⟨rfl, rfl⟩ | hk := append_cases hk
    · rw [hrn, hr, if_neg (by omega), List.getElem?_eq_none (by omega)]
    · rw [hright k a hk, hs.right k a hk]

theorem Shape.insert_eq (hs : Shape h l) (hn : n ∉ l) (hl : h.left n = none) (hr : h.right n = none) :
    ∃ h', h.insert (some compare) n = h'.siftUp compare n (h'.nelts + 1) ∧ Shape h' (l ++ [n]) ∧
      ∀ a ∉ l ++ [n], SameLinks h h' a := by
  rcases Nat.eq_zero_or_pos l.length with hzero | hpos
  · have hnil := List.length_eq_zero_iff.mp hzero
    subst hnil
    have hroot : h.root = none := hs.root
    have hnelts : h.nelts = 0 := hs.nelts
    refine ⟨{ h with nelts := 1, root := some n, parent := Function.update h.parent n none }, ?_, ?_, ?_⟩
    · simp [HeapNodes.insert, hnelts, hroot, pathLoop, descend, setParent]
    · refine hs.append hn hl hr (congrArg (· + 1) hnelts.symm) rfl ?_ ?_ ?_ rfl rfl
      · exact fun a => Function.update_apply ..
      · intro k a hk
        simp at hk
      · intro k a hk
        simp at hk
    · intro a ha
      refine ⟨Function.update_of_ne ?_ .., rfl, rfl⟩
      rintro rfl
      exact ha List.mem_cons_self
  · have hnelts := hs.nelts
    obtain ⟨path, hdescend, hpath⟩ := descend_pathLoop (h := { h with nelts := h.nelts + 1 }) hs.root hs.left hs.right
      (n := h.nelts + 1) (by omega) (by omega)
    obtain ⟨p, hp⟩ : ∃ p, l[(h.nelts + 1) / 2 - 1]? = some p := ⟨_, List.getElem?_eq_getElem (by omega)⟩
    have hpn : n ≠ p := by
      rintro rfl
      exact hn (List.mem_of_getElem? hp)
    have hpi : ∀ {k a}, l[k]? = some a → (a = p ↔ k = (h.nelts + 1) / 2 - 1) := by
      intro k a hk
      rw [← Links.getElem?_eq_some hs.nodup hp, hk, Option.some.injEq]
    rw [hp] at hdescend
    have hout : ∀ a ∉ l ++ [n], a ≠ n ∧ a ≠ p := by
      intro a ha
      rw [List.mem_append, not_or] at ha
      exact ⟨fun he => ha.2 (List.mem_singleton.mpr he), fun he => ha.1 (he ▸ List.mem_of_getElem? hp)⟩
    have hparent : ∀ a, (if a = n then some p else h.parent a) =
        if a = n then (if l.length = 0 then none else l[(l.length - 1) / 2]?) else h.parent a := by
      intro a
      rw [show (l.length - 1) / 2 = (h.nelts + 1) / 2 - 1 by omega, hp, if_neg (c := l.length = 0) (by omega)]
    simp only [HeapNodes.insert, hdescend, Option.bind_eq_bind, Option.bind_some]
    by_cases hodd : path % 2 = 1
    · rw [if_pos hodd]
      refine ⟨_, rfl, hs.append hn hl hr rfl (if_neg (by omega)).symm ?_ ?_ ?_ ?_ ?_, ?_⟩
      · simpa using hparent
      · intro k a hk
        rw [if_neg (by omega)]
        rfl
      · intro k a hk
        simp only [setRight_right, setParent_right, hpi hk]
        exact if_congr (by omega) rfl rfl
      · rfl
      · simp [hpn]
      · intro a ha
        simp [SameLinks, hout a ha]
    · rw [if_neg hodd]
      refine ⟨_, rfl, hs.append hn hl hr rfl (if_neg (by omega)).symm ?_ ?_ ?_ ?_ ?_, ?_⟩
      · simpa using hparent
      · intro k a hk
        simp only [setLeft_left, setParent_left, hpi hk]
        exact if_congr (by omega) rfl rfl
      · intro k a hk
        rw [if_neg (by omega)]
        rfl
      · simp [hpn]
      · rfl
      · intro a ha
        simp [SameLinks, hout a ha]

theorem Shape.insert (hs : Shape h l) (hn : n ∉ l) (hl : h.left n = none) (hr : h.right n = none) :
    ∃ h', h.insert (some compare) n = some h' ∧ Shape h' (Heap.insert compare n ⟨l, h.nelts⟩).elts ∧
      ∀ a ∉ l ++ [n], SameLinks h h' a := by
  obtain ⟨h₁, hinsert, hs₁, hsame₁⟩ : ∃ h₁ : HeapNodes, h.insert (some compare) n = h₁.siftUp compare n (h₁.nelts + 1) ∧ _ := hs.insert_eq hn hl hr
  have hlen : h₁.nelts = l.length + 1 := by rw [hs₁.nelts, List.length_append, List.length_singleton]
  obtain ⟨h', hsift, hs', hsame⟩ : ∃ h', h₁.siftUp compare n (h₁.nelts + 1) = some h' ∧ _ :=
    hs₁.siftUp List.getElem?_concat_length (by omega)
  refine ⟨h', hinsert.trans hsift, ?_, fun a ha => (hsame₁ a ha).trans (hsame a ha)⟩
  rwa [Heap.siftUp_fuel (g := l.length + 1) (by omega) (by omega)] at hs'

theorem replace_links {z : ℕ} (hp : h.parent n ≠ some n) (hl : h.left n ≠ some n) (hr : h.right n ≠ some n) :
    (∀ a, (h.replace n (some z)).parent a = if a = z then h.parent n else if h.right n = some a then some z
      else if h.left n = some a then some z else h.parent a) ∧
      (∀ a, (h.replace n (some z)).left a = if a = z then h.left n
        else if h.parent n = some a ∧ h.left a = some n then some z else h.left a) ∧
      ∀ a, (h.replace n (some z)).right a = if a = z then h.right n
        else if h.parent n = some a ∧ h.left a ≠ some n ∧ h.right a = some n then some z else h.right a := by
  refine ⟨?_, ?_, ?_⟩ <;> intro a <;> simp [replace, hp, hl, hr]

theorem Shape.links_ne (hs : Shape h l) (hn : n ∈ l) : h.parent n ≠ some n ∧ h.left n ≠ some n ∧ h.right n ≠ some n := by
  obtain ⟨i, hi⟩ := List.mem_iff_getElem?.mp hn
  rw [hs.parent i n hi, hs.left i n hi, hs.right i n hi]
  refine ⟨?_, ?_, ?_⟩
  · split_ifs
    · simp
    · rw [Ne, Links.getElem?_eq_some hs.nodup hi]
      omega
  · rw [Ne, Links.getElem?_eq_some hs.nodup hi]
    omega
  · rw [Ne, Links.getElem?_eq_some hs.nodup hi]
    omega

theorem Shape.replace (hs : Shape h l) (hi : l[i]? = some n) {z : ℕ} (hz : z ∉ l) :
    Shape (h.replace n (some z)) (l.set i z) := by
  have hlt := (List.getElem?_eq_some_iff.mp hi).1
  have hlook : ∀ k, (l.set i z)[k]? = if k = i then some z else l[k]? := by
    intro k
    rw [List.getElem?_set]
    grind
  have hidx : ∀ {k a}, l[k]? = some a → ∀ x, l[x]? = some a ↔ x = k := fun hk x => Links.getElem?_eq_some hs.nodup hk
  have hzn : z ≠ n := by
    rintro rfl
    exact hz (List.mem_of_getElem? hi)
  have hzl : ∀ k, l[k]? ≠ some z := fun k hk => hz (List.mem_of_getElem? hk)
  have hcases : ∀ {k a}, (l.set i z)[k]? = some a → (k = i ∧ a = z) ∨ (l[k]? = some a ∧ k ≠ i ∧ a ≠ z ∧ a ≠ n) := by
    intro k a hk
    rw [hlook] at hk
    split_ifs at hk with hki
    · exact .inl ⟨hki, (Option.some.inj hk).symm⟩
    · refine .inr ⟨hk, hki, ?_, ?_⟩
      · rintro rfl
        exact hzl k hk
      · rintro rfl
        exact hki ((hidx hi k).mp hk)
  have hnpar := hs.parent i n hi
  obtain ⟨hself, hlself, hrself⟩ := hs.links_ne (List.mem_of_getElem? hi)
  obtain ⟨hparent, hleft, hright⟩ := replace_links hself hlself hrself
  refine ⟨?_, ?_, ?_, ?_, ?_, ?_⟩
  · refine (List.set_perm_cons_eraseIdx hlt z).nodup_iff.mpr (List.nodup_cons.mpr ⟨?_, ?_⟩)
    · exact fun hmem => hz (List.mem_of_mem_eraseIdx hmem)
    · exact hs.nodup.sublist (List.eraseIdx_sublist ..)
  · simp [HeapNodes.replace, hs.nelts]
  · simp [HeapNodes.replace, hlook, hs.root, hnpar]
    grind
  · intro k a hk
    rw [hparent, hlook]
    obtain ⟨rfl, rfl⟩ | ⟨hk, hki, haz, han⟩ := hcases hk
    · rw [if_pos rfl, hnpar]
      split_ifs <;> first | rfl | omega
    · rw [if_neg haz, hs.left i n hi, hs.right i n hi, hs.parent k a hk]
      simp only [hidx hk]
      split_ifs <;> first | rfl | omega
  · intro k a hk
    rw [hleft, hlook]
    obtain ⟨rfl, rfl⟩ | ⟨hk, hki, haz, han⟩ := hcases hk
    · rw [if_pos rfl, hs.left k n hi, if_neg (by omega)]
    · have hup : h.parent n = some a ∧ h.left a = some n ↔ 2 * k + 1 = i := by
        rw [hnpar, hs.left k a hk, hidx hi]
        split_ifs
        · simp only [false_and, false_iff]
          omega
        · rw [hidx hk]
          omega
      rw [if_neg haz, if_congr hup rfl (hs.left k a hk)]
  · intro k a hk
    rw [hright, hlook]
    obtain ⟨rfl, rfl⟩ | ⟨hk, hki, haz, han⟩ := hcases hk
    · rw [if_pos rfl, hs.right k n hi, if_neg (by omega)]
    · have hup : h.parent n = some a ∧ h.left a ≠ some n ∧ h.right a = some n ↔ 2 * k + 2 = i := by
        rw [hnpar, hs.left k a hk, hs.right k a hk, Ne, hidx hi, hidx hi]
        split_ifs
        · simp only [false_and, false_iff]
          omega
        · rw [hidx hk]
          omega
      rw [if_neg haz, if_congr hup rfl (hs.right k a hk)]

theorem Shape.cut {z : ℕ} (hs : Shape h (l ++ [z])) (hpos : 0 < l.length) :
    ∃ p path, ({ h with nelts := h.nelts - 1 } : HeapNodes).descend (pathLoop h.nelts h.nelts 0 0).1
        (pathLoop h.nelts h.nelts 0 0).2 h.root = some (some p, path) ∧
      p ∈ l ∧ (if path % 2 = 1 then h.right p else h.left p) = some z ∧
      Shape (if path % 2 = 1 then ({ h with nelts := h.nelts - 1 } : HeapNodes).setRight p none
        else ({ h with nelts := h.nelts - 1 } : HeapNodes).setLeft p none) l := by
  have hnelts : h.nelts = l.length + 1 := by rw [hs.nelts, List.length_append, List.length_singleton]
  obtain ⟨path, hdescend, hpath⟩ := descend_pathLoop (h := { h with nelts := h.nelts - 1 }) hs.root hs.left hs.right
    (n := h.nelts) (by omega) (by rw [List.length_append]; omega)
  have hlook := getElem?_append_last l z
  obtain ⟨p, hp⟩ : ∃ p, l[h.nelts / 2 - 1]? = some p := ⟨_, List.getElem?_eq_getElem (by omega)⟩
  have hp' : (l ++ [z])[h.nelts / 2 - 1]? = some p := by rw [hlook, if_neg (by omega), hp]
  have hnodup : l.Nodup := (List.nodup_append.mp hs.nodup).1
  have hpi : ∀ {k a}, l[k]? = some a → (a = p ↔ k = h.nelts / 2 - 1) := by
    intro k a hk
    rw [← Links.getElem?_eq_some hnodup hp, hk, Option.some.injEq]
  have hmem : ∀ {k a}, l[k]? = some a → k < l.length ∧ (l ++ [z])[k]? = some a := by
    intro k a hk
    have hlt := (List.getElem?_eq_some_iff.mp hk).1
    exact ⟨hlt, by rw [hlook, if_neg (by omega), hk]⟩
  have hroot : h.root = l[0]? := by rw [hs.root, hlook, if_neg (by omega)]
  have hparent : ∀ k a, l[k]? = some a → h.parent a = if k = 0 then none else l[(k - 1) / 2]? := by
    intro k a hk
    obtain ⟨hlt, hk'⟩ := hmem hk
    rw [hs.parent k a hk', hlook, if_neg (c := (k - 1) / 2 = l.length) (by omega)]
  have hleft : ∀ k a, l[k]? = some a → h.left a = if 2 * k + 1 = l.length then some z else l[2 * k + 1]? := by
    intro k a hk
    rw [hs.left k a (hmem hk).2, hlook]
  have hright : ∀ k a, l[k]? = some a → h.right a = if 2 * k + 2 = l.length then some z else l[2 * k + 2]? := by
    intro k a hk
    rw [hs.right k a (hmem hk).2, hlook]
  rw [hp'] at hdescend
  refine ⟨p, path, hdescend, List.mem_of_getElem? hp, ?_, ?_⟩
  · rw [hleft _ _ hp, hright _ _ hp]
    split_ifs <;> first | rfl | omega
  · by_cases hodd : path % 2 = 1
    · rw [if_pos hodd]
      refine ⟨hnodup, by simp [hnelts], hroot, hparent, ?_, ?_⟩
      · intro k a hk
        rw [setRight_left, hleft k a hk, if_neg (by omega)]
      · intro k a hk
        rw [setRight_right, hright k a hk, if_congr (hpi hk) rfl rfl]
        split_ifs
        · rw [List.getElem?_eq_none (by omega)]
        · omega
        · rfl
    · rw [if_neg hodd]
      refine ⟨hnodup, by simp [hnelts], hroot, hparent, ?_, ?_⟩
      · intro k a hk
        rw [setLeft_left, hleft k a hk, if_congr (hpi hk) rfl rfl]
        split_ifs
        · rw [List.getElem?_eq_none (by omega)]
        · omega
        · rfl
      · intro k a hk
        rw [setLeft_right, hright k a hk, if_neg (by omega)]

def NullLinks (h : HeapNodes) (a : ℕ) : Prop := h.parent a = none ∧ h.left a = none ∧ h.right a = none

def clear (h : HeapNodes) (n : ℕ) : HeapNodes := ((h.setParent n none).setLeft n none).setRight n none

theorem clear_nullLinks (h : HeapNodes) (n : ℕ) : NullLinks (h.clear n) n := by simp [clear, NullLinks]

theorem clear_sameLinks (ha : a ≠ n) : SameLinks h (h.clear n) a := by simp [clear, SameLinks, ha]

theorem Shape.clear (hs : Shape h l) (hn : n ∉ l) : Shape (h.clear n) l :=
  hs.congr rfl rfl fun _ ha => clear_sameLinks fun he => hn (he ▸ ha)

/-- The two loops of `heap_remove`. -/
def sift (compare : ℕ → ℕ → Bool) (v : ℕ) (h : HeapNodes) : Option HeapNodes :=
  (h.siftDown compare v (h.nelts + 1)).bind fun h => h.siftUp compare v (h.nelts + 1)

theorem Shape.sift (ho : StrictWeakOrder compare) (hs : Shape h l) (hv : l[i]? = some v) :
    ∃ h', h.sift compare v = some h' ∧
      Shape h' (Heap.siftUp compare ((Heap.siftDown compare l.length i l).1 + 1) (Heap.siftDown compare l.length i l).1
        (Heap.siftDown compare l.length i l).2) ∧ ∀ a ∉ l, SameLinks h h' a := by
  have hi := (List.getElem?_eq_some_iff.mp hv).1
  have hnelts := hs.nelts
  obtain ⟨h₁, hdown, hs₁, hv₁, hsame₁⟩ : ∃ h₁, h.siftDown compare v (h.nelts + 1) = some h₁ ∧ _ := hs.siftDown ho hv (by omega)
  rw [Heap.siftDown_fuel (g := l.length) ho hi (by omega) (by omega)] at hs₁ hv₁
  have hlen := hs₁.nelts
  have hr := (List.getElem?_eq_some_iff.mp hv₁).1
  obtain ⟨h₂, hup, hs₂, hsame₂⟩ : ∃ h₂, h₁.siftUp compare v (h₁.nelts + 1) = some h₂ ∧ _ := hs₁.siftUp hv₁ (by omega)
  rw [Heap.siftUp_fuel (g := (Heap.siftDown compare l.length i l).1 + 1) (by omega) (by omega)] at hs₂
  refine ⟨h₂, ?_, hs₂, fun a ha => (hsame₁ a ha).trans (hsame₂ a ?_)⟩
  · rw [HeapNodes.sift, hdown, Option.bind_some, hup]
  · rwa [(Heap.perm_siftDown ..).mem_iff]

theorem sift_nullLinks (hnull : NullLinks h v) : h.sift compare v = some h := by
  obtain ⟨hp, hl, hr⟩ := hnull
  have hdown : h.siftDown compare v (h.nelts + 1) = some h := by
    rw [siftDown, est, hl, hr, if_pos rfl]
  rw [sift, hdown, Option.bind_some, siftUp, hp]

theorem replace_self {z : ℕ} (hs : Shape h l) (hz : z ∉ l) (hp : h.parent z = some p) (hpl : p ∈ l) (hl : h.left z = none)
    (hr : h.right z = none) (ha : a ≠ z) : SameLinks h (h.replace z (some z)) a := by
  have hself : h.parent z ≠ some z := fun he => hz (Option.some.inj (hp.symm.trans he) ▸ hpl)
  obtain ⟨hparent, hleft, hright⟩ := replace_links (z := z) hself (by simp [hl]) (by simp [hr])
  have hback : ∀ {b}, h.parent z = some b → h.left b ≠ some z ∧ h.right b ≠ some z := by
    intro b hb
    obtain rfl := Option.some.inj (hp.symm.trans hb)
    exact ⟨fun he => hz (hs.links_mem hpl (.inr (.inl he))), fun he => hz (hs.links_mem hpl (.inr (.inr he)))⟩
  refine ⟨?_, ?_, ?_⟩
  · simp [hparent, ha, hl, hr]
  · rw [hleft, if_neg ha, if_neg fun he => (hback he.1).1 he.2]
  · rw [hright, if_neg ha, if_neg fun he => (hback he.1).2 he.2.2]

theorem Shape.replace_sameLinks {z : ℕ} (hs : Shape h l) (hn : n ∈ l) (ha : a ∉ l) (haz : a ≠ z) :
    SameLinks h (h.replace n (some z)) a := by
  obtain ⟨hself, hlself, hrself⟩ := hs.links_ne hn
  obtain ⟨hparent, hleft, hright⟩ := replace_links (z := z) hself hlself hrself
  have hp : h.parent n ≠ some a := fun he => ha (hs.links_mem hn (.inl he))
  have hl : h.left n ≠ some a := fun he => ha (hs.links_mem hn (.inr (.inl he)))
  have hr : h.right n ≠ some a := fun he => ha (hs.links_mem hn (.inr (.inr he)))
  refine ⟨?_, ?_, ?_⟩
  · rw [hparent, if_neg haz, if_neg hr, if_neg hl]
  · rw [hleft, if_neg haz, if_neg fun he => hp he.1]
  · rw [hright, if_neg haz, if_neg fun he => hp he.1]

theorem idxOf?_eq_some (hl : l.Nodup) (hi : l[i]? = some n) : l.idxOf? n = some i := by
  obtain ⟨hlt, rfl⟩ := List.getElem?_eq_some_iff.mp hi
  refine List.idxOf?_eq_some_iff.mpr ⟨hlt, rfl, fun j hj he => ?_⟩
  exact absurd (hl.getElem_inj_iff.mp he) (Nat.ne_of_lt hj)

theorem Shape.remove (ho : StrictWeakOrder compare) (hs : Shape h l) (hn : n ∈ l) :
    ∃ h' g, h.remove (some compare) (some n) = some h' ∧ Heap.remove compare n ⟨l, h.nelts⟩ = some g ∧ Shape h' g.elts ∧
      NullLinks h' n ∧ ∀ a ∉ l, SameLinks h h' a := by
  rcases List.eq_nil_or_concat' l with rfl | ⟨m, z, rfl⟩
  · cases hn
  · rcases Nat.eq_zero_or_pos m.length with hzero | hpos
    · have hnil := List.length_eq_zero_iff.mp hzero
      subst hnil
      have hroot : h.root = some z := hs.root
      have hnelts : h.nelts = 1 := hs.nelts
      obtain rfl : n = z := by simpa using hn
      have hleft : h.left n = none := hs.left 0 n rfl
      have hright : h.right n = none := hs.right 0 n rfl
      have hparent : h.parent n = none := hs.parent 0 n rfl
      refine ⟨{ h.setLeft n none with nelts := 0, root := none }, ⟨[], 0⟩, ?_, ?_, ?_, ?_, ?_⟩
      · simp [HeapNodes.remove, hnelts, hroot, pathLoop, descend, setLeft, hleft]
      · simp [Heap.remove, hnelts, SwapRemove.swapRemove]
      · exact ⟨List.nodup_nil, rfl, rfl, by simp, by simp, by simp⟩
      · exact ⟨hparent, by simp [setLeft], hright⟩
      · intro a ha
        have : a ≠ n := by simpa using ha
        simp [SameLinks, setLeft, this]
    · obtain ⟨p, path, hdescend, hp, hlast, hcut⟩ := hs.cut hpos
      have hnelts : h.nelts = m.length + 1 := by rw [hs.nelts, List.length_append, List.length_singleton]
      generalize hh₁ : (if path % 2 = 1 then ({ h with nelts := h.nelts - 1 } : HeapNodes).setRight p none
        else ({ h with nelts := h.nelts - 1 } : HeapNodes).setLeft p none) = h₁ at hcut
      have hremove : h.remove (some compare) (some n) = ((h₁.replace n (some z)).clear n).sift compare z := by
        simp only [HeapNodes.remove, hnelts, Nat.add_one_ne_zero, if_false]
        rw [hnelts] at hdescend hh₁
        simp only [hdescend, Option.bind_eq_bind, Option.bind_some, hlast, hh₁]
        rfl
      have hz : z ∉ m := by
        intro hmem
        exact (List.nodup_append.mp hs.nodup).2.2 z hmem z List.mem_cons_self rfl
      have hsame : ∀ a, a ∉ m → SameLinks h h₁ a := by
        intro a ha
        have hap : a ≠ p := fun he => ha (he ▸ hp)
        rw [← hh₁]
        split_ifs <;> simp [SameLinks, hap]
      have hlastlinks := hsame z hz
      have hout : ∀ a, a ∉ m ++ [z] → a ∉ m ∧ a ≠ z := by
        intro a ha
        rw [List.mem_append, not_or] at ha
        exact ⟨ha.1, fun he => ha.2 (List.mem_singleton.mpr he)⟩
      rcases eq_or_ne n z with rfl | hnz
      · have hat : (m ++ [n])[m.length]? = some n := List.getElem?_concat_length
        obtain ⟨q, hq, hqm⟩ : ∃ q, h₁.parent n = some q ∧ q ∈ m := by
          have hlt : (m.length - 1) / 2 < m.length := by omega
          refine ⟨m[(m.length - 1) / 2], ?_, List.getElem_mem hlt⟩
          rw [hlastlinks.1, hs.parent _ n hat, if_neg (by omega), List.getElem?_append_left hlt, List.getElem?_eq_getElem hlt]
        have hl : h₁.left n = none := by
          rw [hlastlinks.2.1, hs.left _ n hat, List.getElem?_eq_none (by rw [List.length_append, List.length_singleton]; omega)]
        have hr : h₁.right n = none := by
          rw [hlastlinks.2.2, hs.right _ n hat, List.getElem?_eq_none (by rw [List.length_append, List.length_singleton]; omega)]
        have hkeep : ∀ a, a ≠ n → SameLinks h₁ ((h₁.replace n (some n)).clear n) a := fun a ha =>
          (replace_self hcut hz hq hqm hl hr ha).trans (clear_sameLinks ha)
        refine ⟨_, ⟨m, h.nelts - 1⟩, hremove.trans (sift_nullLinks (clear_nullLinks ..)), ?_, ?_, clear_nullLinks .., ?_⟩
        · rw [Heap.remove, if_neg (by dsimp only; omega), idxOf?_eq_some hs.nodup hat]
          simp [SwapRemove.swapRemove_append, List.set_eq_of_length_le]
        · refine hcut.congr ?_ ?_ fun a ha => hkeep a fun he => hz (he ▸ ha)
          · simp [HeapNodes.clear, HeapNodes.replace]
          · simp [HeapNodes.clear, HeapNodes.replace, hq]
        · intro a ha
          obtain ⟨ham, han⟩ := hout a ha
          exact (hsame a ham).trans (hkeep a han)
      · have hnm : n ∈ m := by
          rcases List.mem_append.mp hn with hmem | hmem
          · exact hmem
          · exact absurd (List.mem_singleton.mp hmem) hnz
        obtain ⟨i, hi⟩ := List.mem_iff_getElem?.mp hnm
        have hlt := (List.getElem?_eq_some_iff.mp hi).1
        have hgone : n ∉ m.set i z := by
          intro hmem
          obtain ⟨k, hk⟩ := List.mem_iff_getElem?.mp hmem
          rw [List.getElem?_set] at hk
          split_ifs at hk with hik
          · exact hnz (Option.some.inj hk).symm
          · exact hik ((Links.getElem?_eq_some hcut.nodup hk).mp hi)
        have hs₂ := (hcut.replace hi hz).clear hgone
        obtain ⟨h', hsift, hs', hsame'⟩ := hs₂.sift (v := z) ho (List.getElem?_set_self hlt)
        rw [List.length_set] at hs'
        have hat : (m ++ [z])[i]? = some n := by rw [List.getElem?_append_left hlt, hi]
        have hremoved : Heap.remove compare n ⟨m ++ [z], h.nelts⟩ =
            some ⟨Heap.siftUp compare ((Heap.siftDown compare m.length i (m.set i z)).1 + 1)
              (Heap.siftDown compare m.length i (m.set i z)).1 (Heap.siftDown compare m.length i (m.set i z)).2, h.nelts - 1⟩ := by
          rw [Heap.remove, if_neg (by dsimp only; omega), idxOf?_eq_some hs.nodup hat]
          simp only [SwapRemove.swapRemove_append, List.length_set, if_pos hlt]
        refine ⟨h', _, hremove.trans hsift, hremoved, hs', ?_, ?_⟩
        · have hnull := clear_nullLinks (h₁.replace n (some z)) n
          have hkeep := hsame' n hgone
          exact ⟨hkeep.1.trans hnull.1, hkeep.2.1.trans hnull.2.1, hkeep.2.2.trans hnull.2.2⟩
        · intro a ha
          obtain ⟨ham, haz⟩ := hout a ha
          have hnew : a ∉ m.set i z := by
            intro hmem
            rcases List.mem_or_eq_of_mem_set hmem with hold | he
            · exact ham hold
            · exact haz he
          exact (hsame a ham).trans (((hcut.replace_sameLinks hnm ham haz).trans
            (clear_sameLinks fun he => ham (he ▸ hnm))).trans (hsame' a hnew))

/-! ## Runs -/

/-- The heap, with the nodes that are in it and those that have been taken out since. -/
structure Ledger where
  heap : HeapNodes
  stored : Finset ℕ
  removed : Finset ℕ

inductive Op
  | insert (n : ℕ)
  | remove (n : ℕ)
  | dequeue

def Ledger.take (s : Ledger) (n : ℕ) (h : HeapNodes) : Ledger := ⟨h, s.stored.erase n, Insert.insert n s.removed⟩

def step (compare : ℕ → ℕ → Bool) (s : Ledger) : Op → Option Ledger
  | .insert n => (s.heap.insert (some compare) n).map fun h => ⟨h, Insert.insert n s.stored, s.removed.erase n⟩
  | .remove n => (s.heap.remove (some compare) (some n)).map (s.take n)
  | .dequeue => (s.heap.dequeue (some compare)).map fun h =>
    match s.heap.root with
    | none => { s with heap := h }
    | some r => s.take r h

/-- A node to be inserted is not in the heap and has null links; one to be removed is in the heap. -/
def Valid (s : Ledger) : Op → Prop
  | .insert n => n ∉ s.stored ∧ NullLinks s.heap n
  | .remove n => n ∈ s.stored
  | .dequeue => True

instance decidableValid (s : Ledger) (o : Op) : Decidable (Valid s o) := by
  cases o <;> unfold Valid <;> (try unfold NullLinks) <;> infer_instance

def start (parent left right : ℕ → Option ℕ) : Ledger := ⟨init parent left right, ∅, ∅⟩

structure Queue (compare : ℕ → ℕ → Bool) (s : Ledger) (l : List ℕ) : Prop where
  shape : Shape s.heap l
  ordered : Heap.Ordered compare l
  stored : ∀ a, a ∈ l ↔ a ∈ s.stored
  removed : ∀ a ∈ s.removed, a ∉ l ∧ NullLinks s.heap a

variable {t : Ledger}

theorem NullLinks.of_same {h' : HeapNodes} (hnull : NullLinks h a) (hsame : SameLinks h h' a) : NullLinks h' a :=
  ⟨hsame.1.trans hnull.1, hsame.2.1.trans hnull.2.1, hsame.2.2.trans hnull.2.2⟩

theorem Queue.insert (ho : StrictWeakOrder compare) (hq : Queue compare t l) (hn : n ∉ t.stored) (hnull : NullLinks t.heap n) :
    ∃ t' l', step compare t (.insert n) = some t' ∧ Queue compare t' l' := by
  have hnl : n ∉ l := fun hmem => hn ((hq.stored n).mp hmem)
  obtain ⟨h', hinsert, hs', hsame⟩ : ∃ h', t.heap.insert (some compare) n = some h' ∧ _ :=
    hq.shape.insert hnl hnull.2.1 hnull.2.2
  have hperm := Heap.perm_insert compare n ⟨l, t.heap.nelts⟩
  refine ⟨_, _, congrArg (Option.map _) hinsert, hs', Heap.insert_ordered ho hq.ordered n, ?_, ?_⟩
  · intro a
    rw [hperm.mem_iff, List.mem_cons, Finset.mem_insert, hq.stored]
  · intro a ha
    obtain ⟨han, ha⟩ := Finset.mem_erase.mp ha
    obtain ⟨hal, hanull⟩ := hq.removed a ha
    have hout : a ∉ l ++ [n] := by
      rw [List.mem_append, not_or, List.mem_singleton]
      exact ⟨hal, han⟩
    refine ⟨?_, hanull.of_same (hsame a hout)⟩
    rw [hperm.mem_iff, List.mem_cons, not_or]
    exact ⟨han, hal⟩

theorem Queue.remove (ho : StrictWeakOrder compare) (hq : Queue compare t l) (hn : n ∈ t.stored) :
    ∃ h' l', t.heap.remove (some compare) (some n) = some h' ∧ Queue compare (t.take n h') l' := by
  have hnl : n ∈ l := (hq.stored n).mpr hn
  obtain ⟨h', g, hremove, hlist, hs', hnull, hsame⟩ := hq.shape.remove ho hnl
  obtain ⟨g', hg', hperm, -⟩ := Heap.remove_eq_some compare (h := ⟨l, t.heap.nelts⟩) hnl hq.shape.nelts
  obtain rfl : g = g' := Option.some.inj (hlist.symm.trans hg')
  have hnodup := hperm.nodup_iff.mpr hq.shape.nodup
  have hmem : ∀ a, a ∈ g.elts ↔ a ≠ n ∧ a ∈ l := by
    intro a
    have hiff : a ∈ n :: g.elts ↔ a ∈ l := hperm.mem_iff
    rw [List.mem_cons] at hiff
    constructor
    · intro ha
      exact ⟨fun he => (List.nodup_cons.mp hnodup).1 (he ▸ ha), hiff.mp (.inr ha)⟩
    · rintro ⟨han, ha⟩
      exact (hiff.mpr ha).resolve_left han
  refine ⟨h', g.elts, hremove, hs', Heap.remove_ordered ho hq.ordered hlist, ?_, ?_⟩
  · intro a
    rw [hmem, hq.stored]
    exact Finset.mem_erase.symm
  · intro a ha
    rw [hmem]
    rcases Finset.mem_insert.mp ha with rfl | ha
    · exact ⟨fun hc => hc.1 rfl, hnull⟩
    · obtain ⟨hal, hanull⟩ := hq.removed a ha
      exact ⟨fun hc => hal hc.2, hanull.of_same (hsame a hal)⟩

theorem Queue.step (ho : StrictWeakOrder compare) (hq : Queue compare t l) {o : Op} (hvalid : Valid t o) :
    ∃ t', step compare t o = some t' ∧ ∃ l', Queue compare t' l' := by
  cases o with
  | insert n =>
    obtain ⟨t', l', ht, hq'⟩ := hq.insert ho hvalid.1 hvalid.2
    exact ⟨t', ht, l', hq'⟩
  | remove n =>
    obtain ⟨h', l', hremove, hq'⟩ := hq.remove ho hvalid
    exact ⟨_, congrArg (Option.map _) hremove, l', hq'⟩
  | dequeue =>
    have hroot := hq.shape.root
    cases hr : t.heap.root with
    | none =>
      have hlen : t.heap.nelts = 0 := by
        rw [hq.shape.nelts]
        rw [hr] at hroot
        simpa using hroot.symm
      refine ⟨{ t with heap := t.heap }, ?_, l, hq⟩
      simp [HeapNodes.step, dequeue, HeapNodes.remove, hlen, hr]
    | some r =>
      have hmem : r ∈ t.stored := (hq.stored r).mp (List.mem_of_getElem? (hroot.symm.trans hr))
      obtain ⟨h', l', hremove, hq'⟩ := hq.remove ho hmem
      refine ⟨t.take r h', ?_, l', hq'⟩
      simp [HeapNodes.step, dequeue, hr, hremove]

/-- The heap is a complete tree with no child before its parent, over the nodes that were inserted and not removed. -/
theorem heap_is_priority_queue (compare : ℕ → ℕ → Bool) (ho : StrictWeakOrder compare) (parent left right : ℕ → Option ℕ)
    (ops : List Op) (hvalid : Run.Along (step compare) Valid (start parent left right) ops) :
    ∃ t l, Run.exec (step compare) (start parent left right) ops = some t ∧ Shape t.heap l ∧ Heap.Ordered compare l ∧
      (∀ a, a ∈ l ↔ a ∈ t.stored) ∧ (∀ a ∈ t.removed, a ∉ t.stored ∧ NullLinks t.heap a) ∧
      (t.heap.root = none ↔ t.stored = ∅) ∧ ∀ r ∈ t.heap.root, r ∈ t.stored ∧ ∀ a ∈ t.stored, compare a r = false := by
  have hstart : Queue compare (start parent left right) [] :=
    ⟨⟨List.nodup_nil, rfl, rfl, by simp, by simp, by simp⟩, fun k _ x hx => by simp at hx, by simp [start], by simp [start]⟩
  obtain ⟨t, ht, l, hq⟩ := Run.exec_of_along (fun _ t => ∃ l, Queue compare t l)
    (fun hist t o ⟨l, hq⟩ hvalid => hq.step ho hvalid) [] ⟨[], hstart⟩ hvalid
  refine ⟨t, l, ht, hq.shape, hq.ordered, hq.stored, ?_, ?_, ?_⟩
  · intro a ha
    obtain ⟨hal, hnull⟩ := hq.removed a ha
    exact ⟨fun hc => hal ((hq.stored a).mpr hc), hnull⟩
  · rw [hq.shape.root, Finset.eq_empty_iff_forall_notMem, List.getElem?_eq_none_iff, Nat.le_zero, List.length_eq_zero_iff,
      List.eq_nil_iff_forall_not_mem]
    exact forall_congr' fun a => not_congr (hq.stored a)
  · intro r hr
    have hroot : l[0]? = some r := hq.shape.root.symm.trans hr
    refine ⟨(hq.stored r).mp (List.mem_of_getElem? hroot), fun a ha => ?_⟩
    obtain ⟨k, hk⟩ := List.mem_iff_getElem?.mp ((hq.stored a).mpr ha)
    exact hq.ordered.root ho k a hk r hroot

/-- Nodes that compare by their address: 1 comes out first. -/
theorem heap_is_priority_queue_sample :
    ∃ t l, Run.exec (step fun a b => a < b) (start (fun _ => none) (fun _ => none) fun _ => none)
        [.insert 3, .insert 1, .insert 2, .insert 4, .dequeue, .remove 3] = some t ∧ Shape t.heap l ∧
      Heap.Ordered (fun a b => a < b) l ∧ t.stored = {2, 4} ∧ NullLinks t.heap 1 ∧
      ∀ r ∈ t.heap.root, ∀ a ∈ t.stored, decide (a < r) = false := by
  have ho : StrictWeakOrder fun a b : ℕ => decide (a < b) :=
    ⟨fun x y => by simp only [decide_eq_true_eq, decide_eq_false_iff_not]; omega,
      fun x y z => by simp only [decide_eq_false_iff_not]; omega⟩
  obtain ⟨t, l, ht, hshape, hordered, -, hremoved, -, hroot⟩ := heap_is_priority_queue _ ho (fun _ => none) (fun _ => none)
    (fun _ => none) [.insert 3, .insert 1, .insert 2, .insert 4, .dequeue, .remove 3] (by decide +kernel)
  have hsets : (Run.exec (step fun a b => a < b) (start (fun _ => none) (fun _ => none) fun _ => none)
      [.insert 3, .insert 1, .insert 2, .insert 4, .dequeue, .remove 3]).map (fun t => (t.stored, t.removed)) =
        some ({2, 4}, {3, 1}) := by decide +kernel
  rw [ht] at hsets
  obtain ⟨hstored, hgone⟩ := Prod.mk.inj (Option.some.inj hsets)
  have hone : 1 ∈ t.removed := by
    rw [hgone]
    decide
  exact ⟨t, l, ht, hshape, hordered, hstored, (hremoved 1 hone).2, fun r hr => (hroot r hr).2⟩

end HeapNodes
end Yjc
