import Mathlib.Data.List.Nodup
import Mathlib.Data.List.Perm.Subperm
import Mathlib.Data.Nat.ModEq
import Mathlib.Tactic.SplitIfs

/-! Open addressing on a ring of `n` slots, where an entry knows how far it is from its home, counted from one. A slot is
named by any number, read modulo `n`. No entry is more than one further from home than the entry before it: so every slot
between an entry and its home is taken, and an entry may be moved whenever the two neighbours allow it. -/

namespace Yjc.RobinHood
variable {ε : Type*}

def distAt (dib : ε → ℕ) (T : ℕ → Option ε) (i : ℕ) : ℕ := (T i).elim 0 dib

def putAt (n i : ℕ) (v : Option ε) (T : ℕ → Option ε) : ℕ → Option ε := fun j => if j % n = i % n then v else T j

def contents (n : ℕ) (T : ℕ → Option ε) : List ε := (List.range n).filterMap T

structure Ordered (n : ℕ) (hash dib : ε → ℕ) (T : ℕ → Option ε) : Prop where
  periodic : ∀ i, T (i % n) = T i
  pos : ∀ {i e}, T i = some e → 0 < dib e
  home : ∀ {i e}, T i = some e → (hash e + dib e) % n = (i + 1) % n
  tight : ∀ i, distAt dib T (i + 1) ≤ distAt dib T i + 1

/-- An entry at the right distance from home for a slot, as the slot before it allows. -/
structure Fits (n : ℕ) (hash dib : ε → ℕ) (T : ℕ → Option ε) (i : ℕ) (e : ε) : Prop where
  pos : 0 < dib e
  home : (hash e + dib e) % n = (i + 1) % n
  before : ∀ j, (j + 1) % n = i % n → dib e ≤ distAt dib T j + 1

variable {n i j k : ℕ} {hash dib : ε → ℕ} {T : ℕ → Option ε} {v : Option ε} {e e' b : ε}

theorem distAt_some (h : T i = some e) : distAt dib T i = dib e := by rw [distAt, h, Option.elim_some]

theorem distAt_none (h : T i = none) : distAt dib T i = 0 := by rw [distAt, h, Option.elim_none]

theorem putAt_same (h : j % n = i % n) : putAt n i v T j = v := if_pos h

theorem putAt_other (h : j % n ≠ i % n) : putAt n i v T j = T j := if_neg h

theorem distAt_putAt : distAt dib (putAt n i v T) j = if j % n = i % n then v.elim 0 dib else distAt dib T j := by
  rw [distAt, putAt]
  split_ifs <;> rfl

theorem putAt_eq_none : putAt n i (some e) T j = none ↔ j % n ≠ i % n ∧ T j = none := by
  by_cases hj : j % n = i % n
  · simp [putAt_same hj, hj]
  · simp [putAt_other hj, hj]

theorem free_after (hi : T i = some b) (hfree : ∃ j < k + 1, T (i + j) = none) : ∃ j < k, T (i + 1 + j) = none := by
  -- a free slot that is not this one is further on
  obtain ⟨j, hj, hnone⟩ := hfree
  cases j with
  | zero =>
    rw [Nat.add_zero, hi] at hnone
    cases hnone
  | succ j => exact ⟨j, Nat.lt_of_succ_lt_succ hj, by rwa [Nat.add_assoc, Nat.add_comm 1]⟩

theorem putAt_putAt {w : Option ε} : putAt n i w (putAt n i v T) = putAt n i w T := by
  funext j
  simp only [putAt]
  split_ifs <;> rfl

theorem putAt_comm {w : Option ε} (hne : i % n ≠ j % n) : putAt n i v (putAt n j w T) = putAt n j w (putAt n i v T) := by
  funext k
  simp only [putAt]
  split_ifs with hi hj
  · exact absurd (hi.symm.trans hj) hne
  all_goals rfl

theorem succ_mod_ne (hn : 1 < n) : (i + 1) % n ≠ i % n := by
  intro heq
  have hdvd : n ∣ 1 := (Nat.modEq_iff_dvd' (Nat.le_succ i)).mp (Nat.ModEq.symm heq) |>.trans (by simp)
  exact absurd (Nat.le_of_dvd Nat.one_pos hdvd) (by omega)

theorem succ_mod_congr (h : i % n = j % n) : (i + 1) % n = (j + 1) % n := Nat.ModEq.add_right 1 h

theorem mod_of_succ (h : (i + 1) % n = (j + 1) % n) : i % n = j % n := Nat.ModEq.add_right_cancel' 1 h

theorem Ordered.congr (h : Ordered n hash dib T) (hij : i % n = j % n) : T i = T j := by
  rw [← h.periodic i, hij, h.periodic]

theorem Ordered.distAt_congr (h : Ordered n hash dib T) (hij : i % n = j % n) : distAt dib T i = distAt dib T j := by
  rw [distAt, distAt, h.congr hij]

theorem ordered_empty : Ordered n hash dib (fun _ => none) :=
  ⟨fun _ => rfl, fun h => (by cases h), fun h => (by cases h), fun _ => Nat.zero_le _⟩

theorem putAt_self (hT : ∀ i, T (i % n) = T i) (hi : T i = v) : putAt n i v T = T := by
  funext j
  by_cases hj : j % n = i % n
  · rw [putAt_same hj, ← hT j, hj, hT, hi]
  · rw [putAt_other hj]

theorem Ordered.putAt (h : Ordered n hash dib T) (hpos : ∀ e, v = some e → 0 < dib e)
    (hhome : ∀ e, v = some e → (hash e + dib e) % n = (i + 1) % n)
    (hbefore : ∀ j, (j + 1) % n = i % n → v.elim 0 dib ≤ distAt dib T j + 1)
    (hafter : distAt dib T (i + 1) ≤ v.elim 0 dib + 1) : Ordered n hash dib (putAt n i v T) := by
  refine ⟨fun j => ?_, fun {j e} hj => ?_, fun {j e} hj => ?_, fun j => ?_⟩
  · rw [RobinHood.putAt, RobinHood.putAt, Nat.mod_mod, h.periodic]
  · by_cases hji : j % n = i % n
    · exact hpos e ((putAt_same hji).symm.trans hj)
    · exact h.pos ((putAt_other hji).symm.trans hj)
  · by_cases hji : j % n = i % n
    · rw [hhome e ((putAt_same hji).symm.trans hj), succ_mod_congr hji]
    · exact h.home ((putAt_other hji).symm.trans hj)
  · rw [distAt_putAt, distAt_putAt]
    by_cases hnext : (j + 1) % n = i % n
    · rw [if_pos hnext]
      split_ifs
      · exact Nat.le_succ _
      · exact hbefore j hnext
    · rw [if_neg hnext]
      split_ifs with hji
      · rwa [h.distAt_congr (succ_mod_congr hji)]
      · exact h.tight j

theorem Ordered.replace (h : Ordered n hash dib T) (hb : T i = some b) (hhash : hash e = hash b) (hdib : dib e = dib b) :
    Ordered n hash dib (RobinHood.putAt n i (some e) T) := by
  refine h.putAt (fun _ hv => ?_) (fun _ hv => ?_) (fun j hj => ?_) ?_
  · cases hv
    exact hdib ▸ h.pos hb
  · cases hv
    rw [hhash, hdib, h.home hb]
  · have := h.tight j
    rwa [h.distAt_congr hj, distAt_some hb, ← hdib] at this
  · have := h.tight i
    rwa [distAt_some hb, ← hdib] at this

/-! ## Steps of an insertion -/

/-- An entry takes a slot from one that is no further from home, or a free one. -/
theorem Ordered.place (h : Ordered n hash dib T) (he : Fits n hash dib T i e) (hle : distAt dib T i ≤ dib e) :
    Ordered n hash dib (RobinHood.putAt n i (some e) T) := by
  refine h.putAt (fun _ hv => ?_) (fun _ hv => ?_) he.before ?_
  · cases hv
    exact he.pos
  · cases hv
    exact he.home
  · have := h.tight i
    rw [Option.elim_some]
    omega

theorem home_succ (hhash : hash e' = hash e) (hdib : dib e' = dib e + 1) (hhome : (hash e + dib e) % n = (i + 1) % n) :
    (hash e' + dib e') % n = (i + 1 + 1) % n := by
  rw [hhash, hdib, ← Nat.add_assoc]
  exact succ_mod_congr hhome

theorem Fits.pass (h : Ordered n hash dib T) (he : Fits n hash dib T i e) (hle : dib e ≤ distAt dib T i)
    (hhash : hash e' = hash e) (hdib : dib e' = dib e + 1) : Fits n hash dib T (i + 1) e' := by
  refine ⟨by omega, home_succ hhash hdib he.home, fun j hj => ?_⟩
  rw [h.distAt_congr (mod_of_succ hj)]
  omega

theorem Ordered.evicted (h : Ordered n hash dib T) (hb : T i = some b) (hle : dib b ≤ dib e) (hhash : hash e' = hash b)
    (hdib : dib e' = dib b + 1) : Fits n hash dib (RobinHood.putAt n i (some e) T) (i + 1) e' := by
  refine ⟨by omega, home_succ hhash hdib (h.home hb), fun j hj => ?_⟩
  rw [distAt_putAt, if_pos (mod_of_succ hj), Option.elim_some]
  omega

theorem fits_home (hdib : dib e = 1) : Fits n hash dib T (hash e) e :=
  ⟨by omega, by rw [hdib], fun j _ => by omega⟩

/-! ## Steps of a removal -/

theorem Ordered.shift (h : Ordered n hash dib T) (hb : T (i + 1) = some b) (hfar : 1 < dib b) (hhash : hash e = hash b)
    (hdib : dib e = dib b - 1) : Ordered n hash dib (RobinHood.putAt n i (some e) T) := by
  -- the entry after a slot moves one nearer to its home, over the entry of the slot
  have hnext := h.tight i
  rw [distAt_some hb] at hnext
  refine h.putAt (fun _ hv => ?_) (fun _ hv => ?_) (fun j hj => ?_) ?_
  · cases hv
    omega
  · cases hv
    have hhome := h.home hb
    have hsucc : hash b + dib b = hash b + (dib b - 1) + 1 := by omega
    rw [hsucc] at hhome
    rw [hhash, hdib]
    exact mod_of_succ hhome
  · have := h.tight j
    rw [h.distAt_congr hj] at this
    rw [Option.elim_some]
    omega
  · rw [distAt_some hb, Option.elim_some]
    omega

theorem Ordered.free (h : Ordered n hash dib T) (hnext : distAt dib T (i + 1) ≤ 1) :
    Ordered n hash dib (RobinHood.putAt n i none T) := by
  refine h.putAt (fun _ hv => ?_) (fun _ hv => ?_) (fun j hj => Nat.zero_le _) hnext <;> cases hv

/-! ## Where an entry is -/

theorem Ordered.distAt_add (h : Ordered n hash dib T) (i k : ℕ) : distAt dib T (i + k) ≤ distAt dib T i + k := by
  induction k with
  | zero => exact Nat.le_refl _
  | succ k ih =>
    have := h.tight (i + k)
    rw [← Nat.add_assoc]
    omega

theorem Ordered.at_dist (h : Ordered n hash dib T) (hb : T i = some b) : T (hash b + (dib b - 1)) = some b := by
  -- an entry is where its distance from home says
  have hpos := h.pos hb
  have hhome := h.home hb
  rw [show hash b + dib b = hash b + (dib b - 1) + 1 by omega] at hhome
  rw [h.congr (mod_of_succ hhome), hb]

/-- From its home on to an entry, no slot is nearer to home than it would be for the entry. -/
theorem Ordered.distAt_home (h : Ordered n hash dib T) (hb : T i = some b) (hk : k < dib b) :
    k + 1 ≤ distAt dib T (hash b + k) := by
  have hadd := h.distAt_add (hash b + k) (dib b - 1 - k)
  rw [show hash b + k + (dib b - 1 - k) = hash b + (dib b - 1) by omega, distAt_some (h.at_dist hb)] at hadd
  omega

theorem Ordered.taken_home (h : Ordered n hash dib T) (hb : T i = some b) (hk : k < dib b) : T (hash b + k) ≠ none := by
  intro hnone
  have := h.distAt_home hb hk
  rw [distAt_none hnone] at this
  omega

/-! ## What the ring holds -/

theorem Ordered.mem_contents (h : Ordered n hash dib T) (hn : 0 < n) : e ∈ contents n T ↔ ∃ i, T i = some e := by
  rw [contents, List.mem_filterMap]
  constructor
  · rintro ⟨i, -, hi⟩
    exact ⟨i, hi⟩
  · rintro ⟨i, hi⟩
    exact ⟨i % n, List.mem_range.mpr (Nat.mod_lt i hn), (h.periodic i).trans hi⟩

theorem filterMap_congr_range {T' : ℕ → Option ε} {l : List ℕ} (h : ∀ j ∈ l, T j = T' j) : l.filterMap T = l.filterMap T' := by
  induction l with
  | nil => rfl
  | cons a l ih =>
    rw [List.filterMap_cons, List.filterMap_cons, h a List.mem_cons_self, ih fun j hj => h j (List.mem_cons_of_mem a hj)]

theorem contents_perm (hn : 0 < n) (i : ℕ) (v : Option ε) (T : ℕ → Option ε) :
    (contents n (putAt n i v T)).Perm (v.toList ++ contents n (putAt n i none T)) := by
  have hmem : i % n ∈ List.range n := List.mem_range.mpr (Nat.mod_lt i hn)
  obtain ⟨l, r, hsplit⟩ := List.append_of_mem hmem
  have hnodup : (l ++ i % n :: r).Nodup := hsplit ▸ List.nodup_range
  have hother : ∀ j ∈ l ++ r, j % n ≠ i % n := by
    intro j hj heq
    have hlt : j < n := by
      refine List.mem_range.mp (hsplit ▸ ?_)
      rw [List.mem_append] at hj
      exact List.mem_append.mpr (hj.imp_right (List.mem_cons_of_mem _))
    rw [Nat.mod_eq_of_lt hlt] at heq
    exact (List.nodup_middle.mp hnodup).notMem (heq ▸ hj)
  have hrest : ∀ w : Option ε, ∀ m : List ℕ, (∀ j ∈ m, j ∈ l ++ r) → m.filterMap (putAt n i w T) = m.filterMap T :=
    fun w m hm => filterMap_congr_range fun j hj => putAt_other (hother j (hm j hj))
  have hl : ∀ j ∈ l, j ∈ l ++ r := fun j hj => List.mem_append_left r hj
  have hr : ∀ j ∈ r, j ∈ l ++ r := fun j hj => List.mem_append_right l hj
  have hself : ∀ w : Option ε, putAt n i w T (i % n) = w := fun w => putAt_same (Nat.mod_mod i n)
  rw [contents, contents, hsplit, List.filterMap_append, List.filterMap_append, List.filterMap_cons, List.filterMap_cons,
    hself v, hself none, hrest v l hl, hrest v r hr, hrest none l hl, hrest none r hr]
  cases v with
  | none => exact List.Perm.refl _
  | some e => exact List.perm_middle

theorem Ordered.contents_place (h : Ordered n hash dib T) (hn : 0 < n) (hi : T i = none) (e : ε) :
    (contents n (RobinHood.putAt n i (some e) T)).Perm (e :: contents n T) := by
  have := contents_perm hn i (some e) T
  rwa [putAt_self h.periodic hi] at this

theorem Ordered.contents_free (h : Ordered n hash dib T) (hn : 0 < n) (hi : T i = some b) :
    (contents n T).Perm (b :: contents n (RobinHood.putAt n i none T)) := by
  have := contents_perm hn i (some b) T
  rwa [putAt_self h.periodic hi] at this

theorem Ordered.contents_swap (h : Ordered n hash dib T) (hn : 0 < n) (hi : T i = some b) (e : ε) :
    (b :: contents n (RobinHood.putAt n i (some e) T)).Perm (e :: contents n T) :=
  ((contents_perm hn i (some e) T).cons b).trans ((List.Perm.swap e b _).trans ((h.contents_free hn hi).symm.cons e))

/-! ## Free slots -/

theorem length_contents (n : ℕ) (T : ℕ → Option ε) : (contents n T).length = (List.range n).countP fun j => (T j).isSome :=
  List.length_filterMap_eq_countP

theorem exists_free (hlt : (contents n T).length < n) : ∃ i < n, T i = none := by
  by_contra hall
  refine Nat.lt_irrefl n (lt_of_eq_of_lt ?_ hlt)
  rw [length_contents, List.countP_eq_length.mpr fun j hj => ?_, List.length_range]
  rw [Option.isSome_iff_ne_none]
  exact fun hnone => hall ⟨j, List.mem_range.mp hj, hnone⟩

theorem Ordered.exists_free_from (h : Ordered n hash dib T) (hlt : (contents n T).length < n) (i : ℕ) :
    ∃ k < n, T (i + k) = none := by
  obtain ⟨j, hj, hfree⟩ := exists_free hlt
  refine ⟨(j + (n - i % n)) % n, Nat.mod_lt _ (by omega), ?_⟩
  rw [← hfree]
  refine h.congr ?_
  have hi : i % n < n := Nat.mod_lt _ (by omega)
  have hdiv := Nat.mod_add_div i n
  rw [Nat.add_mod_mod, show i + (j + (n - i % n)) = j + n * (i / n + 1) by rw [Nat.mul_add]; omega, Nat.add_mul_mod_self_left]

/-- No entry is further from home than there are entries, as long as a slot is free. -/
theorem Ordered.dist_le_length (h : Ordered n hash dib T) (hlt : (contents n T).length < n) (hb : T i = some b) :
    dib b ≤ (contents n T).length := by
  have hn : 0 < n := by omega
  -- the slots from home to the entry, at most a whole round of them, are taken and all different
  have hrun : ∀ d, d ≤ dib b → d ≤ n → d ≤ (contents n T).length := by
    intro d hd hdn
    have hnodup : ((List.range d).map fun k => (hash b + k) % n).Nodup := by
      refine List.Nodup.map_on (fun k hk k' hk' heq => ?_) List.nodup_range
      have hk := List.mem_range.mp hk
      have hk' := List.mem_range.mp hk'
      have hmod : k % n = k' % n := Nat.ModEq.add_left_cancel' (hash b) heq
      rwa [Nat.mod_eq_of_lt (by omega), Nat.mod_eq_of_lt (by omega)] at hmod
    have hsub : ((List.range d).map fun k => (hash b + k) % n) ⊆ (List.range n).filter fun j => (T j).isSome := by
      intro j hj
      obtain ⟨k, hk, rfl⟩ := List.mem_map.mp hj
      refine List.mem_filter.mpr ⟨List.mem_range.mpr (Nat.mod_lt _ hn), ?_⟩
      rw [h.periodic, Option.isSome_iff_ne_none]
      exact h.taken_home hb ((List.mem_range.mp hk).trans_le hd)
    have hle := (hnodup.subperm hsub).length_le
    rwa [List.length_map, List.length_range, ← List.countP_eq_length_filter, ← length_contents] at hle
  rcases Nat.le_total (dib b) n with hle | hge
  · exact hrun _ (Nat.le_refl _) hle
  · have := hrun n hge (Nat.le_refl n)
    omega

end Yjc.RobinHood
