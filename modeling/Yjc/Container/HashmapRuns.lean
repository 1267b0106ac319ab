import Yjc.Container.HashmapBuckets
import Yjc.Lib.ClassMap
import Yjc.Lib.Run

/-! Every run of `container/hashmap.c` answers as a map does, whatever allocations fail, as long as no insertion starts with
more items than a distance in 16 bits can tell apart. -/

namespace Yjc
open RobinHood ClassMap

namespace Hashmap
variable {δ : Type*} {q p : ℕ} {buckets : List (Option (HmBucket δ))} {e b : HmBucket δ} {map : Hashmap δ}

/-! ## Capacities -/

theorem doubleUntil_spec (cap k j : ℕ) : ∃ q, j ≤ q ∧ doubleUntil cap k (2 ^ j) = 2 ^ q ∧ (cap ≤ 2 ^ (j + k) → cap ≤ 2 ^ q) ∧
    (q = j ∨ 2 ^ (q - 1) < cap) := by
  induction k generalizing j with
  | zero => exact ⟨j, Nat.le_refl j, rfl, id, .inl rfl⟩
  | succ k ih =>
    rw [doubleUntil]
    split_ifs with hlt
    · obtain ⟨q, hjq, heq, hcap, hmin⟩ := ih (j + 1)
      rw [Nat.pow_succ] at heq
      refine ⟨q, by omega, heq, fun h => hcap (by rwa [Nat.add_assoc, Nat.add_comm 1]), .inr ?_⟩
      rcases hmin with rfl | hmin
      · exact hlt
      · exact hmin
    · exact ⟨j, Nat.le_refl j, rfl, fun _ => Nat.le_of_not_lt hlt, .inl rfl⟩

theorem roundCap_spec (cap : ℕ) : ∃ q, 4 ≤ q ∧ roundCap cap = 2 ^ q ∧ cap ≤ 2 ^ q ∧ (q = 4 ∨ 2 ^ (q - 1) < cap) := by
  rw [roundCap]
  split_ifs with hlt
  · exact ⟨4, Nat.le_refl 4, rfl, by omega, .inl rfl⟩
  · obtain ⟨q, hq, heq, hcap, hmin⟩ := doubleUntil_spec cap cap 4
    have hle : cap ≤ 2 ^ (4 + cap) := Nat.lt_two_pow_self.le.trans (Nat.pow_le_pow_right Nat.two_pos (Nat.le_add_left cap 4))
    exact ⟨q, hq, heq, hcap hle, hmin⟩

theorem roundCap_pow (hq : 4 ≤ q) : roundCap (2 ^ q) = 2 ^ q := by
  obtain ⟨r, hr, heq, hle, hmin⟩ := roundCap_spec (2 ^ q)
  have hqr : q ≤ r := (Nat.pow_le_pow_iff_right Nat.one_lt_two).mp hle
  have hrq : r ≤ q := by
    rcases hmin with rfl | hlt
    · exact hq
    · have := (Nat.pow_lt_pow_iff_right Nat.one_lt_two).mp hlt
      omega
  rw [heq, Nat.le_antisymm hqr hrq]

/-! ## Moving to other buckets -/

theorem entries_eq (map : Hashmap δ) : map.entries = contents map.nbuckets (slot map.nbuckets map.buckets) := by
  refine filterMap_congr_range fun j hj => ?_
  rw [slot, Nat.mod_eq_of_lt (List.mem_range.mp hj)]

def pairs (map : Hashmap δ) : List (UInt64 × δ) := map.entries.map key

theorem pairs_eq (h : map.nbuckets = 2 ^ q) : map.pairs = keys (2 ^ q) (slot (2 ^ q) map.buckets) := by
  rw [pairs, entries_eq, h, keys]

theorem rehash_spec {map2 : Hashmap δ} (hmask : map2.mask = 2 ^ q - 1) (hnb : map2.nbuckets = 2 ^ q) (h : Roomy q map2.buckets)
    (entry : HmBucket δ) :
    ∃ buckets', rehash map2 entry = some { map2 with buckets := buckets' } ∧ buckets'.length = map2.buckets.length ∧
      Ordered (2 ^ q) hashOf HmBucket.dib (slot (2 ^ q) buckets') ∧
      (keys (2 ^ q) (slot (2 ^ q) buckets')).Perm (key entry :: keys (2 ^ q) (slot (2 ^ q) map2.buckets)) := by
  have hfits : Fits (2 ^ q) hashOf HmBucket.dib (slot (2 ^ q) map2.buckets) entry.hash.toNat { entry with dib := 1 } :=
    @fits_home (HmBucket δ) _ hashOf _ _ { entry with dib := 1 } rfl
  obtain ⟨buckets', hplace, hlen, hord, hperm⟩ := @place_new δ q _ _ _ (fun _ _ => false) (fun _ _ _ => rfl) (2 ^ q) h hfits
    (List.pairwise_of_forall fun _ _ => rfl) (h.ordered.exists_free_from h.lt _)
  refine ⟨buckets', ?_, hlen, hord, hperm⟩
  rw [rehash, hmask, hnb, and_mask, hplace]
  rfl

theorem rehash_all (l : List (HmBucket δ)) {map2 : Hashmap δ} (hmask : map2.mask = 2 ^ q - 1) (hnb : map2.nbuckets = 2 ^ q)
    (hlen : 2 ^ q ≤ map2.buckets.length) (hord : Ordered (2 ^ q) hashOf HmBucket.dib (slot (2 ^ q) map2.buckets))
    (hlt : (contents (2 ^ q) (slot (2 ^ q) map2.buckets)).length + l.length < 2 ^ q)
    (hshort : (contents (2 ^ q) (slot (2 ^ q) map2.buckets)).length + l.length < 2 ^ 16) :
    ∃ buckets', l.foldlM rehash map2 = some { map2 with buckets := buckets' } ∧ buckets'.length = map2.buckets.length ∧
      Ordered (2 ^ q) hashOf HmBucket.dib (slot (2 ^ q) buckets') ∧
      (keys (2 ^ q) (slot (2 ^ q) buckets')).Perm (l.map key ++ keys (2 ^ q) (slot (2 ^ q) map2.buckets)) := by
  induction l generalizing map2 with
  | nil => exact ⟨_, rfl, rfl, hord, List.Perm.refl _⟩
  | cons e l ih =>
    rw [List.length_cons] at hlt hshort
    obtain ⟨buckets₁, hrehash, hlen₁, hord₁, hperm₁⟩ := rehash_spec hmask hnb ⟨hlen, hord, by omega, by omega⟩ e
    have hsize : (contents (2 ^ q) (slot (2 ^ q) buckets₁)).length = (contents (2 ^ q) (slot (2 ^ q) map2.buckets)).length + 1 := by
      have := hperm₁.length_eq
      rwa [List.length_cons, keys, keys, List.length_map, List.length_map] at this
    obtain ⟨buckets', hfold, hlen', hord', hperm⟩ := @ih { map2 with buckets := buckets₁ } hmask hnb
      (hlen.trans hlen₁.ge) hord₁ (by rw [hsize]; omega) (by rw [hsize]; omega)
    refine ⟨buckets', ?_, hlen'.trans hlen₁, hord', hperm.trans ?_⟩
    · rw [List.foldlM_cons, hrehash]
      exact hfold
    · exact (hperm₁.append_left _).trans List.perm_middle

/-! ## What every operation keeps -/

structure Ok (q : ℕ) (map : Hashmap δ) : Prop where
  nbuckets : map.nbuckets = 2 ^ q
  mask : map.mask = 2 ^ q - 1
  cap : ∃ c ≤ q, 4 ≤ c ∧ map.cap = 2 ^ c
  length : 2 ^ q ≤ map.buckets.length
  ordered : Ordered (2 ^ q) hashOf HmBucket.dib (slot (2 ^ q) map.buckets)
  count : map.count = (contents (2 ^ q) (slot (2 ^ q) map.buckets)).length
  lt : map.count < 2 ^ q
  short : map.count < 2 ^ 16
  growat : map.growat < 2 ^ q
  shrinkat : map.shrinkat = 2 ^ q * shrinkAtPercent / 100
  growpower : 0 < map.growpower
  loadfactor : map.loadfactor ≤ 95

theorem Ok.four_le (h : Ok q map) : 4 ≤ q := by
  obtain ⟨c, hcq, hc, -⟩ := h.cap
  omega

theorem percent_lt {n percent : ℕ} (hn : 0 < n) (h : percent ≤ 95) : n * percent / 100 < n := by
  rw [Nat.div_lt_iff_lt_mul (by omega)]
  exact Nat.mul_lt_mul_of_pos_left (by omega) hn

theorem slot_cleared {n k : ℕ} (hn : 0 < n) (hle : n ≤ k) (l : List (Option (HmBucket δ))) :
    slot n (List.replicate k none ++ l) = fun _ => none := by
  funext i
  have hlt : i % n < k := (Nat.mod_lt i hn).trans_le hle
  rw [slot, List.getElem?_append_left (by rwa [List.length_replicate]), List.getElem?_replicate, if_pos hlt]
  rfl

theorem contents_none (n : ℕ) : contents n (fun _ => (none : Option (HmBucket δ))) = [] := List.filterMap_none _

theorem ok_empty {c : ℕ} (hc : 4 ≤ c) (hcq : c ≤ q) (l : List (Option (HmBucket δ))) (hnb : map.nbuckets = 2 ^ q)
    (hmask : map.mask = 2 ^ q - 1) (hcap : map.cap = 2 ^ c) (hbuckets : map.buckets = List.replicate (2 ^ q) none ++ l)
    (hcount : map.count = 0) (hgrow : map.growat < 2 ^ q) (hshrink : map.shrinkat = 2 ^ q * shrinkAtPercent / 100)
    (hpower : 0 < map.growpower) (hload : map.loadfactor ≤ 95) : Ok q map ∧ map.pairs = [] := by
  have hslot : slot (2 ^ q) map.buckets = fun _ => none := by
    rw [hbuckets]
    exact slot_cleared (Nat.two_pow_pos q) (Nat.le_refl _) l
  refine ⟨⟨hnb, hmask, ⟨c, hcq, hc, hcap⟩, ?_, hslot ▸ ordered_empty, ?_, ?_, ?_, hgrow, hshrink, hpower, hload⟩, ?_⟩
  · rw [hbuckets, List.length_append, List.length_replicate]
    exact Nat.le_add_right _ _
  · rw [hslot, contents_none, hcount]
    rfl
  · exact hcount ▸ Nat.two_pow_pos q
  · exact hcount ▸ Nat.two_pow_pos 16
  · rw [pairs_eq hnb, keys, hslot, contents_none]
    rfl

theorem hashmapNew_ok (cap : ℕ) : ∃ q map, @hashmapNew δ cap true = some map ∧ roundCap cap = 2 ^ q ∧ Ok q map ∧
    map.pairs = [] := by
  obtain ⟨q, hq, hround, -⟩ := roundCap_spec cap
  refine ⟨q, _, rfl, hround, ?_⟩
  rw [hround]
  exact ok_empty hq (Nat.le_refl q) [] rfl rfl rfl (List.append_nil _).symm rfl (percent_lt (Nat.two_pow_pos q) (by decide)) rfl
    Nat.one_pos (show growAtPercent ≤ 95 by decide)

theorem resize_fail (map : Hashmap δ) (newCap : ℕ) : map.resize newCap false = some (false, map) := rfl

theorem Ok.resize (h : Ok q map) {r c : ℕ} (hc : 4 ≤ c) (hcr : c ≤ r) (hcap : map.cap = 2 ^ c) (hlt : map.count < 2 ^ r) :
    ∃ map', map.resize (2 ^ r) true = some (true, map') ∧ Ok r map' ∧ map'.pairs.Perm map.pairs ∧ map'.count = map.count ∧
      map'.oom = map.oom := by
  have hr : 4 ≤ r := hc.trans hcr
  have hround : roundCap (2 ^ r) = 2 ^ r := roundCap_pow hr
  obtain ⟨r', map2, hnew, hr', hok, hempty⟩ := @hashmapNew_ok δ (2 ^ r)
  cases (Nat.pow_right_injective (Nat.le_refl 2)) (hround.symm.trans hr')
  have hnone : contents (2 ^ r) (slot (2 ^ r) map2.buckets) = [] := by
    rw [pairs_eq hok.nbuckets, keys, List.map_eq_nil_iff] at hempty
    exact hempty
  have hcount : map.entries.length = map.count := by rw [entries_eq, h.nbuckets, h.count]
  obtain ⟨buckets', hfold, hlen, hord, hperm⟩ := rehash_all map.entries hok.mask hok.nbuckets hok.length hok.ordered
    (by rw [hnone, hcount, List.length_nil, Nat.zero_add]; exact hlt)
    (by rw [hnone, hcount, List.length_nil, Nat.zero_add]; exact h.short)
  rw [keys, keys, hnone, List.map_nil, List.append_nil] at hperm
  have hsize : map.count = (contents (2 ^ r) (slot (2 ^ r) buckets')).length := by
    have := hperm.length_eq
    rw [List.length_map, List.length_map, hcount] at this
    exact this.symm
  have hpairs : ∀ map' : Hashmap δ, map'.nbuckets = 2 ^ r → map'.buckets = buckets' → map'.pairs.Perm map.pairs := by
    intro map' hnb hbuckets
    rw [pairs_eq hnb, hbuckets]
    exact hperm
  refine ⟨{ map with buckets := buckets', nbuckets := map2.nbuckets, mask := map2.mask, growat := map2.growat,
                     shrinkat := map2.shrinkat }, ?_, ⟨hok.nbuckets, hok.mask, ⟨c, hcr, hc, hcap⟩, hok.length.trans hlen.ge, hord, hsize, hlt, h.short, hok.growat,
    hok.shrinkat, h.growpower, h.loadfactor⟩, hpairs _ hok.nbuckets rfl, rfl, rfl⟩
  rw [Hashmap.resize, hnew]
  simp only [hfold, Option.map_some]

/-! ## The operations -/

section Ops
variable {compare : Option (δ → δ → ℤ)} {m : UInt64 × δ → Option (UInt64 × δ)}

structure Refines (compare : Option (δ → δ → ℤ)) (map : Hashmap δ) (m : UInt64 × δ → Option (UInt64 × δ)) : Prop where
  ok : ∃ q, Ok q map
  holds : Holds (same compare) m map.pairs

theorem Ok.roomy (h : Ok q map) (hshort : map.count < 2 ^ 16 - 1) : Roomy q map.buckets :=
  ⟨h.length, h.ordered, h.count ▸ h.lt, h.count ▸ hshort⟩

theorem Ok.withOom (h : Ok q map) (oom : Bool) : Ok q { map with oom := oom } :=
  ⟨h.nbuckets, h.mask, h.cap, h.length, h.ordered, h.count, h.lt, h.short, h.growat, h.shrinkat, h.growpower, h.loadfactor⟩

theorem holds_pairs (he : Equivalence (same compare)) (hnb : map.nbuckets = 2 ^ q) (hbuckets : map.buckets = buckets)
    {l : List (UInt64 × δ)} (hperm : (keys (2 ^ q) (slot (2 ^ q) buckets)).Perm l) (h : Holds (same compare) m l) :
    Holds (same compare) m map.pairs := by
  rw [pairs_eq hnb, hbuckets]
  exact h.perm he hperm

theorem Ok.set (he : Equivalence (same compare)) (h : Ok q map) (hm : Holds (same compare) m map.pairs)
    (hroom : map.count + 1 < 2 ^ q) (hshort : map.count < 2 ^ 16 - 1) (item : δ) (hash : UInt64) :
    ∃ r buckets', place (same compare) map.mask map.nbuckets map.buckets (hash.toNat &&& map.mask) ⟨hash, 1, item⟩ =
        some (r, buckets') ∧ r = (m (hash, item)).map Prod.snd ∧
      let map' := { map with buckets := buckets', count := map.count + if r.isNone then 1 else 0 }
      Ok q map' ∧ Holds (same compare) (put (same compare) (hash, item) m) map'.pairs := by
  have hpairs := pairs_eq h.nbuckets
  have hroomy := h.roomy hshort
  have hfits : Fits (2 ^ q) hashOf HmBucket.dib (slot (2 ^ q) map.buckets) hash.toNat ⟨hash, 1, item⟩ :=
    @fits_home (HmBucket δ) _ hashOf _ _ ⟨hash, 1, item⟩ rfl
  obtain ⟨r, buckets', hplace, hlen, hord, hplaced⟩ := @place_home δ q _ ⟨hash, 1, item⟩ _ (fun _ _ => eq_false_comm he)
    (fun _ _ => same_hash) (2 ^ q) 0 hroomy rfl (hpairs ▸ hm.distinct) hfits (fun j hj => absurd hj (Nat.not_lt_zero j))
    (hroomy.ordered.exists_free_from hroomy.lt _)
  rw [Nat.add_zero] at hplace
  refine ⟨r, buckets', by rw [h.mask, h.nbuckets, and_mask]; exact hplace, ?_⟩
  have hok : ∀ n, n = (contents (2 ^ q) (slot (2 ^ q) buckets')).length → n ≤ map.count + 1 →
      Ok q { map with buckets := buckets', count := n } := fun n hn hle =>
    ⟨h.nbuckets, h.mask, h.cap, h.length.trans hlen.ge, hord, hn, hle.trans_lt hroom, by show n < 2 ^ 16; omega, h.growat,
      h.shrinkat, h.growpower, h.loadfactor⟩
  have hsize : ∀ {l}, (keys (2 ^ q) (slot (2 ^ q) buckets')).Perm l →
      (contents (2 ^ q) (slot (2 ^ q) buckets')).length = l.length := by
    intro l hl
    rw [← hl.length_eq, keys, List.length_map]
  have hcount : map.count = (keys (2 ^ q) (slot (2 ^ q) map.buckets)).length := by rw [keys, List.length_map, h.count]
  cases hplaced with
  | inserted hnew hperm =>
    have hnone : m (hash, item) = none := hm.eq_none.mpr fun y hy => eq_false_comm he (hnew y (hpairs ▸ hy))
    refine ⟨by rw [hnone]; rfl, hok _ ?_ (Nat.le_refl _), ?_⟩
    · rw [hsize hperm, List.length_cons, hcount]
      rfl
    · exact holds_pairs he h.nbuckets rfl hperm (hpairs ▸ Holds.put he hm hnone (he.refl _))
  | replaced y rest heq hold hperm =>
    have hy : m (hash, item) = some y := by
      rw [hm.iff, hpairs, hold.mem_iff]
      exact ⟨List.mem_cons_self, he.symm heq⟩
    refine ⟨by rw [hy]; rfl, hok _ ?_ (Nat.le_succ _), ?_⟩
    · rw [hsize hperm, hcount, hold.length_eq]
      rfl
    · exact holds_pairs he h.nbuckets rfl hperm ((hm.perm he (hpairs ▸ hold.symm)).replace he (he.symm heq))

theorem Ok.setWithHash (he : Equivalence (same compare)) (h : Ok q map) (hm : Holds (same compare) m map.pairs)
    (hshort : map.count < 2 ^ 16 - 1) (item : δ) (hash : UInt64) (ok : Bool) :
    (map.growat ≤ map.count ∧ ok = false ∧ map.setWithHash compare item hash ok = some (none, { map with oom := true })) ∨
      ∃ map', map.setWithHash compare item hash ok = some ((m (clipHash hash, item)).map Prod.snd, map') ∧ map'.oom = false ∧
        Refines compare map' (put (same compare) (clipHash hash, item) m) := by
  have hgrown : (∃ map₁ r, (if map.count ≥ map.growat then
        ({ map with oom := false } : Hashmap δ).resize (map.nbuckets * 2 ^ map.growpower) ok else some (true, { map with oom := false })) =
        some (true, map₁) ∧ Ok r map₁ ∧ map₁.pairs.Perm map.pairs ∧ map₁.count = map.count ∧ map₁.oom = false ∧
        map.count + 1 < 2 ^ r) ∨ (map.growat ≤ map.count ∧ ok = false) := by
    obtain ⟨c, hcq, hc, hcap⟩ := h.cap
    split_ifs with hge
    · cases ok with
      | false => exact .inr ⟨hge, rfl⟩
      | true =>
        have hpow : map.nbuckets * 2 ^ map.growpower = 2 ^ (q + map.growpower) := by rw [h.nbuckets, ← Nat.pow_add]
        have hdouble : 2 * 2 ^ q ≤ 2 ^ (q + map.growpower) := by
          rw [← Nat.pow_succ']
          exact Nat.pow_le_pow_right Nat.two_pos (Nat.add_le_add_left h.growpower q)
        have hlt := h.lt
        obtain ⟨map₁, hresize, hok, hperm, hcount, hoom⟩ := (h.withOom false).resize hc
          (hcq.trans (Nat.le_add_right q map.growpower)) hcap (by show map.count < _; omega)
        refine .inl ⟨map₁, _, ?_, hok, hperm, hcount, hoom, by omega⟩
        rw [hpow]
        exact hresize
    · exact .inl ⟨_, q, rfl, h.withOom false, List.Perm.refl _, rfl, rfl, by have := h.growat; omega⟩
  rcases hgrown with ⟨map₁, r, hgrow, hok, hperm, hcount, hoom, hroom⟩ | ⟨hge, rfl⟩
  · right
    obtain ⟨old, buckets', hplace, hold, hok', hholds⟩ := hok.set he (hm.perm he hperm) (by rwa [hcount]) (by rwa [hcount]) item
      (clipHash hash)
    rw [Hashmap.setWithHash]
    simp only [hgrow, Option.bind_some, hplace, Option.map_some, ← hold]
    cases old with
    | none => exact ⟨_, rfl, hoom, ⟨r, hok'⟩, hholds⟩
    | some y => exact ⟨_, rfl, hoom, ⟨r, hok'⟩, hholds⟩
  · refine .inl ⟨hge, rfl, ?_⟩
    rw [Hashmap.setWithHash]
    simp only [ge_iff_le, if_pos hge, resize_fail, Option.bind_some]

/-! ## Searching and removing -/

theorem Ok.find (he : Equivalence (same compare)) (h : Ok q map) (hm : Holds (same compare) m map.pairs) (x : UInt64 × δ) :
    (Hashmap.find compare map.mask map.buckets x map.nbuckets (x.1.toNat &&& map.mask) = some none ∧ m x = none) ∨
      ∃ i b, Hashmap.find compare map.mask map.buckets x map.nbuckets (x.1.toNat &&& map.mask) = some (some (i % 2 ^ q, b)) ∧
        slot (2 ^ q) map.buckets i = some b ∧ m x = some (key b) := by
  have hpairs := pairs_eq h.nbuckets
  have hspec := @find_spec δ q map.buckets compare (2 ^ q) 0 x h.length h.ordered (fun j hj => absurd hj (Nat.not_lt_zero j))
    (h.ordered.exists_free_from (h.count ▸ h.lt) _)
  rw [Nat.add_zero] at hspec
  rw [h.mask, h.nbuckets, and_mask]
  rcases hspec with ⟨hfind, hnone⟩ | ⟨i, b, hfind, hb, heq⟩
  · exact .inl ⟨hfind, hm.eq_none.mpr fun y hy => eq_false_comm he (hnone y (hpairs ▸ hy))⟩
  · refine .inr ⟨i, b, hfind, hb, (hm.iff _ _).mpr ⟨?_, he.symm heq⟩⟩
    rw [hpairs]
    exact List.mem_map_of_mem ((h.ordered.mem_contents (Nat.two_pow_pos q)).mpr ⟨i, hb⟩)

theorem Ok.getWithHash (he : Equivalence (same compare)) (h : Ok q map) (hm : Holds (same compare) m map.pairs) (item : δ)
    (hash : UInt64) : map.getWithHash compare item hash = some ((m (clipHash hash, item)).map Prod.snd) := by
  rw [Hashmap.getWithHash]
  rcases h.find he hm (clipHash hash, item) with ⟨hfind, hnone⟩ | ⟨i, b, hfind, -, hsome⟩
  · rw [hfind, hnone]
    rfl
  · rw [hfind, hsome]
    rfl

theorem Ok.delWithHash (he : Equivalence (same compare)) (h : Ok q map) (hm : Holds (same compare) m map.pairs) (item : δ)
    (hash : UInt64) (ok : Bool) :
    ∃ map', map.delWithHash compare item hash ok = some ((m (clipHash hash, item)).map Prod.snd, map') ∧ map'.oom = false ∧
      Refines compare map' (drop (same compare) (clipHash hash, item) m) := by
  rw [Hashmap.delWithHash]
  rcases h.find he hm (clipHash hash, item) with ⟨hfind, hnone⟩ | ⟨i, b, hfind, hb, hsome⟩
  · simp only [hfind, Option.bind_some, hnone, Option.map_none]
    exact ⟨_, rfl, rfl, ⟨q, h.withOom false⟩, hm.drop_none he hnone⟩
  · have hn : 0 < 2 ^ q := Nat.two_pow_pos q
    have hfour := h.four_le
    have hset := @slot_set δ (2 ^ q) i map.buckets none hn h.length
    have hlen : 2 ^ q ≤ (map.buckets.set (i % 2 ^ q) none).length := by
      rw [List.length_set]
      exact h.length
    have hself : putAt (2 ^ q) i (some b) (slot (2 ^ q) (map.buckets.set (i % 2 ^ q) none)) = slot (2 ^ q) map.buckets := by
      rw [hset, putAt_putAt, putAt_self (slot_periodic _ _) hb]
    obtain ⟨k, hk, hfree⟩ := h.ordered.exists_free_from (h.count ▸ h.lt) (i + 1)
    obtain ⟨buckets', hshift, hlen', hord, hperm⟩ := shiftBack_spec (by omega) (2 ^ q) hlen (hself ▸ h.ordered) ⟨k, hk, by rwa [hself]⟩
    rw [hset, putAt_putAt] at hperm
    have hold : map.pairs.Perm (key b :: keys (2 ^ q) (slot (2 ^ q) buckets')) := by
      rw [pairs_eq h.nbuckets]
      exact ((h.ordered.contents_free hn hb).map key).trans (hperm.symm.cons _)
    have hcount : map.count = (contents (2 ^ q) (slot (2 ^ q) buckets')).length + 1 := by
      have := hold.length_eq
      rwa [pairs_eq h.nbuckets, keys, List.length_map, ← h.count, List.length_cons, keys, List.length_map] at this
    have hx : same compare (key b) (clipHash hash, item) = true := ((hm.iff _ _).mp hsome).2
    have hholds := (hm.perm he hold.symm).drop he hx
    have hshift : Hashmap.shiftBack map.mask map.nbuckets (map.buckets.set (i % 2 ^ q) none) (i % 2 ^ q) = some buckets' := by
      rw [h.mask, h.nbuckets]
      exact hshift
    have hok : Ok q { map with oom := false, buckets := buckets', count := map.count - 1 } :=
      ⟨h.nbuckets, h.mask, h.cap, hlen.trans hlen'.ge, hord, (Nat.sub_eq_of_eq_add hcount), (Nat.sub_le _ _).trans_lt h.lt,
        (Nat.sub_le _ _).trans_lt h.short, h.growat, h.shrinkat, h.growpower, h.loadfactor⟩
    simp only [hfind, Option.bind_some, hshift, hsome, Option.map_some]
    split_ifs with hshrink
    · cases ok with
      | false => exact ⟨_, rfl, rfl, ⟨q, hok⟩, holds_pairs he h.nbuckets rfl (List.Perm.refl _) hholds⟩
      | true =>
        obtain ⟨hlarge, hfew⟩ := hshrink
        obtain ⟨c, -, hc, hcap⟩ := h.cap
        rw [h.nbuckets, hcap] at hlarge
        have hcq : c < q := (Nat.pow_lt_pow_iff_right Nat.one_lt_two).mp hlarge
        have hhalf : 2 ^ q = 2 ^ (q - 1) * 2 := by rw [← Nat.pow_succ, Nat.succ_eq_add_one, Nat.sub_add_cancel (by omega)]
        rw [h.shrinkat, shrinkAtPercent, hhalf] at hfew
        have hpos := Nat.two_pow_pos (q - 1)
        obtain ⟨map', hresize, hok', hperm', -, hoom⟩ := hok.resize hc (by omega : c ≤ q - 1) hcap (by show map.count - 1 < _; omega)
        have hdiv : map.nbuckets / 2 = 2 ^ (q - 1) := by rw [h.nbuckets, hhalf, Nat.mul_div_cancel _ Nat.two_pos]
        rw [hdiv, hresize]
        refine ⟨_, rfl, hoom, ⟨q - 1, hok'⟩, Holds.perm he ?_ hperm'⟩
        exact holds_pairs he h.nbuckets rfl (List.Perm.refl _) hholds
    · exact ⟨_, rfl, rfl, ⟨q, hok⟩, holds_pairs he h.nbuckets rfl (List.Perm.refl _) hholds⟩

/-! ## Clearing -/

theorem wipe_ok {c : ℕ} (hc : 4 ≤ c) (hcq : c ≤ q) (hnb : map.nbuckets = 2 ^ q) (hcap : map.cap = 2 ^ c)
    (hlen : 2 ^ q ≤ map.buckets.length) (hcount : map.count = 0) (hpower : 0 < map.growpower) (hload : map.loadfactor ≤ 95) :
    ∃ map', map.wipe = some map' ∧ map'.oom = map.oom ∧ (∃ r, Ok r map') ∧ map'.pairs = [] := by
  rw [wipe, if_pos (by rwa [hnb]), hnb]
  have hempty := @ok_empty δ q { map with
    nbuckets := 2 ^ q, mask := 2 ^ q - 1, growat := 2 ^ q * map.loadfactor / 100, shrinkat := 2 ^ q * shrinkAtPercent / 100,
    buckets := List.replicate (2 ^ q) none ++ map.buckets.drop (2 ^ q) } c hc hcq _ rfl rfl hcap rfl hcount
    (percent_lt (Nat.two_pow_pos q) hload) rfl hpower hload
  exact ⟨_, rfl, rfl, ⟨q, hempty.1⟩, hempty.2⟩

theorem Ok.clear (h : Ok q map) (updateCap ok : Bool) :
    ∃ map', map.clear updateCap ok = some map' ∧ map'.oom = map.oom ∧ (∃ r, Ok r map') ∧ map'.pairs = [] := by
  obtain ⟨c, hcq, hc, hcap⟩ := h.cap
  rw [Hashmap.clear, clearCap]
  cases updateCap with
  | true => exact wipe_ok (hc.trans hcq) (Nat.le_refl q) h.nbuckets h.nbuckets h.length rfl h.growpower h.loadfactor
  | false =>
    simp only [Bool.false_eq_true, if_false]
    by_cases hne : map.nbuckets ≠ map.cap
    · -- the capacity is never more than the buckets there are, so those are enough
      have hle : 2 ^ c ≤ 2 ^ q := Nat.pow_le_pow_right Nat.two_pos hcq
      rw [if_pos hne]
      refine wipe_ok hc (Nat.le_refl c) hcap hcap ?_ rfl h.growpower h.loadfactor
      cases ok with
      | false => exact hle.trans h.length
      | true => exact (List.length_replicate.trans hcap).ge
    · rw [if_neg hne]
      exact wipe_ok hc hcq h.nbuckets hcap h.length rfl h.growpower h.loadfactor

theorem Ok.setGrowByPower (h : Ok q map) (power : ℕ) : Ok q (map.setGrowByPower power) := by
  refine ⟨h.nbuckets, h.mask, h.cap, h.length, h.ordered, h.count, h.lt, h.short, h.growat, h.shrinkat, ?_, h.loadfactor⟩
  show 0 < if power < 1 then 1 else if power > 16 then 16 else power
  split_ifs <;> omega

theorem Ok.setLoadFactor (h : Ok q map) (factor : ℕ) : Ok q (map.setLoadFactor factor) := by
  have hle : clampLoadFactor factor ≤ 95 := by
    rw [clampLoadFactor]
    omega
  refine ⟨h.nbuckets, h.mask, h.cap, h.length, h.ordered, h.count, h.lt, h.short, ?_, h.shrinkat, h.growpower, hle⟩
  show map.nbuckets * clampLoadFactor factor / 100 < 2 ^ q
  rw [h.nbuckets]
  exact percent_lt (Nat.two_pow_pos q) hle

end Ops

/-! ## Runs -/

inductive Op (δ : Type*)
  | set (item : δ) (hash : UInt64) (ok : Bool)
  | get (item : δ) (hash : UInt64)
  | del (item : δ) (hash : UInt64) (ok : Bool)
  | clear (updateCap ok : Bool)
  | setGrowByPower (power : ℕ)
  | setLoadFactor (factor : ℕ)

section Runs
variable (compare : Option (δ → δ → ℤ))

def perform (map : Hashmap δ) : Op δ → Option (Option δ × Hashmap δ)
  | .set item hash ok => map.setWithHash compare item hash ok
  | .get item hash => (map.getWithHash compare item hash).map fun r => (r, map)
  | .del item hash ok => map.delWithHash compare item hash ok
  | .clear updateCap ok => (map.clear updateCap ok).map fun map => (none, map)
  | .setGrowByPower power => some (none, map.setGrowByPower power)
  | .setLoadFactor factor => some (none, map.setLoadFactor factor)

def step (map : Hashmap δ) (o : Op δ) : Option (Hashmap δ) := (map.perform compare o).map Prod.snd

/-- A distance in 16 bits can tell the items apart, with one more. -/
def HasRoom (map : Hashmap δ) : Op δ → Prop
  | .set .. => map.count < 2 ^ 16 - 1
  | _ => True

/-- The operation is an insertion that `hashmap_oom` then reports as failed. -/
def failed : Op δ → Hashmap δ → Bool
  | .set .., map => map.oom
  | _, _ => false

def mapPerform (m : UInt64 × δ → Option (UInt64 × δ)) : Op δ → Option δ × (UInt64 × δ → Option (UInt64 × δ))
  | .set item hash _ => ((m (clipHash hash, item)).map Prod.snd, put (same compare) (clipHash hash, item) m)
  | .get item hash => ((m (clipHash hash, item)).map Prod.snd, m)
  | .del item hash _ => ((m (clipHash hash, item)).map Prod.snd, drop (same compare) (clipHash hash, item) m)
  | .clear .. => (none, fun _ => none)
  | _ => (none, m)

end Runs

variable {compare : Option (δ → δ → ℤ)} {m : UInt64 × δ → Option (UInt64 × δ)}

theorem Refines.perform (he : Equivalence (same compare)) (h : Refines compare map m) {o : Op δ} (hroom : HasRoom map o) :
    ∃ r map', map.perform compare o = some (r, map') ∧ ((failed o map' = false ∧ r = (mapPerform compare m o).1 ∧
        Refines compare map' (mapPerform compare m o).2) ∨
      (failed o map' = true ∧ r = none ∧ map.growat ≤ map.count ∧ map' = { map with oom := true })) := by
  obtain ⟨⟨q, hok⟩, hholds⟩ := h
  cases o with
  | set item hash ok =>
    rcases hok.setWithHash he hholds hroom item hash ok with ⟨hfull, -, hset⟩ | ⟨map', hset, hoom, hrefines⟩
    · exact ⟨_, _, hset, .inr ⟨rfl, rfl, hfull, rfl⟩⟩
    · exact ⟨_, _, hset, .inl ⟨hoom, rfl, hrefines⟩⟩
  | get item hash =>
    refine ⟨_, map, ?_, .inl ⟨rfl, rfl, ⟨q, hok⟩, hholds⟩⟩
    rw [Hashmap.perform, hok.getWithHash he hholds]
    rfl
  | del item hash ok =>
    obtain ⟨map', hdel, -, hrefines⟩ := hok.delWithHash he hholds item hash ok
    exact ⟨_, _, hdel, .inl ⟨rfl, rfl, hrefines⟩⟩
  | clear updateCap ok =>
    obtain ⟨map', hclear, -, hok', hnil⟩ := hok.clear updateCap ok
    refine ⟨none, map', ?_, .inl ⟨rfl, rfl, hok', hnil ▸ holds_nil⟩⟩
    rw [Hashmap.perform, hclear]
    rfl
  | setGrowByPower power => exact ⟨_, _, rfl, .inl ⟨rfl, rfl, ⟨q, hok.setGrowByPower power⟩, hholds⟩⟩
  | setLoadFactor factor => exact ⟨_, _, rfl, .inl ⟨rfl, rfl, ⟨q, hok.setLoadFactor factor⟩, hholds⟩⟩

end Hashmap
end Yjc
