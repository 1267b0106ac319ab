import Yjc.Container.Hashmap

/-! The loops of `container/hashmap.c` over buckets that are in order: what they return, and that the order is kept. -/

namespace Yjc
open RobinHood

namespace Hashmap
variable {δ : Type*} {q p : ℕ} {buckets : List (Option (HmBucket δ))} {e b : HmBucket δ}

/-! ## An entry that is not in the buckets -/

/-- The buckets in their order, with a bucket to spare and fewer entries than a distance can count. -/
structure Roomy (q : ℕ) (buckets : List (Option (HmBucket δ))) : Prop where
  length : 2 ^ q ≤ buckets.length
  ordered : Ordered (2 ^ q) hashOf HmBucket.dib (slot (2 ^ q) buckets)
  lt : (contents (2 ^ q) (slot (2 ^ q) buckets)).length < 2 ^ q
  short : (contents (2 ^ q) (slot (2 ^ q) buckets)).length < 2 ^ 16 - 1

theorem Roomy.dib_lt (h : Roomy q buckets) (hb : slot (2 ^ q) buckets p = some b) : b.dib < 2 ^ 16 - 1 :=
  (h.ordered.dist_le_length h.lt hb).trans_lt h.short

theorem place_new {eq : UInt64 × δ → UInt64 × δ → Bool} (hsymm : ∀ a b, eq a b = false → eq b a = false) (k : ℕ)
    (h : Roomy q buckets) (he : Fits (2 ^ q) hashOf HmBucket.dib (slot (2 ^ q) buckets) p e)
    (hnew : (key e :: keys (2 ^ q) (slot (2 ^ q) buckets)).Pairwise fun a b => eq a b = false)
    (hfree : ∃ j < k, slot (2 ^ q) buckets (p + j) = none) :
    ∃ buckets', place eq (2 ^ q - 1) k buckets (p % 2 ^ q) e = some (none, buckets') ∧ buckets'.length = buckets.length ∧
      Ordered (2 ^ q) hashOf HmBucket.dib (slot (2 ^ q) buckets') ∧
      (keys (2 ^ q) (slot (2 ^ q) buckets')).Perm (key e :: keys (2 ^ q) (slot (2 ^ q) buckets)) := by
  have hn : 0 < 2 ^ q := Nat.two_pow_pos q
  induction k generalizing buckets p e with
  | zero =>
    obtain ⟨j, hj, -⟩ := hfree
    omega
  | succ k ih =>
    rw [place, getElem?_slot hn h.length p, Option.bind_some]
    cases hb : slot (2 ^ q) buckets p with
    | none =>
      refine ⟨_, rfl, List.length_set, ?_, ?_⟩
      · rw [slot_set hn h.length, store_of_pos he.pos]
        exact h.ordered.place he (by rw [distAt_none hb]; exact Nat.zero_le _)
      · rw [slot_set hn h.length, store_of_pos he.pos]
        exact (h.ordered.contents_place hn hb e).map key
    | some b =>
      have hmem : b ∈ contents (2 ^ q) (slot (2 ^ q) buckets) := (h.ordered.mem_contents hn).mpr ⟨p, hb⟩
      have hne : eq (key e) (key b) = false := (List.pairwise_cons.mp hnew).1 _ (List.mem_map_of_mem hmem)
      have hfree := free_after hb hfree
      simp only [hne, Bool.false_eq_true, if_false, next_mask]
      split_ifs with hlt
      · -- the entry takes the bucket, and the one that had it goes on
        rw [store_of_pos he.pos, bump_of_lt (h.dib_lt hb)]
        have hset := @slot_set δ (2 ^ q) p buckets (some e) hn h.length
        have hswap := h.ordered.contents_swap hn hb e
        have hsize := hswap.length_eq
        rw [List.length_cons, List.length_cons, Nat.add_right_cancel_iff] at hsize
        have hroomy : Roomy q (buckets.set (p % 2 ^ q) (some e)) := by
          refine ⟨by rw [List.length_set]; exact h.length, ?_, ?_, ?_⟩
          · rw [hset]
            exact h.ordered.place he (by rw [distAt_some hb]; exact hlt.le)
          · rw [hset, hsize]
            exact h.lt
          · rw [hset, hsize]
            exact h.short
        have hkeys : (key b :: keys (2 ^ q) (slot (2 ^ q) (buckets.set (p % 2 ^ q) (some e)))).Perm
            (key e :: keys (2 ^ q) (slot (2 ^ q) buckets)) := by
          rw [hset]
          exact hswap.map key
        have hfits : Fits (2 ^ q) hashOf HmBucket.dib (slot (2 ^ q) (buckets.set (p % 2 ^ q) (some e))) (p + 1)
            { b with dib := b.dib + 1 } := by
          rw [hset]
          exact h.ordered.evicted hb hlt.le rfl rfl
        obtain ⟨j, hj, hnone⟩ := hfree
        have hother : (p + 1 + j) % 2 ^ q ≠ p % 2 ^ q := by
          intro heq
          rw [h.ordered.congr heq, hb] at hnone
          cases hnone
        obtain ⟨buckets', hplace, hlen, hord, hperm⟩ := ih hroomy hfits
          ((hkeys.pairwise_iff fun {a b} => hsymm a b).mpr hnew) ⟨j, hj, by rw [hset, putAt_other hother, hnone]⟩
        exact ⟨buckets', hplace, hlen.trans List.length_set, hord, hperm.trans hkeys⟩
      · rw [bump_of_lt (by have := h.dib_lt hb; omega)]
        have hfits : Fits (2 ^ q) hashOf HmBucket.dib (slot (2 ^ q) buckets) (p + 1) { e with dib := e.dib + 1 } :=
          he.pass h.ordered (by rw [distAt_some hb]; omega) rfl rfl
        exact ih h hfits hnew hfree

/-! ## An entry from its home on -/

/-- What the loop of `hashmap_set_with_hash` returns and leaves, from the keys before it. -/
inductive Placed (eq : UInt64 × δ → UInt64 × δ → Bool) (x : UInt64 × δ) (l l' : List (UInt64 × δ)) : Option δ → Prop
  | inserted (hnew : ∀ y ∈ l, eq x y = false) (hperm : l'.Perm (x :: l)) : Placed eq x l l' none
  | replaced (y : UInt64 × δ) (rest : List (UInt64 × δ)) (heq : eq x y = true) (hold : l.Perm (y :: rest))
      (hperm : l'.Perm (x :: rest)) : Placed eq x l l' (some y.2)

theorem not_beyond {eq : UInt64 × δ → UInt64 × δ → Bool} (hhash : ∀ a b, eq a b = true → a.1 = b.1) {d : ℕ}
    (h : Ordered (2 ^ q) hashOf HmBucket.dib (slot (2 ^ q) buckets)) {x : UInt64 × δ}
    (hseen : ∀ j < d, ∀ b, slot (2 ^ q) buckets (x.1.toNat + j) = some b → eq x (key b) = false)
    (hstop : distAt HmBucket.dib (slot (2 ^ q) buckets) (x.1.toNat + d) ≤ d) :
    ∀ y ∈ keys (2 ^ q) (slot (2 ^ q) buckets), eq x y = false := by
  -- once the entry is further from home than what is in the buckets, its key is in none of those that are left
  intro y hy
  obtain ⟨b, hb, rfl⟩ := List.mem_map.mp hy
  obtain ⟨i, hi⟩ := (h.mem_contents (Nat.two_pow_pos q)).mp hb
  by_contra heq
  rw [Bool.not_eq_false] at heq
  have hhome : hashOf b = x.1.toNat := congrArg UInt64.toNat (hhash _ _ heq).symm
  have hat := h.at_dist hi
  rw [hhome] at hat
  have hpos := h.pos hi
  rcases Nat.lt_or_ge d b.dib with hlt | hge
  · have := h.distAt_home hi hlt
    rw [hhome] at this
    omega
  · rw [hseen _ (by omega) b hat] at heq
    cases heq

theorem place_home {eq : UInt64 × δ → UInt64 × δ → Bool} (hsymm : ∀ a b, eq a b = false → eq b a = false)
    (hhash : ∀ a b, eq a b = true → a.1 = b.1) (k : ℕ) {d : ℕ} (h : Roomy q buckets) (hdib : e.dib = d + 1)
    (hkeys : (keys (2 ^ q) (slot (2 ^ q) buckets)).Pairwise fun a b => eq a b = false)
    (he : Fits (2 ^ q) hashOf HmBucket.dib (slot (2 ^ q) buckets) (hashOf e + d) e)
    (hseen : ∀ j < d, ∀ b, slot (2 ^ q) buckets (hashOf e + j) = some b → eq (key e) (key b) = false)
    (hfree : ∃ j < k, slot (2 ^ q) buckets (hashOf e + d + j) = none) :
    ∃ r buckets', place eq (2 ^ q - 1) k buckets ((hashOf e + d) % 2 ^ q) e = some (r, buckets') ∧
      buckets'.length = buckets.length ∧ Ordered (2 ^ q) hashOf HmBucket.dib (slot (2 ^ q) buckets') ∧
      Placed eq (key e) (keys (2 ^ q) (slot (2 ^ q) buckets)) (keys (2 ^ q) (slot (2 ^ q) buckets')) r := by
  have hn : 0 < 2 ^ q := Nat.two_pow_pos q
  induction k generalizing d e with
  | zero =>
    obtain ⟨j, hj, -⟩ := hfree
    omega
  | succ k ih =>
    by_cases hstop : distAt HmBucket.dib (slot (2 ^ q) buckets) (hashOf e + d) ≤ d ∧
        ∀ b, slot (2 ^ q) buckets (hashOf e + d) = some b → eq (key e) (key b) = false
    · -- from here on the entry is known to be new
      have hnew := not_beyond hhash h.ordered (x := key e) hseen hstop.1
      obtain ⟨buckets', hplace, hlen, hord, hperm⟩ := place_new hsymm (k + 1) h he (List.pairwise_cons.mpr ⟨hnew, hkeys⟩) hfree
      exact ⟨none, buckets', hplace, hlen, hord, .inserted hnew hperm⟩
    · rw [place, getElem?_slot hn h.length, Option.bind_some]
      cases hb : slot (2 ^ q) buckets (hashOf e + d) with
      | none => exact absurd ⟨by rw [distAt_none hb]; exact Nat.zero_le d, fun b hb' => by rw [hb] at hb'; cases hb'⟩ hstop
      | some b =>
        by_cases heq : eq (key e) (key b) = true
        · simp only [heq, if_true]
          have hset := @slot_set δ (2 ^ q) (hashOf e + d) buckets (some { b with item := e.item }) hn h.length
          have hkey : key { b with item := e.item } = key e := by
            exact Prod.ext (hhash _ _ heq).symm rfl
          refine ⟨_, _, rfl, List.length_set, ?_, .replaced (key b) _ heq ((h.ordered.contents_free hn hb).map key) ?_⟩
          · rw [hset]
            exact h.ordered.replace hb rfl rfl
          · rw [hset, ← hkey]
            exact (contents_perm hn (hashOf e + d) (some { b with item := e.item }) _).map key
        · rw [Bool.not_eq_true] at heq
          have hle : d + 1 ≤ b.dib := by
            by_contra hlt
            refine hstop ⟨by rw [distAt_some hb]; omega, fun b' hb' => ?_⟩
            rw [hb] at hb'
            cases hb'
            exact heq
          simp only [heq, Bool.false_eq_true, if_false, if_neg (show ¬b.dib < e.dib by omega), next_mask]
          rw [bump_of_lt (by have := h.dib_lt hb; omega)]
          have hfits : Fits (2 ^ q) hashOf HmBucket.dib (slot (2 ^ q) buckets) (hashOf e + d + 1) { e with dib := e.dib + 1 } :=
            he.pass h.ordered (by rw [distAt_some hb]; omega) rfl rfl
          refine ih (e := { e with dib := e.dib + 1 }) (d := d + 1) (by rw [hdib]) hfits (fun j hj b' hb' => ?_) ?_
          · rcases Nat.lt_succ_iff_lt_or_eq.mp hj with hj | rfl
            · exact hseen j hj b' hb'
            · cases hb.symm.trans hb'
              exact heq
          · exact free_after hb hfree

/-! ## The search -/

theorem find_spec {compare : Option (δ → δ → ℤ)} (k : ℕ) {d : ℕ} {x : UInt64 × δ} (hlen : 2 ^ q ≤ buckets.length)
    (h : Ordered (2 ^ q) hashOf HmBucket.dib (slot (2 ^ q) buckets))
    (hseen : ∀ j < d, ∀ b, slot (2 ^ q) buckets (x.1.toNat + j) = some b → same compare x (key b) = false)
    (hfree : ∃ j < k, slot (2 ^ q) buckets (x.1.toNat + d + j) = none) :
    (find compare (2 ^ q - 1) buckets x k ((x.1.toNat + d) % 2 ^ q) = some none ∧
      ∀ y ∈ keys (2 ^ q) (slot (2 ^ q) buckets), same compare x y = false) ∨
    ∃ i b, find compare (2 ^ q - 1) buckets x k ((x.1.toNat + d) % 2 ^ q) = some (some (i % 2 ^ q, b)) ∧
      slot (2 ^ q) buckets i = some b ∧ same compare x (key b) = true := by
  have hn : 0 < 2 ^ q := Nat.two_pow_pos q
  induction k generalizing d with
  | zero =>
    obtain ⟨j, hj, -⟩ := hfree
    omega
  | succ k ih =>
    rw [find, getElem?_slot hn hlen, Option.bind_some]
    cases hb : slot (2 ^ q) buckets (x.1.toNat + d) with
    | none =>
      refine .inl ⟨rfl, not_beyond (fun a b hab => ?_) h hseen (by rw [distAt_none hb]; exact Nat.zero_le d)⟩
      exact same_hash hab
    | some b =>
      by_cases heq : same compare x (key b) = true
      · exact .inr ⟨_, b, if_pos heq, hb, heq⟩
      · simp only [if_neg heq, next_mask, Nat.add_assoc]
        refine ih (fun j hj b' hb' => ?_) ?_
        · rcases Nat.lt_succ_iff_lt_or_eq.mp hj with hj | rfl
          · exact hseen j hj b' hb'
          · cases hb.symm.trans hb'
            exact Bool.eq_false_iff.mpr heq
        · exact free_after hb hfree

/-! ## The removal -/

theorem shiftBack_spec (hq : 0 < q) (k : ℕ) {ph : HmBucket δ} (hlen : 2 ^ q ≤ buckets.length)
    (h : Ordered (2 ^ q) hashOf HmBucket.dib (putAt (2 ^ q) p (some ph) (slot (2 ^ q) buckets)))
    (hfree : ∃ j < k, putAt (2 ^ q) p (some ph) (slot (2 ^ q) buckets) (p + 1 + j) = none) :
    ∃ buckets', shiftBack (2 ^ q - 1) k buckets (p % 2 ^ q) = some buckets' ∧ buckets'.length = buckets.length ∧
      Ordered (2 ^ q) hashOf HmBucket.dib (slot (2 ^ q) buckets') ∧
      (keys (2 ^ q) (slot (2 ^ q) buckets')).Perm (keys (2 ^ q) (putAt (2 ^ q) p none (slot (2 ^ q) buckets))) := by
  -- the bucket to be filled may hold anything: the order is that of the buckets with its old entry `ph` in it
  have hn : 0 < 2 ^ q := Nat.two_pow_pos q
  have hnext : (p + 1) % 2 ^ q ≠ p % 2 ^ q := succ_mod_ne (Nat.one_lt_two_pow hq.ne')
  induction k generalizing buckets p ph with
  | zero =>
    obtain ⟨j, hj, -⟩ := hfree
    omega
  | succ k ih =>
    have hlast : distAt HmBucket.dib (slot (2 ^ q) buckets) (p + 1) ≤ 1 → Ordered (2 ^ q) hashOf HmBucket.dib
        (slot (2 ^ q) (buckets.set (p % 2 ^ q) none)) := by
      intro hle
      have := h.free (i := p) (by rwa [distAt_putAt, if_neg hnext])
      rwa [putAt_putAt, ← slot_set hn hlen] at this
    simp only [shiftBack, next_mask]
    rw [getElem?_slot hn hlen, Option.bind_some]
    cases hb : slot (2 ^ q) buckets (p + 1) with
    | none => exact ⟨_, rfl, List.length_set, hlast (by rw [distAt_none hb]; exact Nat.zero_le 1), by rw [slot_set hn hlen]⟩
    | some b =>
      by_cases hdib : b.dib ≤ 1
      · simp only [if_pos hdib]
        exact ⟨_, rfl, List.length_set, hlast (by rwa [distAt_some hb]), by rw [slot_set hn hlen]⟩
      · simp only [if_neg hdib]
        have hset := @slot_set δ (2 ^ q) p buckets (some { b with dib := b.dib - 1 }) hn hlen
        have hb' : putAt (2 ^ q) p (some ph) (slot (2 ^ q) buckets) (p + 1) = some b := by rw [putAt_other hnext, hb]
        have hord : Ordered (2 ^ q) hashOf HmBucket.dib (slot (2 ^ q) (buckets.set (p % 2 ^ q) (some { b with dib := b.dib - 1 }))) := by
          have := h.shift (e := { b with dib := b.dib - 1 }) hb' (by omega) rfl rfl
          rwa [putAt_putAt, ← hset] at this
        have hself : putAt (2 ^ q) (p + 1) (some b) (slot (2 ^ q) (buckets.set (p % 2 ^ q) (some { b with dib := b.dib - 1 }))) =
            slot (2 ^ q) (buckets.set (p % 2 ^ q) (some { b with dib := b.dib - 1 })) :=
          putAt_self (slot_periodic _ _) (by rw [hset, putAt_other hnext, hb])
        obtain ⟨j, hj, hnone⟩ := free_after hb' hfree
        have hlen₁ : 2 ^ q ≤ (buckets.set (p % 2 ^ q) (some { b with dib := b.dib - 1 })).length := by rwa [List.length_set]
        obtain ⟨buckets', hshift, hlen', hord', hperm⟩ := @ih (p + 1) _ b hlen₁ (by rwa [hself])
          ⟨j, hj, by rw [hself, hset, putAt_eq_none]; exact putAt_eq_none.mp hnone⟩ (succ_mod_ne (Nat.one_lt_two_pow hq.ne'))
        refine ⟨buckets', hshift, hlen'.trans List.length_set, hord', hperm.trans ?_⟩
        -- the entry has moved by one, with its key
        rw [hset, putAt_comm hnext]
        refine ((contents_perm hn p _ _).map key).trans ?_
        rw [putAt_comm hnext.symm]
        have hmove := (contents_perm hn (p + 1) (some b) (putAt (2 ^ q) p none (slot (2 ^ q) buckets))).map key
        rw [putAt_comm hnext, putAt_self (slot_periodic _ _) hb] at hmove
        exact hmove.symm

end Hashmap
end Yjc
