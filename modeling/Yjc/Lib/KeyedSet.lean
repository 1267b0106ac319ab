import Mathlib.Data.List.AList
import Mathlib.Data.List.Sort
import Mathlib.Tactic.Common

/-! Keyed sets of objects that carry their keys themselves. An insertion refuses a key that is taken; the removal of an object that is not
stored under its key is undefined. -/

namespace Yjc.KeyedSet

abbrev Tree (κ ε : Type*) := AList fun _ : κ => ε

/-- The lookup finds every object that has a key under its key, and nothing else. -/
def Indexes {κ ε : Type*} (find : κ → Option ε) (key : ε → Option κ) : Prop := ∀ k e, find k = some e ↔ key e = some k

def Sound {κ ε : Type*} (find : κ → Option ε) (key : ε → Option κ) : Prop := ∀ k e, find k = some e → key e = some k

/-- The lookup after an insertion, which may be refused. -/
def putFree {κ ε : Type*} [DecidableEq κ] (find : κ → Option ε) (k : κ) (e : ε) : κ → Option ε :=
  if find k = none then Function.update find k (some e) else find

section Tree
variable {κ ε : Type*} [DecidableEq κ]

def Tree.find (t : Tree κ ε) (k : κ) : Option ε := AList.lookup k t

def Tree.insert (t : Tree κ ε) (k : κ) (e : ε) : Tree κ ε := if t.find k = none then AList.insert k e t else t

def Tree.remove [DecidableEq ε] (t : Tree κ ε) (k : κ) (e : ε) : Option (Tree κ ε) := if t.find k = some e then some (AList.erase k t) else none

def Tree.elements (le : κ → κ → Bool) (t : Tree κ ε) : List ε := (t.entries.insertionSort fun a b => le a.1 b.1).map Sigma.snd

variable {t : Tree κ ε} {k : κ} {e : ε}

theorem find_empty : (∅ : Tree κ ε).find k = none := AList.lookup_empty k

theorem find_insert (t : Tree κ ε) (k : κ) (e : ε) : (t.insert k e).find = putFree t.find k e := by
  rw [Tree.insert, putFree]
  split_ifs
  · funext l
    by_cases hl : l = k
    · subst hl
      rw [Function.update_self]
      exact AList.lookup_insert t
    · rw [Function.update_of_ne hl]
      exact AList.lookup_insert_ne hl
  · rfl

theorem remove_stored [DecidableEq ε] (h : t.find k = some e) : ∃ t', t.remove k e = some t' ∧ t'.find = Function.update t.find k none := by
  refine ⟨_, if_pos h, funext fun l => ?_⟩
  by_cases hl : l = k
  · subst hl
    rw [Function.update_self]
    exact AList.lookup_erase l t
  · rw [Function.update_of_ne hl]
    exact AList.lookup_erase_ne hl

theorem mem_elements (le : κ → κ → Bool) : e ∈ t.elements le ↔ ∃ k, t.find k = some e := by
  simp only [Tree.elements, List.mem_map, List.mem_insertionSort]
  constructor
  · rintro ⟨⟨k, e⟩, hmem, rfl⟩
    exact ⟨k, AList.mem_lookup_iff.mpr hmem⟩
  · rintro ⟨k, hk⟩
    exact ⟨⟨k, e⟩, AList.mem_lookup_iff.mp hk, rfl⟩

end Tree

/-! ## Lookups and the keys of objects -/

section Indexes
variable {κ ε : Type*} {find find' : κ → Option ε} {key : ε → Option κ} {k l : κ} {e : ε}

theorem Indexes.sound (h : Indexes find key) : Sound find key := fun k e => (h k e).mp

theorem Indexes.none_of_free (h : Indexes find key) (hk : find k = none) (e : ε) : key e ≠ some k := by
  intro he
  cases hk.symm.trans ((h k e).mpr he)

variable [DecidableEq ε]

theorem Indexes.left_iff (h : Indexes find key) (h' : Indexes find' (Function.update key e none)) : find' l = none ↔ ∀ f ∈ find l, f = e := by
  have hleft (f : ε) (hf : f ≠ e) : find' l = some f ↔ find l = some f := by rw [h', h, Function.update_of_ne hf]
  constructor
  · intro hnone f hf
    by_contra hne
    cases hnone.symm.trans ((hleft f hne).mpr hf)
  · intro hall
    by_contra hfound
    obtain ⟨f, hf⟩ := Option.ne_none_iff_exists'.mp hfound
    by_cases hfe : f = e
    · subst hfe
      have hkey := (h' l f).mp hf
      rw [Function.update_self] at hkey
      cases hkey
    · exact hfe (hall f ((hleft f hfe).mp hf))

variable [DecidableEq κ]

theorem Indexes.put (h : Indexes find key) (hk : find k = none) (he : key e = none) :
    Indexes (Function.update find k (some e)) (Function.update key e (some k)) := by
  intro l f
  by_cases hl : l = k <;> by_cases hf : f = e
  · subst hl hf
    simp only [Function.update_self]
  · subst hl
    rw [Function.update_self, Function.update_of_ne hf]
    exact iff_of_false (fun heq => hf (Option.some.inj heq).symm) (h.none_of_free hk f)
  · subst hf
    rw [Function.update_of_ne hl, Function.update_self]
    refine iff_of_false (fun heq => ?_) fun heq => hl (Option.some.inj heq).symm
    cases he.symm.trans ((h l f).mp heq)
  · rw [Function.update_of_ne hl, Function.update_of_ne hf]
    exact h l f

/-- An insertion is right exactly when it is not refused. -/
theorem Indexes.put_iff (h : Indexes find key) (he : key e = none) :
    Indexes (putFree find k e) (Function.update key e (some k)) ↔ find k = none := by
  rw [putFree]
  refine ⟨fun hput => ?_, fun hk => by rw [if_pos hk]; exact h.put hk he⟩
  by_contra hk
  rw [if_neg hk] at hput
  have hfound := (hput k e).mpr (Function.update_self ..)
  cases he.symm.trans ((h k e).mp hfound)

theorem Indexes.drop (h : Indexes find key) (he : key e = some k) : Indexes (Function.update find k none) (Function.update key e none) := by
  intro l f
  by_cases hl : l = k <;> by_cases hf : f = e
  · subst hl hf
    simp only [Function.update_self, reduceCtorEq]
  · subst hl
    rw [Function.update_self, Function.update_of_ne hf]
    refine iff_of_false nofun fun heq => hf ?_
    exact Option.some.inj (((h l f).mpr heq).symm.trans ((h l e).mpr he))
  · subst hf
    rw [Function.update_of_ne hl, Function.update_self]
    refine iff_of_false (fun heq => ?_) nofun
    exact hl (Option.some.inj (((h l f).mp heq).symm.trans he))
  · rw [Function.update_of_ne hl, Function.update_of_ne hf]
    exact h l f

theorem Sound.put (h : Sound find key) (he : key e = none) (k : κ) : Sound (putFree find k e) (Function.update key e (some k)) := by
  intro l f hl
  have hne (hf : find l = some f) : f ≠ e := by
    rintro rfl
    cases he.symm.trans (h l f hf)
  rw [putFree] at hl
  split_ifs at hl
  · by_cases hlk : l = k
    · subst hlk
      rw [Function.update_self] at hl
      cases hl
      exact Function.update_self ..
    · rw [Function.update_of_ne hlk] at hl
      rw [Function.update_of_ne (hne hl)]
      exact h l f hl
  · rw [Function.update_of_ne (hne hl)]
    exact h l f hl

end Indexes

/-! ## Objects in a store -/

section Store
variable {κ ε ν ρ : Type*}

def keyOf (key : ρ → Option κ) (obj : ν → Option ρ) (v : ν) : Option κ := (obj v).bind key

variable {key : ρ → Option κ} {obj : ν → Option ρ} {v : ν} {r r' : ρ}

theorem keyOf_update [DecidableEq ν] (key : ρ → Option κ) (obj : ν → Option ρ) (v : ν) (o : Option ρ) :
    keyOf key (Function.update obj v o) = Function.update (keyOf key obj) v (o.bind key) := by
  funext w
  by_cases hw : w = v
  · subst hw
    simp only [keyOf, Function.update_self]
  · simp only [keyOf, Function.update_of_ne hw]

theorem keyOf_same [DecidableEq ν] (h : keyOf key obj v = key r) : keyOf key (Function.update obj v (some r)) = keyOf key obj := by
  rw [keyOf_update, Option.bind_some, ← h, Function.update_eq_self]

theorem keyOf_free [DecidableEq ν] (h : keyOf key obj v = none) : keyOf key (Function.update obj v none) = keyOf key obj := by
  rw [keyOf_update, Option.bind_none, ← h, Function.update_eq_self]

variable [DecidableEq κ] {tree : ρ → Tree κ ε} {k : κ}

def findIn (tree : ρ → Tree κ ε) (obj : ν → Option ρ) (p : ν × κ) : Option ε := (obj p.1).bind fun r => (tree r).find p.2

theorem findIn_of (h : obj v = some r) (k : κ) : findIn tree obj (v, k) = (tree r).find k := by rw [findIn, h, Option.bind_some]

theorem findIn_update [DecidableEq ν] (h : obj v = some r) {o : Option ε} (ht : (tree r').find = Function.update (tree r).find k o) :
    findIn tree (Function.update obj v (some r')) = Function.update (findIn tree obj) (v, k) o := by
  funext ⟨w, l⟩
  by_cases hw : w = v
  · subst hw
    rw [findIn_of (Function.update_self ..), ht]
    by_cases hl : l = k
    · subst hl
      rw [Function.update_self, Function.update_self]
    · rw [Function.update_of_ne hl, Function.update_of_ne (fun heq => hl (Prod.mk.inj heq).2), findIn_of h]
  · rw [findIn, Function.update_of_ne hw, Function.update_of_ne fun heq => hw (Prod.mk.inj heq).1]
    rfl

theorem findIn_put [DecidableEq ν] (h : obj v = some r) {e : ε} (ht : (tree r').find = putFree (tree r).find k e) :
    findIn tree (Function.update obj v (some r')) = putFree (findIn tree obj) (v, k) e := by
  rw [putFree] at ht ⊢
  rw [findIn_of h]
  split_ifs at ht ⊢
  · exact findIn_update h ht
  · rw [findIn_update h (o := (tree r).find k) (by rw [ht, Function.update_eq_self]), ← findIn_of h, Function.update_eq_self]

theorem findIn_same [DecidableEq ν] (h : ∀ k, findIn tree obj (v, k) = (tree r).find k) : findIn tree (Function.update obj v (some r)) = findIn tree obj := by
  funext ⟨w, l⟩
  by_cases hw : w = v
  · subst hw
    rw [findIn_of (Function.update_self ..), h]
  · simp only [findIn, Function.update_of_ne hw]

end Store

end Yjc.KeyedSet
