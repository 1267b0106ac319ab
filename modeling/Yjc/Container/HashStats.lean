import Yjc.Container.Hash
import Mathlib.Algebra.BigOperators.Group.List.Basic
import Mathlib.Tactic.Ring
import Mathlib.Tactic.Linarith

/-! The statistics of `container/hash.c`: the number of empty chains and the sum of the squares of the lengths, kept up with
every change of a chain. -/

namespace Yjc.Hash
variable {δ : Type*}

structure Stats where
  empty : ℤ
  ssq : ℤ

/-- `hash_update_ssq`. -/
def updateSsq (old new : ℤ) (stats : Stats) : Stats :=
  let adjust := (new + old) * (new - old)
  if adjust < 0 then { stats with ssq := stats.ssq - -adjust } else { stats with ssq := stats.ssq + adjust }

/-- What becomes of the statistics when a bucket becomes the head of a chain. -/
def pushStats (chain : List (HashBucket δ)) (stats : Stats) : Stats :=
  let oldlen := headLen chain
  let newlen := oldlen + 1
  updateSsq oldlen newlen (if newlen = 1 then { stats with empty := stats.empty - 1 } else stats)

def createStats (size maxSize : ℕ) : Option (Hash δ × Stats) := (createSize size maxSize).map fun hash => (hash, ⟨hash.size, 0⟩)

def relinkStats (newSize : ℕ) (s : List (List (HashBucket δ)) × Stats) (hb : HashBucket δ) :
    Option (List (List (HashBucket δ)) × Stats) :=
  let h := hb.key.toNat &&& (newSize - 1)
  s.1[h]?.map fun chain => (s.1.set h (push hb chain), pushStats chain s.2)

def expandStats (s : Hash δ × Stats) : Option (Hash δ × Stats) :=
  let newSize := s.1.size * 2
  if s.1.maxSize ≠ 0 ∧ newSize > s.1.maxSize then some s
  else
    (s.1.index.foldlM (List.foldlM (relinkStats newSize)) (List.replicate newSize [], { s.2 with empty := newSize })).map
      fun r => ({ s.1 with size := newSize, index := r.1 }, r.2)

section Ops
variable (hashKey : δ → UInt32) (hashCmp : δ → δ → Bool)

def addStats (key : UInt32) (newdata : δ) (s : Hash δ × Stats) : Option (Hash δ × Stats) :=
  (if s.1.count + 1 > s.1.size then expandStats s else some s).bind fun s =>
    let index := key.toNat &&& (s.1.size - 1)
    s.1.index[index]?.map fun chain =>
      ({ s.1 with index := s.1.index.set index (push ⟨0, key, newdata⟩ chain), count := s.1.count + 1 }, pushStats chain s.2)

def getStats (data : δ) (allocFunc : Option (δ → Option δ)) (s : Hash δ × Stats) : Option (Option δ × Hash δ × Stats) :=
  if allocFunc.isNone ∧ s.1.count = 0 then some (none, s)
  else do
    let key := hashKey data
    let chain ← s.1.index[key.toNat &&& (s.1.size - 1)]?
    match chain.find? (matches_ hashKey hashCmp data), allocFunc with
    | some bucket, _ => some (some bucket.data, s)
    | none, none => some (none, s)
    | none, some alloc =>
      match alloc data with
      | none => some (none, s)
      | some newdata => (addStats key newdata s).map fun s => (some newdata, s)

def releaseStats (data : δ) (s : Hash δ × Stats) : Option (Option δ × Hash δ × Stats) := do
  let index := (hashKey data).toNat &&& (s.1.size - 1)
  let chain ← s.1.index[index]?
  match unlink hashKey hashCmp data chain with
  | none => some (none, s)
  | some (bucket, rest) =>
    let oldlen := headLen chain
    let newlen := oldlen - 1
    let stats := if rest = [] then { s.2 with empty := s.2.empty + 1 } else s.2
    let rest := rest.modifyHead fun b => { b with len := newlen }
    some (some bucket.data, { s.1 with index := s.1.index.set index rest, count := s.1.count - 1 },
      updateSsq oldlen newlen stats)

def cleanStats (s : Hash δ × Stats) : Hash δ × Stats := (s.1.clean.2, ⟨s.1.size, 0⟩)

def stepStats (s : Hash δ × Stats) : Op δ → Option (Hash δ × Stats)
  | .get data allocFunc => (getStats hashKey hashCmp data allocFunc s).map Prod.snd
  | .lookup data => (getStats hashKey hashCmp data none s).map Prod.snd
  | .release data => (releaseStats hashKey hashCmp data s).map Prod.snd
  | .clean => some (cleanStats s)

def Expands (hash : Hash δ) : Op δ → Prop
  | .get data (some alloc) => hash.count + 1 > hash.size ∧ ¬(hash.maxSize ≠ 0 ∧ hash.size * 2 > hash.maxSize) ∧
      (alloc data).isSome = true ∧ ∀ chain, hash.index[(hashKey data).toNat &&& (hash.size - 1)]? = some chain →
        chain.find? (matches_ hashKey hashCmp data) = none
  | _ => False

end Ops

/-! ## The table without its statistics -/

variable {hashKey : δ → UInt32} {hashCmp : δ → δ → Bool} {size i : ℕ} {index : List (List (HashBucket δ))}
  {chain chain' : List (HashBucket δ)} {hb : HashBucket δ} {s t : Hash δ × Stats} {stats : Stats}

theorem foldlM_flatten {σ α : Type*} (f : σ → α → Option σ) (l : List (List α)) (a : σ) :
    l.foldlM (List.foldlM f) a = l.flatten.foldlM f a := by
  induction l generalizing a with
  | nil => rfl
  | cons x l ih =>
    rw [List.foldlM_cons, List.flatten_cons, List.foldlM_append]
    exact congrArg _ (funext ih)

theorem map_foldlM {σ τ α : Type*} (g : σ → τ) {f : σ → α → Option σ} {f' : τ → α → Option τ}
    (h : ∀ a x, (f a x).map g = f' (g a) x) (l : List α) (a : σ) : (l.foldlM f a).map g = l.foldlM f' (g a) := by
  induction l generalizing a with
  | nil => rfl
  | cons x l ih =>
    rw [List.foldlM_cons, List.foldlM_cons, ← h, Option.bind_eq_bind, Option.bind_eq_bind, Option.map_bind, Option.bind_map]
    exact congrArg _ (funext ih)

theorem relinkStats_fst (n : ℕ) (r : List (List (HashBucket δ)) × Stats) (hb : HashBucket δ) :
    (relinkStats n r hb).map Prod.fst = relink n r.1 hb := by
  rw [relinkStats, Option.map_map]
  rfl

theorem expandStats_fst (s : Hash δ × Stats) : (expandStats s).map Prod.fst = s.1.expand := by
  unfold expandStats expand
  dsimp only
  split_ifs
  · rfl
  · have hfold := map_foldlM Prod.fst (relinkStats_fst (s.1.size * 2)) s.1.index.flatten
      (List.replicate (s.1.size * 2) [], { s.2 with empty := (s.1.size * 2 : ℕ) })
    rw [foldlM_flatten, foldlM_flatten, ← hfold, Option.map_map, Option.map_map]
    rfl

theorem addStats_fst (key : UInt32) (newdata : δ) (s : Hash δ × Stats) :
    (addStats key newdata s).map Prod.fst = s.1.add key newdata := by
  have hsize : (if s.1.count + 1 > s.1.size then s.1.expand else some s.1) =
      (if s.1.count + 1 > s.1.size then expandStats s else some s).map Prod.fst := by
    split_ifs
    · exact (expandStats_fst s).symm
    · rfl
  rw [add, hsize, addStats, Option.map_bind, Option.bind_map]
  refine congrArg _ (funext fun r => ?_)
  rw [Function.comp_apply, Option.map_map]
  rfl

theorem getStats_fst (data : δ) (allocFunc : Option (δ → Option δ)) (s : Hash δ × Stats) :
    (getStats hashKey hashCmp data allocFunc s).map (fun r => (r.1, r.2.1)) = s.1.get hashKey hashCmp data allocFunc := by
  unfold getStats get
  split_ifs
  · rfl
  · rw [Option.bind_eq_bind, Option.bind_eq_bind, Option.map_bind]
    refine congrArg _ (funext fun chain => ?_)
    dsimp only [Function.comp_apply]
    cases chain.find? (matches_ hashKey hashCmp data) with
    | some bucket => rfl
    | none =>
      cases allocFunc with
      | none => rfl
      | some alloc =>
        dsimp only
        cases alloc data with
        | none => rfl
        | some newdata =>
          dsimp only
          rw [← addStats_fst, Option.map_map, Option.map_map]
          rfl

theorem releaseStats_fst (data : δ) (s : Hash δ × Stats) :
    (releaseStats hashKey hashCmp data s).map (fun r => (r.1, r.2.1)) = s.1.release hashKey hashCmp data := by
  unfold releaseStats release
  rw [Option.bind_eq_bind, Option.bind_eq_bind, Option.map_bind]
  refine congrArg _ (funext fun chain => ?_)
  dsimp only [Function.comp_apply]
  cases unlink hashKey hashCmp data chain <;> rfl

theorem stepStats_fst (s : Hash δ × Stats) (o : Op δ) :
    (stepStats hashKey hashCmp s o).map Prod.fst = step hashKey hashCmp s.1 o := by
  cases o with
  | get data allocFunc =>
    rw [stepStats, step, perform, ← getStats_fst, Option.map_map, Option.map_map]
    rfl
  | lookup data =>
    rw [stepStats, step, perform, lookup, ← getStats_fst, Option.map_map, Option.map_map]
    rfl
  | release data =>
    rw [stepStats, step, perform, ← releaseStats_fst, Option.map_map, Option.map_map]
    rfl
  | clean => rfl

/-! ## One chain -/

def empties (index : List (List (HashBucket δ))) : ℤ := index.countP List.isEmpty

def squares (index : List (List (HashBucket δ))) : ℤ := (index.map fun chain => (chain.length : ℤ) ^ 2).sum

def gap (index : List (List (HashBucket δ))) (stats : Stats) : ℤ × ℤ := (stats.empty - empties index, stats.ssq - squares index)

theorem empties_set (hi : index[i]? = some chain) (chain' : List (HashBucket δ)) :
    empties (index.set i chain') + (if chain.isEmpty then 1 else 0) = empties index + if chain'.isEmpty then 1 else 0 := by
  unfold empties
  induction index generalizing i with
  | nil => cases hi
  | cons c index ih =>
    cases i with
    | zero =>
      obtain rfl : c = chain := Option.some.inj hi
      rw [List.set_cons_zero, List.countP_cons, List.countP_cons]
      push_cast
      ring
    | succ i =>
      have := ih (i := i) hi
      rw [List.set_cons_succ, List.countP_cons, List.countP_cons]
      push_cast
      linarith

theorem squares_set (hi : index[i]? = some chain) (chain' : List (HashBucket δ)) :
    squares (index.set i chain') + (chain.length : ℤ) ^ 2 = squares index + (chain'.length : ℤ) ^ 2 := by
  unfold squares
  induction index generalizing i with
  | nil => cases hi
  | cons c index ih =>
    cases i with
    | zero =>
      obtain rfl : c = chain := Option.some.inj hi
      rw [List.set_cons_zero, List.map_cons, List.map_cons, List.sum_cons, List.sum_cons]
      ring
    | succ i =>
      have := ih (i := i) hi
      rw [List.set_cons_succ, List.map_cons, List.map_cons, List.sum_cons, List.sum_cons]
      linarith

theorem gap_push (hi : index[i]? = some chain) (hlen : headLen chain = chain.length) :
    gap (index.set i (push hb chain)) (pushStats chain stats) = gap index stats := by
  have he := empties_set hi (push hb chain)
  have hs := squares_set hi (push hb chain)
  have hpush : (push hb chain).length = chain.length + 1 := by
    have : ((push hb chain).map HashBucket.data).length = _ := congrArg List.length map_data_push
    simpa using this
  have hne : (push hb chain).isEmpty = false := rfl
  rw [hne, if_neg Bool.false_ne_true, add_zero] at he
  rw [hpush] at hs
  have hadjust : ¬(chain.length + 1 + chain.length : ℤ) * (chain.length + 1 - chain.length) < 0 := by
    rw [add_sub_cancel_left, mul_one]
    omega
  unfold gap pushStats updateSsq
  dsimp only
  rw [hlen, if_neg hadjust]
  push_cast at hs
  refine Prod.ext ?_ ?_
  · cases chain with
    | nil =>
      rw [List.isEmpty_nil, if_pos rfl] at he
      rw [List.length_nil, if_pos (by decide)]
      dsimp only
      linarith
    | cons b rest =>
      rw [List.isEmpty_cons, if_neg Bool.false_ne_true, add_zero] at he
      rw [if_neg (by rw [List.length_cons]; omega)]
      dsimp only
      rw [he]
  · split_ifs <;> dsimp only <;> linarith

theorem gap_release {rest : List (HashBucket δ)} (f : HashBucket δ → HashBucket δ) (stats : Stats) (hi : index[i]? = some chain)
    (hlen : headLen chain = chain.length) (hrest : chain.length = rest.length + 1) :
    gap (index.set i (rest.modifyHead f)) (updateSsq (headLen chain) (headLen chain - 1)
      (if rest = [] then { stats with empty := stats.empty + 1 } else stats)) = gap index stats := by
  have he := empties_set hi (rest.modifyHead f)
  have hs := squares_set hi (rest.modifyHead f)
  have hne : chain.isEmpty = false := by
    cases chain with
    | nil => simp at hrest
    | cons => rfl
  have hadjust : (rest.length + 1 - 1 + (rest.length + 1) : ℤ) * (rest.length + 1 - 1 - (rest.length + 1)) < 0 := by
    have : (rest.length + 1 - 1 - (rest.length + 1) : ℤ) = -1 := by ring
    rw [this]
    omega
  rw [hne, if_neg Bool.false_ne_true, add_zero] at he
  rw [List.length_modifyHead, hrest] at hs
  unfold gap updateSsq
  dsimp only
  rw [hlen, hrest]
  push_cast at hs ⊢
  rw [if_pos hadjust]
  refine Prod.ext ?_ ?_
  · cases rest with
    | nil =>
      rw [List.modifyHead_nil, List.isEmpty_nil, if_pos rfl] at he
      rw [if_pos rfl]
      dsimp only
      rw [List.modifyHead_nil]
      linarith
    | cons b rest =>
      rw [List.modifyHead_cons, List.isEmpty_cons, if_neg Bool.false_ne_true, add_zero] at he
      rw [if_neg (List.cons_ne_nil b rest)]
      dsimp only
      rw [List.modifyHead_cons, he]
  · split_ifs <;> dsimp only <;> linarith

/-! ## All chains -/

structure Heads (size : ℕ) (index : List (List (HashBucket δ))) : Prop where
  length : index.length = size
  len : ∀ chain ∈ index, headLen chain = chain.length

theorem Heads.set (h : Heads size index) (hlen : headLen chain' = chain'.length) : Heads size (index.set i chain') := by
  refine ⟨by rw [List.length_set, h.length], fun c hc => ?_⟩
  rcases List.mem_or_eq_of_mem_set hc with hc | rfl
  · exact h.len c hc
  · exact hlen

theorem Heads.exists_chain (h : Heads size index) (hsize : 0 < size) (n : ℕ) :
    ∃ chain, index[n &&& (size - 1)]? = some chain ∧ headLen chain = chain.length := by
  have hlt : n &&& (size - 1) < index.length := by
    rw [h.length]
    exact and_lt n hsize
  exact ⟨_, List.getElem?_eq_getElem hlt, h.len _ (List.getElem_mem hlt)⟩

theorem Heads.push (h : Heads size index) (hi : index[i]? = some chain) (hb : HashBucket δ) (stats : Stats) :
    Heads size (index.set i (push hb chain)) ∧ gap (index.set i (Hash.push hb chain)) (pushStats chain stats) = gap index stats ∧
      (items (index.set i (Hash.push hb chain))).length = (items index).length + 1 := by
  have hlen := h.len chain (List.mem_of_getElem? hi)
  refine ⟨h.set (headLen_push hlen), gap_push hi hlen, ?_⟩
  exact (items_set hi (by rw [map_data_push])).length_eq

theorem relinkStats_buckets (hsize : 0 < size) (buckets : List (HashBucket δ)) (h : Heads size index) (stats : Stats) :
    ∃ r, buckets.foldlM (relinkStats size) (index, stats) = some r ∧ Heads size r.1 ∧ gap r.1 r.2 = gap index stats ∧
      (items r.1).length = (items index).length + buckets.length := by
  induction buckets generalizing index stats with
  | nil => exact ⟨(index, stats), rfl, h, rfl, rfl⟩
  | cons b buckets ih =>
    obtain ⟨chain, hchain, -⟩ := h.exists_chain hsize b.key.toNat
    obtain ⟨hpush, hgap, hcount⟩ := h.push hchain b stats
    obtain ⟨r, hr, hheads, hgap', hcount'⟩ := ih hpush (pushStats chain stats)
    refine ⟨r, ?_, hheads, hgap'.trans hgap, ?_⟩
    · rw [List.foldlM_cons, relinkStats, hchain]
      exact hr
    · rw [hcount', hcount, List.length_cons]
      omega

theorem heads_replicate (n : ℕ) : Heads n (List.replicate n ([] : List (HashBucket δ))) := by
  refine ⟨List.length_replicate, fun chain hc => ?_⟩
  rw [List.eq_of_mem_replicate hc]
  rfl

theorem gap_replicate (n : ℕ) : gap (List.replicate n ([] : List (HashBucket δ))) stats = (stats.empty - n, stats.ssq) := by
  have he : empties (List.replicate n ([] : List (HashBucket δ))) = n := by
    unfold empties
    rw [List.countP_replicate, List.isEmpty_nil, if_pos rfl]
  have hs : squares (List.replicate n ([] : List (HashBucket δ))) = 0 := by
    unfold squares
    rw [List.map_replicate, List.length_nil]
    simp
  rw [gap, he, hs, sub_zero]

/-! ## The operations -/

structure Sound (s : Hash δ × Stats) : Prop where
  pos : 0 < s.1.size
  heads : Heads s.1.size s.1.index
  count : s.1.count = (items s.1.index).length
  empty : (gap s.1.index s.2).1 = 0

def Exact (s : Hash δ × Stats) : Prop := s.2.empty = s.1.index.countP List.isEmpty ∧
  s.2.ssq = (s.1.index.map fun chain => (chain.length : ℤ) ^ 2).sum

theorem Sound.exact_iff (h : Sound s) : Exact s ↔ (gap s.1.index s.2).2 = 0 := by
  have hempty : s.2.empty = s.1.index.countP List.isEmpty := sub_eq_zero.mp h.empty
  rw [Exact, and_iff_right hempty]
  exact sub_eq_zero.symm

theorem Sound.expandStats (h : Sound s) :
    ∃ t, expandStats s = some t ∧ Sound t ∧ t.1.count = s.1.count ∧
      (gap t.1.index t.2).2 = if s.1.maxSize ≠ 0 ∧ s.1.size * 2 > s.1.maxSize then (gap s.1.index s.2).2 else s.2.ssq := by
  unfold Hash.expandStats
  dsimp only
  split_ifs
  · exact ⟨s, rfl, h, rfl, rfl⟩
  · have hpos : 0 < s.1.size * 2 := Nat.mul_pos h.pos Nat.two_pos
    obtain ⟨r, hr, hheads, hgap, hcount⟩ := relinkStats_buckets hpos s.1.index.flatten (heads_replicate (s.1.size * 2))
      { s.2 with empty := (s.1.size * 2 : ℕ) }
    rw [gap_replicate, sub_self] at hgap
    rw [items_replicate, List.length_nil, Nat.zero_add] at hcount
    rw [foldlM_flatten, hr]
    refine ⟨_, rfl, ⟨hpos, hheads, ?_, by rw [hgap]⟩, rfl, by rw [hgap]⟩
    rw [hcount]
    exact h.count.trans (List.length_map _)

theorem Sound.addStats (h : Sound s) (key : UInt32) (newdata : δ) :
    ∃ t, addStats key newdata s = some t ∧ Sound t ∧
      (gap t.1.index t.2).2 =
        if s.1.count + 1 > s.1.size ∧ ¬(s.1.maxSize ≠ 0 ∧ s.1.size * 2 > s.1.maxSize) then s.2.ssq else (gap s.1.index s.2).2 := by
  obtain ⟨mid, hmid, hsound, hgap⟩ : ∃ mid, (if s.1.count + 1 > s.1.size then Hash.expandStats s else some s) = some mid ∧
      Sound mid ∧ (gap mid.1.index mid.2).2 =
        if s.1.count + 1 > s.1.size ∧ ¬(s.1.maxSize ≠ 0 ∧ s.1.size * 2 > s.1.maxSize) then s.2.ssq else (gap s.1.index s.2).2 := by
    by_cases hfull : s.1.count + 1 > s.1.size
    · obtain ⟨mid, hmid, hsound, -, hgap⟩ := h.expandStats
      refine ⟨mid, by rw [if_pos hfull, hmid], hsound, ?_⟩
      rw [hgap]
      by_cases hmax : s.1.maxSize ≠ 0 ∧ s.1.size * 2 > s.1.maxSize
      · rw [if_pos hmax, if_neg fun hc => hc.2 hmax]
      · rw [if_neg hmax, if_pos ⟨hfull, hmax⟩]
    · exact ⟨s, if_neg hfull, h, by rw [if_neg fun hc => hfull hc.1]⟩
  obtain ⟨chain, hchain, -⟩ := hsound.heads.exists_chain hsound.pos key.toNat
  obtain ⟨hpush, hsame, hcount⟩ := hsound.heads.push hchain ⟨0, key, newdata⟩ mid.2
  refine ⟨({ mid.1 with index := _, count := mid.1.count + 1 }, pushStats chain mid.2), ?_, ⟨hsound.pos, hpush, ?_, ?_⟩, ?_⟩
  · rw [Hash.addStats, hmid, Option.bind_some]
    exact congrArg (Option.map _) hchain
  · rw [hcount]
    exact congrArg (· + 1) hsound.count
  · rw [hsame]
    exact hsound.empty
  · rw [hsame]
    exact hgap

/-- What an operation does to the excess of `ssq`. -/
def Excess (s t : Hash δ × Stats) (expands : Prop) : Prop :=
  (expands → (gap t.1.index t.2).2 = s.2.ssq) ∧
    (¬expands → (gap s.1.index s.2).2 = 0 → (gap t.1.index t.2).2 = 0)

theorem Excess.refl {expands : Prop} (h : ¬expands) : Excess s s expands := ⟨fun hc => absurd hc h, fun _ hz => hz⟩

theorem Sound.getStats (h : Sound s) (data : δ) (allocFunc : Option (δ → Option δ)) :
    ∃ r, getStats hashKey hashCmp data allocFunc s = some r ∧ Sound r.2 ∧
      Excess s r.2 (Expands hashKey hashCmp s.1 (.get data allocFunc)) := by
  have hnone (hc : allocFunc = none) : ¬Expands hashKey hashCmp s.1 (.get data allocFunc) := by
    rw [hc]
    exact id
  unfold Hash.getStats
  split_ifs with hempty
  · exact ⟨_, rfl, h, .refl (hnone (Option.isNone_iff_eq_none.mp hempty.1))⟩
  · obtain ⟨chain, hchain, -⟩ := h.heads.exists_chain h.pos (hashKey data).toNat
    dsimp only
    rw [hchain, Option.bind_eq_bind, Option.bind_some]
    cases allocFunc with
    | none =>
      cases hfind : chain.find? (matches_ hashKey hashCmp data) with
      | some bucket => exact ⟨_, rfl, h, .refl (hnone rfl)⟩
      | none => exact ⟨_, rfl, h, .refl (hnone rfl)⟩
    | some alloc =>
      have hiff : Expands hashKey hashCmp s.1 (.get data (some alloc)) ↔
          s.1.count + 1 > s.1.size ∧ ¬(s.1.maxSize ≠ 0 ∧ s.1.size * 2 > s.1.maxSize) ∧ (alloc data).isSome = true ∧
            chain.find? (matches_ hashKey hashCmp data) = none := by
        refine and_congr_right fun _ => and_congr_right fun _ => and_congr_right fun _ => ?_
        exact ⟨fun hall => hall chain hchain, fun hnone c hc => Option.some.inj (hchain.symm.trans hc) ▸ hnone⟩
      cases hfind : chain.find? (matches_ hashKey hashCmp data) with
      | some bucket =>
        refine ⟨_, rfl, h, .refl fun hc => ?_⟩
        have := (hiff.mp hc).2.2.2
        rw [hfind] at this
        cases this
      | none =>
        dsimp only
        cases hnew : alloc data with
        | none =>
          refine ⟨_, rfl, h, .refl fun hc => ?_⟩
          have := (hiff.mp hc).2.2.1
          rw [hnew] at this
          cases this
        | some newdata =>
          obtain ⟨t, ht, hsound, hgap⟩ := h.addStats (hashKey data) newdata
          dsimp only
          rw [ht]
          refine ⟨_, rfl, hsound, fun hc => ?_, fun hc hz => ?_⟩
          · obtain ⟨hfull, hmax, -⟩ := hiff.mp hc
            rw [hgap, if_pos ⟨hfull, hmax⟩]
          · rw [hgap, if_neg, hz]
            rintro ⟨hfull, hmax⟩
            exact hc (hiff.mpr ⟨hfull, hmax, by rw [hnew]; rfl, hfind⟩)

theorem Sound.releaseStats (h : Sound s) (data : δ) :
    ∃ r, releaseStats hashKey hashCmp data s = some r ∧ Sound r.2 ∧ gap r.2.1.index r.2.2 = gap s.1.index s.2 := by
  obtain ⟨chain, hchain, hlen⟩ := h.heads.exists_chain h.pos (hashKey data).toNat
  unfold Hash.releaseStats
  dsimp only
  rw [hchain, Option.bind_eq_bind, Option.bind_some]
  cases hunlink : unlink hashKey hashCmp data chain with
  | none => exact ⟨_, rfl, h, rfl⟩
  | some r =>
    obtain ⟨bucket, rest⟩ := r
    obtain ⟨-, hperm⟩ := (unlink_spec data chain).2 _ hunlink
    have hrest : chain.length = rest.length + 1 := hperm.length_eq
    dsimp only
    generalize hnew : (rest.modifyHead fun b => { b with len := headLen chain - 1 }) = rest'
    have hheads : Heads s.1.size (s.1.index.set ((hashKey data).toNat &&& (s.1.size - 1)) rest') := by
      refine h.heads.set ?_
      rw [← hnew, hlen, hrest]
      cases rest with
      | nil => rfl
      | cons b rest =>
        change ((_ : ℕ) : ℤ) - 1 = _
        simp
    have hgap := gap_release (fun b => { b with len := headLen chain - 1 }) s.2 hchain hlen hrest
    rw [hnew] at hgap
    have hcount : (items s.1.index).length =
        (items (s.1.index.set ((hashKey data).toNat &&& (s.1.size - 1)) rest')).length + 1 := by
      have hset : (s.1.index.set ((hashKey data).toNat &&& (s.1.size - 1)) rest')[_]? = some rest' :=
        List.getElem?_set_self (List.getElem?_eq_some_iff.mp hchain).1
      have hmap : (chain.map HashBucket.data).Perm (bucket.data :: rest'.map HashBucket.data) := by
        rw [← hnew, map_data_modifyHead]
        exact hperm.map HashBucket.data
      have hback := items_set hset hmap
      obtain ⟨hi, rfl⟩ := List.getElem?_eq_some_iff.mp hchain
      rw [List.set_set, List.set_getElem_self hi] at hback
      exact hback.length_eq
    refine ⟨_, rfl, ⟨h.pos, hheads, ?_, ?_⟩, hgap⟩
    · have := h.count
      dsimp only
      omega
    · exact (congrArg Prod.fst hgap).trans h.empty

theorem Sound.cleanStats (h : Sound s) :
    Sound (Hash.cleanStats s) ∧ gap (Hash.cleanStats s).1.index (Hash.cleanStats s).2 = (0, 0) := by
  have hindex : (Hash.cleanStats s).1.index = List.replicate s.1.size [] := by
    change (s.1.index.map fun _ => ([] : List (HashBucket δ))) = _
    rw [List.map_const', h.heads.length]
  have hgap : gap (Hash.cleanStats s).1.index (Hash.cleanStats s).2 = (0, 0) := by
    rw [hindex, gap_replicate]
    exact Prod.ext (sub_self _) rfl
  refine ⟨⟨h.pos, ?_, ?_, congrArg Prod.fst hgap⟩, hgap⟩
  · rw [hindex]
    exact heads_replicate s.1.size
  · rw [hindex, items_replicate]
    change s.1.count - s.1.index.flatten.length = 0
    rw [h.count, items, List.length_map, Nat.sub_self]

theorem Sound.step (h : Sound s) (o : Op δ) :
    ∃ t, stepStats hashKey hashCmp s o = some t ∧ Sound t ∧ Excess s t (Expands hashKey hashCmp s.1 o) := by
  cases o with
  | get data allocFunc =>
    obtain ⟨r, hr, hsound, hexcess⟩ := h.getStats data allocFunc
    exact ⟨r.2, by rw [stepStats, hr, Option.map_some], hsound, hexcess⟩
  | lookup data =>
    obtain ⟨r, hr, hsound, hexcess⟩ : ∃ r, Hash.getStats hashKey hashCmp data none s = some r ∧ _ := h.getStats data none
    exact ⟨r.2, by rw [stepStats, hr, Option.map_some], hsound, hexcess⟩
  | release data =>
    obtain ⟨r, hr, hsound, hgap⟩ : ∃ r, Hash.releaseStats hashKey hashCmp data s = some r ∧ _ := h.releaseStats data
    exact ⟨r.2, by rw [stepStats, hr, Option.map_some], hsound, False.elim, fun _ hz => by rw [hgap, hz]⟩
  | clean =>
    obtain ⟨hsound, hgap⟩ := h.cleanStats
    exact ⟨_, rfl, hsound, False.elim, fun _ _ => by rw [hgap]⟩

theorem items_le_squares (index : List (List (HashBucket δ))) : ((items index).length : ℤ) ≤ squares index := by
  unfold items squares
  rw [List.length_map]
  induction index with
  | nil => simp
  | cons chain index ih =>
    have hsq : (chain.length : ℤ) ≤ (chain.length : ℤ) ^ 2 := by
      exact_mod_cast Nat.le_self_pow (by decide) chain.length
    rw [List.flatten_cons, List.length_append, List.map_cons, List.sum_cons]
    push_cast
    linarith

theorem createStats_sound (k maxSize : ℕ) : ∃ s : Hash δ × Stats, createStats (2 ^ k) maxSize = some s ∧ Sound s ∧ Exact s := by
  have hgap : gap (List.replicate (2 ^ k) ([] : List (HashBucket δ))) ⟨(2 ^ k : ℕ), 0⟩ = (0, 0) := by
    rw [gap_replicate, sub_self]
  have hsound : Sound ((⟨List.replicate (2 ^ k) [], 2 ^ k, maxSize, 0⟩, ⟨(2 ^ k : ℕ), 0⟩) : Hash δ × Stats) :=
    ⟨Nat.two_pow_pos k, heads_replicate _, by rw [items_replicate]; rfl, by rw [hgap]⟩
  refine ⟨_, ?_, hsound, hsound.exact_iff.mpr (by rw [hgap])⟩
  rw [createStats, createSize, if_pos, Option.map_some]
  rw [Nat.and_two_pow_sub_one_eq_mod, Nat.mod_self]

/-- The number of empty chains is right in every state. The sum of squares is right in every state of a run just when no
operation of it doubles the table. -/
theorem hash_stats_exact (hashKey : δ → UInt32) (hashCmp : δ → δ → Bool) (k maxSize : ℕ) (ops : List (Op δ)) :
    ∃ start, createStats (2 ^ k) maxSize = some start ∧
      (∀ p, p <+: ops → ∃ t, Run.exec (stepStats hashKey hashCmp) start p = some t ∧
        t.2.empty = t.1.index.countP List.isEmpty) ∧
      (Run.Along (stepStats hashKey hashCmp) (fun s o => ¬Expands hashKey hashCmp s.1 o) start ops ↔
        ∀ p, p <+: ops → ∃ t, Run.exec (stepStats hashKey hashCmp) start p = some t ∧ Exact t) := by
  obtain ⟨start, hstart, hsound, hexact⟩ : ∃ s : Hash δ × Stats, createStats (2 ^ k) maxSize = some s ∧ Sound s ∧ Exact s :=
    createStats_sound k maxSize
  refine ⟨start, hstart, fun p _ => ?_, ?_⟩
  · have hall : ∀ o ∈ p, True := fun _ _ => trivial
    have hstep : ∀ (_ : List (Op δ)) s o, Sound s → True → ∃ t, stepStats hashKey hashCmp s o = some t ∧ Sound t :=
      fun _ s o h _ => (h.step o).imp fun t ht => ⟨ht.1, ht.2.1⟩
    obtain ⟨t, ht, hsound⟩ := Run.exec_of_along (fun _ s => Sound s) hstep [] hsound (Run.along_of_mem hall start)
    exact ⟨t, ht, sub_eq_zero.mp hsound.empty⟩
  · have hall : ∀ o ∈ ops, True := fun _ _ => trivial
    refine Run.along_iff_prefixes (fun s => Sound s ∧ Exact s) (fun s o h _ hok => ?_) (fun s h => h.2)
      (fun s o t h _ hexpands ht => ?_) ⟨hsound, hexact⟩ (Run.along_of_mem hall start)
    · obtain ⟨t, ht, hsound, -, hexcess⟩ : ∃ t, stepStats hashKey hashCmp s o = some t ∧ _ := h.1.step o
      exact ⟨t, ht, hsound, hsound.exact_iff.mpr (hexcess hok (h.1.exact_iff.mp h.2))⟩
    · obtain ⟨t', ht', hsound, hexcess, -⟩ : ∃ t, stepStats hashKey hashCmp s o = some t ∧ _ := h.1.step o
      obtain rfl := Option.some.inj (ht'.symm.trans ht)
      have hexpands := not_not.mp hexpands
      rw [hsound.exact_iff, hexcess hexpands]
      -- the table is full, so that it holds an item
      have hfull : s.1.count + 1 > s.1.size := by
        match o, hexpands with
        | .get _ (some _), hc => exact hc.1
      have hle := items_le_squares s.1.index
      have hssq : s.2.ssq = squares s.1.index := h.2.2
      have hpos := h.1.pos
      have hcount := h.1.count
      omega

instance decidableExact (s : Hash δ × Stats) : Decidable (Exact s) := by
  unfold Exact
  infer_instance

/-- The table doubles for the second item, and counts the chain of the first one twice. -/
theorem hash_ssq_left_over :
    ∃ t ∈ (createStats 1 0).bind fun s => Run.exec (stepStats (fun n : ℕ => UInt32.ofNat n) fun a b => a == b) s
      [.get 1 (some some), .get 2 (some some)], t.2.ssq = 3 ∧ (t.1.index.map fun chain => (chain.length : ℤ) ^ 2).sum = 2 ∧ ¬Exact t := by
  decide +kernel

end Yjc.Hash
