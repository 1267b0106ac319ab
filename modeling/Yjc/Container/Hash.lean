import Yjc.Lib.ClassMap
import Yjc.Lib.Run
import Mathlib.Algebra.Order.Ring.Int
import Mathlib.Tactic.SplitIfs

/-! `container/hash.c`: a table of chains that doubles when it holds more items than chains. The head of a chain knows its
length. An access outside of the table, or a failed assertion, is `none`. The statistics, which nothing here reads, are
left out. -/

namespace Yjc
open ClassMap

structure HashBucket (δ : Type*) where
  len : ℤ
  key : UInt32
  data : δ

structure Hash (δ : Type*) where
  /-- The chains, each as the list of its buckets. -/
  index : List (List (HashBucket δ))
  size : ℕ
  maxSize : ℕ
  count : ℕ

namespace Hash
variable {δ : Type*}

/-- `hash_create_size`, with the `max_size` that its caller sets. -/
def createSize (size maxSize : ℕ) : Option (Hash δ) :=
  if size &&& (size - 1) = 0 then some ⟨List.replicate size [], size, maxSize, 0⟩ else none

def headLen : List (HashBucket δ) → ℤ
  | [] => 0
  | b :: _ => b.len

/-- A bucket becomes the head of a chain, and takes over its length. -/
def push (hb : HashBucket δ) (chain : List (HashBucket δ)) : List (HashBucket δ) :=
  let oldlen := headLen chain
  let newlen := oldlen + 1
  let chain := if newlen = 1 then chain else chain.modifyHead fun b => { b with len := 0 }
  { hb with len := newlen } :: chain

/-- The body of the loops of `hash_expand`. -/
def relink (newSize : ℕ) (newIndex : List (List (HashBucket δ))) (hb : HashBucket δ) :
    Option (List (List (HashBucket δ))) :=
  let h := hb.key.toNat &&& (newSize - 1)
  newIndex[h]?.map fun chain => newIndex.set h (push hb chain)

def expand (hash : Hash δ) : Option (Hash δ) :=
  let newSize := hash.size * 2
  if hash.maxSize ≠ 0 ∧ newSize > hash.maxSize then some hash
  else
    (hash.index.foldlM (List.foldlM (relink newSize)) (List.replicate newSize [])).map
      fun newIndex => { hash with size := newSize, index := newIndex }

section Ops
variable (hashKey : δ → UInt32) (hashCmp : δ → δ → Bool)

/-- `bucket->key == key && hash_cmp(bucket->data, data)`. -/
def matches_ (data : δ) (bucket : HashBucket δ) : Bool :=
  decide (bucket.key = hashKey data) && hashCmp bucket.data data

/-- The end of `hash_get`: a bucket for the new item. -/
def add (key : UInt32) (newdata : δ) (hash : Hash δ) : Option (Hash δ) :=
  (if hash.count + 1 > hash.size then hash.expand else some hash).bind fun hash =>
    let index := key.toNat &&& (hash.size - 1)
    hash.index[index]?.map fun chain =>
      { hash with index := hash.index.set index (push ⟨0, key, newdata⟩ chain), count := hash.count + 1 }

def get (data : δ) (allocFunc : Option (δ → Option δ)) (hash : Hash δ) : Option (Option δ × Hash δ) :=
  if allocFunc.isNone ∧ hash.count = 0 then some (none, hash)
  else do
    let key := hashKey data
    let chain ← hash.index[key.toNat &&& (hash.size - 1)]?
    match chain.find? (matches_ hashKey hashCmp data), allocFunc with
    | some bucket, _ => some (some bucket.data, hash)
    | none, none => some (none, hash)
    | none, some alloc =>
      match alloc data with
      | none => some (none, hash)
      | some newdata => (hash.add key newdata).map fun hash => (some newdata, hash)

def lookup (data : δ) (hash : Hash δ) : Option (Option δ × Hash δ) := hash.get hashKey hashCmp data none

/-- The loop of `hash_release`: the first bucket that matches is linked past. -/
def unlink (data : δ) : List (HashBucket δ) → Option (HashBucket δ × List (HashBucket δ))
  | [] => none
  | bucket :: next =>
    if matches_ hashKey hashCmp data bucket then some (bucket, next)
    else (unlink data next).map fun r => (r.1, bucket :: r.2)

def release (data : δ) (hash : Hash δ) : Option (Option δ × Hash δ) := do
  let index := (hashKey data).toNat &&& (hash.size - 1)
  let chain ← hash.index[index]?
  match unlink hashKey hashCmp data chain with
  | none => some (none, hash)
  | some (bucket, rest) =>
    let newlen := headLen chain - 1
    let rest := rest.modifyHead fun b => { b with len := newlen }
    some (some bucket.data, { hash with index := hash.index.set index rest, count := hash.count - 1 })

end Ops

/-- What `free_func` is called with, and the table after that. -/
def clean (hash : Hash δ) : List δ × Hash δ :=
  (hash.index.flatten.map HashBucket.data,
    { hash with index := hash.index.map fun _ => [], count := hash.count - hash.index.flatten.length })

inductive Op (δ : Type*)
  | get (data : δ) (allocFunc : Option (δ → Option δ))
  | lookup (data : δ)
  | release (data : δ)
  | clean

section Runs
variable (hashKey : δ → UInt32) (hashCmp : δ → δ → Bool)

def perform (hash : Hash δ) : Op δ → Option (Option δ × Hash δ)
  | .get data allocFunc => hash.get hashKey hashCmp data allocFunc
  | .lookup data => hash.lookup hashKey hashCmp data
  | .release data => hash.release hashKey hashCmp data
  | .clean => some (none, hash.clean.2)

def step (hash : Hash δ) (o : Op δ) : Option (Hash δ) := (hash.perform hashKey hashCmp o).map Prod.snd

/-- `alloc_func` returns nothing or an item that is equal to its argument. -/
def Valid : Op δ → Prop
  | .get data (some alloc) => ∀ x ∈ alloc data, hashCmp x data = true
  | _ => True

def mapPerform (m : δ → Option δ) : Op δ → Option δ × (δ → Option δ)
  | .get data allocFunc =>
    match m data, allocFunc.bind fun alloc => alloc data with
    | some x, _ => (some x, m)
    | none, none => (none, m)
    | none, some x => (some x, put hashCmp x m)
  | .lookup data => (m data, m)
  | .release data => (m data, drop hashCmp data m)
  | .clean => (none, fun _ => none)

end Runs

/-! ## The items of a table -/

def items (index : List (List (HashBucket δ))) : List δ := index.flatten.map HashBucket.data

/-- Every bucket is in the chain of its key, and every head knows the length of its chain. -/
structure Chained (hashKey : δ → UInt32) (size : ℕ) (index : List (List (HashBucket δ))) : Prop where
  length : index.length = size
  home : ∀ (i : ℕ) (chain), index[i]? = some chain → ∀ b ∈ chain, b.key = hashKey b.data ∧ b.key.toNat &&& (size - 1) = i
  len : ∀ (i : ℕ) (chain), index[i]? = some chain → headLen chain = chain.length

variable {hashKey : δ → UInt32} {hashCmp : δ → δ → Bool} {size i : ℕ} {index : List (List (HashBucket δ))}
  {chain : List (HashBucket δ)} {hb : HashBucket δ}

theorem map_data_push : (push hb chain).map HashBucket.data = hb.data :: chain.map HashBucket.data := by
  unfold push
  cases chain with
  | nil => simp
  | cons b rest =>
    dsimp only
    split_ifs <;> rfl

theorem mem_push {b : HashBucket δ} (hb' : b ∈ push hb chain) :
    b.key = hb.key ∧ b.data = hb.data ∨ ∃ b' ∈ chain, b.key = b'.key ∧ b.data = b'.data := by
  unfold push at hb'
  rcases List.mem_cons.mp hb' with rfl | hmem
  · exact .inl ⟨rfl, rfl⟩
  · refine .inr ?_
    split_ifs at hmem
    · exact ⟨b, hmem, rfl, rfl⟩
    · cases chain with
      | nil => cases hmem
      | cons c rest =>
        rcases List.mem_cons.mp hmem with rfl | hmem
        · exact ⟨c, List.mem_cons_self, rfl, rfl⟩
        · exact ⟨b, List.mem_cons_of_mem _ hmem, rfl, rfl⟩

theorem headLen_push (h : headLen chain = chain.length) : headLen (push hb chain) = (push hb chain).length := by
  have hlen : (push hb chain).length = chain.length + 1 := by
    have : ((push hb chain).map HashBucket.data).length = _ := congrArg List.length map_data_push
    simpa using this
  rw [hlen]
  change headLen chain + 1 = _
  rw [h]
  rfl

theorem items_set (hi : index[i]? = some chain) {x : δ} {chain' : List (HashBucket δ)}
    (hp : (chain'.map HashBucket.data).Perm (x :: chain.map HashBucket.data)) :
    (items (index.set i chain')).Perm (x :: items index) := by
  induction index generalizing i with
  | nil => cases hi
  | cons c index ih =>
    cases i with
    | zero =>
      cases hi
      simp only [items, List.set_cons_zero, List.flatten_cons, List.map_append]
      exact hp.append_right _
    | succ i =>
      have := ih hi
      simp only [items, List.set_cons_succ, List.flatten_cons, List.map_append] at this ⊢
      exact (this.append_left _).trans List.perm_middle

theorem Chained.set (h : Chained hashKey size index) {chain' : List (HashBucket δ)}
    (hhome : ∀ b ∈ chain', b.key = hashKey b.data ∧ b.key.toNat &&& (size - 1) = i) (hlen : headLen chain' = chain'.length) :
    Chained hashKey size (index.set i chain') := by
  have hcases : ∀ j c, (index.set i chain')[j]? = some c → (i = j ∧ c = chain') ∨ index[j]? = some c := by
    intro j c hc
    rw [List.getElem?_set] at hc
    split_ifs at hc with hij
    · exact .inl ⟨hij, (Option.some.inj hc).symm⟩
    · exact .inr hc
  refine ⟨by rw [List.length_set, h.length], ?_, ?_⟩
  · intro j c hc
    obtain ⟨rfl, rfl⟩ | hc := hcases j c hc
    · exact hhome
    · exact h.home j c hc
  · intro j c hc
    obtain ⟨rfl, rfl⟩ | hc := hcases j c hc
    · exact hlen
    · exact h.len j c hc

theorem Chained.push (h : Chained hashKey size index) (hi : index[hb.key.toNat &&& (size - 1)]? = some chain)
    (hkey : hb.key = hashKey hb.data) :
    Chained hashKey size (index.set (hb.key.toNat &&& (size - 1)) (push hb chain)) ∧
      (items (index.set (hb.key.toNat &&& (size - 1)) (push hb chain))).Perm (hb.data :: items index) := by
  refine ⟨h.set ?_ (headLen_push (h.len _ _ hi)), items_set hi (by rw [map_data_push])⟩
  intro b hb'
  obtain ⟨hk, hd⟩ | ⟨b', hmem, hk, hd⟩ := mem_push hb'
  · rw [hk, hd]
    exact ⟨hkey, rfl⟩
  · rw [hk, hd]
    exact h.home _ _ hi b' hmem

theorem and_lt (n : ℕ) (hsize : 0 < size) : n &&& (size - 1) < size :=
  lt_of_le_of_lt Nat.and_le_right (Nat.sub_lt hsize Nat.one_pos)

theorem Chained.exists_chain (h : Chained hashKey size index) (hsize : 0 < size) (n : ℕ) :
    ∃ chain, index[n &&& (size - 1)]? = some chain :=
  ⟨_, List.getElem?_eq_getElem (by rw [h.length]; exact and_lt n hsize)⟩

theorem relink_chain (hsize : 0 < size) (hchain : ∀ b ∈ chain, b.key = hashKey b.data) (h : Chained hashKey size index) :
    ∃ index', chain.foldlM (relink size) index = some index' ∧ Chained hashKey size index' ∧
      (items index').Perm (chain.map HashBucket.data ++ items index) := by
  induction chain generalizing index with
  | nil => exact ⟨index, rfl, h, .rfl⟩
  | cons b rest ih =>
    obtain ⟨c, hc⟩ := h.exists_chain hsize b.key.toNat
    obtain ⟨hpush, hperm⟩ := h.push hc (hchain b List.mem_cons_self)
    obtain ⟨index', hrest, hchained, hperm'⟩ := ih (fun b hb => hchain b (List.mem_cons_of_mem _ hb)) hpush
    refine ⟨index', ?_, hchained, ?_⟩
    · rw [List.foldlM_cons, relink, hc]
      exact hrest
    · exact hperm'.trans ((hperm.append_left _).trans List.perm_middle)

theorem relink_index (hsize : 0 < size) {old : List (List (HashBucket δ))}
    (hold : ∀ chain ∈ old, ∀ b ∈ chain, b.key = hashKey b.data) (h : Chained hashKey size index) :
    ∃ index', old.foldlM (List.foldlM (relink size)) index = some index' ∧
      Chained hashKey size index' ∧ (items index').Perm (items old ++ items index) := by
  induction old generalizing index with
  | nil => exact ⟨index, rfl, h, .rfl⟩
  | cons c old ih =>
    obtain ⟨mid, hmid, hchained, hperm⟩ := relink_chain hsize (hold c List.mem_cons_self) h
    obtain ⟨index', hrest, hchained', hperm'⟩ := ih (fun c hc => hold c (List.mem_cons_of_mem _ hc)) hchained
    refine ⟨index', ?_, hchained', ?_⟩
    · rw [List.foldlM_cons, hmid]
      exact hrest
    · refine hperm'.trans ((hperm.append_left _).trans ?_)
      simp only [items, List.flatten_cons, List.map_append, ← List.append_assoc]
      exact List.perm_append_comm.append_right _

theorem chained_replicate : Chained hashKey size (List.replicate size ([] : List (HashBucket δ))) := by
  have hnil : ∀ i chain, (List.replicate size ([] : List (HashBucket δ)))[i]? = some chain → chain = [] := fun i chain hi =>
    List.eq_of_mem_replicate (List.mem_of_getElem? hi)
  refine ⟨List.length_replicate, ?_, ?_⟩
  · intro i chain hi b hb
    rw [hnil i chain hi] at hb
    cases hb
  · intro i chain hi
    rw [hnil i chain hi]
    rfl

theorem items_replicate (n : ℕ) : items (List.replicate n ([] : List (HashBucket δ))) = [] := by
  simp [items]

/-! ## The operations -/

structure Ok (hashKey : δ → UInt32) (hash : Hash δ) : Prop where
  pow : ∃ k, hash.size = 2 ^ k
  chained : Chained hashKey hash.size hash.index
  count : hash.count = (items hash.index).length

variable {hash : Hash δ}

theorem Ok.size_pos (h : Ok hashKey hash) : 0 < hash.size := by
  obtain ⟨k, hk⟩ := h.pow
  rw [hk]
  exact Nat.two_pow_pos k

theorem Ok.expand (h : Ok hashKey hash) :
    ∃ hash', hash.expand = some hash' ∧ Ok hashKey hash' ∧ hash'.count = hash.count ∧
      (items hash'.index).Perm (items hash.index) := by
  unfold Hash.expand
  dsimp only
  split_ifs
  · exact ⟨hash, rfl, h, rfl, .rfl⟩
  · have hhome : ∀ chain ∈ hash.index, ∀ b ∈ chain, b.key = hashKey b.data := by
      intro chain hc b hb
      obtain ⟨i, hi⟩ := List.mem_iff_getElem?.mp hc
      exact (h.chained.home i chain hi b hb).1
    obtain ⟨index', hrun, hchained, hperm⟩ := relink_index (Nat.mul_pos h.size_pos Nat.two_pos) hhome chained_replicate
    rw [items_replicate, List.append_nil] at hperm
    refine ⟨_, congrArg (Option.map _) hrun, ⟨?_, hchained, ?_⟩, rfl, hperm⟩
    · obtain ⟨k, hk⟩ := h.pow
      exact ⟨k + 1, by rw [hk, pow_succ]⟩
    · rw [hperm.length_eq]
      exact h.count

theorem Ok.add (h : Ok hashKey hash) (newdata : δ) :
    ∃ hash', hash.add (hashKey newdata) newdata = some hash' ∧ Ok hashKey hash' ∧
      (items hash'.index).Perm (newdata :: items hash.index) := by
  obtain ⟨mid, hmid, hok, hcount, hperm⟩ : ∃ mid, (if hash.count + 1 > hash.size then hash.expand else some hash) = some mid ∧
      Ok hashKey mid ∧ mid.count = hash.count ∧ (items mid.index).Perm (items hash.index) := by
    split_ifs
    · exact h.expand
    · exact ⟨hash, rfl, h, rfl, .rfl⟩
  obtain ⟨chain, hchain⟩ := hok.chained.exists_chain hok.size_pos (hashKey newdata).toNat
  have hbucket : (⟨0, hashKey newdata, newdata⟩ : HashBucket δ).key = hashKey newdata := rfl
  obtain ⟨hpush, hpushed⟩ := hok.chained.push hchain hbucket
  refine ⟨{ mid with index := _, count := mid.count + 1 }, ?_, ⟨hok.pow, hpush, ?_⟩, hpushed.trans (hperm.cons _)⟩
  · rw [Hash.add, hmid, Option.bind_some]
    exact congrArg (Option.map _) hchain
  · rw [hpushed.length_eq, List.length_cons]
    exact congrArg (· + 1) hok.count

theorem mem_items {x : δ} : x ∈ items index ↔ ∃ (i : ℕ) (chain : _), index[i]? = some chain ∧ ∃ b ∈ chain, b.data = x := by
  rw [items, List.mem_map]
  constructor
  · rintro ⟨b, hb, rfl⟩
    obtain ⟨chain, hchain, hb⟩ := List.mem_flatten.mp hb
    obtain ⟨i, hi⟩ := List.mem_iff_getElem?.mp hchain
    exact ⟨i, chain, hi, b, hb, rfl⟩
  · rintro ⟨i, chain, hi, b, hb, rfl⟩
    exact ⟨b, List.mem_flatten.mpr ⟨chain, List.mem_of_getElem? hi, hb⟩, rfl⟩

theorem Chained.mem_chain (h : Chained hashKey size index) {x : δ} (hx : x ∈ items index)
    (hi : index[(hashKey x).toNat &&& (size - 1)]? = some chain) : ∃ b ∈ chain, b.data = x ∧ b.key = hashKey x := by
  obtain ⟨j, c, hj, b, hb, rfl⟩ := mem_items.mp hx
  obtain ⟨hkey, hhome⟩ := h.home j c hj b hb
  rw [← hkey, hhome] at hi
  obtain rfl := Option.some.inj (hj.symm.trans hi)
  exact ⟨b, hb, rfl, hkey⟩

variable {m : δ → Option δ} {data : δ}

theorem find_chain (hkey : ∀ x y, hashCmp x y = true → hashKey x = hashKey y)
    (h : Chained hashKey size index) (hm : Holds hashCmp m (items index))
    (hi : index[(hashKey data).toNat &&& (size - 1)]? = some chain) :
    (chain.find? (matches_ hashKey hashCmp data)).map HashBucket.data = m data := by
  -- what the chain of its key says about an item, the map says
  cases hfind : chain.find? (matches_ hashKey hashCmp data) with
  | some b =>
    have hb := List.mem_of_find?_eq_some hfind
    have hmatch := List.find?_some hfind
    rw [matches_, Bool.and_eq_true] at hmatch
    exact ((hm.iff data b.data).mpr ⟨mem_items.mpr ⟨_, chain, hi, b, hb, rfl⟩, hmatch.2⟩).symm
  | none =>
    refine (hm.eq_none.mpr fun x hx => ?_).symm
    by_contra hne
    rw [Bool.not_eq_false] at hne
    rw [← hkey x data hne] at hi
    obtain ⟨b, hb, rfl, hbkey⟩ := h.mem_chain hx hi
    have := List.find?_eq_none.mp hfind b hb
    simp [matches_, hbkey, hkey _ _ hne, hne] at this

theorem get_refines (he : Equivalence hashCmp) (hkey : ∀ x y, hashCmp x y = true → hashKey x = hashKey y)
    (h : Ok hashKey hash) (hm : Holds hashCmp m (items hash.index)) {allocFunc : Option (δ → Option δ)}
    (hvalid : Valid hashCmp (.get data allocFunc)) :
    ∃ hash', hash.get hashKey hashCmp data allocFunc = some ((mapPerform hashCmp m (.get data allocFunc)).1, hash') ∧
      Ok hashKey hash' ∧ Holds hashCmp (mapPerform hashCmp m (.get data allocFunc)).2 (items hash'.index) := by
  unfold Hash.get
  split_ifs with hempty
  · obtain ⟨halloc, hzero⟩ := hempty
    rw [h.count, List.length_eq_zero_iff] at hzero
    have hnone : m data = none := hm.eq_none.mpr (by simp [hzero])
    rw [Option.isNone_iff_eq_none] at halloc
    subst halloc
    simp only [mapPerform, hnone, Option.bind_none]
    exact ⟨hash, rfl, h, hm⟩
  · obtain ⟨chain, hchain⟩ := h.chained.exists_chain h.size_pos (hashKey data).toNat
    have hfind := find_chain hkey h.chained hm hchain
    dsimp only
    rw [hchain, Option.bind_eq_bind, Option.bind_some]
    cases hfound : chain.find? (matches_ hashKey hashCmp data) with
    | some b =>
      rw [hfound, Option.map_some] at hfind
      simp only [mapPerform, ← hfind]
      exact ⟨hash, rfl, h, hm⟩
    | none =>
      rw [hfound, Option.map_none] at hfind
      cases allocFunc with
      | none =>
        simp only [mapPerform, ← hfind, Option.bind_none]
        exact ⟨hash, rfl, h, hm⟩
      | some alloc =>
        cases hnew : alloc data with
        | none =>
          simp only [mapPerform, ← hfind, Option.bind_some, hnew]
          exact ⟨hash, rfl, h, hm⟩
        | some x =>
          have hx : hashCmp x data = true := hvalid x hnew
          obtain ⟨hash', hadd, hok, hperm⟩ := h.add x
          simp only [mapPerform, ← hfind, Option.bind_some, hnew]
          refine ⟨hash', ?_, hok, (hm.put he hfind.symm hx).perm he hperm⟩
          rw [← hkey x data hx, hadd]
          rfl

theorem unlink_spec (data : δ) (chain : List (HashBucket δ)) :
    (unlink hashKey hashCmp data chain).map Prod.fst = chain.find? (matches_ hashKey hashCmp data) ∧
      ∀ r ∈ unlink hashKey hashCmp data chain, r.2.Sublist chain ∧ chain.Perm (r.1 :: r.2) := by
  induction chain with
  | nil => simp [unlink]
  | cons b rest ih =>
    rw [unlink, List.find?_cons]
    cases hb : matches_ hashKey hashCmp data b with
    | true => simp
    | false =>
      refine ⟨?_, ?_⟩
      · simp only [Bool.false_eq_true, if_false, Option.map_map]
        exact ih.1
      · intro r hr
        simp only [Bool.false_eq_true, if_false, Option.mem_def, Option.map_eq_some_iff] at hr
        obtain ⟨r', hr', rfl⟩ := hr
        obtain ⟨hsub, hperm⟩ := ih.2 r' hr'
        exact ⟨hsub.cons_cons b, (hperm.cons b).trans (List.Perm.swap ..)⟩

theorem map_data_modifyHead (n : ℤ) :
    (chain.modifyHead fun b => { b with len := n }).map HashBucket.data = chain.map HashBucket.data := by
  cases chain <;> rfl

theorem release_refines (he : Equivalence hashCmp) (hkey : ∀ x y, hashCmp x y = true → hashKey x = hashKey y)
    (h : Ok hashKey hash) (hm : Holds hashCmp m (items hash.index)) :
    ∃ hash', hash.release hashKey hashCmp data = some (m data, hash') ∧ Ok hashKey hash' ∧
      Holds hashCmp (drop hashCmp data m) (items hash'.index) := by
  obtain ⟨chain, hchain⟩ := h.chained.exists_chain h.size_pos (hashKey data).toNat
  have hfind := find_chain hkey h.chained hm hchain
  obtain ⟨hfirst, hrest⟩ : (unlink hashKey hashCmp data chain).map Prod.fst = _ ∧ _ := unlink_spec data chain
  unfold Hash.release
  dsimp only
  rw [hchain, Option.bind_eq_bind, Option.bind_some]
  cases hunlink : unlink hashKey hashCmp data chain with
  | none =>
    rw [hunlink, Option.map_none] at hfirst
    rw [← hfirst, Option.map_none] at hfind
    exact ⟨hash, by rw [← hfind], h, hm.drop_none he hfind.symm⟩
  | some r =>
    obtain ⟨bucket, rest⟩ := r
    rw [hunlink, Option.map_some] at hfirst
    rw [← hfirst, Option.map_some] at hfind
    obtain ⟨hsub, hperm⟩ := hrest _ hunlink
    have hlt := (List.getElem?_eq_some_iff.mp hchain).1
    generalize hrest' : (rest.modifyHead fun b => { b with len := headLen chain - 1 }) = rest'
    have hdata : rest'.map HashBucket.data = rest.map HashBucket.data := hrest' ▸ map_data_modifyHead _
    have hset : Chained hashKey hash.size (hash.index.set ((hashKey data).toNat &&& (hash.size - 1)) rest') := by
      refine h.chained.set ?_ ?_
      · intro b hb
        obtain ⟨b', hb', hk, hd⟩ : ∃ b' ∈ rest, b.key = b'.key ∧ b.data = b'.data := by
          subst hrest'
          cases rest with
          | nil => cases hb
          | cons c rest =>
            rcases List.mem_cons.mp hb with rfl | hb
            · exact ⟨c, List.mem_cons_self, rfl, rfl⟩
            · exact ⟨b, List.mem_cons_of_mem _ hb, rfl, rfl⟩
        rw [hk, hd]
        exact h.chained.home _ _ hchain b' (hsub.subset hb')
      · have hlen := h.chained.len _ _ hchain
        have hcount := hperm.length_eq
        subst hrest'
        cases rest with
        | nil => rfl
        | cons c rest =>
          rw [hlen, hcount]
          change (_ : ℤ) - 1 = _
          simp
    have hitems : (items hash.index).Perm
        (bucket.data :: items (hash.index.set ((hashKey data).toNat &&& (hash.size - 1)) rest')) := by
      have hset : (hash.index.set ((hashKey data).toNat &&& (hash.size - 1)) rest')[_]? = some rest' :=
        List.getElem?_set_self hlt
      have hmap : (chain.map HashBucket.data).Perm (bucket.data :: rest'.map HashBucket.data) := by
        rw [hdata]
        exact hperm.map HashBucket.data
      have hback := items_set hset hmap
      obtain ⟨hi, rfl⟩ := List.getElem?_eq_some_iff.mp hchain
      rwa [List.set_set, List.set_getElem_self hi] at hback
    refine ⟨{ hash with index := _, count := hash.count - 1 }, ?_, ⟨h.pow, hset, ?_⟩, ?_⟩
    · rw [← hfind, ← hrest']
    · have := hitems.length_eq
      rw [List.length_cons] at this
      have hcount := h.count
      dsimp only
      omega
    · have hx : m data = some bucket.data := hfind.symm
      exact (hm.perm he hitems.symm).drop he ((hm.iff data bucket.data).mp hx).2

theorem clean_refines (h : Ok hashKey hash) : Ok hashKey hash.clean.2 ∧ items hash.clean.2.index = [] := by
  have hindex : (hash.index.map fun _ => ([] : List (HashBucket δ))) = List.replicate hash.size [] := by
    rw [List.map_const', h.chained.length]
  have hnil : items hash.clean.2.index = [] := by
    rw [Hash.clean, hindex, items_replicate]
  refine ⟨⟨h.pow, ?_, ?_⟩, hnil⟩
  · rw [Hash.clean, hindex]
    exact chained_replicate
  · rw [hnil]
    change hash.count - hash.index.flatten.length = 0
    rw [h.count, items, List.length_map, Nat.sub_self]

/-! ## Runs -/

structure Refines (hashKey : δ → UInt32) (hashCmp : δ → δ → Bool) (hash : Hash δ) (m : δ → Option δ) : Prop where
  ok : Ok hashKey hash
  holds : Holds hashCmp m (items hash.index)

theorem Refines.perform (he : Equivalence hashCmp) (hkey : ∀ x y, hashCmp x y = true → hashKey x = hashKey y)
    (h : Refines hashKey hashCmp hash m) {o : Op δ} (hvalid : Valid hashCmp o) :
    ∃ hash', hash.perform hashKey hashCmp o = some ((mapPerform hashCmp m o).1, hash') ∧
      Refines hashKey hashCmp hash' (mapPerform hashCmp m o).2 := by
  cases o with
  | get data allocFunc =>
    obtain ⟨hash', hget, hok, hholds⟩ := get_refines he hkey h.ok h.holds hvalid
    exact ⟨hash', hget, hok, hholds⟩
  | lookup data =>
    have hsame : mapPerform hashCmp m (.get data none) = (m data, m) := by
      cases hd : m data <;> simp [mapPerform, hd]
    obtain ⟨hash', hget, hok, hholds⟩ : ∃ hash', hash.get hashKey hashCmp data none = some _ ∧ _ :=
      get_refines he hkey h.ok h.holds trivial
    rw [hsame] at hget hholds
    exact ⟨hash', hget, hok, hholds⟩
  | release data =>
    obtain ⟨hash', hrelease, hok, hholds⟩ := release_refines he hkey h.ok h.holds
    exact ⟨hash', hrelease, hok, hholds⟩
  | clean =>
    obtain ⟨hok, hnil⟩ := clean_refines h.ok
    exact ⟨_, rfl, hok, hnil ▸ holds_nil⟩

theorem createSize_refines (k maxSize : ℕ) :
    ∃ hash, createSize (2 ^ k) maxSize = some hash ∧ Refines hashKey hashCmp hash fun _ => none := by
  refine ⟨_, if_pos ?_, ⟨⟨k, rfl⟩, chained_replicate, ?_⟩, ?_⟩
  · rw [Nat.and_two_pow_sub_one_eq_mod, Nat.mod_self]
  · rw [items_replicate]
    rfl
  · rw [items_replicate]
    exact holds_nil

theorem Chained.mem_iff (h : Chained hashKey size index) (hi : index[i]? = some chain) (x : δ) :
    x ∈ chain.map HashBucket.data ↔ x ∈ items index ∧ (hashKey x).toNat &&& (size - 1) = i := by
  rw [List.mem_map]
  constructor
  · rintro ⟨b, hb, rfl⟩
    obtain ⟨hkey, hhome⟩ := h.home i chain hi b hb
    exact ⟨mem_items.mpr ⟨i, chain, hi, b, hb, rfl⟩, hkey ▸ hhome⟩
  · rintro ⟨hx, rfl⟩
    obtain ⟨b, hb, rfl, -⟩ := h.mem_chain hx hi
    exact ⟨b, hb, rfl⟩

/-- The table answers as the map does, and keeps its chains, its count and the lengths at their heads. -/
theorem hash_refines_map (hashKey : δ → UInt32) (hashCmp : δ → δ → Bool) (he : Equivalence hashCmp)
    (hkey : ∀ x y, hashCmp x y = true → hashKey x = hashKey y) (k maxSize : ℕ) (ops : List (Op δ))
    (hvalid : ∀ o ∈ ops, Valid hashCmp o) :
    ∃ start t, createSize (2 ^ k) maxSize = some start ∧ Run.exec (step hashKey hashCmp) start ops = some t ∧
      let m := ops.foldl (fun m o => (mapPerform hashCmp m o).2) fun _ => none
      (∀ o, Valid hashCmp o → ∃ u, t.perform hashKey hashCmp o = some ((mapPerform hashCmp m o).1, u)) ∧
        (∀ d x, m d = some x ↔ x ∈ items t.index ∧ hashCmp x d = true) ∧
        (items t.index).Pairwise (fun x y => hashCmp x y = false) ∧ t.count = (items t.index).length ∧
        (∃ j, t.size = 2 ^ j) ∧ t.index.length = t.size ∧
        ∀ (i : ℕ) (chain), t.index[i]? = some chain → headLen chain = chain.length ∧
          ∀ x, x ∈ chain.map HashBucket.data ↔ x ∈ items t.index ∧ (hashKey x).toNat &&& (t.size - 1) = i := by
  obtain ⟨start, hstart, hinit⟩ : ∃ start, createSize (2 ^ k) maxSize = some start ∧ Refines hashKey hashCmp start _ :=
    createSize_refines k maxSize
  obtain ⟨t, ht, hrefines⟩ := Run.exec_of_along
    (fun hist hash => Refines hashKey hashCmp hash (hist.foldl (fun m o => (mapPerform hashCmp m o).2) fun _ => none))
    (fun hist s o h hvalid => by
      obtain ⟨u, hu, hrefines⟩ := h.perform he hkey hvalid
      refine ⟨u, congrArg (Option.map Prod.snd) hu, ?_⟩
      rwa [List.foldl_append]) [] hinit (Run.along_of_mem hvalid start)
  rw [List.nil_append] at hrefines
  have hchained := hrefines.ok.chained
  refine ⟨start, t, hstart, ht, fun o ho => ?_, hrefines.holds.iff, hrefines.holds.distinct, hrefines.ok.count, hrefines.ok.pow,
    hchained.length, fun i chain hi => ⟨hchained.len i chain hi, hchained.mem_iff hi⟩⟩
  obtain ⟨u, hu, -⟩ := hrefines.perform he hkey ho
  exact ⟨u, hu⟩

/-- Three items of one key, over a growth of the table. -/
theorem hash_refines_map_sample :
    ∃ start t, createSize (2 ^ 0) 0 = some start ∧
      Run.exec (step (fun n : ℕ => UInt32.ofNat (n % 4)) fun a b => a == b) start
        [.get 1 (some some), .get 5 (some some), .get 9 (some some), .release 5] = some t ∧ t.count = (items t.index).length ∧
      ∃ u, t.lookup (fun n : ℕ => UInt32.ofNat (n % 4)) (fun a b => a == b) 9 = some (some 9, u) := by
  obtain ⟨start, t, hstart, ht, hperform, -, -, hcount, -⟩ := hash_refines_map (fun n : ℕ => UInt32.ofNat (n % 4))
    (fun a b => a == b) ⟨by simp, by simp, by simp⟩ (fun x y h => by simp_all) 0 0
    [.get 1 (some some), .get 5 (some some), .get 9 (some some), .release 5] (by simp [Valid])
  exact ⟨start, t, hstart, ht, hcount, hperform (.lookup 9) trivial⟩

end Hash
end Yjc
