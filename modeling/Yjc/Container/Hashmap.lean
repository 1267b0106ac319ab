import Yjc.Lib.RobinHood

/-! `container/hashmap.c`: open addressing where an entry far from its home takes the bucket of one that is nearer. The
hash of an entry is stored in 48 bits, its distance from home in 16. Sizes are natural numbers, and a load factor is in
hundredths. A loop that goes round without an end, and an access outside of the buckets, are `none`. -/

namespace Yjc
open RobinHood

/-- A bucket in use. One whose `dib` is zero is `none`: nothing reads what else it holds. -/
structure HmBucket (δ : Type*) where
  hash : UInt64
  dib : ℕ
  item : δ
  deriving DecidableEq

structure Hashmap (δ : Type*) where
  cap : ℕ
  nbuckets : ℕ
  count : ℕ
  mask : ℕ
  growat : ℕ
  shrinkat : ℕ
  loadfactor : ℕ
  growpower : ℕ
  oom : Bool
  /-- The buckets as they were allocated, which may be more than `nbuckets`. -/
  buckets : List (Option (HmBucket δ))
  deriving DecidableEq

namespace Hashmap
variable {δ : Type*}

def clipHash (hash : UInt64) : UInt64 := hash &&& 0xFFFFFFFFFFFF

/-- `GROW_AT`, `SHRINK_AT` and the bounds of `clamp_load_factor`, in hundredths. -/
def growAtPercent : ℕ := 60
def shrinkAtPercent : ℕ := 10
def clampLoadFactor (factor : ℕ) : ℕ := max 50 (min factor 95)

/-- The doubling loop of `hashmap_new_with_allocator`. -/
def doubleUntil (cap : ℕ) : ℕ → ℕ → ℕ
  | 0, ncap => ncap
  | k + 1, ncap => if ncap < cap then doubleUntil cap k (ncap * 2) else ncap

def roundCap (cap : ℕ) : ℕ := if cap < 16 then 16 else doubleUntil cap cap 16

/-- `hashmap_new`, where `ok` says whether both allocations succeed. -/
def hashmapNew (cap : ℕ) (ok : Bool) : Option (Hashmap δ) :=
  let cap := roundCap cap
  if ok then
    some { cap := cap, nbuckets := cap, count := 0, mask := cap - 1, growat := cap * growAtPercent / 100,
           shrinkat := cap * shrinkAtPercent / 100, loadfactor := growAtPercent, growpower := 1, oom := false,
           buckets := List.replicate cap none }
  else none

def setGrowByPower (map : Hashmap δ) (power : ℕ) : Hashmap δ :=
  { map with growpower := if power < 1 then 1 else if power > 16 then 16 else power }

/-- `hashmap_set_load_factor`, with the percents to which the code truncates `factor * 100` (56 for 0.57). -/
def setLoadFactor (map : Hashmap δ) (factor : ℕ) : Hashmap δ :=
  let loadfactor := clampLoadFactor factor
  { map with loadfactor := loadfactor, growat := map.nbuckets * loadfactor / 100 }

/-- What is written to a bucket. -/
def store (entry : HmBucket δ) : Option (HmBucket δ) := if entry.dib = 0 then none else some entry

/-- `entry->dib += 1`, in 16 bits. -/
def bump (entry : HmBucket δ) : HmBucket δ := { entry with dib := (entry.dib + 1) % 2 ^ 16 }

def key (bucket : HmBucket δ) : UInt64 × δ := (bucket.hash, bucket.item)

/-- `entry->hash == bucket->hash && (!map->compare || map->compare(eitem, bitem, map->udata) == 0)`. -/
def same (compare : Option (δ → δ → ℤ)) (a b : UInt64 × δ) : Bool := a.1 == b.1 && compare.all fun c => c a.2 b.2 == 0

/-- The loop of `hashmap_set_with_hash`: the item that the entry replaces, if any, and the buckets. -/
def place (eq : UInt64 × δ → UInt64 × δ → Bool) (mask : ℕ) :
    ℕ → List (Option (HmBucket δ)) → ℕ → HmBucket δ → Option (Option δ × List (Option (HmBucket δ)))
  | 0, _, _, _ => none
  | k + 1, buckets, i, entry =>
    buckets[i]?.bind fun
      | none => some (none, buckets.set i (store entry))
      | some bucket =>
        if eq (key entry) (key bucket) then some (some bucket.item, buckets.set i (some { bucket with item := entry.item }))
        else if bucket.dib < entry.dib then place eq mask k (buckets.set i (store entry)) ((i + 1) &&& mask) (bump bucket)
        else place eq mask k buckets ((i + 1) &&& mask) (bump entry)

/-- The loop of `resize0` for one entry: the same, without the comparison. -/
def rehash (map2 : Hashmap δ) (entry : HmBucket δ) : Option (Hashmap δ) :=
  (place (fun _ _ => false) map2.mask map2.nbuckets map2.buckets (entry.hash.toNat &&& map2.mask) { entry with dib := 1 }).map
    fun r => { map2 with buckets := r.2 }

def entries (map : Hashmap δ) : List (HmBucket δ) := (List.range map.nbuckets).filterMap fun i => map.buckets[i]?.join

def resize (map : Hashmap δ) (newCap : ℕ) (ok : Bool) : Option (Bool × Hashmap δ) :=
  match hashmapNew newCap ok with
  | none => some (false, map)
  | some map2 => (map.entries.foldlM rehash map2).map fun map2 =>
    (true, { map with buckets := map2.buckets, nbuckets := map2.nbuckets, mask := map2.mask, growat := map2.growat,
                      shrinkat := map2.shrinkat })

section Ops
variable (compare : Option (δ → δ → ℤ))

def setWithHash (map : Hashmap δ) (item : δ) (hash : UInt64) (ok : Bool) : Option (Option δ × Hashmap δ) :=
  let hash := clipHash hash
  let map := { map with oom := false }
  (if map.count ≥ map.growat then map.resize (map.nbuckets * 2 ^ map.growpower) ok else some (true, map)).bind fun
    | (false, map) => some (none, { map with oom := true })
    | (true, map) =>
      (place (same compare) map.mask map.nbuckets map.buckets (hash.toNat &&& map.mask) ⟨hash, 1, item⟩).map fun
        | (none, buckets) => (none, { map with buckets := buckets, count := map.count + 1 })
        | (some old, buckets) => (some old, { map with buckets := buckets })

/-- The search loop of `hashmap_get_with_hash` and `hashmap_del_with_hash`: the bucket of the key, with its place. -/
def find (mask : ℕ) (buckets : List (Option (HmBucket δ))) (k : UInt64 × δ) : ℕ → ℕ → Option (Option (ℕ × HmBucket δ))
  | 0, _ => none
  | r + 1, i =>
    buckets[i]?.bind fun
      | none => some none
      | some bucket => if same compare k (key bucket) then some (some (i, bucket)) else find mask buckets k r ((i + 1) &&& mask)

def getWithHash (map : Hashmap δ) (item : δ) (hash : UInt64) : Option (Option δ) :=
  let hash := clipHash hash
  (find compare map.mask map.buckets (hash, item) map.nbuckets (hash.toNat &&& map.mask)).map fun r => r.map fun b => b.2.item

/-- The inner loop of `hashmap_del_with_hash`, with `prev` the bucket that is to be filled. -/
def shiftBack (mask : ℕ) : ℕ → List (Option (HmBucket δ)) → ℕ → Option (List (Option (HmBucket δ)))
  | 0, _, _ => none
  | k + 1, buckets, prev =>
    let i := (prev + 1) &&& mask
    buckets[i]?.bind fun
      | none => some (buckets.set prev none)
      | some bucket =>
        if bucket.dib ≤ 1 then some (buckets.set prev none)
        else shiftBack mask k (buckets.set prev (some { bucket with dib := bucket.dib - 1 })) i

def delWithHash (map : Hashmap δ) (item : δ) (hash : UInt64) (ok : Bool) : Option (Option δ × Hashmap δ) :=
  let hash := clipHash hash
  let map := { map with oom := false }
  (find compare map.mask map.buckets (hash, item) map.nbuckets (hash.toNat &&& map.mask)).bind fun
    | none => some (none, map)
    | some (i, bucket) =>
      (shiftBack map.mask map.nbuckets (map.buckets.set i none) i).bind fun buckets =>
        let map := { map with buckets := buckets, count := map.count - 1 }
        if map.nbuckets > map.cap ∧ map.count ≤ map.shrinkat then
          (map.resize (map.nbuckets / 2) ok).map fun r => (some bucket.item, r.2)
        else some (some bucket.item, map)

end Ops

/-- The buckets that `hashmap_clear` goes on with. Where the allocation fails, the old ones are used for the new number of them. -/
def clearCap (map : Hashmap δ) (updateCap ok : Bool) : Hashmap δ :=
  if updateCap then { map with cap := map.nbuckets }
  else if map.nbuckets ≠ map.cap then
    { map with buckets := if ok then List.replicate map.cap none else map.buckets, nbuckets := map.cap }
  else map

/-- The end of `hashmap_clear`, from its `memset` on. -/
def wipe (map : Hashmap δ) : Option (Hashmap δ) :=
  if map.nbuckets ≤ map.buckets.length then
    some { map with buckets := List.replicate map.nbuckets none ++ map.buckets.drop map.nbuckets, mask := map.nbuckets - 1,
                    growat := map.nbuckets * map.loadfactor / 100, shrinkat := map.nbuckets * shrinkAtPercent / 100 }
  else none

def clear (map : Hashmap δ) (updateCap ok : Bool) : Option (Hashmap δ) := ({ map with count := 0 }.clearCap updateCap ok).wipe

/-- The loop of `hashmap_scan` from bucket `i` on, over the `k` that are left. -/
def scanFrom {σ : Type*} (map : Hashmap δ) (iter : δ → σ → Bool × σ) : ℕ → ℕ → σ → Option (Bool × σ)
  | 0, _, udata => some (true, udata)
  | k + 1, i, udata =>
    map.buckets[i]?.bind fun
      | none => scanFrom map iter k (i + 1) udata
      | some bucket =>
        match iter bucket.item udata with
        | (false, udata) => some (false, udata)
        | (true, udata) => scanFrom map iter k (i + 1) udata

def scan {σ : Type*} (map : Hashmap δ) (iter : δ → σ → Bool × σ) (udata : σ) : Option (Bool × σ) :=
  scanFrom map iter map.nbuckets 0 udata

/-- The loop of `hashmap_iter`: the item, if any, and where the cursor goes. -/
def iterFrom (map : Hashmap δ) : ℕ → ℕ → Option (Option δ × ℕ)
  | 0, _ => none
  | k + 1, i =>
    if i ≥ map.nbuckets then some (none, i)
    else
      map.buckets[i]?.bind fun
        | none => iterFrom map k (i + 1)
        | some bucket => some (some bucket.item, i + 1)

def iter (map : Hashmap δ) (i : ℕ) : Option (Option δ × ℕ) := iterFrom map (map.nbuckets + 1 - i) i

/-! ## The buckets as a ring -/

def slot (n : ℕ) (buckets : List (Option (HmBucket δ))) (i : ℕ) : Option (HmBucket δ) := buckets[i % n]?.join

def hashOf (b : HmBucket δ) : ℕ := b.hash.toNat

def keys (n : ℕ) (T : ℕ → Option (HmBucket δ)) : List (UInt64 × δ) := (contents n T).map key

variable {n q p : ℕ} {buckets : List (Option (HmBucket δ))} {v : Option (HmBucket δ)} {e b : HmBucket δ}

theorem and_mask (q i : ℕ) : i &&& (2 ^ q - 1) = i % 2 ^ q := Nat.and_two_pow_sub_one_eq_mod i q

theorem getElem?_slot (hn : 0 < n) (hlen : n ≤ buckets.length) (p : ℕ) : buckets[p % n]? = some (slot n buckets p) := by
  have hlt : p % n < buckets.length := (Nat.mod_lt p hn).trans_le hlen
  rw [slot, List.getElem?_eq_getElem hlt]
  rfl

theorem slot_periodic (n : ℕ) (buckets : List (Option (HmBucket δ))) (i : ℕ) : slot n buckets (i % n) = slot n buckets i := by
  rw [slot, slot, Nat.mod_mod]

theorem slot_set (hn : 0 < n) (hlen : n ≤ buckets.length) : slot n (buckets.set (p % n) v) = putAt n p v (slot n buckets) := by
  funext j
  rw [putAt, slot, List.getElem?_set]
  by_cases hj : j % n = p % n
  · rw [if_pos hj.symm, if_pos ((Nat.mod_lt p hn).trans_le hlen), if_pos hj]
    rfl
  · rw [if_neg (Ne.symm hj), if_neg hj]
    rfl

theorem store_of_pos (h : 0 < e.dib) : store e = some e := if_neg (by omega)

theorem bump_of_lt (h : e.dib < 2 ^ 16 - 1) : bump e = { e with dib := e.dib + 1 } := by
  rw [bump, Nat.mod_eq_of_lt (by omega)]

theorem same_hash {compare : Option (δ → δ → ℤ)} {x y : UInt64 × δ} (h : same compare x y = true) : x.1 = y.1 :=
  eq_of_beq (Bool.and_eq_true_iff.mp h).1

theorem next_mask (q p : ℕ) : (p % 2 ^ q + 1) &&& (2 ^ q - 1) = (p + 1) % 2 ^ q := by
  rw [and_mask, Nat.mod_add_mod]

end Hashmap
end Yjc
