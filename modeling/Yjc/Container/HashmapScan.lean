import Yjc.Container.HashmapRuns

/-! The walks over the buckets of `container/hashmap.c`, and where its items lie. -/

namespace Yjc
open RobinHood ClassMap

namespace Hashmap
variable {δ : Type*} {q i k : ℕ} {map : Hashmap δ}

/-- `while (hashmap_iter(map, &i, &item))`, for at most so many calls: the items it gives. -/
def drain (map : Hashmap δ) : ℕ → ℕ → Option (List δ)
  | 0, _ => none
  | k + 1, i =>
    (map.iter i).bind fun
      | (none, _) => some []
      | (some item, i) => (drain map k i).map fun l => item :: l

variable {compare : Option (δ → δ → ℤ)}

end Hashmap
end Yjc
