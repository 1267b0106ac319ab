import Yjc.Container.SimpleGraph
import Yjc.Lib.CInt

/-! The generators of `graph.c`. A number of nodes is an `int`, and a loop over the nodes compares it with the unsigned
number of slots in use. -/

namespace Yjc
open Yjc.Graph

/-- `vector_slot` of an index that may be negative. `none`: there is no such slot. -/
def slotAt (v : Vector ℕ) (i : ℤ) : Option (Option ℕ) := if i < 0 then none else v.index[i.toNat]?

/-- `graph_add_edge` between the nodes in two slots; a null pointer is no node. -/
def addBetween (i j : ℤ) (g : Graph) : Option Graph := do
  let u ← slotAt g.nodes i
  let w ← slotAt g.nodes j
  match u, w with
  | some u, some w => (graphAddEdge u w 0 false g).map Prod.fst
  | _, _ => some g

def addNodes : ℕ → Graph → Graph
  | 0, g => g
  | n + 1, g => addNodes n (graphAddNode 0 false g)

/-- A loop with `i` from `lo` up to `hi`. -/
def upTo (body : ℕ → Graph → Option Graph) (lo hi : ℕ) (g : Graph) : Option Graph :=
  (List.range' lo (hi - lo)).foldlM (fun g i => body i g) g

/-- `g->nodes->active - 1`. -/
def lastSlot (g : Graph) : ℕ := (g.nodes.active + (2 ^ 32 - 1)) % 2 ^ 32

def graphGenEmpty (n : ℤ) (t : GraphType) : Graph := addNodes n.toNat (graphNew t)

def graphGenPath (n : ℤ) (t : GraphType) : Option Graph :=
  let g := addNodes n.toNat (graphNew t)
  upTo (fun i => addBetween i (i + 1)) 0 (lastSlot g) g

def graphGenCycle (n : ℤ) (t : GraphType) : Option Graph := do
  let g ← graphGenPath n t
  addBetween (lastSlot g) 0 g

def graphGenStar (n : ℤ) (t : GraphType) : Option Graph :=
  let g := graphNew t
  let center := g.next
  let g := graphAddNode 0 false g
  upTo (fun _ g =>
    let node := g.next
    (graphAddEdge center node 0 false (graphAddNode 0 false g)).map Prod.fst) 0 n.toNat g

/-- `some none`: no graph. -/
def graphGenWheel (n : ℤ) (t : GraphType) : Option (Option Graph) :=
  if n ≤ 0 then some none
  else do
    let g ← graphGenStar (n - 1) t
    let g ← upTo (fun i g =>
      let j := if i = lastSlot g then 1 else i + 1
      addBetween i j g) 1 g.nodes.active g
    some (some g)

/-- An edge of the grid; -1 is no node. -/
def addUnless (k v : ℤ) (g : Graph) : Option Graph := if v ≠ -1 then addBetween k v g else some g

/-- The edges from the node in row `i` and column `j`. -/
def gridCell (m n i j : ℤ) (g : Graph) : Option Graph := do
  let k := cInt (cInt (i * n) + j)
  let u := cInt (k - n)
  let d := cInt (k + n)
  let l := cInt (k - 1)
  let r := cInt (k + 1)
  let u := if i = 0 then -1 else u
  let d := if i = m - 1 then -1 else d
  let l := if j = 0 then -1 else l
  let r := if j = n - 1 then -1 else r
  let g ← addUnless k u g
  let g ← addUnless k r g
  let g ← addUnless k d g
  addUnless k l g

def graphGenGrid (m n : ℤ) (t : GraphType) : Option Graph :=
  if m = 1 then graphGenCycle n t
  else if n = 1 then graphGenCycle m t
  else upTo (fun i => upTo (fun j => gridCell m n i j) 0 n.toNat) 0 m.toNat (graphGenEmpty (cInt (m * n)) t)

def graphGenComplete (n : ℤ) (t : GraphType) : Option Graph :=
  let g := addNodes n.toNat (graphNew t)
  upTo (fun i g => upTo (fun j g => if i = j then some g else addBetween i j g) 0 g.nodes.active g) 0 g.nodes.active g

/-! ## What is built -/

/-- The pairs of nodes with an edge when the pairs of `E` are connected. -/
def Between (t : GraphType) (E : ℕ → ℕ → Prop) (a b : ℕ) : Prop := E a b ∨ t = .graph ∧ E b a

theorem Between.symm {t : GraphType} {E : ℕ → ℕ → Prop} {a b : ℕ} (ht : t = .graph) (h : Between t E a b) : Between t E b a :=
  h.elim (fun h => .inr ⟨ht, h⟩) fun h => .inl h.2

/-- The graph has the nodes `0` to `n - 1`, each in its own slot, and the edges of `E`, each once. -/
structure Graph.Built (t : GraphType) (n : ℕ) (E : ℕ → ℕ → Prop) (g : Graph) : Prop where
  type : g.type = t
  good : g.Good
  nodes : g.nodes.elts = List.range n
  next : g.next = n
  edges : ∀ a b, 0 < g.mult (a, b) ↔ Between t E a b
  once : ∀ p, g.mult p ≤ 1

/-- The type has no parallel edges. -/
def GraphType.Simple (t : GraphType) : Prop := t = .graph ∨ t = .diGraph

variable {t : GraphType} {n : ℕ} {E F : ℕ → ℕ → Prop} {g : Graph}

theorem Graph.Built.congr (h : g.Built t n E) (hE : ∀ a b, E a b ↔ F a b) : g.Built t n F :=
  { h with edges := fun a b => (h.edges a b).trans (or_congr (hE a b) (and_congr_right fun _ => hE b a)) }

theorem Graph.Built.simple (h : g.Built t n E) (ht : t.Simple) : Simple g where
  type := by rw [h.type]; exact ht
  good := h.good
  le := h.once
  symm hg u w := by
    have hle := h.once (u, w)
    have hle' := h.once (w, u)
    have hiff : 0 < g.mult (u, w) ↔ 0 < g.mult (w, u) := by
      rw [h.type] at hg
      rw [h.edges, h.edges]
      exact ⟨Between.symm hg, Between.symm hg⟩
    omega

theorem built_graphNew (t : GraphType) : (graphNew t).Built t 0 fun _ _ => False where
  type := rfl
  good := good_graphNew t
  nodes := Vector.elts_init vectorMinSize
  next := rfl
  edges a b := by
    have hzero : (graphNew t).mult (a, b) = 0 := by
      unfold mult
      rw [show (graphNew t).edges.elts = [] from Vector.elts_init vectorMinSize]
      rfl
    rw [hzero]
    exact iff_of_false (Nat.lt_irrefl 0) fun hc => hc.elim id And.right
  once p := by
    unfold mult
    rw [show (graphNew t).edges.elts = [] from Vector.elts_init vectorMinSize]
    exact Nat.zero_le 1

theorem Graph.Built.addNode (h : g.Built t n E) : (graphAddNode 0 false g).Built t (n + 1) E := by
  obtain ⟨hgood, hmult⟩ := h.good.addNode 0 false
  have hnodes : (graphAddNode 0 false g).nodes.elts = g.nodes.elts ++ [g.next] := Vector.elts_set _ _
  refine ⟨h.type, hgood, ?_, congrArg (· + 1) h.next, ?_, ?_⟩
  · rw [hnodes, h.nodes, h.next, List.range_succ]
  · rw [hmult]
    exact h.edges
  · rw [hmult]
    exact h.once

theorem Graph.Built.addNodes (h : g.Built t n E) (m : ℕ) : (addNodes m g).Built t (n + m) E := by
  induction m generalizing g n with
  | zero => exact h
  | succ m ih =>
    have hrest := ih h.addNode
    rwa [Nat.add_assoc, Nat.add_comm 1] at hrest

theorem Graph.Built.graphAddEdge (h : g.Built t n E) (ht : t.Simple) {u w : ℕ} (hu : u < n) (hw : w < n) :
    ∃ g', (graphAddEdge u w 0 false g).map Prod.fst = some g' ∧ g'.Built t n fun a b => E a b ∨ a = u ∧ b = w := by
  have hmem {x : ℕ} (hx : x < n) : x ∈ g.nodes.elts := by
    rw [h.nodes]
    exact List.mem_range.mpr hx
  have hsimple := h.simple ht
  obtain ⟨g', hg', hj⟩ := hsimple.joined (hmem hu) (hmem hw) 0 false
  refine ⟨g', hg', hj.type.trans h.type, hj.good, ?_, hj.next.trans h.next, fun a b => ?_, (hj.simple hsimple).le⟩
  · rw [hj.nodes]
    exact h.nodes
  · have hold := h.edges a b
    unfold Between at hold ⊢
    rw [hj.mult, h.type]
    split_ifs with hc
    · refine iff_of_true Nat.zero_lt_one ?_
      rcases hc with hc | ⟨hgraph, hc⟩
      · cases hc
        exact .inl (.inr ⟨rfl, rfl⟩)
      · cases hc
        exact .inr ⟨hgraph, .inr ⟨rfl, rfl⟩⟩
    · rw [hold]
      refine or_congr (or_iff_left ?_).symm (and_congr_right fun hgraph => (or_iff_left ?_).symm)
      · rintro ⟨rfl, rfl⟩
        exact hc (.inl rfl)
      · rintro ⟨rfl, rfl⟩
        exact hc (.inr ⟨hgraph, rfl⟩)

theorem slotAt_of_lt {v : Vector ℕ} {i : ℕ} (hi : i < v.elts.length) : slotAt v i = some (some v.elts[i]) := by
  obtain ⟨k, hindex, -⟩ := v.index_eq
  rw [slotAt, if_neg (by omega), Int.toNat_natCast, hindex, List.getElem?_append_left (by rwa [List.length_map]),
    List.getElem?_map, List.getElem?_eq_getElem hi, Option.map_some]

theorem Graph.Built.slotAt (h : g.Built t n E) {i : ℕ} (hi : i < n) : slotAt g.nodes i = some (some i) := by
  have hlen : i < g.nodes.elts.length := by rwa [h.nodes, List.length_range]
  rw [slotAt_of_lt hlen]
  simp only [h.nodes, List.getElem_range]

theorem Graph.Built.active (h : g.Built t n E) : g.nodes.active = n := by rw [g.nodes.active_eq, h.nodes, List.length_range]

theorem Graph.Built.addBetween (h : g.Built t n E) (ht : t.Simple) {i j : ℕ} (hi : i < n) (hj : j < n) :
    ∃ g', addBetween i j g = some g' ∧ g'.Built t n fun a b => E a b ∨ a = i ∧ b = j := by
  unfold Yjc.addBetween
  rw [h.slotAt hi, h.slotAt hj]
  exact h.graphAddEdge ht hi hj

theorem Graph.Built.addUnless (h : g.Built t n E) (ht : t.Simple) {k w : ℕ} (hk : k < n) {c : Prop} [Decidable c] {v : ℤ}
    (hv : ¬c → v = w ∧ w < n) :
    ∃ g', addUnless k (if c then -1 else v) g = some g' ∧ g'.Built t n fun a b => E a b ∨ ¬c ∧ a = k ∧ b = w := by
  unfold Yjc.addUnless
  by_cases hc : c
  · rw [if_pos hc, if_neg (not_not.mpr rfl)]
    exact ⟨g, rfl, h.congr fun a b => (or_iff_left fun h => h.1 hc).symm⟩
  · obtain ⟨rfl, hw⟩ := hv hc
    rw [if_neg hc, if_pos (by omega)]
    obtain ⟨g', hg', hbuilt⟩ := h.addBetween ht hk hw
    exact ⟨g', hg', hbuilt.congr fun a b => or_congr_right (and_iff_right hc).symm⟩

theorem upTo_rule {body : ℕ → Graph → Option Graph} (Inv : ℕ → Graph → Prop) {lo hi : ℕ} (hle : lo ≤ hi)
    (hround : ∀ i, lo ≤ i → i < hi → ∀ g, Inv i g → ∃ g', body i g = some g' ∧ Inv (i + 1) g') (h : Inv lo g) :
    ∃ g', upTo body lo hi g = some g' ∧ Inv hi g' := by
  unfold upTo
  obtain ⟨k, rfl⟩ := Nat.exists_eq_add_of_le hle
  rw [Nat.add_sub_cancel_left]
  clear hle
  induction k generalizing lo g with
  | zero => exact ⟨g, rfl, h⟩
  | succ k ih =>
    obtain ⟨g₁, h₁, hinv⟩ := hround lo (Nat.le_refl lo) (by omega) g h
    obtain ⟨g₂, h₂, hinv₂⟩ := ih hinv fun i hlo hhi => hround i (by omega) (by omega)
    refine ⟨g₂, ?_, ?_⟩
    · rw [List.range'_succ, List.foldlM_cons, h₁]
      exact h₂
    · rwa [Nat.add_assoc, Nat.add_comm 1] at hinv₂

/-! ## The generators -/

/-- A result with the edges of `E`, and those the other way in an undirected graph. -/
def Builds (t : GraphType) (n : ℕ) (E : ℕ → ℕ → Prop) (r : Option Graph) : Prop := ∃ g, r = some g ∧ g.Built t n E

def PathEdge (n a b : ℕ) : Prop := a + 1 = b ∧ b < n

def CycleEdge (n a b : ℕ) : Prop := PathEdge n a b ∨ a = n - 1 ∧ b = 0

def StarEdge (n a b : ℕ) : Prop := a = 0 ∧ 1 ≤ b ∧ b ≤ n

/-- A star, and a cycle around it. -/
def WheelEdge (n a b : ℕ) : Prop := StarEdge (n - 1) a b ∨ 1 ≤ a ∧ a < n ∧ b = if a = n - 1 then 1 else a + 1

def CompleteEdge (n a b : ℕ) : Prop := a < n ∧ b < n ∧ a ≠ b

/-- The distance of two cells is 1. -/
def GridEdge (m n a b : ℕ) : Prop :=
  ∃ i j i' j' : ℕ, i < m ∧ j < n ∧ i' < m ∧ j' < n ∧ a = i * n + j ∧ b = i' * n + j' ∧
    ((i : ℤ) - i').natAbs + ((j : ℤ) - j').natAbs = 1

theorem builds_empty (n : ℕ) (t : GraphType) : (graphGenEmpty n t).Built t n fun _ _ => False := by
  have h := (built_graphNew t).addNodes n
  rwa [Nat.zero_add] at h

theorem Graph.Built.lastSlot (h : g.Built t n E) (hpos : 0 < n) (hn : n < 2 ^ 31) : lastSlot g = n - 1 := by
  rw [Yjc.lastSlot, h.active]
  omega

theorem builds_path (ht : t.Simple) (hpos : 1 ≤ n) (hn : n < 2 ^ 31) : Builds t n (PathEdge n) (graphGenPath n t) := by
  have hempty := builds_empty n t
  unfold Builds graphGenPath
  dsimp only
  rw [show addNodes (n : ℤ).toNat (graphNew t) = graphGenEmpty n t from rfl, hempty.lastSlot hpos hn]
  have hround : ∀ i, 0 ≤ i → i < n - 1 → ∀ g : Graph, g.Built t n (fun a b => a + 1 = b ∧ a < i) →
      ∃ g', addBetween i (i + 1) g = some g' ∧ g'.Built t n fun a b => a + 1 = b ∧ a < i + 1 := by
    intro i _ hi g h
    obtain ⟨g', hg', hbuilt⟩ := h.addBetween ht (i := i) (j := i + 1) (by omega) (by omega)
    exact ⟨g', hg', hbuilt.congr fun a b => by omega⟩
  obtain ⟨g, hg, hbuilt⟩ := upTo_rule (fun i g => g.Built t n fun a b => a + 1 = b ∧ a < i) (Nat.zero_le (n - 1)) hround
    (hempty.congr fun a b => iff_of_false id fun h => Nat.not_lt_zero a h.2)
  refine ⟨g, hg, hbuilt.congr fun a b => ?_⟩
  unfold PathEdge
  omega

theorem builds_cycle (ht : t.Simple) (h3 : 3 ≤ n) (hn : n < 2 ^ 31) : Builds t n (CycleEdge n) (graphGenCycle n t) := by
  obtain ⟨g, hg, h⟩ := builds_path ht (by omega) hn
  unfold Builds graphGenCycle
  rw [hg, Option.bind_eq_bind, Option.bind_some, h.lastSlot (by omega) hn]
  exact h.addBetween ht (i := n - 1) (j := 0) (by omega) (by omega)

theorem builds_star (ht : t.Simple) (n : ℕ) : Builds t (n + 1) (StarEdge n) (graphGenStar n t) := by
  have hcenter := (built_graphNew t).addNode
  unfold Builds graphGenStar
  dsimp only
  have hround : ∀ i, 0 ≤ i → i < n → ∀ g : Graph, g.Built t (i + 1) (StarEdge i) →
      ∃ g', (graphAddEdge (graphNew t).next g.next 0 false (graphAddNode 0 false g)).map Prod.fst = some g' ∧
        g'.Built t (i + 2) (StarEdge (i + 1)) := by
    intro i _ hi g h
    obtain ⟨g', hg', hbuilt⟩ := h.addNode.graphAddEdge ht (u := 0) (w := i + 1) (by omega) (by omega)
    rw [h.next]
    refine ⟨g', hg', hbuilt.congr fun a b => ?_⟩
    unfold StarEdge
    omega
  refine upTo_rule (fun i g => g.Built t (i + 1) (StarEdge i)) (Nat.zero_le n) hround (hcenter.congr fun a b => ?_)
  refine iff_of_false id fun h => ?_
  unfold StarEdge at h
  omega

theorem builds_wheel (ht : t.Simple) (h4 : 4 ≤ n) (hn : n < 2 ^ 31) :
    ∃ r, graphGenWheel n t = some r ∧ Builds t n (WheelEdge n) r := by
  obtain ⟨n, rfl⟩ := Nat.exists_eq_add_one.mpr (Nat.lt_of_lt_of_le (Nat.zero_lt_succ 3) h4)
  obtain ⟨g, hg, h⟩ := builds_star ht n
  unfold graphGenWheel
  rw [if_neg (by omega), show ((n + 1 : ℕ) : ℤ) - 1 = n by omega, hg]
  dsimp only [Option.bind_eq_bind, Option.bind_some]
  rw [h.active]
  have hround : ∀ i, 1 ≤ i → i < n + 1 → ∀ g : Graph,
      g.Built t (n + 1) (fun a b => StarEdge n a b ∨ 1 ≤ a ∧ a < i ∧ b = if a = n then 1 else a + 1) →
      ∃ g', addBetween i ((if i = lastSlot g then 1 else i + 1 : ℕ) : ℤ) g = some g' ∧
        g'.Built t (n + 1) fun a b => StarEdge n a b ∨ 1 ≤ a ∧ a < i + 1 ∧ b = if a = n then 1 else a + 1 := by
    intro i hlo hi g h
    have hlast : lastSlot g = n := h.lastSlot (Nat.succ_pos n) hn
    rw [hlast]
    obtain ⟨g', hg', hbuilt⟩ := h.addBetween ht (i := i) (j := if i = n then 1 else i + 1) hi (by split_ifs <;> omega)
    refine ⟨g', hg', hbuilt.congr fun a b => ?_⟩
    rw [or_assoc]
    refine or_congr_right ?_
    constructor
    · rintro (⟨h₁, h₂, h₃⟩ | ⟨rfl, rfl⟩)
      · exact ⟨h₁, by omega, h₃⟩
      · exact ⟨hlo, by omega, rfl⟩
    · rintro ⟨h₁, h₂, h₃⟩
      rcases Nat.lt_succ_iff_lt_or_eq.mp h₂ with hlt | rfl
      · exact .inl ⟨h₁, hlt, h₃⟩
      · exact .inr ⟨rfl, h₃⟩
  obtain ⟨g', hg', hbuilt⟩ := upTo_rule
    (fun i g => g.Built t (n + 1) fun a b => StarEdge n a b ∨ 1 ≤ a ∧ a < i ∧ b = if a = n then 1 else a + 1)
    (Nat.le_add_left 1 n) hround (h.congr fun a b => (or_iff_left fun h => by omega).symm)
  exact ⟨some g', by rw [hg', Option.bind_some], g', rfl, hbuilt⟩

theorem builds_complete (ht : t.Simple) (n : ℕ) : Builds t n (CompleteEdge n) (graphGenComplete n t) := by
  have hempty := builds_empty n t
  unfold Builds graphGenComplete
  dsimp only
  rw [show addNodes (n : ℤ).toNat (graphNew t) = graphGenEmpty n t from rfl, hempty.active]
  have hcell : ∀ i < n, ∀ j, 0 ≤ j → j < n → ∀ g : Graph,
      g.Built t n (fun a b => CompleteEdge n a b ∧ a < i ∨ CompleteEdge n a b ∧ a = i ∧ b < j) →
      ∃ g', (if i = j then some g else addBetween i j g) = some g' ∧
        g'.Built t n fun a b => CompleteEdge n a b ∧ a < i ∨ CompleteEdge n a b ∧ a = i ∧ b < j + 1 := by
    intro i hi j _ hj g h
    unfold CompleteEdge at h ⊢
    split_ifs with hij
    · exact ⟨g, rfl, h.congr fun a b => by omega⟩
    · obtain ⟨g', hg', hbuilt⟩ := h.addBetween ht hi hj
      exact ⟨g', hg', hbuilt.congr fun a b => by omega⟩
  have hrow : ∀ i, 0 ≤ i → i < n → ∀ g : Graph, g.Built t n (fun a b => CompleteEdge n a b ∧ a < i) →
      ∃ g', upTo (fun j g => if i = j then some g else addBetween i j g) 0 g.nodes.active g = some g' ∧
        g'.Built t n fun a b => CompleteEdge n a b ∧ a < i + 1 := by
    intro i _ hi g h
    rw [h.active]
    obtain ⟨g', hg', hbuilt⟩ := upTo_rule
      (fun j g => g.Built t n fun a b => CompleteEdge n a b ∧ a < i ∨ CompleteEdge n a b ∧ a = i ∧ b < j) (Nat.zero_le n)
      (hcell i hi) (h.congr fun a b => (or_iff_left fun h => Nat.not_lt_zero b h.2.2).symm)
    refine ⟨g', hg', hbuilt.congr fun a b => ?_⟩
    unfold CompleteEdge
    omega
  obtain ⟨g, hg, hbuilt⟩ := upTo_rule (fun i g => g.Built t n fun a b => CompleteEdge n a b ∧ a < i) (Nat.zero_le n) hrow
    (hempty.congr fun a b => iff_of_false id fun h => Nat.not_lt_zero a h.2)
  exact ⟨g, hg, hbuilt.congr fun a b => and_iff_left_of_imp And.left⟩

/-! ## The grid -/

theorem cell_lt {m i j : ℕ} (hi : i < m) (hj : j < n) : i * n + j < m * n := by
  have h := Nat.mul_le_mul_right n (Nat.succ_le_of_lt hi)
  rw [Nat.succ_mul] at h
  omega

theorem cell_inj {i j i' j' : ℕ} (hj : j < n) (hj' : j' < n) (h : i * n + j = i' * n + j') : i = i' ∧ j = j' := by
  have hrow {i j : ℕ} (hj : j < n) : (i * n + j) / n = i := by
    rw [Nat.add_comm, Nat.add_mul_div_right _ _ (Nat.zero_lt_of_lt hj), Nat.div_eq_of_lt hj, Nat.zero_add]
  have hi : i = i' := by rw [← hrow (i := i) hj, h, hrow hj']
  subst hi
  exact ⟨rfl, Nat.add_left_cancel h⟩

theorem gridEdge_iff {m i j b : ℕ} (hi : i < m) (hj : j < n) :
    GridEdge m n (i * n + j) b ↔ ¬i = 0 ∧ b = i * n + j - n ∨ ¬j = n - 1 ∧ b = i * n + j + 1 ∨
      ¬i = m - 1 ∧ b = i * n + j + n ∨ ¬j = 0 ∧ b = i * n + j - 1 := by
  constructor
  · rintro ⟨i₀, j₀, i', j', -, hj₀, hi', hj', hcell, rfl, hdist⟩
    obtain ⟨rfl, rfl⟩ := cell_inj hj hj₀ hcell
    have hcases : i' + 1 = i ∧ j' = j ∨ i' = i ∧ j' = j + 1 ∨ i' = i + 1 ∧ j' = j ∨ i' = i ∧ j' + 1 = j := by omega
    rcases hcases with ⟨rfl, rfl⟩ | ⟨rfl, rfl⟩ | ⟨rfl, rfl⟩ | ⟨rfl, rfl⟩
    · exact .inl ⟨by omega, by rw [Nat.succ_mul]; omega⟩
    · exact .inr (.inl ⟨by omega, rfl⟩)
    · exact .inr (.inr (.inl ⟨by omega, by rw [Nat.succ_mul]; omega⟩))
    · exact .inr (.inr (.inr ⟨by omega, rfl⟩))
  · rintro (⟨h, rfl⟩ | ⟨h, rfl⟩ | ⟨h, rfl⟩ | ⟨h, rfl⟩)
    · obtain ⟨i, rfl⟩ := Nat.exists_eq_add_one_of_ne_zero h
      exact ⟨i + 1, j, i, j, hi, hj, by omega, hj, rfl, by rw [Nat.succ_mul]; omega, by omega⟩
    · exact ⟨i, j, i, j + 1, hi, hj, hi, by omega, rfl, rfl, by omega⟩
    · exact ⟨i, j, i + 1, j, hi, hj, by omega, hj, rfl, by rw [Nat.succ_mul]; omega, by omega⟩
    · obtain ⟨j, rfl⟩ := Nat.exists_eq_add_one_of_ne_zero h
      exact ⟨i, j + 1, i, j, hi, hj, hi, by omega, rfl, rfl, by omega⟩

theorem Graph.Built.gridCell {m i j : ℕ} (ht : t.Simple) (hmn : m * n < 2 ^ 31) (hi : i < m) (hj : j < n)
    (h : g.Built t (m * n) E) :
    ∃ g', gridCell m n i j g = some g' ∧ g'.Built t (m * n) fun a b => E a b ∨ a = i * n + j ∧ GridEdge m n a b := by
  have hk := cell_lt hi hj
  have hcell : cInt (cInt ((i : ℤ) * n) + j) = (i * n + j : ℕ) := by
    rw [← Int.natCast_mul, cInt_of_lt (by omega), ← Int.natCast_add, cInt_of_lt (by omega)]
  unfold Yjc.gridCell
  dsimp only
  rw [hcell]
  generalize hkdef : i * n + j = k at hk
  have hup : ¬(i : ℤ) = 0 → cInt ((k : ℤ) - n) = (k - n : ℕ) ∧ k - n < m * n := by
    intro hc
    have hle : n ≤ i * n := Nat.le_mul_of_pos_left n (by omega)
    exact ⟨cInt_of_eq (by omega) (by omega), by omega⟩
  have hright : ¬(j : ℤ) = n - 1 → cInt ((k : ℤ) + 1) = (k + 1 : ℕ) ∧ k + 1 < m * n := by
    intro hc
    have hlt : i * n + (j + 1) < m * n := cell_lt hi (by omega)
    exact ⟨cInt_of_eq (by omega) (by omega), by omega⟩
  have hdown : ¬(i : ℤ) = m - 1 → cInt ((k : ℤ) + n) = (k + n : ℕ) ∧ k + n < m * n := by
    intro hc
    have hlt : (i + 1) * n + j < m * n := cell_lt (by omega) hj
    rw [Nat.succ_mul] at hlt
    exact ⟨cInt_of_eq (by omega) (by omega), by omega⟩
  have hleft : ¬(j : ℤ) = 0 → cInt ((k : ℤ) - 1) = (k - 1 : ℕ) ∧ k - 1 < m * n := by
    intro hc
    exact ⟨cInt_of_eq (by omega) (by omega), by omega⟩
  obtain ⟨g₁, hg₁, h₁⟩ := h.addUnless ht hk hup
  obtain ⟨g₂, hg₂, h₂⟩ := h₁.addUnless ht hk hright
  obtain ⟨g₃, hg₃, h₃⟩ := h₂.addUnless ht hk hdown
  obtain ⟨g₄, hg₄, h₄⟩ := h₃.addUnless ht hk hleft
  refine ⟨g₄, ?_, h₄.congr fun a b => ?_⟩
  · rw [hg₁, Option.bind_eq_bind, Option.bind_some, hg₂, Option.bind_some, hg₃, Option.bind_some, hg₄]
  · simp only [or_assoc]
    refine or_congr_right ?_
    by_cases ha : a = k
    · have hi0 : (i : ℤ) = 0 ↔ i = 0 := by omega
      have hj0 : (j : ℤ) = 0 ↔ j = 0 := by omega
      have hlastRow : (i : ℤ) = m - 1 ↔ i = m - 1 := by omega
      have hlastCol : (j : ℤ) = n - 1 ↔ j = n - 1 := by omega
      rw [ha, ← hkdef, gridEdge_iff hi hj, hi0, hj0, hlastRow, hlastCol]
      simp only [true_and]
    · simp only [ha, false_and, and_false, or_false]

theorem builds_grid {m : ℕ} (ht : t.Simple) (hm : 2 ≤ m) (hn : 2 ≤ n) (hmn : m * n < 2 ^ 31) :
    Builds t (m * n) (GridEdge m n) (graphGenGrid m n t) := by
  have hempty := builds_empty (m * n) t
  unfold Builds graphGenGrid
  rw [if_neg (by omega), if_neg (by omega), ← Int.natCast_mul, cInt_of_lt hmn]
  have hcell : ∀ i < m, ∀ j, 0 ≤ j → j < n → ∀ g : Graph,
      g.Built t (m * n) (fun a b => GridEdge m n a b ∧ a < i * n + j) →
      ∃ g', gridCell m n i j g = some g' ∧ g'.Built t (m * n) fun a b => GridEdge m n a b ∧ a < i * n + (j + 1) := by
    intro i hi j _ hj g h
    obtain ⟨g', hg', hbuilt⟩ := Graph.Built.gridCell ht hmn hi hj h
    refine ⟨g', hg', hbuilt.congr fun a b => ?_⟩
    rw [and_comm (a := a = _), ← and_or_left]
    exact and_congr_right fun _ => by omega
  have hrow : ∀ i, 0 ≤ i → i < m → ∀ g : Graph, g.Built t (m * n) (fun a b => GridEdge m n a b ∧ a < i * n) →
      ∃ g', upTo (fun j => gridCell m n i j) 0 n g = some g' ∧
        g'.Built t (m * n) fun a b => GridEdge m n a b ∧ a < (i + 1) * n := by
    intro i _ hi g h
    rw [Nat.succ_mul]
    exact upTo_rule (fun j g => g.Built t (m * n) fun a b => GridEdge m n a b ∧ a < i * n + j) (Nat.zero_le n) (hcell i hi) h
  obtain ⟨g, hg, hbuilt⟩ := upTo_rule (fun i g => g.Built t (m * n) fun a b => GridEdge m n a b ∧ a < i * n) (Nat.zero_le m)
    hrow (hempty.congr fun a b => iff_of_false id fun h => by omega)
  refine ⟨g, hg, hbuilt.congr fun a b => and_iff_left_of_imp ?_⟩
  rintro ⟨i, j, i', j', hi, hj, -, -, rfl, -, -⟩
  exact cell_lt hi hj

/-! ## The generators together -/

/-- As `Builds`, and the edges of an undirected graph go both ways. -/
def Generates (t : GraphType) (n : ℕ) (E : ℕ → ℕ → Prop) (r : Option Graph) : Prop :=
  ∃ g, r = some g ∧ g.Built t n E ∧ (t = .graph → ∀ a b, 0 < g.mult (a, b) → 0 < g.mult (b, a))

theorem Builds.generates {r : Option Graph} (h : Builds t n E r) : Generates t n E r := by
  obtain ⟨g, hg, hbuilt⟩ := h
  refine ⟨g, hg, hbuilt, fun ht a b hab => ?_⟩
  rw [hbuilt.edges] at hab ⊢
  exact hab.symm ht

theorem generators_build (ht : t.Simple) :
    (∀ n : ℕ, 1 ≤ n → n < 2 ^ 31 → Generates t n (PathEdge n) (graphGenPath n t)) ∧
    (∀ n : ℕ, 3 ≤ n → n < 2 ^ 31 → Generates t n (CycleEdge n) (graphGenCycle n t)) ∧
    (∀ n : ℕ, n < 2 ^ 31 → Generates t (n + 1) (StarEdge n) (graphGenStar n t)) ∧
    (∀ n : ℕ, 4 ≤ n → n < 2 ^ 31 → ∃ r, graphGenWheel n t = some r ∧ Generates t n (WheelEdge n) r) ∧
    (∀ n : ℕ, n < 2 ^ 31 → Generates t n (CompleteEdge n) (graphGenComplete n t)) ∧
    ∀ m n : ℕ, 2 ≤ m → 2 ≤ n → m * n < 2 ^ 31 → Generates t (m * n) (GridEdge m n) (graphGenGrid m n t) := by
  refine ⟨fun n h1 hn => ?_, fun n h3 hn => ?_, fun n _ => ?_, fun n h4 hn => ?_, fun n _ => ?_, fun m n hm hn hmn => ?_⟩
  · exact (builds_path ht h1 hn).generates
  · exact (builds_cycle ht h3 hn).generates
  · exact (builds_star ht n).generates
  · obtain ⟨r, hr, h⟩ := builds_wheel ht h4 hn
    exact ⟨r, hr, h.generates⟩
  · exact (builds_complete ht n).generates
  · exact (builds_grid ht hm hn hmn).generates

theorem generators_build_sample : Generates .graph 6 (GridEdge 2 3) (graphGenGrid 2 3 .graph) :=
  (generators_build (.inl rfl)).2.2.2.2.2 2 3 (by decide) (by decide) (by decide)

/-! ## Grids with one row or column -/

/-- Two nodes have an edge, one way or the other, just if their distance in the line of `n` nodes is 1. -/
def LineAdjacent (n : ℕ) (g : Graph) : Prop :=
  ∀ a b, a < n → b < n → (0 < g.mult (a, b) ∨ 0 < g.mult (b, a) ↔ a + 1 = b ∨ b + 1 = a)

theorem not_lineAdjacent (h3 : 3 ≤ n) (h : g.Built t n (CycleEdge n)) : ¬LineAdjacent n g := by
  intro hline
  have hback : 0 < g.mult (n - 1, 0) := (h.edges (n - 1) 0).mpr (.inl (.inr ⟨rfl, rfl⟩))
  have hnext := (hline (n - 1) 0 (by omega) (by omega)).mp (.inl hback)
  omega

theorem line_grid_closed (ht : t.Simple) (h3 : 3 ≤ n) (hn : n < 2 ^ 31) :
    (∃ g, graphGenGrid 1 n t = some g ∧ g.Built t n (CycleEdge n) ∧ ¬LineAdjacent n g) ∧
      ∃ g, graphGenGrid n 1 t = some g ∧ g.Built t n (CycleEdge n) ∧ ¬LineAdjacent n g := by
  obtain ⟨g, hg, h⟩ := builds_cycle ht h3 hn
  have hnot := not_lineAdjacent h3 h
  have hrow : graphGenGrid 1 n t = graphGenCycle n t := if_pos rfl
  have hcol : graphGenGrid n 1 t = graphGenCycle n t := by
    unfold graphGenGrid
    rw [if_neg (by omega), if_pos rfl]
  exact ⟨⟨g, hrow.trans hg, h, hnot⟩, g, hcol.trans hg, h, hnot⟩

theorem line_grid_closed_sample :
    (∃ g, graphGenGrid 1 4 .graph = some g ∧ g.Built .graph 4 (CycleEdge 4) ∧ ¬LineAdjacent 4 g) ∧
      ∃ g, graphGenGrid 4 1 .graph = some g ∧ g.Built .graph 4 (CycleEdge 4) ∧ ¬LineAdjacent 4 g :=
  line_grid_closed (.inl rfl) (by decide) (by decide)

/-- A row of three nodes: the first and the last are adjacent. -/
theorem row_of_three : ∃ g ∈ graphGenGrid 1 3 .graph, ¬LineAdjacent 3 g := by
  have hrun : ∃ g ∈ graphGenGrid 1 3 .graph, 0 < g.mult (2, 0) := by decide +kernel
  obtain ⟨g, hg, hback⟩ := hrun
  refine ⟨g, hg, fun hline => ?_⟩
  have hnext := (hline 2 0 (by decide) (by decide)).mp (.inl hback)
  omega

end Yjc
