import Yjc.Container.Graph
import Yjc.Lib.Run
import Mathlib.Data.List.Induction

/-! Deleting edges one after another: what is left of the edges and of the lists of the nodes. -/

namespace Yjc
open SwapRemove

namespace Vector

theorem dropLoop_eq (x i : ℕ) (v : Vector ℕ) (hi : i ≤ v.elts.length) :
    (x ∈ v.elts.take i → (x :: (dropLoop x i v).elts).Perm v.elts) ∧ (x ∉ v.elts.take i → dropLoop x i v = v) := by
  induction i with
  | zero => exact ⟨fun hx => (by cases hx), fun _ => rfl⟩
  | succ i ih =>
    obtain ⟨hin, hout⟩ := ih (Nat.le_of_succ_le hi)
    have hget := List.getElem?_eq_getElem hi
    have htake : v.elts.take (i + 1) = v.elts.take i ++ [v.elts[i]] := List.take_succ_eq_append_getElem hi
    unfold dropLoop
    rw [slot_eq, htake, List.mem_append, List.mem_singleton]
    split_ifs with hx
    · have heq : x = v.elts[i] := Option.some.inj (hx.symm.trans hget)
      refine ⟨fun _ => ?_, fun hn => absurd (.inr heq) hn⟩
      rw [elts_remove v hi]
      exact perm_swapRemove hx
    · have hne : x ≠ v.elts[i] := fun heq => hx (heq ▸ hget)
      exact ⟨fun h => hin (h.resolve_right hne), fun h => hout fun hc => h (.inl hc)⟩

theorem perm_dropOne {x : ℕ} {v : Vector ℕ} (hx : x ∈ v.elts) : (x :: (v.dropOne x).elts).Perm v.elts := by
  refine (dropLoop_eq x v.active v (Nat.le_of_eq (active_eq v))).1 ?_
  rw [active_eq, List.take_length]
  exact hx

theorem dropOne_of_notMem {x : ℕ} {v : Vector ℕ} (hx : x ∉ v.elts) : v.dropOne x = v := by
  refine (dropLoop_eq x v.active v (Nat.le_of_eq (active_eq v))).2 ?_
  rw [active_eq, List.take_length]
  exact hx

theorem count_dropOne (x y : ℕ) (v : Vector ℕ) :
    (v.dropOne x).elts.count y = v.elts.count y - if x = y then 1 else 0 := by
  by_cases hx : x ∈ v.elts
  · rw [← (perm_dropOne hx).count_eq y, List.count_cons]
    simp only [beq_iff_eq]
    rw [Nat.add_sub_cancel]
  · rw [dropOne_of_notMem hx]
    split_ifs with h
    · rw [← h, List.count_eq_zero_of_not_mem hx]
    · rfl

theorem elts_dropOne_concat {x : ℕ} {v : Vector ℕ} {l : List ℕ} (h : v.elts = l ++ [x]) : (v.dropOne x).elts = l := by
  have hlen : v.active = l.length + 1 := by rw [active_eq, h, List.length_append, List.length_singleton]
  have hslot : v.slot l.length = some x := by rw [slot_eq, h, List.getElem?_concat_length]
  rw [dropOne, hlen, dropLoop, if_pos hslot, elts_remove v (by rw [← active_eq, hlen]; exact Nat.lt_succ_self _), h,
    swapRemove_append, List.set_eq_of_length_le (Nat.le_refl _)]

end Vector

theorem dropEdges_eq (p : ℕ × ℕ) (i : ℕ) (edges : Vector GraphEdge) (e : Option GraphEdge) (hi : i ≤ edges.elts.length) :
    ∃ edges', dropEdges p i edges e = some (edges', if i = 0 then e else edges.elts.head?) ∧
      edges'.elts.Perm ((edges.elts.take i).filter (fun e => e.pair ≠ p) ++ edges.elts.drop i) := by
  induction i generalizing edges e with
  | zero => exact ⟨edges, rfl, .rfl⟩
  | succ i ih =>
    have hget := List.getElem?_eq_getElem hi
    have htake : edges.elts.take (i + 1) = edges.elts.take i ++ [edges.elts[i]] := List.take_succ_eq_append_getElem hi
    have hhead : (if i = 0 then some edges.elts[i] else edges.elts.head?) = edges.elts.head? := by
      split_ifs with h
      · rw [List.head?_eq_getElem?, ← hget, h]
      · rfl
    unfold dropEdges
    rw [Vector.slot_eq, hget]
    change ∃ edges', dropEdges p i (if edges.elts[i].pair = p then edges.remove i else edges) (some edges.elts[i]) = _ ∧ _
    rw [if_neg (Nat.succ_ne_zero i), htake, List.filter_append]
    split_ifs with hp
    · have hrem := Vector.elts_remove edges hi
      obtain ⟨edges', heq, hperm⟩ := ih (edges.remove i) (some edges.elts[i])
        (by rw [hrem, length_swapRemove]; exact Nat.le_sub_one_of_lt hi)
      have hhead' : (if i = 0 then some edges.elts[i] else (edges.remove i).elts.head?) = edges.elts.head? := by
        rw [← hhead]
        split_ifs with h
        · rfl
        · rw [hrem, List.head?_eq_getElem?, List.head?_eq_getElem?,
            getElem?_swapRemove_of_ne (fun hc => h hc.symm) (by omega)]
      refine ⟨edges', by rw [heq, hhead'], hperm.trans ?_⟩
      rw [hrem, take_swapRemove hi, List.filter_cons_of_neg (by simp [hp]), List.filter_nil, List.append_nil]
      exact (perm_drop_swapRemove hi).append_left _
    · obtain ⟨edges', heq, hperm⟩ := ih edges (some edges.elts[i]) (Nat.le_of_succ_le hi)
      refine ⟨edges', by rw [heq, hhead], hperm.trans ?_⟩
      rw [List.filter_cons_of_pos (by simp [hp]), List.filter_nil, List.append_assoc, List.singleton_append,
        List.getElem_cons_drop]

/-! ## The three ways in which an edge is stored -/

namespace Graph

/-- How often an edge is in `edges`, in the list `to` of its first node and in the list `from` of its second. -/
def mult (g : Graph) (p : ℕ × ℕ) : ℕ := (g.edges.elts.map GraphEdge.pair).count p

def outMult (g : Graph) (p : ℕ × ℕ) : ℕ := ((g.mem p.1).map fun n => n.to_.elts.count p.2).getD 0

def inMult (g : Graph) (p : ℕ × ℕ) : ℕ := ((g.mem p.2).map fun n => n.from_.elts.count p.1).getD 0

def Consistent (g : Graph) : Prop := ∀ p, g.outMult p = g.mult p ∧ g.inMult p = g.mult p

theorem mult_pos {g : Graph} {p : ℕ × ℕ} : 0 < g.mult p ↔ ∃ e ∈ g.edges.elts, e.pair = p := by
  rw [mult, List.count_pos_iff, List.mem_map]

end Graph

open Yjc.Graph

variable {g g' : Graph} {p : ℕ × ℕ} {ps qs : List (ℕ × ℕ)}

/-- What `_graph_delete_edge` makes of the node at `a`. -/
def GraphNode.cut (p : ℕ × ℕ) (a : ℕ) (n : GraphNode) : GraphNode :=
  { n with
    from_ := if a = p.2 then n.from_.dropOne p.1 else n.from_
    to_ := if a = p.1 then n.to_.dropOne p.2 else n.to_ }

/-- What `_graph_delete_edge` does: it takes all the edges from `edges` but one entry from each of the lists. -/
structure Cut (p : ℕ × ℕ) (g g' : Graph) : Prop where
  type : g'.type = g.type
  nodes : g'.nodes = g.nodes
  next : g'.next = g.next
  edges : g'.edges.elts.Perm (g.edges.elts.filter fun e => e.pair ≠ p)
  mem : ∀ a, g'.mem a = (g.mem a).map (GraphNode.cut p a)

theorem modifyNode_eq_some {a : ℕ} {f : GraphNode → GraphNode} (h : g.modifyNode a f = some g') :
    ∃ n, g.mem a = some n ∧ g' = { g with mem := Function.update g.mem a (some (f n)) } := by
  obtain ⟨n, hn, rfl⟩ := Option.map_eq_some_iff.mp h
  exact ⟨n, hn, rfl⟩

theorem dropEdges_self (p : ℕ × ℕ) (edges : Vector GraphEdge) :
    ∃ edges', dropEdges p edges.active edges none = some (edges', edges.elts.head?) ∧
      edges'.elts.Perm (edges.elts.filter fun e => e.pair ≠ p) := by
  obtain ⟨edges', heq, hperm⟩ := dropEdges_eq p edges.active edges none (Nat.le_of_eq edges.active_eq)
  rw [edges.active_eq, List.take_length, List.drop_length, List.append_nil] at hperm
  refine ⟨edges', heq.trans ?_, hperm⟩
  split_ifs with h
  · rw [edges.active_eq, List.length_eq_zero_iff] at h
    rw [h]
    rfl
  · rfl

theorem deleteEdge_eq_some (h : deleteEdge p g = some g') :
    ∃ edges' n m e, edges'.elts.Perm (g.edges.elts.filter fun e => e.pair ≠ p) ∧ g.edges.elts.head? = some e ∧ g.mem p.2 = some n ∧
      Function.update g.mem p.2 (some { n with from_ := n.from_.dropOne p.1 }) p.1 = some m ∧
        g' = { g with
          edges := edges'
          mem := Function.update (Function.update g.mem p.2 (some { n with from_ := n.from_.dropOne p.1 })) p.1
            (some { m with to_ := m.to_.dropOne p.2 })
          called := if e.del ∧ e.attr ≠ 0 then g.called ++ [GraphCall.edge e] else g.called } := by
  obtain ⟨edges', heq, hperm⟩ := dropEdges_self p g.edges
  obtain ⟨r, hr, h⟩ := Option.bind_eq_some_iff.mp h
  cases heq.symm.trans hr
  obtain ⟨g₁, h₁, h⟩ := Option.bind_eq_some_iff.mp h
  obtain ⟨g₂, h₂, h⟩ := Option.bind_eq_some_iff.mp h
  obtain ⟨e, he, h⟩ := Option.bind_eq_some_iff.mp h
  obtain ⟨n, hn, rfl⟩ := modifyNode_eq_some h₁
  obtain ⟨m, hm, rfl⟩ := modifyNode_eq_some h₂
  refine ⟨edges', n, m, e, hperm, he, hn, hm, ?_⟩
  cases h
  split_ifs <;> rfl

theorem deleteEdge_cut (h : deleteEdge p g = some g') : Cut p g g' := by
  obtain ⟨edges', n, m, e, hperm, -, hn, hm, rfl⟩ := deleteEdge_eq_some h
  have hmem : ∀ a, Function.update (Function.update g.mem p.2 (some { n with from_ := n.from_.dropOne p.1 })) p.1
      (some { m with to_ := m.to_.dropOne p.2 }) a = (g.mem a).map (GraphNode.cut p a) := by
    intro a
    unfold GraphNode.cut
    rcases eq_or_ne a p.1 with rfl | h1
    · rw [Function.update_self]
      rcases eq_or_ne p.1 p.2 with h12 | h12
      · rw [← h12, Function.update_self] at hm
        rw [← h12] at hn
        cases hm
        rw [hn, Option.map_some, if_pos h12, if_pos rfl]
      · rw [Function.update_of_ne h12] at hm
        rw [hm, Option.map_some, if_neg h12, if_pos rfl]
    · rw [Function.update_of_ne h1]
      rcases eq_or_ne a p.2 with rfl | h2
      · rw [Function.update_self, hn, Option.map_some, if_pos rfl, if_neg h1]
      · rw [Function.update_of_ne h2]
        simp only [if_neg h1, if_neg h2, Option.map_id']
  exact ⟨rfl, rfl, rfl, hperm, hmem⟩

theorem deleteEdge_isSome (h₁ : (g.mem p.1).isSome) (h₂ : (g.mem p.2).isSome) :
    (deleteEdge p g).isSome ↔ g.edges.elts ≠ [] := by
  obtain ⟨edges', heq, -⟩ := dropEdges_self p g.edges
  obtain ⟨n, hn⟩ := Option.isSome_iff_exists.mp h₂
  obtain ⟨m, hm⟩ : ∃ m, Function.update g.mem p.2 (some { n with from_ := n.from_.dropOne p.1 }) p.1 = some m := by
    rcases eq_or_ne p.1 p.2 with h12 | h12
    · rw [h12, Function.update_self]
      exact ⟨_, rfl⟩
    · rw [Function.update_of_ne h12]
      exact Option.isSome_iff_exists.mp h₁
  unfold deleteEdge
  rw [heq]
  simp only [Graph.modifyNode, Option.bind_eq_bind, Option.bind_some, hn, Option.map_some, hm]
  cases g.edges.elts with
  | nil => exact iff_of_false Bool.false_ne_true fun h => h rfl
  | cons e l => exact iff_of_true rfl (List.cons_ne_nil e l)

theorem Cut.live (h : Cut p g g') (a : ℕ) : (g'.mem a).isSome = (g.mem a).isSome := by
  rw [h.mem, Option.isSome_map]

theorem Cut.outMult (h : Cut p g g') (q : ℕ × ℕ) : g'.outMult q = g.outMult q - if p = q then 1 else 0 := by
  unfold Graph.outMult
  rw [h.mem]
  cases g.mem q.1 with
  | none =>
    rw [Option.map_none, Option.map_none, Option.getD_none, Nat.zero_sub]
  | some n =>
    simp only [Option.map_some, Option.getD_some, GraphNode.cut]
    rcases eq_or_ne q.1 p.1 with h1 | h1
    · rw [if_pos h1, Vector.count_dropOne]
      simp only [Prod.ext_iff, h1, true_and]
    · rw [if_neg h1, if_neg fun hc => h1 (congrArg Prod.fst hc.symm), Nat.sub_zero]

theorem Cut.inMult (h : Cut p g g') (q : ℕ × ℕ) : g'.inMult q = g.inMult q - if p = q then 1 else 0 := by
  unfold Graph.inMult
  rw [h.mem]
  cases g.mem q.2 with
  | none =>
    rw [Option.map_none, Option.map_none, Option.getD_none, Nat.zero_sub]
  | some n =>
    simp only [Option.map_some, Option.getD_some, GraphNode.cut]
    rcases eq_or_ne q.2 p.2 with h2 | h2
    · rw [if_pos h2, Vector.count_dropOne]
      simp only [Prod.ext_iff, h2, and_true]
    · rw [if_neg h2, if_neg fun hc => h2 (congrArg Prod.snd hc.symm), Nat.sub_zero]

/-! ## Several deletions -/

/-- `_graph_delete_edge` for every pair. -/
def deleteAll (ps : List (ℕ × ℕ)) (g : Graph) : Option Graph := Run.exec (fun g p => deleteEdge p g) g ps

/-- What several calls of `_graph_delete_edge` do. -/
structure Cuts (ps : List (ℕ × ℕ)) (g g' : Graph) : Prop where
  type : g'.type = g.type
  nodes : g'.nodes = g.nodes
  next : g'.next = g.next
  live : ∀ a, (g'.mem a).isSome = (g.mem a).isSome
  edges : g'.edges.elts.Perm (g.edges.elts.filter fun e => e.pair ∉ ps)
  outMult : ∀ p, g'.outMult p = g.outMult p - ps.count p
  inMult : ∀ p, g'.inMult p = g.inMult p - ps.count p

theorem Cuts.nil (g : Graph) : Cuts [] g g := by
  refine ⟨rfl, rfl, rfl, fun _ => rfl, ?_, fun _ => rfl, fun _ => rfl⟩
  simp only [List.not_mem_nil, not_false_eq_true, decide_true, List.filter_true]
  exact .rfl

theorem Cut.cons {g₁ : Graph} (h : Cut p g g₁) (h' : Cuts ps g₁ g') : Cuts (p :: ps) g g' := by
  refine ⟨h'.type.trans h.type, h'.nodes.trans h.nodes, h'.next.trans h.next, fun a => (h'.live a).trans (h.live a), ?_,
    fun q => ?_, fun q => ?_⟩
  · refine (h'.edges.trans (h.edges.filter _)).trans ?_
    rw [List.filter_filter]
    apply List.Perm.of_eq
    apply List.filter_congr
    intro e _
    simp only [List.mem_cons, not_or, ← Bool.decide_and, ne_eq, and_comm]
  · rw [h'.outMult, h.outMult, List.count_cons, Nat.sub_sub, Nat.add_comm]
    simp only [beq_iff_eq]
  · rw [h'.inMult, h.inMult, List.count_cons, Nat.sub_sub, Nat.add_comm]
    simp only [beq_iff_eq]

theorem deleteAll_cuts (h : deleteAll ps g = some g') : Cuts ps g g' := by
  induction ps generalizing g with
  | nil =>
    cases h
    exact .nil _
  | cons p ps ih =>
    obtain ⟨g₁, h₁, h⟩ := Run.exec_cons.mp h
    exact (deleteEdge_cut h₁).cons (ih h)

theorem Cut.mem_edges (h : Cut p g g') {e : GraphEdge} : e ∈ g'.edges.elts ↔ e ∈ g.edges.elts ∧ e.pair ≠ p := by
  rw [h.edges.mem_iff, List.mem_filter, decide_eq_true_eq]

theorem deleteAll_isSome (hlive : ∀ p ∈ ps, (g.mem p.1).isSome ∧ (g.mem p.2).isSome) :
    (deleteAll ps g).isSome ↔ ps = [] ∨ ∃ e ∈ g.edges.elts, e.pair ∉ ps.dropLast := by
  induction ps generalizing g with
  | nil => exact iff_of_true rfl (.inl rfl)
  | cons p ps ih =>
    have hp := hlive p List.mem_cons_self
    have hsome := deleteEdge_isSome hp.1 hp.2
    rw [or_iff_right (List.cons_ne_nil p ps)]
    cases hdel : deleteEdge p g with
    | none =>
      rw [hdel] at hsome
      have hempty : g.edges.elts = [] := by
        by_contra hne
        exact Bool.false_ne_true (hsome.mpr hne)
      rw [deleteAll, Run.exec, hdel, hempty]
      refine iff_of_false Bool.false_ne_true ?_
      rintro ⟨e, he, -⟩
      cases he
    | some g₁ =>
      have hcut := deleteEdge_cut hdel
      have hrest := ih (g := g₁) fun q hq => by
        rw [hcut.live, hcut.live]
        exact hlive q (List.mem_cons_of_mem p hq)
      rw [show deleteAll (p :: ps) g = deleteAll ps g₁ by rw [deleteAll, Run.exec, hdel]; rfl, hrest]
      cases ps with
      | nil =>
        refine iff_of_true (.inl rfl) ?_
        rw [hdel] at hsome
        obtain ⟨e, he⟩ := List.exists_mem_of_ne_nil _ (hsome.mp rfl)
        exact ⟨e, he, List.not_mem_nil⟩
      | cons q qs =>
        rw [or_iff_right (List.cons_ne_nil q qs), List.dropLast_cons_of_ne_nil (List.cons_ne_nil q qs)]
        constructor
        · rintro ⟨e, he, hnot⟩
          obtain ⟨he, hne⟩ := hcut.mem_edges.mp he
          exact ⟨e, he, fun hc => (List.mem_cons.mp hc).elim hne hnot⟩
        · rintro ⟨e, he, hnot⟩
          rw [List.mem_cons, not_or] at hnot
          exact ⟨e, hcut.mem_edges.mpr ⟨he, hnot.1⟩, hnot.2⟩

theorem Cuts.mult (h : Cuts ps g g') (p : ℕ × ℕ) : g'.mult p = if p ∈ ps then 0 else g.mult p := by
  have hmap : (g.edges.elts.filter fun e => e.pair ∉ ps).map GraphEdge.pair =
      (g.edges.elts.map GraphEdge.pair).filter fun q => q ∉ ps := by
    rw [List.filter_map]
    rfl
  unfold Graph.mult
  rw [(h.edges.map GraphEdge.pair).count_eq p, hmap]
  split_ifs with hp
  · refine List.count_eq_zero_of_not_mem fun hc => ?_
    exact of_decide_eq_true (List.mem_filter.mp hc).2 hp
  · exact List.count_filter (decide_eq_true hp)

theorem Cuts.consistent_iff (h : Cuts ps g g') (hg : g.Consistent) :
    g'.Consistent ↔ ∀ p ∈ ps, g.mult p ≤ ps.count p := by
  have hall : g'.Consistent ↔ ∀ p, g.mult p - ps.count p = if p ∈ ps then 0 else g.mult p := by
    refine forall_congr' fun p => ?_
    rw [h.mult, h.outMult, h.inMult, (hg p).1, (hg p).2, and_self_iff]
  rw [hall]
  refine forall_congr' fun p => ?_
  by_cases hp : p ∈ ps
  · rw [if_pos hp, Nat.sub_eq_zero_iff_le, forall_prop_of_true hp]
  · rw [if_neg hp, List.count_eq_zero_of_not_mem hp]
    exact iff_of_true rfl fun hc => absurd hc hp

/-! ## The loops of `graph_delete_node` -/

def GraphType.directed : GraphType → Bool
  | .diGraph | .multiDiGraph => true
  | .graph | .multiGraph => false

theorem graphDeleteEdge_directed (ht : g.type.directed = true) (u w : ℕ) :
    graphDeleteEdge u w g = deleteAll [(u, w)] g := by
  have hone : deleteAll [(u, w)] g = deleteEdge (u, w) g := Option.bind_fun_some (deleteEdge (u, w) g)
  rw [hone]
  unfold graphDeleteEdge
  cases hty : g.type with
  | diGraph | multiDiGraph => rfl
  | graph | multiGraph =>
    rw [hty] at ht
    cases ht

theorem graphDeleteEdge_undirected (ht : g.type.directed = false) (u w : ℕ) :
    graphDeleteEdge u w g = deleteAll [(u, w), (w, u)] g := by
  have htwo : deleteAll [(u, w), (w, u)] g = (deleteEdge (u, w) g).bind (deleteEdge (w, u)) := by
    refine congrArg ((deleteEdge (u, w) g).bind ·) (funext fun g₁ => ?_)
    exact Option.bind_fun_some (deleteEdge (w, u) g₁)
  rw [htwo]
  unfold graphDeleteEdge
  cases hty : g.type with
  | diGraph | multiDiGraph =>
    rw [hty] at ht
    cases ht
  | graph | multiGraph => rfl

theorem deleteAll_append (ps qs : List (ℕ × ℕ)) (g : Graph) :
    deleteAll (ps ++ qs) g = (deleteAll ps g).bind (deleteAll qs) := by
  induction ps generalizing g with
  | nil => rfl
  | cons p ps ih =>
    change (deleteEdge p g).bind (deleteAll (ps ++ qs)) = ((deleteEdge p g).bind (deleteAll ps)).bind (deleteAll qs)
    rw [Option.bind_assoc]
    exact congrArg ((deleteEdge p g).bind ·) (funext ih)

def GraphNode.cuts (ps : List (ℕ × ℕ)) (a : ℕ) (n : GraphNode) : GraphNode := ps.foldl (fun n p => n.cut p a) n

theorem deleteAll_mem (h : deleteAll ps g = some g') {a : ℕ} {n : GraphNode} (hn : g.mem a = some n) :
    g'.mem a = some (n.cuts ps a) := by
  induction ps generalizing g n with
  | nil =>
    cases h
    exact hn
  | cons p ps ih =>
    obtain ⟨g₁, h₁, h⟩ := Run.exec_cons.mp h
    refine ih h ?_
    rw [(deleteEdge_cut h₁).mem, hn]
    rfl

theorem deleteEdges_eq (side : Side) (d : Bool) {node : ℕ} {n : GraphNode} (calls : ℕ → List (ℕ × ℕ)) {l : List ℕ}
    (hcalls : ∀ a g, g.type.directed = d → graphDeleteEdge (side.pair node a).1 (side.pair node a).2 g =
      deleteAll (calls a) g)
    (hlast : ∀ l' a n, l' ++ [a] <+: l → (side.list n).elts = l' ++ [a] →
      (side.list (GraphNode.cuts (calls a) node n)).elts = l')
    (ht : g.type.directed = d) (hn : g.mem node = some n) (hl : (side.list n).elts = l) :
    deleteEdges side node l.length g = deleteAll (l.reverse.flatMap calls) g := by
  induction l using List.reverseRecOn generalizing g n with
  | nil => rfl
  | append_singleton l a ih =>
    rw [List.length_append, List.length_singleton, List.reverse_append, List.reverse_singleton, List.singleton_append,
      List.flatMap_cons, deleteAll_append]
    unfold deleteEdges
    rw [hn]
    change ((side.list n).slot l.length).bind _ = _
    rw [Vector.slot_eq, hl, List.getElem?_concat_length]
    change (graphDeleteEdge (side.pair node a).1 (side.pair node a).2 g).bind _ = _
    rw [hcalls a g ht]
    cases hdel : deleteAll (calls a) g with
    | none => rfl
    | some g₁ =>
      refine ih (fun l' b n hp => hlast l' b n (hp.trans (List.prefix_append l [a]))) ?_ (deleteAll_mem hdel hn)
        (hlast l a n List.prefix_rfl hl)
      rw [(deleteAll_cuts hdel).type]
      exact ht

theorem deleteEdges_directed (side : Side) {node : ℕ} {n : GraphNode} (ht : g.type.directed = true)
    (hn : g.mem node = some n) :
    deleteEdges side node (side.list n).elts.length g =
      deleteAll ((side.list n).elts.reverse.map (side.pair node)) g := by
  rw [← List.flatMap_pure_eq_map]
  refine deleteEdges_eq side true (fun a => [side.pair node a]) (fun a g₁ h => ?_) (fun l a m _ hm => ?_) ht hn rfl
  · exact graphDeleteEdge_directed h _ _
  · cases side with
    | in_ =>
      change (if node = node then m.from_.dropOne a else m.from_).elts = l
      rw [if_pos rfl]
      exact Vector.elts_dropOne_concat hm
    | out =>
      change (if node = node then m.to_.dropOne a else m.to_).elts = l
      rw [if_pos rfl]
      exact Vector.elts_dropOne_concat hm

theorem deleteEdges_undirected {node : ℕ} {n : GraphNode} (ht : g.type.directed = false) (hn : g.mem node = some n)
    (hself : n.from_.elts.count node ≤ 1) :
    deleteEdges .in_ node n.from_.elts.length g =
      deleteAll (n.from_.elts.reverse.flatMap fun a => [(a, node), (node, a)]) g := by
  -- where the type is undirected an entry is taken from the other list, too, which is the same list for a self-loop: there
  -- must not be two of them
  refine deleteEdges_eq .in_ false (fun a => [(a, node), (node, a)]) (fun a g₁ h => ?_) (fun l a m hp hm => ?_) ht hn rfl
  · exact graphDeleteEdge_undirected h _ _
  · have hlast := Vector.elts_dropOne_concat hm
    change (if node = a then (if node = node then m.from_.dropOne a else m.from_).dropOne node
      else if node = node then m.from_.dropOne a else m.from_).elts = l
    rw [if_pos rfl]
    change (m.from_.dropOne a).elts = l at hlast
    split_ifs with ha
    · rw [Vector.dropOne_of_notMem, hlast]
      rw [hlast]
      intro hin
      have hle := Nat.le_trans (hp.sublist.count_le node) hself
      rw [List.count_append, ← ha, List.count_singleton_self] at hle
      have hpos := List.count_pos_iff.mpr hin
      omega
    · exact hlast

theorem deleteEdges_selfloops {node : ℕ} {n : GraphNode} {l : List ℕ} (ht : g.type.directed = false)
    (hn : g.mem node = some n) (hl : n.from_.elts = l) (hself : 2 ≤ l.count node) :
    deleteEdges .in_ node l.length g = none := by
  -- with two of them the loop comes to a slot that is not set any more
  induction l using List.reverseRecOn generalizing g n with
  | nil => cases hself
  | append_singleton l a ih =>
    rw [List.length_append, List.length_singleton]
    unfold deleteEdges
    rw [hn]
    change (n.from_.slot l.length).bind _ = _
    rw [Vector.slot_eq, hl, List.getElem?_concat_length]
    change (graphDeleteEdge a node g).bind _ = none
    rw [graphDeleteEdge_undirected ht]
    cases hdel : deleteAll [(a, node), (node, a)] g with
    | none => rfl
    | some g₁ =>
      have ht₁ : g₁.type.directed = false := by rw [(deleteAll_cuts hdel).type, ht]
      have hn₁ := deleteAll_mem hdel hn
      have hlast := Vector.elts_dropOne_concat hl
      rw [List.count_append] at hself
      change deleteEdges .in_ node l.length g₁ = none
      rcases eq_or_ne a node with rfl | ha
      · -- the second deletion takes another entry of the same list
        rw [List.count_singleton_self] at hself
        have hin : a ∈ (n.from_.dropOne a).elts := by
          rw [hlast]
          exact List.count_pos_iff.mp (by omega)
        have hlen := (Vector.perm_dropOne hin).length_eq
        rw [hlast, List.length_cons] at hlen
        rw [← hlen]
        unfold deleteEdges
        rw [hn₁]
        have hfrom : (n.cuts [(a, a), (a, a)] a).from_ = (n.from_.dropOne a).dropOne a := by
          change (if a = a then (if a = a then n.from_.dropOne a else n.from_).dropOne a
            else if a = a then n.from_.dropOne a else n.from_) = _
          rw [if_pos rfl, if_pos rfl]
        change ((n.cuts [(a, a), (a, a)] a).from_.slot _).bind _ = none
        rw [hfrom, Vector.slot_eq, List.getElem?_eq_none (Nat.le_refl _)]
        rfl
      · refine ih ht₁ hn₁ ?_ ?_
        · change (if node = a then (if node = node then n.from_.dropOne a else n.from_).dropOne node
            else if node = node then n.from_.dropOne a else n.from_).elts = l
          rw [if_neg ha.symm, if_pos rfl]
          exact hlast
        · rw [List.count_singleton, if_neg (by simpa using ha)] at hself
          exact hself

end Yjc
