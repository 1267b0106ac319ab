import Yjc.Container.GraphShortest
import Yjc.Container.SparseVector
import Yjc.Lib.DepthFirst

/-! `graph_dfs`: the visited nodes are in a vector that all calls share. -/

namespace Yjc
open Yjc.Graph SparseVector

/-- The vector of the visited nodes, and the calls of `dfs_cb`, which does not change the graph. -/
structure DfsState where
  visited : SparseVector ℕ
  calls : List ℕ

/-- The loop over the visited nodes, with `count` of them to go. -/
def visitedLoop (visited : SparseVector ℕ) (start : ℕ) : ℕ → ℕ → Bool
  | 0, _ => false
  | count + 1, i => if visited.slot i = some start then true else visitedLoop visited start count (i + 1)

/-- The loop over `to`, from the last node down. -/
def childrenLoop (dfs : ℕ → DfsState → Option DfsState) (to_ : Vector ℕ) : ℕ → DfsState → Option DfsState
  | 0, s => some s
  | i + 1, s => do
    let c ← to_.slot i
    let s ← dfs c s
    childrenLoop dfs to_ i s

/-- `_graph_dfs`; `none`: the calls are nested deeper than `fuel`, or a node is not there any more. -/
def dfsFrom (g : Graph) : ℕ → ℕ → DfsState → Option DfsState
  | 0, _, _ => none
  | fuel + 1, start, s =>
    if visitedLoop s.visited start s.visited.active 0 then some s
    else do
      let visited := s.visited.ensure s.visited.active
      let visited := visited.setIndex visited.active (some start)
      let s : DfsState := ⟨visited, s.calls ++ [start]⟩
      let n ← g.mem start
      childrenLoop (dfsFrom g fuel) n.to_ n.to_.active s

/-- With the nodes that `dfs_cb` is called on. -/
def graphDfs (fuel start : ℕ) (g : Graph) : Option (List ℕ) :=
  (dfsFrom g fuel start ⟨.init vectorMinSize, []⟩).map DfsState.calls

/-- The nodes that `_graph_dfs` goes on to, in its order. -/
def Graph.children (g : Graph) (a : ℕ) : Option (List ℕ) := (g.mem a).map fun n => n.to_.elts.reverse

/-- The visited nodes are those that `dfs_cb` was called on. -/
def DfsState.Has (s : DfsState) (l : List ℕ) : Prop := s.visited.Rep (l.map some) ∧ s.calls = l

variable {g : Graph} {s : DfsState} {l : List ℕ} {start : ℕ}

theorem visitedLoop_eq {visited : SparseVector ℕ} (h : visited.Rep (l.map some)) (count i : ℕ) (hi : i + count = l.length) :
    visitedLoop visited start count i = decide (start ∈ l.drop i) := by
  induction count generalizing i with
  | zero =>
    rw [List.drop_eq_nil_of_le (Nat.le_of_eq (hi.symm.trans (Nat.add_zero i)))]
    rfl
  | succ count ih =>
    have hlt : i < l.length := by omega
    unfold visitedLoop
    rw [h.slot, List.getElem?_map, List.getElem?_eq_getElem hlt, List.drop_eq_getElem_cons hlt, ih (i + 1) (by omega)]
    change (if some l[i] = some start then _ else _) = _
    split_ifs with hc
    · exact (decide_eq_true (List.mem_cons.mpr (.inl (Option.some.inj hc).symm))).symm
    · refine decide_eq_decide.mpr ?_
      rw [List.mem_cons, or_iff_right fun hx => hc (congrArg some hx.symm)]

theorem DfsState.Has.visited_iff (h : s.Has l) : visitedLoop s.visited start s.visited.active 0 = true ↔ start ∈ l := by
  have hactive : s.visited.active = l.length := by rw [h.1.active, List.length_map]
  rw [visitedLoop_eq h.1 _ 0 (by rw [hactive, Nat.zero_add]), List.drop_zero, decide_eq_true_eq]

theorem DfsState.Has.visit (h : s.Has l) :
    DfsState.Has ⟨(s.visited.ensure s.visited.active).setIndex (s.visited.ensure s.visited.active).active (some start),
      s.calls ++ [start]⟩ (l ++ [start]) := by
  refine ⟨?_, by rw [h.2]⟩
  rw [List.map_append, List.map_singleton]
  exact h.1.push (some start)

theorem childrenLoop_foldlM {dfs : ℕ → DfsState → Option DfsState} {f : List ℕ → ℕ → Option (List ℕ)}
    (hf : ∀ s l c l', s.Has l → f l c = some l' → ∃ s', dfs c s = some s' ∧ s'.Has l') (to_ : Vector ℕ) {i : ℕ}
    (hi : i ≤ to_.elts.length) {l' : List ℕ} (h : s.Has l) (hfold : (to_.elts.take i).reverse.foldlM f l = some l') :
    ∃ s', childrenLoop dfs to_ i s = some s' ∧ s'.Has l' := by
  induction i generalizing s l with
  | zero =>
    cases hfold
    exact ⟨s, rfl, h⟩
  | succ i ih =>
    rw [List.take_succ_eq_append_getElem hi, List.reverse_append, List.reverse_singleton, List.singleton_append,
      List.foldlM_cons] at hfold
    obtain ⟨l₁, h₁, hrest⟩ := Option.bind_eq_some_iff.mp hfold
    obtain ⟨s₁, hs₁, hhas⟩ := hf s l _ l₁ h h₁
    obtain ⟨s', hs', hhas'⟩ := ih (Nat.le_of_succ_le hi) hhas hrest
    refine ⟨s', ?_, hhas'⟩
    unfold childrenLoop
    rw [Vector.slot_eq, List.getElem?_eq_getElem hi]
    change (dfs _ s).bind _ = _
    rw [hs₁]
    exact hs'

theorem dfsFrom_visit {fuel : ℕ} {l' : List ℕ} (h : s.Has l) (hvisit : DepthFirst.visit g.children fuel start l = some l') :
    ∃ s', dfsFrom g fuel start s = some s' ∧ s'.Has l' := by
  induction fuel generalizing start s l l' with
  | zero => cases hvisit
  | succ fuel ih =>
    unfold DepthFirst.visit at hvisit
    unfold dfsFrom
    by_cases hmem : start ∈ l
    · rw [if_pos hmem] at hvisit
      rw [if_pos (h.visited_iff.mpr hmem)]
      cases hvisit
      exact ⟨s, rfl, h⟩
    · rw [if_neg hmem] at hvisit
      rw [if_neg fun hc => hmem (h.visited_iff.mp hc)]
      obtain ⟨bs, hbs, hfold⟩ := Option.bind_eq_some_iff.mp hvisit
      obtain ⟨n, hn, rfl⟩ := Option.map_eq_some_iff.mp hbs
      rw [hn, Option.bind_eq_bind, Option.bind_some, n.to_.active_eq]
      rw [← List.take_length (l := n.to_.elts)] at hfold
      exact childrenLoop_foldlM (f := fun l c => DepthFirst.visit g.children fuel c l) (fun s l c l' hs hl => ih hs hl) n.to_
        (Nat.le_refl _) h.visit hfold

theorem Graph.Good.children_closed (hg : g.Good) : DepthFirst.Closed g.children g.nodes.elts := by
  intro a ha
  obtain ⟨n, hn⟩ := Option.isSome_iff_exists.mp ((hg.live a).mp ha)
  refine ⟨n.to_.elts.reverse, by rw [Graph.children, hn, Option.map_some], fun b hb => ?_⟩
  have hpos : 0 < g.mult (a, b) := by
    rw [← hg.count_to hn]
    exact List.count_pos_iff.mpr (List.mem_reverse.mp hb)
  exact (hg.ends hpos).2

/-- `to` of `a` has `b`. -/
def Graph.Arc (g : Graph) (a b : ℕ) : Prop := ∃ n, g.mem a = some n ∧ b ∈ n.to_.elts

theorem edge_children : DepthFirst.Edge g.children = g.Arc := by
  funext a b
  refine propext ⟨?_, ?_⟩
  · rintro ⟨bs, hbs, hb⟩
    obtain ⟨n, hn, rfl⟩ := Option.map_eq_some_iff.mp hbs
    exact ⟨n, hn, List.mem_reverse.mp hb⟩
  · rintro ⟨n, hn, hb⟩
    exact ⟨n.to_.elts.reverse, by rw [Graph.children, hn, Option.map_some], List.mem_reverse.mpr hb⟩

theorem dfs_complete (hg : g.Good) (hstart : start ∈ g.nodes.elts) :
    ∃ calls, (∀ fuel, g.nodes.elts.length < fuel → graphDfs fuel start g = some calls) ∧ calls.Nodup ∧
      calls.head? = some start ∧ ∀ b, b ∈ calls ↔ Relation.ReflTransGen g.Arc start b := by
  obtain ⟨found, hfound, hnd, hhead, hmem⟩ := DepthFirst.visit_complete hg.children_closed hstart
  refine ⟨found, fun fuel hfuel => ?_, hnd, hhead, fun b => by rw [hmem, edge_children]⟩
  have hempty : DfsState.Has ⟨.init vectorMinSize, []⟩ [] := ⟨rep_init vectorMinSize, rfl⟩
  obtain ⟨s, hs, hhas⟩ := dfsFrom_visit hempty (hfound fuel hfuel)
  rw [graphDfs, hs, Option.map_some, hhas.2]

/-- A cycle, and a node that it does not lead to. -/
def cycleOps : List GraphOp :=
  [.addNode 0 false, .addNode 0 false, .addNode 0 false, .addEdge 0 1 0 false, .addEdge 1 0 0 false, .addEdge 2 0 0 false]

theorem cycleOps_along : Run.Along graphStep (fun g op => op.Existing g ∧ ¬op.LoopLast g) (graphNew .diGraph) cycleOps :=
  ⟨⟨trivial, id⟩, fun _ _ => ⟨⟨trivial, id⟩, fun _ _ => ⟨⟨trivial, id⟩, fun _ _ => ⟨⟨trivial, id⟩, fun _ _ =>
    ⟨⟨trivial, id⟩, fun _ _ => ⟨⟨trivial, id⟩, fun _ _ => trivial⟩⟩⟩⟩⟩⟩

theorem dfs_complete_sample :
    ∃ g, Run.exec graphStep (graphNew .diGraph) cycleOps = some g ∧
      ∃ calls, (∀ fuel, g.nodes.elts.length < fuel → graphDfs fuel 0 g = some calls) ∧ calls.Nodup ∧
        calls.head? = some 0 ∧ ∀ b, b ∈ calls ↔ Relation.ReflTransGen g.Arc 0 b := by
  have hrun : ∃ g ∈ Run.exec graphStep (graphNew .diGraph) cycleOps, 0 ∈ g.nodes.elts := by decide +kernel
  obtain ⟨g, hg, hnode⟩ := hrun
  exact ⟨g, hg, dfs_complete (simple_exec (.inr rfl) cycleOps_along hg).good hnode⟩

end Yjc
