import Yjc.Container.GraphCuts
import Mathlib.Logic.Function.Iterate
import Mathlib.Data.List.Nodup
import Mathlib.Data.List.Count
import Mathlib.Data.Prod.Basic

/-! The operations of a graph whose nodes and lists are in order. -/

namespace Yjc
open Yjc.Graph

/-- The nodes are the live ones, each once, and an edge is in the three places equally often. -/
structure Graph.Good (g : Graph) : Prop where
  nodup : g.nodes.elts.Nodup
  live : ∀ a, a ∈ g.nodes.elts ↔ (g.mem a).isSome
  lt : ∀ a ∈ g.nodes.elts, a < g.next
  consistent : g.Consistent

variable {g g' : Graph} {p : ℕ × ℕ} {ps : List (ℕ × ℕ)} {node : ℕ} {n : GraphNode}

theorem good_graphNew (t : GraphType) : (graphNew t).Good := by
  have hnodes : (graphNew t).nodes.elts = [] := Vector.elts_init vectorMinSize
  have hedges : (graphNew t).edges.elts = [] := Vector.elts_init vectorMinSize
  refine ⟨?_, fun a => ?_, fun a ha => ?_, fun p => ?_⟩
  · rw [hnodes]
    exact List.nodup_nil
  · rw [hnodes]
    exact iff_of_false List.not_mem_nil Bool.false_ne_true
  · rw [hnodes] at ha
    cases ha
  · unfold mult
    rw [hedges]
    exact ⟨rfl, rfl⟩

theorem Graph.Good.ends (hg : g.Good) (hp : 0 < g.mult p) : p.1 ∈ g.nodes.elts ∧ p.2 ∈ g.nodes.elts := by
  obtain ⟨hout, hin⟩ := hg.consistent p
  rw [hg.live, hg.live]
  constructor
  · cases hm : g.mem p.1 with
    | some m => rfl
    | none =>
      rw [outMult, hm] at hout
      exact absurd hout (Nat.ne_of_lt hp)
  · cases hm : g.mem p.2 with
    | some m => rfl
    | none =>
      rw [inMult, hm] at hin
      exact absurd hin (Nat.ne_of_lt hp)

theorem Graph.Good.count_to (hg : g.Good) (hn : g.mem node = some n) (b : ℕ) : n.to_.elts.count b = g.mult (node, b) := by
  have h := (hg.consistent (node, b)).1
  rw [outMult, hn] at h
  exact h

theorem Graph.Good.count_from (hg : g.Good) (hn : g.mem node = some n) (a : ℕ) :
    n.from_.elts.count a = g.mult (a, node) := by
  have h := (hg.consistent (a, node)).2
  rw [inMult, hn] at h
  exact h

theorem Graph.Good.cuts (hg : g.Good) (h : Cuts ps g g') (hps : ∀ p ∈ ps, g.mult p ≤ ps.count p) : g'.Good := by
  refine ⟨?_, fun a => ?_, fun a ha => ?_, (h.consistent_iff hg.consistent).mpr hps⟩
  · rw [h.nodes]
    exact hg.nodup
  · rw [h.nodes, h.live]
    exact hg.live a
  · rw [h.nodes] at ha
    rw [h.next]
    exact hg.lt a ha

/-! ## Looking for an edge -/

theorem findLoop_eq_some {edges : Vector GraphEdge} {i : ℕ} {e : GraphEdge} (h : findLoop edges p i = some e) :
    e ∈ edges.elts ∧ e.pair = p := by
  induction i with
  | zero => cases h
  | succ i ih =>
    unfold findLoop at h
    rw [Vector.slot_eq] at h
    cases hget : edges.elts[i]? with
    | none =>
      rw [hget] at h
      cases h
    | some e' =>
      rw [hget] at h
      dsimp only at h
      split_ifs at h with hp
      · cases h
        exact ⟨List.mem_of_getElem? hget, hp⟩
      · exact ih h

theorem findLoop_eq_none {edges : Vector GraphEdge} {i : ℕ} (hi : i ≤ edges.elts.length)
    (h : findLoop edges p i = none) : ∀ e ∈ edges.elts.take i, e.pair ≠ p := by
  induction i with
  | zero =>
    intro e he
    cases he
  | succ i ih =>
    have hget := List.getElem?_eq_getElem hi
    unfold findLoop at h
    rw [Vector.slot_eq, hget] at h
    dsimp only at h
    split_ifs at h with hp
    rw [List.take_succ_eq_append_getElem hi]
    intro e he
    rcases List.mem_append.mp he with he | he
    · exact ih (Nat.le_of_succ_le hi) h e he
    · rw [List.mem_singleton.mp he]
      exact hp

theorem graphFindEdge_eq_none {u w : ℕ} : graphFindEdge g u w = none ↔ g.mult (u, w) = 0 := by
  constructor
  · intro h
    have hall := findLoop_eq_none (Nat.le_of_eq g.edges.active_eq) h
    rw [g.edges.active_eq, List.take_length] at hall
    refine List.count_eq_zero_of_not_mem fun hc => ?_
    obtain ⟨e, he, hp⟩ := List.mem_map.mp hc
    exact hall e he hp
  · intro h
    cases hfind : graphFindEdge g u w with
    | none => rfl
    | some e =>
      have hpos := mult_pos.mpr ⟨e, findLoop_eq_some hfind⟩
      omega

theorem graphHasEdge_iff {u w : ℕ} : graphHasEdge g u w = true ↔ 0 < g.mult (u, w) := by
  have h := graphFindEdge_eq_none (g := g) (u := u) (w := w)
  change (graphFindEdge g u w).isSome = true ↔ _
  cases hfind : graphFindEdge g u w with
  | none =>
    rw [hfind] at h
    refine iff_of_false Bool.false_ne_true ?_
    rw [h.mp rfl]
    exact Nat.lt_irrefl 0
  | some e => exact iff_of_true rfl (mult_pos.mpr ⟨e, findLoop_eq_some hfind⟩)

/-! ## Adding -/

theorem Graph.Good.addNode (hg : g.Good) (data : ℕ) (del : Bool) :
    (graphAddNode data del g).Good ∧ (graphAddNode data del g).mult = g.mult := by
  have hfresh : g.next ∉ g.nodes.elts := fun hc => Nat.lt_irrefl _ (hg.lt _ hc)
  have hnone : g.mem g.next = none := by
    rw [← Option.not_isSome_iff_eq_none, ← hg.live]
    exact hfresh
  have hnodes : (graphAddNode data del g).nodes.elts = g.nodes.elts ++ [g.next] := Vector.elts_set _ _
  refine ⟨⟨?_, fun a => ?_, fun a ha => ?_, fun q => ?_⟩, rfl⟩
  · rw [hnodes, ← List.concat_eq_append]
    exact hg.nodup.concat hfresh
  · rw [hnodes, List.mem_append, List.mem_singleton]
    change _ ↔ (Function.update g.mem g.next _ a).isSome
    rcases eq_or_ne a g.next with rfl | ha
    · rw [Function.update_self]
      exact iff_of_true (.inr rfl) rfl
    · rw [Function.update_of_ne ha, or_iff_left ha]
      exact hg.live a
  · rw [hnodes, List.mem_append, List.mem_singleton] at ha
    change a < g.next + 1
    rcases ha with ha | rfl
    · exact Nat.lt_succ_of_lt (hg.lt a ha)
    · exact Nat.lt_succ_self _
  · obtain ⟨hout, hin⟩ := hg.consistent q
    have hold : ∀ a (f : GraphNode → ℕ), f ⟨.init vectorMinSize, .init vectorMinSize, g.maxId, data, del⟩ = 0 →
        (((graphAddNode data del g).mem a).map f).getD 0 = ((g.mem a).map f).getD 0 := by
      intro a f hf
      change ((Function.update g.mem g.next _ a).map f).getD 0 = _
      rcases eq_or_ne a g.next with rfl | ha
      · rw [Function.update_self, hnone, Option.map_some, hf]
        rfl
      · rw [Function.update_of_ne ha]
    exact ⟨(hold q.1 _ (by rw [Vector.elts_init]; rfl)).trans hout, (hold q.2 _ (by rw [Vector.elts_init]; rfl)).trans hin⟩

/-- What `_graph_add_edge` does. -/
structure Adds (e : GraphEdge) (g g' : Graph) : Prop where
  type : g'.type = g.type
  nodes : g'.nodes = g.nodes
  next : g'.next = g.next
  live : ∀ a, (g'.mem a).isSome = (g.mem a).isSome
  edges : g'.edges.elts = g.edges.elts ++ [e]
  outMult : ∀ p, g'.outMult p = g.outMult p + if e.pair = p then 1 else 0
  inMult : ∀ p, g'.inMult p = g.inMult p + if e.pair = p then 1 else 0

/-- What `_graph_add_edge` makes of the node at `a`. -/
def GraphNode.join (e : GraphEdge) (a : ℕ) (n : GraphNode) : GraphNode :=
  { n with
    from_ := if a = e.to_ then n.from_.set e.from_ else n.from_
    to_ := if a = e.from_ then n.to_.set e.to_ else n.to_ }

theorem addEdge_mem (e : GraphEdge) (h₁ : (g.mem e.from_).isSome) (h₂ : (g.mem e.to_).isSome) :
    ∃ mem, addEdge e g = some { g with edges := g.edges.set e, mem := mem } ∧
      ∀ a, mem a = (g.mem a).map (GraphNode.join e a) := by
  obtain ⟨n, hn⟩ := Option.isSome_iff_exists.mp h₁
  obtain ⟨m, hm⟩ : ∃ m, Function.update g.mem e.from_ (some { n with to_ := n.to_.set e.to_ }) e.to_ = some m := by
    rcases eq_or_ne e.to_ e.from_ with h12 | h12
    · rw [h12, Function.update_self]
      exact ⟨_, rfl⟩
    · rw [Function.update_of_ne h12]
      exact Option.isSome_iff_exists.mp h₂
  refine ⟨Function.update (Function.update g.mem e.from_ (some { n with to_ := n.to_.set e.to_ })) e.to_
    (some { m with from_ := m.from_.set e.from_ }), ?_, fun a => ?_⟩
  · unfold addEdge
    simp only [Graph.modifyNode, Option.bind_eq_bind, Option.bind_some, hn, Option.map_some, hm]
  · unfold GraphNode.join
    rcases eq_or_ne a e.to_ with rfl | h2
    · rw [Function.update_self]
      rcases eq_or_ne e.to_ e.from_ with h12 | h12
      · rw [h12, Function.update_self] at hm
        cases hm
        rw [h12, hn, Option.map_some, if_pos rfl, if_pos rfl]
      · rw [Function.update_of_ne h12] at hm
        rw [hm, Option.map_some, if_pos rfl, if_neg h12]
    · rw [Function.update_of_ne h2]
      rcases eq_or_ne a e.from_ with rfl | h1
      · rw [Function.update_self, hn, Option.map_some, if_neg h2, if_pos rfl]
      · rw [Function.update_of_ne h1]
        simp only [if_neg h1, if_neg h2, Option.map_id']

theorem addEdge_adds {e : GraphEdge} (h₁ : (g.mem e.from_).isSome) (h₂ : (g.mem e.to_).isSome) :
    ∃ g', addEdge e g = some g' ∧ Adds e g g' := by
  obtain ⟨mem, heq, hmem⟩ := addEdge_mem e h₁ h₂
  refine ⟨_, heq, rfl, rfl, rfl, fun a => ?_, Vector.elts_set _ _, fun q => ?_, fun q => ?_⟩
  · dsimp only
    rw [hmem, Option.isSome_map]
  · unfold outMult
    dsimp only
    rw [hmem]
    rcases eq_or_ne q.1 e.from_ with h1 | h1
    · obtain ⟨n, hn⟩ := Option.isSome_iff_exists.mp h₁
      rw [h1, hn]
      simp only [Option.map_some, Option.getD_some, GraphNode.join, if_pos, Vector.elts_set, List.count_append,
        List.count_singleton, GraphEdge.pair, Prod.ext_iff, h1, true_and, beq_iff_eq]
    · rw [if_neg fun hc => h1 (congrArg Prod.fst hc.symm), Nat.add_zero]
      simp only [Option.map_map, Function.comp_def, GraphNode.join, if_neg h1]
  · unfold inMult
    dsimp only
    rw [hmem]
    rcases eq_or_ne q.2 e.to_ with h2 | h2
    · obtain ⟨n, hn⟩ := Option.isSome_iff_exists.mp h₂
      rw [h2, hn]
      simp only [Option.map_some, Option.getD_some, GraphNode.join, if_pos, Vector.elts_set, List.count_append,
        List.count_singleton, GraphEdge.pair, Prod.ext_iff, h2, and_true, beq_iff_eq]
    · rw [if_neg fun hc => h2 (congrArg Prod.snd hc.symm), Nat.add_zero]
      simp only [Option.map_map, Function.comp_def, GraphNode.join, if_neg h2]

theorem Adds.mult {e : GraphEdge} (h : Adds e g g') (q : ℕ × ℕ) : g'.mult q = g.mult q + if e.pair = q then 1 else 0 := by
  unfold Graph.mult
  rw [h.edges, List.map_append, List.count_append, List.map_singleton, List.count_singleton]
  simp only [beq_iff_eq]

theorem Graph.Good.adds (hg : g.Good) {e : GraphEdge} (h : Adds e g g') : g'.Good := by
  refine ⟨?_, fun a => ?_, fun a ha => ?_, fun q => ?_⟩
  · rw [h.nodes]
    exact hg.nodup
  · rw [h.nodes, h.live]
    exact hg.live a
  · rw [h.nodes] at ha
    rw [h.next]
    exact hg.lt a ha
  · rw [h.outMult, h.inMult, h.mult, (hg.consistent q).1, (hg.consistent q).2]
    exact ⟨rfl, rfl⟩

theorem Graph.Good.addAlways (hg : g.Good) {e : GraphEdge} (h₁ : e.from_ ∈ g.nodes.elts) (h₂ : e.to_ ∈ g.nodes.elts)
    (r : Option GraphEdge) : ∃ g', addAlways e (g, r) = some (g', some e) ∧ Adds e g g' ∧ g'.Good := by
  obtain ⟨g', heq, hadds⟩ := addEdge_adds ((hg.live _).mp h₁) ((hg.live _).mp h₂)
  refine ⟨g', ?_, hadds, hg.adds hadds⟩
  unfold Yjc.addAlways
  rw [heq, Option.map_some]

theorem Graph.Good.addNew (hg : g.Good) {e : GraphEdge} (h₁ : e.from_ ∈ g.nodes.elts) (h₂ : e.to_ ∈ g.nodes.elts)
    (r : Option GraphEdge) :
    ∃ g' r', addNew e (g, r) = some (g', r') ∧ g'.Good ∧ g'.type = g.type ∧ g'.nodes = g.nodes ∧ g'.next = g.next ∧
      ∀ q, g'.mult q = if e.pair = q ∧ g.mult q = 0 then 1 else g.mult q := by
  unfold Yjc.addNew
  have hhas := graphHasEdge_iff (g := g) (u := e.from_) (w := e.to_)
  split_ifs with h
  · refine ⟨g, r, rfl, hg, rfl, rfl, rfl, fun q => ?_⟩
    split_ifs with hq
    · have hpos : 0 < g.mult q := hq.1 ▸ hhas.mp h
      omega
    · rfl
  · obtain ⟨g', heq, hadds, hg'⟩ := hg.addAlways h₁ h₂ r
    refine ⟨g', some e, heq, hg', hadds.type, hadds.nodes, hadds.next, fun q => ?_⟩
    have hzero : g.mult e.pair = 0 := Nat.eq_zero_of_not_pos fun hpos => h (hhas.mpr hpos)
    rw [hadds.mult]
    by_cases hq : e.pair = q
    · rw [← hq, if_pos rfl, if_pos ⟨rfl, hzero⟩, hzero]
    · rw [if_neg hq, if_neg fun hc => hq hc.1, Nat.add_zero]

/-! ## Deleting an edge -/

/-- The edges that `graph_delete_edge` deletes. -/
def edgeCalls (g : Graph) (u w : ℕ) : List (ℕ × ℕ) := if g.type.directed then [(u, w)] else [(u, w), (w, u)]

theorem edgeCalls_directed (ht : g.type.directed = true) (u w : ℕ) : edgeCalls g u w = [(u, w)] := if_pos ht

theorem edgeCalls_undirected (ht : g.type.directed = false) (u w : ℕ) : edgeCalls g u w = [(u, w), (w, u)] := by
  rw [edgeCalls, ht, if_neg Bool.false_ne_true]

theorem mem_edgeCalls {u w : ℕ} (hp : p ∈ edgeCalls g u w) : p = (u, w) ∨ p = (w, u) := by
  unfold edgeCalls at hp
  split_ifs at hp
  · exact .inl (List.mem_singleton.mp hp)
  · exact (List.mem_cons.mp hp).imp_right List.mem_singleton.mp

theorem graphDeleteEdge_eq (g : Graph) (u w : ℕ) : graphDeleteEdge u w g = deleteAll (edgeCalls g u w) g := by
  unfold edgeCalls
  split_ifs with ht
  · exact graphDeleteEdge_directed ht u w
  · exact graphDeleteEdge_undirected ((Bool.not_eq_true _).mp ht) u w

theorem Graph.Good.deleteEdge_isSome (hg : g.Good) {u w : ℕ} (hu : u ∈ g.nodes.elts) (hw : w ∈ g.nodes.elts) :
    (graphDeleteEdge u w g).isSome ↔ ∃ e ∈ g.edges.elts, e.pair ∉ (edgeCalls g u w).dropLast := by
  have hne : edgeCalls g u w ≠ [] := by
    unfold edgeCalls
    split_ifs
    · exact List.cons_ne_nil _ _
    · exact List.cons_ne_nil _ _
  rw [graphDeleteEdge_eq, deleteAll_isSome, or_iff_right hne]
  intro p hp
  rw [← hg.live, ← hg.live]
  rcases mem_edgeCalls hp with rfl | rfl
  · exact ⟨hu, hw⟩
  · exact ⟨hw, hu⟩

/-! ## Deleting a node -/

def touches (node : ℕ) (p : ℕ × ℕ) : Bool := decide (p.1 = node) || decide (p.2 = node)

theorem touches_iff : touches node p = true ↔ p.1 = node ∨ p.2 = node := by
  rw [touches, Bool.or_eq_true, decide_eq_true_eq, decide_eq_true_eq]

/-- What `graph_delete_node` is for: the node goes and the edges that it is an end of, and no others. -/
structure NodeGone (node : ℕ) (g g' : Graph) : Prop where
  type : g'.type = g.type
  nodes : (node :: g'.nodes.elts).Perm g.nodes.elts
  edges : g'.edges.elts.Perm (g.edges.elts.filter fun e => !touches node e.pair)
  mult : ∀ p, g'.mult p = if touches node p then 0 else g.mult p
  good : g'.Good

theorem Graph.Good.freeNode (hg : g.Good) (hn : g.mem node = some n)
    (hzero : ∀ p, touches node p = true → g.mult p = 0) :
    ∃ g', freeNode node g = some g' ∧ g'.type = g.type ∧ (node :: g'.nodes.elts).Perm g.nodes.elts ∧
      g'.edges = g.edges ∧ g'.Good := by
  have hin : node ∈ g.nodes.elts := (hg.live node).mpr (by rw [hn]; rfl)
  have hperm := Vector.perm_dropOne hin
  have hnd := hperm.nodup_iff.mpr hg.nodup
  unfold Yjc.freeNode
  rw [hn, Option.map_some]
  refine ⟨_, rfl, rfl, hperm, rfl, hnd.of_cons, fun a => ?_, fun a ha => ?_, fun q => ?_⟩
  · change a ∈ (g.nodes.dropOne node).elts ↔ (Function.update g.mem node none a).isSome
    rcases eq_or_ne a node with rfl | ha
    · rw [Function.update_self]
      exact iff_of_false (List.nodup_cons.mp hnd).1 Bool.false_ne_true
    · rw [Function.update_of_ne ha, ← hg.live, ← hperm.mem_iff, List.mem_cons, or_iff_right ha]
  · exact hg.lt a (hperm.subset (List.mem_cons_of_mem _ ha))
  · obtain ⟨hout, hin⟩ := hg.consistent q
    have hgone : ∀ a (f : GraphNode → ℕ), ((g.mem a).map f).getD 0 = g.mult q → (a = node → g.mult q = 0) →
        ((Function.update g.mem node none a).map f).getD 0 = g.mult q := by
      intro a f hf hz
      rcases eq_or_ne a node with rfl | ha
      · rw [Function.update_self, hz rfl]
        rfl
      · rw [Function.update_of_ne ha]
        exact hf
    exact ⟨hgone q.1 _ hout fun h => hzero q (touches_iff.mpr (.inl h)),
      hgone q.2 _ hin fun h => hzero q (touches_iff.mpr (.inr h))⟩

/-- `graph_delete_node` by the edges `ps` that it deletes: those at the node, each as often as it is there. -/
structure NodeCalls (node : ℕ) (ps : List (ℕ × ℕ)) (g : Graph) : Prop where
  eq : graphDeleteNode (some node) g = (deleteAll ps g).bind (freeNode node)
  touching : ∀ p ∈ ps, touches node p = true
  pos : ∀ p ∈ ps, 0 < g.mult p
  all : ∀ p, touches node p = true → 0 < g.mult p → p ∈ ps
  count : ∀ p ∈ ps, g.mult p ≤ ps.count p

theorem NodeCalls.cuts_mult (h : NodeCalls node ps g) (hc : Cuts ps g g') (q : ℕ × ℕ) :
    g'.mult q = if touches node q then 0 else g.mult q := by
  rw [hc.mult]
  by_cases hq : q ∈ ps
  · rw [if_pos hq, if_pos (h.touching q hq)]
  · rw [if_neg hq]
    split_ifs with ht
    · exact Nat.eq_zero_of_not_pos fun hpos => hq (h.all q ht hpos)
    · rfl

theorem NodeCalls.nodeGone (h : NodeCalls node ps g) (hg : g.Good) (hn : g.mem node = some n)
    (hdel : graphDeleteNode (some node) g = some g') : NodeGone node g g' := by
  rw [h.eq] at hdel
  obtain ⟨g₁, h₁, hfree⟩ := Option.bind_eq_some_iff.mp hdel
  have hcuts := deleteAll_cuts h₁
  have hmult := h.cuts_mult hcuts
  have hg₁ := hg.cuts hcuts h.count
  have hn₁ := deleteAll_mem h₁ hn
  obtain ⟨g₂, hfree₂, htype, hnodes, hedges, hg₂⟩ := hg₁.freeNode hn₁ fun p hp => by rw [hmult, if_pos hp]
  cases hfree₂.symm.trans hfree
  refine ⟨htype.trans hcuts.type, by rw [← hcuts.nodes]; exact hnodes, ?_, fun p => ?_, hg₂⟩
  · rw [hedges]
    refine hcuts.edges.trans (.of_eq (List.filter_congr fun e he => ?_))
    have hpos : 0 < g.mult e.pair := mult_pos.mpr ⟨e, he, rfl⟩
    cases ht : touches node e.pair with
    | true => exact decide_eq_false fun hc => hc (h.all _ ht hpos)
    | false =>
      refine decide_eq_true fun hc => ?_
      rw [h.touching _ hc] at ht
      cases ht
  · rw [← hmult p]
    unfold Graph.mult
    rw [hedges]

theorem NodeCalls.isSome (h : NodeCalls node ps g) (hg : g.Good) (hn : g.mem node = some n) :
    (graphDeleteNode (some node) g).isSome ↔ ps = [] ∨ ∃ e ∈ g.edges.elts, e.pair ∉ ps.dropLast := by
  have hlive : ∀ p ∈ ps, (g.mem p.1).isSome ∧ (g.mem p.2).isSome := by
    intro p hp
    obtain ⟨h₁, h₂⟩ := hg.ends (h.pos p hp)
    exact ⟨(hg.live _).mp h₁, (hg.live _).mp h₂⟩
  rw [← deleteAll_isSome hlive, h.eq]
  cases h₁ : deleteAll ps g with
  | none => rfl
  | some g₁ =>
    have hcuts := deleteAll_cuts h₁
    have hmult := h.cuts_mult hcuts
    obtain ⟨g₂, hfree, -⟩ := (hg.cuts hcuts h.count).freeNode (deleteAll_mem h₁ hn) fun p hp => by rw [hmult, if_pos hp]
    rw [Option.bind_some, hfree]
    exact iff_of_true rfl rfl

theorem NodeCalls.isSome_concat {qs : List (ℕ × ℕ)} (h : NodeCalls node (qs ++ [p]) g) (hg : g.Good)
    (hn : g.mem node = some n) :
    (graphDeleteNode (some node) g).isSome ↔ p ∉ qs ∨ ∃ e ∈ g.edges.elts, touches node e.pair = false := by
  have hp : p ∈ qs ++ [p] := List.mem_append_right _ (List.mem_singleton_self p)
  rw [h.isSome hg hn, or_iff_right (List.append_ne_nil_of_right_ne_nil _ (List.cons_ne_nil _ _)), List.dropLast_concat]
  constructor
  · rintro ⟨e, he, hnot⟩
    cases ht : touches node e.pair with
    | false => exact .inr ⟨e, he, ht⟩
    | true =>
      have hin := h.all _ ht (mult_pos.mpr ⟨e, he, rfl⟩)
      rcases List.mem_append.mp hin with hin | hin
      · exact absurd hin hnot
      · rw [List.mem_singleton.mp hin] at hnot
        exact .inl hnot
  · rintro (hnot | ⟨e, he, ht⟩)
    · obtain ⟨e, he, hep⟩ := mult_pos.mp (h.pos p hp)
      exact ⟨e, he, hep ▸ hnot⟩
    · refine ⟨e, he, fun hc => ?_⟩
      rw [h.touching _ (List.mem_append_left _ hc)] at ht
      cases ht

/-! ## Reversing -/

theorem swapNodes_eq (nodes : Vector ℕ) (hnd : nodes.elts.Nodup) (i : ℕ) (hi : i ≤ nodes.elts.length)
    (mem : ℕ → Option GraphNode) (hmem : ∀ a ∈ nodes.elts.take i, (mem a).isSome) :
    ∃ mem', swapNodes nodes i mem = some mem' ∧
      ∀ a, mem' a = if a ∈ nodes.elts.take i then (mem a).map GraphNode.swap else mem a := by
  induction i generalizing mem with
  | zero => exact ⟨mem, rfl, fun a => (if_neg List.not_mem_nil).symm⟩
  | succ i ih =>
    have htake : nodes.elts.take (i + 1) = nodes.elts.take i ++ [nodes.elts[i]] := List.take_succ_eq_append_getElem hi
    have hnd' : (nodes.elts.take i ++ [nodes.elts[i]]).Nodup := htake ▸ hnd.sublist (List.take_sublist _ _)
    have hnew : nodes.elts[i] ∉ nodes.elts.take i := fun hc =>
      List.disjoint_of_nodup_append hnd' hc (List.mem_singleton_self _)
    rw [htake] at hmem ⊢
    obtain ⟨n, hn⟩ := Option.isSome_iff_exists.mp (hmem nodes.elts[i] (List.mem_append_right _ (List.mem_singleton_self _)))
    have hother : ∀ a, a ∈ nodes.elts.take i → Function.update mem nodes.elts[i] (some n.swap) a = mem a := by
      intro a ha
      have hne : a ≠ nodes.elts[i] := by
        rintro rfl
        exact hnew ha
      exact Function.update_of_ne hne ..
    obtain ⟨mem', heq, hmem'⟩ := ih (Nat.le_of_succ_le hi) (Function.update mem nodes.elts[i] (some n.swap)) fun a ha => by
      rw [hother a ha]
      exact hmem a (List.mem_append_left _ ha)
    refine ⟨mem', ?_, fun a => ?_⟩
    · unfold swapNodes
      rw [Vector.slot_eq, List.getElem?_eq_getElem hi]
      change (mem nodes.elts[i]).bind _ = _
      rw [hn]
      exact heq
    · rw [hmem' a]
      by_cases ha : a ∈ nodes.elts.take i
      · rw [if_pos ha, if_pos (List.mem_append_left _ ha), hother a ha]
      · rw [if_neg ha]
        by_cases hai : a = nodes.elts[i]
        · rw [hai, Function.update_self, hn, if_pos (List.mem_append_right _ (List.mem_singleton_self _)), Option.map_some]
        · rw [Function.update_of_ne hai, if_neg]
          rw [List.mem_append, List.mem_singleton]
          exact not_or.mpr ⟨ha, hai⟩

theorem Graph.Good.reverse (hg : g.Good) (ht : g.type.directed = true) :
    ∃ g', graphReverse g = some g' ∧ g'.Good ∧ g'.type = g.type ∧ g'.nodes = g.nodes ∧ ∀ p, g'.mult p = g.mult p.swap := by
  obtain ⟨mem, heq, hmem⟩ := swapNodes_eq g.nodes hg.nodup g.nodes.elts.length (Nat.le_refl _) g.mem fun a ha =>
    (hg.live a).mp (List.mem_of_mem_take ha)
  have hall : ∀ a, mem a = (g.mem a).map GraphNode.swap := by
    intro a
    rw [hmem, List.take_length]
    split_ifs with ha
    · rfl
    · rw [hg.live, Option.not_isSome_iff_eq_none] at ha
      rw [ha, Option.map_none]
  have hrev : graphReverse g = some { g with mem := mem, edges := g.edges.map GraphEdge.swap } := by
    unfold graphReverse
    rw [g.nodes.active_eq, heq]
    cases hty : g.type with
    | diGraph | multiDiGraph => rfl
    | graph | multiGraph =>
      rw [hty] at ht
      cases ht
  have hmult : ∀ p, mult { g with mem := mem, edges := g.edges.map GraphEdge.swap } p = g.mult p.swap := by
    intro p
    unfold mult
    dsimp only
    rw [Vector.elts_map, List.map_map, ← List.count_map_of_injective _ Prod.swap Prod.swap_injective, List.map_map]
    rfl
  refine ⟨_, hrev, ⟨hg.nodup, fun a => ?_, hg.lt, fun p => ?_⟩, rfl, rfl, hmult⟩
  · dsimp only
    rw [hall, Option.isSome_map]
    exact hg.live a
  · obtain ⟨hout, hin⟩ := hg.consistent p.swap
    rw [hmult]
    unfold outMult inMult
    dsimp only
    rw [hall, hall, Option.map_map, Option.map_map]
    exact ⟨hin, hout⟩

/-! ## Lists of neighbours -/

def Graph.Listed (g : Graph) (u w : ℕ) : Prop :=
  ∃ nu nw, g.mem u = some nu ∧ g.mem w = some nw ∧ nu.to_.elts.count w = g.mult (u, w) ∧
    nw.from_.elts.count u = g.mult (u, w)

theorem Graph.Good.listed (hg : g.Good) {u w : ℕ} (hu : u ∈ g.nodes.elts) (hw : w ∈ g.nodes.elts) : g.Listed u w := by
  obtain ⟨nu, hnu⟩ := Option.isSome_iff_exists.mp ((hg.live u).mp hu)
  obtain ⟨nw, hnw⟩ := Option.isSome_iff_exists.mp ((hg.live w).mp hw)
  exact ⟨nu, nw, hnu, hnw, hg.count_to hnu w, hg.count_from hnw u⟩

theorem Cuts.not_listed (h : Cuts ps g g') (hg : g.Good) (hp : p ∈ ps) (hlt : ps.count p < g.mult p) :
    p.1 ∈ g'.nodes.elts ∧ p.2 ∈ g'.nodes.elts ∧ ¬g'.Listed p.1 p.2 := by
  obtain ⟨h₁, h₂⟩ := hg.ends (Nat.zero_lt_of_lt hlt)
  rw [h.nodes]
  refine ⟨h₁, h₂, ?_⟩
  rintro ⟨nu, -, hnu, -, hto, -⟩
  have hout := h.outMult p
  rw [Graph.outMult, hnu, (hg.consistent p).1] at hout
  rw [h.mult, if_pos hp] at hto
  change nu.to_.elts.count p.2 = g.mult p - ps.count p at hout
  omega

end Yjc
