import Yjc.Container.MultiGraph

/-! Graphs without parallel edges over sequences of operations. -/

namespace Yjc
open Yjc.Graph
variable {g g' : Graph} {node : ℕ} {n : GraphNode}

/-- As `Valid`, and an edge that is deleted is there. -/
def GraphOp.Existing (g : Graph) : GraphOp → Prop
  | .deleteEdge u w => 0 < g.mult (u, w)
  | .deleteNode (some node) => node ∈ g.nodes.elts
  | .deleteNode none | .addNode .. | .addEdge .. | .reverse => True

/-- An undirected self-loop is deleted when no other edge is left: by itself, or with its node, which deletes the edge
from the first entry of `from` last. -/
def GraphOp.LoopLast (g : Graph) : GraphOp → Prop
  | .deleteEdge u w => g.type = .graph ∧ u = w ∧ ∀ e ∈ g.edges.elts, e.pair = (u, u)
  | .deleteNode (some node) =>
    g.type = .graph ∧ (∃ n, g.mem node = some n ∧ n.from_.slot 0 = some node) ∧
      ∀ e ∈ g.edges.elts, touches node e.pair = true
  | .deleteNode none | .addNode .. | .addEdge .. | .reverse => False

structure Simple (g : Graph) : Prop where
  type : g.type = .graph ∨ g.type = .diGraph
  good : g.Good
  le : ∀ p, g.mult p ≤ 1
  symm : g.type = .graph → ∀ u w, g.mult (u, w) = g.mult (w, u)

theorem simple_graphNew {t : GraphType} (ht : t = .graph ∨ t = .diGraph) : Simple (graphNew t) := by
  have hzero : ∀ p, (graphNew t).mult p = 0 := by
    intro p
    unfold mult
    rw [show (graphNew t).edges.elts = [] from Vector.elts_init vectorMinSize]
    rfl
  refine ⟨ht, good_graphNew t, fun p => ?_, fun _ u w => ?_⟩
  · rw [hzero]
    exact Nat.zero_le 1
  · rw [hzero, hzero]

theorem Simple.directed (h : Simple g) : g.type.directed = true ↔ g.type = .diGraph := by
  rcases h.type with ht | ht <;> rw [ht] <;> decide

theorem Simple.undirected (h : Simple g) : g.type.directed = false ↔ g.type = .graph := by
  rcases h.type with ht | ht <;> rw [ht] <;> decide

/-! ## The operations -/

theorem ite_new {c : Prop} [Decidable c] {m : ℕ} (hm : m ≤ 1) : (if c ∧ m = 0 then 1 else m) = if c then 1 else m := by
  by_cases hc : c
  · rw [if_pos hc]
    split_ifs with h
    · rfl
    · have hne : m ≠ 0 := fun hz => h ⟨hc, hz⟩
      omega
  · rw [if_neg hc, if_neg fun h => hc h.1]

/-- What `graph_add_edge` does when there are no parallel edges. -/
structure Joined (u w : ℕ) (g g' : Graph) : Prop where
  type : g'.type = g.type
  nodes : g'.nodes = g.nodes
  next : g'.next = g.next
  good : g'.Good
  mult : ∀ q, g'.mult q = if (u, w) = q ∨ g.type = .graph ∧ (w, u) = q then 1 else g.mult q

theorem Simple.joined (h : Simple g) {u w : ℕ} (hu : u ∈ g.nodes.elts) (hw : w ∈ g.nodes.elts) (attr : ℕ) (del : Bool) :
    ∃ g', (graphAddEdge u w attr del g).map Prod.fst = some g' ∧ Joined u w g g' := by
  unfold graphAddEdge
  rw [if_pos ⟨hu, hw⟩]
  dsimp only
  obtain ⟨g₁, r₁, h₁, hg₁, htype₁, hnodes₁, hnext₁, hmult₁⟩ := h.good.addNew (e := ⟨u, w, attr, del⟩) hu hw none
  have hnew₁ : ∀ q, g₁.mult q = if (u, w) = q then 1 else g.mult q := fun q => (hmult₁ q).trans (ite_new (h.le q))
  rcases h.type with ht | ht
  · have hle₁ : ∀ p, g₁.mult p ≤ 1 := by
      intro p
      rw [hnew₁]
      split_ifs
      · exact Nat.le_refl 1
      · exact h.le p
    obtain ⟨g₂, r₂, h₂, hg₂, htype₂, hnodes₂, hnext₂, hmult₂⟩ := hg₁.addNew (e := ⟨w, u, attr, del⟩)
      (by rw [hnodes₁]; exact hw) (by rw [hnodes₁]; exact hu) r₁
    rw [ht]
    dsimp only
    refine ⟨g₂, by rw [h₁, Option.bind_some, h₂, Option.map_some], htype₂.trans htype₁, hnodes₂.trans hnodes₁,
      hnext₂.trans hnext₁, hg₂, fun q => ?_⟩
    rw [(hmult₂ q).trans (ite_new (hle₁ q)), hnew₁]
    by_cases hwu : (w, u) = q
    · exact (if_pos hwu).trans (if_pos (.inr ⟨ht, hwu⟩)).symm
    · refine (if_neg hwu).trans (if_congr ?_ rfl rfl)
      exact (or_iff_left fun hc => hwu hc.2).symm
  · rw [ht]
    dsimp only
    refine ⟨g₁, by rw [h₁, Option.map_some], htype₁, hnodes₁, hnext₁, hg₁, fun q => ?_⟩
    rw [hnew₁]
    refine if_congr ?_ rfl rfl
    rw [ht]
    exact (or_iff_left fun hc => by cases hc.1).symm

theorem Joined.simple {u w : ℕ} (h : Simple g) (hj : Joined u w g g') : Simple g' := by
  refine ⟨by rw [hj.type]; exact h.type, hj.good, fun p => ?_, fun ht a b => ?_⟩
  · rw [hj.mult]
    split_ifs
    · exact Nat.le_refl 1
    · exact h.le p
  · rw [hj.type] at ht
    rw [hj.mult, hj.mult, h.symm ht a b]
    refine if_congr ?_ rfl rfl
    simp only [ht, Prod.ext_iff]
    tauto

theorem Simple.addEdge (h : Simple g) (u w attr : ℕ) (del : Bool) :
    ∃ g', graphStep g (.addEdge u w attr del) = some g' ∧ Simple g' := by
  by_cases hin : u ∈ g.nodes.elts ∧ w ∈ g.nodes.elts
  · obtain ⟨g', hg', hj⟩ := h.joined hin.1 hin.2 attr del
    exact ⟨g', hg', hj.simple h⟩
  · refine ⟨g, ?_, h⟩
    unfold graphStep graphAddEdge
    dsimp only
    rw [if_neg hin, Option.map_some]

theorem Simple.loopLast_deleteEdge (h : Simple g) {u w : ℕ} (hpos : 0 < g.mult (u, w)) :
    (GraphOp.deleteEdge u w).LoopLast g ↔ graphDeleteEdge u w g = none := by
  obtain ⟨hu, hw⟩ := h.good.ends hpos
  rw [← Option.not_isSome_iff_eq_none, h.good.deleteEdge_isSome hu hw]
  change g.type = .graph ∧ u = w ∧ (∀ e ∈ g.edges.elts, e.pair = (u, u)) ↔ _
  rcases h.type with ht | ht
  · rw [edgeCalls_undirected (h.undirected.mpr ht), and_iff_right ht]
    change _ ↔ ¬∃ e ∈ g.edges.elts, e.pair ∉ [(u, w)]
    simp only [List.mem_singleton, not_exists, not_and, not_not]
    constructor
    · rintro ⟨rfl, hall⟩
      exact hall
    · intro hall
      -- the edge the other way is the same edge
      obtain ⟨e, he, hep⟩ := mult_pos.mp (h.symm ht u w ▸ hpos)
      have huw : w = u := congrArg Prod.fst (hep.symm.trans (hall e he))
      rw [huw] at hall
      exact ⟨huw.symm, hall⟩
  · refine iff_of_false (fun hc => ?_) fun hc => hc ?_
    · rw [ht] at hc
      cases hc.1
    · rw [edgeCalls_directed (h.directed.mpr ht)]
      obtain ⟨e, he, -⟩ := mult_pos.mp hpos
      exact ⟨e, he, List.not_mem_nil⟩

theorem Simple.deleteEdge (h : Simple g) {u w : ℕ} (hdel : graphDeleteEdge u w g = some g') : Simple g' := by
  rw [graphDeleteEdge_eq] at hdel
  have hcuts := deleteAll_cuts hdel
  have hgood := h.good.cuts hcuts fun p hp => Nat.le_trans (h.le p) (List.count_pos_iff.mpr hp)
  refine ⟨by rw [hcuts.type]; exact h.type, hgood, fun p => ?_, fun ht a b => ?_⟩
  · rw [hcuts.mult]
    split_ifs
    · exact Nat.zero_le 1
    · exact h.le p
  · rw [hcuts.type] at ht
    rw [hcuts.mult, hcuts.mult, h.symm ht a b, edgeCalls_undirected (h.undirected.mpr ht)]
    refine if_congr ?_ rfl rfl
    simp only [List.mem_cons, List.not_mem_nil, or_false, Prod.ext_iff]
    exact or_comm.trans (or_congr and_comm and_comm)

theorem Simple.nodeCalls (h : Simple g) (hn : g.mem node = some n) : ∃ ps, NodeCalls node ps g := by
  rcases h.type with ht | ht
  · exact ⟨_, nodeCalls_undirected (h.symm ht) h.good (h.undirected.mpr ht) hn (h.le _)⟩
  · exact ⟨_, nodeCalls_directed h.good (h.directed.mpr ht) hn⟩

theorem Simple.nodup_from (h : Simple g) (hn : g.mem node = some n) : n.from_.elts.Nodup :=
  List.nodup_iff_count_le_one.mpr fun a => by rw [h.good.count_from hn]; exact h.le _

theorem Simple.nodup_others (h : Simple g) (hn : g.mem node = some n) : (n.others node).Nodup := by
  refine List.nodup_iff_count_le_one.mpr fun b => ?_
  rw [h.good.count_others hn]
  split_ifs
  · exact Nat.zero_le 1
  · exact h.le _

theorem Simple.loopLast_deleteNode (h : Simple g) (hn : g.mem node = some n) :
    (GraphOp.deleteNode (some node)).LoopLast g ↔ graphDeleteNode (some node) g = none := by
  rw [← Option.not_isSome_iff_eq_none]
  have hnd := h.nodup_from hn
  change g.type = .graph ∧ (∃ n, g.mem node = some n ∧ n.from_.slot 0 = some node) ∧
    (∀ e ∈ g.edges.elts, touches node e.pair = true) ↔ _
  rcases h.type with ht | ht
  · rw [deleteNode_isSome_undirected (h.symm ht) h.good (h.undirected.mpr ht) hn (h.le _), and_iff_right ht, not_or]
    refine and_congr ⟨?_, fun hnot => ⟨n, hn, ?_⟩⟩ ?_
    · rintro ⟨m, hm, hslot⟩ hall
      cases hn.symm.trans hm
      rw [Vector.slot_eq] at hslot
      cases hf : n.from_.elts with
      | nil =>
        rw [hf] at hslot
        cases hslot
      | cons a as =>
        rw [hf] at hslot
        exact (hall a as hf).1 (Option.some.inj hslot)
    · rw [Vector.slot_eq]
      cases hf : n.from_.elts with
      | nil => exact absurd (fun a as hc => by rw [hf] at hc; cases hc) hnot
      | cons a as =>
        by_contra hne
        refine hnot fun b bs hc => ?_
        rw [hf] at hc hnd
        cases hc
        exact ⟨fun hb => hne (congrArg some hb), (List.nodup_cons.mp hnd).1⟩
    · simp only [not_exists, not_and, Bool.not_eq_false]
  · refine iff_of_false (fun hc => ?_) fun hc => hc ?_
    · rw [ht] at hc
      cases hc.1
    · rw [deleteNode_isSome_directed h.good (h.directed.mpr ht) hn]
      refine .inl ?_
      have hno := h.nodup_others hn
      unfold GraphNode.repeated
      split
      · rename_i b bs _ ho
        rw [ho] at hno
        exact decide_eq_false (List.nodup_cons.mp hno).1
      · rename_i a as _ hf
        rw [hf] at hnd
        exact decide_eq_false (List.nodup_cons.mp hnd).1
      · rfl

theorem Simple.deleteNode (h : Simple g) (hn : g.mem node = some n) (hdel : graphDeleteNode (some node) g = some g') :
    NodeGone node g g' ∧ Simple g' := by
  obtain ⟨ps, hcalls⟩ := h.nodeCalls hn
  have hgone := hcalls.nodeGone h.good hn hdel
  refine ⟨hgone, by rw [hgone.type]; exact h.type, hgone.good, fun p => ?_, fun ht u w => ?_⟩
  · rw [hgone.mult]
    split_ifs
    · exact Nat.zero_le 1
    · exact h.le p
  · rw [hgone.type] at ht
    rw [hgone.mult, hgone.mult, touches_swap, h.symm ht u w]

theorem Simple.reverse (h : Simple g) : ∃ g', graphReverse g = some g' ∧ Simple g' := by
  rcases h.type with ht | ht
  · refine ⟨g, ?_, h⟩
    unfold graphReverse
    rw [ht]
  · obtain ⟨g', hrev, hgood, htype, -, hmult⟩ := h.good.reverse (h.directed.mpr ht)
    refine ⟨g', hrev, .inr (htype.trans ht), hgood, fun p => ?_, fun hc => ?_⟩
    · rw [hmult]
      exact h.le _
    · rw [htype, ht] at hc
      cases hc

/-! ## Sequences of operations -/

/-- The three ways in which an edge is stored agree, and the operations that look for edges or delete them with their
nodes go by the edges that are there. -/
structure SimpleSafe (g : Graph) : Prop where
  once : ∀ u w, g.mult (u, w) ≤ 1
  listed : ∀ u ∈ g.nodes.elts, ∀ w ∈ g.nodes.elts, g.Listed u w
  ends : ∀ e ∈ g.edges.elts, e.from_ ∈ g.nodes.elts ∧ e.to_ ∈ g.nodes.elts
  symm : g.type = .graph → ∀ u w, (0 < g.mult (u, w) ↔ 0 < g.mult (w, u))
  deleteNode : ∀ node ∈ g.nodes.elts, ∀ g', graphDeleteNode (some node) g = some g' →
    g'.edges.elts.Perm (g.edges.elts.filter fun e => !touches node e.pair)
  hasEdge : ∀ u w, graphHasEdge g u w = true ↔ ∃ e ∈ g.edges.elts, e.pair = (u, w)
  findEdge : ∀ u w, (∀ e, graphFindEdge g u w = some e → e ∈ g.edges.elts ∧ e.pair = (u, w)) ∧
    (graphFindEdge g u w = none ↔ ¬∃ e ∈ g.edges.elts, e.pair = (u, w))

theorem Simple.safe (h : Simple g) : SimpleSafe g where
  once u w := h.le (u, w)
  listed _ hu _ hw := h.good.listed hu hw
  ends e he := h.good.ends (p := e.pair) (mult_pos.mpr ⟨e, he, rfl⟩)
  symm ht u w := by rw [h.symm ht u w]
  deleteNode node hnode g' hdel := by
    obtain ⟨n, hn⟩ := Option.isSome_iff_exists.mp ((h.good.live node).mp hnode)
    exact (h.deleteNode hn hdel).1.edges
  hasEdge u w := graphHasEdge_iff.trans mult_pos
  findEdge u w := by
    refine ⟨fun e he => findLoop_eq_some he, ?_⟩
    rw [graphFindEdge_eq_none, ← mult_pos, Nat.pos_iff_ne_zero, not_not]

theorem Simple.step (h : Simple g) {op : GraphOp} (hvalid : op.Existing g) :
    (op.LoopLast g → graphStep g op = none) ∧ (¬op.LoopLast g → ∃ g', graphStep g op = some g' ∧ Simple g') := by
  cases op with
  | addNode data del =>
    refine ⟨fun hc => hc.elim, fun _ => ?_⟩
    obtain ⟨hgood, hmult⟩ := h.good.addNode data del
    refine ⟨_, rfl, h.type, hgood, ?_, ?_⟩
    · rw [hmult]
      exact h.le
    · rw [hmult]
      exact h.symm
  | addEdge u w attr del => exact ⟨fun hc => hc.elim, fun _ => h.addEdge u w attr del⟩
  | deleteEdge u w =>
    rw [h.loopLast_deleteEdge hvalid]
    refine ⟨id, fun hne => ?_⟩
    obtain ⟨g', hg'⟩ := Option.ne_none_iff_exists'.mp hne
    exact ⟨g', hg', h.deleteEdge hg'⟩
  | deleteNode node =>
    cases node with
    | none => exact ⟨fun hc => hc.elim, fun _ => ⟨g, rfl, h⟩⟩
    | some node =>
      obtain ⟨n, hn⟩ := Option.isSome_iff_exists.mp ((h.good.live node).mp hvalid)
      rw [h.loopLast_deleteNode hn]
      refine ⟨id, fun hne => ?_⟩
      obtain ⟨g', hg'⟩ := Option.ne_none_iff_exists'.mp hne
      exact ⟨g', hg', (h.deleteNode hn hg').2⟩
  | reverse => exact ⟨fun hc => hc.elim, fun _ => h.reverse⟩

/-- A simple graph stays in order as long as no undirected self-loop is the last edge to be deleted. -/
theorem simple_safe_iff {t : GraphType} (ht : t = .graph ∨ t = .diGraph) {ops : List GraphOp}
    (hops : Run.Along graphStep (fun g op => op.Existing g) (graphNew t) ops) :
    Run.Along graphStep (fun g op => ¬op.LoopLast g) (graphNew t) ops ↔
      ∀ p, p <+: ops → ∃ g, Run.exec graphStep (graphNew t) p = some g ∧ SimpleSafe g := by
  refine Run.along_iff_prefixes Simple ?_ ?_ ?_ (simple_graphNew ht) hops
  · intro g op h hvalid hok
    exact (h.step hvalid).2 hok
  · intro g h
    exact h.safe
  · intro g op g' h hvalid hbad hstep
    rw [(h.step hvalid).1 (not_not.mp hbad)] at hstep
    cases hstep

instance decidableExisting (g : Graph) : ∀ op : GraphOp, Decidable (op.Existing g)
  | .deleteEdge u w => inferInstanceAs (Decidable (0 < g.mult (u, w)))
  | .deleteNode (some node) => inferInstanceAs (Decidable (node ∈ g.nodes.elts))
  | .deleteNode none | .addNode .. | .addEdge .. | .reverse => isTrue trivial

theorem simple_safe_iff_sample :
    Run.Along graphStep (fun g op => ¬op.LoopLast g) (graphNew .diGraph)
        [.addNode 0 false, .addNode 0 false, .addEdge 0 1 5 true, .addEdge 0 0 6 true, .reverse, .deleteEdge 1 0,
          .deleteNode (some 0)] ↔
      ∀ p, p <+: [.addNode 0 false, .addNode 0 false, .addEdge 0 1 5 true, .addEdge 0 0 6 true, .reverse, .deleteEdge 1 0,
          .deleteNode (some 0)] →
        ∃ g, Run.exec graphStep (graphNew .diGraph) p = some g ∧ SimpleSafe g :=
  simple_safe_iff (.inr rfl) (by decide +kernel)

def lastLoop : List GraphOp := [.addNode 0 false, .addEdge 0 0 0 false, .deleteEdge 0 0]

/-- The second call of `_graph_delete_edge` finds no edge, and uses `e` all the same. -/
theorem last_loop_unset :
    Run.Along graphStep (fun g op => op.Existing g) (graphNew .graph) lastLoop ∧
      Run.exec graphStep (graphNew .graph) lastLoop = none :=
  ⟨by decide +kernel, by decide +kernel⟩

end Yjc
