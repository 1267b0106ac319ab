import Yjc.Container.GraphNodes

/-! Graphs with parallel edges: the edges against the lists of the nodes over sequences of operations. -/

namespace Yjc
open Yjc.Graph
variable {g g' : Graph} {node : ℕ} {n : GraphNode}

def GraphOp.Valid (g : Graph) : GraphOp → Prop
  | .deleteEdge u w => u ∈ g.nodes.elts ∧ w ∈ g.nodes.elts
  | .deleteNode (some node) => node ∈ g.nodes.elts
  | .deleteNode none | .addNode .. | .addEdge .. | .reverse => True

/-- No parallel edge is deleted, except with its node, and `e` is set whenever `_graph_delete_edge` comes to use it. The
two entries of an undirected self-loop may be deleted by its edge, but not with its node. -/
def GraphOp.Apart (g : Graph) : GraphOp → Prop
  | .deleteEdge u w =>
    if g.type = .multiGraph ∧ u = w then g.mult (u, w) ≤ 2 ∧ ∃ e ∈ g.edges.elts, e.pair ≠ (u, w)
    else g.mult (u, w) ≤ 1 ∧ g.edges.elts ≠ []
  | .deleteNode (some node) =>
    ∀ n, g.mem node = some n →
      if g.type = .multiGraph then
        g.mult (node, node) = 0 ∧
          ((∀ a as, n.from_.elts = a :: as → a ∉ as) ∨ ∃ e ∈ g.edges.elts, touches node e.pair = false)
      else n.repeated node = false ∨ ∃ e ∈ g.edges.elts, touches node e.pair = false
  | .deleteNode none | .addNode .. | .addEdge .. | .reverse => True

/-- An undirected edge is there in both directions, and so is a self-loop. -/
structure Multi (g : Graph) : Prop where
  type : g.type = .multiGraph ∨ g.type = .multiDiGraph
  good : g.Good
  symm : g.type = .multiGraph → ∀ u w, g.mult (u, w) = g.mult (w, u)
  even : g.type = .multiGraph → ∀ a, 2 ∣ g.mult (a, a)

theorem multi_graphNew {t : GraphType} (ht : t = .multiGraph ∨ t = .multiDiGraph) : Multi (graphNew t) := by
  have hzero : ∀ p, (graphNew t).mult p = 0 := by
    intro p
    unfold mult
    rw [show (graphNew t).edges.elts = [] from Vector.elts_init vectorMinSize]
    rfl
  refine ⟨ht, good_graphNew t, fun _ u w => ?_, fun _ a => ?_⟩
  · rw [hzero, hzero]
  · rw [hzero]
    exact Nat.dvd_zero 2

theorem Multi.directed (h : Multi g) : g.type.directed = true ↔ g.type = .multiDiGraph := by
  rcases h.type with ht | ht <;> rw [ht] <;> decide

theorem Multi.undirected (h : Multi g) : g.type.directed = false ↔ g.type = .multiGraph := by
  rcases h.type with ht | ht <;> rw [ht] <;> decide

/-! ## Adding an edge -/

theorem Multi.addEdge (h : Multi g) (u w attr : ℕ) (del : Bool) :
    ∃ g', graphStep g (.addEdge u w attr del) = some g' ∧ Multi g' := by
  unfold graphStep graphAddEdge
  dsimp only
  split_ifs with hin
  · obtain ⟨hu, hw⟩ := hin
    rcases h.type with ht | ht
    · obtain ⟨g₁, h₁, hadds₁, hg₁⟩ := h.good.addAlways (e := ⟨u, w, attr, del⟩) hu hw none
      obtain ⟨g₂, h₂, hadds₂, hg₂⟩ := hg₁.addAlways (e := ⟨w, u, attr, del⟩) (by rw [hadds₁.nodes]; exact hw)
        (by rw [hadds₁.nodes]; exact hu) (some ⟨u, w, attr, del⟩)
      have hmult : ∀ q, g₂.mult q = g.mult q + (if (u, w) = q then 1 else 0) + if (w, u) = q then 1 else 0 := by
        intro q
        rw [hadds₂.mult, hadds₁.mult]
        rfl
      have htype : g₂.type = .multiGraph := by rw [hadds₂.type, hadds₁.type, ht]
      rw [ht]
      dsimp only
      refine ⟨g₂, by rw [h₁, Option.bind_some, h₂, Option.map_some], .inl htype, hg₂, fun _ a b => ?_, fun _ a => ?_⟩
      · rw [hmult, hmult, h.symm ht a b]
        simp only [Prod.ext_iff, and_comm]
        omega
      · have heq : ((w, u) = (a, a)) = ((u, w) = (a, a)) := by
          simp only [Prod.ext_iff, and_comm]
        rw [hmult, Nat.add_assoc]
        refine Nat.dvd_add (h.even ht a) ?_
        simp only [heq]
        split_ifs <;> decide
    · obtain ⟨g₁, h₁, hadds₁, hg₁⟩ := h.good.addAlways (e := ⟨u, w, attr, del⟩) hu hw none
      have htype : g₁.type = .multiDiGraph := by rw [hadds₁.type, ht]
      rw [ht]
      dsimp only
      refine ⟨g₁, by rw [h₁, Option.map_some], .inr htype, hg₁, fun hc => ?_, fun hc => ?_⟩
      · rw [htype] at hc
        cases hc
      · rw [htype] at hc
        cases hc
  · exact ⟨g, rfl, h⟩

/-! ## Deleting an edge -/

theorem count_both {u w : ℕ} (h : u ≠ w) :
    [(u, w), (w, u)].count (u, w) = 1 ∧ [(u, w), (w, u)].count (w, u) = 1 := by
  have hnd : [(u, w), (w, u)].Nodup := by
    rw [List.nodup_cons, List.mem_singleton]
    exact ⟨fun hc => h (congrArg Prod.fst hc), List.nodup_singleton _⟩
  exact ⟨List.count_eq_one_of_mem hnd List.mem_cons_self,
    List.count_eq_one_of_mem hnd (List.mem_cons_of_mem _ (List.mem_singleton_self _))⟩

theorem Multi.apart_deleteEdge (h : Multi g) {u w : ℕ} (hu : u ∈ g.nodes.elts) (hw : w ∈ g.nodes.elts) :
    (GraphOp.deleteEdge u w).Apart g ↔
      (graphDeleteEdge u w g).isSome ∧ g.mult (u, w) ≤ (edgeCalls g u w).count (u, w) := by
  rw [h.good.deleteEdge_isSome hu hw]
  change (if g.type = .multiGraph ∧ u = w then g.mult (u, w) ≤ 2 ∧ ∃ e ∈ g.edges.elts, e.pair ≠ (u, w)
    else g.mult (u, w) ≤ 1 ∧ g.edges.elts ≠ []) ↔ _
  rcases h.type with ht | ht
  · rw [edgeCalls_undirected (h.undirected.mpr ht)]
    change _ ↔ (∃ e ∈ g.edges.elts, e.pair ∉ [(u, w)]) ∧ _
    simp only [List.mem_singleton]
    rcases eq_or_ne u w with rfl | huw
    · rw [if_pos ⟨ht, rfl⟩, List.count_cons_self, List.count_singleton_self]
      exact and_comm
    · rw [if_neg fun hc => huw hc.2, (count_both huw).1, and_comm]
      refine and_congr_left fun _ => ⟨fun hnil => ?_, ?_⟩
      · -- the edge the other way, if there is one
        by_cases hpos : 0 < g.mult (w, u)
        · obtain ⟨e, he, hep⟩ := mult_pos.mp hpos
          exact ⟨e, he, by rw [hep]; exact fun hc => huw (congrArg Prod.snd hc)⟩
        · obtain ⟨e, he⟩ := List.exists_mem_of_ne_nil _ hnil
          refine ⟨e, he, fun hc => hpos ?_⟩
          rw [← h.symm ht]
          exact mult_pos.mpr ⟨e, he, hc⟩
      · rintro ⟨e, he, -⟩
        exact List.ne_nil_of_mem he
  · have htype : ¬(g.type = .multiGraph ∧ u = w) := by
      rw [ht]
      exact fun hc => by cases hc.1
    rw [edgeCalls_directed (h.directed.mpr ht), if_neg htype, List.count_singleton_self, and_comm]
    refine and_congr_left fun _ => ⟨fun hnil => ?_, ?_⟩
    · obtain ⟨e, he⟩ := List.exists_mem_of_ne_nil _ hnil
      exact ⟨e, he, List.not_mem_nil⟩
    · rintro ⟨e, he, -⟩
      exact List.ne_nil_of_mem he

theorem Multi.cuts (h : Multi g) {ps : List (ℕ × ℕ)} (hc : Cuts ps g g') (hgood : g'.Good)
    (hps : g.type = .multiGraph → ∀ u w, (u, w) ∈ ps ↔ (w, u) ∈ ps) : Multi g' := by
  refine ⟨by rw [hc.type]; exact h.type, hgood, fun ht u w => ?_, fun ht a => ?_⟩
  · rw [hc.type] at ht
    rw [hc.mult, hc.mult, h.symm ht u w]
    simp only [hps ht u w]
  · rw [hc.type] at ht
    rw [hc.mult]
    split_ifs
    · exact Nat.dvd_zero 2
    · exact h.even ht a

theorem Multi.deleteEdge (h : Multi g) {u w : ℕ} (hu : u ∈ g.nodes.elts) (hw : w ∈ g.nodes.elts)
    (ha : (GraphOp.deleteEdge u w).Apart g) : ∃ g', graphDeleteEdge u w g = some g' ∧ Multi g' := by
  obtain ⟨hsome, hle⟩ := (h.apart_deleteEdge hu hw).mp ha
  obtain ⟨g', hg'⟩ := Option.isSome_iff_exists.mp hsome
  have hcuts := deleteAll_cuts (graphDeleteEdge_eq g u w ▸ hg')
  have hsymm : g.type = .multiGraph → ∀ a b, (a, b) ∈ edgeCalls g u w ↔ (b, a) ∈ edgeCalls g u w := by
    intro ht a b
    rw [edgeCalls_undirected (h.undirected.mpr ht)]
    simp only [List.mem_cons, List.not_mem_nil, or_false, Prod.ext_iff]
    exact or_comm.trans (or_congr and_comm and_comm)
  refine ⟨g', hg', h.cuts hcuts (h.good.cuts hcuts fun p hp => ?_) hsymm⟩
  rcases mem_edgeCalls hp with rfl | rfl
  · exact hle
  · -- the other direction is there and is deleted equally often
    rcases h.type with ht | ht
    · rw [h.symm ht]
      refine Nat.le_trans hle (Nat.le_of_eq ?_)
      rw [edgeCalls_undirected (h.undirected.mpr ht)]
      rcases eq_or_ne u w with rfl | huw
      · rfl
      · rw [(count_both huw).1, (count_both huw).2]
    · rw [edgeCalls_directed (h.directed.mpr ht)] at hp hle ⊢
      rw [List.mem_singleton.mp hp]
      exact hle

theorem Multi.not_apart_deleteEdge (h : Multi g) {u w : ℕ} (hu : u ∈ g.nodes.elts) (hw : w ∈ g.nodes.elts)
    (ha : ¬(GraphOp.deleteEdge u w).Apart g) (hdel : graphDeleteEdge u w g = some g') :
    u ∈ g'.nodes.elts ∧ w ∈ g'.nodes.elts ∧ ¬g'.Listed u w := by
  rw [h.apart_deleteEdge hu hw, hdel, Option.isSome_some, and_iff_right rfl, Nat.not_le] at ha
  rw [graphDeleteEdge_eq] at hdel
  refine (deleteAll_cuts hdel).not_listed (p := (u, w)) h.good ?_ ha
  unfold edgeCalls
  split_ifs <;> exact List.mem_cons_self

/-! ## Deleting a node -/

theorem Multi.apart_deleteNode (h : Multi g) (hn : g.mem node = some n) :
    (GraphOp.deleteNode (some node)).Apart g ↔ (graphDeleteNode (some node) g).isSome := by
  have hmem : (GraphOp.deleteNode (some node)).Apart g ↔ if g.type = .multiGraph then
        g.mult (node, node) = 0 ∧
          ((∀ a as, n.from_.elts = a :: as → a ∉ as) ∨ ∃ e ∈ g.edges.elts, touches node e.pair = false)
      else n.repeated node = false ∨ ∃ e ∈ g.edges.elts, touches node e.pair = false := by
    refine ⟨fun ha => ha n hn, fun ha m hm => ?_⟩
    cases hn.symm.trans hm
    exact ha
  rw [hmem]
  rcases h.type with ht | ht
  · have hdir := h.undirected.mpr ht
    rw [if_pos ht]
    by_cases hself : g.mult (node, node) = 0
    · have hnot : node ∉ n.from_.elts := by
        rw [h.good.mem_from hn, hself]
        exact Nat.lt_irrefl 0
      rw [deleteNode_isSome_undirected (h.symm ht) h.good hdir hn (by omega), and_iff_right hself]
      refine or_congr_left (forall_congr' fun a => forall_congr' fun as => forall_congr' fun heq => ?_)
      refine (and_iff_right ?_).symm
      rintro rfl
      exact hnot (by rw [heq]; exact List.mem_cons_self)
    · -- there are at least two entries for the self-loop
      have htwo : 2 ≤ n.from_.elts.count node := by
        rw [h.good.count_from hn]
        exact Nat.le_of_dvd (Nat.pos_of_ne_zero hself) (h.even ht node)
      have hnone : graphDeleteNode (some node) g = none := by
        change (deleteSide .in_ node g).bind _ = none
        rw [deleteSide_eq .in_ hn]
        change (deleteEdges .in_ node n.from_.elts.length g).bind _ = none
        rw [deleteEdges_selfloops hdir hn rfl htwo]
        rfl
      rw [hnone]
      exact iff_of_false (fun hc => hself hc.1) Bool.false_ne_true
  · rw [if_neg (by rw [ht]; decide), deleteNode_isSome_directed h.good (h.directed.mpr ht) hn]

theorem Multi.nodeGone (h : Multi g) (hn : g.mem node = some n) (hdel : graphDeleteNode (some node) g = some g') :
    NodeGone node g g' := by
  rcases h.type with ht | ht
  · have hself : g.mult (node, node) = 0 := by
      have ha := (h.apart_deleteNode hn).mpr (by rw [hdel]; rfl) n hn
      rw [if_pos ht] at ha
      exact ha.1
    exact (nodeCalls_undirected (h.symm ht) h.good (h.undirected.mpr ht) hn (by omega)).nodeGone h.good hn hdel
  · exact (nodeCalls_directed h.good (h.directed.mpr ht) hn).nodeGone h.good hn hdel

theorem touches_swap (u w : ℕ) : touches node (u, w) = touches node (w, u) := Bool.or_comm _ _

theorem Multi.deleteNode (h : Multi g) (hn : g.mem node = some n) (ha : (GraphOp.deleteNode (some node)).Apart g) :
    ∃ g', graphDeleteNode (some node) g = some g' ∧ Multi g' := by
  obtain ⟨g', hg'⟩ := Option.isSome_iff_exists.mp ((h.apart_deleteNode hn).mp ha)
  have hgone := h.nodeGone hn hg'
  refine ⟨g', hg', by rw [hgone.type]; exact h.type, hgone.good, fun ht u w => ?_, fun ht a => ?_⟩
  · rw [hgone.type] at ht
    rw [hgone.mult, hgone.mult, touches_swap, h.symm ht u w]
  · rw [hgone.type] at ht
    rw [hgone.mult]
    split_ifs
    · exact Nat.dvd_zero 2
    · exact h.even ht a

/-! ## Sequences of operations -/

/-- Every edge between two nodes is as often in `edges` as in their lists. -/
def MultiSafe (g : Graph) : Prop := ∀ u ∈ g.nodes.elts, ∀ w ∈ g.nodes.elts, g.Listed u w

theorem Multi.safe (h : Multi g) : MultiSafe g := fun _ hu _ hw => h.good.listed hu hw

theorem Multi.reverse (h : Multi g) : ∃ g', graphReverse g = some g' ∧ Multi g' := by
  rcases h.type with ht | ht
  · refine ⟨g, ?_, h⟩
    unfold graphReverse
    rw [ht]
  · obtain ⟨g', hrev, hgood, htype, -, -⟩ := h.good.reverse (h.directed.mpr ht)
    have hne : g'.type ≠ .multiGraph := by
      rw [htype, ht]
      decide
    exact ⟨g', hrev, .inr (htype.trans ht), hgood, fun hc => absurd hc hne, fun hc => absurd hc hne⟩

theorem Multi.step (h : Multi g) {op : GraphOp} (hvalid : op.Valid g) (ha : op.Apart g) :
    ∃ g', graphStep g op = some g' ∧ Multi g' := by
  cases op with
  | addNode data del =>
    obtain ⟨hgood, hmult⟩ := h.good.addNode data del
    refine ⟨_, rfl, h.type, hgood, ?_, ?_⟩
    · rw [hmult]
      exact h.symm
    · rw [hmult]
      exact h.even
  | addEdge u w attr del => exact h.addEdge u w attr del
  | deleteEdge u w => exact h.deleteEdge hvalid.1 hvalid.2 ha
  | deleteNode node =>
    cases node with
    | none => exact ⟨g, rfl, h⟩
    | some node =>
      obtain ⟨n, hn⟩ := Option.isSome_iff_exists.mp ((h.good.live node).mp hvalid)
      exact h.deleteNode hn ha
  | reverse => exact h.reverse

theorem Multi.not_safe (h : Multi g) {op : GraphOp} (hvalid : op.Valid g) (ha : ¬op.Apart g)
    (hstep : graphStep g op = some g') : ¬MultiSafe g' := by
  cases op with
  | deleteEdge u w =>
    obtain ⟨hu, hw, hnot⟩ := h.not_apart_deleteEdge hvalid.1 hvalid.2 ha hstep
    exact fun hsafe => hnot (hsafe u hu w hw)
  | deleteNode node =>
    cases node with
    | none => exact absurd trivial ha
    | some node =>
      obtain ⟨n, hn⟩ := Option.isSome_iff_exists.mp ((h.good.live node).mp hvalid)
      refine absurd ((h.apart_deleteNode hn).mpr ?_) ha
      rw [show graphDeleteNode (some node) g = some g' from hstep]
      rfl
  | addNode | addEdge | reverse => exact absurd trivial ha

/-- A multigraph stays in order, and no pointer is followed that is null or not set, as long as no parallel edge is
deleted by itself, no undirected self-loop with its node, and no edge when there is none. -/
theorem multi_safe_iff {t : GraphType} (ht : t = .multiGraph ∨ t = .multiDiGraph) {ops : List GraphOp}
    (hops : Run.Along graphStep (fun g op => op.Valid g) (graphNew t) ops) :
    Run.Along graphStep (fun g op => op.Apart g) (graphNew t) ops ↔
      ∀ p, p <+: ops → ∃ g, Run.exec graphStep (graphNew t) p = some g ∧ MultiSafe g := by
  refine Run.along_iff_prefixes Multi ?_ ?_ ?_ (multi_graphNew ht) hops
  · intro g op h hvalid ha
    exact h.step hvalid ha
  · intro g h
    exact h.safe
  · intro g op g' h hvalid ha hstep
    exact h.not_safe hvalid ha hstep

instance decidableValid (g : Graph) : ∀ op : GraphOp, Decidable (op.Valid g)
  | .deleteEdge u w => inferInstanceAs (Decidable (u ∈ g.nodes.elts ∧ w ∈ g.nodes.elts))
  | .deleteNode (some node) => inferInstanceAs (Decidable (node ∈ g.nodes.elts))
  | .deleteNode none | .addNode .. | .addEdge .. | .reverse => isTrue trivial

theorem multi_safe_iff_sample :
    Run.Along graphStep (fun g op => op.Apart g) (graphNew .multiGraph)
        [.addNode 0 false, .addNode 0 false, .addEdge 0 1 5 true, .addEdge 1 1 6 true, .deleteEdge 0 1] ↔
      ∀ p, p <+: [.addNode 0 false, .addNode 0 false, .addEdge 0 1 5 true, .addEdge 1 1 6 true, .deleteEdge 0 1] →
        ∃ g, Run.exec graphStep (graphNew .multiGraph) p = some g ∧ MultiSafe g :=
  multi_safe_iff (.inl rfl) (by decide +kernel)

def parallelEdges : List GraphOp :=
  [.addNode 0 false, .addNode 0 false, .addEdge 0 1 0 false, .addEdge 0 1 0 false, .deleteEdge 0 1]

def selfLoop : List GraphOp :=
  [.addNode 0 false, .addNode 0 false, .addNode 0 false, .addEdge 1 2 0 false, .addEdge 0 0 0 false, .deleteNode (some 0)]

/-- One of two parallel edges is deleted; an undirected self-loop is deleted with its node. -/
theorem parallel_edges_left :
    (Run.Along graphStep (fun g op => op.Valid g) (graphNew .multiDiGraph) parallelEdges ∧
      ∃ g, Run.exec graphStep (graphNew .multiDiGraph) parallelEdges = some g ∧ 0 ∈ g.nodes.elts ∧ 1 ∈ g.nodes.elts ∧
        g.mult (0, 1) = 0 ∧ g.outMult (0, 1) = 1 ∧ g.inMult (0, 1) = 1) ∧
    Run.Along graphStep (fun g op => op.Valid g) (graphNew .multiGraph) selfLoop ∧
      Run.exec graphStep (graphNew .multiGraph) selfLoop = none := by
  refine ⟨⟨by decide +kernel, _, rfl, ?_⟩, by decide +kernel, by decide +kernel⟩
  decide +kernel

end Yjc
