import Yjc.Container.SimpleGraph

/-! The attributes of the edges of a directed graph, and the edge that `_graph_delete_edge` calls the deletion callback
for: the one that it read last. -/

namespace Yjc
open Yjc.Graph

/-! ## Deleting a graph -/

/-- The loop of `graph_delete` over the nodes; a slot may be empty. -/
def deleteNodes : ℕ → Graph → Option Graph
  | 0, g => some g
  | i + 1, g => (graphDeleteNode (g.nodes.slot i) g).bind (deleteNodes i)

def deleteRest : ℕ → Graph → Option Graph
  | 0, g => some g
  | i + 1, g => do
    let e ← g.edges.slot i
    let g ← graphDeleteEdge e.from_ e.to_ g
    deleteRest i g

/-- `graph_delete`, as far as the vectors and the graph itself are freed. -/
def graphDelete (g : Graph) : Option Graph := do
  let g ← deleteNodes g.nodes.active g
  deleteRest g.edges.active g

/-! ## The callbacks of edges -/

def GraphEdge.owned (e : GraphEdge) : Bool := e.del && decide (e.attr ≠ 0)

def Graph.destroyed (g : Graph) : List GraphEdge :=
  g.called.filterMap fun
    | .node _ => none
    | .edge e => some e

def GraphOp.removed (op : GraphOp) (g g' : Graph) : List GraphEdge :=
  match op with
  | .reverse => []
  | .addNode .. | .addEdge .. | .deleteEdge .. | .deleteNode .. => g.edges.elts.filter fun e => e ∉ g'.edges.elts

/-- The callback is called for the edges that go and have one, once for each, and for no other edge. -/
def Destroys (op : GraphOp) (g g' : Graph) : Prop :=
  ∃ calls, g'.destroyed = g.destroyed ++ calls ∧ calls.Perm ((op.removed g g').filter GraphEdge.owned)

/-- The edge that is deleted is in the first slot, or neither that edge nor the one there has anything to destroy. -/
def FirstSlot (g : Graph) (p : ℕ × ℕ) : Prop :=
  ∃ e ∈ g.edges.slot 0, e.pair = p ∨ e.owned = false ∧ ∀ d ∈ g.edges.elts, d.pair = p → d.owned = false

/-- So is it in one call of `_graph_delete_edge` after another. -/
def AllFirst (ps : List (ℕ × ℕ)) (g : Graph) : Prop := Run.Along (fun g p => deleteEdge p g) FirstSlot g ps

/-- So is it in every call of `_graph_delete_edge` that an operation makes. -/
def GraphOp.FirstSlots (g : Graph) : GraphOp → Prop
  | .deleteEdge u w => FirstSlot g (u, w)
  | .deleteNode (some node) =>
    ∀ n, g.mem node = some n → AllFirst (directedCalls node n) g
  | .deleteNode none | .addNode .. | .addEdge .. | .reverse => True

variable {g g' : Graph} {p : ℕ × ℕ} {ps : List (ℕ × ℕ)} {node : ℕ} {n : GraphNode}

theorem destroyed_call (e : GraphEdge) (h : g'.called = if e.del ∧ e.attr ≠ 0 then g.called ++ [GraphCall.edge e] else g.called) :
    g'.destroyed = g.destroyed ++ [e].filter GraphEdge.owned := by
  unfold Graph.destroyed
  rw [h]
  split_ifs with hown
  · have howned : e.owned = true := by simpa [GraphEdge.owned] using hown
    rw [List.filterMap_append, List.filter_cons_of_pos howned]
    rfl
  · have howned : ¬e.owned = true := by simpa [GraphEdge.owned] using hown
    rw [List.filter_cons_of_neg howned, List.filter_nil, List.append_nil]

theorem deleteEdge_destroyed (h : deleteEdge p g = some g') :
    ∃ e, g.edges.elts.head? = some e ∧ g'.destroyed = g.destroyed ++ [e].filter GraphEdge.owned := by
  obtain ⟨edges', n, m, e, -, he, -, -, rfl⟩ := deleteEdge_eq_some h
  exact ⟨e, he, destroyed_call e rfl⟩

theorem filter_pair_eq {e : GraphEdge} {es : List GraphEdge} (hes : g.edges.elts = e :: es) (hp : e.pair = p)
    (hle : g.mult p ≤ 1) : (g.edges.elts.filter fun d => d.pair = p) = [e] := by
  rw [mult, hes, List.map_cons, hp, List.count_cons_self] at hle
  have hnone : p ∉ es.map GraphEdge.pair := List.count_eq_zero.mp (by omega)
  rw [hes, List.filter_cons_of_pos (by simpa using hp), List.filter_eq_nil_iff.mpr]
  intro d hd hdp
  exact hnone (List.mem_map.mpr ⟨d, hd, of_decide_eq_true hdp⟩)

theorem deleteEdge_destroyed_first (hle : g.mult p ≤ 1) (hfirst : FirstSlot g p) (h : deleteEdge p g = some g') :
    g'.destroyed = g.destroyed ++ (g.edges.elts.filter fun d => d.pair = p).filter GraphEdge.owned := by
  obtain ⟨e, he, hcase⟩ := hfirst
  obtain ⟨d, hd, hcalled⟩ := deleteEdge_destroyed h
  rw [Vector.slot_eq, ← List.head?_eq_getElem?] at he
  obtain rfl : e = d := Option.some.inj (he.symm.trans hd)
  obtain ⟨es, hes⟩ : ∃ es, g.edges.elts = e :: es := List.head?_eq_some_iff.mp hd
  rw [hcalled]
  rcases hcase with hp | ⟨hnot, hnone⟩
  · rw [filter_pair_eq hes hp hle]
  · have hleft : [e].filter GraphEdge.owned = [] := by simp [hnot]
    have hright : (g.edges.elts.filter fun d => d.pair = p).filter GraphEdge.owned = [] := by
      refine List.filter_eq_nil_iff.mpr fun d hd => ?_
      obtain ⟨hd, hp⟩ := List.mem_filter.mp hd
      rw [hnone d hd (of_decide_eq_true hp)]
      exact Bool.false_ne_true
    rw [hleft, hright]

theorem Cut.mult_le (h : Cut p g g') (q : ℕ × ℕ) : g'.mult q ≤ g.mult q := by
  rw [(h.cons (.nil _)).mult]
  split_ifs
  · exact Nat.zero_le _
  · exact Nat.le_refl _

theorem filter_pair_append (p : ℕ × ℕ) (ps : List (ℕ × ℕ)) (es : List GraphEdge) :
    ((es.filter fun d => d.pair = p) ++ (es.filter fun d => d.pair ≠ p).filter fun d => d.pair ∈ ps).Perm
      (es.filter fun d => d.pair ∈ p :: ps) := by
  refine .trans (.of_eq ?_) (List.filter_append_perm (fun d => d.pair = p) _)
  rw [List.filter_filter, List.filter_filter, List.filter_filter]
  congr 1
  · refine List.filter_congr fun d _ => ?_
    by_cases hd : d.pair = p <;> simp [hd]
  · refine List.filter_congr fun d _ => ?_
    by_cases hd : d.pair = p <;> simp [hd]

theorem deleteAll_destroyed (hle : ∀ q, g.mult q ≤ 1) (hfirst : AllFirst ps g) (h : deleteAll ps g = some g') :
    ∃ calls, g'.destroyed = g.destroyed ++ calls ∧
      calls.Perm ((g.edges.elts.filter fun d => d.pair ∈ ps).filter GraphEdge.owned) := by
  induction ps generalizing g with
  | nil =>
    cases h
    exact ⟨[], (List.append_nil _).symm, by simp⟩
  | cons p ps ih =>
    obtain ⟨g₁, h₁, h⟩ := Run.exec_cons.mp h
    have hcut := deleteEdge_cut h₁
    obtain ⟨calls, hcalls, hperm⟩ := ih (fun q => Nat.le_trans (hcut.mult_le q) (hle q)) (hfirst.2 g₁ h₁) h
    refine ⟨(g.edges.elts.filter fun d => d.pair = p).filter GraphEdge.owned ++ calls, ?_, ?_⟩
    · rw [hcalls, deleteEdge_destroyed_first (hle p) hfirst.1 h₁, List.append_assoc]
    · have hrest := hperm.trans ((hcut.edges.filter fun d => d.pair ∈ ps).filter GraphEdge.owned)
      refine (hrest.append_left _).trans ?_
      rw [← List.filter_append]
      exact (filter_pair_append p ps g.edges.elts).filter _

theorem filter_notMem_eq (h : g'.edges.elts.Perm (g.edges.elts.filter fun e => e.pair ∉ ps)) :
    (g.edges.elts.filter fun e => e ∉ g'.edges.elts) = g.edges.elts.filter fun e => e.pair ∈ ps := by
  refine List.filter_congr fun e he => ?_
  refine decide_eq_decide.mpr ?_
  rw [h.mem_iff, List.mem_filter, and_iff_right he, decide_eq_true_eq, not_not]

theorem destroys_of_deleteAll {g₁ : Graph} (hle : ∀ q, g.mult q ≤ 1) (hfirst : AllFirst ps g) (h : deleteAll ps g = some g₁)
    (hdestroyed : g'.destroyed = g₁.destroyed) (hedges : g'.edges = g₁.edges) :
    ∃ calls, g'.destroyed = g.destroyed ++ calls ∧
      calls.Perm ((g.edges.elts.filter fun e => e ∉ g'.edges.elts).filter GraphEdge.owned) := by
  obtain ⟨calls, hcalls, hperm⟩ := deleteAll_destroyed hle hfirst h
  refine ⟨calls, hdestroyed.trans hcalls, ?_⟩
  rw [hedges, filter_notMem_eq (deleteAll_cuts h).edges]
  exact hperm

/-! ## The operations -/

theorem Simple.destroys_deleteEdge (h : Simple g) (ht : g.type = .diGraph) {u w : ℕ}
    (hvalid : (GraphOp.deleteEdge u w).Valid g) (hfirst : FirstSlot g (u, w)) :
    ∃ g', graphDeleteEdge u w g = some g' ∧ (Simple g' ∧ g'.type = .diGraph) ∧ Destroys (.deleteEdge u w) g g' := by
  have hne : g.edges.elts ≠ [] := by
    obtain ⟨e, he, -⟩ := hfirst
    rintro hnil
    rw [Vector.slot_eq, hnil] at he
    cases he
  obtain ⟨g', hg'⟩ := Option.isSome_iff_exists.mp
    ((deleteEdge_isSome (p := (u, w)) ((h.good.live u).mp hvalid.1) ((h.good.live w).mp hvalid.2)).mpr hne)
  have hall : deleteAll [(u, w)] g = some g' := Run.exec_cons.mpr ⟨g', hg', rfl⟩
  have hdel : graphDeleteEdge u w g = some g' := by rw [graphDeleteEdge_directed (h.directed.mpr ht), hall]
  have hone : AllFirst [(u, w)] g := ⟨hfirst, fun _ _ => trivial⟩
  exact ⟨g', hdel, ⟨h.deleteEdge hdel, (deleteEdge_cut hg').type.trans ht⟩, destroys_of_deleteAll h.le hone hall rfl rfl⟩

theorem freeNode_destroyed (h : freeNode node g = some g') : g'.destroyed = g.destroyed ∧ g'.edges = g.edges := by
  obtain ⟨n, -, rfl⟩ := Option.map_eq_some_iff.mp h
  refine ⟨?_, rfl⟩
  unfold Graph.destroyed
  split_ifs with hdel
  · rw [List.filterMap_append]
    exact List.append_nil _
  · rfl

theorem Simple.destroys_deleteNode (h : Simple g) (ht : g.type = .diGraph) (hnode : node ∈ g.nodes.elts)
    (hfirst : (GraphOp.deleteNode (some node)).FirstSlots g) :
    ∃ g', graphDeleteNode (some node) g = some g' ∧ (Simple g' ∧ g'.type = .diGraph) ∧
      Destroys (.deleteNode (some node)) g g' := by
  obtain ⟨n, hn⟩ := Option.isSome_iff_exists.mp ((h.good.live node).mp hnode)
  obtain ⟨g', hg'⟩ : ∃ g', graphDeleteNode (some node) g = some g' := by
    refine Option.ne_none_iff_exists'.mp fun hnone => ?_
    have htype := ((h.loopLast_deleteNode hn).mpr hnone).1
    rw [ht] at htype
    cases htype
  have hgone := h.deleteNode hn hg'
  refine ⟨g', hg', ⟨hgone.2, hgone.1.type.trans ht⟩, ?_⟩
  rw [(nodeCalls_directed h.good (h.directed.mpr ht) hn).eq] at hg'
  obtain ⟨g₁, h₁, hfree⟩ := Option.bind_eq_some_iff.mp hg'
  obtain ⟨hdestroyed, hedges⟩ := freeNode_destroyed hfree
  exact destroys_of_deleteAll h.le (hfirst n hn) h₁ hdestroyed hedges

theorem destroys_of_subset {op : GraphOp} (hcalled : g'.called = g.called)
    (hsub : op = .reverse ∨ g.edges.elts ⊆ g'.edges.elts) : Destroys op g g' := by
  have hnil : op.removed g g' = [] := by
    rcases hsub with rfl | hsub
    · rfl
    · have hfilter : (g.edges.elts.filter fun e => e ∉ g'.edges.elts) = [] :=
        List.filter_eq_nil_iff.mpr fun e he => by simpa using hsub he
      cases op <;> first | exact hfilter | rfl
  refine ⟨[], ?_, by rw [hnil]; exact .rfl⟩
  unfold Graph.destroyed
  rw [hcalled, List.append_nil]

theorem addEdge_keeps {e : GraphEdge} (h : addEdge e g = some g') :
    g'.called = g.called ∧ g'.type = g.type ∧ g'.edges.elts = g.edges.elts ++ [e] := by
  obtain ⟨g₁, h₁, h⟩ := Option.bind_eq_some_iff.mp h
  obtain ⟨n, -, rfl⟩ := modifyNode_eq_some h₁
  obtain ⟨m, -, rfl⟩ := modifyNode_eq_some h
  exact ⟨rfl, rfl, Vector.elts_set _ _⟩

theorem Simple.destroys_addEdge (h : Simple g) (ht : g.type = .diGraph) (u w attr : ℕ) (del : Bool) :
    ∃ g', graphStep g (.addEdge u w attr del) = some g' ∧ (Simple g' ∧ g'.type = .diGraph) ∧
      Destroys (.addEdge u w attr del) g g' := by
  obtain ⟨g', hg', hsimple⟩ := h.addEdge u w attr del
  suffices hkeep : g'.called = g.called ∧ g'.type = g.type ∧ g.edges.elts ⊆ g'.edges.elts from
    ⟨g', hg', ⟨hsimple, hkeep.2.1.trans ht⟩, destroys_of_subset hkeep.1 (.inr hkeep.2.2)⟩
  obtain ⟨⟨g₁, r⟩, hr, rfl⟩ := Option.map_eq_some_iff.mp hg'
  unfold graphAddEdge at hr
  simp only [ht] at hr
  split_ifs at hr with hin
  · unfold addNew at hr
    split_ifs at hr with hhas
    · cases hr
      exact ⟨rfl, rfl, List.Subset.refl _⟩
    · obtain ⟨g₂, hadd, heq⟩ := Option.map_eq_some_iff.mp hr
      cases heq
      obtain ⟨hcalled, htype, hedges⟩ := addEdge_keeps hadd
      exact ⟨hcalled, htype, by rw [hedges]; exact List.subset_append_left _ _⟩
  · cases hr
    exact ⟨rfl, rfl, List.Subset.refl _⟩

theorem Simple.destroys (h : Simple g) (ht : g.type = .diGraph) {op : GraphOp} (hvalid : op.Valid g)
    (hfirst : op.FirstSlots g) : ∃ g', graphStep g op = some g' ∧ (Simple g' ∧ g'.type = .diGraph) ∧ Destroys op g g' := by
  cases op with
  | addNode data del =>
    have hexisting : (GraphOp.addNode data del).Existing g := trivial
    obtain ⟨g', hg', hsimple⟩ := (h.step hexisting).2 not_false
    cases hg'
    exact ⟨_, rfl, ⟨hsimple, ht⟩, destroys_of_subset rfl (.inr (List.Subset.refl _))⟩
  | addEdge u w attr del => exact h.destroys_addEdge ht u w attr del
  | deleteEdge u w => exact h.destroys_deleteEdge ht hvalid hfirst
  | deleteNode node =>
    cases node with
    | none => exact ⟨g, rfl, ⟨h, ht⟩, destroys_of_subset rfl (.inr (List.Subset.refl _))⟩
    | some node => exact h.destroys_deleteNode ht hvalid hfirst
  | reverse =>
    obtain ⟨g', hg', hsimple⟩ := h.reverse
    refine ⟨g', hg', ?_⟩
    unfold graphReverse at hg'
    simp only [ht] at hg'
    obtain ⟨mem, -, rfl⟩ := Option.map_eq_some_iff.mp hg'
    exact ⟨⟨hsimple, rfl⟩, destroys_of_subset rfl (.inl rfl)⟩

/-! ## `graph_delete` -/

theorem Simple.deleteNode_nodes (h : Simple g) (ht : g.type = .diGraph) {l : List ℕ} (hl : g.nodes.elts = l ++ [node])
    (hdel : graphDeleteNode (some node) g = some g') : g'.nodes.elts = l := by
  have hnode : node ∈ g.nodes.elts := hl ▸ List.mem_append_right _ List.mem_cons_self
  obtain ⟨n, hn⟩ := Option.isSome_iff_exists.mp ((h.good.live node).mp hnode)
  rw [(nodeCalls_directed h.good (h.directed.mpr ht) hn).eq] at hdel
  obtain ⟨g₁, h₁, hfree⟩ := Option.bind_eq_some_iff.mp hdel
  obtain ⟨m, -, rfl⟩ := Option.map_eq_some_iff.mp hfree
  refine Vector.elts_dropOne_concat ?_
  rw [(deleteAll_cuts h₁).nodes, hl]

/-- `graph_delete` deletes the nodes from the last one on. -/
def deleteOps (l : List ℕ) : List GraphOp := l.reverse.map fun a => .deleteNode (some a)

theorem perm_append_of_filter {es es' : List GraphEdge} {P : GraphEdge → Bool} (h : es'.Perm (es.filter P)) :
    ((es.filter fun e => e ∉ es') ++ es').Perm es := by
  have hstay : es'.Perm (es.filter fun e => e ∈ es') := by
    refine h.trans (.of_eq (List.filter_congr fun e he => ?_))
    rw [Bool.eq_iff_iff, decide_eq_true_eq, h.mem_iff, List.mem_filter, and_iff_right he]
  refine (hstay.append_left _).trans (List.perm_append_comm.trans ?_)
  refine .trans (.of_eq ?_) (List.filter_append_perm (fun e => e ∈ es') es)
  simp only [decide_not]

theorem Simple.deleteNodes_destroys (h : Simple g) (ht : g.type = .diGraph) {l : List ℕ} (hl : g.nodes.elts = l)
    (hfirst : Run.Along graphStep (fun g op => op.FirstSlots g) g (deleteOps l)) :
    ∃ g', deleteNodes l.length g = some g' ∧ g'.edges.elts = [] ∧
      ∃ calls, g'.destroyed = g.destroyed ++ calls ∧ calls.Perm (g.edges.elts.filter GraphEdge.owned) := by
  induction l using List.reverseRecOn generalizing g with
  | nil =>
    have hnil : g.edges.elts = [] := by
      refine List.eq_nil_iff_forall_not_mem.mpr fun e he => ?_
      have hends := (h.good.ends (mult_pos.mpr ⟨e, he, rfl⟩)).1
      rw [hl] at hends
      exact List.not_mem_nil hends
    exact ⟨g, rfl, hnil, [], (List.append_nil _).symm, by rw [hnil]; exact .rfl⟩
  | append_singleton l a ih =>
    have ha : a ∈ g.nodes.elts := hl ▸ List.mem_append_right _ List.mem_cons_self
    rw [deleteOps, List.reverse_append] at hfirst
    obtain ⟨g₁, h₁, ⟨hsimple, ht₁⟩, calls, hcalls, hperm⟩ := h.destroys_deleteNode ht ha hfirst.1
    obtain ⟨n, hn⟩ := Option.isSome_iff_exists.mp ((h.good.live a).mp ha)
    obtain ⟨g', hg', hnil, calls', hcalls', hperm'⟩ := ih hsimple ht₁ (h.deleteNode_nodes ht hl h₁) (hfirst.2 g₁ h₁)
    refine ⟨g', ?_, hnil, calls ++ calls', by rw [hcalls', hcalls, List.append_assoc], ?_⟩
    · have hslot : g.nodes.slot l.length = some a := by rw [Vector.slot_eq, hl, List.getElem?_concat_length]
      rw [List.length_append, List.length_singleton, deleteNodes, hslot, h₁]
      exact hg'
    · refine (hperm.append hperm').trans ?_
      change ((g.edges.elts.filter fun e => e ∉ g₁.edges.elts).filter GraphEdge.owned ++ _).Perm _
      rw [← List.filter_append]
      exact (perm_append_of_filter (h.deleteNode hn h₁).1.edges).filter _

/-- In a run whose deletions all find their edge in the first slot, or nothing to destroy, every edge has its attribute
destroyed when it goes and only then; so it is when the graph is deleted. -/
theorem edge_attrs_destroyed {ops : List GraphOp}
    (hvalid : Run.Along graphStep (fun g op => op.Valid g) (graphNew .diGraph) ops)
    (hfirst : Run.Along graphStep (fun g op => op.FirstSlots g) (graphNew .diGraph) ops) :
    (∀ p op, p ++ [op] <+: ops → ∃ g g', Run.exec graphStep (graphNew .diGraph) p = some g ∧ graphStep g op = some g' ∧
      Destroys op g g') ∧
    ∃ g, Run.exec graphStep (graphNew .diGraph) ops = some g ∧
      (Run.Along graphStep (fun g op => op.FirstSlots g) g (deleteOps g.nodes.elts) →
        ∃ g', graphDelete g = some g' ∧ g'.edges.elts = [] ∧
          ∃ calls, g'.destroyed = g.destroyed ++ calls ∧ calls.Perm (g.edges.elts.filter GraphEdge.owned)) := by
  have hok := Run.along_and.mpr ⟨hvalid, hfirst⟩
  have hstep (g : Graph) (op : GraphOp) (h : Simple g ∧ g.type = .diGraph) (hop : op.Valid g ∧ op.FirstSlots g) :
      ∃ g', graphStep g op = some g' ∧ (Simple g' ∧ g'.type = .diGraph) ∧ Destroys op g g' := h.1.destroys h.2 hop.1 hop.2
  have hnew : Simple (graphNew .diGraph) ∧ (graphNew .diGraph).type = .diGraph := ⟨simple_graphNew (.inr rfl), rfl⟩
  refine ⟨fun p op hp => Run.steps_of_along _ hstep hnew hok hp, ?_⟩
  obtain ⟨g, hg, hsimple, ht⟩ := Run.exec_of_along (fun _ g => Simple g ∧ g.type = .diGraph)
    (fun _ g op h hop => (hstep g op h hop).imp fun _ hg' => ⟨hg'.1, hg'.2.1⟩) [] hnew hok
  refine ⟨g, hg, fun hall => ?_⟩
  obtain ⟨g', hg', hnil, hcalls⟩ := hsimple.deleteNodes_destroys ht rfl hall
  refine ⟨g', ?_, hnil, hcalls⟩
  have hactive : g'.edges.active = 0 := by rw [Vector.active_eq, hnil, List.length_nil]
  unfold graphDelete
  rw [g.nodes.active_eq, hg', Option.bind_eq_bind, Option.bind_some, hactive]
  rfl

instance decidableFirstSlot (g : Graph) (p : ℕ × ℕ) : Decidable (FirstSlot g p) := by
  unfold FirstSlot
  infer_instance

instance decidableFirstSlots (g : Graph) : ∀ op : GraphOp, Decidable (op.FirstSlots g)
  | .deleteEdge u w => inferInstanceAs (Decidable (FirstSlot g (u, w)))
  | .deleteNode (some node) =>
    match h : g.mem node with
    | none => isTrue fun n hn => by rw [h] at hn; cases hn
    | some n =>
      decidable_of_iff (Run.Along (fun g p => deleteEdge p g) FirstSlot g (directedCalls node n)) <| by
        simp [GraphOp.FirstSlots, AllFirst, h]
  | .deleteNode none | .addNode .. | .addEdge .. | .reverse => isTrue trivial

def firstEdge : List GraphOp :=
  [.addNode 0 false, .addNode 0 false, .addEdge 0 1 5 true, .addEdge 1 0 6 true, .deleteEdge 0 1]

theorem edge_attrs_destroyed_sample :
    (∀ p op, p ++ [op] <+: firstEdge →
      ∃ g g', Run.exec graphStep (graphNew .diGraph) p = some g ∧ graphStep g op = some g' ∧ Destroys op g g') ∧
    ∃ g g', Run.exec graphStep (graphNew .diGraph) firstEdge = some g ∧ graphDelete g = some g' ∧ g'.edges.elts = [] := by
  have hvalid : Run.Along graphStep (fun g op => op.Valid g) (graphNew .diGraph) firstEdge := by decide +kernel
  have hfirst : Run.Along graphStep (fun g op => op.FirstSlots g) (graphNew .diGraph) firstEdge := by decide +kernel
  have hdelete : ∀ g ∈ Run.exec graphStep (graphNew .diGraph) firstEdge,
      Run.Along graphStep (fun g op => op.FirstSlots g) g (deleteOps g.nodes.elts) := by decide +kernel
  obtain ⟨hsteps, g, hg, hall⟩ := edge_attrs_destroyed hvalid hfirst
  obtain ⟨g', hg', hnil, -⟩ := hall (hdelete g hg)
  exact ⟨hsteps, g, g', hg, hg', hnil⟩

def secondEdge : List GraphOp := [.addNode 0 false, .addNode 0 false, .addEdge 0 1 5 true, .addEdge 1 0 6 true]

/-- The edge in the first slot stays, and has its attribute destroyed. -/
theorem second_edge_destroys_first :
    Run.Along graphStep (fun g op => op.Valid g) (graphNew .diGraph) (secondEdge ++ [.deleteEdge 1 0]) ∧
      ∃ g g', Run.exec graphStep (graphNew .diGraph) secondEdge = some g ∧ graphStep g (.deleteEdge 1 0) = some g' ∧
        ⟨0, 1, 5, true⟩ ∈ g'.edges.elts ∧ g'.destroyed = [⟨0, 1, 5, true⟩] ∧ ¬Destroys (.deleteEdge 1 0) g g' := by
  have hrun : ∃ g ∈ Run.exec graphStep (graphNew .diGraph) secondEdge, ∃ g' ∈ graphStep g (.deleteEdge 1 0),
      g.destroyed = [] ∧ g'.edges.elts = [⟨0, 1, 5, true⟩] ∧ g'.destroyed = [⟨0, 1, 5, true⟩] := by decide +kernel
  obtain ⟨g, hg, g', hg', hnone, hedges, hcalled⟩ := hrun
  refine ⟨by decide +kernel, g, g', hg, hg', hedges ▸ List.mem_cons_self, hcalled, ?_⟩
  rintro ⟨calls, hcalls, hperm⟩
  rw [hcalled, hnone, List.nil_append] at hcalls
  have hmem : ⟨0, 1, 5, true⟩ ∈ (GraphOp.removed (.deleteEdge 1 0) g g').filter GraphEdge.owned :=
    hperm.subset (hcalls ▸ List.mem_cons_self)
  have hgone := (List.mem_filter.mp (List.mem_filter.mp hmem).1).2
  rw [decide_eq_true_eq, hedges] at hgone
  exact hgone List.mem_cons_self

end Yjc
