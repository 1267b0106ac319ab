import Yjc.Container.GraphOps

/-! The edges that `graph_delete_node` deletes, in their order, and when it comes to its end. -/

namespace Yjc
open Yjc.Graph
variable {g g' : Graph} {p : ℕ × ℕ} {node : ℕ} {n : GraphNode}

theorem count_le_count_flatMap {α β : Type*} [BEq α] [LawfulBEq α] [BEq β] [LawfulBEq β] {f : α → List β} {a : α} {b : β}
    (h : b ∈ f a) (l : List α) : l.count a ≤ (l.flatMap f).count b := by
  induction l with
  | nil => exact Nat.le_refl 0
  | cons x l ih =>
    rw [List.count_cons, List.flatMap_cons, List.count_append]
    split_ifs with hx
    · have hpos := List.count_pos_iff.mpr (beq_iff_eq.mp hx ▸ h)
      omega
    · omega

theorem deleteSide_eq (side : Side) (hn : g.mem node = some n) :
    deleteSide side node g = deleteEdges side node (side.list n).elts.length g := by
  rw [deleteSide, hn, ← Vector.active_eq]
  rfl

/-! ## Directed types -/

/-- The list `to` when the self-loops are gone from it, in the order that is left. -/
def GraphNode.others (node : ℕ) (n : GraphNode) : List ℕ :=
  ((Vector.dropOne node)^[n.from_.elts.count node] n.to_).elts

def directedCalls (node : ℕ) (n : GraphNode) : List (ℕ × ℕ) :=
  n.from_.elts.reverse.map (Side.in_.pair node) ++ (n.others node).reverse.map (Side.out.pair node)

theorem cuts_to (l : List ℕ) (n : GraphNode) :
    (n.cuts (l.map (Side.in_.pair node)) node).to_ = (Vector.dropOne node)^[l.count node] n.to_ := by
  induction l generalizing n with
  | nil => rfl
  | cons a l ih =>
    change ((n.cut (a, node) node).cuts (l.map (Side.in_.pair node)) node).to_ = _
    rw [ih, List.count_cons]
    change (Vector.dropOne node)^[l.count node] (if node = a then n.to_.dropOne node else n.to_) = _
    rcases eq_or_ne node a with rfl | ha
    · rw [if_pos rfl, if_pos (beq_self_eq_true node), Function.iterate_succ_apply]
    · rw [if_neg ha, if_neg (by simpa using ha.symm), Nat.add_zero]

theorem count_dropOne_iterate (x y k : ℕ) (v : Vector ℕ) :
    ((Vector.dropOne x)^[k] v).elts.count y = v.elts.count y - if x = y then k else 0 := by
  induction k generalizing v with
  | zero =>
    rw [ite_self]
    rfl
  | succ k ih =>
    rw [Function.iterate_succ_apply, ih, Vector.count_dropOne]
    split_ifs <;> omega

theorem Graph.Good.count_others (hg : g.Good) (hn : g.mem node = some n) (b : ℕ) :
    (n.others node).count b = if node = b then 0 else g.mult (node, b) := by
  rw [GraphNode.others, count_dropOne_iterate, hg.count_to hn, hg.count_from hn]
  rcases eq_or_ne node b with rfl | hb
  · rw [if_pos rfl, if_pos rfl, Nat.sub_self]
  · rw [if_neg hb, if_neg hb, Nat.sub_zero]

theorem Graph.Good.mem_others (hg : g.Good) (hn : g.mem node = some n) {b : ℕ} :
    b ∈ n.others node ↔ b ≠ node ∧ 0 < g.mult (node, b) := by
  rw [← List.count_pos_iff, hg.count_others hn]
  rcases eq_or_ne node b with rfl | hb
  · rw [if_pos rfl]
    exact iff_of_false (Nat.lt_irrefl 0) fun hc => hc.1 rfl
  · rw [if_neg hb]
    exact (and_iff_right hb.symm).symm

theorem Graph.Good.mem_from (hg : g.Good) (hn : g.mem node = some n) {a : ℕ} :
    a ∈ n.from_.elts ↔ 0 < g.mult (a, node) := by
  rw [← List.count_pos_iff, hg.count_from hn]

theorem Graph.Good.mem_directedCalls (hg : g.Good) (hn : g.mem node = some n) :
    p ∈ directedCalls node n ↔ touches node p = true ∧ 0 < g.mult p := by
  obtain ⟨u, w⟩ := p
  rw [directedCalls, List.mem_append, List.mem_map, List.mem_map, touches_iff]
  simp only [List.mem_reverse, hg.mem_from hn, hg.mem_others hn]
  constructor
  · rintro (⟨a, hpos, heq⟩ | ⟨b, ⟨-, hpos⟩, heq⟩)
    · cases heq
      exact ⟨.inr rfl, hpos⟩
    · cases heq
      exact ⟨.inl rfl, hpos⟩
  · rintro ⟨hends, hpos⟩
    by_cases hw : w = node
    · subst hw
      exact .inl ⟨u, hpos, rfl⟩
    · obtain rfl : u = node := hends.resolve_right hw
      exact .inr ⟨w, ⟨hw, hpos⟩, rfl⟩

theorem nodeCalls_directed (hg : g.Good) (ht : g.type.directed = true) (hn : g.mem node = some n) :
    NodeCalls node (directedCalls node n) g := by
  refine ⟨?_, fun p hp => ((hg.mem_directedCalls hn).mp hp).1, fun p hp => ((hg.mem_directedCalls hn).mp hp).2,
    fun p h₁ h₂ => (hg.mem_directedCalls hn).mpr ⟨h₁, h₂⟩, fun p hp => ?_⟩
  · change (deleteSide .in_ node g).bind (fun g => (deleteSide .out node g).bind (freeNode node)) = _
    rw [deleteSide_eq .in_ hn, deleteEdges_directed .in_ ht hn, directedCalls, deleteAll_append, Option.bind_assoc]
    refine Option.bind_congr fun g₁ h₁ => ?_
    have ht₁ : g₁.type.directed = true := by rw [(deleteAll_cuts h₁).type, ht]
    have hn₁ := deleteAll_mem h₁ hn
    rw [deleteSide_eq .out hn₁, deleteEdges_directed .out ht₁ hn₁]
    change (deleteAll (Vector.elts (GraphNode.cuts _ node n).to_ |>.reverse.map (Side.out.pair node)) g₁).bind _ = _
    rw [show Side.in_.list n = n.from_ from rfl, cuts_to, List.count_reverse]
    rfl
  · obtain ⟨u, w⟩ := p
    obtain ⟨htouch, hpos⟩ := (hg.mem_directedCalls hn).mp hp
    rw [directedCalls, List.count_append]
    by_cases hw : w = node
    · subst hw
      have hle : n.from_.elts.reverse.count u ≤ (n.from_.elts.reverse.map (Side.in_.pair w)).count (u, w) :=
        List.count_le_count_map (f := Side.in_.pair w)
      rw [List.count_reverse, hg.count_from hn] at hle
      exact Nat.le_trans hle (Nat.le_add_right _ _)
    · obtain rfl : u = node := (touches_iff.mp htouch).resolve_right hw
      have hle : (n.others u).reverse.count w ≤ ((n.others u).reverse.map (Side.out.pair u)).count (u, w) :=
        List.count_le_count_map (f := Side.out.pair u)
      rw [List.count_reverse, hg.count_others hn, if_neg fun hc => hw hc.symm] at hle
      exact Nat.le_trans hle (Nat.le_add_left _ _)

/-- The last edge that is deleted at a node of a directed type is deleted before, too. -/
def GraphNode.repeated (node : ℕ) (n : GraphNode) : Bool :=
  match n.others node, n.from_.elts with
  | b :: bs, _ => decide (b ∈ bs)
  | [], a :: as => decide (a ∈ as)
  | [], [] => false

theorem deleteNode_isSome_directed (hg : g.Good) (ht : g.type.directed = true) (hn : g.mem node = some n) :
    (graphDeleteNode (some node) g).isSome ↔
      n.repeated node = false ∨ ∃ e ∈ g.edges.elts, touches node e.pair = false := by
  have hcalls := nodeCalls_directed hg ht hn
  unfold GraphNode.repeated
  cases ho : n.others node with
  | cons b bs =>
    have hb : b ≠ node := ((hg.mem_others hn).mp (by rw [ho]; exact List.mem_cons_self)).1
    have heq : directedCalls node n = (n.from_.elts.reverse.map (Side.in_.pair node) ++
        bs.reverse.map (Side.out.pair node)) ++ [(node, b)] := by
      rw [directedCalls, ho, List.reverse_cons, List.map_append, List.append_assoc]
      rfl
    rw [heq] at hcalls
    rw [hcalls.isSome_concat hg hn, List.mem_append, List.mem_map, List.mem_map, decide_eq_false_iff_not]
    refine or_congr_left (not_congr ?_)
    constructor
    · rintro (⟨a, -, heq⟩ | ⟨c, hc, heq⟩)
      · exact absurd (congrArg Prod.snd heq).symm hb
      · cases heq
        exact List.mem_reverse.mp hc
    · intro hc
      exact .inr ⟨b, List.mem_reverse.mpr hc, rfl⟩
  | nil =>
    cases hf : n.from_.elts with
    | nil =>
      have heq : directedCalls node n = [] := by
        rw [directedCalls, ho, hf]
        rfl
      rw [heq] at hcalls
      rw [hcalls.isSome hg hn]
      exact iff_of_true (.inl rfl) (.inl rfl)
    | cons a as =>
      have heq : directedCalls node n = as.reverse.map (Side.in_.pair node) ++ [(a, node)] := by
        rw [directedCalls, ho, hf, List.reverse_cons, List.map_append, List.reverse_nil, List.map_nil, List.append_nil]
        rfl
      rw [heq] at hcalls
      rw [hcalls.isSome_concat hg hn, List.mem_map, decide_eq_false_iff_not]
      refine or_congr_left (not_congr ?_)
      constructor
      · rintro ⟨c, hc, heq⟩
        cases heq
        exact List.mem_reverse.mp hc
      · intro hc
        exact ⟨a, List.mem_reverse.mpr hc, rfl⟩

/-! ## Undirected types -/

def undirectedCalls (node : ℕ) (n : GraphNode) : List (ℕ × ℕ) :=
  n.from_.elts.reverse.flatMap fun a => [(a, node), (node, a)]

theorem mem_undirectedCalls {l : List ℕ} {u w : ℕ} :
    (u, w) ∈ l.flatMap (fun a => [(a, node), (node, a)]) ↔ w = node ∧ u ∈ l ∨ u = node ∧ w ∈ l := by
  rw [List.mem_flatMap]
  constructor
  · rintro ⟨a, ha, hp⟩
    rcases List.mem_cons.mp hp with heq | hp
    · cases heq
      exact .inl ⟨rfl, ha⟩
    · cases List.mem_singleton.mp hp
      exact .inr ⟨rfl, ha⟩
  · rintro (⟨rfl, hu⟩ | ⟨rfl, hw⟩)
    · exact ⟨u, hu, List.mem_cons_self⟩
    · exact ⟨w, hw, List.mem_cons_of_mem _ (List.mem_singleton_self _)⟩

variable (hsymm : ∀ u w, g.mult (u, w) = g.mult (w, u))

include hsymm

theorem Graph.Good.count_undirectedCalls (hg : g.Good) (hn : g.mem node = some n) {u w : ℕ}
    (h : touches node (u, w) = true) : g.mult (u, w) ≤ (undirectedCalls node n).count (u, w) := by
  rcases touches_iff.mp h with hu | hw
  · obtain rfl : u = node := hu
    rw [hsymm, ← hg.count_from hn, ← List.count_reverse]
    exact count_le_count_flatMap (f := fun a => [(a, u), (u, a)]) (List.mem_cons_of_mem _ (List.mem_singleton_self _)) _
  · obtain rfl : w = node := hw
    rw [← hg.count_from hn, ← List.count_reverse]
    exact count_le_count_flatMap (f := fun a => [(a, w), (w, a)]) List.mem_cons_self _

theorem nodeCalls_undirected (hg : g.Good) (ht : g.type.directed = false) (hn : g.mem node = some n)
    (hself : g.mult (node, node) ≤ 1) : NodeCalls node (undirectedCalls node n) g := by
  have hmem : ∀ u w, (u, w) ∈ undirectedCalls node n ↔
      w = node ∧ 0 < g.mult (u, node) ∨ u = node ∧ 0 < g.mult (node, w) := by
    intro u w
    rw [undirectedCalls, mem_undirectedCalls, List.mem_reverse, List.mem_reverse, hg.mem_from hn, hg.mem_from hn,
      hsymm node w]
  refine ⟨?_, ?_, ?_, ?_, ?_⟩
  · change (deleteSide .in_ node g).bind (fun g => (deleteSide .out node g).bind (freeNode node)) = _
    rw [deleteSide_eq .in_ hn]
    change (deleteEdges .in_ node n.from_.elts.length g).bind _ = _
    rw [deleteEdges_undirected ht hn (by rw [hg.count_from hn]; exact hself)]
    refine Option.bind_congr fun g₁ h₁ => ?_
    have hn₁ := deleteAll_mem h₁ hn
    -- every entry of the other list is gone as well
    have hempty : ((n.cuts (undirectedCalls node n) node).to_).elts = [] := by
      apply List.eq_nil_iff_forall_not_mem.mpr
      intro b hb
      have hout := (deleteAll_cuts h₁).outMult (node, b)
      rw [outMult, hn₁, (hg.consistent _).1] at hout
      have hle := hg.count_undirectedCalls hsymm hn (u := node) (w := b) (touches_iff.mpr (.inl rfl))
      have hpos := List.count_pos_iff.mpr hb
      change List.count b _ = g.mult (node, b) - (undirectedCalls node n).count (node, b) at hout
      change 0 < List.count b ((n.cuts (undirectedCalls node n) node).to_).elts at hpos
      rw [Nat.sub_eq_zero_of_le hle] at hout
      exact absurd hout (Nat.ne_of_gt hpos)
    rw [deleteSide_eq .out hn₁]
    change (deleteEdges .out node ((n.cuts (undirectedCalls node n) node).to_).elts.length g₁).bind _ = _
    rw [hempty]
    rfl
  · rintro ⟨u, w⟩ hp
    rcases (hmem u w).mp hp with ⟨hw, -⟩ | ⟨hu, -⟩
    · exact touches_iff.mpr (.inr hw)
    · exact touches_iff.mpr (.inl hu)
  · rintro ⟨u, w⟩ hp
    rcases (hmem u w).mp hp with ⟨rfl, hpos⟩ | ⟨rfl, hpos⟩ <;> exact hpos
  · rintro ⟨u, w⟩ htouch hpos
    rcases touches_iff.mp htouch with hu | hw
    · obtain rfl : u = node := hu
      exact (hmem u w).mpr (.inr ⟨rfl, hpos⟩)
    · obtain rfl : w = node := hw
      exact (hmem u w).mpr (.inl ⟨rfl, hpos⟩)
  · rintro ⟨u, w⟩ hp
    refine hg.count_undirectedCalls hsymm hn ?_
    rcases (hmem u w).mp hp with ⟨hw, -⟩ | ⟨hu, -⟩
    · exact touches_iff.mpr (.inr hw)
    · exact touches_iff.mpr (.inl hu)

theorem deleteNode_isSome_undirected (hg : g.Good) (ht : g.type.directed = false) (hn : g.mem node = some n)
    (hself : g.mult (node, node) ≤ 1) :
    (graphDeleteNode (some node) g).isSome ↔
      (∀ a as, n.from_.elts = a :: as → a ≠ node ∧ a ∉ as) ∨ ∃ e ∈ g.edges.elts, touches node e.pair = false := by
  have hcalls := nodeCalls_undirected hsymm hg ht hn hself
  cases hf : n.from_.elts with
  | nil =>
    have heq : undirectedCalls node n = [] := by
      rw [undirectedCalls, hf]
      rfl
    rw [heq] at hcalls
    rw [hcalls.isSome hg hn]
    exact iff_of_true (.inl rfl) (.inl fun a as hc => (by cases hc))
  | cons a as =>
    have heq : undirectedCalls node n =
        (as.reverse.flatMap (fun a => [(a, node), (node, a)]) ++ [(a, node)]) ++ [(node, a)] := by
      rw [undirectedCalls, hf, List.reverse_cons, List.flatMap_append, List.append_assoc]
      rfl
    rw [heq] at hcalls
    rw [hcalls.isSome_concat hg hn, List.mem_append, mem_undirectedCalls, List.mem_singleton, List.mem_reverse,
      List.mem_reverse]
    refine or_congr_left ?_
    constructor
    · intro h b bs hcons
      cases hcons
      refine ⟨fun hb => h (.inr ?_), fun hb => h (.inl (.inr ⟨rfl, hb⟩))⟩
      rw [hb]
    · rintro h ((⟨hb, -⟩ | ⟨-, hb⟩) | hb)
      · exact (h a as rfl).1 hb
      · exact (h a as rfl).2 hb
      · exact (h a as rfl).1 (congrArg Prod.snd hb)

end Yjc
