import Yjc.Container.Vector
import Mathlib.Logic.Function.Basic

/-! `container/graph.h`: nodes that know their neighbours, and the edges of the graph. -/

namespace Yjc

inductive GraphType
  | graph
  | diGraph
  | multiGraph
  | multiDiGraph
deriving DecidableEq

/-- `data` is 0 for a null pointer, and `del` says whether there is a deletion callback. -/
structure GraphNode where
  from_ : Vector ℕ
  to_ : Vector ℕ
  id : ℕ
  data : ℕ
  del : Bool

structure GraphEdge where
  from_ : ℕ
  to_ : ℕ
  attr : ℕ
  del : Bool
deriving DecidableEq

/-- A call of a deletion callback, with the data of a node or with the attribute of an edge. -/
inductive GraphCall
  | node (data : ℕ)
  | edge (e : GraphEdge)
deriving DecidableEq

/-- `mem` has the nodes at their addresses and `called` the calls of the deletion callbacks, which do not use the
graph. -/
structure Graph where
  maxId : ℕ
  type : GraphType
  nodes : Vector ℕ
  edges : Vector GraphEdge
  mem : ℕ → Option GraphNode
  next : ℕ
  called : List GraphCall

namespace Vector

/-- The loop that goes down from `i` and removes the first `x` that it comes to. -/
def dropLoop (x : ℕ) : ℕ → Vector ℕ → Vector ℕ
  | 0, v => v
  | i + 1, v => if v.slot i = some x then v.remove i else dropLoop x i v

def dropOne (x : ℕ) (v : Vector ℕ) : Vector ℕ := dropLoop x v.active v

end Vector

def GraphEdge.pair (e : GraphEdge) : ℕ × ℕ := (e.from_, e.to_)

def vectorMinSize : ℕ := 1

def graphNew (t : GraphType) : Graph := ⟨0, t, .init vectorMinSize, .init vectorMinSize, fun _ => none, 0, []⟩

def graphAddNode (data : ℕ) (del : Bool) (g : Graph) : Graph :=
  { g with
    maxId := g.maxId + 1
    nodes := g.nodes.set g.next
    mem := Function.update g.mem g.next (some ⟨.init vectorMinSize, .init vectorMinSize, g.maxId, data, del⟩)
    next := g.next + 1 }

namespace Graph

/-- `none`: the node is not there any more. -/
def modifyNode (g : Graph) (a : ℕ) (f : GraphNode → GraphNode) : Option Graph :=
  (g.mem a).map fun n => { g with mem := Function.update g.mem a (some (f n)) }

/-- The loops of `graph_has_edge` and `graph_find_edge`. -/
def findLoop (edges : Vector GraphEdge) (p : ℕ × ℕ) : ℕ → Option GraphEdge
  | 0 => none
  | i + 1 =>
    match edges.slot i with
    | some e => if e.pair = p then some e else findLoop edges p i
    | none => none

end Graph

def graphHasEdge (g : Graph) (u w : ℕ) : Bool := (Graph.findLoop g.edges (u, w) g.edges.active).isSome

def graphFindEdge (g : Graph) (u w : ℕ) : Option GraphEdge := Graph.findLoop g.edges (u, w) g.edges.active

/-! ## Adding an edge -/

/-- `_graph_add_edge`. -/
def addEdge (e : GraphEdge) (g : Graph) : Option Graph := do
  let g := { g with edges := g.edges.set e }
  let g ← g.modifyNode e.from_ fun n => { n with to_ := n.to_.set e.to_ }
  g.modifyNode e.to_ fun n => { n with from_ := n.from_.set e.from_ }

/-- With the edge that the caller returns. -/
def addAlways (e : GraphEdge) (r : Graph × Option GraphEdge) : Option (Graph × Option GraphEdge) :=
  (addEdge e r.1).map fun g => (g, some e)

def addNew (e : GraphEdge) (r : Graph × Option GraphEdge) : Option (Graph × Option GraphEdge) :=
  if graphHasEdge r.1 e.from_ e.to_ then some r else addAlways e r

def graphAddEdge (u w attr : ℕ) (del : Bool) (g : Graph) : Option (Graph × Option GraphEdge) :=
  if u ∈ g.nodes.elts ∧ w ∈ g.nodes.elts then
    let e : GraphEdge := ⟨u, w, attr, del⟩
    let e' : GraphEdge := ⟨w, u, attr, del⟩
    match g.type with
    | .graph => (addNew e (g, none)).bind (addNew e')
    | .diGraph => addNew e (g, none)
    | .multiGraph => (addAlways e (g, none)).bind (addAlways e')
    | .multiDiGraph => addAlways e (g, none)
  else some (g, none)

/-! ## Deleting an edge -/

/-- The loop over the edges, with the variable `e`. -/
def dropEdges (p : ℕ × ℕ) : ℕ → Vector GraphEdge → Option GraphEdge → Option (Vector GraphEdge × Option GraphEdge)
  | 0, edges, e => some (edges, e)
  | i + 1, edges, _ => do
    let e ← edges.slot i
    dropEdges p i (if e.pair = p then edges.remove i else edges) (some e)

/-- `_graph_delete_edge`; `none` where it follows a pointer that is null, freed or, as `e` when there is no edge, not
set. -/
def deleteEdge (p : ℕ × ℕ) (g : Graph) : Option Graph := do
  let r ← dropEdges p g.edges.active g.edges none
  let g := { g with edges := r.1 }
  let g ← g.modifyNode p.2 fun n => { n with from_ := n.from_.dropOne p.1 }
  let g ← g.modifyNode p.1 fun n => { n with to_ := n.to_.dropOne p.2 }
  let e ← r.2
  some (if e.del ∧ e.attr ≠ 0 then { g with called := g.called ++ [.edge e] } else g)

def graphDeleteEdge (u w : ℕ) (g : Graph) : Option Graph :=
  match g.type with
  | .graph | .multiGraph => (deleteEdge (u, w) g).bind (deleteEdge (w, u))
  | .diGraph | .multiDiGraph => deleteEdge (u, w) g

/-! ## Deleting a node -/

/-- The two loops of `graph_delete_node`: over the edges to a node and over those from it. -/
inductive Side
  | in_
  | out
deriving DecidableEq

namespace Side

def list : Side → GraphNode → Vector ℕ
  | .in_, n => n.from_
  | .out, n => n.to_

/-- The edge between the node and `adj`. -/
def pair : Side → ℕ → ℕ → ℕ × ℕ
  | .in_, node, adj => (adj, node)
  | .out, node, adj => (node, adj)

end Side

def deleteEdges (side : Side) (node : ℕ) : ℕ → Graph → Option Graph
  | 0, g => some g
  | i + 1, g => do
    let n ← g.mem node
    let adj ← (side.list n).slot i
    let g ← graphDeleteEdge (side.pair node adj).1 (side.pair node adj).2 g
    deleteEdges side node i g

/-- The loop with its first value of `i`. -/
def deleteSide (side : Side) (node : ℕ) (g : Graph) : Option Graph := do
  let n ← g.mem node
  deleteEdges side node (side.list n).active g

/-- What `graph_delete_node` does when the edges are gone. -/
def freeNode (node : ℕ) (g : Graph) : Option Graph :=
  (g.mem node).map fun n =>
    { g with
      called := if n.del ∧ n.data ≠ 0 then g.called ++ [.node n.data] else g.called
      nodes := g.nodes.dropOne node
      mem := Function.update g.mem node none }

def graphDeleteNode (node : Option ℕ) (g : Graph) : Option Graph :=
  match node with
  | none => some g
  | some node => do
    let g ← deleteSide .in_ node g
    let g ← deleteSide .out node g
    freeNode node g

/-! ## Reversing -/

def GraphNode.swap (n : GraphNode) : GraphNode := { n with from_ := n.to_, to_ := n.from_ }

def GraphEdge.swap (e : GraphEdge) : GraphEdge := { e with from_ := e.to_, to_ := e.from_ }

def swapNodes (nodes : Vector ℕ) : ℕ → (ℕ → Option GraphNode) → Option (ℕ → Option GraphNode)
  | 0, mem => some mem
  | i + 1, mem => do
    let a ← nodes.slot i
    let n ← mem a
    swapNodes nodes i (Function.update mem a (some n.swap))

/-- `graph_reverse` without a copy. -/
def graphReverse (g : Graph) : Option Graph :=
  match g.type with
  | .graph | .multiGraph => some g
  | .diGraph | .multiDiGraph =>
    (swapNodes g.nodes g.nodes.active g.mem).map fun mem => { g with mem := mem, edges := g.edges.map GraphEdge.swap }

/-! ## Sequences of operations -/

inductive GraphOp
  | addNode (data : ℕ) (del : Bool)
  | addEdge (u w attr : ℕ) (del : Bool)
  | deleteEdge (u w : ℕ)
  | deleteNode (node : Option ℕ)
  | reverse
deriving DecidableEq

def graphStep (g : Graph) : GraphOp → Option Graph
  | .addNode data del => some (graphAddNode data del g)
  | .addEdge u w attr del => (graphAddEdge u w attr del g).map Prod.fst
  | .deleteEdge u w => graphDeleteEdge u w g
  | .deleteNode node => graphDeleteNode node g
  | .reverse => graphReverse g

end Yjc
