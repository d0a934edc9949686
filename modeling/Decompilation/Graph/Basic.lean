import Decompilation.Error

/-!
# Keyed directed graphs

A `Digraph` holds nodes named by caller-chosen keys (block addresses, or names) in numbered
slots. Slot numbers are handed out in order of insertion and never reused: deleting a node
only marks its slot as removed, so the numbers of the other nodes stay valid. An index maps
the key of every live node to its slot; lookups and the count of nodes go through it. Each
node lists its successors and predecessors in the order the edges were added; parallel edges
and self-loops are allowed, and every insertion counts as an edge of its own.

* `Digraph.addNode`, `addEdge`, `delEdge`, `splitEdge`, `delNode`, `setRoot`, `reversed`:
  the edits, each failing without change when a key is missing or already present;
* `Digraph.find?`, `succs`, `preds`, `keys`, `nodeIds`: the views.
-/

namespace Decompilation

/-- A node slot: its key, the slots of its predecessors and successors in edge insertion
    order, and whether the node was deleted. -/
structure Vertex (K : Type) where
  key : K
  preds : List Nat := []
  succs : List Nat := []
  removed : Bool := false
  deriving Repr

/-- A directed graph over keys of type `K`: its slots, the index from the keys of the live
    nodes to their slots, an optional root and a count of edges. -/
structure Digraph (K : Type) where
  slots : Array (Vertex K) := #[]
  index : List (K × Nat) := []
  root : Option Nat := none
  edgeCount : Nat := 0
  deriving Repr

namespace Digraph

variable {K : Type} [DecidableEq K]

/-- The graph without nodes. -/
def empty : Digraph K := {}

/-- One past the largest slot number ever handed out. -/
def bound (g : Digraph K) : Nat := g.slots.size

/-- The live node in slot `i`, if there is one. -/
def vertex? (g : Digraph K) (i : Nat) : Option (Vertex K) :=
  match g.slots[i]? with
  | some v => if v.removed then none else some v
  | none => none

/-- The key stored in slot `i`, whether or not its node was deleted. -/
def keyAt? (g : Digraph K) (i : Nat) : Option K := (g.slots[i]?).map Vertex.key

/-- The key of the live node in slot `i`. -/
def key? (g : Digraph K) (i : Nat) : Option K := (g.vertex? i).map Vertex.key

/-- The slot of the live node with key `k`, as the index records it. -/
def find? (g : Digraph K) (k : K) : Option Nat := g.index.lookup k

/-- Whether a live node has key `k`. -/
def contains (g : Digraph K) (k : K) : Bool := (g.find? k).isSome

/-- The slots of the live nodes, in increasing order. -/
def nodeIds (g : Digraph K) : List Nat :=
  (List.range g.bound).filter fun i => (g.vertex? i).isSome

/-- The number of live nodes: the entries of the index. -/
def nodeCount (g : Digraph K) : Nat := g.index.length

/-- Whether the graph has no live node. -/
def isEmpty (g : Digraph K) : Bool := g.nodeCount == 0

/-- The keys of the live nodes, in insertion order. -/
def keys (g : Digraph K) : List K := g.nodeIds.filterMap g.key?

/-- The successors of a live node, one entry per edge; nothing for a deleted slot. -/
def succs (g : Digraph K) (i : Nat) : List Nat := ((g.vertex? i).map Vertex.succs).getD []

/-- The predecessors of a live node, one entry per edge; nothing for a deleted slot. -/
def preds (g : Digraph K) (i : Nat) : List Nat := ((g.vertex? i).map Vertex.preds).getD []

/-- The number of edges leaving a node, `0` for a deleted or unknown slot. -/
def outDegree (g : Digraph K) (i : Nat) : Nat := (g.succs i).length

/-- The number of edges entering a node, `0` for a deleted or unknown slot. -/
def inDegree (g : Digraph K) (i : Nat) : Nat := (g.preds i).length

/-- The key of the root, if the graph has one. -/
def rootKey? (g : Digraph K) : Option K := g.root.bind g.key?

/-- The slot of the live node with key `k`, or the error that names the `role` the key was
    given for and the number of live nodes. -/
def require (g : Digraph K) (k : K) (role : String) : Except Error Nat :=
  match g.find? k with
  | some i => .ok i
  | none => .error (.graph (role ++ s!" node does not exist in graph with {g.nodeCount} nodes"))

/-- Applies `f` to the slot `i`. -/
def modifySlot (g : Digraph K) (i : Nat) (f : Vertex K → Vertex K) : Digraph K :=
  { g with slots := g.slots.modify i f }

/-- Adds a node with a fresh key and returns its slot. -/
def addNode (g : Digraph K) (k : K) : Except Error (Nat × Digraph K) :=
  if g.contains k then
    .error (.graph s!"duplicate node key in graph with {g.nodeCount} nodes")
  else
    .ok (g.bound, { g with slots := g.slots.push { key := k }, index := (k, g.bound) :: g.index })

/-- Makes the node with key `k` the root. -/
def setRoot (g : Digraph K) (k : K) : Except Error (Nat × Digraph K) := do
  let i ← g.require k "root"
  pure (i, { g with root := some i })

/-- Adds the edge between two slots. -/
def link (g : Digraph K) (s d : Nat) : Digraph K :=
  let g := g.modifySlot s fun v => { v with succs := v.succs ++ [d] }
  let g := g.modifySlot d fun v => { v with preds := v.preds ++ [s] }
  { g with edgeCount := g.edgeCount + 1 }

/-- Removes one edge between two slots: the first such entry of the source's successors and
    of the target's predecessors. Nothing changes, and the answer is `none`, when there is no
    such edge. -/
def unlink (g : Digraph K) (s d : Nat) : Option (Digraph K) :=
  if d ∈ g.succs s then
    let g := g.modifySlot s fun v => { v with succs := v.succs.erase d }
    let g := g.modifySlot d fun v => { v with preds := v.preds.erase s }
    some { g with edgeCount := g.edgeCount - 1 }
  else
    none

/-- Adds an edge between the nodes with the given keys; the source is looked up first. -/
def addEdge (g : Digraph K) (src dst : K) : Except Error (Digraph K) := do
  let s ← g.require src "source"
  let d ← g.require dst "target"
  pure (g.link s d)

/-- Removes one edge between the nodes with the given keys, reporting whether there was one. -/
def delEdge (g : Digraph K) (src dst : K) : Except Error (Bool × Digraph K) := do
  let s ← g.require src "source"
  let d ← g.require dst "target"
  match g.unlink s d with
  | some g' => pure (true, g')
  | none => pure (false, g)

/-- Puts a new node with key `k` on an edge: the edge is replaced by one into the new node
    and one out of it. Returns the new node's slot. -/
def splitEdge (g : Digraph K) (src dst k : K) : Except Error (Nat × Digraph K) := do
  if g.contains k then
    throw (.graph "split key already exists in graph")
  let (removed, g) ← g.delEdge src dst
  if !removed then
    throw (.graph "cannot split a missing edge")
  let (mid, g) ← g.addNode k
  let g ← g.addEdge src k
  let g ← g.addEdge k dst
  pure (mid, g)

/-- Deletes the node with key `k` and every edge at it, reporting whether there was one. The
    edges leaving it are dropped first; a self-loop then no longer shows among the edges
    entering it. The key leaves the index, and the root is cleared if it was this node. -/
def delNode (g : Digraph K) (k : K) : Bool × Digraph K :=
  match g.find? k with
  | none => (false, g)
  | some i =>
    let out := g.succs i
    let g := g.modifySlot i fun v => { v with succs := [] }
    let g := out.foldl (fun g s =>
      let g := g.modifySlot s fun v => { v with preds := v.preds.erase i }
      { g with edgeCount := g.edgeCount - 1 }) g
    let inc := g.preds i
    let g := g.modifySlot i fun v => { v with preds := [] }
    let g := inc.foldl (fun g p =>
      if p = i then g
      else
        let g := g.modifySlot p fun v => { v with succs := v.succs.erase i }
        { g with edgeCount := g.edgeCount - 1 }) g
    let g := g.modifySlot i fun v => { v with removed := true }
    (true, { g with index := g.index.filter fun e => e.1 ≠ k
                    root := if g.root = some i then none else g.root })

/-- The graph with every edge turned around and the node with key `k` as its root; slots,
    keys and the edge count stay. -/
def reversed (g : Digraph K) (k : K) : Except Error (Digraph K) := do
  let r ← g.require k "root"
  pure { slots := g.slots.map fun v => { v with preds := v.succs, succs := v.preds }
         index := g.index
         root := some r
         edgeCount := g.edgeCount }

/-- The keys of the successors of the node with key `k`. -/
def succKeys (g : Digraph K) (k : K) : Except Error (List K) := do
  let i ← g.require k "query"
  pure ((g.succs i).filterMap g.keyAt?)

/-- The keys of the predecessors of the node with key `k`. -/
def predKeys (g : Digraph K) (k : K) : Except Error (List K) := do
  let i ← g.require k "query"
  pure ((g.preds i).filterMap g.keyAt?)

end Digraph

end Decompilation
