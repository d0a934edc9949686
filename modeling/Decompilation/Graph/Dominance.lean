import Decompilation.Graph.LengauerTarjan

/-!
# Dominators

A node `v` *dominates* a node `u` of a rooted graph when every path from the root to `u`
passes through `v`. The *immediate dominator* of a reachable node other than the root is the
strict dominator of it that every other strict dominator dominates; linking every node to its
immediate dominator gives the dominator tree. The immediate dominators come from the
Lengauer-Tarjan construction over the depth-first spanning tree.

* `DominatorTree.compute`: the tree of a rooted graph;
* `DominatorTree.dominates`: the walk up the tree;
* `DominatorTree.dominanceFrontier`: the dominance frontier of a node, the nodes where its
  dominance ends: successors of nodes it dominates that it does not strictly dominate. It is
  assembled from the node's own successors and its children's frontiers, bottom-up over the
  subtree, and every frontier found is remembered in the tree for later queries;
* `DominatorTree.queryFrontiers`: a sequence of such queries, each on the tree the ones before
  left.
-/

namespace Decompilation

variable {K : Type} [DecidableEq K]

/-- The dominator tree of a rooted graph: the depth-first search it is built over, the
    immediate dominator and the dominator-tree children (in dfnum order) of every slot, the
    successor lists of the graph, which the frontiers are read from, and the frontiers found so
    far (each kept in increasing order, and never forgotten). -/
structure DominatorTree where
  spanning : SpanningTree
  idoms : Array (Option Nat)
  kids : Array (List Nat)
  succLists : Array (List Nat)
  frontiers : Array (Option (List Nat))
  deriving Repr

/-- Adds `w` to a list kept in increasing order without repeats, a set of nodes listed in
    order; a member already there is not added again. -/
def insertOrdered (w : Nat) : List Nat → List Nat
  | [] => [w]
  | x :: xs => if w < x then w :: x :: xs else if w = x then x :: xs else x :: insertOrdered w xs

/-- Adds to an ordered set the members of `l` that `keep` admits. -/
def insertWhere (keep : Nat → Bool) (l acc : List Nat) : List Nat :=
  l.foldl (fun acc x => if keep x then insertOrdered x acc else acc) acc

namespace DominatorTree

/-- The root of the graph, where the search started. -/
def root (t : DominatorTree) : Nat := t.spanning.root

/-- Whether the node is reachable from the root. -/
def isReachable (t : DominatorTree) (i : Nat) : Bool := t.spanning.contains i

/-- The immediate dominator of a node; none for the root and for unreachable nodes. -/
def idom? (t : DominatorTree) (i : Nat) : Option Nat := (t.idoms[i]?).getD none

/-- The nodes whose immediate dominator is `i`, in dfnum order. -/
def children (t : DominatorTree) (i : Nat) : List Nat := (t.kids[i]?).getD []

/-- The number of slots of the graph. -/
def bound (t : DominatorTree) : Nat := t.idoms.size

/-- Computes the dominator tree of a rooted graph. -/
def compute (g : Digraph K) : Except Error DominatorTree := do
  let s ← SpanningTree.ofGraph g
  let n := g.bound
  let idoms := LengauerTarjan.immediateDominators g s
  let kids := (Array.range n).map fun p =>
    s.order.toList.filter fun u => (idoms.getD u none) = some p
  let succLists := (Array.range n).map g.succs
  pure { spanning := s, idoms, kids, succLists, frontiers := Array.replicate n none }

/-- Whether `v` dominates `u`: walking up from `u` through immediate dominators meets `v`
    before passing the root. Every node dominates itself. -/
def dominates (t : DominatorTree) (v u : Nat) : Bool :=
  go (t.bound + 1) u
where
  /-- The walk, with a fuel that exceeds the height of the tree. -/
  go : Nat → Nat → Bool
    | 0, _ => false
    | fuel + 1, c =>
      if c = v then true
      else if c = t.root then false
      else match t.idom? c with
        | some d => go fuel d
        | none => false

/-- Whether `v` dominates `u` and is not `u`. -/
def strictlyDominates (t : DominatorTree) (v u : Nat) : Bool :=
  v ≠ u && t.dominates v u

/-- The chain of immediate dominators from a node up to the root, the node first; empty for
    an unreachable node. -/
def dominators (t : DominatorTree) (i : Nat) : List Nat :=
  if t.isReachable i then go (t.bound + 1) i else []
where
  /-- The chain from `c`, with a fuel that exceeds the height of the tree. -/
  go : Nat → Nat → List Nat
    | 0, _ => []
    | fuel + 1, c =>
      c :: match t.idom? c with
        | some d => go fuel d
        | none => []

/-- The number of strict dominators of a reachable node. -/
def depth? (t : DominatorTree) (i : Nat) : Option Nat :=
  if t.isReachable i then some ((t.dominators i).length - 1) else none

/-- The nodes a node dominates, in preorder of the dominator tree; empty for an unreachable
    node. -/
def allDominated (t : DominatorTree) (i : Nat) : List Nat :=
  if t.isReachable i then go (t.bound + 1) i else []
where
  /-- The preorder of the subtree at `c`, with a fuel that exceeds the height of the tree. -/
  go : Nat → Nat → List Nat
    | 0, _ => []
    | fuel + 1, c => c :: (t.children c).flatMap (go fuel)

/-- The frontier of a node found so far, if any. -/
def memo (t : DominatorTree) (i : Nat) : Option (List Nat) := (t.frontiers[i]?).getD none

/-- The tree with `f` remembered as the frontier of `i`. -/
def remember (t : DominatorTree) (i : Nat) (f : List Nat) : DominatorTree :=
  { t with frontiers := t.frontiers.modify i fun _ => some f }

/-- The frontier of `i` from its successors and the frontiers known for its children: the
    successors reachable from the root that `i` is not the immediate dominator of, and the
    members of the children's frontiers that `i` does not strictly dominate. A child whose
    frontier is not known adds nothing. -/
def localFrontier (t : DominatorTree) (i : Nat) : List Nat :=
  let near := insertWhere (fun s => t.isReachable s && t.idom? s != some i)
    ((t.succLists[i]?).getD []) []
  (t.children i).foldl (fun acc c =>
    insertWhere (fun w => !t.strictlyDominates i w) ((t.memo c).getD []) acc) near

/-- The frontier of `i`: the one remembered, or else the local frontier, then remembered. -/
def getOrInit (t : DominatorTree) (i : Nat) : List Nat × DominatorTree :=
  match t.memo i with
  | some f => (f, t)
  | none => let f := t.localFrontier i; (f, t.remember i f)

/-- Finds the frontiers of the subtree at `c` whose frontier is not known, children before
    parents: each child not known yet, in dfnum order, has its subtree filled first, and a child
    known already is passed over with its whole subtree. These are the nodes and the order of
    the reverse of a preorder walk of the subtree that skips the subtrees already known. The
    `fuel` is the height left; a tree of dfnums that grow downwards is lower than its slots. -/
def fillBelow : Nat → DominatorTree → Nat → DominatorTree
  | 0, t, _ => t
  | fuel + 1, t, c =>
    let t' := (t.children c).foldl (fun t k => if (t.memo k).isSome then t else fillBelow fuel t k) t
    (t'.getOrInit c).2

/-- The dominance frontier of a reachable node, in slot order, together with the tree that
    remembers it and every frontier found on the way. An unreachable node has none and is
    reported as such. -/
def dominanceFrontier (t : DominatorTree) (i : Nat) : Except Error (List Nat) × DominatorTree :=
  if t.isReachable i then
    match t.memo i with
    | some f => (.ok f, t)
    | none =>
      let (f, t') := (t.fillBelow (t.bound + 1) i).getOrInit i
      (.ok f, t')
  else
    (.error (.unreachable s!"n{i}"), t)

/-- The answers to a sequence of frontier queries, each asked of the tree the ones before
    left behind. -/
def queryFrontiers (t : DominatorTree) : List Nat → List (Except Error (List Nat))
  | [] => []
  | i :: is => let (a, t') := t.dominanceFrontier i; a :: t'.queryFrontiers is

/-- The dominator tree as a graph over the keys of `g`: the reachable nodes in dfnum order,
    an edge from each immediate dominator, and the root of `g` as root. -/
def asGraph (t : DominatorTree) (g : Digraph K) : Except Error (Digraph K) := do
  let keyOf (i : Nat) : Except Error K :=
    match g.key? i with
    | some k => .ok k
    | none => .error (.graph s!"n{i} is not part of the graph")
  let order := t.spanning.order.toList
  let mut tree : Digraph K := Digraph.empty
  for i in order do
    let k ← keyOf i
    let (_, t') ← tree.addNode k
    tree := t'
  for i in order do
    match t.idom? i with
    | some d => tree ← tree.addEdge (← keyOf d) (← keyOf i)
    | none => pure ()
  let (_, rooted) ← tree.setRoot (← keyOf t.root)
  pure rooted

end DominatorTree

end Decompilation
