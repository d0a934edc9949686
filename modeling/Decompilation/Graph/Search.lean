import Decompilation.Graph.Basic

/-!
# Depth-first spanning trees

A depth-first search from a root numbers the nodes in the order it first reaches them (their
*dfnum*) and records, for every node but the root, the tree edge it was reached by (its
*parent*). The search keeps a stack of frames, each a node and those of its successors not
yet tried, and visits nodes in the order of the recursive preorder walk: a node is numbered on
arrival, before any of its successors is considered, and the successors are tried in edge
insertion order, skipping those numbered by the time their turn comes.

* `SpanningTree.fromRoot`: the search from any slot (nothing when the slot is past the end);
* `SpanningTree.ofGraph`: the search from the graph's root, an error without one.
-/

namespace Decompilation

/-- The outcome of a depth-first search: the root, the nodes in visiting order, and per slot
    its dfnum and tree parent. -/
structure SpanningTree where
  root : Nat
  order : Array Nat
  dfnums : Array (Option Nat)
  parents : Array (Option Nat)
  deriving Repr

namespace SpanningTree

/-- The search that has visited nothing yet, for a graph with `bound` slots. -/
def start (root bound : Nat) : SpanningTree :=
  { root, order := #[], dfnums := Array.replicate bound none,
    parents := Array.replicate bound none }

/-- The dfnum of a node, if the search reached it. -/
def dfnum? (t : SpanningTree) (i : Nat) : Option Nat := (t.dfnums[i]?).getD none

/-- The tree parent of a node; none for the root and for nodes not reached. -/
def parent? (t : SpanningTree) (i : Nat) : Option Nat := (t.parents[i]?).getD none

/-- Whether the search reached the node. -/
def contains (t : SpanningTree) (i : Nat) : Bool := (t.dfnum? i).isSome

/-- The number of nodes reached. -/
def size (t : SpanningTree) : Nat := t.order.size

/-- Numbers the node `i`, reached from `parent`. -/
def visit (t : SpanningTree) (i : Nat) (parent : Option Nat) : SpanningTree :=
  { t with
    order := t.order.push i
    dfnums := t.dfnums.modify i fun _ => some t.order.size
    parents := t.parents.modify i fun _ => parent }

variable {K : Type} [DecidableEq K]

/-- The search's loop over its stack of frames. The top frame tries its next successor: one
    not yet numbered is numbered, with the frame's node as its parent, and its own frame is
    pushed; one already numbered is passed over; a frame with no successor left is popped.
    Each round takes one unit of `fuel`. -/
def explore (g : Digraph K) : Nat → List (Nat × List Nat) → SpanningTree → SpanningTree
  | 0, _, t => t
  | _ + 1, [], t => t
  | fuel + 1, (_, []) :: stack, t => explore g fuel stack t
  | fuel + 1, (n, s :: pending) :: stack, t =>
    if t.contains s then explore g fuel ((n, pending) :: stack) t
    else explore g fuel ((s, g.succs s) :: (n, pending) :: stack) (t.visit s (some n))

/-- Rounds enough for the loop: one per slot and one per edge, as each round numbers a node,
    passes over an edge, or pops the frame of a numbered node. -/
def rounds (g : Digraph K) : Nat :=
  (List.range g.bound).foldl (fun n i => n + 1 + (g.succs i).length) 0

/-- The depth-first search from slot `root`: number the root, then run the loop from its
    frame; a slot past the end gives the empty search. -/
def fromRoot (g : Digraph K) (root : Nat) : SpanningTree :=
  if root < g.bound then
    explore g (rounds g) [(root, g.succs root)] ((start root g.bound).visit root none)
  else start root g.bound

/-- The depth-first search from the root of the graph. -/
def ofGraph (g : Digraph K) : Except Error SpanningTree :=
  match g.root with
  | some r => .ok (fromRoot g r)
  | none => .error (.graph "graph has no root")

end SpanningTree

end Decompilation
