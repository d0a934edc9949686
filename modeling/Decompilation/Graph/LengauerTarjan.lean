import Decompilation.Graph.Search

/-!
# The Lengauer-Tarjan construction

The construction runs backwards through the depth-first spanning tree of a rooted graph and
gives every node other than the root its *semidominator*: of the node's tree parent and what
its predecessors offer, the node of least dfnum. A predecessor numbered before the node offers
itself; one numbered after it offers the semidominator of least dfnum found on its way up the
nodes handled so far. Those nodes hang in a forest: once handled, a node is *linked* to its
tree parent, and the question is answered by walking up the forest from the predecessor.

The walk compresses the path it took: every node on it is linked straight to the last node
below the forest's root, the top of the path, and `best` remembers for each node the node of
least semidominator dfnum on the stretch of tree path its link now spans. A node's bucket holds
the nodes whose semidominator it is; they are settled once the node's tree parent is reached,
and the immediate dominators deferred on the way are filled in at the end.

* `LengauerTarjan.lowestSemi`: the walk; it collects the path from the node up to the last node
  below the forest's root, then compresses it from the top down;
* `LengauerTarjan.compute`: the pass over the nodes, from the last numbered up to the root's
  children, and the pass that fills in the deferred immediate dominators;
* `LengauerTarjan.immediateDominators`: the immediate dominator of every slot of a graph, from
  the construction over its search tree.
-/

namespace Decompilation

/-- The dfnum that a node the search did not reach counts as: the largest machine word,
    `2 ^ 64 - 1`. -/
def unnumbered : Nat := 18446744073709551615

/-- The state of the construction over a spanning tree: per slot, the semidominator, the link
    in the forest (`ancestor`), the node of least semidominator dfnum on the stretch of tree
    path the link spans (`best`), the node whose immediate dominator is deferred to
    (`samedom`), the immediate dominator, and the nodes whose semidominator the slot is
    (`bucket`). -/
structure LengauerTarjan where
  tree : SpanningTree
  semi : Array (Option Nat)
  ancestor : Array (Option Nat)
  best : Array Nat
  samedom : Array (Option Nat)
  idom : Array (Option Nat)
  bucket : Array (List Nat)
  deriving Repr

namespace LengauerTarjan

/-- The state before any node is handled, for a graph with `bound` slots: nothing linked,
    and every node its own best. -/
def new (tree : SpanningTree) (bound : Nat) : LengauerTarjan where
  tree
  semi := Array.replicate bound none
  ancestor := Array.replicate bound none
  best := Array.range bound
  samedom := Array.replicate bound none
  idom := Array.replicate bound none
  bucket := Array.replicate bound []

/-- The dfnum of a node, or `unnumbered` for a node the search did not reach. -/
def dfnum (st : LengauerTarjan) (i : Nat) : Nat := (st.tree.dfnum? i).getD unnumbered

/-- The semidominator found for a node, if any. -/
def semiOf (st : LengauerTarjan) (i : Nat) : Option Nat := (st.semi[i]?).getD none

/-- The dfnum of a node's semidominator, or `unnumbered` while it has none. -/
def semiDfnum (st : LengauerTarjan) (i : Nat) : Nat :=
  match st.semiOf i with
  | some s => st.dfnum s
  | none => unnumbered

/-- The node a node is linked to in the forest; none for a node not linked. -/
def ancestorOf (st : LengauerTarjan) (i : Nat) : Option Nat := (st.ancestor[i]?).getD none

/-- The node of least semidominator dfnum on the stretch a node's link spans. -/
def bestOf (st : LengauerTarjan) (i : Nat) : Nat := (st.best[i]?).getD i

/-- The nodes waiting in a node's bucket. -/
def bucketOf (st : LengauerTarjan) (i : Nat) : List Nat := (st.bucket[i]?).getD []

/-- The node whose immediate dominator a node's is deferred to, if any. -/
def samedomOf (st : LengauerTarjan) (i : Nat) : Option Nat := (st.samedom[i]?).getD none

/-- The immediate dominator written for a node, if any. -/
def idomOf (st : LengauerTarjan) (i : Nat) : Option Nat := (st.idom[i]?).getD none

/-- Records `s` as the semidominator of `n` and puts `n` in `s`'s bucket. -/
def assignSemi (st : LengauerTarjan) (n s : Nat) : LengauerTarjan :=
  { st with
    semi := st.semi.modify n fun _ => some s
    bucket := st.bucket.modify s fun b => b ++ [n] }

/-- Links `node` to its tree parent; the stretch of the link is the node alone. -/
def link (st : LengauerTarjan) (parent node : Nat) : LengauerTarjan :=
  { st with
    ancestor := st.ancestor.modify node fun _ => some parent
    best := st.best.modify node fun _ => node }

/-- Links `w` to `up` instead, and makes `b` its best when `b`'s semidominator has a smaller
    dfnum than that of `w`'s best. -/
def shortcut (st : LengauerTarjan) (w : Nat) (up : Option Nat) (b : Nat) : LengauerTarjan :=
  { st with
    ancestor := st.ancestor.modify w fun _ => up
    best := if st.semiDfnum b < st.semiDfnum (st.bestOf w) then st.best.modify w fun _ => b
      else st.best }

/-- The path the walk from `c` collects on its way up: the nodes whose link ends at a linked
    node, from `c` up, stopping at the first node linked to the forest's root. Each node takes
    one unit of `fuel`. -/
def climb (st : LengauerTarjan) : Nat → Nat → List Nat
  | 0, _ => []
  | fuel + 1, c =>
    match st.ancestorOf c with
    | some a => if (st.ancestorOf a).isSome then c :: st.climb fuel a else []
    | none => []

/-- Compresses the link of `w`: links it to where its ancestor is linked, and takes the
    ancestor's best when that one is better. -/
def compressAt (st : LengauerTarjan) (w : Nat) : LengauerTarjan :=
  match st.ancestorOf w with
  | some a => st.shortcut w (st.ancestorOf a) (st.bestOf a)
  | none => st

/-- The node of least semidominator dfnum on the forest path from `v` up to the forest's
    root, with the path compressed: a node not linked is its own answer; otherwise the path
    is collected bottom-up and compressed from the top down, one slot of fuel per node. -/
def lowestSemi (st : LengauerTarjan) (v : Nat) : Nat × LengauerTarjan :=
  if (st.ancestorOf v).isNone then (v, st)
  else
    let st' := (st.climb st.ancestor.size v).reverse.foldl compressAt st
    (st'.bestOf v, st')

/-- What the predecessor `pred` of `n` offers as semidominator: itself when it is numbered no
    later than `n`, and otherwise the semidominator of the node of least semidominator on its
    forest path (that node itself when it has none). -/
def candidate (st : LengauerTarjan) (n pred : Nat) : Nat × LengauerTarjan :=
  if st.dfnum pred ≤ st.dfnum n then (pred, st)
  else
    let (lowest, st') := st.lowestSemi pred
    ((st'.semiOf lowest).getD lowest, st')

/-- One predecessor of `n` weighed against the semidominator found so far: a predecessor the
    search did not reach is passed over, and a candidate wins only with a smaller dfnum. -/
def semiStep (n : Nat) (acc : Nat × LengauerTarjan) (pred : Nat) : Nat × LengauerTarjan :=
  if acc.2.tree.contains pred then
    let (c, st') := acc.2.candidate n pred
    (if st'.dfnum c < st'.dfnum acc.1 then c else acc.1, st')
  else acc

/-- Settles the node `v` of the bucket of `parent`: when the node of least semidominator on
    its forest path has the same semidominator, `parent` is its immediate dominator; otherwise
    its immediate dominator is deferred to that node's. -/
def settle (parent : Nat) (st : LengauerTarjan) (v : Nat) : LengauerTarjan :=
  let (y, st') := st.lowestSemi v
  if st'.semiOf y = st'.semiOf v then { st' with idom := st'.idom.modify v fun _ => some parent }
  else { st' with samedom := st'.samedom.modify v fun _ => some y }

variable {K : Type}

/-- Handles the node `n`: finds its semidominator over the predecessors in `g`, puts `n` in
    that node's bucket, links `n` to its tree parent, and settles the parent's bucket. The
    root, which has no parent, is passed over. -/
def visit (g : Digraph K) (st : LengauerTarjan) (n : Nat) : LengauerTarjan :=
  match st.tree.parent? n with
  | none => st
  | some parent =>
    let (s, st) := (g.preds n).foldl (semiStep n) (parent, st)
    let st := (st.assignSemi n s).link parent n
    let pending := st.bucketOf parent
    let st := { st with bucket := st.bucket.modify parent fun _ => [] }
    pending.foldl (settle parent) st

/-- Fills in the immediate dominator of a node whose dominator was deferred to another's. -/
def resolve (st : LengauerTarjan) (n : Nat) : LengauerTarjan :=
  match st.samedomOf n with
  | some same => { st with idom := st.idom.modify n fun _ => st.idomOf same }
  | none => st

/-- The construction: every node but the root handled backwards through the search order,
    then the deferred immediate dominators filled in forwards. -/
def compute (g : Digraph K) (st : LengauerTarjan) : LengauerTarjan :=
  let order := st.tree.order.toList
  let st := (order.drop 1).reverse.foldl (visit g) st
  (order.drop 1).foldl resolve st

/-- The immediate dominator of every slot of a graph, from the construction over its search
    tree. -/
def immediateDominators (g : Digraph K) (tree : SpanningTree) : Array (Option Nat) :=
  ((new tree g.bound).compute g).idom

end LengauerTarjan

end Decompilation
