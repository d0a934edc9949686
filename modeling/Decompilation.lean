import Decompilation.Word
import Decompilation.Error
import Decompilation.Graph.Basic
import Decompilation.Graph.Dot
import Decompilation.Graph.Search
import Decompilation.Graph.Dominance
import Decompilation.Graph.LengauerTarjan
import Decompilation.Ir.Op
import Decompilation.Ir.Node
import Decompilation.Ir.Procedure
import Decompilation.Ir.Tree
import Decompilation.Ir.Edit
import Decompilation.Ir.Render
import Decompilation.Ir.DefUse
import Decompilation.Ir.Build
import Decompilation.Simplify.Fold
import Decompilation.Simplify.Replacement
import Decompilation.Simplify.Rules
import Decompilation.Simplify.Reduce
import Decompilation.Optimize.Config
import Decompilation.Event
import Decompilation.Session
import Decompilation.Optimize.Policy
import Decompilation.Optimize.Pass
import Decompilation.Optimize.Fixpoint
import Decompilation.Structure.Shape
import Decompilation.Structure.Loop
import Decompilation.Pipeline
import Decompilation.Text.WhiteSpace
import Decompilation.Text.Numeral
import Decompilation.Binary64
import Decompilation.Text.Shortest
import Decompilation.Json.Basic
import Decompilation.Json.Read
import Decompilation.Proofs.Except
import Decompilation.Proofs.Graph.Path
import Decompilation.Proofs.Graph.Built
import Decompilation.Proofs.Graph.Preorder
import Decompilation.Proofs.Graph.Spanning
import Decompilation.Proofs.Graph.Dominators
import Decompilation.Proofs.Graph.Frontier
import Decompilation.Proofs.Graph.Label
import Decompilation.Proofs.Graph.Forest
import Decompilation.Proofs.Graph.Compression
import Decompilation.Proofs.Graph.Subtrees
import Decompilation.Proofs.Graph.Semidominators
import Decompilation.Proofs.Graph.Construction
import Decompilation.Proofs.Ir.Access
import Decompilation.Proofs.DefUse.Invariant
import Decompilation.Proofs.DefUse.Primitives
import Decompilation.Proofs.Runs
import Decompilation.Proofs.DefUse.Edits
import Decompilation.Proofs.DefUse.Statements
import Decompilation.Proofs.Simplify.Parts
import Decompilation.Proofs.Simplify.Chains
import Decompilation.Proofs.DefUse.Linking
import Decompilation.Proofs.DefUse.Build
import Decompilation.Proofs.Optimize.Chains
import Decompilation.Proofs.Optimize.Aliasing
import Decompilation.Proofs.Structure.Chains
import Decompilation.Proofs.Operations
import Decompilation.Proofs.Simplify.Shape
import Decompilation.Proofs.Ir.Copy
import Decompilation.Proofs.Simplify.Lowers
import Decompilation.Proofs.Graph.Adjacency
import Decompilation.Proofs.Graph.TreeQueries
import Decompilation.Proofs.Structure.Nesting
import Decompilation.Proofs.Structure.Moves
import Decompilation.Proofs.Structure.Listing
import Decompilation.Proofs.Structure.Invariant
import Decompilation.Proofs.Structure.Regions
import Decompilation.Proofs.Structure.Layout
import Decompilation.Proofs.Structure.Check
import Decompilation.Proofs.Structure.Order
import Decompilation.Proofs.Structure.Flow
import Decompilation.Proofs.Structure.BackEdges
import Decompilation.Proofs.Structure.Reach
import Decompilation.Proofs.Structure.Statements
import Decompilation.Proofs.Simplify.Purity
import Decompilation.Proofs.Simplify.Keeps
import Decompilation.Proofs.Simplify.Exposed
import Decompilation.Proofs.Simplify.Built
import Decompilation.Proofs.Simplify.Effects
import Decompilation.Proofs.Simplify.RuleForms
import Decompilation.Proofs.Simplify.Settles
import Decompilation.Proofs.Simplify.Reduction
import Decompilation.Proofs.Ir.Traversal
import Decompilation.Proofs.DefUse.Sites
import Decompilation.Proofs.DefUse.Stale
import Decompilation.Proofs.DefUse.Implicit
import Decompilation.Proofs.DefUse.Passes
import Decompilation.Proofs.DefUse.Rebuild
