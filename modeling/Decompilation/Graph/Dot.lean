import Decompilation.Graph.Basic

/-!
# Graphviz text

A graph is written in the DOT language of Graphviz, one box per live node, labelled by its
key. Labels are listings that should stay left-aligned, so a line break is written as the
left-justifying break `\l`; quotes, backslashes and the record delimiters `<` and `>` are
escaped, and carriage returns are dropped.

* `escapeLabel`: the escaped text of a label, character by character;
* `Digraph.toDot`: the whole graph.
-/

namespace Decompilation

/-- The escaped form of one character of a label. -/
def escapeChar : Char → List Char
  | '\\' => ['\\', '\\']
  | '"' => ['\\', '"']
  | '\r' => []
  | '\n' => ['\\', 'l']
  | '<' => ['\\', '<']
  | '>' => ['\\', '>']
  | c => [c]

/-- The escaped form of a label: each character is replaced by its escape. -/
def escapeLabel (s : String) : String :=
  String.ofList (s.toList.flatMap escapeChar)

namespace Digraph

variable {K : Type} [DecidableEq K]

/-- The DOT text of the graph: an optional title, the live nodes in slot order (the root in
    bold) and then, node by node, its edges in insertion order. -/
def toDot (g : Digraph K) (title : Option String) (label : K → String) : String :=
  let head := "digraph G \x7b\n" ++
    (match title with
     | some t => "    label=\"" ++ escapeLabel t ++ "\";\n"
     | none => "") ++
    "    node [shape=box, fontname=\"Courier\", fontsize=10];\n"
  let nodes := g.nodeIds.map fun i =>
    let style := if g.root = some i then ", style=bold" else ""
    let key := ((g.keyAt? i).map label).getD ""
    s!"    n{i} [label=\"" ++ escapeLabel key ++ "\"" ++ style ++ "];\n"
  let edges := g.nodeIds.flatMap fun i => (g.succs i).map fun s => s!"    n{i} -> n{s};\n"
  head ++ String.join nodes ++ String.join edges ++ "\x7d\n"

end Digraph

end Decompilation
