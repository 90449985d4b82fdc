import SsaForm.FlowGraph.Basic

/-!
# Drawing a graph

A graph is drawn in the DOT language with one box per block. A drawing is a row of
pieces, bare ones and quoted ones. Names and instructions stand in quoted pieces only and
are escaped there, so that a quote inside a text never ends it.
-/

namespace SsaForm

namespace Dot

/-- A character inside quotes. Quotes, backslashes and angle brackets are marked by a
backslash, a line break is written as a letter, and a carriage return is left out. -/
def escapeChar (c : Char) : List Char :=
  if c = '\\' ∨ c = '"' ∨ c = '<' ∨ c = '>' then ['\\', c]
  else if c = '\n' then ['\\', 'n']
  else if c = '\r' then []
  else [c]

def escape (text : String) : String :=
  String.ofList (text.toList.flatMap escapeChar)

/-- A piece of a drawing: text of the language itself, or what stands between quotes. -/
inductive Piece where
  | bare (text : String)
  | quoted (inside : String)
deriving DecidableEq

def Piece.text : Piece → String
  | .bare text => text
  | .quoted inside => "\"" ++ inside ++ "\""

def quote (text : String) : Piece :=
  .quoted (escape text)

end Dot

def EdgeKind.color : EdgeKind → String
  | .always => "black"
  | .onTrue => "green"
  | .onFalse => "red"

namespace FlowGraph

open Dot (Piece quote)

/-- The instructions of a block, each followed by the mark of a line that is aligned left. -/
def dotLabel (b : Block) : Piece :=
  .quoted (String.join (b.instrs.map fun i => Dot.escape i.text ++ "\\l"))

/-- The box of a block, filled if it is highlighted and heavy if it is the current one. -/
def dotBlock (highlight : KeySet String) (current : Option String) (b : Block) : List Piece :=
  let fill := if b.name ∈ highlight then ", style=filled, fillcolor=lightblue" else ""
  let border := if current = some b.name then ", penwidth=3" else ""
  [.bare "    ", quote b.name, .bare " [label=", dotLabel b, .bare ", xlabel=", quote b.name,
    .bare (fill ++ border ++ "];\n")]

def dotEdge (source : String) (e : Edge) : List Piece :=
  [.bare "    ", quote source, .bare " -> ", quote e.target, .bare " [label=",
    .quoted e.kind.label, .bare (", color=" ++ e.kind.color ++ "];\n")]

/-- How boxes and arrows look unless they say otherwise. -/
def dotDefaults : List Piece :=
  [.bare "    node [shape=box, fontname=", .quoted "Courier", .bare ", fontsize=10];\n",
    .bare "    edge [fontname=", .quoted "Courier", .bare ", fontsize=9];\n\n"]

def dotPieces (g : FlowGraph) (highlight : KeySet String) (current : Option String) : List Piece :=
  [.bare "digraph ", quote g.name, .bare (" " ++ String.singleton '{' ++ "\n")] ++ dotDefaults ++
    g.blocks.flatMap (dotBlock highlight current) ++ [.bare "\n"] ++
    (g.blocks.flatMap fun b => (g.outgoing b.name).flatMap (dotEdge b.name)) ++
    [.bare (String.singleton '}' ++ "\n")]

def toDot (g : FlowGraph) (highlight : KeySet String) (current : Option String) : String :=
  String.join ((g.dotPieces highlight current).map Piece.text)

end FlowGraph

end SsaForm
