import ProcFlow.Context.Check
/-!
# Drawing a graph

A drawing is text in the DOT language: a statement for each node, for each control edge and for each
distinct data link, every statement on a line of its own. Nodes that edges mention and that do not exist
are drawn as missing, and whatever has a diagnostic is drawn in red.
-/

namespace ProcFlow.Drawing

/-! ### Statements -/

/-- One character of a label between quotes. Line breaks become blanks, so a label never leaves its
line. -/
def escapeChar (c : Char) : List Char :=
  match c with
  | '"' => ['\\', '"']
  | '\\' => ['\\', '\\']
  | '\n' => [' ']
  | '\r' => [' ']
  | c => [c]

def escape (text : String) : String := String.ofList (text.toList.flatMap escapeChar)

inductive NodeKind where
  | entry
  | output
  | proc
  | missing
  deriving DecidableEq, Repr

structure NodeStatement where
  name : String
  kind : NodeKind
  /-- The label between its quotes. -/
  label : String
  flagged : Bool
  deriving DecidableEq, Repr

structure EdgeStatement where
  source : String
  target : String
  label : String
  deriving DecidableEq, Repr

def flagText : String := "color=red, penwidth=2"

def NodeStatement.text (n : NodeStatement) : String :=
  let filled := fun (shape fill : String) =>
    "shape=" ++ shape ++ ", style=filled, fillcolor=" ++ fill
      ++ (if n.flagged then ", " ++ flagText else "")
  let look := match n.kind with
    | .entry => filled "ellipse" "palegreen"
    | .output => filled "ellipse" "lightpink"
    | .proc => filled "box" "lightblue"
    | .missing => "shape=box, style=dashed, color=red"
  "    " ++ n.name ++ " [" ++ look ++ ", label=\"" ++ n.label ++ "\"];"

def EdgeStatement.text (e : EdgeStatement) (attributes : String) : String :=
  "    " ++ e.source ++ " -> " ++ e.target ++ " [label=\"" ++ e.label ++ "\"" ++ attributes ++ "];"


/-! ### Nodes -/

def nodeName : NodeRef → String
  | .entry => "entry"
  | .output => "output"
  | .proc id => id.text

def insertAscending (n : Nat) : List Nat → List Nat
  | [] => [n]
  | m :: rest => if n < m then n :: m :: rest else if n = m then m :: rest else m :: insertAscending n rest

/-- The nodes outside of the arena that edges mention, ascending. -/
def missingNodes (g : Graph) : List ProcId :=
  let mentioned := g.edges.flatMap fun e => [e.source.node, e.target.node]
  let outside := mentioned.filterMap fun
    | .proc id => if (g.proc? id).isNone then some id.index else none
    | _ => none
  (outside.foldr insertAscending []).map ProcId.mk

def nodeStatements (g : Graph) (ds : List Diagnostic) : List NodeStatement :=
  let flagged := fun node => !(Diagnostic.onNode ds node).isEmpty
  [⟨"entry", .entry, "entry(" ++ ", ".intercalate (g.inputs.keys.map escape) ++ ")", flagged .entry⟩,
    ⟨"output", .output, "output(" ++ " | ".intercalate (g.outputFlows.keys.map escape) ++ ")",
      flagged .output⟩]
    ++ g.procsWithIds.map (fun (id, node) =>
      ⟨id.text, .proc, id.text ++ ": " ++ escape node.procedure, flagged (.proc id)⟩)
    ++ (missingNodes g).map fun id => ⟨id.text, .missing, id.text ++ " (missing)", true⟩


/-! ### Control edges and data links -/

def edgeLabel (e : Edge) : String :=
  match e.source, e.target with
  | .proc _ flow, .output out =>
    if flow ≠ out then escape flow ++ " -> " ++ escape out else escape out
  | .entry, .output out => escape out
  | .proc _ flow, .proc _ => escape flow
  | .entry, .proc _ => ""

def edgeStatement (e : Edge) : EdgeStatement :=
  ⟨nodeName e.source.node, nodeName e.target.node, edgeLabel e⟩

/-- Whether a link comes before another: by source, then by target, then by label. -/
def EdgeStatement.before (a b : EdgeStatement) : Bool :=
  if a.source ≠ b.source then a.source < b.source
  else if a.target ≠ b.target then a.target < b.target
  else a.label < b.label

def insertLink (l : EdgeStatement) : List EdgeStatement → List EdgeStatement
  | [] => [l]
  | m :: rest =>
    if l.before m then l :: m :: rest else if l = m then m :: rest else m :: insertLink l rest

/-- The links from what is read to the nodes and output flows that read it. -/
def allLinks (g : Graph) : List EdgeStatement :=
  (g.procsWithIds.flatMap fun (id, node) => node.inputs.entries.map fun (slot, symbol) =>
      ⟨nodeName symbol.origin.node, id.text,
        escape symbol.origin.text ++ "." ++ escape symbol.id ++ " -> " ++ escape slot⟩)
    ++ g.outputEntries.map fun (flow, id, value) =>
      ⟨nodeName value.source.origin.node, "output",
        escape value.source.id ++ " -> " ++ escape flow ++ "." ++ escape id⟩

def linkStatements (g : Graph) : List EdgeStatement := (allLinks g).foldr insertLink []


/-! ### The whole drawing -/

def header : List String :=
  ["digraph ffc \x7b", "    rankdir=LR;", "    node [fontname=\"Helvetica\", fontsize=10];",
    "    edge [fontname=\"Helvetica\", fontsize=9];", ""]

def lines (c : Context) : List String :=
  let ds := c.diagnostics
  let edges := c.graph.edgesWithIds.map fun (id, e) =>
    (edgeStatement e).text (if (Diagnostic.onEdge ds id).isEmpty then "" else ", " ++ flagText)
  let links := (linkStatements c.graph).map fun l =>
    l.text ", style=dashed, color=gray50, constraint=false"
  header ++ (nodeStatements c.graph ds).map NodeStatement.text ++ [""] ++ edges
    ++ (if links.isEmpty then [] else "" :: links) ++ ["\x7d"]

def draw (c : Context) : String := String.join ((lines c).map fun l => l ++ "\n")

end ProcFlow.Drawing
