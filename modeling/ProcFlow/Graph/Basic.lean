import ProcFlow.Graph.Id
import ProcFlow.Table
/-!
# Procedure graphs

A graph calls procedures. Each node of its arena names a procedure and says which symbol each input
slot reads; control edges say what runs next; the declared inputs are the parameters of the whole; the
declared output flows are the ways to leave it, each with the values it carries. Any graph is legal
here, also one whose edges and symbols point at nothing: what is wrong with it is for the diagnostics
to say.
-/

namespace ProcFlow

/-- The name of a type. Types are equal when their names are. -/
abbrev TypeId := String

/-- A node of a graph. Every graph has one entry and one output beside its procedure nodes. -/
inductive NodeRef where
  | entry
  | output
  | proc (id : ProcId)
  deriving DecidableEq, Repr

/-- Where control or a value comes from: the entry, or an output flow of a procedure node. -/
inductive Source where
  | entry
  | proc (node : ProcId) (flow : String)
  deriving DecidableEq, Repr, Inhabited

/-- Where control goes: into a procedure node, or out through an output flow of the graph. -/
inductive Target where
  | proc (node : ProcId)
  | output (flow : String)
  deriving DecidableEq, Repr, Inhabited

/-- A value to read: an input of the graph, or a value that a procedure's output flow carries. -/
structure SymbolRef where
  origin : Source
  id : String
  deriving DecidableEq, Repr, Inhabited

structure Edge where
  source : Source
  target : Target
  deriving DecidableEq, Repr, Inhabited

structure ProcNode where
  procedure : String
  inputs : Table SymbolRef
  deriving DecidableEq, Inhabited

structure InputDecl where
  names : List String
  type : TypeId
  deriving DecidableEq, Repr, Inhabited

structure OutputValue where
  type : TypeId
  source : SymbolRef
  deriving DecidableEq, Repr, Inhabited

structure Graph where
  procs : List ProcNode
  edges : List Edge
  inputs : Table InputDecl
  outputFlows : Table (Table OutputValue)
  deriving DecidableEq, Inhabited


/-! ### Names of the parts -/

def Source.node : Source → NodeRef
  | .entry => .entry
  | .proc node _ => .proc node

def Target.node : Target → NodeRef
  | .proc node => .proc node
  | .output _ => .output

def NodeRef.text : NodeRef → String
  | .entry => "entry"
  | .output => "output"
  | .proc id => id.text

/-- A source in messages: `entry`, `n0.result`. -/
def Source.text : Source → String
  | .entry => "entry"
  | .proc node flow => node.text ++ "." ++ flow

def Target.text : Target → String
  | .proc node => node.text
  | .output flow => "output." ++ flow

def SymbolRef.text (s : SymbolRef) : String := s.origin.text ++ ":" ++ s.id

def Edge.text (e : Edge) : String := e.source.text ++ " -> " ++ e.target.text


namespace Graph

def empty : Graph := ⟨[], [], .empty, .empty⟩

def proc? (g : Graph) (id : ProcId) : Option ProcNode := g.procs[id.index]?

def edge? (g : Graph) (id : EdgeId) : Option Edge := g.edges[id.index]?

def procIds (g : Graph) : List ProcId := (List.range g.procs.length).map ProcId.mk

def procsWithIds (g : Graph) : List (ProcId × ProcNode) :=
  g.procs.zipIdx.map fun (node, i) => (⟨i⟩, node)

def edgesWithIds (g : Graph) : List (EdgeId × Edge) :=
  g.edges.zipIdx.map fun (edge, i) => (⟨i⟩, edge)

/-- Each value of an output flow with the names of its flow and of itself, in order. -/
def outputEntries (g : Graph) : List (String × String × OutputValue) :=
  g.outputFlows.entries.flatMap fun (flow, values) =>
    values.entries.map fun (id, value) => (flow, id, value)


/-! ### Building a graph -/

/-- Adds a procedure node at the end of the arena; the new node's identifier is returned with the
graph. -/
def addProc (g : Graph) (procedure : String) (inputs : List (String × SymbolRef)) :
    ProcId × Graph :=
  ((IdAllocator.startingAt g.procs.length g.edges.length).allocProc.1,
    { g with procs := g.procs ++ [⟨procedure, .ofList inputs⟩] })

def connect (g : Graph) (source : Source) (target : Target) : EdgeId × Graph :=
  ((IdAllocator.startingAt g.procs.length g.edges.length).allocEdge.1,
    { g with edges := g.edges ++ [⟨source, target⟩] })

def declareInput (g : Graph) (key : String) (names : List String) (type : TypeId) : Graph :=
  { g with inputs := g.inputs.insert key ⟨names, type⟩ }

/-- Declares a value of an output flow; the flow is declared with it if it is new. -/
def declareOutput (g : Graph) (flow id : String) (type : TypeId) (source : SymbolRef) : Graph :=
  let values := (g.outputFlows.get? flow).getD .empty
  { g with outputFlows := g.outputFlows.insert flow (values.insert id ⟨type, source⟩) }

/-- Declares an output flow without values, or takes the values of a declared one away. -/
def resetFlow (g : Graph) (flow : String) : Graph :=
  { g with outputFlows := g.outputFlows.insert flow .empty }

/-- Removes an edge; later edges move down by one. -/
def removeEdge (g : Graph) (id : EdgeId) : Graph :=
  { g with edges := g.edges.eraseIdx id.index }

/-- Changes one procedure node; nothing happens outside of the arena. -/
def modifyProc (g : Graph) (id : ProcId) (f : ProcNode → ProcNode) : Graph :=
  { g with procs := g.procs.modify id.index f }

def setProcedure (g : Graph) (id : ProcId) (procedure : String) : Graph :=
  g.modifyProc id fun node => { node with procedure }

def bind (g : Graph) (id : ProcId) (slot : String) (symbol : SymbolRef) : Graph :=
  g.modifyProc id fun node => { node with inputs := node.inputs.insert slot symbol }

def unbind (g : Graph) (id : ProcId) (slot : String) : Graph :=
  g.modifyProc id fun node => { node with inputs := node.inputs.erase slot }


/-! ### The listing of a graph -/

def procLine (id : ProcId) (node : ProcNode) : String :=
  let slots := node.inputs.entries.map fun (slot, symbol) => slot ++ " = " ++ symbol.text
  "  " ++ id.text ++ ": " ++ node.procedure ++ "(" ++ ", ".intercalate slots ++ ")\n"

def text (g : Graph) : String :=
  let counts :=
    "Graph (" ++ g.procs.length.repr ++ " procs, " ++ g.edges.length.repr ++ " edges, "
      ++ g.inputs.size.repr ++ " inputs, " ++ g.outputFlows.size.repr ++ " output flows)\n"
  String.join (counts :: g.procsWithIds.map (fun (id, node) => procLine id node)
    ++ g.edges.map fun edge => "  " ++ edge.text ++ "\n")

end Graph

end ProcFlow
