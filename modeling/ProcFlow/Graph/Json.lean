import ProcFlow.Graph.Basic
import ProcFlow.Json.Decode
import ProcFlow.Json.Document
/-!
# Graphs as JSON

A graph is an object with the fields `procs`, `edges`, `inputs` and `outputFlows`, each of which may be
left out when it is empty. Sources and targets carry a tag that says which kind they are. Writing a
graph keeps the order of everything in it, so the compact form can stand for the graph.
-/

namespace ProcFlow

open Json (Decoder Document Fault)
open Json.Decode (RecordField Shape need)


/-! ### Reading -/

/-- The node and the flow of an edge's end, as far as they have been read. -/
abbrev EndDraft := Option Nat × Option String

def nodeField : RecordField EndDraft :=
  .slot "node" true Json.Decode.word32 (·.1) fun d n => (some n, d.2)

def flowField : RecordField EndDraft :=
  .slot "flow" true Json.Decode.string (·.2) fun d s => (d.1, some s)

def Source.decoder : Decoder Source :=
  Json.Decode.tagged "Source" ["entry", "proc"] fun name r payload =>
    if name = "entry" then do
      Json.Decode.noFields payload
      return .entry
    else do
      let shape : Shape EndDraft := ⟨"struct variant Source::Proc", [nodeField, flowField], false⟩
      let draft ← shape.readPayload r (none, none) payload
      return .proc ⟨← need "node" draft.1⟩ (← need "flow" draft.2)

def Target.decoder : Decoder Target :=
  Json.Decode.tagged "Target" ["proc", "output"] fun name r payload =>
    if name = "proc" then do
      let shape : Shape EndDraft := ⟨"struct variant Target::Proc", [nodeField], false⟩
      let draft ← shape.readPayload r (none, none) payload
      return .proc ⟨← need "node" draft.1⟩
    else do
      let shape : Shape EndDraft := ⟨"struct variant Target::Output", [flowField], false⟩
      let draft ← shape.readPayload r (none, none) payload
      return .output (← need "flow" draft.2)

def SymbolRef.decoder : Decoder SymbolRef :=
  let shape : Shape (Option Source × Option String) := ⟨"struct SymbolRef",
    [.slot "origin" true Source.decoder (·.1) fun d x => (some x, d.2),
      .slot "id" true Json.Decode.string (·.2) fun d x => (d.1, some x)], false⟩
  shape.decoder (none, none) fun d => do
    return ⟨← need "origin" d.1, ← need "id" d.2⟩

def Edge.decoder : Decoder Edge :=
  let shape : Shape (Option Source × Option Target) := ⟨"struct Edge",
    [.slot "source" true Source.decoder (·.1) fun d x => (some x, d.2),
      .slot "target" true Target.decoder (·.2) fun d x => (d.1, some x)], false⟩
  shape.decoder (none, none) fun d => do
    return ⟨← need "source" d.1, ← need "target" d.2⟩

def ProcNode.decoder : Decoder ProcNode :=
  let shape : Shape (Option String × Option (Table SymbolRef)) := ⟨"struct ProcNode",
    [.slot "procID" true Json.Decode.string (·.1) fun d x => (some x, d.2),
      .slot "inputs" false (Json.Decode.table SymbolRef.decoder) (·.2) fun d x => (d.1, some x)],
    false⟩
  shape.decoder (none, none) fun d => do
    return ⟨← need "procID" d.1, d.2.getD .empty⟩

def InputDecl.decoder : Decoder InputDecl :=
  let shape : Shape (Option (List String) × Option String) := ⟨"struct InputDecl",
    [.slot "names" false (Json.Decode.list Json.Decode.string) (·.1) fun d x => (some x, d.2),
      .slot "type" true Json.Decode.string (·.2) fun d x => (d.1, some x)], false⟩
  shape.decoder (none, none) fun d => do
    return ⟨d.1.getD [], ← need "type" d.2⟩

def OutputValue.decoder : Decoder OutputValue :=
  let shape : Shape (Option String × Option SymbolRef) := ⟨"struct OutputValue",
    [.slot "type" true Json.Decode.string (·.1) fun d x => (some x, d.2),
      .slot "source" true SymbolRef.decoder (·.2) fun d x => (d.1, some x)], false⟩
  shape.decoder (none, none) fun d => do
    return ⟨← need "type" d.1, ← need "source" d.2⟩

namespace Graph

structure Draft where
  procs : Option (List ProcNode) := none
  edges : Option (List Edge) := none
  inputs : Option (Table InputDecl) := none
  outputFlows : Option (Table (Table OutputValue)) := none

/-- The fields of a graph. No other field is allowed, and none is required. -/
def shape : Shape Draft where
  title := "struct Graph"
  closed := true
  fields :=
    [.slot "procs" false (Json.Decode.list ProcNode.decoder) Draft.procs
        fun d x => { d with procs := some x },
      .slot "edges" false (Json.Decode.list Edge.decoder) Draft.edges
        fun d x => { d with edges := some x },
      .slot "inputs" false (Json.Decode.table InputDecl.decoder) Draft.inputs
        fun d x => { d with inputs := some x },
      .slot "outputFlows" false (Json.Decode.table (Json.Decode.table OutputValue.decoder))
        Draft.outputFlows fun d x => { d with outputFlows := some x }]

def decoder : Decoder Graph :=
  shape.decoder {} fun d => .ok
    ⟨d.procs.getD [], d.edges.getD [], d.inputs.getD .empty, d.outputFlows.getD .empty⟩

def ofJson (text : String) : Except Fault Graph := Json.Decode.text decoder text

end Graph


/-! ### Writing -/

def Source.document : Source → Document
  | .entry => .object [("type", .string "entry")]
  | .proc node flow =>
    .object [("type", .string "proc"), ("node", .number node.index), ("flow", .string flow)]

def Target.document : Target → Document
  | .proc node => .object [("type", .string "proc"), ("node", .number node.index)]
  | .output flow => .object [("type", .string "output"), ("flow", .string flow)]

def SymbolRef.document (s : SymbolRef) : Document :=
  .object [("origin", s.origin.document), ("id", .string s.id)]

def Edge.document (e : Edge) : Document :=
  .object [("source", e.source.document), ("target", e.target.document)]

def Table.document {α : Type} (item : α → Document) (t : Table α) : Document :=
  .object (t.entries.map fun e => (e.1, item e.2))

def ProcNode.document (p : ProcNode) : Document :=
  .object [("procID", .string p.procedure), ("inputs", p.inputs.document SymbolRef.document)]

def InputDecl.document (d : InputDecl) : Document :=
  .object [("names", .list (d.names.map .string)), ("type", .string d.type)]

def OutputValue.document (v : OutputValue) : Document :=
  .object [("type", .string v.type), ("source", v.source.document)]

namespace Graph

def document (g : Graph) : Document :=
  .object [("procs", .list (g.procs.map ProcNode.document)),
    ("edges", .list (g.edges.map Edge.document)),
    ("inputs", g.inputs.document InputDecl.document),
    ("outputFlows", g.outputFlows.document fun values => values.document OutputValue.document)]

def canonicalJson (g : Graph) : String := g.document.compact

def prettyJson (g : Graph) : String := g.document.pretty

end Graph

end ProcFlow
