import ProcFlow.Context.Cycle
import ProcFlow.Context.Scope
import ProcFlow.Diagnostic
/-!
# Checking a graph

Each check looks at one kind of problem and reports it on the part that owns it. A check keeps silent
where another one has already spoken: an unknown type is no type mismatch, an edge with a wrong flow name
does not count as a missing edge as well, and a node on a cycle has no scope. The diagnostics come check
by check, and within a check in the order of the graph.
-/

namespace ProcFlow.Context

open Diagnostic (Kind Subject)


/-! ### Types, procedures and symbols -/

def inputProblems (c : Context) : List Diagnostic :=
  c.graph.inputs.entries.filterMap fun (key, decl) =>
    if c.catalog.knows decl.type then none
    else some
      { kind := .unknownType, subject := .input key,
        message := "input '" ++ key ++ "' has unknown type '" ++ decl.type ++ "'" }

def procedureProblems (c : Context) (id : ProcId) (node : ProcNode) : List Diagnostic :=
  match c.definition? id with
  | none =>
    [{ kind := .unresolvedProcedure, subject := .proc id,
       message := "unknown procedure '" ++ node.procedure ++ "'",
       hint := some "check the procedure id against the loaded catalogs" }]
  | some d =>
    match d.types.find? fun t => !c.catalog.knows t with
    | none => []
    | some t =>
      [{ kind := .unknownType, subject := .proc id,
         message := "procedure '" ++ node.procedure ++ "' uses unknown type '" ++ t ++ "'" }]

def symbolProblems (c : Context) (subject : Subject) (s : SymbolRef) : List Diagnostic :=
  match c.lookup s with
  | .ok _ => []
  | .error reason =>
    [{ kind := .unresolvedSymbolSource, subject,
       message := "cannot resolve '" ++ s.text ++ "': " ++ reason.text }]

/-- Whether a declared type and the type of what is read are both known and differ. -/
def typesDiffer (c : Context) (declared : TypeId) (actual : Option TypeId) : Bool :=
  match actual with
  | none => false
  | some actual => declared ≠ actual && c.catalog.knows declared && c.catalog.knows actual

def bindingProblems (c : Context) (id : ProcId) (node : ProcNode) (slot : String)
    (symbol : SymbolRef) : List Diagnostic :=
  let b := c.bindingOf id slot symbol
  let subject := Subject.binding id slot
  let unmatched :=
    if (c.definition? id).isSome && b.expected.isNone then
      [{ kind := .unmatchedInputSlot, subject,
         message := "procedure '" ++ node.procedure ++ "' has no input slot '" ++ slot ++ "'" }]
    else []
  let mismatch :=
    match b.expected, b.resolution.type? with
    | some expected, some actual =>
      if c.typesDiffer expected.type (some actual) then
        [{ kind := .typeMismatch, subject,
           message := "slot '" ++ slot ++ "' expects '" ++ expected.type ++ "' but '" ++ symbol.text
            ++ "' is '" ++ actual ++ "'" }]
      else []
    | _, _ => []
  c.symbolProblems subject symbol ++ unmatched ++ mismatch

def missingSlots (c : Context) (id : ProcId) (node : ProcNode) : List Diagnostic :=
  match c.definition? id with
  | none => []
  | some d => d.inputs.filterMap fun slot =>
      if node.inputs.contains slot.name then none
      else some
        { kind := .missingInputSlot, subject := .proc id,
          message := "input slot '" ++ slot.name ++ "' of '" ++ node.procedure ++ "' is not bound" }

def nodeProblems (c : Context) (id : ProcId) (node : ProcNode) : List Diagnostic :=
  c.procedureProblems id node
    ++ node.inputs.entries.flatMap (fun (slot, symbol) => c.bindingProblems id node slot symbol)
    ++ c.missingSlots id node

def outputProblems (c : Context) (flow id : String) (value : OutputValue) : List Diagnostic :=
  let subject := Subject.outputValue flow id
  let name := "output '" ++ flow ++ "." ++ id ++ "'"
  let unknown :=
    if c.catalog.knows value.type then []
    else
      [{ kind := .unknownType, subject,
         message := name ++ " has unknown type '" ++ value.type ++ "'" }]
  let mismatch :=
    match (c.resolve value.source).type? with
    | some actual =>
      if c.typesDiffer value.type (some actual) then
        [{ kind := .typeMismatch, subject,
           message := name ++ " is declared '" ++ value.type ++ "' but '" ++ value.source.text
            ++ "' is '" ++ actual ++ "'" }]
      else []
    | none => []
  unknown ++ c.symbolProblems subject value.source ++ mismatch


/-! ### Control edges -/

def edgeStartProblems (c : Context) (id : EdgeId) (e : Edge) : List Diagnostic :=
  match e.source with
  | .entry => []
  | .proc node flow =>
    match c.graph.proc? node with
    | none =>
      [{ kind := .unknownNode, subject := .edge id,
         message := "edge " ++ e.text ++ " starts at unknown node " ++ node.text }]
    | some procNode =>
      match c.definition? node with
      | none => []
      | some d =>
        if (d.flow? flow).isSome then []
        else
          [{ kind := .flowNameMismatch, subject := .edge id,
             message := "edge " ++ e.text ++ ": '" ++ procNode.procedure ++ "' has no output flow '"
              ++ flow ++ "'",
             hint := some ("declared flows: " ++ ", ".intercalate d.flowNames) }]

def edgeEndProblems (c : Context) (id : EdgeId) (e : Edge) : List Diagnostic :=
  match e.target with
  | .proc node =>
    if (c.graph.proc? node).isSome then []
    else
      [{ kind := .unknownNode, subject := .edge id,
         message := "edge " ++ e.text ++ " ends at unknown node " ++ node.text }]
  | .output flow =>
    if c.graph.outputFlows.contains flow then []
    else
      [{ kind := .flowNameMismatch, subject := .edge id,
         message := "edge " ++ e.text ++ ": output flow '" ++ flow ++ "' is not declared" }]

def edgeProblems (c : Context) (id : EdgeId) (e : Edge) : List Diagnostic :=
  c.edgeStartProblems id e ++ c.edgeEndProblems id e

def incomingProblems (c : Context) (id : ProcId) (node : ProcNode) : List Diagnostic :=
  if c.graph.edges.any fun e => e.target = .proc id then []
  else
    [{ kind := .missingControlEdge, subject := .proc id,
       message := "'" ++ node.procedure ++ "' has no incoming control edge",
       hint := some ("connect entry or a preceding procedure to " ++ id.text) }]

/-- A node that no edge leaves, or flows of it that no edge leaves. Flows are not missed as long as an
edge leaves the node by a name that is no flow. -/
def outgoingProblems (c : Context) (id : ProcId) (node : ProcNode) : List Diagnostic :=
  let labels := (c.outgoing id).map fun o => o.2.1
  if labels.isEmpty then
    [{ kind := .missingControlEdge, subject := .proc id,
       message := "'" ++ node.procedure ++ "' has no outgoing control edge",
       hint := some ("connect " ++ id.text ++ " to a following procedure or an output flow") }]
  else
    match c.definition? id with
    | none => []
    | some d =>
      if labels.any fun flow => (d.flow? flow).isNone then []
      else d.outputs.filterMap fun flow =>
        if flow.name ∈ labels then none
        else some
          { kind := .missingControlEdge, subject := .proc id,
            message := "flow '" ++ flow.name ++ "' of '" ++ node.procedure
              ++ "' has no outgoing control edge" }

def entryProblems (c : Context) : List Diagnostic :=
  if c.graph.procs.isEmpty && (c.successor? .entry).isNone then
    [{ kind := .missingControlEdge, subject := .entry,
       message := "entry has no outgoing control edge",
       hint := some "connect entry to a procedure or an output flow" }]
  else []


/-! ### Edges that meet -/

/-- Whether both ends of an edge exist and it does not lead from a node to itself. Only such edges are
held against each other. -/
def isWired (c : Context) (e : Edge) : Bool :=
  match e.source, e.target with
  | .entry, .proc next => (c.graph.proc? next).isSome
  | .proc node _, .proc next =>
    (c.graph.proc? node).isSome && (c.graph.proc? next).isSome && node ≠ next
  | .entry, .output _ => true
  | .proc node _, .output _ => (c.graph.proc? node).isSome

def sharedSource (first id : EdgeId) (e : Edge) : Diagnostic :=
  let origin := match e.source with
    | .entry => "entry"
    | .proc node flow => "flow '" ++ flow ++ "' of " ++ node.text
  { kind := .duplicateControlEdge, subject := .edge id,
    message := "edge " ++ e.text ++ ": " ++ origin ++ " already continues through " ++ first.text,
    hint := some ("remove " ++ first.text ++ " or " ++ id.text) }

def sharedTarget (first id : EdgeId) (e : Edge) (node : ProcId) : Diagnostic :=
  { kind := .duplicateControlEdge, subject := .edge id,
    message := "edge " ++ e.text ++ ": " ++ node.text ++ " is already entered through " ++ first.text,
    hint := some "use a separate node per branch" }

/-- Holds each wired edge against the earlier ones. `leaving` and `entering` hold the sources and the
nodes that earlier edges have taken; an edge that is reported for its source takes nothing, one that is
reported for its node takes its source only. -/
def sharedEnds (c : Context) (leaving : List (Source × EdgeId)) (entering : List (ProcId × EdgeId)) :
    List (EdgeId × Edge) → List Diagnostic
  | [] => []
  | (id, e) :: rest =>
    if !c.isWired e then sharedEnds c leaving entering rest
    else
      match leaving.lookup e.source with
      | some first => sharedSource first id e :: sharedEnds c leaving entering rest
      | none =>
        match e.target with
        | .output _ => sharedEnds c ((e.source, id) :: leaving) entering rest
        | .proc node =>
          match entering.lookup node with
          | some first =>
            sharedTarget first id e node :: sharedEnds c ((e.source, id) :: leaving) entering rest
          | none => sharedEnds c ((e.source, id) :: leaving) ((node, id) :: entering) rest

def duplicateProblems (c : Context) : List Diagnostic := c.sharedEnds [] [] c.graph.edgesWithIds


/-! ### Cycles and scope -/

def cycleProblems (c : Context) (cycles : List (List ProcId)) : List Diagnostic :=
  c.graph.procsWithIds.filterMap fun (id, node) =>
    (cycleOf? cycles id).map fun members =>
      { kind := .cyclicDependency, subject := .proc id,
        message := "'" ++ node.procedure ++ "' depends on itself through ["
          ++ ", ".intercalate (members.map ProcId.text) ++ "]" }

def bindingScopeProblems (c : Context) (id : ProcId) : List Diagnostic :=
  match c.scope? id with
  | none => []
  | some scope => (c.bindings id).filterMap fun b =>
      match b.resolution with
      | .proc node flow _ =>
        if (node, flow.name) ∈ scope then none
        else some
          { kind := .symbolOutOfScope, subject := .binding id b.slot,
            message := "'" ++ b.symbol.text ++ "' is not on the control path leading to " ++ id.text }
      | _ => none

/-- Values of an output flow that read a flow which is not on every control path into it. -/
def outputScopeProblems (c : Context) (flow : String) : List Diagnostic :=
  let paths := c.pathsInto flow
  (c.outputs.filter fun o => o.flow = flow).filterMap fun o =>
    match o.resolution with
    | .proc node f _ =>
      if paths.any fun scope => (node, f.name) ∉ scope then
        some
          { kind := .symbolOutOfScope, subject := .outputValue flow o.id,
            message := "'" ++ o.value.source.text
              ++ "' is not on every control path into output flow '" ++ flow ++ "'" }
      else none
    | _ => none

def scopeProblems (c : Context) (cycles : List (List ProcId)) : List Diagnostic :=
  (c.graph.procIds.flatMap fun id =>
      if (cycleOf? cycles id).isSome then [] else c.bindingScopeProblems id)
    ++ c.graph.outputFlows.keys.flatMap c.outputScopeProblems


/-! ### All checks -/

def diagnostics (c : Context) : List Diagnostic :=
  let cycles := c.cycles
  c.inputProblems
    ++ c.graph.procsWithIds.flatMap (fun (id, node) => c.nodeProblems id node)
    ++ c.graph.outputEntries.flatMap (fun (flow, id, value) => c.outputProblems flow id value)
    ++ c.graph.edgesWithIds.flatMap (fun (id, e) => c.edgeProblems id e)
    ++ c.graph.procsWithIds.flatMap (fun (id, node) =>
      c.incomingProblems id node ++ c.outgoingProblems id node)
    ++ c.entryProblems
    ++ c.duplicateProblems
    ++ c.cycleProblems cycles
    ++ c.scopeProblems cycles

def isFullyValid (c : Context) : Bool := c.diagnostics.isEmpty

end ProcFlow.Context
