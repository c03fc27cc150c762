import ProcFlow.Catalog.Definition
/-!
# A graph in the light of a catalog

A context is a graph together with the definitions it is read against. It answers what each procedure
node is, what each symbol stands for, and where control goes. Asking never fails; a symbol that stands
for nothing resolves to that answer.
-/

namespace ProcFlow

inductive Resolution where
  | entry (key : String) (decl : InputDecl)
  | proc (node : ProcId) (flow : FlowDef) (value : Slot)
  /-- The node that the symbol comes from has no definition, which is reported on that node. -/
  | undefinedOrigin
  | unresolved
  deriving DecidableEq, Repr

namespace Resolution

def isResolved : Resolution → Bool
  | entry _ _ | proc _ _ _ => true
  | undefinedOrigin | unresolved => false

def type? : Resolution → Option TypeId
  | entry _ decl => some decl.type
  | proc _ _ value => some value.type
  | undefinedOrigin | unresolved => none

end Resolution

inductive Unresolvable where
  | noInput (id : String)
  | noNode (node : ProcId)
  | noFlow (node : ProcId) (flow : String)
  | noValue (node : ProcId) (flow id : String)
  deriving DecidableEq, Repr

def Unresolvable.text : Unresolvable → String
  | noInput id => "entry has no input '" ++ id ++ "'"
  | noNode node => "node " ++ node.text ++ " does not exist"
  | noFlow node flow => node.text ++ " has no output flow '" ++ flow ++ "'"
  | noValue node flow id => "flow '" ++ flow ++ "' of " ++ node.text ++ " carries no '" ++ id ++ "'"

structure Binding where
  slot : String
  symbol : SymbolRef
  expected : Option Slot
  resolution : Resolution
  deriving DecidableEq, Repr

structure OutputBinding where
  flow : String
  id : String
  value : OutputValue
  resolution : Resolution
  deriving DecidableEq, Repr

structure Context where
  graph : Graph
  catalog : Definitions

namespace Context

/-- The definition of a procedure node; none if it has none or is not in the arena. -/
def definition? (c : Context) (id : ProcId) : Option Definition :=
  (c.graph.proc? id).bind fun node => c.catalog.definition? node.procedure

def lookup (c : Context) (s : SymbolRef) : Except Unresolvable Resolution :=
  match s.origin with
  | .entry =>
    match c.graph.inputs.get? s.id with
    | some decl => .ok (.entry s.id decl)
    | none => .error (.noInput s.id)
  | .proc node flow =>
    if (c.graph.proc? node).isNone then .error (.noNode node)
    else
      match c.definition? node with
      | none => .ok .undefinedOrigin
      | some d =>
        match d.flow? flow with
        | none => .error (.noFlow node flow)
        | some f =>
          match f.value? s.id with
          | none => .error (.noValue node flow s.id)
          | some value => .ok (.proc node f value)

def resolve (c : Context) (s : SymbolRef) : Resolution :=
  match c.lookup s with
  | .ok r => r
  | .error _ => .unresolved

def bindingOf (c : Context) (id : ProcId) (slot : String) (symbol : SymbolRef) : Binding where
  slot
  symbol
  expected := (c.definition? id).bind fun d => d.input? slot
  resolution := c.resolve symbol

def bindings (c : Context) (id : ProcId) : List Binding :=
  match c.graph.proc? id with
  | none => []
  | some node => node.inputs.entries.map fun (slot, symbol) => c.bindingOf id slot symbol

def binding? (c : Context) (id : ProcId) (slot : String) : Option Binding :=
  (c.bindings id).find? fun b => b.slot = slot

def outputs (c : Context) : List OutputBinding :=
  c.graph.outputEntries.map fun (flow, id, value) => ⟨flow, id, value, c.resolve value.source⟩

def output? (c : Context) (flow id : String) : Option OutputBinding :=
  c.outputs.find? fun o => o.flow = flow ∧ o.id = id

/-- The first edge that leaves a source, in the order of the edges. -/
def successor? (c : Context) (source : Source) : Option (EdgeId × Edge) :=
  c.graph.edgesWithIds.find? fun (_, e) => e.source = source

def firstInto? (c : Context) (target : Target) : Option Edge :=
  c.graph.edges.find? fun e => e.target = target

def outgoing (c : Context) (id : ProcId) : List (EdgeId × String × Edge) :=
  c.graph.edgesWithIds.filterMap fun (edgeId, e) =>
    match e.source with
    | .proc node flow => if node = id then some (edgeId, flow, e) else none
    | .entry => none

end Context

end ProcFlow
