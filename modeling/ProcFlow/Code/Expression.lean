import ProcFlow.Code.Parameter
import ProcFlow.Code.Route
/-!
# Expressions and types of generated code

What is generated depends on a context, which says what symbols stand for, and on implementations, which
give the templates and the spelling of types. The two may come from different catalogs. Whatever cannot
be resolved becomes a placeholder, an identifier that is declared nowhere.
-/

namespace ProcFlow.Code

structure Setup where
  context : Context
  implementations : Implementations
  /-- The text that stands for whatever cannot be resolved. -/
  placeholder : String := "__unresolved__"

/-- Fields between braces: `{ a, b }`, or `{}` without any. -/
def braced (separator : String) (fields : List String) : String :=
  if fields.isEmpty then "\x7b\x7d" else "\x7b " ++ separator.intercalate fields ++ " \x7d"

def objectLiteral (fields : List String) : String := braced ", " fields

def objectType (fields : List String) : String := braced "; " fields

/-- The body of an arrow function; an object literal needs parentheses. -/
def arrowBody (body : String) : String :=
  match body.toList with
  | '\x7b' :: _ => "(" ++ body ++ ")"
  | _ => body

namespace Setup

def hostType (s : Setup) (type : TypeId) : String :=
  (s.implementations.host? type).getD s.placeholder

def flowType (s : Setup) (f : FlowDef) : String :=
  objectType (f.values.map fun v => objectKey v.name ++ ": " ++ s.hostType v.type)

def outputType (s : Setup) (flow : String) : String :=
  let values := (s.context.graph.outputFlows.get? flow).getD .empty
  objectType (values.entries.map fun (id, value) => objectKey id ++ ": " ++ s.hostType value.type)

/-- The definition and the template of a node, if it has both. -/
def resolved? (s : Setup) (node : ProcId) : Option (Definition × Template) := do
  let procNode ← s.context.graph.proc? node
  let d ← s.context.definition? node
  let t ← s.implementations.template? procNode.procedure
  return (d, t)

def outgoingLabels (s : Setup) (node : ProcId) : List String :=
  ((s.context.outgoing node).map fun o => o.2.1).eraseDups


/-! ### What symbols stand for -/

def symbolExpr (s : Setup) : Resolution → String
  | .entry key _ => ((parameterNames s.context.graph).lookup key).getD s.placeholder
  | .proc node flow value => flowVar node flow.name ++ member value.name
  | .undefinedOrigin | .unresolved => s.placeholder

def inputExpr (s : Setup) (node : ProcId) (slot : String) : String :=
  match s.context.binding? node slot with
  | some b => s.symbolExpr b.resolution
  | none => s.placeholder

def outputExpr (s : Setup) (flow : String) : String :=
  objectLiteral ((s.context.outputs.filter fun o => o.flow = flow).map fun o =>
    objectKey o.id ++ ": " ++ s.symbolExpr o.resolution)

/-- The code of a node: its template with the inputs filled in, and the exits as given. -/
def nodeExpr (s : Setup) (node : ProcId) (t : Template) (exit : String → String) : String :=
  t.render (s.inputExpr node) exit


/-! ### The signature -/

def parameters (s : Setup) : List String :=
  (s.context.graph.inputs.entries.zip (parameterNames s.context.graph)).map
    fun ((_, decl), (_, name)) => name ++ ": " ++ s.hostType decl.type

/-- The signature of a function that leaves by calling one of the continuations `__k`. -/
def continuationSignature (s : Setup) : String :=
  let exits := s.context.graph.outputFlows.keys.map fun flow =>
    objectKey flow ++ ": (out: " ++ s.outputType flow ++ ") => R"
  "<R>(" ++ ", ".intercalate (s.parameters ++ ["__k: " ++ objectLiteral exits]) ++ "): R"

/-- The signature of a function that returns the output flow together with its values. -/
def unionSignature (s : Setup) : String :=
  let alternatives := s.context.graph.outputFlows.keys.map fun flow =>
    "\x7b flow: " ++ Json.quote flow ++ "; value: " ++ s.outputType flow ++ " \x7d"
  let result := if alternatives.isEmpty then "never" else " | ".intercalate alternatives
  "(" ++ ", ".intercalate s.parameters ++ "): " ++ result

end Setup

end ProcFlow.Code
