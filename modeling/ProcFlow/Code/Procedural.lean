import ProcFlow.Code.Expression
/-!
# Procedural code

A function as statements, line by line. A node with one flow binds the values of that flow and goes on; a
node with several flows binds its outcome and switches over it, each case being a block of its own. Every
path ends in a return. The two procedural flavours share all lines but the signature and the way in which
an output flow is left.
-/

namespace ProcFlow.Code

/-- How a function is left through an output flow: by calling a continuation, or by returning the flow and
its values. -/
inductive ExitStyle where
  | continuation
  | union
  deriving DecidableEq, Repr

inductive Statement where
  | header (signature : String)
  | comment (text : String)
  | bind (name value : String)
  | run (expression : String)
  | giveBack (value : String)
  | leave (flow value : String)
  | switchOn (name : String)
  | onFlow (flow : String)
  | openBlock
  | closeBlock
  deriving DecidableEq, Repr

def Statement.text (style : ExitStyle) : Statement → String
  | header signature => signature ++ " => \x7b"
  | comment text => "// " ++ text
  | bind name value => "const " ++ name ++ " = " ++ value ++ ";"
  | run expression => expression ++ ";"
  | giveBack value => "return " ++ value ++ ";"
  | leave flow value =>
    match style with
    | .continuation => "return __k" ++ member flow ++ "(" ++ value ++ ");"
    | .union => "return \x7b flow: " ++ Json.quote flow ++ ", value: " ++ value ++ " \x7d;"
  | switchOn name => "switch (" ++ name ++ ".flow) \x7b"
  | onFlow flow => "case " ++ Json.quote flow ++ ": \x7b"
  | openBlock => "\x7b"
  | closeBlock => "\x7d"

structure Line where
  depth : Nat
  statement : Statement
  deriving DecidableEq, Repr

def Line.text (style : ExitStyle) (l : Line) : String :=
  "".pushn ' ' (2 * l.depth) ++ l.statement.text style ++ "\n"

namespace Setup

/-- The labels that are followed at a node: its declared flows, or the labels of its edges. -/
def proceduralLabels (s : Setup) (node : ProcId) : List String :=
  match s.resolved? node with
  | some (d, _) => d.flowNames
  | none => s.outgoingLabels node

/-- The function that an exit becomes when its node has several flows: it tags the values with the
flow. -/
def taggingExit (s : Setup) (f : FlowDef) : String :=
  "((v: " ++ s.flowType f ++ ") => (\x7b flow: " ++ Json.quote f.name ++ " as const, value: v \x7d))"

/-- What an exit of a template becomes. The only flow of a node needs no tag; of several flows with one
name, the last one counts. -/
def exitExpr (s : Setup) (d : Definition) (exit : String) : String :=
  match d.outputs with
  | [f] => if exit = f.name then "" else s.placeholder
  | flows =>
    match flows.reverse.find? fun f => f.name = exit with
    | some f => s.taggingExit f
    | none => s.placeholder

def stepExpr (s : Setup) (node : ProcId) (d : Definition) (t : Template) : String :=
  s.nodeExpr node t (s.exitExpr d)

def unresolvedComment (s : Setup) (node : ProcId) : String :=
  let procedure := ((s.context.graph.proc? node).map ProcNode.procedure).getD ""
  node.text ++ ": procedure '" ++ commentText procedure ++ "' is unresolved"

def stub (s : Setup) (comment : String) : List Statement :=
  [.comment comment, .giveBack s.placeholder]

def leaveStatements (s : Setup) (flow : String) : List Statement :=
  if s.context.graph.outputFlows.contains flow then [.leave flow (s.outputExpr flow)]
  else s.stub ("output flow '" ++ commentText flow ++ "' is not declared")

def finalStep (s : Setup) (node : ProcId) : List Statement :=
  match s.resolved? node with
  | some (d, t) => .run (s.stepExpr node d t) :: s.stub (node.text ++ " has no output flows")
  | none =>
    [.comment (s.unresolvedComment node), .bind (nodeVar node) s.placeholder,
      .giveBack s.placeholder]

def singleStep (s : Setup) (node : ProcId) (flow : String) : List Statement :=
  match s.resolved? node with
  | some (d, t) => [.bind (flowVar node flow) (s.stepExpr node d t)]
  | none =>
    [.comment (s.unresolvedComment node), .bind (nodeVar node) s.placeholder,
      .bind (flowVar node flow) (nodeVar node)]

def switchStep (s : Setup) (node : ProcId) : List Statement :=
  match s.resolved? node with
  | some (d, t) => [.bind (nodeVar node) (s.stepExpr node d t), .switchOn (nodeVar node)]
  | none =>
    [.comment (s.unresolvedComment node), .bind (nodeVar node) s.placeholder,
      .switchOn (nodeVar node)]

def linesAt (depth : Nat) (statements : List Statement) : List Line := statements.map (Line.mk depth)

mutual

def routeLines (s : Setup) (depth : Nat) : Route → List Line
  | .deadEnd source => linesAt depth (s.stub ("no control edge leaves " ++ source.text))
  | .leave flow => linesAt depth (s.leaveStatements flow)
  | .missing node => linesAt depth (s.stub (node.text ++ " does not exist"))
  | .repeated node => linesAt depth (s.stub (node.text ++ " was already emitted"))
  | .step node [] => linesAt depth (s.finalStep node)
  | .step node [(flow, next)] => linesAt depth (s.singleStep node flow) ++ routeLines s depth next
  | .step node branches =>
    linesAt depth (s.switchStep node) ++ caseLines s depth node branches ++ linesAt depth [.closeBlock]

def caseLines (s : Setup) (depth : Nat) (node : ProcId) : List (String × Route) → List Line
  | [] => []
  | (flow, next) :: rest =>
    linesAt (depth + 1) [.onFlow flow]
      ++ linesAt (depth + 2) [.bind (flowVar node flow) (nodeVar node ++ ".value")]
      ++ routeLines s (depth + 2) next ++ linesAt (depth + 1) [.closeBlock]
      ++ caseLines s depth node rest

end

def detachedLines (s : Setup) (node : ProcId) (route : Route) : List Line :=
  linesAt 1 [.comment (node.text ++ " is not reachable from entry"), .openBlock]
    ++ s.routeLines 2 route ++ linesAt 1 [.closeBlock]

def proceduralPlan (s : Setup) : Plan := .ofContext s.context s.proceduralLabels

def bodyLines (s : Setup) : List Line :=
  s.routeLines 1 s.proceduralPlan.main
    ++ s.proceduralPlan.detached.flatMap fun (node, route) => s.detachedLines node route

def signature (s : Setup) : ExitStyle → String
  | .continuation => s.continuationSignature
  | .union => s.unionSignature

def proceduralLines (s : Setup) (style : ExitStyle) : List Line :=
  linesAt 0 [.header (s.signature style)] ++ s.bodyLines ++ linesAt 0 [.closeBlock]

def procedural (s : Setup) (style : ExitStyle) : String :=
  String.join ((s.proceduralLines style).map (Line.text style))

end Setup

end ProcFlow.Code
