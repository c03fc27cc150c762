import ProcFlow.Code.Expression
/-!
# Code in continuation style

A function as one expression. Each exit of a node becomes a function that takes the values of the flow
and goes on with what lies ahead; the template of the node calls it. Nodes that the entry does not lead to
are evaluated for nothing in front of the result.
-/

namespace ProcFlow.Code.Setup

/-- The labels that are followed at a node: the exits of its template, or the labels of its edges. -/
def continuationLabels (s : Setup) (node : ProcId) : List String :=
  match s.resolved? node with
  | some (_, t) => t.exits
  | none => s.outgoingLabels node

def labelType (s : Setup) (node : ProcId) (label : String) : String :=
  match s.resolved? node with
  | some (d, _) =>
    match d.flow? label with
    | some f => s.flowType f
    | none => s.placeholder
  | none => "any"

def lambda (s : Setup) (node : ProcId) (label body : String) : String :=
  "((" ++ flowVar node label ++ ": " ++ s.labelType node label ++ ") => " ++ arrowBody body ++ ")"

def leaveExpr (s : Setup) (flow : String) : String :=
  if s.context.graph.outputFlows.contains flow then
    "__k" ++ member flow ++ "(" ++ s.outputExpr flow ++ ")"
  else s.placeholder

def callExpr (s : Setup) (node : ProcId) (lambdas : List (String × String)) : String :=
  match s.resolved? node with
  | some (_, t) => s.nodeExpr node t fun exit => (lambdas.lookup exit).getD s.placeholder
  | none =>
    if lambdas.isEmpty then s.placeholder
    else s.placeholder ++ "(" ++ ", ".intercalate (lambdas.map Prod.snd) ++ ")"

mutual

def routeExpr (s : Setup) : Route → String
  | .deadEnd _ => s.placeholder
  | .leave flow => s.leaveExpr flow
  | .missing _ => s.placeholder
  | .repeated _ => s.placeholder
  | .step node branches => s.callExpr node (branchLambdas s node branches)

def branchLambdas (s : Setup) (node : ProcId) : List (String × Route) → List (String × String)
  | [] => []
  | (label, next) :: rest =>
    (label, s.lambda node label (routeExpr s next)) :: branchLambdas s node rest

end

def continuationPlan (s : Setup) : Plan := .ofContext s.context s.continuationLabels

def continuationBody (s : Setup) : String :=
  let plan := s.continuationPlan
  let main := s.routeExpr plan.main
  if plan.detached.isEmpty then arrowBody main
  else
    let detached := plan.detached.map fun (_, route) => "void (" ++ s.routeExpr route ++ ")"
    "(" ++ ", ".intercalate detached ++ ", " ++ main ++ ")"

def continuation (s : Setup) : String :=
  s.continuationSignature ++ " => " ++ s.continuationBody ++ "\n"

end ProcFlow.Code.Setup
