import ProcFlow.Context.Basic
/-!
# Routes

Code follows the control edges from the entry. A route is what lies ahead of some point: it ends in an
output flow or in a dead end, or it steps into a node and branches there, once for each label that is
followed at the node. Each node is stepped into only once; coming to it again is an end of its own. The
nodes that the entry does not lead to are stepped into afterwards, in the order of the arena.

The number of nodes bounds the depth of the steps, because each step takes a node that none before has
taken.
-/

namespace ProcFlow.Code

/-- What lies ahead of a point of the control flow. -/
inductive Route where
  | deadEnd (source : Source)
  /-- An output flow of the graph, declared or not. -/
  | leave (flow : String)
  | missing (node : ProcId)
  | repeated (node : ProcId)
  /-- A step into a node, and what lies ahead of each label that is followed there. -/
  | step (node : ProcId) (branches : List (String × Route))
  deriving Repr

namespace Route

mutual

def nodes : Route → List ProcId
  | step node branches => node :: branchNodes branches
  | _ => []

def branchNodes : List (String × Route) → List ProcId
  | [] => []
  | (_, next) :: rest => nodes next ++ branchNodes rest

end

/-- What lies ahead of a source, given how nodes are stepped into. -/
def follow (c : Context) (enter : ProcId → List ProcId → Route × List ProcId) (source : Source)
    (seen : List ProcId) : Route × List ProcId :=
  match c.successor? source with
  | none => (deadEnd source, seen)
  | some (_, e) =>
    match e.target with
    | .output flow => (leave flow, seen)
    | .proc node => enter node seen

def branches (c : Context) (enter : ProcId → List ProcId → Route × List ProcId) (node : ProcId) :
    List String → List ProcId → List (String × Route) × List ProcId
  | [], seen => ([], seen)
  | label :: rest, seen =>
    let (next, seen) := follow c enter (.proc node label) seen
    let (others, seen) := branches c enter node rest seen
    ((label, next) :: others, seen)

/-- Steps into a node. `seen` holds the nodes that have been stepped into, and is returned with the ones
that were added. `depth` bounds how deep the steps go. -/
def enter (c : Context) (labels : ProcId → List String) :
    Nat → ProcId → List ProcId → Route × List ProcId
  | 0, node, seen => (repeated node, seen)
  | depth + 1, node, seen =>
    if (c.graph.proc? node).isNone then (missing node, seen)
    else if node ∈ seen then (repeated node, seen)
    else
      let (taken, seen) := branches c (enter c labels depth) node (labels node) (node :: seen)
      (step node taken, seen)

end Route

/-- The route from the entry, and a route for each node that is left over, in the order of the arena. -/
structure Plan where
  main : Route
  detached : List (ProcId × Route)

namespace Plan

def nodes (p : Plan) : List ProcId := p.main.nodes ++ p.detached.flatMap fun d => d.2.nodes

def leftOver (enter : ProcId → List ProcId → Route × List ProcId) :
    List ProcId → List ProcId → List (ProcId × Route)
  | [], _ => []
  | node :: rest, seen =>
    if node ∈ seen then leftOver enter rest seen
    else
      let (route, seen) := enter node seen
      (node, route) :: leftOver enter rest seen

def ofContext (c : Context) (labels : ProcId → List String) : Plan :=
  let enter := Route.enter c labels (c.graph.procs.length + 1)
  let (main, seen) := Route.follow c enter .entry []
  ⟨main, leftOver enter c.graph.procIds seen⟩

end Plan

end ProcFlow.Code
