import ProcFlow.Context.Basic
/-!
# Control paths

The control path to an edge is found by walking back: from the edge to the node it leaves, from there to
the first edge into that node, and so on to the entry. It exists only if each node on it is resolved and
declares the flow that the path leaves it through. The flows on the path are what can be read at its end.
No node comes twice, so the number of nodes bounds the walk.
-/

namespace ProcFlow.Context

/-- The flows on the way back from an edge to the entry, in front of those that were already passed. -/
def walkBack (c : Context) : Nat → Edge → List (ProcId × String) → Option (List (ProcId × String))
  | 0, _, _ => none
  | steps + 1, edge, passed =>
    match edge.source with
    | .entry => some passed
    | .proc node flow =>
      match (c.definition? node).bind fun d => d.flow? flow with
      | none => none
      | some _ =>
        if node ∈ passed.map Prod.fst then none
        else
          match c.firstInto? (.proc node) with
          | none => none
          | some before => walkBack c steps before ((node, flow) :: passed)

def controlPath? (c : Context) (edge : Edge) : Option (List (ProcId × String)) :=
  c.walkBack (c.graph.procs.length + 1) edge []

/-- What can be read at a node: the flows on the control path that leads into it. -/
def scope? (c : Context) (id : ProcId) : Option (List (ProcId × String)) :=
  (c.firstInto? (.proc id)).bind c.controlPath?

/-- The control paths into an output flow, one for each edge that has one. -/
def pathsInto (c : Context) (flow : String) : List (List (ProcId × String)) :=
  (c.graph.edges.filter fun e => e.target = .output flow).filterMap c.controlPath?

end ProcFlow.Context
