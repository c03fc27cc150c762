import ProcFlow.Context.Basic
import ProcFlow.Digraph.Components
/-!
# Dependency cycles

A node depends on what runs right before it and on what its inputs read. A control edge from a flow of
one node to another, and an input of a node that reads a value of another, both lead from the earlier
node to the later one. A node that leads back to itself can never run.
-/

namespace ProcFlow.Context

/-- The nodes that a node leads to: by control edges, then as the origin of what inputs read. Nodes
outside of the arena do not count. -/
def dependents (c : Context) (id : ProcId) : List Nat :=
  let byControl := c.graph.edges.filterMap fun e =>
    match e.source, e.target with
    | .proc node _, .proc next => if node = id ∧ (c.graph.proc? next).isSome then some next.index else none
    | _, _ => none
  let byData := c.graph.procsWithIds.flatMap fun (reader, node) =>
    node.inputs.values.filterMap fun symbol =>
      match symbol.origin with
      | .proc origin _ => if origin = id then some reader.index else none
      | .entry => none
  byControl ++ byData

def dependencies (c : Context) : Digraph :=
  ⟨(c.graph.procIds.map c.dependents).toArray⟩

/-- The dependency cycles: each ascending, in the order of their first members. -/
def cycles (c : Context) : List (List ProcId) :=
  c.dependencies.cycles.map fun members => members.map ProcId.mk

def cycleOf? (cycles : List (List ProcId)) (id : ProcId) : Option (List ProcId) :=
  cycles.find? fun members => id ∈ members

def isOnCycle (c : Context) (id : ProcId) : Bool := (cycleOf? c.cycles id).isSome

end ProcFlow.Context
