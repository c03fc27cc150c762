/-!
# Identifiers of nodes and edges

The procedure nodes of a graph stand in an arena and its control edges in a list. A node or an edge is
named by its position, so two nodes that look alike are still two nodes, and an identifier may point
outside of the graph.
-/

namespace ProcFlow

structure ProcId where
  index : Nat
  deriving DecidableEq, Repr, Inhabited

structure EdgeId where
  index : Nat
  deriving DecidableEq, Repr, Inhabited

def ProcId.text (id : ProcId) : String := "n" ++ id.index.repr

def EdgeId.text (id : EdgeId) : String := "e" ++ id.index.repr

/-- How many identifiers there are of each kind: they are 32-bit numbers. -/
def idLimit : Nat := UInt32.size


/-! ### Handing out identifiers -/

structure IdAllocator where
  nextProc : Nat := 0
  nextEdge : Nat := 0
  deriving DecidableEq, Repr

namespace IdAllocator

/-- Continues after `procs` nodes and `edges` edges, each counted in 32 bits. -/
def startingAt (procs edges : Nat) : IdAllocator :=
  ⟨procs % idLimit, edges % idLimit⟩

def allocProc (ids : IdAllocator) : ProcId × IdAllocator :=
  (⟨ids.nextProc⟩, { ids with nextProc := ids.nextProc + 1 })

def allocEdge (ids : IdAllocator) : EdgeId × IdAllocator :=
  (⟨ids.nextEdge⟩, { ids with nextEdge := ids.nextEdge + 1 })

end IdAllocator

end ProcFlow
