/-!
# Strongly connected components

A directed graph on the numbers below its size, given by the successors of each. Two vertices are in one
component when each leads to the other. The components are found in one search through all vertices,
after Tarjan and without recursion.

The search numbers the vertices as it meets them and puts them on a stack. Of each vertex that is being
looked at, it keeps the successors that are left to look at, and the least number of a vertex on the stack
that it is known to lead to. A vertex that leads to none before itself is the first of its component, and
the component is what the stack holds from there on.
-/

namespace ProcFlow

structure Digraph where
  successors : Array (List Nat)
  deriving DecidableEq, Repr

namespace Digraph

def size (d : Digraph) : Nat := d.successors.size

def next (d : Digraph) (v : Nat) : List Nat := d.successors[v]?.getD []

def edgeCount (d : Digraph) : Nat := d.successors.toList.flatten.length

structure Search where
  index : Array (Option Nat)
  /-- The least number of a vertex on the stack that a vertex is known to lead to. -/
  low : Array Nat
  onStack : Array Bool
  /-- The vertices that were met and are in no component yet, the last one first. -/
  stack : List Nat
  count : Nat
  found : List (List Nat)
  /-- The vertices that are being looked at, each with the successors that are left, the last one
  first. -/
  frames : List (Nat × List Nat)

namespace Search

def start (d : Digraph) : Search where
  index := Array.replicate d.size none
  low := Array.replicate d.size 0
  onStack := Array.replicate d.size false
  stack := []
  count := 0
  found := []
  frames := []

def index? (s : Search) (v : Nat) : Option Nat := s.index[v]?.getD none

def lowOf (s : Search) (v : Nat) : Nat := s.low[v]?.getD 0

def waits (s : Search) (v : Nat) : Bool := s.onStack[v]?.getD false

def enter (d : Digraph) (s : Search) (v : Nat) : Search :=
  { s with
    index := s.index.setIfInBounds v (some s.count)
    low := s.low.setIfInBounds v s.count
    onStack := s.onStack.setIfInBounds v true
    stack := v :: s.stack
    count := s.count + 1
    frames := (v, d.next v) :: s.frames }

def lower (s : Search) (v i : Nat) : Search :=
  { s with low := s.low.setIfInBounds v (min (s.lowOf v) i) }

/-- Takes a component off the stack, down to its first vertex. -/
def close (s : Search) (v : Nat) : Search :=
  let members := s.stack.takeWhile (· ≠ v) ++ [v]
  { s with
    stack := s.stack.drop members.length
    onStack := members.foldl (fun onStack w => onStack.setIfInBounds w false) s.onStack
    found := members :: s.found }

def look (d : Digraph) (s : Search) (v w : Nat) : Search :=
  match s.index? w with
  | none => s.enter d w
  | some i => if s.waits w then s.lower v i else s

/-- Is done with a vertex: the vertex that it was met from leads to whatever it leads to. -/
def leave (s : Search) (v : Nat) : Search :=
  let s := match s.frames with
    | [] => s
    | (parent, _) :: _ => s.lower parent (s.lowOf v)
  if s.index? v = some (s.lowOf v) then s.close v else s

def step (d : Digraph) (s : Search) : Search :=
  match s.frames with
  | [] => s
  | (v, w :: rest) :: frames => look d { s with frames := (v, rest) :: frames } v w
  | (v, []) :: frames => { s with frames }.leave v

def run (d : Digraph) : Nat → Search → Search
  | 0, s => s
  | steps + 1, s => if s.frames.isEmpty then s else run d steps (s.step d)

def visit (d : Digraph) (steps : Nat) (s : Search) (root : Nat) : Search :=
  if (s.index? root).isSome then s else (s.enter d root).run d steps

end Search

/-- The search through all vertices. Each vertex is left once and each edge looked at once, so the number
of both bounds the steps. -/
def search (d : Digraph) : Search :=
  (List.range d.size).foldl (Search.visit d (d.edgeCount + d.size)) (Search.start d)

/-- The strongly connected components. A component comes after every other component that it leads to. -/
def components (d : Digraph) : List (List Nat) := d.search.found.reverse

/-- Whether a component holds a cycle: it has two vertices, or one with an edge to itself. -/
def isCyclic (d : Digraph) : List Nat → Bool
  | [] => false
  | [v] => v ∈ d.next v
  | _ :: _ :: _ => true

/-- The components that hold a cycle, each ascending, in the order of their least vertices. -/
def cycles (d : Digraph) : List (List Nat) :=
  ((d.components.filter d.isCyclic).map fun members => members.mergeSort).mergeSort
    fun c c' => c.headD 0 ≤ c'.headD 0

end Digraph

end ProcFlow
