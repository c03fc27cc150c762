import ProcFlow.Graph.Basic
/-!
# Diagnostics

A diagnostic says what is wrong with one part of a graph. It names the part that owns the problem, so
that a node or an edge can be asked for its own problems, and carries a stable code for its kind.
-/

namespace ProcFlow

namespace Diagnostic

inductive Kind where
  | unresolvedProcedure
  | unmatchedInputSlot
  | missingInputSlot
  | unresolvedSymbolSource
  | symbolOutOfScope
  | typeMismatch
  | unknownType
  | missingControlEdge
  | flowNameMismatch
  | cyclicDependency
  | unknownNode
  | duplicateControlEdge
  deriving DecidableEq, Repr

/-- The code of a kind. A code never changes its meaning. -/
def Kind.code : Kind → String
  | .unresolvedProcedure => "E0101"
  | .unmatchedInputSlot => "E0102"
  | .missingInputSlot => "E0103"
  | .unresolvedSymbolSource => "E0104"
  | .symbolOutOfScope => "E0105"
  | .typeMismatch => "E0106"
  | .unknownType => "E0107"
  | .missingControlEdge => "E0108"
  | .flowNameMismatch => "E0109"
  | .cyclicDependency => "E0110"
  | .unknownNode => "E0111"
  | .duplicateControlEdge => "E0112"

def Kind.name : Kind → String
  | .unresolvedProcedure => "UnresolvedProcedure"
  | .unmatchedInputSlot => "UnmatchedInputSlot"
  | .missingInputSlot => "MissingInputSlot"
  | .unresolvedSymbolSource => "UnresolvedSymbolSource"
  | .symbolOutOfScope => "SymbolOutOfScope"
  | .typeMismatch => "TypeMismatch"
  | .unknownType => "UnknownType"
  | .missingControlEdge => "MissingControlEdge"
  | .flowNameMismatch => "FlowNameMismatch"
  | .cyclicDependency => "CyclicDependency"
  | .unknownNode => "UnknownNode"
  | .duplicateControlEdge => "DuplicateControlEdge"

def Kind.all : List Kind :=
  [.unresolvedProcedure, .unmatchedInputSlot, .missingInputSlot, .unresolvedSymbolSource,
    .symbolOutOfScope, .typeMismatch, .unknownType, .missingControlEdge, .flowNameMismatch,
    .cyclicDependency, .unknownNode, .duplicateControlEdge]

inductive Subject where
  | entry
  | input (key : String)
  | proc (node : ProcId)
  | binding (node : ProcId) (slot : String)
  | outputValue (flow id : String)
  | edge (id : EdgeId)
  deriving DecidableEq, Repr

/-- The node that a part belongs to. Edges belong to no node. -/
def Subject.node? : Subject → Option NodeRef
  | .entry => some .entry
  | .input _ => some .entry
  | .proc node => some (.proc node)
  | .binding node _ => some (.proc node)
  | .outputValue _ _ => some .output
  | .edge _ => none

def Subject.text : Subject → String
  | .entry => "entry"
  | .input key => "input '" ++ key ++ "'"
  | .proc node => node.text
  | .binding node slot => node.text ++ "." ++ slot
  | .outputValue flow id => "output." ++ flow ++ "." ++ id
  | .edge id => "edge " ++ id.text

end Diagnostic

structure Diagnostic where
  kind : Diagnostic.Kind
  subject : Diagnostic.Subject
  message : String
  hint : Option String := none
  deriving DecidableEq, Repr

namespace Diagnostic

def code (d : Diagnostic) : String := d.kind.code

/-- A diagnostic in full. A hint stands on a line of its own. -/
def text (d : Diagnostic) : String :=
  "error[" ++ d.code ++ "]: " ++ d.subject.text ++ ": " ++ d.message ++
    match d.hint with
    | none => ""
    | some hint => "\n  hint: " ++ hint

def about (ds : List Diagnostic) (subject : Subject) : List Diagnostic :=
  ds.filter fun d => d.subject = subject

/-- The diagnostics of a node and of all that belongs to it. -/
def onNode (ds : List Diagnostic) (node : NodeRef) : List Diagnostic :=
  ds.filter fun d => d.subject.node? = some node

def onEdge (ds : List Diagnostic) (id : EdgeId) : List Diagnostic :=
  about ds (.edge id)

end Diagnostic

end ProcFlow
