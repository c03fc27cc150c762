import ProcFlow.Graph.Basic
import ProcFlow.Template.Basic
/-!
# Procedure definitions and how they are looked up

A definition is the signature of a procedure: its input slots, and its output flows with the values they
carry. Checking a graph needs definitions and types; generating code needs templates and the spelling of
types. Each side asks for no more than the two look-ups it needs, so both can be answered by a checked
catalog, by an unchecked manifest, or by anything else.
-/

namespace ProcFlow

/-- A named slot with its type: an input of a procedure, or a value that a flow carries. -/
structure Slot where
  name : String
  type : TypeId
  deriving DecidableEq, Repr, Inhabited

/-- An output flow of a procedure: one of its outcomes, and the values that come with it. -/
structure FlowDef where
  name : String
  values : List Slot
  deriving DecidableEq, Repr, Inhabited

structure Definition where
  inputs : List Slot
  outputs : List FlowDef
  deriving DecidableEq, Repr, Inhabited

def FlowDef.value? (f : FlowDef) (name : String) : Option Slot :=
  f.values.find? fun v => v.name = name

namespace Definition

def input? (d : Definition) (name : String) : Option Slot :=
  d.inputs.find? fun s => s.name = name

def flow? (d : Definition) (name : String) : Option FlowDef :=
  d.outputs.find? fun f => f.name = name

def flowNames (d : Definition) : List String := d.outputs.map FlowDef.name

/-- The types that a definition mentions: those of the inputs, then those of each flow's values. -/
def types (d : Definition) : List TypeId :=
  d.inputs.map Slot.type ++ d.outputs.flatMap fun f => f.values.map Slot.type

end Definition


/-! ### Look-ups -/

/-- What is needed to check a graph: the definition of each procedure, and which types there are, with
their spelling. -/
structure Definitions where
  definition? : String → Option Definition
  host? : TypeId → Option String

def Definitions.knows (ds : Definitions) (type : TypeId) : Bool := (ds.host? type).isSome

/-- What is needed to generate code: the template of each procedure, and the spelling of each type. -/
structure Implementations where
  template? : String → Option Template
  host? : TypeId → Option String

end ProcFlow
