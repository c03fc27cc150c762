import ProcFlow.Catalog.Definition
import ProcFlow.Graph.Json
/-!
# Catalog manifests

A manifest lists types with their spelling, and procedures with their definition and the source of their
template. It is read from a JSON object with the fields `types` and `procedures`. In a procedure, the
template stands beside the fields of the definition; everything but the template is set aside until the
template has been found.

Nothing is checked here. A manifest can still answer look-ups as it is written; a procedure whose
template cannot be read then has no implementation.
-/

namespace ProcFlow

open Json (Decoder Document Fault)
open Json.Decode (RecordField Shape need)

structure ProcManifest where
  definition : Definition
  template : String
  deriving DecidableEq, Repr, Inhabited

structure Manifest where
  types : Table String
  procedures : Table ProcManifest
  deriving DecidableEq, Inhabited


/-! ### Reading -/

def Slot.decoder : Decoder Slot :=
  let shape : Shape (Option String × Option String) := ⟨"struct SlotDef",
    [.slot "name" true Json.Decode.string (·.1) fun d x => (some x, d.2),
      .slot "type" true Json.Decode.string (·.2) fun d x => (d.1, some x)], false⟩
  shape.decoder (none, none) fun d => do
    return ⟨← need "name" d.1, ← need "type" d.2⟩

def FlowDef.decoder : Decoder FlowDef :=
  let shape : Shape (Option String × Option (List Slot)) := ⟨"struct FlowDef",
    [.slot "name" true Json.Decode.string (·.1) fun d x => (some x, d.2),
      .slot "values" false (Json.Decode.list Slot.decoder) (·.2) fun d x => (d.1, some x)], false⟩
  shape.decoder (none, none) fun d => do
    return ⟨← need "name" d.1, d.2.getD []⟩

namespace ProcManifest

def definitionShape : Shape (Option (List Slot) × Option (List FlowDef)) where
  title := "struct ProcDefinition"
  fields :=
    [.slot "inputs" false (Json.Decode.list Slot.decoder) (·.1) fun d x => (some x, d.2),
      .slot "outputs" false (Json.Decode.list FlowDef.decoder) (·.2) fun d x => (d.1, some x)]

/-- Finds the template among the members of a procedure and sets the other members aside. -/
def collect (r : Json.Reading) :
    List (Json.Literal × Json.Node) → Option String → List (String × Json.Node) →
      Except Fault (Option String × List (String × Json.Node))
  | [], template, kept => .ok (template, kept.reverse)
  | (key, v) :: rest, template, kept => do
    let key ← key.text
    if key = "template" then
      if template.isSome then .error (.duplicateField key)
      else collect r rest (some (← Json.Decode.string r v)) kept
    else
      v.check r
      collect r rest template ((key, v) :: kept)

def decoder : Decoder ProcManifest := fun r v =>
  match v with
  | .object members ending => do
    let r ← r.enter
    let (template, kept) ← collect r members none []
    Json.failIf ending.objectFault?
    let template ← need "template" template
    let d ← definitionShape.readSetAside { r with setAside := true } (none, none) kept
    return ⟨⟨d.1.getD [], d.2.getD []⟩, template⟩
  | v => .error (v.mistyped "struct ProcManifest")

end ProcManifest

namespace Manifest

def empty : Manifest := ⟨.empty, .empty⟩

def decoder : Decoder Manifest :=
  let shape : Shape (Option (Table String) × Option (Table ProcManifest)) := ⟨"struct Manifest",
    [.slot "types" false (Json.Decode.table Json.Decode.string) (·.1) fun d x => (some x, d.2),
      .slot "procedures" false (Json.Decode.table ProcManifest.decoder) (·.2)
        fun d x => (d.1, some x)], true⟩
  shape.decoder (none, none) fun d => .ok ⟨d.1.getD .empty, d.2.getD .empty⟩

def ofJson (text : String) : Except Fault Manifest := Json.Decode.text decoder text

end Manifest


/-! ### Writing -/

def Slot.document (s : Slot) : Document :=
  .object [("name", .string s.name), ("type", .string s.type)]

def FlowDef.document (f : FlowDef) : Document :=
  .object [("name", .string f.name), ("values", .list (f.values.map Slot.document))]

def ProcManifest.document (p : ProcManifest) : Document :=
  .object [("inputs", .list (p.definition.inputs.map Slot.document)),
    ("outputs", .list (p.definition.outputs.map FlowDef.document)),
    ("template", .string p.template)]

namespace Manifest

def document (m : Manifest) : Document :=
  .object [("types", m.types.document .string),
    ("procedures", m.procedures.document ProcManifest.document)]

def canonicalJson (m : Manifest) : String := m.document.compact


/-! ### Look-ups in an unchecked manifest -/

def definitions (m : Manifest) : Definitions where
  definition? name := (m.procedures.get? name).map ProcManifest.definition
  host? type := m.types.get? type

def implementations (m : Manifest) : Implementations where
  template? name := (m.procedures.get? name).bind fun p => (Template.parse p.template).toOption
  host? type := m.types.get? type

end Manifest

end ProcFlow
