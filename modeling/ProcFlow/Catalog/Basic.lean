import ProcFlow.Catalog.Manifest
import ProcFlow.Code.Name
import ProcFlow.Files
/-!
# Catalogs

A catalog holds types and procedures that fit together. A manifest is added as a whole or not at all: the
first type or procedure that does not fit is reported, and the catalog stays as it was. What is in the
catalog already is never replaced.
-/

namespace ProcFlow

structure TypeEntry where
  host : String
  origin : String
  deriving DecidableEq, Repr

structure ProcEntry where
  definition : Definition
  template : Template
  origin : String
  deriving DecidableEq, Repr

/-- Types and procedures in the order in which they were added. -/
structure Catalog where
  types : Table TypeEntry
  procedures : Table ProcEntry
  deriving DecidableEq

namespace Catalog

/-! ### What can be wrong -/

inductive ProcFlaw where
  | unknownType (type : TypeId)
  | duplicateSlot (slot : String)
  | duplicateFlow (flow : String)
  /-- Two flows would get the same temporary in generated code. -/
  | collidingFlows (suffix : String)
  | duplicateValue (value flow : String)
  | undeclaredInput (slot : String)
  | undeclaredExit (flow : String)
  deriving DecidableEq, Repr

def ProcFlaw.message : ProcFlaw → String
  | unknownType type => "unknown type '" ++ type ++ "'"
  | duplicateSlot slot => "duplicate input slot '" ++ slot ++ "'"
  | duplicateFlow flow => "duplicate output flow '" ++ flow ++ "'"
  | collidingFlows suffix => "output flows collide as generated name '" ++ suffix ++ "'"
  | duplicateValue value flow => "duplicate value '" ++ value ++ "' in flow '" ++ flow ++ "'"
  | undeclaredInput slot => "template reads undeclared input '" ++ slot ++ "'"
  | undeclaredExit flow => "template exits through undeclared flow '" ++ flow ++ "'"

inductive Error where
  | unreadable (path : String) (fault : FileFault)
  | malformed (path : String) (fault : Json.Fault)
  | badTemplate (path procedure : String) (errors : List Template.Error)
  | invalidProcedure (path procedure : String) (flaw : ProcFlaw)
  | duplicateProcedure (name first second : String)
  | duplicateType (id first second : String)
  deriving DecidableEq, Repr

def Error.message : Error → String
  | unreadable path fault => path ++ ": " ++ fault.text
  | malformed path fault => path ++ ": invalid manifest: " ++ fault.message
  | badTemplate path procedure errors =>
    path ++ ": procedure '" ++ procedure ++ "': invalid template"
      ++ String.join (errors.map fun e => "\n  " ++ e.text)
  | invalidProcedure path procedure flaw =>
    path ++ ": procedure '" ++ procedure ++ "': " ++ flaw.message
  | duplicateProcedure name first second =>
    "duplicate procedure '" ++ name ++ "': first defined in " ++ first ++ ", redefined in " ++ second
  | duplicateType id first second =>
    "duplicate type '" ++ id ++ "': first defined in " ++ first ++ ", redefined in " ++ second


/-! ### Checking a procedure -/

/-- The first name that stands in a list for the second time. `seen` holds the names before. -/
def firstRepeat? (seen : List String) : List String → Option String
  | [] => none
  | x :: rest => if x ∈ seen then some x else firstRepeat? (x :: seen) rest

def definitionFlaw? (known : TypeId → Bool) (d : Definition) : Option ProcFlaw :=
  ((d.types.find? fun t => !known t).map .unknownType)
    <|> ((firstRepeat? [] (d.inputs.map Slot.name)).map .duplicateSlot)
    <|> ((firstRepeat? [] d.flowNames).map .duplicateFlow)
    <|> ((firstRepeat? [] (d.flowNames.map Code.flowSuffix)).map .collidingFlows)
    <|> (d.outputs.findSome? fun f =>
      (firstRepeat? [] (f.values.map Slot.name)).map fun v => .duplicateValue v f.name)

def templateFlaw? (d : Definition) (t : Template) : Option ProcFlaw :=
  ((t.inputs.find? fun i => (d.input? i).isNone).map .undeclaredInput)
    <|> ((t.exits.find? fun e => (d.flow? e).isNone).map .undeclaredExit)

def checkProcedure (known : TypeId → Bool) (origin name : String) (p : ProcManifest) :
    Except Error ProcEntry :=
  match definitionFlaw? known p.definition with
  | some flaw => .error (.invalidProcedure origin name flaw)
  | none =>
    match Template.parse p.template with
    | .error errors => .error (.badTemplate origin name errors)
    | .ok template =>
      match templateFlaw? p.definition template with
      | some flaw => .error (.invalidProcedure origin name flaw)
      | none => .ok ⟨p.definition, template, origin⟩


/-! ### Building a catalog -/

def empty : Catalog := ⟨.empty, .empty⟩

instance : Inhabited Catalog := ⟨empty⟩

def typeClash? (c : Catalog) (m : Manifest) (origin : String) : Option Error :=
  m.types.keys.findSome? fun id =>
    (c.types.get? id).map fun first => .duplicateType id first.origin origin

def checkProcedures (c : Catalog) (m : Manifest) (origin : String) :
    Except Error (List (String × ProcEntry)) :=
  m.procedures.entries.mapM fun (name, p) =>
    match c.procedures.get? name with
    | some first => .error (.duplicateProcedure name first.origin origin)
    | none => do
      let known := fun type => c.types.contains type || m.types.contains type
      return (name, ← checkProcedure known origin name p)

/-- Adds a manifest, whose place of origin is named in errors. The number of added procedures is returned
with the catalog. -/
def add (c : Catalog) (m : Manifest) (origin : String) : Except Error (Catalog × Nat) :=
  match c.typeClash? m origin with
  | some e => .error e
  | none => do
    let entries ← c.checkProcedures m origin
    let types := m.types.entries.foldl (fun t e => t.insert e.1 ⟨e.2, origin⟩) c.types
    let procedures := entries.foldl (fun t e => t.insert e.1 e.2) c.procedures
    return (⟨types, procedures⟩, entries.length)

def addText (c : Catalog) (text origin : String) : Except Error (Catalog × Nat) :=
  match Manifest.ofJson text with
  | .error fault => .error (.malformed origin fault)
  | .ok m => c.add m origin

/-- Adds the manifest in a file, given what reading the file gave. -/
def addFile (c : Catalog) (path : String) (contents : Except FileFault String) :
    Except Error (Catalog × Nat) :=
  match contents with
  | .error fault => .error (.unreadable path fault)
  | .ok text => c.addText text path

def builtinOrigin : String := "<builtin>"

def define (c : Catalog) (name : String) (definition : Definition) (template : String) :
    Except Error Catalog :=
  (c.add { Manifest.empty with procedures := Table.empty.insert name ⟨definition, template⟩ }
    builtinOrigin).map Prod.fst

def defineType (c : Catalog) (id : TypeId) (host : String) : Except Error Catalog :=
  (c.add { Manifest.empty with types := Table.empty.insert id host } builtinOrigin).map Prod.fst


/-! ### What a catalog answers -/

def size (c : Catalog) : Nat := c.procedures.size

def isEmpty (c : Catalog) : Bool := c.procedures.isEmpty

def manifest (c : Catalog) : Manifest where
  types := c.types.mapValues TypeEntry.host
  procedures := c.procedures.mapValues fun e => ⟨e.definition, e.template.source⟩

def canonicalJson (c : Catalog) : String := c.manifest.canonicalJson

def definitions (c : Catalog) : Definitions where
  definition? name := (c.procedures.get? name).map ProcEntry.definition
  host? type := (c.types.get? type).map TypeEntry.host

def implementations (c : Catalog) : Implementations where
  template? name := (c.procedures.get? name).map ProcEntry.template
  host? type := (c.types.get? type).map TypeEntry.host

end Catalog

end ProcFlow
