import ProcFlow.Json.Node
import ProcFlow.Table
/-!
# Reading values out of JSON

A decoder asks a node for a value of one type and reports the first fault in text order. Lists, tables
and records are the shapes that the formats of this library are made of. A record may be written as an
object, or as the list of its fields in order.

Some values are set aside before it is known what they are: they are checked in full when they are met
and read later. Other values have no meaning and are only skipped, without a limit on their depth.
-/

namespace ProcFlow.Json

/-- How a value is read: how many lists and objects stand around it, and whether it was set aside and
checked before. -/
structure Reading where
  depth : Nat := 0
  setAside : Bool := false
  deriving DecidableEq, Repr

abbrev Decoder (α : Type) := Reading → Node → Except Fault α

/-- How many lists and objects may be open at once. -/
def maxDepth : Nat := 127

def Reading.enter (r : Reading) : Except Fault Reading :=
  if r.depth < maxDepth then .ok { r with depth := r.depth + 1 } else .error .recursionLimit

def failIf : Option Fault → Except Fault Unit
  | none => .ok ()
  | some f => .error f

def Numeral.Flaw.fault : Numeral.Flaw → Fault
  | .truncated => .endInValue
  | .malformed => .invalidNumber


namespace Node

/-! ### Checking and skipping -/

mutual

def check (r : Reading) : Node → Except Fault Unit
  | null => .ok ()
  | bool _ => .ok ()
  | number n => n.value.map fun _ => ()
  | badNumber f => .error f.fault
  | string l => l.text.map fun _ => ()
  | list items ending => do
    checkItems (← r.enter) items
    failIf ending.listFault?
  | object members ending => do
    checkMembers (← r.enter) members
    failIf ending.objectFault?
  | broken f => .error f

def checkItems (r : Reading) : List Node → Except Fault Unit
  | [] => .ok ()
  | v :: rest => do
    check r v
    checkItems r rest

def checkMembers (r : Reading) : List (Literal × Node) → Except Fault Unit
  | [] => .ok ()
  | (key, v) :: rest => do
    let _ ← key.text
    check r v
    checkMembers r rest

end

mutual

/-- Skips a value: only the grammar is looked at. -/
def skip : Node → Except Fault Unit
  | null => .ok ()
  | bool _ => .ok ()
  | number _ => .ok ()
  | badNumber _ => .error .invalidNumber
  | string l => l.form
  | list items ending => do
    skipItems items
    failIf ending.skippedListFault?
  | object members ending => do
    skipMembers members
    failIf ending.skippedObjectFault?
  | broken f => .error f

def skipItems : List Node → Except Fault Unit
  | [] => .ok ()
  | v :: rest => do
    skip v
    skipItems rest

def skipMembers : List (Literal × Node) → Except Fault Unit
  | [] => .ok ()
  | (key, v) :: rest => do
    key.form
    skip v
    skipMembers rest

end

def mistyped (v : Node) (expected : String) : Fault :=
  match v with
  | null => .invalidType .null expected
  | bool b => .invalidType (.bool b) expected
  | number n =>
    match n.value with
    | .ok x => .invalidType x.found expected
    | .error f => f
  | badNumber f => f.fault
  | string l =>
    match l.text with
    | .ok s => .invalidType (.string s) expected
    | .error f => f
  | list _ _ => .invalidType .sequence expected
  | object _ _ => .invalidType .map expected
  | broken f => f

end Node


namespace Decode

/-! ### Scalars, lists and tables -/

def string : Decoder String := fun _ v =>
  match v with
  | .string l => l.text
  | v => .error (v.mistyped "a string")

def word32 : Decoder Nat := fun _ v =>
  match v with
  | .number n => do
    match ← n.value with
    | .natural k =>
      if k < UInt32.size then return k else .error (.invalidValue (.integer k) "u32")
    | .negative k => .error (.invalidValue (.integer (-k)) "u32")
    | .float x => .error (.invalidType (Number.float x).found "u32")
  | v => .error (v.mistyped "u32")

def list {α : Type} (item : Decoder α) : Decoder (List α) := fun r v =>
  match v with
  | .list items ending => do
    let r ← r.enter
    let xs ← items.mapM (item r)
    failIf ending.listFault?
    return xs
  | v => .error (v.mistyped "a sequence")

/-- An object as a table; a key that comes again keeps its place and takes the later value. -/
def table {α : Type} (item : Decoder α) : Decoder (Table α) := fun r v =>
  match v with
  | .object members ending => do
    let r ← r.enter
    let entries ← members.mapM fun (key, v) => do
      let key ← key.text
      return (key, ← item r v)
    failIf ending.objectFault?
    return .ofList entries
  | v => .error (v.mistyped "a map")


/-! ### Records -/

/-- A field of a record that is being read into a draft of type `σ`. -/
structure RecordField (σ : Type) where
  name : String
  required : Bool
  isSet : σ → Bool
  read : σ → Decoder σ

structure Shape (σ : Type) where
  title : String
  fields : List (RecordField σ)
  /-- Whether fields with other names are refused. -/
  closed : Bool := false

def RecordField.slot {σ α : Type} (name : String) (required : Bool) (item : Decoder α)
    (get : σ → Option α) (set : σ → α → σ) : RecordField σ where
  name
  required
  isSet draft := (get draft).isSome
  read draft r v := do return set draft (← item r v)

def elements (n : Nat) : String := n.repr ++ (if n = 1 then " element" else " elements")

namespace Shape

variable {σ : Type}

def readMember (shape : Shape σ) (r : Reading) (draft : σ) (key : String) (v : Node) :
    Except Fault σ :=
  match shape.fields.find? fun f => f.name == key with
  | some f => if f.isSet draft then .error (.duplicateField key) else f.read draft r v
  | none =>
    if shape.closed then .error (.unknownField key (shape.fields.map RecordField.name))
    else do
      v.skip
      return draft

def readMembers (shape : Shape σ) (r : Reading) (start : σ) (members : List (Literal × Node)) :
    Except Fault σ :=
  members.foldlM (fun draft (key, v) => do shape.readMember r draft (← key.text) v) start

def readSetAside (shape : Shape σ) (r : Reading) (start : σ) (members : List (String × Node)) :
    Except Fault σ :=
  members.foldlM (fun draft (key, v) => shape.readMember r draft key v) start

/-- Reads fields from a list in order; `index` counts the fields before. Fields that are not required
may be left out at the end. The items that are left over are returned with the draft. -/
def readItems (shape : Shape σ) (r : Reading) (ending : Ending) :
    Nat → List (RecordField σ) → List Node → σ → Except Fault (σ × List Node)
  | _, [], items, draft => .ok (draft, items)
  | index, f :: fields, [], draft => do
    failIf ending.listFault?
    if f.required then
      .error (.invalidLength index (shape.title ++ " with " ++ elements shape.fields.length))
    else readItems shape r ending (index + 1) fields [] draft
  | index, f :: fields, v :: items, draft => do
    readItems shape r ending (index + 1) fields items (← f.read draft r v)

def readList (shape : Shape σ) (r : Reading) (start : σ) (items : List Node) (ending : Ending) :
    Except Fault σ := do
  let (draft, extra) ← shape.readItems r ending 0 shape.fields items start
  if extra.isEmpty then
    failIf ending.fullListFault?
    return draft
  else if r.setAside then
    .error (.invalidLength items.length (elements shape.fields.length ++ " in sequence"))
  else .error .trailingCharacters

/-- A record. The draft starts from `start` and becomes a value by `finish`, which reports the first
required field that is missing. -/
def decoder {α : Type} (shape : Shape σ) (start : σ) (finish : σ → Except Fault α) : Decoder α :=
  fun r v =>
    match v with
    | .list items ending => do
      let draft ← shape.readList (← r.enter) start items ending
      finish draft
    | .object members ending => do
      let draft ← shape.readMembers (← r.enter) start members
      failIf ending.objectFault?
      finish draft
    | v => .error (v.mistyped shape.title)

end Shape

def need {α : Type} (name : String) : Option α → Except Fault α
  | some x => .ok x
  | none => .error (.missingField name)


/-! ### Tagged alternatives -/

/-- What stands beside the tag of a tagged value. It was set aside. -/
inductive Payload where
  | members (members : List (String × Node))
  | items (items : List Node)

def tag (names : List String) : Decoder String := fun _ v =>
  match v with
  | .string l => do
    let name ← l.text
    if name ∈ names then return name else .error (.unknownVariant name names)
  | v => .error (v.mistyped "variant identifier")

def collectMembers (names : List String) (r : Reading) :
    List (Literal × Node) → Option String → List (String × Node) →
      Except Fault (Option String × List (String × Node))
  | [], name, kept => .ok (name, kept.reverse)
  | (key, v) :: rest, name, kept => do
    let key ← key.text
    if key = "type" then
      if name.isSome then .error (.duplicateField key)
      else collectMembers names r rest (some (← tag names r v)) kept
    else
      v.check r
      collectMembers names r rest name ((key, v) :: kept)

/-- A value whose tag says which of a few alternatives it is. The tag is the member `type` of an object,
wherever it stands, or the first item of a list. `read` gets the tag and all the rest. -/
def tagged {α : Type} (title : String) (names : List String)
    (read : String → Reading → Payload → Except Fault α) : Decoder α := fun r v =>
  match v with
  | .list items ending => do
    let r ← r.enter
    match items with
    | [] =>
      failIf ending.listFault?
      .error (.missingField "type")
    | first :: rest => do
      let name ← tag names r first
      Node.checkItems r rest
      failIf ending.listFault?
      read name { r with setAside := true } (.items rest)
  | .object members ending => do
    let r ← r.enter
    let (name, kept) ← collectMembers names r members none []
    failIf ending.objectFault?
    read (← need "type" name) { r with setAside := true } (.members kept)
  | v => .error (v.mistyped ("internally tagged enum " ++ title))

def Shape.readPayload {σ : Type} (shape : Shape σ) (r : Reading) (start : σ) :
    Payload → Except Fault σ
  | .members members => shape.readSetAside r start members
  | .items items => shape.readList r start items .closed

/-- An alternative without fields: members mean nothing, and there are no items. -/
def noFields : Payload → Except Fault Unit
  | .members _ => .ok ()
  | .items [] => .ok ()
  | .items items => .error (.invalidLength items.length (elements 0 ++ " in sequence"))


/-! ### Whole texts -/

/-- Reads a text that holds one value and nothing else. -/
def text {α : Type} (decoder : Decoder α) (s : String) : Except Fault α := do
  let (v, rest) := Node.ofText s
  let x ← decoder {} v
  if rest.isEmpty then return x else .error .trailingCharacters

end Decode

end ProcFlow.Json
