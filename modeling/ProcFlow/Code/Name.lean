import ProcFlow.Graph.Id
import ProcFlow.Json.Quote
/-!
# Names in generated code

User names become identifiers, object keys and member accesses. Keys and members keep a plain name as
it is and quote any other, so different names never meet. Identifiers are made by replacing what an
identifier cannot hold. Names with two leading underscores belong to the generator.
-/

namespace ProcFlow.Code

def isIdentChar (c : Char) : Bool := c.isAlphanum || c == '_' || c == '$'

def startsWithDigit : List Char → Bool
  | c :: _ => c.isDigit
  | [] => false

/-- Whether a name can be written as it is. -/
def isPlainName (name : String) : Bool :=
  !name.toList.isEmpty && !startsWithDigit name.toList && name.toList.all isIdentChar

def reservedWords : List String :=
  ["arguments", "await", "break", "case", "catch", "class", "const", "continue", "debugger",
    "default", "delete", "do", "else", "enum", "eval", "export", "extends", "false", "finally",
    "for", "function", "if", "implements", "import", "in", "instanceof", "interface", "let",
    "new", "null", "package", "private", "protected", "public", "return", "static", "super",
    "switch", "this", "throw", "true", "try", "typeof", "var", "void", "while", "with", "yield"]

/-- Global names that templates may use. No parameter takes one of them. -/
def hostGlobals : List String := ["Infinity", "Math", "NaN", "Number", "String", "undefined"]

/-- An identifier made from a name: other characters become underscores, a leading digit or nothing at
all gets one in front, and a reserved word gets one behind. -/
def identifier (name : String) : String :=
  let cs := name.toList.map fun c => if isIdentChar c then c else '_'
  let cs := if cs.isEmpty || startsWithDigit cs then '_' :: cs else cs
  let ident := String.ofList cs
  if ident ∈ reservedWords then ident ++ "_" else ident

def objectKey (name : String) : String :=
  if isPlainName name then name else Json.quote name

def member (name : String) : String :=
  if isPlainName name then "." ++ name else "[" ++ Json.quote name ++ "]"

/-- The part of a temporary's name that comes from its flow. Distinct flows of one procedure must have
distinct suffixes. -/
def flowSuffix (flow : String) : String :=
  String.ofList (flow.toList.map fun c => if c.isAlphanum || c == '_' then c else '_')

def nodeVar (node : ProcId) : String := "__n" ++ node.index.repr

def flowVar (node : ProcId) (flow : String) : String := nodeVar node ++ "_" ++ flowSuffix flow

/-- User text inside a comment: line breaks become blanks. -/
def commentText (s : String) : String :=
  String.ofList (s.toList.map fun c => if c = '\n' || c = '\r' then ' ' else c)

end ProcFlow.Code
