import ProcFlow.Text.Quoted
/-!
# What can be wrong with JSON text

Reading stops at the first fault in text order. A fault is either in the grammar, or the end of the
text comes too early, or a value is well written and is not what its place asks for.
-/

namespace ProcFlow.Json

inductive Found where
  | null
  | bool (b : Bool)
  | integer (n : Int)
  | decimal (text : String)
  | string (s : String)
  | sequence
  | map
  deriving DecidableEq, Repr

def Found.text : Found → String
  | null => "null"
  | bool b => "boolean `" ++ (if b then "true" else "false") ++ "`"
  | integer n => "integer `" ++ n.repr ++ "`"
  | decimal text => "floating point `" ++ text ++ "`"
  | string s => "string " ++ Text.quoted s
  | sequence => "sequence"
  | map => "map"

inductive Category where
  | grammar
  | data
  | ending
  deriving DecidableEq, Repr

def Category.name : Category → String
  | .grammar => "syntax"
  | .data => "data"
  | .ending => "eof"

inductive Fault where
  | expectedValue
  | expectedWord
  | expectedColon
  | expectedCommaOrBracket
  | expectedCommaOrBrace
  | keyMustBeString
  | trailingComma
  | trailingCharacters
  | invalidNumber
  | numberOutOfRange
  | invalidEscape
  | loneSurrogate
  | unfinishedSurrogate
  | controlCharacter
  | recursionLimit
  | endInValue
  | endInObject
  | endInList
  | endInString
  | invalidType (found : Found) (expected : String)
  | invalidValue (found : Found) (expected : String)
  | invalidLength (length : Nat) (expected : String)
  | unknownField (name : String) (expected : List String)
  | unknownVariant (name : String) (expected : List String)
  | missingField (name : String)
  | duplicateField (name : String)
  deriving DecidableEq, Repr

def backquoted (s : String) : String := "`" ++ s ++ "`"

def alternatives : List String → String
  | [] => "nothing"
  | [a] => backquoted a
  | [a, b] => backquoted a ++ " or " ++ backquoted b
  | names => "one of " ++ ", ".intercalate (names.map backquoted)

namespace Fault

def message : Fault → String
  | expectedValue => "expected value"
  | expectedWord => "expected ident"
  | expectedColon => "expected `:`"
  | expectedCommaOrBracket => "expected `,` or `]`"
  | expectedCommaOrBrace => "expected `,` or `\x7d`"
  | keyMustBeString => "key must be a string"
  | trailingComma => "trailing comma"
  | trailingCharacters => "trailing characters"
  | invalidNumber => "invalid number"
  | numberOutOfRange => "number out of range"
  | invalidEscape => "invalid escape"
  | loneSurrogate => "lone leading surrogate in hex escape"
  | unfinishedSurrogate => "unexpected end of hex escape"
  | controlCharacter => "control character (\\u0000-\\u001F) found while parsing a string"
  | recursionLimit => "recursion limit exceeded"
  | endInValue => "EOF while parsing a value"
  | endInObject => "EOF while parsing an object"
  | endInList => "EOF while parsing a list"
  | endInString => "EOF while parsing a string"
  | invalidType found expected => "invalid type: " ++ found.text ++ ", expected " ++ expected
  | invalidValue found expected => "invalid value: " ++ found.text ++ ", expected " ++ expected
  | invalidLength length expected =>
    "invalid length " ++ length.repr ++ ", expected " ++ expected
  | unknownField name expected =>
    "unknown field " ++ backquoted name ++ ", expected " ++ alternatives expected
  | unknownVariant name expected =>
    "unknown variant " ++ backquoted name ++ ", expected " ++ alternatives expected
  | missingField name => "missing field " ++ backquoted name
  | duplicateField name => "duplicate field " ++ backquoted name

def category : Fault → Category
  | endInValue | endInObject | endInList | endInString => .ending
  | invalidType _ _ | invalidValue _ _ | invalidLength _ _ | unknownField _ _
  | unknownVariant _ _ | missingField _ | duplicateField _ => .data
  | _ => .grammar

end Fault

end ProcFlow.Json
