import ProcFlow.Json.Token
/-!
# JSON values as written

A node is a value up to the first flaw of the text. A list or an object keeps the parts that were read,
and its *ending* says how it stopped; where a value should have been and none was, a broken node says
why. Whoever reads the value meets the flaw when it comes to it, so a fault of meaning that stands
earlier in the text is reported first.
-/

namespace ProcFlow.Json

/-- How a list or an object stops. -/
inductive Ending where
  | closed
  | commaClosed
  | commaEnd
  | noComma
  | textEnd
  | noKey
  /-- The flaw lies within the last part. -/
  | cut
  deriving DecidableEq, Repr

/-- A value up to the first flaw of the text. -/
inductive Node where
  | null
  | bool (b : Bool)
  | number (n : Numeral)
  | badNumber (f : Numeral.Flaw)
  | string (l : Literal)
  | list (items : List Node) (ending : Ending)
  | object (members : List (Literal × Node)) (ending : Ending)
  | broken (f : Fault)
  deriving Repr


namespace Ending

def listFault? : Ending → Option Fault
  | closed => none
  | commaClosed => some .trailingComma
  | commaEnd => some .endInValue
  | textEnd => some .endInList
  | noComma | noKey | cut => some .expectedCommaOrBracket

def skippedListFault? : Ending → Option Fault
  | commaClosed => some .expectedValue
  | e => e.listFault?

/-- The fault of a list in which nothing more is expected. -/
def fullListFault? : Ending → Option Fault
  | closed => none
  | commaClosed => some .trailingComma
  | textEnd => some .endInList
  | commaEnd | noComma | noKey | cut => some .trailingCharacters

def objectFault? : Ending → Option Fault
  | closed => none
  | commaClosed => some .trailingComma
  | commaEnd => some .endInValue
  | textEnd => some .endInObject
  | noKey => some .keyMustBeString
  | noComma | cut => some .expectedCommaOrBrace

def skippedObjectFault? : Ending → Option Fault
  | commaClosed => some .keyMustBeString
  | commaEnd => some .endInObject
  | e => e.objectFault?

end Ending


namespace Node

/-! ### From tokens to nodes

The lists and objects that are open stand on a stack, innermost first, each with the parts it has so
far, newest first. Each step takes at least one token. -/

inductive Frame where
  | list (items : List Node)
  /-- The value of `key` is being read. -/
  | object (members : List (Literal × Node)) (key : Literal)

/-- Puts the last part into every open list and object, none of which is read any further. -/
def giveUp : List Frame → Node → Node
  | [], v => v
  | .list items :: frames, v => giveUp frames (.list (v :: items).reverse .cut)
  | .object members key :: frames, v => giveUp frames (.object ((key, v) :: members).reverse .cut)

mutual

def value (frames : List Frame) : List Token → Node × List Token
  | [] => (giveUp frames (.broken .endInValue), [])
  | .null :: rest => after frames .null rest
  | .bool b :: rest => after frames (.bool b) rest
  | .number n :: rest => after frames (.number n) rest
  | .badNumber f :: rest => after frames (.badNumber f) rest
  | .string l :: rest => after frames (.string l) rest
  | .openBracket :: [] => (giveUp frames (.list [] .textEnd), [])
  | .openBracket :: .closeBracket :: rest => after frames (.list [] .closed) rest
  | .openBracket :: t :: rest => value (.list [] :: frames) (t :: rest)
  | .openBrace :: rest => firstKey frames rest
  | .badWord true :: _ => (giveUp frames (.broken .endInValue), [])
  | .badWord false :: _ => (giveUp frames (.broken .expectedWord), [])
  | _ :: _ => (giveUp frames (.broken .expectedValue), [])

def firstKey (frames : List Frame) : List Token → Node × List Token
  | [] => (giveUp frames (.object [] .textEnd), [])
  | .closeBrace :: rest => after frames (.object [] .closed) rest
  | .string l :: rest => colon frames [] l rest
  | _ :: _ => (giveUp frames (.object [] .noKey), [])

def colon (frames : List Frame) (members : List (Literal × Node)) (key : Literal) :
    List Token → Node × List Token
  | [] => (giveUp (.object members key :: frames) (.broken .endInObject), [])
  | .colon :: rest => value (.object members key :: frames) rest
  | _ :: _ => (giveUp (.object members key :: frames) (.broken .expectedColon), [])

def after (frames : List Frame) (v : Node) (tokens : List Token) : Node × List Token :=
  match frames, tokens with
  | [], tokens => (v, tokens)
  | .list items :: frames, [] => (giveUp frames (.list (v :: items).reverse .textEnd), [])
  | .list items :: frames, .closeBracket :: rest =>
    after frames (.list (v :: items).reverse .closed) rest
  | .list items :: frames, .comma :: [] =>
    (giveUp frames (.list (v :: items).reverse .commaEnd), [])
  | .list items :: frames, .comma :: .closeBracket :: _ =>
    (giveUp frames (.list (v :: items).reverse .commaClosed), [])
  | .list items :: frames, .comma :: t :: rest => value (.list (v :: items) :: frames) (t :: rest)
  | .list items :: frames, _ :: _ => (giveUp frames (.list (v :: items).reverse .noComma), [])
  | .object members key :: frames, [] =>
    (giveUp frames (.object ((key, v) :: members).reverse .textEnd), [])
  | .object members key :: frames, .closeBrace :: rest =>
    after frames (.object ((key, v) :: members).reverse .closed) rest
  | .object members key :: frames, .comma :: rest => nextKey frames ((key, v) :: members) rest
  | .object members key :: frames, _ :: _ =>
    (giveUp frames (.object ((key, v) :: members).reverse .noComma), [])

def nextKey (frames : List Frame) (members : List (Literal × Node)) :
    List Token → Node × List Token
  | [] => (giveUp frames (.object members.reverse .commaEnd), [])
  | .closeBrace :: _ => (giveUp frames (.object members.reverse .commaClosed), [])
  | .string l :: rest => colon frames members l rest
  | _ :: _ => (giveUp frames (.object members.reverse .noKey), [])

end

def ofText (text : String) : Node × List Token := value [] (Token.scan text.toList)

end Node

end ProcFlow.Json
