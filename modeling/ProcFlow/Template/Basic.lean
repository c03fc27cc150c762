import ProcFlow.Template.Lexeme
/-!
# Code templates

A parsed template is a list of segments: verbatim text, inputs and exits. Reading one collects every
problem: the stray pieces in order, and then the first exit that is not called. An exit stands for a
callable expression, so an opening parenthesis has to follow it.
-/

namespace ProcFlow

inductive Segment where
  | text (s : String)
  | input (name : String)
  | exit (name : String)
  deriving DecidableEq, Repr

structure Template where
  source : String
  segments : List Segment
  deriving DecidableEq, Repr

namespace Template

inductive Fault where
  | stray (slice : List Char)
  | exitNotCalled (following : Option Lexeme)
  deriving DecidableEq, Repr

def Fault.message : Fault → String
  | .stray slice =>
    "unexpected " ++ Text.quoted (String.ofList slice) ++ ": write $$ or @@ for a literal sigil"
  | .exitNotCalled none => "found end of input expected something else"
  | .exitNotCalled (some l) => "found '" ++ l.describe ++ "' expected something else"

/-- A fault with the bytes of the source that it covers. -/
structure Error where
  start : Nat
  stop : Nat
  fault : Fault
  deriving DecidableEq, Repr

def Error.text (e : Error) : String :=
  e.start.repr ++ ".." ++ e.stop.repr ++ ": " ++ e.fault.message


/-! ### Reading -/

def strayErrors (pieces : List Placed) : List Error :=
  pieces.filterMap fun p =>
    match p.lexeme with
    | .stray slice => some ⟨p.start, p.stop, .stray slice⟩
    | _ => none

def Lexeme.opensCall : Lexeme → Bool
  | .text ('(' :: _) => true
  | _ => false

/-- The error of the first exit that the next piece does not call. `length` is where the source
ends. -/
def exitError? (length : Nat) : List Placed → Option Error
  | [] => none
  | p :: rest =>
    match p.lexeme, rest with
    | .exit _, [] => some ⟨length, length, .exitNotCalled none⟩
    | .exit _, q :: _ =>
      if q.lexeme.opensCall then exitError? length rest
      else some ⟨q.start, q.stop, .exitNotCalled (some q.lexeme)⟩
    | _, _ => exitError? length rest

def segment? : Lexeme → Option Segment
  | .dollarSign => some (.text "$")
  | .atSign => some (.text "@")
  | .input name _ => some (.input (String.ofList name))
  | .exit name => some (.exit (String.ofList name))
  | .text run => some (.text (String.ofList run))
  | .stray _ => none

/-- Puts a segment in front of others; two texts in a row become one. -/
def consMerged : Segment → List Segment → List Segment
  | .text a, .text b :: rest => .text (a ++ b) :: rest
  | s, rest => s :: rest

def mergeTexts (segments : List Segment) : List Segment := segments.foldr consMerged []

def parse (source : String) : Except (List Error) Template :=
  let lexemes := Lexeme.scan source.toList
  let pieces := place 0 lexemes
  let good := pieces.filter fun p => !p.lexeme.isStray
  let errors := strayErrors pieces ++ (exitError? (Text.byteLength source.toList) good).toList
  if errors.isEmpty then .ok ⟨source, mergeTexts (lexemes.filterMap segment?)⟩
  else .error errors


/-! ### Holes -/

/-- The input slots that a template reads, each once, in order of first use. -/
def inputs (t : Template) : List String :=
  (t.segments.filterMap fun | .input name => some name | _ => none).eraseDups

def exits (t : Template) : List String :=
  (t.segments.filterMap fun | .exit name => some name | _ => none).eraseDups

/-- The text of a segment when its hole is filled. -/
def fill (input exit : String → String) : Segment → String
  | .text s => s
  | .input name => input name
  | .exit name => exit name

def render (t : Template) (input exit : String → String) : String :=
  String.join (t.segments.map (fill input exit))

end Template

end ProcFlow
