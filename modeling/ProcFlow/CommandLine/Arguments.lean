import ProcFlow.Code.Generate
import ProcFlow.Text.Plain
/-!
# Command-line arguments

Options may stand before or after the graph. The value of an option follows it, or is attached to it;
after `--` nothing is an option any more. What an option says is taken up when the next argument that is
not its value comes, so a missing or wrong value is reported there, and the first problem from the left
is the one reported.
-/

namespace ProcFlow.CommandLine

inductive Stage where
  | code
  | drawing
  | diagnostics
  | buildInfo
  deriving DecidableEq, Repr

namespace Stage

def name : Stage → String
  | code => "ts"
  | drawing => "dot"
  | diagnostics => "diagnostics"
  | buildInfo => "build-info"

def all : List Stage := [code, drawing, diagnostics, buildInfo]

def ofName? (name : String) : Option Stage := all.find? fun s => s.name = name

end Stage

inductive Param where
  | graph
  | catalog
  | noBuiltins
  | flavor
  | emit
  | output
  | denyDiagnostics
  | verbose
  | help
  | version
  deriving DecidableEq, Repr

namespace Param

def text : Param → String
  | graph => "<GRAPH>"
  | catalog => "--catalog <CATALOG>"
  | noBuiltins => "--no-builtins"
  | flavor => "--flavor <FLAVOR>"
  | emit => "--emit <EMIT>"
  | output => "--output <OUTPUT>"
  | denyDiagnostics => "--deny-diagnostics"
  | verbose => "--verbose"
  | help => "--help"
  | version => "--version"

def takesValue : Param → Bool
  | graph | catalog | flavor | emit | output => true
  | noBuiltins | denyDiagnostics | verbose | help | version => false

def ofLong? : String → Option Param
  | "catalog" => some catalog
  | "no-builtins" => some noBuiltins
  | "flavor" => some flavor
  | "emit" => some emit
  | "output" => some output
  | "deny-diagnostics" => some denyDiagnostics
  | "verbose" => some verbose
  | "help" => some help
  | "version" => some version
  | _ => none

def ofShort? : Char → Option Param
  | 'c' => some catalog
  | 'o' => some output
  | 'h' => some help
  | 'V' => some version
  | _ => none

end Param

inductive UsageError where
  | missingGraph
  | unexpectedArgument (arg : String)
  | valueRequired (param : Param)
  | invalidValue (value : String) (param : Param)
  | usedTwice (param : Param)
  | unexpectedValue (value : String) (param : Param)
  deriving DecidableEq, Repr

/-- The wording of a mistake. What the user typed is shown as plain text. -/
def UsageError.message : UsageError → String
  | missingGraph => "error: the following required arguments were not provided:"
  | unexpectedArgument arg => "error: unexpected argument '" ++ Text.plain arg ++ "' found"
  | valueRequired param =>
    "error: a value is required for '" ++ param.text ++ "' but none was supplied"
  | invalidValue value param =>
    "error: invalid value '" ++ Text.plain value ++ "' for '" ++ param.text ++ "'"
  | usedTwice param => "error: the argument '" ++ param.text ++ "' cannot be used multiple times"
  | unexpectedValue value param =>
    "error: unexpected value '" ++ Text.plain value ++ "' for '" ++ param.text
      ++ "' found; no more were expected"

inductive Stop where
  | misuse (e : UsageError)
  | help
  | version
  deriving DecidableEq, Repr

structure Options where
  graph : String
  catalogs : List String
  noBuiltins : Bool
  flavor : Code.Flavor
  emit : Stage
  output : Option String
  denyDiagnostics : Bool
  verbose : Bool
  deriving DecidableEq, Repr

structure Draft where
  graph : Option String := none
  catalogs : List String := []
  noBuiltins : Bool := false
  flavor : Option Code.Flavor := none
  emit : Option Stage := none
  output : Option String := none
  denyDiagnostics : Bool := false
  verbose : Bool := false
  deriving DecidableEq, Repr

namespace Draft

def nonEmpty (param : Param) (value : String) : Except Stop String :=
  if value = "" then .error (.misuse (.valueRequired param)) else .ok value

def once (param : Param) (given : Bool) : Except Stop Unit :=
  if given then .error (.misuse (.usedTwice param)) else .ok ()

def choice {α : Type} (param : Param) (ofName? : String → Option α) (value : String) :
    Except Stop α := do
  match ofName? (← nonEmpty param value) with
  | some x => return x
  | none => .error (.misuse (.invalidValue value param))

def takeValue (d : Draft) (param : Param) (value : String) : Except Stop Draft :=
  match param with
  | .graph => do return { d with graph := some (← nonEmpty .graph value) }
  | .catalog => do return { d with catalogs := d.catalogs ++ [← nonEmpty .catalog value] }
  | .flavor => do
    once .flavor d.flavor.isSome
    return { d with flavor := some (← choice .flavor Code.Flavor.ofName? value) }
  | .emit => do
    once .emit d.emit.isSome
    return { d with emit := some (← choice .emit Stage.ofName? value) }
  | .output => do
    once .output d.output.isSome
    return { d with output := some (← nonEmpty .output value) }
  | _ => .ok d

def takeFlag (d : Draft) (param : Param) : Except Stop Draft :=
  match param with
  | .noBuiltins => do
    once .noBuiltins d.noBuiltins
    return { d with noBuiltins := true }
  | .denyDiagnostics => do
    once .denyDiagnostics d.denyDiagnostics
    return { d with denyDiagnostics := true }
  | .verbose => do
    once .verbose d.verbose
    return { d with verbose := true }
  | .help => .error .help
  | .version => .error .version
  | _ => .ok d

def finish (d : Draft) : Except Stop Options :=
  match d.graph with
  | none => .error (.misuse .missingGraph)
  | some graph => .ok
      { graph, catalogs := d.catalogs, noBuiltins := d.noBuiltins,
        flavor := d.flavor.getD default, emit := d.emit.getD .code, output := d.output,
        denyDiagnostics := d.denyDiagnostics, verbose := d.verbose }

end Draft

structure State where
  draft : Draft := {}
  /-- The parameter that came last, with its value if that has come. -/
  pending : Option (Param × Option String) := none
  graphGiven : Bool := false
  optionsEnded : Bool := false

namespace State

def settle (s : State) : Except Stop State :=
  match s.pending with
  | none => .ok s
  | some (param, none) => .error (.misuse (.valueRequired param))
  | some (param, some value) => do
    return { s with draft := ← s.draft.takeValue param value, pending := none }

def attached (s : State) (param : Param) (value : String) : Except Stop State := do
  let s ← s.settle
  return { s with draft := ← s.draft.takeValue param value }

def flag (s : State) (param : Param) : Except Stop State := do
  let s ← s.settle
  return { s with draft := ← s.draft.takeFlag param }

def await (s : State) (param : Param) : Except Stop State := do
  let s ← s.settle
  return { s with pending := some (param, none) }

def positional (s : State) (arg : String) : Except Stop State :=
  if s.graphGiven then .error (.misuse (.unexpectedArgument arg))
  else do
    let s ← s.settle
    return { s with pending := some (.graph, some arg), graphGiven := true }

def long (s : State) (name : String) (value : Option String) : Except Stop State :=
  match Param.ofLong? name with
  | none => .error (.misuse (.unexpectedArgument ("--" ++ name)))
  | some param =>
    match param.takesValue, value with
    | true, some value => s.attached param value
    | true, none => s.await param
    | false, some value => .error (.misuse (.unexpectedValue value param))
    | false, none => s.flag param

/-- The letters after a single dash: options without a value, up to one that takes the rest as its
value. -/
def short (s : State) : List Char → Except Stop State
  | [] => .ok s
  | c :: rest =>
    match Param.ofShort? c with
    | none => .error (.misuse (.unexpectedArgument (String.ofList ['-', c])))
    | some param =>
      if param.takesValue then
        match rest with
        | [] => s.await param
        | '=' :: value => s.attached param (String.ofList value)
        | value => s.attached param (String.ofList value)
      else do
        let s ← s.flag param
        short s rest

def step (s : State) (arg : String) : Except Stop State :=
  if s.optionsEnded then s.positional arg
  else
    match arg.toList with
    | ['-', '-'] => .ok { s with optionsEnded := true }
    | '-' :: '-' :: rest =>
      let name := String.ofList (rest.takeWhile (· ≠ '='))
      let value := match rest.dropWhile (· ≠ '=') with
        | [] => none
        | _ :: value => some (String.ofList value)
      s.long name value
    | '-' :: c :: rest => s.short (c :: rest)
    | _ =>
      match s.pending with
      | some (param, none) => .ok { s with pending := some (param, some arg) }
      | _ => s.positional arg

end State

def parse (args : List String) : Except Stop Options := do
  let s ← args.foldlM State.step {}
  (← s.settle).draft.finish

end ProcFlow.CommandLine
