import ProcFlow.Catalog.Standard
import ProcFlow.CommandLine.Arguments
import ProcFlow.Compile
import ProcFlow.Drawing
/-!
# Running the program

The program loads the catalogs, reads the graph, compiles it, and writes what was asked for. Diagnostics
go to the error output unless they are what is written. The first thing that cannot be read ends the run.
-/

namespace ProcFlow.CommandLine

/-- What a run leaves behind, the written file apart. -/
structure Outcome where
  exitCode : Nat
  output : String := ""
  errors : String := ""
  deriving DecidableEq, Repr

def versionText : String := "ffc " ++ compilerVersion ++ "\n"

def helpText : String :=
  "\n".intercalate
    ["Func Factory Compiler — compiles procedure graphs to TypeScript functions",
      "",
      "Usage: ffc [OPTIONS] <GRAPH>",
      "",
      "Arguments:",
      "  <GRAPH>  Input graph (.json)",
      "",
      "Options:",
      "  -c, --catalog <CATALOG>  Catalog manifest (repeatable)",
      "      --no-builtins        Do not load the built-in procedures",
      "      --flavor <FLAVOR>    Code emission strategy [default: cont-inline-proc]"
      ++ " [possible values: cont, cont-inline-proc, inline-proc]",
      "      --emit <EMIT>        Output stage [default: ts]"
      ++ " [possible values: ts, dot, diagnostics, build-info]",
      "  -o, --output <OUTPUT>    Output file path (stdout when omitted)",
      "      --deny-diagnostics   Exit with status 1 when the graph has diagnostics",
      "      --verbose            Log compiler phases and timing",
      "  -h, --help               Print help",
      "  -V, --version            Print version",
      ""]

def report (text : String) : String := "ffc: " ++ text ++ "\n"

def failure (errors message : String) : Outcome :=
  { exitCode := 2, errors := errors ++ report ("error: " ++ message) }

def stopped : Stop → Outcome
  | .misuse e => { exitCode := 2, errors := e.message ++ "\n" }
  | .help => { exitCode := 0, output := helpText }
  | .version => { exitCode := 0, output := versionText }

def stageText (g : Graph) (c : Catalog) (r : Compilation) : Stage → String
  | .code => r.code
  | .drawing => Drawing.draw (c.context g)
  | .diagnostics => String.join (r.diagnostics.map fun d => d.text ++ "\n")
  | .buildInfo => r.provenance.json

section

variable {m : Type → Type} [Monad m]

def loadCatalogs (files : FileAccess m) : Catalog → List String → m (Except Catalog.Error Catalog)
  | c, [] => pure (.ok c)
  | c, path :: rest => do
    match c.addFile path (← files.read path) with
    | .error e => return .error e
    | .ok (c, _) => loadCatalogs files c rest

def loadGraph (files : FileAccess m) (path : String) : m (Except String Graph) := do
  match ← files.read path with
  | .error fault => return .error (path ++ ": " ++ fault.text)
  | .ok text =>
    match Graph.ofJson text with
    | .error fault => return .error (path ++ ": invalid graph: " ++ fault.message)
    | .ok g => return .ok g

def deliver (files : FileAccess m) (o : Options) (errors text : String) (r : Compilation) :
    m Outcome := do
  let denied := o.denyDiagnostics && !r.isFullyValid
  let exitCode := if denied then 1 else 0
  let last := if denied then report (r.diagnostics.length.repr ++ " diagnostic(s) reported") else ""
  match o.output with
  | none => return { exitCode, output := text, errors := errors ++ last }
  | some path =>
    match ← files.write path text with
    | .error fault => return failure errors (path ++ ": " ++ fault.text)
    | .ok () => return { exitCode, errors := errors ++ last }

def runWith (files : FileAccess m) (o : Options) : m Outcome := do
  let start := if o.noBuiltins then Catalog.empty else Catalog.standard
  match ← loadCatalogs files start o.catalogs with
  | .error e => return failure "" e.message
  | .ok c =>
    match ← loadGraph files o.graph with
    | .error message => return failure "" message
    | .ok g =>
      let r := compile g c o.flavor
      let errors :=
        if o.emit = .diagnostics then ""
        else String.join (r.diagnostics.map fun d => report d.text)
      deliver files o errors (stageText g c r o.emit) r

def run (files : FileAccess m) (args : List String) : m Outcome :=
  match parse args with
  | .error stop => pure (stopped stop)
  | .ok o => runWith files o

end

end ProcFlow.CommandLine
