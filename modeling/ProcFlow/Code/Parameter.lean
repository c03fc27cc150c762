import ProcFlow.Code.Name
import ProcFlow.Graph.Basic
/-!
# Parameter names

Each declared input becomes a parameter of the generated function. Its name is made from the first
outside name of the input, or from its key, and keeps clear of the names that the generator makes up
itself: of several leading underscores only one stays. A name that is taken gets the least number from
two on that makes it free.
-/

namespace ProcFlow.Code

/-- Leaves at most one of the leading underscores. -/
def trimUnderscores : List Char → List Char
  | '_' :: rest => '_' :: rest.dropWhile (· = '_')
  | cs => cs

def baseName (key : String) (decl : InputDecl) : String :=
  String.ofList (trimUnderscores (identifier (decl.names.headD key)).toList)

def numbered (base : String) (n : Nat) : String := base ++ "_" ++ n.repr

/-- The name itself if it is free, or else with the least number from two on that makes it free. One of
the first `used.length + 1` numbers does. -/
def freshName (used : List String) (base : String) : String :=
  if base ∉ used then base
  else
    let candidates := (List.range (used.length + 1)).map fun i => numbered base (i + 2)
    (candidates.find? fun name => name ∉ used).getD base

def nameInputs (used : List String) : List (String × InputDecl) → List (String × String)
  | [] => []
  | (key, decl) :: rest =>
    let name := freshName used (baseName key decl)
    (key, name) :: nameInputs (name :: used) rest

def parameterNames (g : Graph) : List (String × String) := nameInputs hostGlobals g.inputs.entries

end ProcFlow.Code
