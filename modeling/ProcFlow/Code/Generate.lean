import ProcFlow.Code.Continuation
import ProcFlow.Code.Procedural
/-!
# Generating code

A graph becomes one function expression, in one of three flavours. Generating never fails: what cannot be
resolved shows as a placeholder.
-/

namespace ProcFlow.Code

inductive Flavor where
  /-- One expression; exits are continuations. -/
  | cont
  /-- Statements; output flows call a continuation. -/
  | contInlineProc
  /-- Statements; output flows are returned. -/
  | inlineProc
  deriving DecidableEq, Repr

namespace Flavor

def name : Flavor → String
  | cont => "cont"
  | contInlineProc => "cont-inline-proc"
  | inlineProc => "inline-proc"

def all : List Flavor := [cont, contInlineProc, inlineProc]

def ofName? (name : String) : Option Flavor := all.find? fun f => f.name = name

instance : Inhabited Flavor := ⟨contInlineProc⟩

end Flavor

def Setup.generate (s : Setup) : Flavor → String
  | .cont => s.continuation
  | .contInlineProc => s.procedural .continuation
  | .inlineProc => s.procedural .union

/-- The function of a graph. The context and the implementations may come from different catalogs. -/
def generate (c : Context) (implementations : Implementations) (flavor : Flavor) : String :=
  Setup.generate { context := c, implementations } flavor

end ProcFlow.Code
