import ProcFlow.Catalog.Basic
/-!
# The standard catalog

Arithmetic on numbers, a few operations on texts, and the conversions between the two. The procedures go
through the same checks as those of any manifest.
-/

namespace ProcFlow.Catalog

def resultFlow (type : TypeId) : FlowDef := ⟨"result", [⟨"res", type⟩]⟩

def slots (type : TypeId) (names : List String) : List Slot := names.map fun n => ⟨n, type⟩

def standardProcedures : List (String × ProcManifest) :=
  [("add", ⟨⟨slots "number" ["a", "b"], [resultFlow "number"]⟩,
      "@result(\x7b res: $a + $b \x7d)"⟩),
    ("sub", ⟨⟨slots "number" ["a", "b"], [resultFlow "number"]⟩,
      "@result(\x7b res: $a - $b \x7d)"⟩),
    ("mul", ⟨⟨slots "number" ["a", "b"], [resultFlow "number"]⟩,
      "@result(\x7b res: $a * $b \x7d)"⟩),
    ("div", ⟨⟨slots "number" ["a", "b"], [resultFlow "number", ⟨"divByZero", []⟩]⟩,
      "$b === 0 ? @divByZero(\x7b\x7d) : @result(\x7b res: $a / $b \x7d)"⟩),
    ("negate", ⟨⟨slots "number" ["x"], [resultFlow "number"]⟩,
      "@result(\x7b res: -$x \x7d)"⟩),
    ("concat", ⟨⟨slots "string" ["a", "b"], [resultFlow "string"]⟩,
      "@result(\x7b res: $a + $b \x7d)"⟩),
    ("toString", ⟨⟨slots "number" ["x"], [resultFlow "string"]⟩,
      "@result(\x7b res: String($x) \x7d)"⟩),
    ("parseNumber", ⟨⟨slots "string" ["s"], [resultFlow "number", ⟨"invalid", []⟩]⟩,
      "Number.isNaN(Number($s)) ? @invalid(\x7b\x7d) : @result(\x7b res: Number($s) \x7d)"⟩),
    ("compare", ⟨⟨slots "number" ["a", "b"], [⟨"less", []⟩, ⟨"equal", []⟩, ⟨"greater", []⟩]⟩,
      "$a < $b ? @less(\x7b\x7d) : $a > $b ? @greater(\x7b\x7d) : @equal(\x7b\x7d)"⟩),
    ("length", ⟨⟨slots "string" ["s"], [resultFlow "number"]⟩,
      "@result(\x7b res: $s.length \x7d)"⟩)]

def standardManifest : Manifest where
  types := .ofList [("number", "number"), ("string", "string"), ("boolean", "boolean")]
  procedures := .ofList standardProcedures

/-- The catalog that every program starts from, unless it asks for an empty one. -/
def standard : Catalog :=
  match empty.add standardManifest builtinOrigin with
  | .ok (c, _) => c
  | .error _ => empty

end ProcFlow.Catalog
