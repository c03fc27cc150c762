import ProcFlow.Catalog.Basic
import ProcFlow.Code.Generate
import ProcFlow.Context.Check
import ProcFlow.Hash.Sha256
/-!
# Compiling a graph

Compiling checks a graph against a catalog and generates its code. The result also says what it was made
from: the digests of the two canonical texts, which can serve as the key of a cache.
-/

namespace ProcFlow

def compilerVersion : String := "0.1.0"

structure Provenance where
  graphHash : Sha256.State
  catalogFingerprint : Sha256.State
  deriving DecidableEq, Repr

namespace Provenance

def of (g : Graph) (c : Catalog) : Provenance :=
  ⟨Sha256.digestText g.canonicalJson, Sha256.digestText c.canonicalJson⟩

def json (p : Provenance) : String :=
  "\x7b\n  \"graph_hash\": \"" ++ p.graphHash.hex
    ++ "\",\n  \"catalog_fingerprint\": \"" ++ p.catalogFingerprint.hex
    ++ "\",\n  \"compiler_version\": \"" ++ compilerVersion ++ "\"\n\x7d\n"

end Provenance

structure Compilation where
  code : String
  diagnostics : List Diagnostic
  provenance : Provenance

def Compilation.isFullyValid (r : Compilation) : Bool := r.diagnostics.isEmpty

def Catalog.context (c : Catalog) (g : Graph) : Context := ⟨g, c.definitions⟩

/-- Compiles a graph. This never fails: what is wrong with the graph is among the diagnostics. -/
def compile (g : Graph) (c : Catalog) (flavor : Code.Flavor) : Compilation where
  code := Code.generate (c.context g) c.implementations flavor
  diagnostics := (c.context g).diagnostics
  provenance := .of g c

end ProcFlow
