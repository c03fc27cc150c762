import ProcFlow.Template.Basic
import ProcFlow.Code.Name
import ProcFlow.Diagnostic
import ProcFlow.Decimal.Shortest
import ProcFlow.Json.Fault
import ProcFlow.Json.Numeral
import ProcFlow.Json.Literal
import ProcFlow.Json.Node
import ProcFlow.Catalog.Basic
import ProcFlow.Catalog.Standard
import ProcFlow.Context.Basic
import ProcFlow.Context.Check
import ProcFlow.Code.Continuation
import ProcFlow.Code.Generate
import ProcFlow.Compile
import ProcFlow.Drawing
import ProcFlow.CommandLine.Arguments
import ProcFlow.CommandLine.Run
import ProcFlow.Main
import ProcFlow.Proofs.Lines
import ProcFlow.Proofs.Validity
import ProcFlow.Proofs.Unfolding
import ProcFlow.Proofs.Scoping
import ProcFlow.Proofs.Continuation
import ProcFlow.Proofs.Runs
import ProcFlow.Proofs.Cycles
import ProcFlow.Proofs.DataFaults
import ProcFlow.Proofs.ControlFaults
import ProcFlow.Proofs.Emission
import ProcFlow.Proofs.CatalogCalls
import ProcFlow.Proofs.Written
import ProcFlow.Proofs.Decoding
import ProcFlow.Proofs.GraphText
import ProcFlow.Proofs.CatalogText
import ProcFlow.Proofs.Agreement
import ProcFlow.Proofs.Stability
import ProcFlow.Proofs.Fingerprint
import ProcFlow.Proofs.Ownership
import ProcFlow.Proofs.Labels
import ProcFlow.Proofs.Painting
import ProcFlow.Proofs.Hygiene
import ProcFlow.Proofs.LoadOrder
import ProcFlow.Proofs.ExitStyles
import ProcFlow.Proofs.Locality
import ProcFlow.Proofs.Underscores
import ProcFlow.Proofs.TemplateGrammar
import ProcFlow.Proofs.TemplateText
import ProcFlow.Proofs.Flaws
import ProcFlow.Proofs.Admission
import ProcFlow.Proofs.Stranded
import ProcFlow.Proofs.SharedEnds
import ProcFlow.Proofs.Exits
import ProcFlow.Proofs.Nesting
import ProcFlow.Proofs.Comments
import ProcFlow.Proofs.DrawingText
import ProcFlow.Proofs.DrawnEnds
import ProcFlow.Proofs.TemplatePlaces
import ProcFlow.Proofs.SearchTurns
