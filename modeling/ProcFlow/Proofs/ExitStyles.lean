import ProcFlow.Proofs.Lines
import ProcFlow.Proofs.Lookup
/-!
# Two ways to leave a function

The two procedural flavours write the same function. They walk the graph alike, whatever is wrong with it,
because where the walk goes and which nodes it has seen has nothing to do with how a function is left; so
for every line of the one there is a line of the other. Apart from the signature a line looks different
only where it leaves, and there both leave through the same flow with the same values. An output flow that
is not declared is never left through: its line is a stub, and stubs look alike.
-/

namespace ProcFlow.Code

namespace Setup

variable (s : Setup)

/-- A statement leaves through declared flows only, and with the values that they carry. -/
def LeavesOpenly (statement : Statement) : Prop :=
  ∀ flow value, statement = .leave flow value →
    flow ∈ s.context.graph.outputFlows.keys ∧ value = s.outputExpr flow

/-- Lines whose statements leave openly. -/
def AllOpen (lines : List Line) : Prop := ∀ line ∈ lines, s.LeavesOpenly line.statement

variable {s}

namespace AllOpen

theorem append {lines lines' : List Line} (h : s.AllOpen lines) (h' : s.AllOpen lines') :
    s.AllOpen (lines ++ lines') := by
  intro line hline
  rw [List.mem_append] at hline
  exact hline.elim (h line) (h' line)

theorem linesAt (depth : Nat) {statements : List Statement}
    (h : ∀ statement ∈ statements, s.LeavesOpenly statement) :
    s.AllOpen (Setup.linesAt depth statements) := by
  intro line hline
  obtain ⟨statement, hstatement, rfl⟩ := List.mem_map.mp hline
  exact h statement hstatement

end AllOpen


/-! ### What is written at each turn -/

theorem stub_open (comment : String) : ∀ st ∈ s.stub comment, s.LeavesOpenly st := by
  simp [stub, LeavesOpenly]

theorem leaveStatements_open (flow : String) :
    ∀ st ∈ s.leaveStatements flow, s.LeavesOpenly st := by
  rw [leaveStatements]
  split
  next hflow =>
    simp only [List.mem_singleton, forall_eq]
    intro flow' value heq
    obtain ⟨rfl, rfl⟩ := Statement.leave.inj heq
    exact ⟨(Table.contains_iff _ _).mp hflow, rfl⟩
  · exact stub_open _

theorem finalStep_open (node : ProcId) : ∀ st ∈ s.finalStep node, s.LeavesOpenly st := by
  rw [finalStep]
  split <;> simp [stub, LeavesOpenly]

theorem singleStep_open (node : ProcId) (flow : String) :
    ∀ st ∈ s.singleStep node flow, s.LeavesOpenly st := by
  rw [singleStep]
  split <;> simp [LeavesOpenly]

theorem switchStep_open (node : ProcId) : ∀ st ∈ s.switchStep node, s.LeavesOpenly st := by
  rw [switchStep]
  split <;> simp [LeavesOpenly]

theorem closeBlock_open : ∀ st ∈ [Statement.closeBlock], s.LeavesOpenly st := by
  simp [LeavesOpenly]

theorem Ends.open {route : Route} {statements : List Statement} (h : s.Ends route statements) :
    ∀ st ∈ statements, s.LeavesOpenly st := by
  cases h with
  | leave flow => exact leaveStatements_open flow
  | final node => exact finalStep_open node
  | _ => exact stub_open _

theorem caseBlock_open (depth : Nat) (node : ProcId) {branch : String × List Line}
    (h : s.AllOpen branch.2) : s.AllOpen (caseBlock depth node branch) := by
  have hopening : s.AllOpen [⟨depth + 1, .onFlow branch.1⟩,
      ⟨depth + 2, .bind (flowVar node branch.1) (nodeVar node ++ ".value")⟩] := by
    simp [AllOpen, LeavesOpenly]
  exact hopening.append (h.append (.linesAt (depth + 1) closeBlock_open))

theorem routeLines_open (depth : Nat) (route : Route) : s.AllOpen (s.routeLines depth route) := by
  refine routeLines_induction (P := fun _ _ lines => s.AllOpen lines) ?_ ?_ ?_ depth route
  · exact fun depth _ _ hends => .linesAt depth hends.open
  · exact fun depth node flow _ hnext => .append (.linesAt depth (singleStep_open node flow)) hnext
  · intro depth node branches _ hbranches
    refine .append (.append (.linesAt depth (switchStep_open node)) ?_) (.linesAt depth closeBlock_open)
    intro line hline
    obtain ⟨branch, hbranch, hline⟩ := List.mem_flatMap.mp hline
    obtain ⟨b, hb, rfl⟩ := List.mem_map.mp hbranch
    exact caseBlock_open depth node (hbranches b hb) line hline

theorem detachedLines_open (node : ProcId) (route : Route) :
    s.AllOpen (s.detachedLines node route) :=
  .append (.append (.linesAt _ (by simp [LeavesOpenly])) (routeLines_open 2 route))
    (.linesAt _ closeBlock_open)

theorem bodyLines_open : s.AllOpen s.bodyLines := by
  refine .append (routeLines_open 1 _) fun line hline => ?_
  obtain ⟨⟨node, route⟩, _, hline⟩ := List.mem_flatMap.mp hline
  exact detachedLines_open node route line hline


/-! ### The lines of both flavours -/

/-- The lines that are written after the signature, in order. -/
def linesAfterSignature (s : Setup) (style : ExitStyle) : List String :=
  (s.bodyLines ++ linesAt 0 [.closeBlock]).map (Line.text style)

/-- A line of the one flavour beside a line of the other: the same, or the two ways to leave through a
declared flow with its values, at the same depth. -/
inductive Beside (s : Setup) : String → String → Prop where
  | same (line : String) : Beside s line line
  | exit (depth : Nat) {flow : String} (hflow : flow ∈ s.context.graph.outputFlows.keys) :
      Beside s
        ("".pushn ' ' (2 * depth) ++ ("return __k" ++ member flow ++ "(" ++ s.outputExpr flow ++ ");")
          ++ "\n")
        ("".pushn ' ' (2 * depth) ++ ("return \x7b flow: " ++ Json.quote flow ++ ", value: "
          ++ s.outputExpr flow ++ " \x7d;") ++ "\n")

theorem beside_text {line : Line} (h : s.LeavesOpenly line.statement) :
    s.Beside (line.text .continuation) (line.text .union) := by
  obtain ⟨depth, statement⟩ := line
  cases statement with
  | leave flow value =>
      obtain ⟨hflow, rfl⟩ := h flow value rfl
      exact .exit depth hflow
  | _ => exact .same _

theorem text_header (style : ExitStyle) (signature : String) :
    Line.text style ⟨0, .header signature⟩ = signature ++ " => \x7b\n" := by
  have hindent : "".pushn ' ' (2 * 0) = "" := rfl
  have hheader : Statement.text style (.header signature) = signature ++ " => \x7b" := rfl
  have hbreak : " => \x7b" ++ "\n" = " => \x7b\n" := by decide
  rw [Line.text, hindent, String.empty_append, hheader, String.append_assoc, hbreak]

theorem procedural_eq_append (style : ExitStyle) :
    s.procedural style
      = s.signature style ++ " => \x7b\n" ++ String.join (s.linesAfterSignature style) := by
  have hheader : (linesAt 0 [.header (s.signature style)]).map (Line.text style)
      = [s.signature style ++ " => \x7b\n"] := by
    rw [linesAt, List.map_singleton, List.map_singleton, text_header]
  rw [procedural, proceduralLines, List.append_assoc, List.map_append, String.join_append, hheader]
  simp [linesAfterSignature]

end Setup

/-- The two procedural flavours differ in their signatures and in how they leave, and in nothing else: of
any graph, in the light of any definitions and with any implementations. -/
theorem procedural_flavors_beside (c : Context) (implementations : Implementations) :
    let s : Setup := { context := c, implementations }
    generate c implementations .contInlineProc
        = s.continuationSignature ++ " => \x7b\n"
          ++ String.join (s.linesAfterSignature .continuation) ∧
      generate c implementations .inlineProc
        = s.unionSignature ++ " => \x7b\n" ++ String.join (s.linesAfterSignature .union) ∧
      List.Forall₂ s.Beside (s.linesAfterSignature .continuation) (s.linesAfterSignature .union) := by
  intro s
  refine ⟨s.procedural_eq_append .continuation, s.procedural_eq_append .union, ?_⟩
  rw [Setup.linesAfterSignature, Setup.linesAfterSignature, List.forall₂_map_left_iff,
    List.forall₂_map_right_iff, List.forall₂_same]
  intro line hline
  have hopen := Setup.AllOpen.append s.bodyLines_open (.linesAt 0 Setup.closeBlock_open)
  exact Setup.beside_text (hopen line hline)

end ProcFlow.Code
