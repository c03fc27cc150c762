import ProcFlow.Proofs.Unfolding
/-!
# How procedural code is nested

Procedural code is made of bodies. A body goes straight on for some lines and then ends, in a return or in
a switch, and each case of the switch has a body of its own. So whoever runs a body comes to a return,
whichever case is taken at each switch; nothing stands behind a return, and every block is closed at the
depth at which it was opened.

This is so on any graph. An edge that is missing or leads nowhere, a node that has been stepped into
before, a procedure that nobody knows or that has no flows: each of them has a say in how a body ends, and
none in whether it ends.
-/

namespace ProcFlow.Code

/-! ### The grammar of a body -/

/-- A statement from which control goes on to the next line. -/
inductive Statement.GoesOn : Statement → Prop where
  | comment (text : String) : GoesOn (.comment text)
  | bind (name value : String) : GoesOn (.bind name value)
  | run (expression : String) : GoesOn (.run expression)

/-- A statement that returns. -/
inductive Statement.Returns : Statement → Prop where
  | giveBack (value : String) : Returns (.giveBack value)
  | leave (flow value : String) : Returns (.leave flow value)

mutual

/-- Lines that go on at a depth, and an end at the same depth. -/
inductive Body : Nat → List Line → Prop where
  | mk {depth : Nat} {before : List Statement} {last : List Line}
      (hbefore : ∀ statement ∈ before, statement.GoesOn) (hlast : BodyEnd depth last) :
      Body depth (Setup.linesAt depth before ++ last)

/-- A return, or a switch with at least one case. -/
inductive BodyEnd : Nat → List Line → Prop where
  | stop {depth : Nat} {statement : Statement} (h : statement.Returns) :
      BodyEnd depth (Setup.linesAt depth [statement])
  | switch {depth : Nat} (name : String) {cases : List (List Line)} (hne : cases ≠ [])
      (hcases : ∀ lines ∈ cases, CaseBlock depth lines) :
      BodyEnd depth
        (Setup.linesAt depth [.switchOn name] ++ cases.flatten ++ Setup.linesAt depth [.closeBlock])

/-- A case of a switch that stands at a depth: it binds what comes with the flow, and has a body. -/
inductive CaseBlock : Nat → List Line → Prop where
  | mk {depth : Nat} (flow name value : String) {inner : List Line} (hinner : Body (depth + 2) inner) :
      CaseBlock depth
        (Setup.linesAt (depth + 1) [.onFlow flow] ++ Setup.linesAt (depth + 2) [.bind name value]
          ++ inner ++ Setup.linesAt (depth + 1) [.closeBlock])

end

/-- A block in the function for what the entry does not lead to. -/
inductive DetachedBlock : List Line → Prop where
  | mk (text : String) {inner : List Line} (hinner : Body 2 inner) :
      DetachedBlock
        (Setup.linesAt 1 [.comment text, .openBlock] ++ inner ++ Setup.linesAt 1 [.closeBlock])

theorem Setup.linesAt_append (depth : Nat) (statements statements' : List Statement) :
    Setup.linesAt depth (statements ++ statements')
      = Setup.linesAt depth statements ++ Setup.linesAt depth statements' :=
  List.map_append

theorem Body.goOn (depth : Nat) (before : List Statement) {rest : List Line}
    (hbefore : ∀ statement ∈ before, statement.GoesOn) (hrest : Body depth rest) :
    Body depth (Setup.linesAt depth before ++ rest) := by
  cases hrest with
  | @mk _ between last hbetween hlast =>
      rw [← List.append_assoc, ← Setup.linesAt_append]
      exact .mk (List.forall_mem_append.mpr ⟨hbefore, hbetween⟩) hlast

/-- Statements at one depth are a body if they go on up to the last one, which returns. -/
theorem Body.ofStatements (depth : Nat) (before : List Statement) {last : Statement}
    (hbefore : ∀ statement ∈ before, statement.GoesOn) (hlast : last.Returns) :
    Body depth (Setup.linesAt depth (before ++ [last])) := by
  rw [Setup.linesAt_append]
  exact .mk hbefore (.stop hlast)


/-! ### What is written at each turn -/

namespace Setup

variable (s : Setup)

theorem stub_body (depth : Nat) (text : String) : Body depth (linesAt depth (s.stub text)) :=
  Body.ofStatements depth [.comment text] (by simp [Statement.GoesOn.comment]) (.giveBack _)

theorem leaveStatements_body (depth : Nat) (flow : String) :
    Body depth (linesAt depth (s.leaveStatements flow)) := by
  rw [leaveStatements]
  split
  · exact Body.ofStatements depth [] (by simp) (.leave flow _)
  · exact s.stub_body depth _

theorem finalStep_body (depth : Nat) (node : ProcId) :
    Body depth (linesAt depth (s.finalStep node)) := by
  rw [finalStep]
  split
  next d t _ =>
    exact Body.goOn depth [.run (s.stepExpr node d t)] (by simp [Statement.GoesOn.run])
      (s.stub_body depth _)
  · exact Body.ofStatements depth
      [.comment (s.unresolvedComment node), .bind (nodeVar node) s.placeholder]
      (by simp [Statement.GoesOn.comment, Statement.GoesOn.bind]) (.giveBack _)

theorem singleStep_goesOn (node : ProcId) (flow : String) :
    ∀ statement ∈ s.singleStep node flow, statement.GoesOn := by
  rw [singleStep]
  split <;> simp [Statement.GoesOn.comment, Statement.GoesOn.bind]

/-- The statements up to a switch go on up to the last one, which switches. -/
theorem exists_switchStep_eq (node : ProcId) :
    ∃ before, (∀ statement ∈ before, statement.GoesOn) ∧
      s.switchStep node = before ++ [.switchOn (nodeVar node)] := by
  rw [switchStep]
  split
  · exact ⟨[.bind _ _], by simp [Statement.GoesOn.bind], rfl⟩
  · exact ⟨[.comment _, .bind _ _], by simp [Statement.GoesOn.comment, Statement.GoesOn.bind], rfl⟩

theorem Ends.body {route : Route} {statements : List Statement} (h : s.Ends route statements)
    (depth : Nat) : Body depth (linesAt depth statements) := by
  cases h with
  | leave flow => exact s.leaveStatements_body depth flow
  | final node => exact s.finalStep_body depth node
  | _ => exact s.stub_body depth _

/-- A node that goes on in several ways is a body, if there is one ahead of each of its flows. -/
theorem switch_body {depth : Nat} {node : ProcId} {cases : List (String × List Line)}
    (hne : cases ≠ []) (hbodies : ∀ b ∈ cases, Body (depth + 2) b.2) :
    Body depth (linesAt depth (s.switchStep node) ++ cases.flatMap (caseBlock depth node)
      ++ linesAt depth [.closeBlock]) := by
  obtain ⟨before, hbefore, hstep⟩ := s.exists_switchStep_eq node
  have hcases : ∀ lines ∈ cases.map (caseBlock depth node), CaseBlock depth lines := by
    intro lines hlines
    obtain ⟨b, hb, rfl⟩ := List.mem_map.mp hlines
    exact .mk b.1 (flowVar node b.1) (nodeVar node ++ ".value") (hbodies b hb)
  rw [hstep, linesAt_append, List.append_assoc, List.append_assoc, List.flatMap_def,
    ← List.append_assoc _ (cases.map (caseBlock depth node)).flatten]
  exact .mk hbefore (.switch (nodeVar node) (by simpa using hne) hcases)

theorem routeLines_body (depth : Nat) (route : Route) : Body depth (s.routeLines depth route) := by
  refine routeLines_induction (P := fun depth _ lines => Body depth lines) ?_ ?_ ?_ depth route
  · exact fun depth _ _ hends => hends.body s depth
  · exact fun depth node flow _ hnext => Body.goOn depth _ (s.singleStep_goesOn node flow) hnext
  · intro depth node branches hseveral hbranches
    refine s.switch_body (List.ne_nil_of_length_pos ?_) ?_
    · rw [List.length_map]
      omega
    · exact List.forall_mem_map.mpr hbranches

theorem detachedLines_block (node : ProcId) (route : Route) :
    DetachedBlock (s.detachedLines node route) :=
  .mk _ (s.routeLines_body 2 route)

end Setup

/-- Procedural code is well nested, on any graph and with any catalogs. What is written for whatever
follows a source is a body at the depth at which it is written; the function is its signature, the body
of the entry, a block for each node that is left over, and a closing brace; and each line is spelled as
its statement asks. -/
theorem procedural_well_nested (s : Setup) (style : ExitStyle) :
    (∀ enter source seen depth,
      Body depth (s.routeLines depth (Route.follow s.context enter source seen).1)) ∧
    ∃ (main : List Line) (blocks : List (List Line)), Body 1 main ∧
      (∀ lines ∈ blocks, DetachedBlock lines) ∧
      s.generate style.flavor
        = String.join ((Setup.linesAt 0 [.header (s.signature style)] ++ main ++ blocks.flatten
            ++ Setup.linesAt 0 [.closeBlock]).map (Line.text style)) ∧
      ∀ line : Line, line.Spelled style (line.text style) := by
  refine ⟨fun _ _ _ depth => s.routeLines_body depth _, ?_⟩
  refine ⟨s.routeLines 1 s.proceduralPlan.main,
    s.proceduralPlan.detached.map fun d => s.detachedLines d.1 d.2, s.routeLines_body 1 _, ?_, ?_⟩
  · intro lines hlines
    obtain ⟨d, _, rfl⟩ := List.mem_map.mp hlines
    exact s.detachedLines_block d.1 d.2
  · refine ⟨?_, fun line => line.spelled_text style⟩
    rw [Setup.generate_flavor, Setup.procedural, Setup.proceduralLines, Setup.bodyLines,
      List.flatMap_def, ← List.append_assoc (Setup.linesAt 0 _)]

end ProcFlow.Code
