import ProcFlow.Proofs.Continuation
/-!
# What code depends on

Code is generated from a graph, from definitions and from implementations, but it does not read all of
them. Of the edges it reads which one is found first from each source, of a node what it resolves to and
what its slots read, of a type its spelling if some signature or some flow spells it. Two setups that
agree on this have the same plan and so the same code, whatever else they hold.

The labels of edges count only at nodes that are not resolved. This is what lets the order of the edges
vary without a trace in the code of a graph whose nodes are all resolved.
-/

namespace ProcFlow

/-- Arenas of one size, and the same edge found first from each source. -/
structure Context.SameCourse (c c' : Context) : Prop where
  size : c'.graph.procs.length = c.graph.procs.length
  next : ∀ source, (c'.successor? source).map Prod.snd = (c.successor? source).map Prod.snd

namespace Code

/-! ### Plans -/

section Plans

variable {c c' : Context} (h : c.SameCourse c') {labels labels' : ProcId → List String}
  (hlabels : ∀ id, (c.graph.proc? id).isSome → labels' id = labels id)

include h

theorem isNone_proc?_congr (id : ProcId) :
    (c'.graph.proc? id).isNone = (c.graph.proc? id).isNone := by
  rw [Graph.proc?, Graph.proc?, Bool.eq_iff_iff, Option.isNone_iff_eq_none,
    Option.isNone_iff_eq_none, List.getElem?_eq_none_iff, List.getElem?_eq_none_iff, h.size]

theorem follow_congr : Route.follow c' = Route.follow c := by
  funext enter source seen
  have hnext := h.next source
  cases hfound : c.successor? source with
  | none =>
      rw [hfound, Option.map_none, Option.map_eq_none_iff] at hnext
      simp only [Route.follow, hfound, hnext]
  | some found =>
      rw [hfound, Option.map_some, Option.map_eq_some_iff] at hnext
      obtain ⟨found', hfound', hedge⟩ := hnext
      simp only [Route.follow, hfound, hfound', hedge]

theorem branches_congr (enter : ProcId → List ProcId → Route × List ProcId) (node : ProcId)
    (followed : List String) (seen : List ProcId) :
    Route.branches c' enter node followed seen = Route.branches c enter node followed seen := by
  induction followed generalizing seen with
  | nil => rfl
  | cons label rest ih =>
      simp only [Route.branches, follow_congr h]
      rw [ih]

include hlabels

theorem enter_congr (depth : Nat) : Route.enter c' labels' depth = Route.enter c labels depth := by
  induction depth with
  | zero => rfl
  | succ depth ih =>
      funext node seen
      rw [Route.enter, Route.enter, isNone_proc?_congr h, ih]
      -- Labels are asked for only of nodes that are in the arena.
      by_cases hnone : (c.graph.proc? node).isNone
      · rw [if_pos hnone, if_pos hnone]
      · have hsome : (c.graph.proc? node).isSome := by
          rwa [← Option.not_isSome, Bool.not_eq_true', Bool.not_eq_false] at hnone
        rw [if_neg hnone, if_neg hnone, hlabels node hsome, branches_congr h]

theorem ofContext_congr : Plan.ofContext c' labels' = Plan.ofContext c labels := by
  have hids : c'.graph.procIds = c.graph.procIds := by
    rw [Graph.procIds, Graph.procIds, h.size]
  simp only [Plan.ofContext, h.size, enter_congr h hlabels, follow_congr h, hids]

end Plans


/-! ### Setups -/

namespace Setup

/-- The types that the code of a setup may spell: those of the inputs, of the values that leave, and of
the values that the flows of its nodes carry. -/
inductive Spells (s : Setup) : TypeId → Prop where
  | input {key : String} {decl : InputDecl} (hinput : s.context.graph.inputs.get? key = some decl) :
      Spells s decl.type
  | output {flow id : String} {value : OutputValue}
      (houtput : (flow, id, value) ∈ s.context.graph.outputEntries) : Spells s value.type
  | value {node : ProcId} {d : Definition} {t : Template} {f : FlowDef} {v : Slot}
      (hnode : s.resolved? node = some (d, t)) (hflow : f ∈ d.outputs) (hvalue : v ∈ f.values) :
      Spells s v.type

/-- Two setups agree on all that code reads. -/
structure Agrees (s s' : Setup) : Prop where
  placeholder : s'.placeholder = s.placeholder
  inputs : s'.context.graph.inputs = s.context.graph.inputs
  outputFlows : s'.context.graph.outputFlows = s.context.graph.outputFlows
  procedures : s'.context.graph.procs.map ProcNode.procedure
    = s.context.graph.procs.map ProcNode.procedure
  next : ∀ source, (s'.context.successor? source).map Prod.snd
    = (s.context.successor? source).map Prod.snd
  resolved : ∀ id, s'.resolved? id = s.resolved? id
  outgoing : ∀ id, (s.context.graph.proc? id).isSome → s.resolved? id = none →
    s'.outgoingLabels id = s.outgoingLabels id
  binding : ∀ id slot, s'.context.binding? id slot = s.context.binding? id slot
  outputs : s'.context.outputs = s.context.outputs
  host : ∀ type, s.Spells type → s'.hostType type = s.hostType type

namespace Agrees

variable {s s' : Setup}

section

variable (h : s.Agrees s')

include h

theorem sameCourse : s.context.SameCourse s'.context := by
  refine ⟨?_, h.next⟩
  simpa only [List.length_map] using congrArg List.length h.procedures


/-! ### Types and signatures -/

theorem flowType {node : ProcId} {d : Definition} {t : Template}
    (hnode : s.resolved? node = some (d, t)) {f : FlowDef} (hflow : f ∈ d.outputs) :
    s'.flowType f = s.flowType f := by
  rw [Setup.flowType, Setup.flowType]
  congr 1
  apply List.map_congr_left
  intro v hvalue
  rw [h.host v.type (.value hnode hflow hvalue)]

theorem outputType (flow : String) : s'.outputType flow = s.outputType flow := by
  rw [Setup.outputType, Setup.outputType, h.outputFlows]
  cases hvalues : s.context.graph.outputFlows.get? flow with
  | none => rfl
  | some values =>
      simp only [Option.getD_some]
      congr 1
      apply List.map_congr_left
      intro e he
      obtain ⟨id, value⟩ := e
      have houtput : (flow, id, value) ∈ s.context.graph.outputEntries :=
        s.context.graph.mem_outputEntries.mpr
          ⟨values, hvalues, (values.get?_eq_some_iff id value).mpr he⟩
      simp only [h.host value.type (.output houtput)]

theorem parameterNames :
    parameterNames s'.context.graph = parameterNames s.context.graph := by
  rw [Code.parameterNames, Code.parameterNames, h.inputs]

theorem parameters : s'.parameters = s.parameters := by
  rw [Setup.parameters, Setup.parameters, h.parameterNames, h.inputs]
  apply List.map_congr_left
  intro e he
  obtain ⟨⟨key, decl⟩, _, name⟩ := e
  have hinput := (s.context.graph.inputs.get?_eq_some_iff key decl).mpr (List.of_mem_zip he).1
  simp only [h.host decl.type (.input hinput)]

theorem continuationSignature : s'.continuationSignature = s.continuationSignature := by
  simp only [Setup.continuationSignature, h.parameters, h.outputFlows, h.outputType]

theorem signature (style : ExitStyle) : s'.signature style = s.signature style := by
  cases style with
  | continuation => exact h.continuationSignature
  | union => simp only [Setup.signature, unionSignature, h.parameters, h.outputFlows, h.outputType]


/-! ### Expressions -/

theorem symbolExpr (r : Resolution) : s'.symbolExpr r = s.symbolExpr r := by
  cases r with
  | entry key decl => simp only [Setup.symbolExpr, h.parameterNames, h.placeholder]
  | proc node flow value => rfl
  | undefinedOrigin => exact h.placeholder
  | unresolved => exact h.placeholder

theorem inputExpr (node : ProcId) : s'.inputExpr node = s.inputExpr node := by
  funext slot
  simp only [Setup.inputExpr, h.binding, h.symbolExpr, h.placeholder]

theorem outputExpr (flow : String) : s'.outputExpr flow = s.outputExpr flow := by
  simp only [Setup.outputExpr, h.outputs, h.symbolExpr]

theorem nodeExpr (node : ProcId) (t : Template) (exit : String → String) :
    s'.nodeExpr node t exit = s.nodeExpr node t exit := by
  rw [Setup.nodeExpr, Setup.nodeExpr, h.inputExpr]

theorem exitExpr {node : ProcId} {d : Definition} {t : Template}
    (hnode : s.resolved? node = some (d, t)) : s'.exitExpr d = s.exitExpr d := by
  funext exit
  rw [Setup.exitExpr, Setup.exitExpr, h.placeholder]
  split
  · rfl
  · split
    next f hfound =>
      have hflow : f ∈ d.outputs := List.mem_reverse.mp (List.mem_of_find?_eq_some hfound)
      rw [taggingExit, taggingExit, h.flowType hnode hflow]
    · rfl

theorem stepExpr {node : ProcId} {d : Definition} {t : Template}
    (hnode : s.resolved? node = some (d, t)) : s'.stepExpr node d t = s.stepExpr node d t := by
  rw [Setup.stepExpr, Setup.stepExpr, h.exitExpr hnode, h.nodeExpr]

theorem labelType (node : ProcId) (label : String) :
    s'.labelType node label = s.labelType node label := by
  rw [Setup.labelType, Setup.labelType, h.resolved]
  cases hnode : s.resolved? node with
  | none => rfl
  | some found =>
      obtain ⟨d, t⟩ := found
      -- A type is spelled only for a flow of the definition, and there the setups agree on it.
      cases hflow : d.flow? label with
      | none => simp only [hflow, h.placeholder]
      | some f => simp only [hflow, h.flowType hnode (Definition.flow?_eq_some hflow).1]


/-! ### Statements and lines -/

theorem unresolvedComment (node : ProcId) :
    s'.unresolvedComment node = s.unresolvedComment node := by
  have hprocedure : (s'.context.graph.proc? node).map ProcNode.procedure
      = (s.context.graph.proc? node).map ProcNode.procedure := by
    rw [Graph.proc?, Graph.proc?, ← List.getElem?_map, ← List.getElem?_map, h.procedures]
  rw [Setup.unresolvedComment, Setup.unresolvedComment, hprocedure]

theorem stub : s'.stub = s.stub := by
  funext comment
  rw [Setup.stub, Setup.stub, h.placeholder]

theorem leaveStatements (flow : String) : s'.leaveStatements flow = s.leaveStatements flow := by
  rw [Setup.leaveStatements, Setup.leaveStatements, h.outputFlows, h.outputExpr, h.stub]

theorem finalStep (node : ProcId) : s'.finalStep node = s.finalStep node := by
  rw [Setup.finalStep, Setup.finalStep, h.resolved]
  cases hnode : s.resolved? node with
  | none => simp only [h.unresolvedComment, h.placeholder]
  | some found => simp only [h.stepExpr hnode, h.stub]

theorem singleStep (node : ProcId) (flow : String) :
    s'.singleStep node flow = s.singleStep node flow := by
  rw [Setup.singleStep, Setup.singleStep, h.resolved]
  cases hnode : s.resolved? node with
  | none => simp only [h.unresolvedComment, h.placeholder]
  | some found => simp only [h.stepExpr hnode]

theorem switchStep (node : ProcId) : s'.switchStep node = s.switchStep node := by
  rw [Setup.switchStep, Setup.switchStep, h.resolved]
  cases hnode : s.resolved? node with
  | none => simp only [h.unresolvedComment, h.placeholder]
  | some found => simp only [h.stepExpr hnode]

end

theorem ends (h : s.Agrees s') {route : Route} {statements : List Statement}
    (hends : s.Ends route statements) : s'.Ends route statements := by
  cases hends with
  | deadEnd source =>
      rw [← h.stub]
      exact .deadEnd source
  | leave flow =>
      rw [← h.leaveStatements]
      exact .leave flow
  | missing node =>
      rw [← h.stub]
      exact .missing node
  | repeated node =>
      rw [← h.stub]
      exact .repeated node
  | final node =>
      rw [← h.finalStep]
      exact .final node

theorem routeLines (h : s.Agrees s') (depth : Nat) (route : Route) :
    s'.routeLines depth route = s.routeLines depth route := by
  refine Setup.routeLines_induction (P := fun depth route lines => s'.routeLines depth route = lines)
    ?_ ?_ ?_ depth route
  · exact fun depth _ _ hends => (h.ends hends).routeLines_eq depth
  · intro depth node flow next hnext
    rw [Setup.routeLines_single, h.singleStep, hnext]
  · intro depth node branches hseveral hbranches
    have hcases : (branches.map fun b => (b.1, s'.routeLines (depth + 2) b.2))
        = branches.map fun b => (b.1, s.routeLines (depth + 2) b.2) :=
      List.map_congr_left fun b hb => congrArg (Prod.mk b.1) (hbranches b hb)
    rw [Setup.routeLines_several depth node hseveral, h.switchStep, hcases]

section

variable (h : s.Agrees s')

include h

theorem proceduralLabels {id : ProcId} (hid : (s.context.graph.proc? id).isSome) :
    s'.proceduralLabels id = s.proceduralLabels id := by
  rw [Setup.proceduralLabels, Setup.proceduralLabels, h.resolved]
  cases hnode : s.resolved? id with
  | none => exact h.outgoing id hid hnode
  | some found => rfl

theorem bodyLines : s'.bodyLines = s.bodyLines := by
  have hplan : s'.proceduralPlan = s.proceduralPlan :=
    ofContext_congr h.sameCourse fun _ hid => h.proceduralLabels hid
  have hdetached : s'.detachedLines = s.detachedLines := by
    funext node route
    rw [Setup.detachedLines, Setup.detachedLines, h.routeLines]
  rw [Setup.bodyLines, Setup.bodyLines, hplan, hdetached, h.routeLines]

theorem procedural (style : ExitStyle) : s'.procedural style = s.procedural style := by
  rw [Setup.procedural, Setup.procedural, proceduralLines, proceduralLines, h.signature, h.bodyLines]


/-! ### Continuation style -/

theorem callExpr (node : ProcId) (lambdas : List (String × String)) :
    s'.callExpr node lambdas = s.callExpr node lambdas := by
  rw [Setup.callExpr, Setup.callExpr, h.resolved]
  cases hnode : s.resolved? node with
  | none => simp only [h.placeholder]
  | some found => simp only [h.nodeExpr, h.placeholder]

theorem leaveExpr (flow : String) : s'.leaveExpr flow = s.leaveExpr flow := by
  rw [Setup.leaveExpr, Setup.leaveExpr, h.outputFlows, h.outputExpr, h.placeholder]

theorem routeExpr (route : Route) : s'.routeExpr route = s.routeExpr route := by
  induction route using Route.induction with
  | deadEnd source => rw [Setup.routeExpr, Setup.routeExpr, h.placeholder]
  | leave flow => rw [Setup.routeExpr, Setup.routeExpr, h.leaveExpr]
  | missing node => rw [Setup.routeExpr, Setup.routeExpr, h.placeholder]
  | repeated node => rw [Setup.routeExpr, Setup.routeExpr, h.placeholder]
  | step node branches ih =>
      have hlambdas : s'.branchLambdas node branches = s.branchLambdas node branches := by
        rw [branchLambdas_eq_map, branchLambdas_eq_map]
        refine List.map_congr_left fun b hb => ?_
        rw [Setup.lambda, Setup.lambda, h.labelType, ih b hb]
      rw [Setup.routeExpr, Setup.routeExpr, h.callExpr, hlambdas]

theorem continuationLabels {id : ProcId} (hid : (s.context.graph.proc? id).isSome) :
    s'.continuationLabels id = s.continuationLabels id := by
  rw [Setup.continuationLabels, Setup.continuationLabels, h.resolved]
  cases hnode : s.resolved? id with
  | none => exact h.outgoing id hid hnode
  | some found => rfl

theorem continuation : s'.continuation = s.continuation := by
  have hplan : s'.continuationPlan = s.continuationPlan :=
    ofContext_congr h.sameCourse fun _ hid => h.continuationLabels hid
  simp only [Setup.continuation, continuationBody, h.continuationSignature, hplan, h.routeExpr]

theorem generate (flavor : Flavor) : s'.generate flavor = s.generate flavor := by
  cases flavor with
  | cont => exact h.continuation
  | contInlineProc => exact h.procedural .continuation
  | inlineProc => exact h.procedural .union

end

end Agrees

end Setup

end Code

end ProcFlow
