import ProcFlow.Proofs.Emission
import ProcFlow.Proofs.ExitStyles
import ProcFlow.Proofs.Fingerprint
import ProcFlow.Proofs.Replacement
/-!
# Exits and the signature

A signature declares a member for each output flow, with a type whose fields are the values of the flow.
Where code leaves through a flow it names that member, and gives an object. The type is read from the
tables of the graph and the object from the flat list of what the values stand for, but because no flow is
declared twice the list falls back into the same tables, in the same order.

Keys and members are written from names in such a way that no two names meet: a name is written as it is or
quoted, a quoted name is not one that could be written as it is, and a quoted text can be read back.
-/

namespace ProcFlow

namespace Code

/-! ### Keys and members -/

theorem quote_injective : Function.Injective Json.quote := fun _ _ heq =>
  Json.Document.string_injective (Json.Document.compact_injective heq)

theorem isPlainName_quote (name : String) : isPlainName (Json.quote name) = false := by
  have hquote : isIdentChar '"' = false := by decide
  simp [isPlainName, Json.quote, Json.quoteChars, hquote]

theorem isPlainName_objectKey (name : String) : isPlainName (objectKey name) = isPlainName name := by
  cases hplain : isPlainName name <;> simp [objectKey, hplain, isPlainName_quote]

theorem objectKey_inj {a b : String} : objectKey a = objectKey b ↔ a = b := by
  refine ⟨?_, congrArg objectKey⟩
  intro heq
  have hplain := congrArg isPlainName heq
  rw [isPlainName_objectKey, isPlainName_objectKey] at hplain
  rw [objectKey, objectKey, hplain] at heq
  cases hb : isPlainName b with
  | true => simpa [hb] using heq
  | false =>
      simp only [hb, Bool.false_eq_true, if_false] at heq
      exact quote_injective heq

/-- The access to a member of a record by its key as it is written. -/
def access (key : String) : String :=
  if isPlainName key then "." ++ key else "[" ++ key ++ "]"

theorem member_eq_access (name : String) : member name = access (objectKey name) := by
  rw [member, access, isPlainName_objectKey, objectKey]
  split <;> rfl

theorem access_inj {key key' : String} : access key = access key' ↔ key = key' := by
  refine ⟨?_, congrArg access⟩
  intro heq
  have hchars := congrArg String.toList heq
  unfold access at hchars
  -- A dot is no bracket, so both keys are plain or both are quoted.
  split at hchars <;> split at hchars <;> simp at hchars
  · exact String.toList_injective hchars
  · exact String.toList_injective hchars

theorem member_inj {a b : String} : member a = member b ↔ a = b := by
  rw [member_eq_access, member_eq_access, access_inj, objectKey_inj]


/-! ### The flows in which a route ends -/

namespace Route

mutual

/-- The output flows in which a route ends, declared or not, in order. -/
def outlets : Route → List String
  | leave flow => [flow]
  | step _ branches => branchOutlets branches
  | _ => []

def branchOutlets : List (String × Route) → List String
  | [] => []
  | (_, next) :: rest => outlets next ++ branchOutlets rest

end

theorem mem_branchOutlets {branches : List (String × Route)} {flow : String} :
    flow ∈ branchOutlets branches ↔ ∃ b ∈ branches, flow ∈ b.2.outlets := by
  induction branches with
  | nil => simp [branchOutlets]
  | cons b rest ih => simp [branchOutlets, ih]

end Route

/-- The output flows in which the routes of a plan end, in order. -/
def Plan.outlets (p : Plan) : List String := p.main.outlets ++ p.detached.flatMap fun d => d.2.outlets

namespace Setup

variable {s : Setup}

/-- The declared output flows through which code of a flavour leaves, in order. -/
def exits (s : Setup) (flavor : Flavor) : List String :=
  (s.plan flavor).outlets.filter s.context.graph.outputFlows.contains


/-! ### The two sides of an exit -/

/-- The fields of an object or of its type: the keys of the values, and what belongs to each. -/
def fields (values : Table OutputValue) (content : OutputValue → String) : List String :=
  values.entries.map fun e => objectKey e.1 ++ ": " ++ content e.2

/-- The code that leaves through a flow with its values. -/
def exitText (s : Setup) (flavor : Flavor) (flow : String) (values : Table OutputValue) : String :=
  let object := objectLiteral (fields values fun v => s.symbolExpr (s.context.resolve v.source))
  match flavor with
  | .cont => "__k" ++ member flow ++ "(" ++ object ++ ")"
  | .contInlineProc => "return __k" ++ member flow ++ "(" ++ object ++ ");"
  | .inlineProc => "return \x7b flow: " ++ Json.quote flow ++ ", value: " ++ object ++ " \x7d;"

/-- What a signature declares for a flow with its values. -/
def declarationText (s : Setup) (flavor : Flavor) (flow : String) (values : Table OutputValue) :
    String :=
  let type := objectType (fields values fun v => s.hostType v.type)
  match flavor with
  | .cont | .contInlineProc => objectKey flow ++ ": (out: " ++ type ++ ") => R"
  | .inlineProc => "\x7b flow: " ++ Json.quote flow ++ "; value: " ++ type ++ " \x7d"

/-- The signature that makes some declarations. -/
def signatureText (s : Setup) (flavor : Flavor) (declarations : List String) : String :=
  match flavor with
  | .cont | .contInlineProc =>
    "<R>(" ++ ", ".intercalate (s.parameters ++ ["__k: " ++ objectLiteral declarations]) ++ "): R"
  | .inlineProc =>
    "(" ++ ", ".intercalate s.parameters ++ "): "
      ++ if declarations.isEmpty then "never" else " | ".intercalate declarations

/-- What the signature of a flavour declares, flow by flow. -/
def declarations (s : Setup) (flavor : Flavor) : List String :=
  s.context.graph.outputFlows.entries.map fun e => s.declarationText flavor e.1 e.2

theorem outputType_eq {flow : String} {values : Table OutputValue}
    (h : s.context.graph.outputFlows.get? flow = some values) :
    s.outputType flow = objectType (fields values fun v => s.hostType v.type) := by
  rw [outputType, h, Option.getD_some, fields]

theorem outputs_eq_flatMap (c : Context) :
    c.outputs = c.graph.outputFlows.entries.flatMap fun e =>
      e.2.entries.map fun v => ⟨e.1, v.1, v.2, c.resolve v.2.source⟩ := by
  rw [Context.outputs, Graph.outputEntries, List.map_flatMap]
  simp only [List.map_map]
  rfl

/-- The values of a flow are the values of all flows that bear its name. -/
theorem filter_outputs {c : Context} {flow : String} {values : Table OutputValue}
    (h : c.graph.outputFlows.get? flow = some values) :
    (c.outputs.filter fun o => o.flow = flow)
      = values.entries.map fun v => ⟨flow, v.1, v.2, c.resolve v.2.source⟩ := by
  have hmem : (flow, values) ∈ c.graph.outputFlows.entries := (Table.get?_eq_some_iff _ _ _).mp h
  have hnodup : c.graph.outputFlows.entries.Nodup := List.Nodup.of_map _ c.graph.outputFlows.nodup
  rw [outputs_eq_flatMap, List.filter_flatMap, flatMap_eq_of_unique hnodup hmem]
  · refine List.filter_eq_self.mpr fun o ho => ?_
    obtain ⟨v, _, rfl⟩ := List.mem_map.mp ho
    exact decide_eq_true rfl
  · rintro ⟨flow', values'⟩ hmem' hne
    refine List.filter_eq_nil_iff.mpr fun o ho hflow => hne ?_
    obtain ⟨v, _, rfl⟩ := List.mem_map.mp ho
    obtain rfl : flow' = flow := of_decide_eq_true hflow
    have hget := (Table.get?_eq_some_iff _ _ _).mpr hmem'
    rw [Option.some.inj (hget.symm.trans h)]

theorem outputExpr_eq {flow : String} {values : Table OutputValue}
    (h : s.context.graph.outputFlows.get? flow = some values) :
    s.outputExpr flow
      = objectLiteral (fields values fun v => s.symbolExpr (s.context.resolve v.source)) := by
  rw [outputExpr, filter_outputs h, List.map_map, fields]
  rfl

/-- What is declared flow by flow from the types of the flows can be read off the tables. -/
theorem map_outputType (s : Setup) (declare : String → String → String) :
    (s.context.graph.outputFlows.keys.map fun flow => declare flow (s.outputType flow))
      = s.context.graph.outputFlows.entries.map fun e =>
          declare e.1 (objectType (fields e.2 fun v => s.hostType v.type)) := by
  rw [Table.keys, List.map_map]
  refine List.map_congr_left fun e he => ?_
  rw [Function.comp_apply, outputType_eq ((Table.get?_eq_some_iff _ _ _).mpr he)]

theorem continuationSignature_eq (s : Setup) :
    s.continuationSignature = s.signatureText .cont (s.declarations .cont) := by
  have hdeclared : s.declarations .cont = _ :=
    (s.map_outputType fun flow type => objectKey flow ++ ": (out: " ++ type ++ ") => R").symm
  rw [hdeclared]
  rfl

theorem unionSignature_eq (s : Setup) :
    s.unionSignature = s.signatureText .inlineProc (s.declarations .inlineProc) := by
  have hdeclared : s.declarations .inlineProc = _ :=
    (s.map_outputType fun flow type =>
      "\x7b flow: " ++ Json.quote flow ++ "; value: " ++ type ++ " \x7d").symm
  rw [hdeclared]
  rfl

theorem signature_eq (s : Setup) : ∀ style : ExitStyle,
    s.signature style = s.signatureText style.flavor (s.declarations style.flavor)
  | .continuation => s.continuationSignature_eq
  | .union => s.unionSignature_eq


/-! ### Where code leaves -/

/-- The flow through which a line leaves, with its values. -/
def exit? (line : Line) : Option (String × String) :=
  match line.statement with
  | .leave flow value => some (flow, value)
  | _ => none

/-- What the exits through some flows come to, those that are not declared left out. -/
def openExits (s : Setup) (flows : List String) : List (String × String) :=
  (flows.filter s.context.graph.outputFlows.contains).map fun flow => (flow, s.outputExpr flow)

theorem openExits_append (flows flows' : List String) :
    s.openExits (flows ++ flows') = s.openExits flows ++ s.openExits flows' := by
  rw [openExits, List.filter_append, List.map_append]
  rfl

theorem exits_leaveStatements (depth : Nat) (flow : String) :
    (linesAt depth (s.leaveStatements flow)).filterMap exit? = s.openExits [flow] := by
  rw [leaveStatements, openExits]
  split <;> simp_all [linesAt, exit?, stub]

theorem exits_finalStep (depth : Nat) (node : ProcId) :
    (linesAt depth (s.finalStep node)).filterMap exit? = [] := by
  rw [finalStep]
  split <;> rfl

theorem exits_singleStep (depth : Nat) (node : ProcId) (flow : String) :
    (linesAt depth (s.singleStep node flow)).filterMap exit? = [] := by
  rw [singleStep]
  split <;> rfl

theorem exits_switchStep (depth : Nat) (node : ProcId) :
    (linesAt depth (s.switchStep node)).filterMap exit? = [] := by
  rw [switchStep]
  split <;> rfl

theorem exits_caseBlock (depth : Nat) (node : ProcId) (branch : String × List Line) :
    (caseBlock depth node branch).filterMap exit? = branch.2.filterMap exit? := by
  rw [caseBlock, List.cons_append, List.cons_append, List.filterMap_cons_none rfl,
    List.filterMap_cons_none rfl, List.filterMap_append]
  exact List.append_nil _

theorem Ends.exits_eq {route : Route} {statements : List Statement} (h : s.Ends route statements)
    (depth : Nat) : (linesAt depth statements).filterMap exit? = s.openExits route.outlets := by
  cases h with
  | leave flow => exact exits_leaveStatements depth flow
  | final node => exact exits_finalStep depth node
  | _ => rfl

theorem exits_routeLines (depth : Nat) (route : Route) :
    (s.routeLines depth route).filterMap exit? = s.openExits route.outlets := by
  refine routeLines_induction
    (P := fun _ route lines => lines.filterMap exit? = s.openExits route.outlets) ?_ ?_ ?_ depth route
  · exact fun depth _ _ hends => hends.exits_eq depth
  · intro depth node flow next hnext
    rw [List.filterMap_append, exits_singleStep, hnext, List.nil_append, Route.outlets,
      Route.branchOutlets, Route.branchOutlets, List.append_nil]
  · intro depth node branches hseveral hbranches
    clear hseveral
    rw [List.filterMap_append, List.filterMap_append, exits_switchStep, List.nil_append, Route.outlets]
    refine (List.append_nil _).trans ?_
    induction branches with
    | nil => rfl
    | cons b rest ih =>
        obtain ⟨hb, hrest⟩ := List.forall_mem_cons.mp hbranches
        rw [List.map_cons, List.flatMap_cons, List.filterMap_append, ih hrest, Route.branchOutlets,
          openExits_append, exits_caseBlock, hb]

theorem exits_detachedLines (node : ProcId) (route : Route) :
    (s.detachedLines node route).filterMap exit? = s.openExits route.outlets := by
  rw [detachedLines, List.filterMap_append, List.filterMap_append, exits_routeLines]
  exact List.append_nil _

theorem exits_bodyLines (s : Setup) (style : ExitStyle) :
    s.bodyLines.filterMap exit?
      = (s.exits style.flavor).map fun flow => (flow, s.outputExpr flow) := by
  have hplan : s.plan style.flavor = s.proceduralPlan := by cases style <;> rfl
  have hdetached : ∀ detached : List (ProcId × Route),
      (detached.flatMap fun d => s.detachedLines d.1 d.2).filterMap exit?
        = s.openExits (detached.flatMap fun d => d.2.outlets) := by
    intro detached
    induction detached with
    | nil => rfl
    | cons d rest ih =>
        rw [List.flatMap_cons, List.flatMap_cons, List.filterMap_append, openExits_append, ih,
          exits_detachedLines]
  rw [bodyLines, List.filterMap_append, exits_routeLines, hdetached, ← openExits_append, exits, hplan]
  rfl

theorem leaveExpr_shown {route : Route} (hlabelled : Labelled s.continuationLabels route)
    {flow : String} (hflow : flow ∈ route.outlets) : Shows (s.routeExpr route) (s.leaveExpr flow) := by
  induction hlabelled with
  | deadEnd => exact absurd hflow List.not_mem_nil
  | leave flow' =>
      obtain rfl := List.mem_singleton.mp hflow
      rw [routeExpr]
      exact List.infix_rfl
  | missing => exact absurd hflow List.not_mem_nil
  | repeated => exact absurd hflow List.not_mem_nil
  | step hnames _ ih =>
      rw [Route.outlets, Route.mem_branchOutlets] at hflow
      obtain ⟨b, hb, hflow⟩ := hflow
      exact (branch_shows hnames hb).trans (ih b hb hflow)

theorem leaveExpr_eq {flow : String} {values : Table OutputValue}
    (h : s.context.graph.outputFlows.get? flow = some values) :
    s.leaveExpr flow = s.exitText .cont flow values := by
  have hflow : s.context.graph.outputFlows.contains flow := by simp [Table.contains, h]
  rw [leaveExpr, if_pos hflow, outputExpr_eq h]
  rfl

theorem continuation_shows_exit {flow : String} (hflow : flow ∈ s.continuationPlan.outlets) :
    Shows s.continuationBody (s.leaveExpr flow) := by
  obtain ⟨hmain, hdetached⟩ := plan_labelled s.context s.continuationLabels
  rcases List.mem_append.mp hflow with hflow | hflow
  · exact continuationBody_shows_main.trans (leaveExpr_shown hmain hflow)
  · obtain ⟨d, hd, hflow⟩ := List.mem_flatMap.mp hflow
    exact (continuationBody_shows_detached hd).trans (leaveExpr_shown (hdetached d hd) hflow)

theorem text_leave {style : ExitStyle} {flow : String} {values : Table OutputValue}
    (h : s.context.graph.outputFlows.get? flow = some values) :
    (Statement.leave flow (s.outputExpr flow)).text style = s.exitText style.flavor flow values := by
  rw [outputExpr_eq h]
  cases style <;> rfl

theorem procedural_shows_exit (style : ExitStyle) {flow : String} {values : Table OutputValue}
    (hflow : flow ∈ s.exits style.flavor) (h : s.context.graph.outputFlows.get? flow = some values) :
    Shows (String.join (s.linesAfterSignature style)) (s.exitText style.flavor flow values) := by
  have hexit := List.mem_map_of_mem (f := fun flow => (flow, s.outputExpr flow)) hflow
  rw [← exits_bodyLines] at hexit
  obtain ⟨⟨depth, statement⟩, hline, hleave⟩ := List.mem_filterMap.mp hexit
  obtain rfl : statement = .leave flow (s.outputExpr flow) := by
    cases statement <;> simp_all [exit?]
  have hshown : Shows (Line.text style ⟨depth, .leave flow (s.outputExpr flow)⟩)
      (s.exitText style.flavor flow values) := by
    rw [← text_leave h]
    exact Shows.append _ _ "\n"
  refine Shows.trans (Shows.join ?_) hshown
  exact List.mem_map_of_mem (List.mem_append_left _ hline)

/-- Every exit of a flavour is through a declared flow and stands in a text. -/
def ShowsExits (s : Setup) (flavor : Flavor) (text : String) : Prop :=
  ∀ flow ∈ s.exits flavor, ∃ values, s.context.graph.outputFlows.get? flow = some values ∧
    Shows text (s.exitText flavor flow values)

theorem exists_values_of_mem_exits {flavor : Flavor} {flow : String} (h : flow ∈ s.exits flavor) :
    ∃ values, s.context.graph.outputFlows.get? flow = some values :=
  (Table.contains_iff_exists _ _).mp (List.mem_filter.mp h).2

theorem exists_body_continuation (s : Setup) :
    ∃ body, s.generate .cont = s.signatureText .cont (s.declarations .cont) ++ " => " ++ body ∧
      s.ShowsExits .cont body := by
  refine ⟨s.continuationBody ++ "\n", ?_, ?_⟩
  · rw [← continuationSignature_eq, ← String.append_assoc]
    rfl
  · intro flow hflow
    obtain ⟨values, hvalues⟩ := exists_values_of_mem_exits hflow
    refine ⟨values, hvalues, ?_⟩
    have hbody : Shows (s.continuationBody ++ "\n") s.continuationBody := by
      simpa using Shows.append "" s.continuationBody "\n"
    rw [← leaveExpr_eq hvalues]
    exact hbody.trans (continuation_shows_exit (List.mem_filter.mp hflow).1)

theorem exists_body_procedural (s : Setup) (style : ExitStyle) :
    ∃ body, s.generate style.flavor
        = s.signatureText style.flavor (s.declarations style.flavor) ++ " => " ++ body ∧
      s.ShowsExits style.flavor body := by
  refine ⟨"\x7b\n" ++ String.join (s.linesAfterSignature style), ?_, ?_⟩
  · have hbreak : " => \x7b\n" = " => " ++ "\x7b\n" := by decide
    rw [generate_flavor, procedural_eq_append, signature_eq, hbreak]
    simp only [String.append_assoc]
  · intro flow hflow
    obtain ⟨values, hvalues⟩ := exists_values_of_mem_exits hflow
    refine ⟨values, hvalues, Shows.trans ?_ (procedural_shows_exit style hflow hvalues)⟩
    simpa using Shows.append "\x7b\n" (String.join (s.linesAfterSignature style)) ""

end Setup

/-- Exits agree with the signature. The signature declares each output flow under its own key, with a type
whose fields are the values of the flow; and wherever code leaves through a declared flow it names what
the signature declares for that flow and gives an object with the same fields. Expressions and statements
that leave are written in no other way, and the lines of procedural code that leave are those of its
exits. No two names share a key, a member or a quoted form. -/
theorem exits_agree_with_signature (s : Setup) (flavor : Flavor) :
    (∃ body,
      s.generate flavor = s.signatureText flavor (s.declarations flavor) ++ " => " ++ body ∧
        s.ShowsExits flavor body) ∧
      (∀ flow values, s.context.graph.outputFlows.get? flow = some values →
        s.leaveExpr flow = s.exitText .cont flow values ∧
          ∀ style : ExitStyle, (Statement.leave flow (s.outputExpr flow)).text style
            = s.exitText style.flavor flow values) ∧
      (∀ style : ExitStyle, style.flavor = flavor →
        s.bodyLines.filterMap Setup.exit?
          = (s.exits flavor).map fun flow => (flow, s.outputExpr flow)) ∧
      (∀ name, member name = access (objectKey name)) ∧
      ∀ a b, (objectKey a = objectKey b ↔ a = b) ∧ (member a = member b ↔ a = b) ∧
        (Json.quote a = Json.quote b ↔ a = b) := by
  refine ⟨?_, ?_, ?_, member_eq_access, ?_⟩
  · cases flavor with
    | cont => exact s.exists_body_continuation
    | contInlineProc => exact s.exists_body_procedural .continuation
    | inlineProc => exact s.exists_body_procedural .union
  · intro flow values hvalues
    exact ⟨Setup.leaveExpr_eq hvalues, fun _ => Setup.text_leave hvalues⟩
  · rintro style rfl
    exact s.exits_bodyLines style
  · intro a b
    exact ⟨objectKey_inj, member_inj, quote_injective.eq_iff⟩

example :
    let g : Graph :=
      { procs := []
        edges := [⟨.entry, .output "way out"⟩]
        inputs := .ofList [("x", ⟨[], "number"⟩)]
        outputFlows := .ofList [("way out", .ofList [("same", ⟨"number", ⟨.entry, "x"⟩⟩)])] }
    (Catalog.standard.setup g).generate .cont
      = "<R>(x: number, __k: \x7b \"way out\": (out: \x7b same: number \x7d) => R \x7d): R => "
        ++ "__k[\"way out\"](\x7b same: x \x7d)\n" := by
  decide +kernel

end Code

end ProcFlow
