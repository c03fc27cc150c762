import ProcFlow.Proofs.Continuation
import ProcFlow.Proofs.Exploration
/-!
# Every node is emitted once

The code of each flavour is written from a plan, and a plan steps into every node of the arena once. On
any graph, with any definitions and any templates, the main part of the plan steps into exactly the nodes
that the entry leads to. The others come after it, the least one first that is still to be stepped into.
The text shows the code of each of them.
-/

namespace ProcFlow.Code

open Relation (ReflTransGen)


/-! ### The labels of a route -/

section Labelled

variable {c : Context} {labels : ProcId → List String}
  {enter : ProcId → List ProcId → Route × List ProcId} {seen : List ProcId}

/-- At every step, a route goes on with the labels that are followed there. -/
inductive Labelled (labels : ProcId → List String) : Route → Prop where
  | deadEnd (source : Source) : Labelled labels (.deadEnd source)
  | leave (flow : String) : Labelled labels (.leave flow)
  | missing (node : ProcId) : Labelled labels (.missing node)
  | repeated (node : ProcId) : Labelled labels (.repeated node)
  | step {node : ProcId} {branches : List (String × Route)}
      (hnames : branches.map Prod.fst = labels node)
      (hbranches : ∀ b ∈ branches, Labelled labels b.2) : Labelled labels (.step node branches)

theorem follow_labelled (henter : ∀ node seen, Labelled labels (enter node seen).1) (source : Source) :
    Labelled labels (Route.follow c enter source seen).1 := by
  rcases hsuccessor : c.successor? source with _ | ⟨id, ⟨_, target⟩⟩
  · simp only [Route.follow, hsuccessor]
    exact Labelled.deadEnd source
  · rcases target with node | flow
    · simp only [Route.follow, hsuccessor]
      exact henter node seen
    · simp only [Route.follow, hsuccessor]
      exact Labelled.leave flow

theorem branches_labelled (henter : ∀ node seen, Labelled labels (enter node seen).1) (node : ProcId)
    (taken : List String) (seen : List ProcId) :
    (Route.branches c enter node taken seen).1.map Prod.fst = taken ∧
      ∀ b ∈ (Route.branches c enter node taken seen).1, Labelled labels b.2 := by
  induction taken generalizing seen with
  | nil => simp [Route.branches]
  | cons label rest ih =>
      obtain ⟨hnames, hbranches⟩ := ih (Route.follow c enter (.proc node label) seen).2
      refine ⟨congrArg (label :: ·) hnames, List.forall_mem_cons.mpr ⟨?_, hbranches⟩⟩
      exact follow_labelled henter (.proc node label)

theorem enter_labelled (depth : Nat) (node : ProcId) (seen : List ProcId) :
    Labelled labels (Route.enter c labels depth node seen).1 := by
  induction depth generalizing node seen with
  | zero => exact Labelled.repeated node
  | succ depth ih =>
      rw [Route.enter]
      split
      · exact Labelled.missing node
      · split
        · exact Labelled.repeated node
        · obtain ⟨hnames, hbranches⟩ := branches_labelled (c := c) ih node (labels node) (node :: seen)
          exact Labelled.step hnames hbranches

theorem forall_leftOver {P : Route → Prop} (henter : ∀ node seen, P (enter node seen).1)
    (ids : List ProcId) : ∀ d ∈ Plan.leftOver enter ids seen, P d.2 := by
  induction ids generalizing seen with
  | nil => exact fun d hd => absurd hd List.not_mem_nil
  | cons id rest ih =>
      rw [Plan.leftOver]
      split
      · exact ih
      · exact List.forall_mem_cons.mpr ⟨henter id seen, ih⟩

theorem plan_labelled (c : Context) (labels : ProcId → List String) :
    Labelled labels (Plan.ofContext c labels).main ∧
      ∀ d ∈ (Plan.ofContext c labels).detached, Labelled labels d.2 :=
  ⟨follow_labelled (enter_labelled _) .entry, forall_leftOver (enter_labelled _) _⟩

end Labelled


/-! ### The code of each node -/

theorem infix_flatMap {α β : Type} (f : α → List β) {l l' : List α} (h : l <:+: l') :
    l.flatMap f <:+: l'.flatMap f := by
  obtain ⟨before, after, rfl⟩ := h
  refine ⟨before.flatMap f, after.flatMap f, ?_⟩
  rw [List.flatMap_append, List.flatMap_append]

namespace Setup

variable {s : Setup}

/-- The statements with which procedural code steps into a node. -/
def stepStatements (s : Setup) (node : ProcId) : List Statement :=
  match s.proceduralLabels node with
  | [] => s.finalStep node
  | [flow] => s.singleStep node flow
  | _ => s.switchStep node

theorem stepStatements_begin {node : ProcId} {branches : List (String × Route)}
    (hnames : branches.map Prod.fst = s.proceduralLabels node) (depth : Nat) :
    linesAt depth (s.stepStatements node) <+: s.routeLines depth (.step node branches) := by
  rcases branches with _ | ⟨⟨flow, next⟩, _ | ⟨second, rest⟩⟩
  · rw [stepStatements, ← hnames, (Ends.final node).routeLines_eq]
    exact List.prefix_rfl
  · rw [stepStatements, ← hnames, routeLines_single]
    exact List.prefix_append _ _
  · have hseveral : 2 ≤ ((flow, next) :: second :: rest).length := Nat.le_add_left 2 rest.length
    rw [routeLines_several depth node hseveral, List.append_assoc]
    simp only [stepStatements, ← hnames, List.map_cons]
    exact List.prefix_append _ _

theorem branch_within_step (node : ProcId) {branches : List (String × Route)} {b : String × Route}
    (hb : b ∈ branches) (depth : Nat) :
    ∃ deep, s.routeLines deep b.2 <:+: s.routeLines depth (.step node branches) := by
  rcases branches with _ | ⟨⟨flow, next⟩, _ | ⟨second, rest⟩⟩
  · exact absurd hb List.not_mem_nil
  · obtain rfl := List.mem_singleton.mp hb
    refine ⟨depth, ?_⟩
    rw [routeLines_single]
    exact (List.suffix_append _ _).isInfix
  · have hseveral : 2 ≤ ((flow, next) :: second :: rest).length := Nat.le_add_left 2 rest.length
    refine ⟨depth + 2, ?_⟩
    rw [routeLines_several depth node hseveral]
    have hcase : caseBlock depth node (b.1, s.routeLines (depth + 2) b.2)
        <:+: (((flow, next) :: second :: rest).map fun b =>
          (b.1, s.routeLines (depth + 2) b.2)).flatMap (caseBlock depth node) :=
      infix_flatMap_of_mem _ (List.mem_map_of_mem hb)
    have hlines : s.routeLines (depth + 2) b.2
        <:+: caseBlock depth node (b.1, s.routeLines (depth + 2) b.2) :=
      ⟨_ :: [_], [_], rfl⟩
    exact (hlines.trans hcase).trans (List.infix_append _ _ _)

theorem stepStatements_within_route {route : Route} (hlabelled : Labelled s.proceduralLabels route)
    {id : ProcId} (hid : id ∈ route.nodes) (depth : Nat) :
    ∃ deep, linesAt deep (s.stepStatements id) <:+: s.routeLines depth route := by
  induction hlabelled generalizing depth with
  | deadEnd => exact absurd hid List.not_mem_nil
  | leave => exact absurd hid List.not_mem_nil
  | missing => exact absurd hid List.not_mem_nil
  | repeated => exact absurd hid List.not_mem_nil
  | @step node branches hnames _ ih =>
      rw [Route.nodes, List.mem_cons, mem_branchNodes] at hid
      rcases hid with rfl | ⟨b, hb, hid⟩
      · exact ⟨depth, (stepStatements_begin hnames depth).isInfix⟩
      · obtain ⟨deep, hbranch⟩ := branch_within_step (s := s) node hb depth
        obtain ⟨deeper, hstep⟩ := ih b hb hid deep
        exact ⟨deeper, hstep.trans hbranch⟩

/-- The code of a node in continuation style has what goes on from each label in it. -/
theorem branch_shows {node : ProcId} {branches : List (String × Route)} {b : String × Route}
    (hnames : branches.map Prod.fst = s.continuationLabels node) (hb : b ∈ branches) :
    Shows (s.routeExpr (.step node branches)) (s.routeExpr b.2) := by
  have hbody : Shows (s.lambda node b.1 (s.routeExpr b.2)) (s.routeExpr b.2) := by
    refine Shows.trans ?_ (Shows.arrowBody _)
    exact Shows.append ("((" ++ flowVar node b.1 ++ ": " ++ s.labelType node b.1 ++ ") => ") _ ")"
  refine Shows.trans ?_ hbody
  have hmem : (b.1, s.lambda node b.1 (s.routeExpr b.2)) ∈ s.branchLambdas node branches := by
    rw [branchLambdas_eq_map]
    exact List.mem_map_of_mem hb
  rw [routeExpr, callExpr]
  rcases hnode : s.resolved? node with _ | ⟨d, t⟩
  · have hsome : (s.branchLambdas node branches).isEmpty = false := by
      rw [List.isEmpty_eq_false_iff]
      exact List.ne_nil_of_mem hmem
    simp only [hsome, Bool.false_eq_true, if_false]
    refine Shows.trans (Shows.append (s.placeholder ++ "(") _ ")") ?_
    exact Shows.intercalate ", " (List.mem_map_of_mem (f := Prod.snd) hmem)
  · -- The label is an exit of the template, so the function for it stands where the exit is used.
    rw [continuationLabels_eq hnode] at hnames
    have hexit : b.1 ∈ t.exits := hnames ▸ List.mem_map_of_mem hb
    have hlookup : (s.branchLambdas node branches).lookup b.1
        = some (s.lambda node b.1 (s.routeExpr b.2)) := by
      refine (Table.lookup_eq_some_iff_of_nodup ?_ _ _).mpr hmem
      rw [branchLambdas_eq_map, List.map_map]
      exact hnames ▸ nodup_eraseDups _
    have hfilled := Shows.render_exit (t := t) (s.inputExpr node)
      (fun exit => ((s.branchLambdas node branches).lookup exit).getD s.placeholder) hexit
    rw [hlookup] at hfilled
    exact hfilled

/-- The texts that stand for a step into a node: its statements at some depth, each spelled as such a
statement is, or the expression that calls it with a function for each of its labels. -/
inductive StepText (s : Setup) (id : ProcId) : Flavor → String → Prop where
  | call {lambdas : List (String × String)} (hnames : lambdas.map Prod.fst = s.continuationLabels id) :
      StepText s id .cont (s.callExpr id lambdas)
  | statements (style : ExitStyle) (depth : Nat)
      (hspelled : ∀ line ∈ linesAt depth (s.stepStatements id), line.Spelled style (line.text style)) :
      StepText s id style.flavor
        (String.join ((linesAt depth (s.stepStatements id)).map (Line.text style)))

theorem callExpr_shown {route : Route} (hlabelled : Labelled s.continuationLabels route) {id : ProcId}
    (hid : id ∈ route.nodes) : ∃ text, s.StepText id .cont text ∧ Shows (s.routeExpr route) text := by
  induction hlabelled with
  | deadEnd => exact absurd hid List.not_mem_nil
  | leave => exact absurd hid List.not_mem_nil
  | missing => exact absurd hid List.not_mem_nil
  | repeated => exact absurd hid List.not_mem_nil
  | @step node branches hnames _ ih =>
      rw [Route.nodes, List.mem_cons, mem_branchNodes] at hid
      rcases hid with rfl | ⟨b, hb, hid⟩
      · have hlambdas : (s.branchLambdas id branches).map Prod.fst = s.continuationLabels id := by
          rw [branchLambdas_eq_map, List.map_map]
          exact hnames
        exact ⟨_, StepText.call hlambdas, List.infix_rfl⟩
      · obtain ⟨text, hstep, hshown⟩ := ih b hb hid
        exact ⟨text, hstep, (branch_shows hnames hb).trans hshown⟩

/-- The plan of the code in a flavour. -/
def plan (s : Setup) : Flavor → Plan
  | .cont => s.continuationPlan
  | .contInlineProc | .inlineProc => s.proceduralPlan

theorem procedural_shows_step (style : ExitStyle) {id : ProcId} (hid : id ∈ s.proceduralPlan.nodes) :
    ∃ text, s.StepText id style.flavor text ∧ Shows (s.procedural style) text := by
  obtain ⟨hmain, hdetached⟩ := plan_labelled s.context s.proceduralLabels
  have hlines : ∃ depth, linesAt depth (s.stepStatements id) <:+: s.bodyLines := by
    rcases List.mem_append.mp hid with hid | hid
    · obtain ⟨depth, hstep⟩ := stepStatements_within_route hmain hid 1
      refine ⟨depth, hstep.trans ?_⟩
      rw [bodyLines]
      exact (List.prefix_append _ _).isInfix
    · obtain ⟨d, hd, hid⟩ := List.mem_flatMap.mp hid
      obtain ⟨depth, hstep⟩ := stepStatements_within_route (hdetached d hd) hid 2
      have hblock : s.routeLines 2 d.2 <:+: s.detachedLines d.1 d.2 := by
        rw [detachedLines]
        exact List.infix_append _ _ _
      have hblocks := infix_flatMap_of_mem (fun d => s.detachedLines d.1 d.2) hd
      refine ⟨depth, (hstep.trans hblock).trans (hblocks.trans ?_)⟩
      rw [bodyLines]
      exact (List.suffix_append _ _).isInfix
  obtain ⟨depth, hlines⟩ := hlines
  refine ⟨_, StepText.statements style depth fun line _ => line.spelled_text style, ?_⟩
  have hbody : s.bodyLines <:+: s.proceduralLines style := by
    rw [proceduralLines]
    exact List.infix_append _ _ _
  rw [Shows, procedural, String.toList_join, String.toList_join, List.flatMap_map, List.flatMap_map]
  exact infix_flatMap _ (hlines.trans hbody)

theorem continuationBody_shows_main : Shows s.continuationBody (s.routeExpr s.continuationPlan.main) := by
  simp only [continuationBody]
  split
  · exact Shows.arrowBody _
  · exact Shows.append _ _ ")"

theorem continuationBody_shows_detached {d : ProcId × Route} (hd : d ∈ s.continuationPlan.detached) :
    Shows s.continuationBody (s.routeExpr d.2) := by
  have hsome : s.continuationPlan.detached.isEmpty = false := by
    rw [List.isEmpty_eq_false_iff]
    exact List.ne_nil_of_mem hd
  simp only [continuationBody, hsome, Bool.false_eq_true, if_false]
  have hvoid : Shows ("void (" ++ s.routeExpr d.2 ++ ")") (s.routeExpr d.2) :=
    Shows.append "void (" _ ")"
  have hlist := Shows.intercalate ", " (List.mem_map_of_mem
    (f := fun d : ProcId × Route => "void (" ++ s.routeExpr d.2 ++ ")") hd)
  refine Shows.trans ?_ (hlist.trans hvoid)
  simpa only [String.append_assoc] using
    Shows.append "(" _ (", " ++ (s.routeExpr s.continuationPlan.main ++ ")"))

theorem continuation_shows_step {id : ProcId} (hid : id ∈ s.continuationPlan.nodes) :
    ∃ text, s.StepText id .cont text ∧ Shows s.continuation text := by
  obtain ⟨hmain, hdetached⟩ := plan_labelled s.context s.continuationLabels
  have hbody : ∃ text, s.StepText id .cont text ∧ Shows s.continuationBody text := by
    rcases List.mem_append.mp hid with hid | hid
    · obtain ⟨text, hstep, hshown⟩ := callExpr_shown hmain hid
      exact ⟨text, hstep, continuationBody_shows_main.trans hshown⟩
    · obtain ⟨d, hd, hid⟩ := List.mem_flatMap.mp hid
      obtain ⟨text, hstep, hshown⟩ := callExpr_shown (hdetached d hd) hid
      exact ⟨text, hstep, (continuationBody_shows_detached hd).trans hshown⟩
  obtain ⟨text, hstep, hshown⟩ := hbody
  exact ⟨text, hstep, (Shows.append (s.continuationSignature ++ " => ") _ "\n").trans hshown⟩


/-! ### The nodes that the entry leads to -/

/-- The labels that a flavour follows at a node: the flows of its definition or the exits of its
template, if it has both, and the labels of its edges otherwise. -/
def FollowsLabel (s : Setup) (flavor : Flavor) (node : ProcId) (label : String) : Prop :=
  match s.resolved? node with
  | some (d, t) => if flavor = .cont then label ∈ t.exits else label ∈ d.flowNames
  | none => ∃ target, ⟨.proc node label, target⟩ ∈ s.context.graph.edges

/-- The nodes that the entry leads to in a flavour. -/
inductive Reached (s : Setup) (flavor : Flavor) : ProcId → Prop where
  | first {id : ProcId} (hfirst : s.context.ContinuesTo .entry id) : Reached s flavor id
  | next {u v : ProcId} {label : String} (hu : Reached s flavor u)
      (hlabel : s.FollowsLabel flavor u label) (hv : s.context.ContinuesTo (.proc u label) v) :
      Reached s flavor v

/-- The labels of a flavour, as its plan is made. -/
def labels (s : Setup) : Flavor → ProcId → List String
  | .cont => s.continuationLabels
  | .contInlineProc | .inlineProc => s.proceduralLabels

theorem plan_eq_ofContext (flavor : Flavor) :
    s.plan flavor = Plan.ofContext s.context (s.labels flavor) := by
  cases flavor <;> rfl

theorem mem_outgoingLabels {node : ProcId} {label : String} :
    label ∈ s.outgoingLabels node ↔ ∃ target, ⟨.proc node label, target⟩ ∈ s.context.graph.edges := by
  rw [outgoingLabels, List.mem_eraseDups]
  exact Context.mem_outgoing_labels

theorem mem_labels_iff {flavor : Flavor} {node : ProcId} {label : String} :
    label ∈ s.labels flavor node ↔ s.FollowsLabel flavor node label := by
  rcases hnode : s.resolved? node with _ | ⟨d, t⟩
  · cases flavor <;>
      simp only [labels, continuationLabels, proceduralLabels, FollowsLabel, hnode,
        mem_outgoingLabels]
  · cases flavor <;> simp [labels, continuationLabels, proceduralLabels, FollowsLabel, hnode]

theorem reached_iff {flavor : Flavor} {id : ProcId} :
    s.Reached flavor id ↔ ∃ v, s.context.ContinuesTo .entry v ∧
      ReflTransGen (Continues s.context (s.labels flavor)) v id := by
  refine ⟨?_, ?_⟩
  · intro hleft
    induction hleft with
    | first hfirst => exact ⟨_, hfirst, ReflTransGen.refl⟩
    | next _ hlabel hv ih =>
        obtain ⟨start, hstart, hpath⟩ := ih
        exact ⟨start, hstart, hpath.tail ⟨_, mem_labels_iff.mpr hlabel, hv⟩⟩
  · intro hright
    obtain ⟨start, hstart, hpath⟩ := hright
    induction hpath with
    | refl => exact Reached.first hstart
    | tail _ hnext ih =>
        obtain ⟨label, hlabel, hv⟩ := hnext
        exact Reached.next ih (mem_labels_iff.mp hlabel) hv

end Setup

/-- On any graph, with any definitions and any templates, code steps into every node once. The main part
steps into exactly the nodes that the entry leads to, what is left over is taken up in ascending order,
no bound on the depth is felt, and the code of each node stands in the text. -/
theorem every_node_emitted_once (s : Setup) (flavor : Flavor) :
    (∀ id, (s.plan flavor).nodes.count id = if id ∈ s.context.graph.procIds then 1 else 0) ∧
      (∀ id, id ∈ (s.plan flavor).main.nodes ↔ s.Reached flavor id) ∧
      (∀ before id route after, (s.plan flavor).detached = before ++ (id, route) :: after →
        let emitted := (s.plan flavor).main.nodes ++ before.flatMap fun d => d.2.nodes
        route.nodes.head? = some id ∧ id ∉ emitted ∧
          ∀ earlier ∈ s.context.graph.procIds, earlier.index < id.index → earlier ∈ emitted) ∧
      (∀ depth, s.context.graph.procs.length < depth →
        Plan.within s.context (s.labels flavor) depth = s.plan flavor) ∧
      ∀ id ∈ s.context.graph.procIds,
        ∃ text, s.StepText id flavor text ∧ Shows (s.generate flavor) text := by
  have hplan := s.plan_eq_ofContext flavor
  have hperm : (s.plan flavor).nodes.Perm s.context.graph.procIds := by
    rw [hplan]
    exact nodes_perm_procIds s.context (s.labels flavor)
  refine ⟨?_, ?_, ?_, ?_, ?_⟩
  · intro id
    rw [hperm.count_eq, s.context.graph.nodup_procIds.count]
  · intro id
    obtain ⟨after, hmain, _⟩ := main_explores s.context (s.labels flavor)
    rw [hplan, hmain.mem_nodes_iff, Setup.reached_iff]
  · intro before id route after hsplit
    rw [hplan] at hsplit ⊢
    exact detached_least s.context (s.labels flavor) hsplit
  · intro depth hdepth
    rw [hplan]
    exact within_eq_ofContext hdepth
  · intro id hid
    have hnode := hperm.mem_iff.mpr hid
    cases flavor with
    | cont => exact Setup.continuation_shows_step hnode
    | contInlineProc => exact Setup.procedural_shows_step .continuation hnode
    | inlineProc => exact Setup.procedural_shows_step .union hnode

/-- Two edges leave the entry, the first one into a loop through an unknown procedure. Two further nodes
lead to each other, and one edge leads out of the arena. -/
def tangled : Graph where
  procs := [⟨"nothing", .empty⟩, ⟨"add", .empty⟩, ⟨"negate", .empty⟩, ⟨"div", .empty⟩]
  edges :=
    [⟨.entry, .proc ⟨0⟩⟩, ⟨.entry, .proc ⟨1⟩⟩, ⟨.proc ⟨0⟩ "on", .proc ⟨2⟩⟩,
      ⟨.proc ⟨0⟩ "on", .proc ⟨3⟩⟩, ⟨.proc ⟨2⟩ "result", .proc ⟨0⟩⟩, ⟨.proc ⟨0⟩ "off", .proc ⟨9⟩⟩,
      ⟨.proc ⟨3⟩ "result", .proc ⟨1⟩⟩, ⟨.proc ⟨1⟩ "other", .proc ⟨3⟩⟩]
  inputs := .empty
  outputFlows := .empty

/-- The edge from the first of the two further nodes leaves by no exit of its template, so the second one
is left over on its own. -/
theorem tangled_emitted_once :
    let s := Catalog.standard.setup tangled
    ∃ first second, (s.plan .cont).detached = [(⟨1⟩, first)] ++ (⟨3⟩, second) :: [] ∧
      second.nodes.head? = some ⟨3⟩ ∧ ⟨3⟩ ∉ (s.plan .cont).main.nodes ++ first.nodes ∧
      (∀ earlier ∈ tangled.procIds, earlier.index < 3 →
        earlier ∈ (s.plan .cont).main.nodes ++ first.nodes) ∧
      (∀ id ∈ tangled.procIds, (s.plan .cont).nodes.count id = 1) ∧
      Plan.within s.context (s.labels .cont) 100 = s.plan .cont := by
  intro s
  obtain ⟨hcount, _, hleft, hdepth, _⟩ := every_node_emitted_once s .cont
  have hids : (s.plan .cont).detached.map Prod.fst = [⟨1⟩, ⟨3⟩] := by decide +kernel
  obtain ⟨⟨_, first⟩, tail, hdetached, rfl, htail⟩ := List.map_eq_cons_iff.mp hids
  obtain ⟨⟨_, second⟩, rfl, rfl⟩ := List.map_eq_singleton_iff.mp htail
  have hthird := hleft [(⟨1⟩, first)] ⟨3⟩ second [] hdetached
  simp only [List.flatMap_cons, List.flatMap_nil, List.append_nil] at hthird
  obtain ⟨hhead, hfresh, hearlier⟩ := hthird
  exact ⟨first, second, hdetached, hhead, hfresh, hearlier,
    fun id hid => (hcount id).trans (if_pos hid), hdepth 100 (by decide)⟩

end ProcFlow.Code
