import ProcFlow.Proofs.Emission
import ProcFlow.Proofs.Naming
/-!
# Comments stay on their lines

Procedural code says in comments what could not be written. A comment ends with its line, so a name with
a line break in it would go on as code; names of procedures and of output flows are therefore written with
blanks for line breaks. One comment is written with a name as it is: the one that says that no edge leaves
a flow of a node.

That comment stands wherever a route comes to a dead end. As every node is stepped into, and each of its
labels followed there, the dead ends are exactly the entry and the flows that no edge leaves. A node
without a definition or without a template is followed along its edges only and has none. So comments stay
on their lines exactly if each flow with a line break in its name, of a node that has both, is left by an
edge.
-/

namespace ProcFlow.Code

/-! ### Texts on one line -/

/-- A text holds no line breaks. -/
def OneLine (text : String) : Prop := ∀ c ∈ text.toList, c ≠ '\n' ∧ c ≠ '\r'

instance (text : String) : Decidable (OneLine text) :=
  List.decidableBAll (fun c => c ≠ '\n' ∧ c ≠ '\r') text.toList

theorem oneLine_append {text text' : String} :
    OneLine (text ++ text') ↔ OneLine text ∧ OneLine text' := by
  rw [OneLine, String.toList_append, List.forall_mem_append]
  rfl

theorem oneLine_commentText (text : String) : OneLine (commentText text) := by
  intro c hc
  rw [commentText, String.toList_ofList, List.mem_map] at hc
  obtain ⟨d, _, rfl⟩ := hc
  split
  · decide
  next hbreak => simpa using hbreak

theorem oneLine_procText (id : ProcId) : OneLine id.text := by
  intro c hc
  have halphanum := ProcId.isAlphanum_of_mem_text hc
  refine ⟨?_, ?_⟩
  · rintro rfl
    exact absurd halphanum (by decide)
  · rintro rfl
    exact absurd halphanum (by decide)

theorem oneLine_sourceText_proc {node : ProcId} {flow : String} :
    OneLine (Source.proc node flow).text ↔ OneLine flow := by
  rw [Source.text, oneLine_append, oneLine_append]
  exact and_iff_right ⟨oneLine_procText node, by decide⟩

theorem oneLine_indentation (width : Nat) : OneLine ("".pushn ' ' width) := by
  intro c hc
  rw [toList_indentation] at hc
  rw [List.eq_of_mem_replicate hc]
  decide

/-- What is written ends with a line break and holds no other. -/
def StaysOnLine (written : String) : Prop := ∃ body, written = body ++ "\n" ∧ OneLine body

theorem staysOnLine_comment_iff (style : ExitStyle) (depth : Nat) (text : String) :
    StaysOnLine (Line.text style ⟨depth, .comment text⟩) ↔ OneLine text := by
  have hmark : OneLine "// " := by decide
  have hbody : OneLine ("".pushn ' ' (2 * depth) ++ ("// " ++ text)) ↔ OneLine text := by
    rw [oneLine_append, oneLine_append]
    exact (and_iff_right (oneLine_indentation _)).trans (and_iff_right hmark)
  refine ⟨?_, fun htext => ⟨_, rfl, hbody.mpr htext⟩⟩
  intro hstays
  obtain ⟨body, hwritten, hline⟩ := hstays
  have heq : "".pushn ' ' (2 * depth) ++ ("// " ++ text) = body := by
    have hchars := congrArg String.toList hwritten
    rw [Line.text, String.toList_append, String.toList_append (s := body)] at hchars
    exact String.toList_injective (List.append_cancel_right hchars)
  exact hbody.mp (heq ▸ hline)


/-! ### Where routes come to a dead end -/

namespace Route

mutual

/-- The sources at which a route comes to a dead end, in order. -/
def deadEnds : Route → List Source
  | deadEnd source => [source]
  | step _ branches => branchDeadEnds branches
  | _ => []

def branchDeadEnds : List (String × Route) → List Source
  | [] => []
  | (_, next) :: rest => deadEnds next ++ branchDeadEnds rest

end

theorem forall_mem_branchDeadEnds {P : Source → Prop} {branches : List (String × Route)} :
    (∀ source ∈ branchDeadEnds branches, P source)
      ↔ ∀ b ∈ branches, ∀ source ∈ b.2.deadEnds, P source := by
  induction branches with
  | nil => simp [branchDeadEnds]
  | cons b rest ih => rw [branchDeadEnds, List.forall_mem_append, ih, List.forall_mem_cons]

end Route

/-- The sources at which the routes of a plan come to a dead end, in order. -/
def Plan.deadEnds (p : Plan) : List Source :=
  p.main.deadEnds ++ p.detached.flatMap fun d => d.2.deadEnds

section DeadEnds

variable {c : Context} {labels : ProcId → List String}
  {enter : ProcId → List ProcId → Route × List ProcId}

/-- A label that is followed at one of some nodes, and that no edge leaves. -/
def StopsAt (c : Context) (labels : ProcId → List String) (nodes : List ProcId) (source : Source) :
    Prop :=
  ∃ node ∈ nodes, ∃ label ∈ labels node, source = .proc node label ∧ c.successor? source = none

theorem stopsAt_nil {source : Source} : ¬ StopsAt c labels [] source :=
  fun ⟨_, hnode, _⟩ => absurd hnode List.not_mem_nil

theorem stopsAt_cons {node : ProcId} {nodes : List ProcId} {source : Source} :
    StopsAt c labels (node :: nodes) source
      ↔ (∃ label ∈ labels node, source = .proc node label ∧ c.successor? source = none) ∨
        StopsAt c labels nodes source := by
  simp only [StopsAt, List.mem_cons, exists_eq_or_imp]

theorem stopsAt_append {nodes nodes' : List ProcId} {source : Source} :
    StopsAt c labels (nodes ++ nodes') source
      ↔ StopsAt c labels nodes source ∨ StopsAt c labels nodes' source := by
  simp only [StopsAt, List.mem_append, or_and_right, exists_or]

/-- A route that is stepped into comes to a dead end where its nodes do. -/
def StopsWithin (c : Context) (labels : ProcId → List String) (route : Route) : Prop :=
  ∀ source, source ∈ route.deadEnds ↔ StopsAt c labels route.nodes source

theorem mem_deadEnds_follow (henter : ∀ node seen, StopsWithin c labels (enter node seen).1)
    (start : Source) (seen : List ProcId) (source : Source) :
    source ∈ (Route.follow c enter start seen).1.deadEnds
      ↔ (source = start ∧ c.successor? source = none) ∨
        StopsAt c labels (Route.follow c enter start seen).1.nodes source := by
  rcases hsuccessor : c.successor? start with _ | ⟨id, ⟨_, target⟩⟩
  · simp only [Route.follow, hsuccessor, Route.deadEnds, Route.nodes, List.mem_singleton,
      stopsAt_nil, or_false]
    exact ⟨fun heq => ⟨heq, heq ▸ hsuccessor⟩, And.left⟩
  · have hgoes : ¬ (source = start ∧ c.successor? source = none) := by
      rintro ⟨rfl, hnone⟩
      rw [hsuccessor] at hnone
      cases hnone
    rw [or_iff_right hgoes]
    rcases target with node | flow
    · simp only [Route.follow, hsuccessor]
      exact henter node seen source
    · simp only [Route.follow, hsuccessor, Route.deadEnds, Route.nodes, List.not_mem_nil,
        stopsAt_nil]

theorem mem_deadEnds_branches (henter : ∀ node seen, StopsWithin c labels (enter node seen).1)
    (node : ProcId) (taken : List String) (seen : List ProcId) (source : Source) :
    source ∈ Route.branchDeadEnds (Route.branches c enter node taken seen).1
      ↔ (∃ label ∈ taken, source = .proc node label ∧ c.successor? source = none) ∨
        StopsAt c labels (Route.branchNodes (Route.branches c enter node taken seen).1) source := by
  induction taken generalizing seen with
  | nil => simp [Route.branches, Route.branchDeadEnds, Route.branchNodes, stopsAt_nil]
  | cons label rest ih =>
      simp only [Route.branches, Route.branchDeadEnds, Route.branchNodes, List.mem_append,
        stopsAt_append, List.mem_cons, exists_eq_or_imp, mem_deadEnds_follow henter, ih]
      exact or_or_or_comm

theorem enter_stopsWithin (depth : Nat) (node : ProcId) (seen : List ProcId) :
    StopsWithin c labels (Route.enter c labels depth node seen).1 := by
  have hends : ∀ route : Route, route.deadEnds = [] → route.nodes = [] →
      StopsWithin c labels route := by
    intro route hdeadEnds hnodes source
    rw [hdeadEnds, hnodes]
    exact iff_of_false List.not_mem_nil stopsAt_nil
  induction depth generalizing node seen with
  | zero => exact hends _ rfl rfl
  | succ depth ih =>
      rw [Route.enter]
      split
      · exact hends _ rfl rfl
      · split
        · exact hends _ rfl rfl
        · intro source
          rw [Route.deadEnds, Route.nodes, mem_deadEnds_branches ih, stopsAt_cons]

theorem mem_deadEnds_plan (c : Context) (labels : ProcId → List String) (source : Source) :
    source ∈ (Plan.ofContext c labels).deadEnds
      ↔ (source = .entry ∧ c.successor? source = none) ∨
        StopsAt c labels c.graph.procIds source := by
  have hleft : ∀ d ∈ (Plan.ofContext c labels).detached, StopsWithin c labels d.2 :=
    forall_leftOver (enter_stopsWithin _) _
  have hnodes : ∀ id, id ∈ (Plan.ofContext c labels).nodes ↔ id ∈ c.graph.procIds :=
    fun id => (nodes_perm_procIds c labels).mem_iff
  have hdetached : (source ∈ (Plan.ofContext c labels).detached.flatMap fun d => d.2.deadEnds)
      ↔ StopsAt c labels ((Plan.ofContext c labels).detached.flatMap fun d => d.2.nodes) source := by
    rw [List.mem_flatMap]
    refine ⟨?_, ?_⟩
    · rintro ⟨d, hd, hsource⟩
      obtain ⟨node, hnode, hstop⟩ := (hleft d hd source).mp hsource
      exact ⟨node, List.mem_flatMap.mpr ⟨d, hd, hnode⟩, hstop⟩
    · rintro ⟨node, hnode, hstop⟩
      obtain ⟨d, hd, hnode⟩ := List.mem_flatMap.mp hnode
      exact ⟨d, hd, (hleft d hd source).mpr ⟨node, hnode, hstop⟩⟩
  have hmain : source ∈ (Plan.ofContext c labels).main.deadEnds
      ↔ (source = .entry ∧ c.successor? source = none) ∨
        StopsAt c labels (Plan.ofContext c labels).main.nodes source :=
    mem_deadEnds_follow (enter_stopsWithin _) .entry [] source
  rw [Plan.deadEnds, List.mem_append, hdetached, hmain, or_assoc, ← stopsAt_append]
  apply or_congr_right
  simp only [StopsAt, ← hnodes]
  rfl

end DeadEnds


/-! ### The comments of procedural code -/

/-- Every comment among some lines is on one line. -/
def CommentsFit (lines : List Line) : Prop :=
  ∀ line ∈ lines, ∀ text, line.statement = .comment text → OneLine text

theorem commentsFit_append {lines lines' : List Line} :
    CommentsFit (lines ++ lines') ↔ CommentsFit lines ∧ CommentsFit lines' :=
  List.forall_mem_append

theorem commentsFit_flatMap {α : Type} {l : List α} {f : α → List Line} :
    CommentsFit (l.flatMap f) ↔ ∀ a ∈ l, CommentsFit (f a) := by
  simp only [CommentsFit, List.mem_flatMap, forall_exists_index, and_imp]
  exact ⟨fun h a ha line hline => h line a ha hline, fun h line a ha hline => h a ha line hline⟩

namespace Setup

variable {s : Setup}

theorem commentsFit_linesAt {depth : Nat} {statements : List Statement} :
    CommentsFit (linesAt depth statements)
      ↔ ∀ statement ∈ statements, ∀ text, statement = .comment text → OneLine text := by
  rw [CommentsFit, linesAt, List.forall_mem_map]

theorem commentsFit_stub {depth : Nat} {text : String} :
    CommentsFit (linesAt depth (s.stub text)) ↔ OneLine text := by
  simp [commentsFit_linesAt, stub]

theorem oneLine_unresolvedComment (node : ProcId) : OneLine (s.unresolvedComment node) := by
  simp only [unresolvedComment, oneLine_append]
  exact ⟨⟨⟨oneLine_procText node, by decide⟩, oneLine_commentText _⟩, by decide⟩

theorem commentsFit_leaveStatements (depth : Nat) (flow : String) :
    CommentsFit (linesAt depth (s.leaveStatements flow)) := by
  rw [leaveStatements]
  split
  · simp [commentsFit_linesAt]
  · rw [commentsFit_stub, oneLine_append, oneLine_append]
    exact ⟨⟨by decide, oneLine_commentText flow⟩, by decide⟩

theorem commentsFit_finalStep (depth : Nat) (node : ProcId) :
    CommentsFit (linesAt depth (s.finalStep node)) := by
  rw [finalStep]
  split
  · have hstub : OneLine (node.text ++ " has no output flows") :=
      oneLine_append.mpr ⟨oneLine_procText node, by decide⟩
    simpa [commentsFit_linesAt, stub] using hstub
  · simpa [commentsFit_linesAt] using s.oneLine_unresolvedComment node

theorem commentsFit_singleStep (depth : Nat) (node : ProcId) (flow : String) :
    CommentsFit (linesAt depth (s.singleStep node flow)) := by
  rw [singleStep]
  split
  · simp [commentsFit_linesAt]
  · simpa [commentsFit_linesAt] using s.oneLine_unresolvedComment node

theorem commentsFit_switchStep (depth : Nat) (node : ProcId) :
    CommentsFit (linesAt depth (s.switchStep node)) := by
  rw [switchStep]
  split
  · simp [commentsFit_linesAt]
  · simpa [commentsFit_linesAt] using s.oneLine_unresolvedComment node

theorem Ends.commentsFit_iff {route : Route} {statements : List Statement}
    (h : s.Ends route statements) (depth : Nat) :
    CommentsFit (linesAt depth statements) ↔ ∀ source ∈ route.deadEnds, OneLine source.text := by
  cases h with
  | deadEnd source =>
      rw [commentsFit_stub, oneLine_append, Route.deadEnds, List.forall_mem_singleton]
      exact and_iff_right (by decide)
  | leave flow =>
      exact iff_of_true (commentsFit_leaveStatements depth flow) (by simp [Route.deadEnds])
  | missing node =>
      rw [commentsFit_stub, oneLine_append]
      exact iff_of_true ⟨oneLine_procText node, by decide⟩ (by simp [Route.deadEnds])
  | repeated node =>
      rw [commentsFit_stub, oneLine_append]
      exact iff_of_true ⟨oneLine_procText node, by decide⟩ (by simp [Route.deadEnds])
  | final node =>
      exact iff_of_true (commentsFit_finalStep depth node)
        (by simp [Route.deadEnds, Route.branchDeadEnds])

theorem commentsFit_caseBlock (depth : Nat) (node : ProcId) (branch : String × List Line) :
    CommentsFit (caseBlock depth node branch) ↔ CommentsFit branch.2 := by
  have hopening : CommentsFit [⟨depth + 1, .onFlow branch.1⟩,
      ⟨depth + 2, .bind (flowVar node branch.1) (nodeVar node ++ ".value")⟩] := by
    simp [CommentsFit]
  have hclose : CommentsFit [⟨depth + 1, .closeBlock⟩] := by simp [CommentsFit]
  exact (commentsFit_append.trans (and_iff_right hopening)).trans
    (commentsFit_append.trans (and_iff_left hclose))

theorem commentsFit_routeLines (depth : Nat) (route : Route) :
    CommentsFit (s.routeLines depth route) ↔ ∀ source ∈ route.deadEnds, OneLine source.text := by
  refine routeLines_induction
    (P := fun _ route lines => CommentsFit lines ↔ ∀ source ∈ route.deadEnds, OneLine source.text)
    ?_ ?_ ?_ depth route
  · exact fun depth _ _ hends => hends.commentsFit_iff depth
  · intro depth node flow next hnext
    rw [commentsFit_append, and_iff_right (commentsFit_singleStep depth node flow), hnext,
      Route.deadEnds, Route.branchDeadEnds, Route.branchDeadEnds, List.append_nil]
  · intro depth node branches _ hbranches
    have hclose : CommentsFit (linesAt depth [.closeBlock]) := by simp [commentsFit_linesAt]
    rw [commentsFit_append, and_iff_left hclose, commentsFit_append,
      and_iff_right (commentsFit_switchStep depth node), commentsFit_flatMap, List.forall_mem_map,
      Route.deadEnds, Route.forall_mem_branchDeadEnds]
    exact forall₂_congr fun b hb => (commentsFit_caseBlock depth node _).trans (hbranches b hb)

theorem commentsFit_bodyLines :
    CommentsFit s.bodyLines ↔ ∀ source ∈ s.proceduralPlan.deadEnds, OneLine source.text := by
  have hblock : ∀ d : ProcId × Route, CommentsFit (s.detachedLines d.1 d.2)
      ↔ ∀ source ∈ d.2.deadEnds, OneLine source.text := by
    intro d
    have hunreached : OneLine (d.1.text ++ " is not reachable from entry") :=
      oneLine_append.mpr ⟨oneLine_procText d.1, by decide⟩
    have hopening : CommentsFit
        (linesAt 1 [.comment (d.1.text ++ " is not reachable from entry"), .openBlock]) := by
      simpa [commentsFit_linesAt] using hunreached
    have hclose : CommentsFit (linesAt 1 [.closeBlock]) := by simp [commentsFit_linesAt]
    rw [detachedLines, commentsFit_append, and_iff_left hclose, commentsFit_append,
      and_iff_right hopening, commentsFit_routeLines]
  rw [bodyLines, commentsFit_append, commentsFit_routeLines, commentsFit_flatMap, Plan.deadEnds,
    List.forall_mem_append, List.forall_mem_flatMap]
  exact and_congr_right' (forall₂_congr fun d _ => hblock d)

theorem commentsFit_proceduralLines (style : ExitStyle) :
    CommentsFit (s.proceduralLines style)
      ↔ ∀ source ∈ s.proceduralPlan.deadEnds, OneLine source.text := by
  have hheader : CommentsFit (linesAt 0 [.header (s.signature style)]) := by
    simp [commentsFit_linesAt]
  have hclose : CommentsFit (linesAt 0 [.closeBlock]) := by simp [commentsFit_linesAt]
  rw [proceduralLines, commentsFit_append, and_iff_left hclose, commentsFit_append,
    and_iff_right hheader, commentsFit_bodyLines]

theorem successor?_eq_none_iff {c : Context} {source : Source} :
    c.successor? source = none ↔ ∀ target, ⟨source, target⟩ ∉ c.graph.edges := by
  rw [← Option.map_eq_none_iff (f := Prod.snd), successor?_map_snd, List.find?_eq_none]
  refine ⟨?_, ?_⟩
  · intro hnone target hedge
    exact absurd (decide_eq_true rfl) (hnone _ hedge)
  · rintro hnone ⟨source', target⟩ hedge heq
    obtain rfl : source' = source := of_decide_eq_true heq
    exact hnone target hedge

/-- Code comes to a dead end at the entry or at a flow of a node that has a definition and a template, if
no edge leaves it. -/
theorem mem_deadEnds_iff {source : Source} :
    source ∈ s.proceduralPlan.deadEnds ↔ (∀ target, ⟨source, target⟩ ∉ s.context.graph.edges) ∧
      (source = .entry ∨ ∃ id d t, s.resolved? id = some (d, t) ∧
        ∃ flow ∈ d.flowNames, source = .proc id flow) := by
  rw [proceduralPlan, mem_deadEnds_plan, ← successor?_eq_none_iff, and_comm (a := source = .entry),
    and_or_left]
  apply or_congr_right
  refine ⟨?_, ?_⟩
  · rintro ⟨id, _, label, hlabel, rfl, hnone⟩
    refine ⟨hnone, id, ?_⟩
    rcases hnode : s.resolved? id with _ | ⟨d, t⟩
    · -- Such a node is followed along its edges, so an edge leaves each of its labels.
      simp only [proceduralLabels, hnode, mem_outgoingLabels] at hlabel
      obtain ⟨target, hedge⟩ := hlabel
      exact absurd hedge (successor?_eq_none_iff.mp hnone target)
    · simp only [proceduralLabels, hnode] at hlabel
      exact ⟨d, t, rfl, label, hlabel, rfl⟩
  · rintro ⟨hnone, id, d, t, hnode, flow, hflow, rfl⟩
    obtain ⟨procNode, hproc, _⟩ := resolved?_eq_some_iff.mp hnode
    refine ⟨id, ?_, flow, ?_, rfl, hnone⟩
    · rw [Graph.mem_procIds, hproc]
      rfl
    · rwa [proceduralLabels_eq hnode]

end Setup

/-- The comments of procedural code stay on their lines, on any graph and with any catalogs, exactly if no
flow with a line break in its name is left without an edge, at the nodes that have a definition and a
template. -/
theorem comments_stay_on_line_iff (s : Setup) (style : ExitStyle) :
    (∀ line ∈ s.proceduralLines style, ∀ text, line.statement = .comment text →
        StaysOnLine (line.text style))
      ↔ ∀ id d t, s.resolved? id = some (d, t) → ∀ flow ∈ d.flowNames,
        OneLine flow ∨ ∃ target, ⟨.proc id flow, target⟩ ∈ s.context.graph.edges := by
  have hfit : (∀ line ∈ s.proceduralLines style, ∀ text, line.statement = .comment text →
      StaysOnLine (line.text style)) ↔ CommentsFit (s.proceduralLines style) := by
    refine forall₂_congr fun line _ => forall₂_congr fun text hcomment => ?_
    obtain ⟨depth, statement⟩ := line
    obtain rfl : statement = .comment text := hcomment
    exact staysOnLine_comment_iff style depth text
  rw [hfit, Setup.commentsFit_proceduralLines]
  refine ⟨?_, ?_⟩
  · intro hends id d t hnode flow hflow
    by_cases hedge : ∃ target, ⟨.proc id flow, target⟩ ∈ s.context.graph.edges
    · exact Or.inr hedge
    · have hend := Setup.mem_deadEnds_iff.mpr
        ⟨not_exists.mp hedge, Or.inr ⟨id, d, t, hnode, flow, hflow, rfl⟩⟩
      exact Or.inl (oneLine_sourceText_proc.mp (hends _ hend))
  · intro hflows source hsource
    obtain ⟨hnone, rfl | ⟨id, d, t, hnode, flow, hflow, rfl⟩⟩ := Setup.mem_deadEnds_iff.mp hsource
    · decide
    · rw [oneLine_sourceText_proc]
      exact (hflows id d t hnode flow hflow).resolve_right (not_exists.mpr hnone)


/-! ### A flow that nothing follows -/

/-- A catalog with a procedure whose flow has a line break in its name. -/
def asking : Catalog :=
  match Catalog.empty.add
    { Manifest.empty with
      procedures := .ofList [("ask", ⟨⟨[], [⟨"asked\nagain", []⟩]⟩, "0"⟩)] }
    Catalog.builtinOrigin with
  | .ok (c, _) => c
  | .error _ => .empty

/-- No edge leaves the only node. -/
def unanswered : Graph :=
  { Graph.empty with procs := [⟨"ask", .empty⟩], edges := [⟨.entry, .proc ⟨0⟩⟩] }

/-- What stands behind the line break is a line of its own in the code. -/
theorem comment_unanswered_breaks :
    asking.Loaded ∧ ∀ style : ExitStyle,
      ¬ ∀ line ∈ (asking.setup unanswered).proceduralLines style, ∀ text,
        line.statement = .comment text → StaysOnLine (line.text style) := by
  refine ⟨Catalog.loaded_of_manifest _ _, fun style hstays => ?_⟩
  have hmem : (⟨1, .comment "no control edge leaves n0.asked\nagain"⟩ : Line)
      ∈ (asking.setup unanswered).proceduralLines style := by
    cases style <;> decide +kernel
  have hline := (staysOnLine_comment_iff style 1 _).mp (hstays _ hmem _ rfl)
  revert hline
  decide

end ProcFlow.Code
