import ProcFlow.Proofs.Lines
import ProcFlow.Proofs.Placeholder
import ProcFlow.Proofs.Tracing
/-!
# Procedural code as the unfolding of control

The unfolding of a source is the plainest way to write statements: it goes wherever the edges go, one
branch for each declared flow of a node in the order of the definition, and keeps no record of where it
has been. On most graphs it would not come to an end. On a valid graph it does, there is just one, and
the generated function consists of its signature, the unfolding of the entry and a closing brace.
-/

namespace ProcFlow.Code

/-- The flavour of procedural code with a way of leaving. -/
def ExitStyle.flavor : ExitStyle → Flavor
  | continuation => .contInlineProc
  | union => .inlineProc

/-- The lines of a function with a given body. -/
def functionLines (signature : String) (body : List Line) : List Line :=
  ⟨0, .header signature⟩ :: body ++ [⟨0, .closeBlock⟩]

theorem proceduralLines_eq (s : Setup) (style : ExitStyle) :
    s.proceduralLines style = functionLines (s.signature style) s.bodyLines := rfl

/-- The lines that control unfolds to from a source on, at a depth. -/
inductive Unfolds (s : Setup) : Source → Nat → List Line → Prop where
  /-- An edge to a declared output flow leaves the function. -/
  | leave {source : Source} {depth : Nat} {flow : String}
      (hedge : ⟨source, .output flow⟩ ∈ s.context.graph.edges)
      (hdeclared : flow ∈ s.context.graph.outputFlows.keys) :
      Unfolds s source depth [⟨depth, .leave flow (s.outputExpr flow)⟩]
  /-- A node with one flow binds its outcome as that flow, which goes on at the same depth. -/
  | single {source : Source} {depth : Nat} {node : ProcId} {d : Definition} {t : Template}
      {flow : String} {rest : List Line} (hedge : ⟨source, .proc node⟩ ∈ s.context.graph.edges)
      (hnode : s.resolved? node = some (d, t)) (hflow : d.flowNames = [flow])
      (hrest : Unfolds s (.proc node flow) depth rest) :
      Unfolds s source depth (⟨depth, .bind (flowVar node flow) (s.stepExpr node d t)⟩ :: rest)
  /-- A node with several flows binds its outcome and switches, with one case for each flow. -/
  | several {source : Source} {depth : Nat} {node : ProcId} {d : Definition} {t : Template}
      {cases : List (String × List Line)} (hedge : ⟨source, .proc node⟩ ∈ s.context.graph.edges)
      (hnode : s.resolved? node = some (d, t)) (hflows : cases.map Prod.fst = d.flowNames)
      (hseveral : 2 ≤ cases.length)
      (hcases : ∀ b ∈ cases, Unfolds s (.proc node b.1) (depth + 2) b.2) :
      Unfolds s source depth
        (⟨depth, .bind (nodeVar node) (s.stepExpr node d t)⟩ :: ⟨depth, .switchOn (nodeVar node)⟩
          :: cases.flatMap (caseBlock depth node) ++ [⟨depth, .closeBlock⟩])

variable {s : Setup}

theorem Unfolds.statement_ne_comment {source : Source} {depth : Nat} {lines : List Line}
    (h : Unfolds s source depth lines) : ∀ line ∈ lines, ∀ text, line.statement ≠ .comment text := by
  induction h with
  | leave => simp
  | single _ _ _ _ ih => simpa using ih
  | several _ _ _ _ _ ih =>
      simp only [List.cons_append, List.forall_mem_cons, List.forall_mem_append, List.mem_flatMap,
        caseBlock]
      refine ⟨by simp, by simp, ?_, by simp⟩
      rintro line ⟨b, hb, hline⟩
      simp only [List.mem_cons, List.mem_append, List.not_mem_nil, or_false] at hline
      rcases hline with rfl | rfl | hline | rfl
      · simp
      · simp
      · exact ih b hb line hline
      · simp


/-! ### There is one unfolding -/

theorem eq_of_map_fst_eq {α β : Type} {l l' : List (α × β)} (hfst : l.map Prod.fst = l'.map Prod.fst)
    (hsnd : ∀ b ∈ l, ∀ b' ∈ l', b.1 = b'.1 → b.2 = b'.2) : l = l' := by
  induction l generalizing l' with
  | nil =>
      rw [List.map_nil, eq_comm, List.map_eq_nil_iff] at hfst
      exact hfst.symm
  | cons b rest ih =>
      obtain ⟨b', rest', rfl, hb, hrest⟩ := List.map_eq_cons_iff.mp hfst.symm
      have hhead : b = b' :=
        Prod.ext hb.symm (hsnd b List.mem_cons_self b' List.mem_cons_self hb.symm)
      rw [hhead, ih hrest.symm fun x hx x' hx' =>
        hsnd x (List.mem_cons_of_mem b hx) x' (List.mem_cons_of_mem b' hx')]

theorem Unfolds.unique (hcontrol : s.context.Controlled) {source : Source} {depth : Nat}
    {lines lines' : List Line} (h : Unfolds s source depth lines) (h' : Unfolds s source depth lines') :
    lines = lines' := by
  -- The edge from the source is the same in both, and so is the node, its definition and its template.
  induction h generalizing lines' with
  | leave hedge _ =>
      cases h' with
      | leave hedge' _ =>
          cases hcontrol.target_unique hedge hedge'
          rfl
      | single hedge' => cases hcontrol.target_unique hedge hedge'
      | several hedge' => cases hcontrol.target_unique hedge hedge'
  | single hedge hnode hflow _ ih =>
      cases h' with
      | leave hedge' _ => cases hcontrol.target_unique hedge hedge'
      | single hedge' hnode' hflow' hrest' =>
          cases hcontrol.target_unique hedge hedge'
          cases hnode.symm.trans hnode'
          cases hflow.symm.trans hflow'
          rw [ih hrest']
      | several hedge' hnode' hflows' hseveral' _ =>
          cases hcontrol.target_unique hedge hedge'
          cases hnode.symm.trans hnode'
          have hlength := congrArg List.length (hflows'.trans hflow)
          rw [List.length_map, List.length_singleton] at hlength
          omega
  | several hedge hnode hflows hseveral _ ih =>
      cases h' with
      | leave hedge' _ => cases hcontrol.target_unique hedge hedge'
      | single hedge' hnode' hflow' _ =>
          cases hcontrol.target_unique hedge hedge'
          cases hnode.symm.trans hnode'
          have hlength := congrArg List.length (hflows.trans hflow')
          rw [List.length_map, List.length_singleton] at hlength
          omega
      | several hedge' hnode' hflows' _ hcases' =>
          cases hcontrol.target_unique hedge hedge'
          cases hnode.symm.trans hnode'
          rw [eq_of_map_fst_eq (hflows.trans hflows'.symm)]
          intro b hb b' hb' hfst
          apply ih b hb
          rw [hfst]
          exact hcases' b' hb'


/-! ### The lines of a route are an unfolding -/

theorem Setup.proceduralLabels_eq {id : ProcId} {d : Definition} {t : Template}
    (hnode : s.resolved? id = some (d, t)) : s.proceduralLabels id = d.flowNames := by
  simp only [proceduralLabels, hnode]

namespace Setup.Sound

variable (h : s.Sound)

include h

theorem exists_resolved? {source : Source} {node : ProcId}
    (hedge : ⟨source, .proc node⟩ ∈ s.context.graph.edges) :
    ∃ d t, s.resolved? node = some (d, t) := by
  obtain ⟨procNode, hnode⟩ := Option.isSome_iff_exists.mp (h.graph.edges.node source node hedge)
  obtain ⟨d, hd, _⟩ := h.graph.types.procedure node procNode hnode
  obtain ⟨t, ht⟩ := h.resolved node d (by rw [Context.definition?_of_proc? hnode, hd])
  exact ⟨d, t, ht⟩

theorem exists_resolved?_of_mem {id : ProcId} (hid : id ∈ s.context.graph.procIds) :
    ∃ d t, s.resolved? id = some (d, t) := by
  obtain ⟨source, hedge⟩ := h.graph.control.incoming id hid
  exact h.exists_resolved? hedge

/-- A node has a flow, because it is left. -/
theorem flowNames_ne_nil {node : ProcId} {d : Definition} {t : Template}
    (hnode : s.resolved? node = some (d, t)) : d.flowNames ≠ [] := by
  obtain ⟨procNode, hproc, hd, _⟩ := resolved?_eq_some_iff.mp hnode
  have hmem : node ∈ s.context.graph.procIds := by
    rw [Graph.mem_procIds, hproc]
    rfl
  obtain ⟨flow, target, hedge⟩ := h.graph.control.outgoing node hmem
  obtain ⟨d', hd', hflow⟩ := h.graph.edges.source node flow target hedge
  obtain rfl := Option.some.inj (hd.symm.trans hd')
  exact List.ne_nil_of_mem hflow

theorem routeLines_unfolds {source : Source} {route : Route}
    (htraces : Traces s.context s.proceduralLabels source route) (depth : Nat) :
    Unfolds s source depth (s.routeLines depth route) := by
  induction htraces generalizing depth with
  | @leave source flow hedge =>
      have hdeclared := h.graph.edges.output source flow hedge
      have hcontains : s.context.graph.outputFlows.contains flow :=
        (s.context.graph.outputFlows.contains_iff flow).mpr hdeclared
      rw [(Ends.leave flow).routeLines_eq, leaveStatements, if_pos hcontains]
      exact Unfolds.leave hedge hdeclared
  | @step source node branches hedge hlabels _ ih =>
      obtain ⟨d, t, hnode⟩ := h.exists_resolved? hedge
      rw [proceduralLabels_eq hnode] at hlabels
      rcases branches with _ | ⟨⟨flow, next⟩, _ | ⟨second, rest⟩⟩
      · exact absurd hlabels.symm (h.flowNames_ne_nil hnode)
      · simp only [routeLines_single, singleStep, hnode]
        exact Unfolds.single hedge hnode hlabels.symm (ih _ (List.mem_singleton_self _) depth)
      · have hseveral : 2 ≤ ((flow, next) :: second :: rest).length := Nat.le_add_left 2 rest.length
        simp only [routeLines_several depth node hseveral, switchStep, hnode]
        refine Unfolds.several hedge hnode ?_ ?_ ?_
        · rw [List.map_map]
          exact hlabels
        · rwa [List.length_map]
        · intro b hb
          obtain ⟨branch, hbranch, rfl⟩ := List.mem_map.mp hb
          exact ih branch hbranch (depth + 2)

/-- Each node has distinct flows, and each of them goes on. -/
theorem followable_proceduralLabels : Followable s.context s.proceduralLabels := by
  refine ⟨?_, ?_⟩
  · intro id hid
    obtain ⟨d, t, hnode⟩ := h.exists_resolved?_of_mem hid
    rw [proceduralLabels_eq hnode]
    exact h.flows id d t hnode
  · intro id hid label hlabel
    obtain ⟨d, t, hnode⟩ := h.exists_resolved?_of_mem hid
    obtain ⟨_, _, hd, _⟩ := resolved?_eq_some_iff.mp hnode
    rw [proceduralLabels_eq hnode] at hlabel
    exact h.graph.control.flow id d hd label hlabel

theorem proceduralPlan_detached : s.proceduralPlan.detached = [] := by
  apply (detached_eq_nil_iff h.graph.controlled h.followable_proceduralLabels).mpr
  intro u label v hedge
  obtain ⟨d, hd, hlabel⟩ := h.graph.edges.source u label _ hedge
  obtain ⟨t, hnode⟩ := h.resolved u d hd
  rw [proceduralLabels_eq hnode]
  exact hlabel

theorem bodyLines_unfolds : Unfolds s .entry 1 s.bodyLines := by
  rw [bodyLines, h.proceduralPlan_detached, List.flatMap_nil, List.append_nil]
  exact h.routeLines_unfolds (traces_main h.graph.controlled h.followable_proceduralLabels) 1

end Setup.Sound


/-! ### The generated function -/

theorem Unfolds.withPlaceholder (h : s.Sound) (p : String) {source : Source} {depth : Nat}
    {lines : List Line} (hunfolds : Unfolds s source depth lines) :
    Unfolds (s.withPlaceholder p) source depth lines := by
  induction hunfolds with
  | leave hedge hdeclared =>
      rw [← h.outputExpr_withPlaceholder p]
      exact Unfolds.leave hedge hdeclared
  | single hedge hnode hflow _ ih =>
      rw [← h.stepExpr_withPlaceholder p hnode]
      exact Unfolds.single hedge hnode hflow ih
  | several hedge hnode hflows hseveral _ ih =>
      rw [← h.stepExpr_withPlaceholder p hnode]
      exact Unfolds.several hedge hnode hflows hseveral ih

theorem Setup.Sound.bodyLines_withPlaceholder (h : s.Sound) (p : String) :
    (s.withPlaceholder p).bodyLines = s.bodyLines :=
  Unfolds.unique (s := s.withPlaceholder p) h.graph.controlled (h.withPlaceholder p).bodyLines_unfolds
    (h.bodyLines_unfolds.withPlaceholder h p)

theorem Setup.Sound.procedural_withPlaceholder (h : s.Sound) (p : String) (style : ExitStyle) :
    (s.withPlaceholder p).procedural style = s.procedural style := by
  rw [procedural, procedural, proceduralLines, proceduralLines, h.bodyLines_withPlaceholder,
    h.signature_withPlaceholder]

theorem Setup.generate_flavor (s : Setup) (style : ExitStyle) :
    s.generate style.flavor = s.procedural style := by
  cases style <;> rfl

theorem generate_flavor (c : Catalog) (g : Graph) (style : ExitStyle) :
    generate (c.context g) c.implementations style.flavor = (c.setup g).procedural style :=
  (c.setup g).generate_flavor style

/-- On a valid graph, procedural code is the signature, the one unfolding of the entry and the closing
brace, each line being spelled as its statement asks; no placeholder or comment has a part in it. -/
theorem procedural_eq_unfolding {c : Catalog} (hloaded : c.Loaded) {g : Graph}
    (hvalid : (c.context g).diagnostics = []) (style : ExitStyle) :
    ∃ body, Unfolds (c.setup g) .entry 1 body ∧
      (∀ other, Unfolds (c.setup g) .entry 1 other → other = body) ∧
      (∀ line ∈ body, ∀ text, line.statement ≠ .comment text) ∧
      generate (c.context g) c.implementations style.flavor
        = String.join ((functionLines ((c.setup g).signature style) body).map (Line.text style)) ∧
      (∀ line ∈ functionLines ((c.setup g).signature style) body,
        line.Spelled style (line.text style)) ∧
      ∀ placeholder, ((c.setup g).withPlaceholder placeholder).generate style.flavor
        = generate (c.context g) c.implementations style.flavor := by
  have hsound := hloaded.sound_of_valid hvalid
  refine ⟨(c.setup g).bodyLines, hsound.bodyLines_unfolds, ?_, ?_, ?_, ?_, ?_⟩
  · exact fun other hother => hother.unique hsound.graph.controlled hsound.bodyLines_unfolds
  · exact hsound.bodyLines_unfolds.statement_ne_comment
  · exact generate_flavor c g style
  · exact fun line _ => line.spelled_text style
  · intro placeholder
    rw [generate_flavor, Setup.generate_flavor, hsound.procedural_withPlaceholder]


/-! ### A division that may fail -/

/-- Divides two inputs and negates the quotient, or leaves through a flow of its own. -/
def division : Graph where
  procs :=
    [⟨"div", .ofList [("a", ⟨.entry, "x"⟩), ("b", ⟨.entry, "y"⟩)]⟩,
      ⟨"negate", .ofList [("x", ⟨.proc ⟨0⟩ "result", "res"⟩)]⟩]
  edges :=
    [⟨.entry, .proc ⟨0⟩⟩, ⟨.proc ⟨0⟩ "result", .proc ⟨1⟩⟩,
      ⟨.proc ⟨0⟩ "divByZero", .output "failed"⟩, ⟨.proc ⟨1⟩ "result", .output "done"⟩]
  inputs := .ofList [("x", ⟨[], "number"⟩), ("y", ⟨[], "number"⟩)]
  outputFlows :=
    .ofList [("done", .ofList [("res", ⟨"number", ⟨.proc ⟨1⟩ "result", "res"⟩⟩)]), ("failed", .empty)]

theorem diagnostics_division : (Catalog.standard.context division).diagnostics = [] := by
  decide +kernel

theorem procedural_division_eq_unfolding :
    Catalog.standard.Loaded ∧ (Catalog.standard.context division).diagnostics = [] ∧
      ∃ body, Unfolds (Catalog.standard.setup division) .entry 1 body ∧
        (∀ other, Unfolds (Catalog.standard.setup division) .entry 1 other → other = body) ∧
        (∀ line ∈ body, ∀ text, line.statement ≠ .comment text) ∧
        generate (Catalog.standard.context division) Catalog.standard.implementations .inlineProc
          = String.join ((functionLines ((Catalog.standard.setup division).signature .union)
              body).map (Line.text .union)) ∧
        (∀ line ∈ functionLines ((Catalog.standard.setup division).signature .union) body,
          line.Spelled .union (line.text .union)) ∧
        ∀ placeholder,
          ((Catalog.standard.setup division).withPlaceholder placeholder).generate .inlineProc
            = generate (Catalog.standard.context division) Catalog.standard.implementations
                .inlineProc :=
  ⟨Catalog.loaded_standard, diagnostics_division,
    procedural_eq_unfolding Catalog.loaded_standard diagnostics_division .union⟩

end ProcFlow.Code
