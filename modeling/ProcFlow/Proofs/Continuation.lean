import ProcFlow.Proofs.Unfolding
/-!
# Code in continuation style

Code in continuation style goes on where the templates go on: at each node it follows the exits that the
template uses, while a valid graph promises an edge for each flow that the definition declares. A
template may declare a flow and never use it. Whatever lies behind such a flow is left over, and stands
in front of the result as expressions that are evaluated for nothing.

So the function leads to every node exactly if every edge between nodes leaves through an exit that is
used. The main expression is free of placeholders in any case, but what is left over need not be.
-/

namespace ProcFlow.Code

theorem nodup_eraseDups (l : List String) : l.eraseDups.Nodup := by
  induction hlength : l.length using Nat.strong_induction_on generalizing l with
  | _ n ih =>
      cases l with
      | nil => exact List.nodup_nil
      | cons x rest =>
          rw [List.eraseDups_cons, List.nodup_cons]
          refine ⟨?_, ?_⟩
          · intro hmem
            simpa using (List.mem_filter.mp (List.mem_eraseDups.mp hmem)).2
          · refine ih _ ?_ _ rfl
            rw [← hlength, List.length_cons]
            exact Nat.lt_succ_of_le (List.length_filter_le _ rest)

namespace Setup

variable {s : Setup}

theorem continuationLabels_eq {id : ProcId} {d : Definition} {t : Template}
    (hnode : s.resolved? id = some (d, t)) : s.continuationLabels id = t.exits := by
  simp only [continuationLabels, hnode]

theorem branchLambdas_eq_map (node : ProcId) (branches : List (String × Route)) :
    s.branchLambdas node branches
      = branches.map fun b => (b.1, s.lambda node b.1 (s.routeExpr b.2)) := by
  induction branches with
  | nil => rw [branchLambdas, List.map_nil]
  | cons b rest ih => rw [branchLambdas, ih, List.map_cons]

namespace Sound

variable (h : s.Sound)

include h

/-- Each exit of a template goes on, because it is a declared flow. -/
theorem followable_continuationLabels : Followable s.context s.continuationLabels := by
  refine ⟨?_, ?_⟩
  · intro id hid
    obtain ⟨d, t, hnode⟩ := h.exists_resolved?_of_mem hid
    rw [continuationLabels_eq hnode]
    exact nodup_eraseDups _
  · intro id hid label hlabel
    obtain ⟨d, t, hnode⟩ := h.exists_resolved?_of_mem hid
    obtain ⟨_, _, hd, _⟩ := resolved?_eq_some_iff.mp hnode
    rw [continuationLabels_eq hnode] at hlabel
    exact h.graph.control.flow id d hd label (h.exits id d t hnode label hlabel)

theorem lambda_withPlaceholder (p : String) {node : ProcId} {d : Definition} {t : Template}
    (hnode : s.resolved? node = some (d, t)) {label : String} (hlabel : label ∈ t.exits)
    (body : String) :
    (s.withPlaceholder p).lambda node label body = s.lambda node label body := by
  have hflow := Definition.flow?_isSome_iff.mpr (h.exits node d t hnode label hlabel)
  obtain ⟨f, hf⟩ := Option.isSome_iff_exists.mp hflow
  have hknown := h.knows_flow hnode (Definition.flow?_eq_some hf).1
  simp only [lambda, labelType, resolved?_withPlaceholder, hnode, hf,
    h.flowType_withPlaceholder p hknown]

/-- The expression of a route that traces the edges has no use for the placeholder. -/
theorem routeExpr_withPlaceholder (p : String) {source : Source} {route : Route}
    (htraces : Traces s.context s.continuationLabels source route) :
    (s.withPlaceholder p).routeExpr route = s.routeExpr route := by
  induction htraces with
  | @leave source flow hedge =>
      have hcontains : s.context.graph.outputFlows.contains flow :=
        (s.context.graph.outputFlows.contains_iff flow).mpr (h.graph.edges.output source flow hedge)
      simp only [routeExpr, leaveExpr, context_withPlaceholder, hcontains, if_true,
        h.outputExpr_withPlaceholder]
  | @step source node branches hedge hlabels _ ih =>
      obtain ⟨d, t, hnode⟩ := h.exists_resolved? hedge
      rw [continuationLabels_eq hnode] at hlabels
      have hlambdas : (s.withPlaceholder p).branchLambdas node branches
          = s.branchLambdas node branches := by
        rw [branchLambdas_eq_map, branchLambdas_eq_map]
        apply List.map_congr_left
        intro b hb
        have hexit : b.1 ∈ t.exits := hlabels ▸ List.mem_map_of_mem hb
        rw [ih b hb, h.lambda_withPlaceholder p hnode hexit]
      simp only [routeExpr, callExpr, resolved?_withPlaceholder, hnode, hlambdas]
      apply h.nodeExpr_withPlaceholder p hnode
      intro exit hexit
      -- Every exit of the template has its function, so the look-up does not come to the placeholder.
      have hlookup : ((s.branchLambdas node branches).lookup exit).isSome := by
        rw [branchLambdas_eq_map, List.lookup_isSome_iff]
        rw [← hlabels] at hexit
        obtain ⟨b, hb, rfl⟩ := List.mem_map.mp hexit
        exact ⟨_, List.mem_map_of_mem hb, beq_self_eq_true b.1⟩
      obtain ⟨function, hfunction⟩ := Option.isSome_iff_exists.mp hlookup
      rw [hfunction]
      rfl

theorem traces_continuationPlan :
    Traces s.context s.continuationLabels .entry s.continuationPlan.main :=
  traces_main h.graph.controlled h.followable_continuationLabels

/-- Every edge between nodes leaves through an exit that is used, exactly if nothing is left over. -/
theorem continuationPlan_detached_iff :
    s.continuationPlan.detached = []
      ↔ ∀ u flow v, ⟨.proc u flow, .proc v⟩ ∈ s.context.graph.edges →
        ∃ d t, s.resolved? u = some (d, t) ∧ flow ∈ t.exits := by
  rw [continuationPlan, detached_eq_nil_iff h.graph.controlled h.followable_continuationLabels]
  apply forall_congr' fun u => forall_congr' fun flow => forall_congr' fun v => ?_
  apply imp_congr_right
  intro hedge
  obtain ⟨d, hd, _⟩ := h.graph.edges.source u flow _ hedge
  obtain ⟨t, hnode⟩ := h.resolved u d hd
  rw [continuationLabels_eq hnode]
  refine ⟨?_, ?_⟩
  · exact fun hflow => ⟨d, t, hnode, hflow⟩
  · intro hright
    obtain ⟨d', t', hnode', hflow⟩ := hright
    cases hnode.symm.trans hnode'
    exact hflow

theorem mem_nodes_of_detached (hdetached : s.continuationPlan.detached = []) :
    ∀ id ∈ s.context.graph.procIds, id ∈ s.continuationPlan.main.nodes := by
  intro id hid
  rw [h.traces_continuationPlan.mem_nodes_iff h.graph.controlled]
  have hfollowed := (detached_eq_nil_iff h.graph.controlled h.followable_continuationLabels).mp hdetached
  exact (forall_ahead_entry_iff h.graph.controlled).mpr hfollowed id hid

theorem continuation_withPlaceholder (p : String) (hdetached : s.continuationPlan.detached = []) :
    (s.withPlaceholder p).continuation = s.continuation := by
  have hplan : (s.withPlaceholder p).continuationPlan = s.continuationPlan := rfl
  have hbody : (s.withPlaceholder p).continuationBody = s.continuationBody := by
    simp only [continuationBody, hplan, hdetached, List.isEmpty_nil, if_true,
      h.routeExpr_withPlaceholder p h.traces_continuationPlan]
  rw [continuation, continuation, hbody, h.continuationSignature_withPlaceholder]

end Sound

end Setup

/-- On a valid graph, code in continuation style leads to every node, with nothing left over and no
placeholder in it, exactly if every edge between nodes leaves through an exit that the template uses. -/
theorem continuation_attached_iff {c : Catalog} (hloaded : c.Loaded) {g : Graph}
    (hvalid : (c.context g).diagnostics = []) :
    ((∀ id ∈ g.procIds, id ∈ (c.setup g).continuationPlan.main.nodes) ∧
        (c.setup g).continuationPlan.detached = [] ∧
        ∀ placeholder, ((c.setup g).withPlaceholder placeholder).generate .cont
          = generate (c.context g) c.implementations .cont)
      ↔ ∀ u flow v, ⟨.proc u flow, .proc v⟩ ∈ g.edges →
        ∃ d t, (c.setup g).resolved? u = some (d, t) ∧ flow ∈ t.exits := by
  have hsound := hloaded.sound_of_valid hvalid
  refine ⟨?_, ?_⟩
  · exact fun hattached => hsound.continuationPlan_detached_iff.mp hattached.2.1
  · intro hused
    have hdetached := hsound.continuationPlan_detached_iff.mpr hused
    exact ⟨hsound.mem_nodes_of_detached hdetached, hdetached, fun placeholder =>
      hsound.continuation_withPlaceholder placeholder hdetached⟩

theorem continuation_division_attached :
    Catalog.standard.Loaded ∧ (Catalog.standard.context division).diagnostics = [] ∧
      (∀ id ∈ division.procIds,
        id ∈ (Catalog.standard.setup division).continuationPlan.main.nodes) ∧
      (Catalog.standard.setup division).continuationPlan.detached = [] ∧
      ∀ placeholder, ((Catalog.standard.setup division).withPlaceholder placeholder).generate .cont
        = generate (Catalog.standard.context division) Catalog.standard.implementations .cont := by
  refine ⟨Catalog.loaded_standard, diagnostics_division,
    (continuation_attached_iff Catalog.loaded_standard diagnostics_division).mpr ?_⟩
  intro u flow v hedge
  obtain ⟨⟨rfl, rfl⟩, rfl⟩ : (u = ⟨0⟩ ∧ flow = "result") ∧ v = ⟨1⟩ := by
    simpa [division] using hedge
  have hused : ((Catalog.standard.setup division).resolved? ⟨0⟩).any
      (fun node => decide ("result" ∈ node.2.exits)) = true := by
    decide +kernel
  obtain ⟨⟨d, t⟩, hnode, hflow⟩ := (Option.any_eq_true _ _).mp hused
  exact ⟨d, t, hnode, of_decide_eq_true hflow⟩


/-! ### A flow that no template uses -/

/-- A catalog with a check that never fails: its template does not use the flow for failures. -/
def infallible : Catalog :=
  match Catalog.empty.add
    { Manifest.empty with
      procedures := .ofList
        [("check", ⟨⟨[], [⟨"ok", []⟩, ⟨"err", []⟩]⟩, "@ok(\x7b\x7d)"⟩),
          ("pass", ⟨⟨[], [⟨"result", []⟩]⟩, "@result(\x7b\x7d)"⟩)] }
    Catalog.builtinOrigin with
  | .ok (c, _) => c
  | .error _ => .empty

/-- A check whose failures are handled in two steps, the later one being first in the arena. -/
def handled : Graph where
  procs := [⟨"check", .empty⟩, ⟨"pass", .empty⟩, ⟨"pass", .empty⟩]
  edges :=
    [⟨.entry, .proc ⟨0⟩⟩, ⟨.proc ⟨0⟩ "ok", .output "done"⟩, ⟨.proc ⟨0⟩ "err", .proc ⟨2⟩⟩,
      ⟨.proc ⟨2⟩ "result", .proc ⟨1⟩⟩, ⟨.proc ⟨1⟩ "result", .output "done"⟩]
  inputs := .empty
  outputFlows := .ofList [("done", .empty)]

/-- A valid graph in which a node is left over, and in which the placeholder shows. -/
theorem continuation_handled_detached :
    infallible.Loaded ∧ (infallible.context handled).diagnostics = [] ∧
      (∃ id ∈ handled.procIds, id ∉ (infallible.setup handled).continuationPlan.main.nodes) ∧
      (infallible.setup handled).continuationPlan.detached ≠ [] ∧
      ∃ placeholder, ((infallible.setup handled).withPlaceholder placeholder).generate .cont
        ≠ generate (infallible.context handled) infallible.implementations .cont := by
  refine ⟨Catalog.loaded_of_manifest _ _, by decide +kernel, ?_, ?_, "", by decide +kernel⟩
  · have hnodes : (infallible.setup handled).continuationPlan.main.nodes = [⟨0⟩] := by
      decide +kernel
    rw [hnodes]
    exact ⟨⟨1⟩, by decide, by decide⟩
  · intro hdetached
    have hnodes : (infallible.setup handled).continuationPlan.detached.map Prod.fst
        = [⟨1⟩, ⟨2⟩] := by
      decide +kernel
    rw [hdetached] at hnodes
    cases hnodes

end ProcFlow.Code
