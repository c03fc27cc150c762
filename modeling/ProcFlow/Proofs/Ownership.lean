import ProcFlow.Proofs.CatalogCalls
import ProcFlow.Proofs.Reports
/-!
# Whose problem a diagnostic is

A diagnostic names the part of the graph that it is about, and parts are asked for their problems one by
one: the entry and the output, each node of the arena, each edge. Every part that a check names is there,
because checks speak only of what they have come upon in the graph. A part belongs to one node or is an
edge, so whoever asks all nodes and all edges hears of every problem, and of each from one of them alone.
-/

namespace ProcFlow

open Diagnostic (Subject)

/-- The parts that a graph has. -/
inductive Graph.HasPart (g : Graph) : Subject → Prop where
  | entry : HasPart g .entry
  | input {key : String} (hkey : key ∈ g.inputs.keys) : HasPart g (.input key)
  | proc {id : ProcId} (hid : (g.proc? id).isSome) : HasPart g (.proc id)
  | binding {id : ProcId} {node : ProcNode} {slot : String} (hnode : g.proc? id = some node)
      (hslot : slot ∈ node.inputs.keys) : HasPart g (.binding id slot)
  | outputValue {flow id : String} {values : Table OutputValue}
      (hflow : g.outputFlows.get? flow = some values) (hid : id ∈ values.keys) :
      HasPart g (.outputValue flow id)
  | edge {id : EdgeId} (hid : (g.edge? id).isSome) : HasPart g (.edge id)

/-- Whoever can be asked for problems: a node or an edge. -/
inductive Owner where
  | node (ref : NodeRef)
  | edge (id : EdgeId)
  deriving DecidableEq

namespace Owner

/-- The answer, of all diagnostics. -/
def diagnostics (ds : List Diagnostic) : Owner → List Diagnostic
  | node ref => Diagnostic.onNode ds ref
  | edge id => Diagnostic.onEdge ds id

end Owner

/-- All that can be asked in a graph: the entry, the output, its nodes and its edges. -/
def Graph.owners (g : Graph) : List Owner :=
  [.node .entry, .node .output] ++ g.procIds.map (fun id => .node (.proc id))
    ++ g.edgesWithIds.map fun e => .edge e.1

/-- Whom a part belongs to. -/
def Diagnostic.Subject.owner : Subject → Owner
  | .entry | .input _ => .node .entry
  | .proc id | .binding id _ => .node (.proc id)
  | .outputValue _ _ => .node .output
  | .edge id => .edge id

theorem Owner.mem_diagnostics {owner : Owner} {ds : List Diagnostic} {d : Diagnostic} :
    d ∈ owner.diagnostics ds ↔ d ∈ ds ∧ d.subject.owner = owner := by
  cases owner with
  | node ref =>
      rw [diagnostics, Diagnostic.onNode, List.mem_filter, decide_eq_true_iff]
      cases d.subject <;> simp [Subject.node?, Subject.owner]
  | edge id =>
      rw [diagnostics, Diagnostic.onEdge, Diagnostic.about, List.mem_filter, decide_eq_true_iff]
      cases d.subject <;> simp [Subject.owner]

theorem Graph.HasPart.owner_mem {g : Graph} {subject : Subject} (h : g.HasPart subject) :
    subject.owner ∈ g.owners := by
  cases h with
  | entry => simp [Subject.owner, Graph.owners]
  | input _ => simp [Subject.owner, Graph.owners]
  | proc hid => simp [Subject.owner, Graph.owners, g.mem_procIds, hid]
  | binding hnode _ => simp [Subject.owner, Graph.owners, g.mem_procIds, hnode]
  | outputValue _ _ => simp [Subject.owner, Graph.owners]
  | @edge id hid =>
      obtain ⟨e, he⟩ := Option.isSome_iff_exists.mp hid
      apply List.mem_append_right
      exact List.mem_map.mpr ⟨(id, e), g.mem_edgesWithIds.mpr he, rfl⟩

/-- A problem with a part of the graph is told by its owner, and by nobody else. -/
theorem Graph.HasPart.existsUnique_owner {g : Graph} {ds : List Diagnostic} {d : Diagnostic}
    (h : g.HasPart d.subject) (hd : d ∈ ds) :
    ∃! owner, owner ∈ g.owners ∧ d ∈ owner.diagnostics ds := by
  refine ⟨d.subject.owner, ⟨h.owner_mem, Owner.mem_diagnostics.mpr ⟨hd, rfl⟩⟩, ?_⟩
  intro owner howner
  exact (Owner.mem_diagnostics.mp howner.2).2.symm


/-! ### What each check speaks of -/

namespace Context

variable {c : Context} {d : Diagnostic}

theorem hasPart_of_mem_inputProblems (h : d ∈ c.inputProblems) : c.graph.HasPart d.subject := by
  obtain ⟨⟨key, decl⟩, hmem, hd⟩ := List.mem_filterMap.mp h
  simp only [Option.ite_none_left_eq_some, Option.some.injEq] at hd
  rw [← hd.2]
  exact .input (List.mem_map_of_mem hmem)

theorem subject_of_mem_procedureProblems {id : ProcId} {node : ProcNode}
    (h : d ∈ c.procedureProblems id node) : d.subject = .proc id := by
  unfold procedureProblems at h
  split at h
  · rw [List.mem_singleton.mp h]
  · split at h
    · exact absurd h List.not_mem_nil
    · rw [List.mem_singleton.mp h]

theorem subject_of_mem_bindingProblems {id : ProcId} {node : ProcNode} {slot : String}
    {symbol : SymbolRef} (h : d ∈ c.bindingProblems id node slot symbol) :
    d.subject = .binding id slot := by
  rw [bindingProblems, List.mem_append, List.mem_append] at h
  obtain (h | h) | h := h
  · exact subject_of_mem_symbolProblems h
  · rw [List.mem_ite_nil_right, List.mem_singleton] at h
    rw [h.2]
  · split at h
    · rw [List.mem_ite_nil_right, List.mem_singleton] at h
      rw [h.2]
    · exact absurd h List.not_mem_nil

theorem subject_of_mem_missingSlots {id : ProcId} {node : ProcNode} (h : d ∈ c.missingSlots id node) :
    d.subject = .proc id := by
  unfold missingSlots at h
  split at h
  · exact absurd h List.not_mem_nil
  · obtain ⟨slot, _, hd⟩ := List.mem_filterMap.mp h
    simp only [Option.ite_none_left_eq_some, Option.some.injEq] at hd
    rw [← hd.2]

theorem hasPart_of_mem_nodeProblems {id : ProcId} {node : ProcNode}
    (hnode : c.graph.proc? id = some node) (h : d ∈ c.nodeProblems id node) :
    c.graph.HasPart d.subject := by
  have hid : (c.graph.proc? id).isSome := Option.isSome_iff_exists.mpr ⟨node, hnode⟩
  simp only [nodeProblems, List.mem_append, List.mem_flatMap] at h
  obtain (h | ⟨⟨slot, symbol⟩, hmem, h⟩) | h := h
  · rw [subject_of_mem_procedureProblems h]
    exact .proc hid
  · rw [subject_of_mem_bindingProblems h]
    exact .binding hnode (List.mem_map_of_mem hmem)
  · rw [subject_of_mem_missingSlots h]
    exact .proc hid

theorem hasPart_outputValue {flow id : String} {value : OutputValue}
    (h : (flow, id, value) ∈ c.graph.outputEntries) : c.graph.HasPart (.outputValue flow id) := by
  obtain ⟨values, hflow, hvalue⟩ := c.graph.mem_outputEntries.mp h
  exact .outputValue hflow (List.mem_map_of_mem ((values.get?_eq_some_iff id value).mp hvalue))

theorem subject_of_mem_edgeProblems {id : EdgeId} {e : Edge} (h : d ∈ c.edgeProblems id e) :
    d.subject = .edge id := by
  rw [edgeProblems, List.mem_append, edgeStartProblems, edgeEndProblems] at h
  grind

theorem subject_of_mem_incomingProblems {id : ProcId} {node : ProcNode}
    (h : d ∈ c.incomingProblems id node) : d.subject = .proc id := by
  rw [incomingProblems, List.mem_ite_nil_left, List.mem_singleton] at h
  rw [h.2]

theorem subject_of_mem_outgoingProblems {id : ProcId} {node : ProcNode}
    (h : d ∈ c.outgoingProblems id node) : d.subject = .proc id := by
  simp only [outgoingProblems] at h
  split at h
  · rw [List.mem_singleton.mp h]
  · split at h
    · exact absurd h List.not_mem_nil
    · rw [List.mem_ite_nil_left, List.mem_filterMap] at h
      obtain ⟨_, flow, _, hd⟩ := h
      simp only [Option.ite_none_left_eq_some, Option.some.injEq] at hd
      rw [← hd.2]

theorem subject_of_mem_entryProblems (h : d ∈ c.entryProblems) : d.subject = .entry := by
  rw [entryProblems, List.mem_ite_nil_right, List.mem_singleton] at h
  rw [h.2]

/-- Edges that meet are reported on one of the edges that are gone through. -/
theorem subject_of_mem_sharedEnds {leaving : List (Source × EdgeId)}
    {entering : List (ProcId × EdgeId)} {edges : List (EdgeId × Edge)}
    (h : d ∈ c.sharedEnds leaving entering edges) : ∃ e ∈ edges, d.subject = .edge e.1 := by
  have hlater : ∀ {e : EdgeId × Edge} {rest : List (EdgeId × Edge)},
      (∃ x ∈ rest, d.subject = .edge x.1) → ∃ x ∈ e :: rest, d.subject = .edge x.1 := by
    intro e rest hrest
    obtain ⟨x, hx, hsubject⟩ := hrest
    exact ⟨x, List.mem_cons_of_mem e hx, hsubject⟩
  -- Case by case as the edges are gone through: a report is on the edge at the front, or comes later.
  fun_induction sharedEnds c leaving entering edges with
  | case1 => exact absurd h List.not_mem_nil
  | case2 _ _ _ _ _ _ ih => exact hlater (ih h)
  | case3 _ _ _ _ _ _ _ _ ih =>
      cases List.mem_cons.mp h with
      | inl heq => exact ⟨_, List.mem_cons_self, by rw [heq]; rfl⟩
      | inr h => exact hlater (ih h)
  | case4 _ _ _ _ _ _ _ _ _ ih => exact hlater (ih h)
  | case5 _ _ _ _ _ _ _ _ _ _ _ ih =>
      cases List.mem_cons.mp h with
      | inl heq => exact ⟨_, List.mem_cons_self, by rw [heq]; rfl⟩
      | inr h => exact hlater (ih h)
  | case6 _ _ _ _ _ _ _ _ _ _ ih => exact hlater (ih h)

theorem hasPart_edge {id : EdgeId} {e : Edge} (h : (id, e) ∈ c.graph.edgesWithIds) :
    c.graph.HasPart (.edge id) :=
  .edge (Option.isSome_iff_exists.mpr ⟨e, c.graph.mem_edgesWithIds.mp h⟩)

theorem hasPart_of_mem_cycleProblems {cycles : List (List ProcId)} (h : d ∈ c.cycleProblems cycles) :
    c.graph.HasPart d.subject := by
  obtain ⟨⟨id, node⟩, hmem, hd⟩ := List.mem_filterMap.mp h
  obtain ⟨members, _, rfl⟩ := Option.map_eq_some_iff.mp hd
  exact .proc (Option.isSome_iff_exists.mpr ⟨node, c.graph.mem_procsWithIds.mp hmem⟩)

theorem hasPart_of_mem_bindingScopeProblems {id : ProcId} (h : d ∈ c.bindingScopeProblems id) :
    c.graph.HasPart d.subject := by
  unfold bindingScopeProblems at h
  split at h
  · exact absurd h List.not_mem_nil
  · obtain ⟨b, hb, hd⟩ := List.mem_filterMap.mp h
    obtain ⟨node, slot, symbol, hnode, hmem, rfl⟩ := mem_bindings.mp hb
    split at hd
    · simp only [Option.ite_none_left_eq_some, Option.some.injEq] at hd
      rw [← hd.2]
      exact .binding hnode (List.mem_map_of_mem hmem)
    · cases hd

theorem hasPart_of_mem_outputScopeProblems {flow : String} (h : d ∈ c.outputScopeProblems flow) :
    c.graph.HasPart d.subject := by
  obtain ⟨o, ho, hd⟩ := List.mem_filterMap.mp h
  obtain ⟨ho, hflow⟩ := List.mem_filter.mp ho
  have hentry := (mem_outputs.mp ho).1
  rw [of_decide_eq_true hflow] at hentry
  split at hd
  · simp only [Option.ite_none_right_eq_some, Option.some.injEq] at hd
    rw [← hd.2]
    exact hasPart_outputValue hentry
  · cases hd


/-! ### All checks -/

theorem hasPart_of_mem_dataProblems (h : d ∈ c.dataProblems) : c.graph.HasPart d.subject := by
  rw [dataProblems, List.mem_append, List.mem_append, List.mem_flatMap, List.mem_flatMap] at h
  obtain (h | ⟨⟨id, node⟩, hnode, h⟩) | ⟨⟨flow, id, value⟩, hvalue, h⟩ := h
  · exact hasPart_of_mem_inputProblems h
  · exact hasPart_of_mem_nodeProblems (c.graph.mem_procsWithIds.mp hnode) h
  · rw [subject_of_mem_outputProblems h]
    exact hasPart_outputValue hvalue

theorem hasPart_of_mem_controlProblems (h : d ∈ c.controlProblems) : c.graph.HasPart d.subject := by
  rw [controlProblems, List.mem_append, List.mem_append, List.mem_append, List.mem_flatMap,
    List.mem_flatMap] at h
  obtain ((⟨⟨id, e⟩, hedge, h⟩ | ⟨⟨id, node⟩, hnode, h⟩) | h) | h := h
  · rw [subject_of_mem_edgeProblems h]
    exact hasPart_edge hedge
  · have hsubject : d.subject = .proc id := by
      cases List.mem_append.mp h with
      | inl h => exact subject_of_mem_incomingProblems h
      | inr h => exact subject_of_mem_outgoingProblems h
    rw [hsubject]
    exact .proc (Option.isSome_iff_exists.mpr ⟨node, c.graph.mem_procsWithIds.mp hnode⟩)
  · rw [subject_of_mem_entryProblems h]
    exact .entry
  · obtain ⟨⟨id, e⟩, hedge, hsubject⟩ := subject_of_mem_sharedEnds h
    rw [hsubject]
    exact hasPart_edge hedge

theorem hasPart_of_mem_scopeProblems {cycles : List (List ProcId)} (h : d ∈ c.scopeProblems cycles) :
    c.graph.HasPart d.subject := by
  rw [scopeProblems, List.mem_append, List.mem_flatMap, List.mem_flatMap] at h
  obtain ⟨id, _, h⟩ | ⟨flow, _, h⟩ := h
  · rw [List.mem_ite_nil_left] at h
    exact hasPart_of_mem_bindingScopeProblems h.2
  · exact hasPart_of_mem_outputScopeProblems h

/-- Every diagnostic is about a part that the graph has. -/
theorem hasPart_of_mem_diagnostics (h : d ∈ c.diagnostics) : c.graph.HasPart d.subject := by
  rw [diagnostics_eq_append, List.mem_append, List.mem_append, List.mem_append] at h
  obtain ((h | h) | h) | h := h
  · exact hasPart_of_mem_dataProblems h
  · exact hasPart_of_mem_controlProblems h
  · exact hasPart_of_mem_cycleProblems h
  · exact hasPart_of_mem_scopeProblems h

end Context

end ProcFlow
