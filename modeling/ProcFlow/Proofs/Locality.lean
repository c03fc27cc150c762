import ProcFlow.Proofs.Ownership
import ProcFlow.Proofs.Replacement
/-!
# How far one node is heard

One node of a graph is replaced by another, whatever else may be wrong with the graph. The other parts hear
of it in three ways only: the flows that symbols and edges take from the node may be others, the cycles may
change, and so may the control paths and with them the scope. A check that asks for none of these gives the
answer that it gave before, down to the wording and the order of its diagnostics.

The checks are taken one by one. Of what a check says, only the sheltered diagnostics are compared: they
are not about the node, nor about what is read from it, nor about where an edge from it starts, and neither
cycles nor scope are their matter.
-/

namespace ProcFlow

open Diagnostic (Kind Subject)

/-- A symbol comes from elsewhere than a node; and an edge starts elsewhere. -/
def SymbolRef.avoids (q : ProcId) (s : SymbolRef) : Bool := s.origin.node ≠ .proc q

def Edge.avoids (q : ProcId) (e : Edge) : Bool := e.source.node ≠ .proc q

namespace Graph

/-- The symbol that a part of a graph reads. -/
def symbolAt? (g : Graph) : Subject → Option SymbolRef
  | .binding id slot => (g.proc? id).bind fun node => node.inputs.get? slot
  | .outputValue flow id =>
    ((g.outputFlows.get? flow).bind fun values => values.get? id).map OutputValue.source
  | _ => none

/-- Two graphs are the same but for one node. -/
structure SameBut (q : ProcId) (g g' : Graph) : Prop where
  size : g'.procs.length = g.procs.length
  proc? : ∀ id, id ≠ q → g'.proc? id = g.proc? id
  edges : g'.edges = g.edges
  inputs : g'.inputs = g.inputs
  outputFlows : g'.outputFlows = g.outputFlows

theorem sameBut_modifyProc (g : Graph) (q : ProcId) (f : ProcNode → ProcNode) :
    SameBut q g (g.modifyProc q f) where
  size := List.length_modify f g.procs q.index
  proc? id hid := by
    have hne : q.index ≠ id.index := fun heq => hid (congrArg ProcId.mk heq.symm)
    simp [Graph.proc?, modifyProc, hne]
  edges := rfl
  inputs := rfl
  outputFlows := rfl

theorem getElem?_procsWithIds (g : Graph) (i : Nat) :
    g.procsWithIds[i]? = (g.proc? ⟨i⟩).map fun node => (⟨i⟩, node) := by
  rw [procsWithIds, List.getElem?_map, List.getElem?_zipIdx, Option.map_map]
  simp [Graph.proc?, Function.comp_def]

namespace SameBut

variable {q : ProcId} {g g' : Graph} (h : SameBut q g g')

include h

theorem isSome_proc? (id : ProcId) : (g'.proc? id).isSome = (g.proc? id).isSome := by
  rw [Bool.eq_iff_iff, ← Graph.mem_procIds, ← Graph.mem_procIds, Graph.procIds, Graph.procIds, h.size]

theorem isNone_proc? (id : ProcId) : (g'.proc? id).isNone = (g.proc? id).isNone := by
  rw [← Option.not_isSome, ← Option.not_isSome, h.isSome_proc?]

theorem edgesWithIds : g'.edgesWithIds = g.edgesWithIds := by
  rw [Graph.edgesWithIds, Graph.edgesWithIds, h.edges]

theorem outputEntries : g'.outputEntries = g.outputEntries := by
  rw [Graph.outputEntries, Graph.outputEntries, h.outputFlows]

theorem symbolAt?_binding {id : ProcId} (hid : id ≠ q) (slot : String) :
    g'.symbolAt? (.binding id slot) = g.symbolAt? (.binding id slot) := by
  rw [symbolAt?, symbolAt?, h.proc? id hid]

theorem symbolAt?_outputValue (flow id : String) :
    g'.symbolAt? (.outputValue flow id) = g.symbolAt? (.outputValue flow id) := by
  rw [symbolAt?, symbolAt?, h.outputFlows]

theorem edge? (id : EdgeId) : g'.edge? id = g.edge? id := by
  rw [Graph.edge?, Graph.edge?, h.edges]

/-- What is put together node by node is the same if the node adds nothing to it and the others add the
same. -/
theorem flatMap_procsWithIds {α : Type} (f f' : ProcId × ProcNode → List α)
    (hq : ∀ node, f (q, node) = []) (hq' : ∀ node, f' (q, node) = [])
    (hother : ∀ id node, id ≠ q → g.proc? id = some node → f' (id, node) = f (id, node)) :
    g'.procsWithIds.flatMap f' = g.procsWithIds.flatMap f := by
  have hmap : g'.procsWithIds.map f' = g.procsWithIds.map f := by
    apply List.ext_getElem?
    intro i
    rw [List.getElem?_map, List.getElem?_map, getElem?_procsWithIds, getElem?_procsWithIds]
    by_cases hi : (⟨i⟩ : ProcId) = q
    · -- Both graphs have a node here or neither has, and what they have adds nothing.
      subst hi
      have hsome := h.isSome_proc? ⟨i⟩
      cases hnode : g.proc? ⟨i⟩ with
      | none => simp_all
      | some node =>
          rw [hnode, Option.isSome_some, Option.isSome_iff_exists] at hsome
          obtain ⟨node', hnode'⟩ := hsome
          simp [hnode', hq, hq']
    · rw [h.proc? _ hi]
      cases hnode : g.proc? ⟨i⟩ with
      | none => rfl
      | some node => simp [hother _ node hi hnode]
  rw [List.flatMap_def, List.flatMap_def, hmap]

end SameBut

end Graph

namespace Context

@[simp] theorem graph_withGraph (c : Context) (g : Graph) : (c.withGraph g).graph = g := rfl

theorem subject_of_mem_cycleProblems {c : Context} {d : Diagnostic} {cycles : List (List ProcId)}
    (hd : d ∈ c.cycleProblems cycles) : ∃ id, d.subject = .proc id := by
  obtain ⟨⟨id, node⟩, _, hd⟩ := List.mem_filterMap.mp hd
  obtain ⟨members, _, rfl⟩ := Option.map_eq_some_iff.mp hd
  exact ⟨id, rfl⟩

theorem subject_of_mem_scopeProblems {c : Context} {d : Diagnostic} {cycles : List (List ProcId)}
    (hd : d ∈ c.scopeProblems cycles) :
    (∃ id slot, d.subject = .binding id slot) ∨ ∃ flow id, d.subject = .outputValue flow id := by
  rw [scopeProblems, List.mem_append, List.mem_flatMap, List.mem_flatMap] at hd
  cases hd with
  | inl hd =>
      obtain ⟨id, _, hd⟩ := hd
      rw [List.mem_ite_nil_left, bindingScopeProblems] at hd
      left
      grind
  | inr hd =>
      obtain ⟨flow, _, hd⟩ := hd
      rw [outputScopeProblems] at hd
      right
      grind

/-- A diagnostic that what stands in the place of a node has no influence on. -/
structure Sheltered (g : Graph) (q : ProcId) (d : Diagnostic) : Prop where
  node : d.subject.node? ≠ some (.proc q)
  symbol : ∀ s, g.symbolAt? d.subject = some s → s.avoids q
  edge : ∀ id e, d.subject = .edge id → g.edge? id = some e →
    d.kind = .duplicateControlEdge ∨ e.avoids q
  noCycle : ∀ id, d.subject = .proc id → d.kind ≠ .cyclicDependency
  noScope : ((∃ id slot, d.subject = .binding id slot) ∨ ∃ flow id, d.subject = .outputValue flow id) →
    d.kind ≠ .symbolOutOfScope

section Checks

variable {c : Context} {q : ProcId} {g' : Graph} {P : Diagnostic → Bool}
  (h : c.graph.SameBut q g') (hP : ∀ d, P d → Sheltered c.graph q d)

/-! ### What can be looked up -/

section

include h

theorem definition?_of_sameBut {id : ProcId} (hid : id ≠ q) :
    (c.withGraph g').definition? id = c.definition? id := by
  rw [definition?, definition?, withGraph, h.proc? id hid]

theorem lookup_of_avoids {s : SymbolRef} (hs : s.avoids q) :
    (c.withGraph g').lookup s = c.lookup s := by
  obtain ⟨origin, id⟩ := s
  cases origin with
  | entry =>
      simp only [Context.lookup]
      rw [withGraph, h.inputs]
  | proc node flow =>
      have hnode : node ≠ q := by
        rintro rfl
        simp [SymbolRef.avoids, Source.node] at hs
      simp only [Context.lookup, definition?_of_sameBut h hnode]
      rw [withGraph, h.isNone_proc?]

theorem resolve_of_avoids {s : SymbolRef} (hs : s.avoids q) :
    (c.withGraph g').resolve s = c.resolve s := by
  rw [resolve, resolve, lookup_of_avoids h hs]

theorem bindingOf_of_avoids {id : ProcId} (hid : id ≠ q) (slot : String) {s : SymbolRef}
    (hs : s.avoids q) : (c.withGraph g').bindingOf id slot s = c.bindingOf id slot s := by
  rw [bindingOf, bindingOf, definition?_of_sameBut h hid, resolve_of_avoids h hs]

end

theorem filter_eq_nil_of_not_sheltered (hP : ∀ d, P d → Sheltered c.graph q d) {ds : List Diagnostic}
    (hds : ∀ d ∈ ds, ¬ Sheltered c.graph q d) : ds.filter P = [] := by
  rw [List.filter_eq_nil_iff]
  exact fun d hd hsheltered => hds d hd (hP d hsheltered)

theorem not_sheltered_of_subject {d : Diagnostic} (hd : d.subject = .proc q) :
    ¬ Sheltered c.graph q d := by
  intro hsheltered
  apply hsheltered.node
  rw [hd]
  rfl


/-! ### Data -/

include h

theorem inputProblems_of_sameBut : (c.withGraph g').inputProblems = c.inputProblems := by
  rw [inputProblems, inputProblems, withGraph, h.inputs]

theorem symbolProblems_of_avoids (subject : Subject) {s : SymbolRef} (hs : s.avoids q) :
    (c.withGraph g').symbolProblems subject s = c.symbolProblems subject s := by
  rw [symbolProblems, symbolProblems, lookup_of_avoids h hs]

theorem bindingProblems_of_avoids {id : ProcId} (hid : id ≠ q) (node : ProcNode) (slot : String)
    {s : SymbolRef} (hs : s.avoids q) :
    (c.withGraph g').bindingProblems id node slot s = c.bindingProblems id node slot s := by
  simp only [bindingProblems, bindingOf_of_avoids h hid slot hs, definition?_of_sameBut h hid,
    symbolProblems_of_avoids h _ hs]
  rfl

include hP

theorem filter_bindingProblems {id : ProcId} {node : ProcNode} (hid : id ≠ q)
    (hnode : c.graph.proc? id = some node) {slot : String} {s : SymbolRef}
    (hmem : (slot, s) ∈ node.inputs.entries) :
    ((c.withGraph g').bindingProblems id node slot s).filter P
      = (c.bindingProblems id node slot s).filter P := by
  by_cases hs : s.avoids q
  · rw [bindingProblems_of_avoids h hid node slot hs]
  · have hopen : ∀ d : Diagnostic, d.subject = .binding id slot → ¬ Sheltered c.graph q d := by
      intro d hd hsheltered
      refine hs (hsheltered.symbol s ?_)
      rw [hd, Graph.symbolAt?, hnode, Option.bind_some]
      exact (node.inputs.get?_eq_some_iff slot s).mpr hmem
    rw [filter_eq_nil_of_not_sheltered hP fun d hd => hopen d (subject_of_mem_bindingProblems hd),
      filter_eq_nil_of_not_sheltered hP fun d hd => hopen d (subject_of_mem_bindingProblems hd)]

theorem filter_nodeProblems {id : ProcId} {node : ProcNode} (hid : id ≠ q)
    (hnode : c.graph.proc? id = some node) :
    ((c.withGraph g').nodeProblems id node).filter P = (c.nodeProblems id node).filter P := by
  have hprocedure : (c.withGraph g').procedureProblems id node = c.procedureProblems id node := by
    rw [procedureProblems, procedureProblems, definition?_of_sameBut h hid]
    rfl
  have hmissing : (c.withGraph g').missingSlots id node = c.missingSlots id node := by
    rw [missingSlots, missingSlots, definition?_of_sameBut h hid]
  simp only [nodeProblems, List.filter_append, List.filter_flatMap, hprocedure, hmissing]
  congr 2
  exact List.flatMap_congr fun e he => filter_bindingProblems h hP hid hnode he

theorem filter_outputProblems {flow id : String} {value : OutputValue}
    (hmem : (flow, id, value) ∈ c.graph.outputEntries) :
    ((c.withGraph g').outputProblems flow id value).filter P
      = (c.outputProblems flow id value).filter P := by
  by_cases hs : value.source.avoids q
  · simp only [outputProblems, resolve_of_avoids h hs, symbolProblems_of_avoids h _ hs]
    rfl
  · have hopen : ∀ d : Diagnostic, d.subject = .outputValue flow id → ¬ Sheltered c.graph q d := by
      intro d hd hsheltered
      refine hs (hsheltered.symbol _ ?_)
      obtain ⟨values, hvalues, hvalue⟩ := c.graph.mem_outputEntries.mp hmem
      rw [hd, Graph.symbolAt?, hvalues, Option.bind_some, hvalue, Option.map_some]
    rw [filter_eq_nil_of_not_sheltered hP fun d hd => hopen d (subject_of_mem_outputProblems hd),
      filter_eq_nil_of_not_sheltered hP fun d hd => hopen d (subject_of_mem_outputProblems hd)]

omit h in
/-- All that a node says of itself is about the node or its inputs. -/
theorem filter_nodeProblems_self (c' : Context) (node : ProcNode) :
    (c'.nodeProblems q node).filter P = [] := by
  refine filter_eq_nil_of_not_sheltered hP fun d hd hsheltered => hsheltered.node ?_
  simp only [nodeProblems, List.mem_append, List.mem_flatMap] at hd
  obtain (hd | ⟨_, _, hd⟩) | hd := hd
  · rw [subject_of_mem_procedureProblems hd]
    rfl
  · rw [subject_of_mem_bindingProblems hd]
    rfl
  · rw [subject_of_mem_missingSlots hd]
    rfl

theorem filter_dataProblems :
    (c.withGraph g').dataProblems.filter P = c.dataProblems.filter P := by
  have hnodes := h.flatMap_procsWithIds (fun e => (c.nodeProblems e.1 e.2).filter P)
    (fun e => ((c.withGraph g').nodeProblems e.1 e.2).filter P)
    (filter_nodeProblems_self hP _) (filter_nodeProblems_self hP _)
    fun id node hid hnode => filter_nodeProblems h hP hid hnode
  have houtputs := List.flatMap_congr (l := c.graph.outputEntries)
    (f := fun e => ((c.withGraph g').outputProblems e.1 e.2.1 e.2.2).filter P)
    fun e he => filter_outputProblems h hP he
  simp only [dataProblems, List.filter_append, List.filter_flatMap, inputProblems_of_sameBut h,
    graph_withGraph, h.outputEntries, hnodes, houtputs]


/-! ### Control -/

section

omit hP

theorem edgeStartProblems_of_avoids (id : EdgeId) {e : Edge} (he : e.avoids q) :
    (c.withGraph g').edgeStartProblems id e = c.edgeStartProblems id e := by
  obtain ⟨source, target⟩ := e
  cases source with
  | entry => rfl
  | proc node flow =>
      have hnode : node ≠ q := by
        rintro rfl
        simp [Edge.avoids, Source.node] at he
      simp only [edgeStartProblems, graph_withGraph, h.proc? node hnode, definition?_of_sameBut h hnode]

theorem edgeEndProblems_of_sameBut (id : EdgeId) (e : Edge) :
    (c.withGraph g').edgeEndProblems id e = c.edgeEndProblems id e := by
  simp only [edgeEndProblems, graph_withGraph, h.isSome_proc?, h.outputFlows]

theorem outgoing_of_sameBut (id : ProcId) : (c.withGraph g').outgoing id = c.outgoing id := by
  rw [outgoing, outgoing, graph_withGraph, h.edgesWithIds]

theorem incomingProblems_of_sameBut (id : ProcId) (node : ProcNode) :
    (c.withGraph g').incomingProblems id node = c.incomingProblems id node := by
  rw [incomingProblems, incomingProblems, graph_withGraph, h.edges]

theorem outgoingProblems_of_sameBut {id : ProcId} (hid : id ≠ q) (node : ProcNode) :
    (c.withGraph g').outgoingProblems id node = c.outgoingProblems id node := by
  simp only [outgoingProblems, outgoing_of_sameBut h, definition?_of_sameBut h hid]

theorem successor?_of_sameBut (source : Source) :
    (c.withGraph g').successor? source = c.successor? source := by
  rw [successor?, successor?, graph_withGraph, h.edgesWithIds]

theorem entryProblems_of_sameBut : (c.withGraph g').entryProblems = c.entryProblems := by
  have hempty : g'.procs.isEmpty = c.graph.procs.isEmpty := by
    rw [Bool.eq_iff_iff, List.isEmpty_iff_length_eq_zero, List.isEmpty_iff_length_eq_zero, h.size]
  rw [entryProblems, entryProblems, successor?_of_sameBut h, graph_withGraph, hempty]

theorem isWired_of_sameBut (e : Edge) : (c.withGraph g').isWired e = c.isWired e := by
  simp only [isWired, graph_withGraph, h.isSome_proc?]

theorem sharedEnds_of_sameBut (leaving : List (Source × EdgeId)) (entering : List (ProcId × EdgeId))
    (edges : List (EdgeId × Edge)) :
    (c.withGraph g').sharedEnds leaving entering edges = c.sharedEnds leaving entering edges := by
  induction edges generalizing leaving entering with
  | nil => rfl
  | cons e rest ih => simp only [sharedEnds, isWired_of_sameBut h, ih]

theorem duplicateProblems_of_sameBut :
    (c.withGraph g').duplicateProblems = c.duplicateProblems := by
  rw [duplicateProblems, duplicateProblems, sharedEnds_of_sameBut h, graph_withGraph, h.edgesWithIds]

end

theorem filter_edgeProblems {id : EdgeId} {e : Edge} (he : c.graph.edge? id = some e) :
    ((c.withGraph g').edgeProblems id e).filter P = (c.edgeProblems id e).filter P := by
  by_cases hs : e.avoids q
  · rw [edgeProblems, edgeProblems, edgeStartProblems_of_avoids h id hs,
      edgeEndProblems_of_sameBut h]
  · -- The edge may now have other problems than before, but none that is sheltered.
    have hopen : ∀ c' : Context, ∀ d ∈ c'.edgeProblems id e, ¬ Sheltered c.graph q d := by
      intro c' d hd hsheltered
      cases hsheltered.edge id e (subject_of_mem_edgeProblems hd) he with
      | inl hkind =>
          cases kind_of_mem_edgeProblems hd with
          | inl hother => simp [hkind] at hother
          | inr hother => simp [hkind] at hother
      | inr havoids => exact hs havoids
    rw [filter_eq_nil_of_not_sheltered hP (hopen _), filter_eq_nil_of_not_sheltered hP (hopen _)]

omit h in
theorem filter_nodeControl_self (c' : Context) (node : ProcNode) :
    (c'.incomingProblems q node ++ c'.outgoingProblems q node).filter P = [] := by
  refine filter_eq_nil_of_not_sheltered hP fun d hd => not_sheltered_of_subject ?_
  cases List.mem_append.mp hd with
  | inl hd => exact subject_of_mem_incomingProblems hd
  | inr hd => exact subject_of_mem_outgoingProblems hd

theorem filter_controlProblems :
    (c.withGraph g').controlProblems.filter P = c.controlProblems.filter P := by
  have hedges := List.flatMap_congr (l := c.graph.edgesWithIds)
    (f := fun e => ((c.withGraph g').edgeProblems e.1 e.2).filter P)
    fun e he => filter_edgeProblems h hP (c.graph.mem_edgesWithIds.mp he)
  have hnodes := h.flatMap_procsWithIds
    (fun e => (c.incomingProblems e.1 e.2 ++ c.outgoingProblems e.1 e.2).filter P)
    (fun e => ((c.withGraph g').incomingProblems e.1 e.2
      ++ (c.withGraph g').outgoingProblems e.1 e.2).filter P)
    (filter_nodeControl_self hP _) (filter_nodeControl_self hP _)
    fun id node hid _ => by
      simp only [incomingProblems_of_sameBut h, outgoingProblems_of_sameBut h hid]
  rw [controlProblems, controlProblems, List.filter_append, List.filter_append, List.filter_append,
    List.filter_append, List.filter_append, List.filter_append, List.filter_flatMap,
    List.filter_flatMap, List.filter_flatMap, List.filter_flatMap, graph_withGraph, h.edgesWithIds,
    entryProblems_of_sameBut h, duplicateProblems_of_sameBut h, hedges, hnodes]


/-! ### All checks -/

/-- The sheltered diagnostics are the same, in the same order. -/
theorem filter_diagnostics :
    (c.withGraph g').diagnostics.filter P = c.diagnostics.filter P := by
  have hcycles : ∀ c' : Context, (c'.cycleProblems c'.cycles).filter P = [] := fun c' => by
    refine filter_eq_nil_of_not_sheltered hP fun d hd hsheltered => ?_
    obtain ⟨id, hid⟩ := subject_of_mem_cycleProblems hd
    exact hsheltered.noCycle id hid (kind_of_mem_cycleProblems hd)
  have hscope : ∀ c' : Context, (c'.scopeProblems c'.cycles).filter P = [] := fun c' =>
    filter_eq_nil_of_not_sheltered hP fun d hd hsheltered =>
      hsheltered.noScope (subject_of_mem_scopeProblems hd) (kind_of_mem_scopeProblems hd)
  simp only [diagnostics_eq_append, List.filter_append, filter_dataProblems h hP,
    filter_controlProblems h hP, hcycles, hscope]

end Checks


/-! ### What a node has no influence on -/

/-- Groups of diagnostics, for a given node: those on inputs of the graph; those on other nodes, but for
cycles; those on what other nodes and output values read from elsewhere, but for scope; unknown nodes and
unknown flows of edges that start elsewhere; and those on edges that meet. -/
inductive Group where
  | inputs
  | nodes
  | readers
  | edges
  | meetings
  deriving DecidableEq

/-- Whether a diagnostic on a graph is in a group. -/
def Group.has (g : Graph) (q : ProcId) (group : Group) (d : Diagnostic) : Bool :=
  match group, d.subject with
  | inputs, .input _ => true
  | nodes, .proc id => id ≠ q && d.kind ≠ .cyclicDependency
  | readers, .binding id slot =>
    id ≠ q && (g.symbolAt? (.binding id slot)).any (·.avoids q) && d.kind ≠ .symbolOutOfScope
  | readers, .outputValue flow id =>
    (g.symbolAt? (.outputValue flow id)).any (·.avoids q) && d.kind ≠ .symbolOutOfScope
  | edges, .edge id =>
    (g.edge? id).any (·.avoids q) && (d.kind = .unknownNode || d.kind = .flowNameMismatch)
  | meetings, .edge _ => d.kind = .duplicateControlEdge
  | _, _ => false

theorem Group.has_congr {q : ProcId} {g g' : Graph} (h : g.SameBut q g') (group : Group) :
    group.has g' q = group.has g q := by
  funext d
  unfold Group.has
  cases group <;> cases d.subject <;> try rfl
  case readers.binding id slot =>
      by_cases hid : id = q
      · simp [hid]
      · simp only [h.symbolAt?_binding hid]
  case readers.outputValue => simp only [h.symbolAt?_outputValue]
  case edges.edge => simp only [h.edge?]

theorem Group.sheltered {g : Graph} {q : ProcId} {group : Group} {d : Diagnostic}
    (h : group.has g q d) : Sheltered g q d := by
  obtain ⟨kind, subject, message, hint⟩ := d
  cases group <;> cases subject <;>
    simp only [Group.has, Bool.and_eq_true, Bool.or_eq_true, decide_eq_true_eq, Option.any_eq_true,
      Bool.false_eq_true] at h
  case inputs.input key => constructor <;> simp [Subject.node?, Graph.symbolAt?]
  case nodes.proc id => constructor <;> simp [Subject.node?, Graph.symbolAt?, h.1, h.2]
  case readers.binding id slot =>
      obtain ⟨⟨hid, s, hs, havoids⟩, hkind⟩ := h
      constructor <;> simp [Subject.node?, hs, hid, havoids, hkind]
  case readers.outputValue flow id =>
      obtain ⟨⟨s, hs, havoids⟩, hkind⟩ := h
      constructor <;> simp [Subject.node?, hs, havoids, hkind]
  case edges.edge id =>
      obtain ⟨⟨e, he, havoids⟩, _⟩ := h
      refine ⟨by simp [Subject.node?], by simp [Graph.symbolAt?], ?_, by simp, by simp⟩
      intro _ e' hsame he'
      cases hsame
      cases he.symm.trans he'
      exact Or.inr havoids
  case meetings.edge id => constructor <;> simp [Subject.node?, Graph.symbolAt?, h]

/-- A change of one node is not heard: definitions of other nodes, what is read from elsewhere, and each
group of diagnostics are as before. -/
structure Unmoved (q : ProcId) (c c' : Context) : Prop where
  definition : ∀ id, id ≠ q → c'.definition? id = c.definition? id
  bindings : ∀ id, id ≠ q → (c'.bindings id).filter (fun b => b.symbol.avoids q)
    = (c.bindings id).filter fun b => b.symbol.avoids q
  outputs : c'.outputs.filter (fun o => o.value.source.avoids q)
    = c.outputs.filter fun o => o.value.source.avoids q
  diagnostics : ∀ group : Group, c'.diagnostics.filter (group.has c'.graph q)
    = c.diagnostics.filter (group.has c.graph q)

theorem filter_bindings_of_sameBut {c : Context} {q id : ProcId} {g' : Graph}
    (h : c.graph.SameBut q g') (hid : id ≠ q) :
    ((c.withGraph g').bindings id).filter (fun b => b.symbol.avoids q)
      = (c.bindings id).filter fun b => b.symbol.avoids q := by
  rw [bindings, bindings, graph_withGraph, h.proc? id hid]
  cases c.graph.proc? id with
  | none => rfl
  | some node =>
      simp only [List.filter_map]
      apply List.map_congr_left
      intro e he
      exact bindingOf_of_avoids h hid e.1 (List.mem_filter.mp he).2

theorem filter_outputs_of_sameBut {c : Context} {q : ProcId} {g' : Graph}
    (h : c.graph.SameBut q g') :
    (c.withGraph g').outputs.filter (fun o => o.value.source.avoids q)
      = c.outputs.filter fun o => o.value.source.avoids q := by
  rw [outputs, outputs, graph_withGraph, h.outputEntries, List.filter_map, List.filter_map]
  apply List.map_congr_left
  rintro ⟨flow, id, value⟩ he
  show OutputBinding.mk flow id value _ = OutputBinding.mk flow id value _
  rw [resolve_of_avoids h (List.mem_filter.mp he).2]

/-- Whatever is put in the place of a node, and whatever else is wrong with the graph, the other parts do
not hear of it. -/
theorem unmoved_modifyProc (c : Context) (q : ProcId) (node : ProcNode) :
    Unmoved q c (c.withGraph (c.graph.modifyProc q fun _ => node)) := by
  have h := c.graph.sameBut_modifyProc q fun _ => node
  constructor
  case definition => exact fun id hid => definition?_of_sameBut h hid
  case bindings => exact fun id hid => filter_bindings_of_sameBut h hid
  case outputs => exact filter_outputs_of_sameBut h
  case diagnostics =>
      intro group
      rw [graph_withGraph, Group.has_congr h]
      exact filter_diagnostics h fun d hd => Group.sheltered hd

/-- Each group has something to say about this graph. -/
example :
    let g : Graph :=
      { procs := [⟨"nothing", .empty⟩, ⟨"add", .empty⟩, ⟨"negate", .ofList [("x", ⟨.entry, "lost"⟩)]⟩]
        edges := [⟨.entry, .proc ⟨0⟩⟩, ⟨.entry, .proc ⟨2⟩⟩, ⟨.proc ⟨0⟩ "on", .proc ⟨9⟩⟩]
        inputs := .ofList [("a", ⟨[], "shape"⟩)]
        outputFlows := .empty }
    [Group.inputs, .nodes, .readers, .edges, .meetings].all fun group =>
      (Catalog.standard.context g).diagnostics.any (group.has g ⟨1⟩) := by
  decide +kernel

end Context

end ProcFlow
