import ProcFlow.Proofs.Reports
import ProcFlow.Proofs.Validity
/-!
# What a change leaves silent

A well-formed graph is changed in one place, and the checks look at it again. This module says which
checks have nothing to say, so that only those which the change is about are left.

A check of control keeps silent as long as the edges stay: a node that has lost its definition is passed
over. A check of scope goes only along walks that can be walked back, which means that every flow on the
way is declared and no node comes twice; so if these walks are walks of the old graph too, and nothing is
read that was not read before, whatever is read is in scope. And a cycle needs something new to lead
from one node to another.
-/

namespace ProcFlow.Context

open Relation (TransGen)
open Diagnostic (Kind Subject)


/-! ### Walks that can be walked back -/

/-- No node comes twice, and every flow on the way is declared. -/
structure Retraceable (c : Context) (walk : List Edge) : Prop where
  nodup : ((passedFlows walk).map Prod.fst).Nodup
  declared : ∀ node flow, (node, flow) ∈ passedFlows walk →
    ∃ d, c.definition? node = some d ∧ flow ∈ d.flowNames

theorem exists_retraceable_of_controlPath? {c : Context} {e : Edge}
    {scope : List (ProcId × String)} (hedge : e ∈ c.graph.edges)
    (h : c.controlPath? e = some scope) :
    ∃ walk, Walk c.graph walk e.target ∧ c.Retraceable walk ∧ scope = passedFlows walk := by
  obtain ⟨way, hway, hnodup, hscope⟩ := controlPath?_eq_some_iff.mp h
  exact ⟨way, hway.walk hedge, ⟨hnodup, hway.declared⟩, hscope⟩


/-! ### Scope -/

/-- An input of a node reads from a flow. -/
def ReadsAt (c : Context) (id origin : ProcId) (flow : String) : Prop :=
  ∃ node slot symbol, c.graph.proc? id = some node ∧ (slot, symbol) ∈ node.inputs.entries ∧
    symbol.origin = .proc origin flow

/-- A value of an output flow reads from a flow of a node. -/
def ReadsOut (c : Context) (out : String) (origin : ProcId) (flow : String) : Prop :=
  ∃ id value, (out, id, value) ∈ c.graph.outputEntries ∧ value.source.origin = .proc origin flow

variable {c c' : Context}

/-- Scope has nothing to say if nothing is read that was not read before, and if the walks that it goes
along are walks of the graph before. Nodes on cycles do not count. -/
theorem scopeProblems_eq_nil_of_inScope (hscope : c.InScope)
    (hbinding : ∀ id origin flow, ¬ TransGen c'.LeadsTo id id → c'.ReadsAt id origin flow →
      c.ReadsAt id origin flow)
    (hout : ∀ out origin flow, c'.ReadsOut out origin flow → c.ReadsOut out origin flow)
    (hnode : ∀ id walk, ¬ TransGen c'.LeadsTo id id → Walk c'.graph walk (.proc id) →
      c'.Retraceable walk → ∀ e ∈ walk, e ∈ c.graph.edges)
    (houtput : ∀ out walk, out ∈ c'.graph.outputFlows.keys → Walk c'.graph walk (.output out) →
      c'.Retraceable walk → ∀ e ∈ walk, e ∈ c.graph.edges) :
    c'.scopeProblems c'.cycles = [] := by
  rw [scopeProblems, List.append_eq_nil_iff, List.flatMap_eq_nil_iff, List.flatMap_eq_nil_iff]
  refine ⟨?_, ?_⟩
  · intro id _
    by_cases hcycle : TransGen c'.LeadsTo id id
    · rw [if_pos ((c'.cycleOf?_isSome_iff id).mpr hcycle)]
    rw [if_neg (mt (c'.cycleOf?_isSome_iff id).mp hcycle), bindingScopeProblems_eq_nil_iff]
    intro scope hpath b hb origin f v hresolution
    obtain ⟨node, slot, symbol, hproc, hmem, rfl⟩ := mem_bindings.mp hb
    obtain ⟨e, hfirst, hpath⟩ := Option.bind_eq_some_iff.mp hpath
    obtain ⟨hedge, htarget⟩ := firstInto?_eq_some hfirst
    obtain ⟨walk, hwalk, hback, rfl⟩ := exists_retraceable_of_controlPath? hedge hpath
    rw [htarget] at hwalk
    have hreads : c'.ReadsAt id origin f.name :=
      ⟨node, slot, symbol, hproc, hmem, (resolve_eq_proc hresolution).1⟩
    obtain ⟨node₀, slot₀, symbol₀, hproc₀, hmem₀, horigin₀⟩ := hbinding id origin f.name hcycle hreads
    exact hscope.binding id node₀ slot₀ symbol₀ origin f.name hproc₀ hmem₀ horigin₀ walk
      (hwalk.of_edges (hnode id walk hcycle hwalk hback))
  · intro out hdeclared
    rw [outputScopeProblems_eq_nil_iff]
    rintro o ho rfl origin f v hresolution scope hpath
    obtain ⟨e, he, hpath⟩ := List.mem_filterMap.mp hpath
    obtain ⟨hedge, htarget⟩ := List.mem_filter.mp he
    obtain ⟨walk, hwalk, hback, rfl⟩ := exists_retraceable_of_controlPath? hedge hpath
    rw [of_decide_eq_true htarget] at hwalk
    obtain ⟨hmem, hresolve⟩ := mem_outputs.mp ho
    rw [hresolve] at hresolution
    obtain ⟨id₀, value₀, hmem₀, horigin₀⟩ :=
      hout o.flow origin f.name ⟨o.id, o.value, hmem, (resolve_eq_proc hresolution).1⟩
    exact hscope.output o.flow id₀ value₀ origin f.name hmem₀ horigin₀ walk
      (hwalk.of_edges (houtput o.flow walk hdeclared hwalk hback))


/-! ### Control -/

theorem edgeProblems_mk_eq_nil_iff {id : EdgeId} {source : Source} {target : Target} :
    c.edgeProblems id ⟨source, target⟩ = []
      ↔ (∀ node flow, source = .proc node flow →
          (c.graph.proc? node).isSome ∧ ∀ d, c.definition? node = some d → flow ∈ d.flowNames) ∧
        (∀ node, target = .proc node → (c.graph.proc? node).isSome) ∧
          ∀ flow, target = .output flow → flow ∈ c.graph.outputFlows.keys := by
  rw [edgeProblems, List.append_eq_nil_iff, edgeStartProblems_eq_nil_iff, edgeEndProblems_eq_nil_iff]

theorem edgeProblems_eq_nil_of_anchored (h : c.EdgesAnchored) {e : Edge} (he : e ∈ c.graph.edges)
    (id : EdgeId) : c.edgeProblems id e = [] := by
  obtain ⟨source, target⟩ := e
  rw [edgeProblems_mk_eq_nil_iff]
  refine ⟨?_, ?_, ?_⟩
  · rintro node flow rfl
    obtain ⟨d, hd, hflow⟩ := h.source node flow target he
    obtain ⟨procNode, hproc, _⟩ := proc?_of_definition? hd
    refine ⟨Option.isSome_iff_exists.mpr ⟨procNode, hproc⟩, fun d' hd' => ?_⟩
    rwa [Option.some.inj (hd'.symm.trans hd)]
  · rintro node rfl
    exact h.node source node he
  · rintro flow rfl
    exact h.output source flow he

/-- One context sees the nodes as another does, but for definitions that are gone. -/
structure SameArena (c c' : Context) : Prop where
  catalog : c'.catalog = c.catalog
  arena : ∀ id, (c'.graph.proc? id).isSome ↔ (c.graph.proc? id).isSome
  definition : ∀ id d, c'.definition? id = some d → c.definition? id = some d

/-- One graph has the edges and the output flows of another, between the same nodes. -/
structure SameControl (c c' : Context) : Prop extends SameArena c c' where
  edges : c'.graph.edges = c.graph.edges
  outputs : c'.graph.outputFlows.keys = c.graph.outputFlows.keys

theorem duplicateProblems_eq_nil_of_apart (h : c.graph.edges.Pairwise Apart) :
    c.duplicateProblems = [] :=
  duplicateProblems_eq_nil_iff.mpr (h.filter _)

theorem controlProblems_eq_nil_iff :
    c.controlProblems = []
      ↔ (∀ id e, (id, e) ∈ c.graph.edgesWithIds → c.edgeProblems id e = []) ∧
        (∀ id node, c.graph.proc? id = some node →
          c.incomingProblems id node ++ c.outgoingProblems id node = []) ∧
        c.entryProblems = [] ∧ c.duplicateProblems = [] := by
  simp only [controlProblems, List.append_eq_nil_iff, List.flatMap_eq_nil_iff, Prod.forall,
    Graph.mem_procsWithIds, and_assoc]

theorem SameControl.controlProblems_eq_nil (h : SameControl c c') (hc : c.Controlled) :
    c'.controlProblems = [] := by
  rw [controlProblems_eq_nil_iff]
  refine ⟨?_, ?_, ?_, ?_⟩
  · rintro id ⟨source, target⟩ hmem
    have hedge : ⟨source, target⟩ ∈ c.graph.edges :=
      h.edges ▸ c'.graph.exists_mem_edgesWithIds.mp ⟨id, hmem⟩
    have hold := edgeProblems_eq_nil_of_anchored hc.edges hedge id
    rw [edgeProblems_mk_eq_nil_iff] at hold ⊢
    obtain ⟨hstart, hnode, hout⟩ := hold
    refine ⟨fun node flow hsource => ?_, fun node htarget => ?_, fun flow htarget => ?_⟩
    · obtain ⟨hsome, hflow⟩ := hstart node flow hsource
      exact ⟨(h.arena node).mpr hsome, fun d hd => hflow d (h.definition node d hd)⟩
    · exact (h.arena node).mpr (hnode node htarget)
    · rw [h.outputs]
      exact hout flow htarget
  · intro id node hnode
    have hid : id ∈ c.graph.procIds :=
      c.graph.mem_procIds.mpr ((h.arena id).mp (Option.isSome_iff_exists.mpr ⟨node, hnode⟩))
    rw [List.append_eq_nil_iff, incomingProblems_eq_nil_iff, outgoingProblems_eq_nil_iff, h.edges]
    exact ⟨hc.control.incoming id hid, hc.control.outgoing id hid,
      fun d hd => Or.inr (hc.control.flow id d (h.definition id d hd))⟩
  · rw [entryProblems_eq_nil_iff, h.edges]
    exact fun _ => hc.exists_entry_edge
  · apply duplicateProblems_eq_nil_of_apart
    rw [h.edges]
    exact hc.control.apart


/-! ### Cycles -/

theorem LeadsTo.iff_readsAt {u v : ProcId} :
    c.LeadsTo u v ↔ c.Precedes u v ∨ ((c.graph.proc? u).isSome ∧ ∃ flow, c.ReadsAt v u flow) := by
  apply or_congr_right
  refine ⟨?_, ?_⟩
  · intro hleft
    obtain ⟨hu, node, hnode, slot, symbol, flow, hmem, horigin⟩ := hleft
    exact ⟨hu, flow, node, slot, symbol, hnode, hmem, horigin⟩
  · intro hright
    obtain ⟨hu, flow, node, slot, symbol, hnode, hmem, horigin⟩ := hright
    exact ⟨hu, node, hnode, slot, symbol, flow, hmem, horigin⟩

theorem Acyclic.of_leadsTo (h : c.Acyclic) (hlead : ∀ u v, c'.LeadsTo u v → c.LeadsTo u v) :
    c'.Acyclic :=
  fun id hcycle => h id (TransGen.mono hlead _ _ hcycle)

/-- A thing that leads to itself is the only one on a cycle, if all else was free of cycles. -/
theorem transGen_self_iff_of_loop {α : Type} {r r' : α → α → Prop} {p : α}
    (hacyclic : ∀ a, ¬ TransGen r a a) (hloop : r' p p)
    (hstep : ∀ a b, r' a b → r a b ∨ (a = p ∧ b = p)) (a : α) : TransGen r' a a ↔ a = p := by
  -- A path of the new relation is one of the old, or comes by the loop.
  have hsplit : ∀ b, TransGen r' a b →
      TransGen r a b ∨ (Relation.ReflTransGen r a p ∧ Relation.ReflTransGen r p b) := by
    intro b hpath
    induction hpath with
    | single hab =>
        rcases hstep _ _ hab with hold | ⟨rfl, rfl⟩
        · exact Or.inl (.single hold)
        · exact Or.inr ⟨.refl, .refl⟩
    | tail _ hbc ih =>
        rcases hstep _ _ hbc with hold | ⟨rfl, rfl⟩
        · rcases ih with ih | ⟨hap, hpb⟩
          · exact Or.inl (ih.tail hold)
          · exact Or.inr ⟨hap, hpb.tail hold⟩
        · rcases ih with ih | ⟨hap, _⟩
          · exact Or.inr ⟨ih.to_reflTransGen, .refl⟩
          · exact Or.inr ⟨hap, .refl⟩
  refine ⟨?_, fun heq => heq ▸ .single hloop⟩
  intro hcycle
  rcases hsplit a hcycle with hold | ⟨hap, hpa⟩
  · exact absurd hold (hacyclic a)
  · rcases Relation.reflTransGen_iff_eq_or_transGen.mp hap with heq | hap
    · exact heq.symm
    · exact absurd (hap.trans_left hpa) (hacyclic a)


/-! ### Data -/

theorem dataProblems_eq_nil (htypes : c.TypesKnown) (hslots : c.SlotsMatch) (hsymbols : c.SymbolsFit) :
    c.dataProblems = [] := by
  simp only [dataProblems, List.append_eq_nil_iff, List.flatMap_eq_nil_iff, Prod.forall,
    Graph.mem_procsWithIds]
  refine ⟨⟨inputProblems_eq_nil_iff.mpr htypes.input, ?_⟩, ?_⟩
  · exact (nodeProblems_eq_nil_iff htypes).mpr ⟨hslots, hsymbols.binding⟩
  · intro flow id value hmem
    exact (outputProblems_eq_nil_iff_denotes htypes (htypes.output flow id value hmem)).mpr
      (hsymbols.output flow id value hmem)

end ProcFlow.Context
