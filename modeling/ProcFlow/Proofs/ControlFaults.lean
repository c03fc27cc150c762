import ProcFlow.Proofs.Cycles
import ProcFlow.Proofs.Replacement
import ProcFlow.Proofs.Unfolding
/-!
# Faults in the control of a graph

One control edge of a valid graph is taken away, led astray or added, or a node is made to read its own
result. An edge that is gone is missed where it was, and by nobody else. An edge with a wrong name is
reported as that and counts as an edge otherwise, so that nothing behind it is missed; and since no
control path goes through it, nothing behind it is out of scope. A node that leads to itself is the only
one on a cycle.
-/

namespace ProcFlow

open Diagnostic (Kind Subject)
open Relation (TransGen)

theorem Source.node_eq_proc_iff {s : Source} {id : ProcId} :
    s.node = .proc id ↔ ∃ flow, s = .proc id flow := by
  cases s <;> simp [Source.node]

theorem Source.node_eq_entry_iff {s : Source} : s.node = .entry ↔ s = .entry := by
  cases s <;> simp [Source.node]

theorem Target.node_eq_proc_iff {t : Target} {id : ProcId} : t.node = .proc id ↔ t = .proc id := by
  cases t <;> simp [Target.node]

namespace Graph

variable (g : Graph)

theorem nodup_edgesWithIds : g.edgesWithIds.Nodup := by
  apply List.Nodup.of_map fun entry => entry.1.index
  rw [edgesWithIds, List.map_map]
  have hindices : (g.edges.zipIdx.map Prod.snd).Nodup := by
    rw [List.zipIdx_map_snd, ← List.range_eq_range']
    exact List.nodup_range
  exact hindices

theorem flatMap_edgesWithIds_eq_nil {α : Type} {f : EdgeId × Edge → List α}
    (hsilent : ∀ id, ∀ x ∈ g.edges, f (id, x) = []) : g.edgesWithIds.flatMap f = [] := by
  rw [List.flatMap_eq_nil_iff]
  rintro ⟨id, x⟩ hmem
  exact hsilent id x (g.exists_mem_edgesWithIds.mp ⟨id, hmem⟩)

/-- If only one edge has something to say, it is all that is said about the edges. -/
theorem flatMap_edgesWithIds {α : Type} {f : EdgeId × Edge → List α} {before after : List Edge}
    {e : Edge} (hedges : g.edges = before ++ e :: after)
    (hsilent : ∀ id, ∀ x ∈ before ++ after, f (id, x) = []) :
    g.edgesWithIds.flatMap f = f (⟨before.length⟩, e) := by
  have hplace : (⟨before.length⟩, e) ∈ g.edgesWithIds := by
    rw [mem_edgesWithIds, hedges, List.getElem?_append_right (Nat.le_refl _), Nat.sub_self]
    rfl
  apply flatMap_eq_of_unique g.nodup_edgesWithIds hplace
  rintro ⟨⟨i⟩, x⟩ hmem hne
  apply hsilent
  rw [mem_edgesWithIds, hedges, List.getElem?_append] at hmem
  rw [List.mem_append]
  split at hmem
  · exact Or.inl (List.mem_of_getElem? hmem)
  · next hle =>
    rcases hi : i - before.length with _ | k
    · -- This is the place of the edge itself.
      rw [hi, List.getElem?_cons_zero, Option.some.injEq] at hmem
      have heq : i = before.length := Nat.le_antisymm (Nat.sub_eq_zero_iff_le.mp hi) (not_lt.mp hle)
      exact absurd (by rw [heq, hmem]) hne
    · rw [hi, List.getElem?_cons_succ] at hmem
      exact Or.inr (List.mem_of_getElem? hmem)

end Graph


namespace Context

/-- The same nodes with other control edges. -/
def withEdges (c : Context) (edges : List Edge) : Context := c.withGraph { c.graph with edges }

theorem edges_withEdges (c : Context) (edges : List Edge) : (c.withEdges edges).graph.edges = edges := rfl

variable {c : Context} {edges before after : List Edge} {e e' : Edge}


/-! ### Only the edges have changed -/

theorem edgeProblems_withEdges (hc : c.WellFormed) (he : e ∈ c.graph.edges) (id : EdgeId) :
    (c.withEdges edges).edgeProblems id e = [] :=
  edgeProblems_eq_nil_of_anchored hc.edges he id

theorem leadsTo_withEdges_iff {u v : ProcId} :
    (c.withEdges edges).LeadsTo u v ↔
      ((c.graph.proc? u).isSome ∧ (c.graph.proc? v).isSome ∧
        ∃ flow, ⟨.proc u flow, .proc v⟩ ∈ edges) ∨ c.Feeds u v :=
  Iff.rfl

theorem acyclic_withEdges (hc : c.WellFormed)
    (hedges : ∀ u flow v, ⟨.proc u flow, .proc v⟩ ∈ edges →
      ∃ label, ⟨.proc u label, .proc v⟩ ∈ c.graph.edges) : (c.withEdges edges).Acyclic := by
  apply hc.acyclic.of_leadsTo
  intro u v hlead
  rcases leadsTo_withEdges_iff.mp hlead with ⟨hu, hv, flow, hedge⟩ | hfeeds
  · exact Or.inl ⟨hu, hv, hedges u flow v hedge⟩
  · exact Or.inr hfeeds

/-- Other edges have no say in the data. -/
theorem diagnostics_withEdges (hc : c.WellFormed) :
    (c.withEdges edges).diagnostics
      = (c.withEdges edges).controlProblems ++ (c.withEdges edges).cycleProblems
          (c.withEdges edges).cycles ++ (c.withEdges edges).scopeProblems (c.withEdges edges).cycles := by
  have hold : c.dataProblems = [] := dataProblems_eq_nil hc.types hc.slots hc.symbols
  have hdata : (c.withEdges edges).dataProblems = [] := hold
  rw [diagnostics_eq_append, hdata, List.nil_append]

/-- Scope keeps silent as long as the ways back are ways of the graph before. -/
theorem scopeProblems_withEdges (hc : c.WellFormed)
    (hnode : ∀ id walk, ¬ TransGen (c.withEdges edges).LeadsTo id id →
      Walk (c.withEdges edges).graph walk (.proc id) → c.Retraceable walk →
        ∀ e ∈ walk, e ∈ c.graph.edges)
    (houtput : ∀ out walk, out ∈ c.graph.outputFlows.keys →
      Walk (c.withEdges edges).graph walk (.output out) → c.Retraceable walk →
        ∀ e ∈ walk, e ∈ c.graph.edges) :
    (c.withEdges edges).scopeProblems (c.withEdges edges).cycles = [] := by
  refine scopeProblems_eq_nil_of_inScope hc.scope ?_ ?_ ?_ ?_
  · exact fun _ _ _ _ hread => hread
  · exact fun _ _ _ hread => hread
  · exact fun id walk hcycle hwalk hback => hnode id walk hcycle hwalk ⟨hback.nodup, hback.declared⟩
  · exact fun out walk hout hwalk hback => houtput out walk hout hwalk ⟨hback.nodup, hback.declared⟩


/-! ### An edge that is gone -/

/-- Where an edge leads from the entry to an output flow, there are no nodes. -/
theorem Controlled.procs_eq_nil_of_entry_output (h : c.Controlled) {flow : String}
    (hedge : ⟨.entry, .output flow⟩ ∈ c.graph.edges) : c.graph.procs = [] := by
  rw [← List.length_eq_zero_iff, ← Graph.length_procIds, List.length_eq_zero_iff,
    List.eq_nil_iff_forall_not_mem]
  intro id hid
  obtain ⟨walk, hwalk⟩ := h.exists_walk hid
  obtain ⟨first, rest, rfl, hfirst⟩ := hwalk.exists_cons
  obtain rfl := h.target_unique hedge hfirst
  rcases hwalk.target_eq_or_exists_next List.mem_cons_self with htarget | ⟨_, _, _, _, _, _, htarget, _⟩
  · cases htarget
  · cases htarget

theorem sublist_of_removed (hedges : c.graph.edges = before ++ e :: after) :
    (before ++ after).Sublist c.graph.edges := by
  rw [hedges]
  exact List.Sublist.append_left (List.sublist_cons_self _ _) _

section Remove

variable (hc : c.WellFormed) (hedges : c.graph.edges = before ++ e :: after)
include hc hedges

/-- What is left are complaints about edges that are missing. -/
theorem diagnostics_removed :
    (c.withEdges (before ++ after)).diagnostics
      = c.graph.procsWithIds.flatMap (fun (id, node) =>
          (c.withEdges (before ++ after)).incomingProblems id node
            ++ (c.withEdges (before ++ after)).outgoingProblems id node)
        ++ (c.withEdges (before ++ after)).entryProblems := by
  have hsublist := sublist_of_removed hedges
  have hduplicate : (c.withEdges (before ++ after)).duplicateProblems = [] :=
    duplicateProblems_eq_nil_of_apart (hc.control.apart.sublist hsublist)
  have hcycles := cycleProblems_eq_nil_iff.mpr
    (acyclic_withEdges hc fun u flow v hmem => ⟨flow, hsublist.subset hmem⟩)
  have hscope : (c.withEdges (before ++ after)).scopeProblems (c.withEdges (before ++ after)).cycles
      = [] := by
    apply scopeProblems_withEdges hc
    · exact fun id walk _ hwalk _ x hx => hsublist.subset (hwalk.mem_edges x hx)
    · exact fun out walk _ hwalk _ x hx => hsublist.subset (hwalk.mem_edges x hx)
  rw [diagnostics_withEdges hc, controlProblems, Graph.flatMap_edgesWithIds_eq_nil, hduplicate, hcycles,
    hscope, List.nil_append, List.append_nil, List.append_nil, List.append_nil]
  · rfl
  · exact fun id x hx => edgeProblems_withEdges hc (hsublist.subset hx) id

theorem kind_of_mem_diagnostics_removed {d : Diagnostic}
    (hd : d ∈ (c.withEdges (before ++ after)).diagnostics) : d.kind = .missingControlEdge := by
  rw [diagnostics_removed hc hedges, List.mem_append, List.mem_flatMap] at hd
  rcases hd with ⟨⟨id, node⟩, _, hd⟩ | hd
  · rcases List.mem_append.mp hd with hd | hd
    · exact kind_of_mem_incomingProblems hd
    · exact kind_of_mem_outgoingProblems hd
  · exact kind_of_mem_entryProblems hd

/-- The edge that is gone was the only one out of its source and into its node. -/
theorem apart_of_removed {x : Edge} (hx : x ∈ before ++ after) : Apart e x := by
  have hapart := hc.control.apart
  rw [hedges, List.pairwise_middle fun h => symm h, List.pairwise_cons] at hapart
  exact hapart.1 x hx

theorem diagnostics_removed_ne_nil : (c.withEdges (before ++ after)).diagnostics ≠ [] := by
  intro hnil
  rw [diagnostics_removed hc hedges, List.append_eq_nil_iff, List.flatMap_eq_nil_iff] at hnil
  obtain ⟨hnodes, hentry⟩ := hnil
  have hmem : e ∈ c.graph.edges := hedges ▸ List.mem_append_right _ List.mem_cons_self
  have hapart : ∀ x ∈ before ++ after, Apart e x := fun _ => apart_of_removed hc hedges
  obtain ⟨source, target⟩ := e
  rcases source with _ | ⟨p, flow⟩
  · rcases target with q | out
    · -- The node behind the edge is not entered any more.
      obtain ⟨node, hnode⟩ := Option.isSome_iff_exists.mp (hc.edges.node .entry q hmem)
      have hsilent := hnodes (q, node) (c.graph.mem_procsWithIds.mpr hnode)
      rw [List.append_eq_nil_iff, incomingProblems_eq_nil_iff] at hsilent
      obtain ⟨source, hedge⟩ := hsilent.1
      exact (hapart _ hedge).2 q rfl rfl
    · obtain ⟨target, hedge⟩ := entryProblems_eq_nil_iff.mp hentry
        (hc.controlled.procs_eq_nil_of_entry_output hmem)
      exact (hapart _ hedge).1 rfl
  · -- The flow before the edge goes nowhere any more, and no edge excuses it by a wrong name.
    obtain ⟨d, hd, hflow⟩ := hc.edges.source p flow target hmem
    obtain ⟨node, hnode, _⟩ := proc?_of_definition? hd
    have hsilent := hnodes (p, node) (c.graph.mem_procsWithIds.mpr hnode)
    rw [List.append_eq_nil_iff, outgoingProblems_eq_nil_iff] at hsilent
    rcases hsilent.2.2 d hd with ⟨label, hlabel, target', hedge⟩ | hflows
    · obtain ⟨d', hd', hdeclared⟩ := hc.edges.source p label target'
        ((sublist_of_removed hedges).subset hedge)
      obtain rfl := Option.some.inj (hd.symm.trans hd')
      exact hlabel hdeclared
    · obtain ⟨target', hedge⟩ := hflows flow hflow
      exact (hapart _ hedge).1 rfl

end Remove

theorem exists_removeEdge {id : EdgeId} (hid : id.index < c.graph.edges.length) :
    ∃ before e after, c.graph.edges = before ++ e :: after ∧
      c.withGraph (c.graph.removeEdge id) = c.withEdges (before ++ after) := by
  refine ⟨c.graph.edges.take id.index, c.graph.edges[id.index], c.graph.edges.drop (id.index + 1), ?_, ?_⟩
  · rw [← List.drop_eq_getElem_cons hid, List.take_append_drop]
  · rw [Graph.removeEdge, withEdges, List.eraseIdx_eq_take_drop_succ]


/-! ### A node that leads to itself -/

/-- If one node is on a cycle, it is reported for that. -/
theorem finding_cycleProblems {p : ProcId} (hp : (c.graph.proc? p).isSome)
    (hcycle : ∀ id, TransGen c.LeadsTo id id ↔ id = p) :
    (c.cycleProblems c.cycles).map Diagnostic.finding = [(.cyclicDependency, .proc p)] := by
  have hkind : ∀ d ∈ c.cycleProblems c.cycles, d.finding = (.cyclicDependency, d.subject) := by
    intro d hd
    rw [Diagnostic.finding, kind_of_mem_cycleProblems hd]
  have honly : c.graph.procIds.filter c.isOnCycle = [p] := by
    have hiff : ∀ id ∈ c.graph.procIds, c.isOnCycle id = (id == p) := by
      intro id _
      rw [Bool.eq_iff_iff, beq_iff_eq, ← hcycle id]
      exact c.cycleOf?_isSome_iff id
    rw [List.filter_congr hiff, List.filter_beq, List.count_eq_one_of_mem, List.replicate_one]
    · exact c.graph.nodup_procIds
    · exact c.graph.mem_procIds.mpr hp
  calc (c.cycleProblems c.cycles).map Diagnostic.finding
      = ((c.cycleProblems c.cycles).map Diagnostic.subject).map fun subject =>
          (Kind.cyclicDependency, subject) := by rw [List.map_map]; exact List.map_congr_left hkind
    _ = [(.cyclicDependency, .proc p)] := by rw [subject_cycleProblems, honly]; rfl

/-- A walk that can be walked back has no use for an edge from a node to itself, unless it ends there. -/
theorem Retraceable.ne_loop {g : Graph} {walk : List Edge} {target : Target} {p : ProcId} {flow : String}
    (h : c.Retraceable walk) (hwalk : Walk g walk target) (htarget : target ≠ .proc p) :
    ⟨.proc p flow, .proc p⟩ ∉ walk := by
  intro hmem
  rcases hwalk.target_eq_or_exists_next hmem with heq | ⟨pre, rest, next, node, label, rfl, hnode, hnext⟩
  · exact htarget heq.symm
  · -- The next edge would leave the node a second time.
    cases hnode
    have hnodup := h.nodup
    simp only [passedFlows, List.filterMap_append, List.filterMap_cons, Edge.flow?, hnext, List.map_append,
      List.map_cons] at hnodup
    exact absurd hnodup (by simp [List.nodup_append])

section SelfEdge

variable {p : ProcId} {d : Definition} {flow : String} (hc : c.WellFormed)
  (hedges : c.graph.edges = before ++ after) (hd : c.definition? p = some d)
  (hflow : flow ∈ d.flowNames)
include hedges

theorem mem_selfEdge_iff {x : Edge} :
    x ∈ before ++ ⟨.proc p flow, .proc p⟩ :: after
      ↔ x = ⟨.proc p flow, .proc p⟩ ∨ x ∈ c.graph.edges := by
  rw [hedges, List.mem_append, List.mem_cons, List.mem_append, or_left_comm]

include hc hd

theorem transGen_selfEdge_iff (id : ProcId) :
    TransGen (c.withEdges (before ++ ⟨.proc p flow, .proc p⟩ :: after)).LeadsTo id id ↔ id = p := by
  obtain ⟨node, hnode, _⟩ := proc?_of_definition? hd
  have hp : (c.graph.proc? p).isSome := Option.isSome_iff_exists.mpr ⟨node, hnode⟩
  apply transGen_self_iff_of_loop hc.acyclic
  · exact Or.inl ⟨hp, hp, flow, (mem_selfEdge_iff hedges).mpr (Or.inl rfl)⟩
  · intro u v hlead
    rcases leadsTo_withEdges_iff.mp hlead with ⟨hu, hv, label, hedge⟩ | hfeeds
    · rcases (mem_selfEdge_iff hedges).mp hedge with heq | hedge
      · simp only [Edge.mk.injEq, Source.proc.injEq, Target.proc.injEq] at heq
        exact Or.inr ⟨heq.1.1, heq.2⟩
      · exact Or.inl (Or.inl ⟨hu, hv, label, hedge⟩)
    · exact Or.inl (Or.inr hfeeds)

include hflow

/-- The edge is well anchored, and an edge from a node to itself is not held against others. -/
theorem controlProblems_selfEdge :
    (c.withEdges (before ++ ⟨.proc p flow, .proc p⟩ :: after)).controlProblems = [] := by
  obtain ⟨node, hnode, _⟩ := proc?_of_definition? hd
  have hp : (c.graph.proc? p).isSome := Option.isSome_iff_exists.mpr ⟨node, hnode⟩
  have hmem : ∀ x ∈ c.graph.edges, x ∈ before ++ ⟨.proc p flow, .proc p⟩ :: after :=
    fun x hx => (mem_selfEdge_iff hedges).mpr (Or.inr hx)
  rw [controlProblems_eq_nil_iff]
  refine ⟨?_, ?_, ?_, ?_⟩
  · intro id x hx
    rcases (mem_selfEdge_iff hedges).mp ((Graph.exists_mem_edgesWithIds _).mp ⟨id, hx⟩) with rfl | hold
    · rw [edgeProblems_mk_eq_nil_iff]
      refine ⟨?_, ?_, ?_⟩
      · rintro _ _ ⟨rfl, rfl⟩
        refine ⟨hp, fun d' hd' => ?_⟩
        rwa [← Option.some.inj (hd.symm.trans hd')]
      · rintro _ ⟨rfl⟩
        exact hp
      · intro _ htarget
        cases htarget
    · exact edgeProblems_withEdges hc hold id
  · intro id other hother
    have hid : id ∈ c.graph.procIds :=
      c.graph.mem_procIds.mpr (Option.isSome_iff_exists.mpr ⟨other, hother⟩)
    obtain ⟨source, hsource⟩ := hc.control.incoming id hid
    obtain ⟨label, target, hout⟩ := hc.control.outgoing id hid
    rw [List.append_eq_nil_iff, incomingProblems_eq_nil_iff, outgoingProblems_eq_nil_iff]
    refine ⟨⟨source, hmem _ hsource⟩, ⟨label, target, hmem _ hout⟩, fun d' hd' => Or.inr ?_⟩
    intro label hlabel
    obtain ⟨target, hedge⟩ := hc.control.flow id d' hd' label hlabel
    exact ⟨target, hmem _ hedge⟩
  · rw [entryProblems_eq_nil_iff]
    intro _
    obtain ⟨target, hedge⟩ := hc.controlled.exists_entry_edge
    exact ⟨target, hmem _ hedge⟩
  · have hunwired : ¬ (c.withEdges (before ++ ⟨.proc p flow, .proc p⟩ :: after)).isWired
        ⟨.proc p flow, .proc p⟩ := by simp [isWired]
    rw [duplicateProblems_eq_nil_iff, edges_withEdges, List.filter_append,
      List.filter_cons_of_neg hunwired, ← List.filter_append, ← hedges]
    exact hc.control.apart.filter _

theorem findings_selfEdge :
    (c.withEdges (before ++ ⟨.proc p flow, .proc p⟩ :: after)).findings
      = [(.cyclicDependency, .proc p)] := by
  have hcycle : ∀ id, TransGen (c.withEdges (before ++ ⟨.proc p flow, .proc p⟩ :: after)).LeadsTo id id
      ↔ id = p := transGen_selfEdge_iff hc hedges hd
  have hscope : (c.withEdges (before ++ ⟨.proc p flow, .proc p⟩ :: after)).scopeProblems
      (c.withEdges (before ++ ⟨.proc p flow, .proc p⟩ :: after)).cycles = [] := by
    have hold : ∀ walk target, Walk (c.withEdges (before ++ ⟨.proc p flow, .proc p⟩ :: after)).graph
        walk target → c.Retraceable walk → target ≠ .proc p → ∀ x ∈ walk, x ∈ c.graph.edges := by
      intro walk target hwalk hback htarget x hx
      rcases (mem_selfEdge_iff hedges).mp (hwalk.mem_edges x hx) with rfl | hmem
      · exact absurd hx (hback.ne_loop hwalk htarget)
      · exact hmem
    apply scopeProblems_withEdges hc
    · intro id walk hid hwalk hback
      exact hold walk _ hwalk hback fun heq => hid ((hcycle id).mpr (Target.proc.inj heq))
    · exact fun out walk _ hwalk hback => hold walk _ hwalk hback (by simp)
  obtain ⟨node, hnode, _⟩ := proc?_of_definition? hd
  rw [findings, diagnostics_withEdges hc, controlProblems_selfEdge hc hedges hd hflow, hscope,
    List.nil_append, List.append_nil]
  exact finding_cycleProblems (Option.isSome_iff_exists.mpr ⟨node, hnode⟩) hcycle

end SelfEdge

section OwnValue

variable {p : ProcId} {node : ProcNode} {slot flow id : String} (hc : c.WellFormed)
  (hnode : c.graph.proc? p = some node)
include hc hnode

/-- The only thing that a node comes to depend on is itself. -/
theorem transGen_bind_own_iff (q : ProcId) :
    TransGen (c.withGraph (c.graph.bind p slot ⟨.proc p flow, id⟩)).LeadsTo q q ↔ q = p := by
  have hswap := Graph.swaps_bind hnode slot ⟨.proc p flow, id⟩
  have hsame := sameControl_of_swaps hswap hnode fun d hd => hd
  have hnode' := (hswap.proc? p).trans (if_pos rfl)
  apply transGen_self_iff_of_loop hc.acyclic
  · rw [LeadsTo.iff_readsAt]
    refine Or.inr ⟨?_, flow, _, slot, ⟨.proc p flow, id⟩, hnode', ?_, rfl⟩
    · exact Option.isSome_iff_exists.mpr ⟨_, hnode'⟩
    · exact (Table.mem_entries_insert _).mpr (Or.inl ⟨rfl, rfl⟩)
  · intro u v hlead
    rw [LeadsTo.iff_readsAt] at hlead ⊢
    rcases hlead with ⟨hu, hv, label, hedge⟩ | ⟨hu, label, hread⟩
    · exact Or.inl (Or.inl ⟨(hsame.arena u).mp hu, (hsame.arena v).mp hv, label, hedge⟩)
    · by_cases hv : v = p
      · subst hv
        obtain ⟨other, name, symbol, hother, hmem, horigin⟩ := hread
        obtain rfl := Option.some.inj (hnode'.symm.trans hother)
        rcases (Table.mem_entries_insert _).mp hmem with ⟨_, rfl⟩ | ⟨_, hold⟩
        · exact Or.inr ⟨(Source.proc.inj horigin).1.symm, rfl⟩
        · exact Or.inl (Or.inr ⟨(hsame.arena u).mp hu, label, node, name, symbol, hnode, hold, horigin⟩)
      · exact Or.inl (Or.inr ⟨(hsame.arena u).mp hu, label, readsAt_of_swaps_ne hswap hv hread⟩)

theorem findings_bind_own {d : Definition} {expected : Slot} (hd : c.definition? p = some d)
    (hslot : d.input? slot = some expected) (hown : c.Denotes ⟨.proc p flow, id⟩ expected.type) :
    (c.withGraph (c.graph.bind p slot ⟨.proc p flow, id⟩)).findings
      = [(.cyclicDependency, .proc p)] := by
  have hswap := Graph.swaps_bind hnode slot ⟨.proc p flow, id⟩
  have hsame := sameControl_of_swaps hswap hnode fun d hd => hd
  have hcycle : ∀ q, TransGen (c.withGraph (c.graph.bind p slot ⟨.proc p flow, id⟩)).LeadsTo q q
      ↔ q = p := transGen_bind_own_iff hc hnode
  have hdata : (c.withGraph (c.graph.bind p slot ⟨.proc p flow, id⟩)).dataProblems = [] := by
    rw [dataProblems_of_swaps hswap hsame hc, nodeProblems_bind hc hnode]
    exact bindingProblems_eq_nil_of_legible (hsame.legible hswap.inputs hown)
      ((definition?_of_swaps_inputs hswap hnode p).trans hd) hslot
  have hscope : (c.withGraph (c.graph.bind p slot ⟨.proc p flow, id⟩)).scopeProblems
      (c.withGraph (c.graph.bind p slot ⟨.proc p flow, id⟩)).cycles = [] := by
    refine scopeProblems_eq_nil_of_inScope hc.scope ?_ ?_ ?_ ?_
    · -- The node itself is on a cycle and does not count.
      exact fun q origin label hq => readsAt_of_swaps_ne hswap (mt (hcycle q).mpr hq)
    · exact fun out origin label => readsOut_of_swaps hswap
    · exact fun q walk _ hwalk _ => hwalk.mem_edges
    · exact fun out walk _ hwalk _ => hwalk.mem_edges
  rw [findings, diagnostics_eq_append, hdata, hsame.controlProblems_eq_nil hc.controlled, hscope,
    List.append_nil, List.nil_append, List.nil_append]
  apply finding_cycleProblems _ hcycle
  exact (hsame.arena p).mpr (Option.isSome_iff_exists.mpr ⟨node, hnode⟩)

end OwnValue


/-! ### An edge with a wrong name -/

/-- Two edges run between the same nodes, whatever the flows are called. -/
def Parallel (e e' : Edge) : Prop :=
  e.source.node = e'.source.node ∧ e.target.node = e'.target.node

/-- With one edge in the place of another between the same nodes, there is an edge between nodes where
there was one before. -/
theorem exists_parallel (hparallel : Parallel e e') {x : Edge} (hx : x ∈ before ++ e :: after) :
    ∃ x' ∈ before ++ e' :: after, Parallel x x' := by
  rcases List.mem_append.mp hx with hx | hx
  · exact ⟨x, List.mem_append_left _ hx, rfl, rfl⟩
  · rcases List.mem_cons.mp hx with rfl | hx
    · exact ⟨e', List.mem_append_right _ List.mem_cons_self, hparallel⟩
    · exact ⟨x, List.mem_append_right _ (List.mem_cons_of_mem _ hx), rfl, rfl⟩

section Replace

variable (hc : c.WellFormed) (hedges : c.graph.edges = before ++ e :: after) (hparallel : Parallel e e')
include hc hedges hparallel

theorem acyclic_replaced : (c.withEdges (before ++ e' :: after)).Acyclic := by
  apply acyclic_withEdges hc
  intro u flow v hedge
  obtain ⟨⟨source, target⟩, hx, hsource, htarget⟩ :=
    exists_parallel ⟨hparallel.1.symm, hparallel.2.symm⟩ hedge
  obtain ⟨label, rfl⟩ := Source.node_eq_proc_iff.mp hsource.symm
  obtain rfl := Target.node_eq_proc_iff.mp htarget.symm
  exact ⟨label, hedges ▸ hx⟩

/-- No node is missed, and no flow if the flows of each node go on or one of its edges goes by a wrong
name. -/
theorem nodeProblems_replaced
    (hflows : ∀ id d, c.definition? id = some d →
      (∃ flow ∉ d.flowNames, ∃ target, ⟨.proc id flow, target⟩ ∈ before ++ e' :: after) ∨
        ∀ flow ∈ d.flowNames, ∃ target, ⟨.proc id flow, target⟩ ∈ before ++ e' :: after) :
    (c.withEdges (before ++ e' :: after)).graph.procsWithIds.flatMap (fun (id, node) =>
      (c.withEdges (before ++ e' :: after)).incomingProblems id node
        ++ (c.withEdges (before ++ e' :: after)).outgoingProblems id node) = [] := by
  rw [List.flatMap_eq_nil_iff]
  rintro ⟨id, node⟩ hnode
  have hid : id ∈ c.graph.procIds := by
    rw [Graph.mem_procIds]
    exact Option.isSome_iff_exists.mpr ⟨node, (Graph.mem_procsWithIds _).mp hnode⟩
  rw [List.append_eq_nil_iff, incomingProblems_eq_nil_iff, outgoingProblems_eq_nil_iff]
  obtain ⟨source, hin⟩ := hc.control.incoming id hid
  obtain ⟨⟨source', target'⟩, hin', _, htarget⟩ := exists_parallel hparallel (hedges ▸ hin)
  obtain rfl := Target.node_eq_proc_iff.mp htarget.symm
  obtain ⟨flow, target, hout⟩ := hc.control.outgoing id hid
  obtain ⟨⟨source'', target''⟩, hout', hleave, _⟩ := exists_parallel hparallel (hedges ▸ hout)
  obtain ⟨flow', rfl⟩ := Source.node_eq_proc_iff.mp hleave.symm
  exact ⟨⟨source', hin'⟩, ⟨flow', target'', hout'⟩, hflows id⟩

/-- All that can be wrong with the edges is wrong with the new one. -/
theorem controlProblems_replaced
    (hflows : ∀ id d, c.definition? id = some d →
      (∃ flow ∉ d.flowNames, ∃ target, ⟨.proc id flow, target⟩ ∈ before ++ e' :: after) ∨
        ∀ flow ∈ d.flowNames, ∃ target, ⟨.proc id flow, target⟩ ∈ before ++ e' :: after)
    (hsource : ∀ x ∈ before ++ after, e'.source ≠ x.source) :
    (c.withEdges (before ++ e' :: after)).controlProblems
      = (c.withEdges (before ++ e' :: after)).edgeProblems ⟨before.length⟩ e' := by
  have hentry : (c.withEdges (before ++ e' :: after)).entryProblems = [] := by
    rw [entryProblems_eq_nil_iff]
    intro _
    obtain ⟨target, hfirst⟩ := hc.controlled.exists_entry_edge
    obtain ⟨⟨source, target'⟩, hfirst', hleave, _⟩ := exists_parallel hparallel (hedges ▸ hfirst)
    obtain rfl := Source.node_eq_entry_iff.mp hleave.symm
    exact ⟨target', hfirst'⟩
  have hduplicate : (c.withEdges (before ++ e' :: after)).duplicateProblems = [] := by
    apply duplicateProblems_eq_nil_of_apart
    have hapart := hc.control.apart
    rw [hedges, List.pairwise_middle fun h => symm h, List.pairwise_cons] at hapart
    rw [edges_withEdges, List.pairwise_middle fun h => symm h, List.pairwise_cons]
    refine ⟨fun x hx => ⟨hsource x hx, fun node htarget => ?_⟩, hapart.2⟩
    apply (hapart.1 x hx).2 node
    exact Target.node_eq_proc_iff.mp (hparallel.2.trans (Target.node_eq_proc_iff.mpr htarget))
  rw [controlProblems, Graph.flatMap_edgesWithIds _ (edges_withEdges c _), hentry, hduplicate,
    nodeProblems_replaced hc hedges hparallel hflows, List.append_nil, List.append_nil, List.append_nil]
  exact fun id x hx => edgeProblems_withEdges hc ((sublist_of_removed hedges).subset hx) id

/-- All findings are about the new edge if no control path goes through it. -/
theorem findings_replaced
    (hflows : ∀ id d, c.definition? id = some d →
      (∃ flow ∉ d.flowNames, ∃ target, ⟨.proc id flow, target⟩ ∈ before ++ e' :: after) ∨
        ∀ flow ∈ d.flowNames, ∃ target, ⟨.proc id flow, target⟩ ∈ before ++ e' :: after)
    (hsource : ∀ x ∈ before ++ after, e'.source ≠ x.source)
    (hpath : ∀ walk target, Walk (c.withEdges (before ++ e' :: after)).graph walk target →
      c.Retraceable walk → (∀ out, target = .output out → out ∈ c.graph.outputFlows.keys) →
        e' ∉ walk) :
    (c.withEdges (before ++ e' :: after)).findings
      = ((c.withEdges (before ++ e' :: after)).edgeProblems ⟨before.length⟩ e').map
          Diagnostic.finding := by
  have hcycles := cycleProblems_eq_nil_iff.mpr (acyclic_replaced hc hedges hparallel)
  have hold : ∀ walk target, Walk (c.withEdges (before ++ e' :: after)).graph walk target →
      c.Retraceable walk → (∀ out, target = .output out → out ∈ c.graph.outputFlows.keys) →
        ∀ x ∈ walk, x ∈ c.graph.edges := by
    intro walk target hwalk hback hout x hx
    have hne : x ≠ e' := fun heq => hpath walk target hwalk hback hout (heq ▸ hx)
    have hmem := hwalk.mem_edges x hx
    rw [edges_withEdges, List.mem_append, List.mem_cons] at hmem
    apply (sublist_of_removed hedges).subset
    rw [List.mem_append]
    exact hmem.imp_right fun hmem => hmem.resolve_left hne
  have hscope : (c.withEdges (before ++ e' :: after)).scopeProblems
      (c.withEdges (before ++ e' :: after)).cycles = [] := by
    apply scopeProblems_withEdges hc
    · exact fun id walk _ hwalk hback => hold walk _ hwalk hback (by simp)
    · rintro out walk hout hwalk hback
      refine hold walk _ hwalk hback ?_
      rintro _ ⟨rfl⟩
      exact hout
  rw [findings, diagnostics_withEdges hc, controlProblems_replaced hc hedges hparallel hflows hsource,
    hcycles, hscope, List.append_nil, List.append_nil]

end Replace

theorem findings_relabelled (hc : c.WellFormed) {p : ProcId} {d : Definition} {flow label : String}
    {target : Target} (hedges : c.graph.edges = before ++ ⟨.proc p flow, target⟩ :: after)
    (hd : c.definition? p = some d) (hlabel : label ∉ d.flowNames) :
    (c.withEdges (before ++ ⟨.proc p label, target⟩ :: after)).findings
      = [(.flowNameMismatch, .edge ⟨before.length⟩)] := by
  obtain ⟨node, hnode, _⟩ := proc?_of_definition? hd
  have hmem : ⟨.proc p flow, target⟩ ∈ c.graph.edges :=
    hedges ▸ List.mem_append_right _ List.mem_cons_self
  have hundeclared : ∀ d', c.definition? p = some d' → label ∉ d'.flowNames := by
    intro d' hd'
    rwa [← Option.some.inj (hd.symm.trans hd')]
  have hparallel : Parallel ⟨.proc p flow, target⟩ ⟨.proc p label, target⟩ := ⟨rfl, rfl⟩
  rw [findings_replaced hc hedges hparallel]
  · have hend := (edgeProblems_mk_eq_nil_iff.mp
      (edgeProblems_eq_nil_of_anchored hc.edges hmem ⟨before.length⟩)).2
    have hsilent : (c.withEdges (before ++ ⟨.proc p label, target⟩ :: after)).edgeEndProblems
        ⟨before.length⟩ ⟨.proc p label, target⟩ = [] := edgeEndProblems_eq_nil_iff.mpr hend
    have hnode' : (c.withEdges (before ++ ⟨.proc p label, target⟩ :: after)).graph.proc? p
        = some node := hnode
    have hd' : (c.withEdges (before ++ ⟨.proc p label, target⟩ :: after)).definition? p = some d := hd
    have hnone : (d.flow? label).isSome = false :=
      Bool.eq_false_iff.mpr (mt Definition.flow?_isSome_iff.mp hlabel)
    simp [edgeProblems, hsilent, edgeStartProblems, hnode', hd', hnone, Diagnostic.finding]
  · intro id d' hd'
    by_cases hid : id = p
    · subst hid
      exact Or.inl ⟨label, hundeclared d' hd', target, List.mem_append_right _ List.mem_cons_self⟩
    · refine Or.inr fun other hother => ?_
      obtain ⟨target', hedge⟩ := hc.control.flow id d' hd' other hother
      rw [hedges, List.mem_append, List.mem_cons] at hedge
      refine ⟨target', List.mem_append.mpr (hedge.imp_right fun hedge => List.mem_cons_of_mem _ ?_)⟩
      exact hedge.resolve_left fun heq => hid (Source.proc.inj (Edge.mk.inj heq).1).1
  · rintro ⟨source, target'⟩ hx rfl
    obtain ⟨d', hd', hdeclared⟩ := hc.edges.source p label target'
      ((sublist_of_removed hedges).subset hx)
    exact hundeclared d' hd' hdeclared
  · intro walk _ _ hback _ hwalk
    obtain ⟨d', hd', hdeclared⟩ := hback.declared p label (Walk.mem_passedFlows_of_mem hwalk rfl)
    exact hundeclared d' hd' hdeclared

theorem findings_redirected (hc : c.WellFormed) {source : Source} {flow out : String}
    (hedges : c.graph.edges = before ++ ⟨source, .output flow⟩ :: after)
    (hout : out ∉ c.graph.outputFlows.keys) :
    (c.withEdges (before ++ ⟨source, .output out⟩ :: after)).findings
      = [(.flowNameMismatch, .edge ⟨before.length⟩)] := by
  have hmem : ⟨source, .output flow⟩ ∈ c.graph.edges :=
    hedges ▸ List.mem_append_right _ List.mem_cons_self
  have hparallel : Parallel ⟨source, .output flow⟩ ⟨source, .output out⟩ := ⟨rfl, rfl⟩
  rw [findings_replaced hc hedges hparallel]
  · have hstart := (edgeProblems_mk_eq_nil_iff.mp
      (edgeProblems_eq_nil_of_anchored hc.edges hmem ⟨before.length⟩)).1
    have hsilent : (c.withEdges (before ++ ⟨source, .output out⟩ :: after)).edgeStartProblems
        ⟨before.length⟩ ⟨source, .output out⟩ = [] := edgeStartProblems_eq_nil_iff.mpr hstart
    have hcontains : (c.withEdges (before ++ ⟨source, .output out⟩ :: after)).graph.outputFlows.contains
        out = false := Bool.eq_false_iff.mpr (mt (Table.contains_iff _ _).mp hout)
    simp [edgeProblems, hsilent, edgeEndProblems, hcontains, Diagnostic.finding]
  · intro id d hd
    refine Or.inr fun other hother => ?_
    obtain ⟨target, hedge⟩ := hc.control.flow id d hd other hother
    rw [hedges, List.mem_append, List.mem_cons] at hedge
    rcases hedge with hedge | heq | hedge
    · exact ⟨target, List.mem_append_left _ hedge⟩
    · obtain ⟨rfl, _⟩ := Edge.mk.inj heq
      exact ⟨.output out, List.mem_append_right _ List.mem_cons_self⟩
    · exact ⟨target, List.mem_append_right _ (List.mem_cons_of_mem _ hedge)⟩
  · exact fun x hx => (apart_of_removed hc hedges hx).1
  · intro walk target hwalk _ hdeclared hx
    rcases hwalk.target_eq_or_exists_next hx with htarget | ⟨_, _, _, _, _, _, hnode, _⟩
    · exact hout (hdeclared out htarget.symm)
    · cases hnode


/-! ### Each fault is found and nothing else is -/

/-- One fault in the control of a graph: the graph that has it, and what there is to find. -/
inductive ControlFault (c : Context) : Graph → List (Kind × Subject) → Prop where
  /-- An edge leads from a flow of a node back to the node. -/
  | selfEdge {before after : List Edge} {p : ProcId} {d : Definition} {flow : String}
      (hedges : c.graph.edges = before ++ after) (hd : c.definition? p = some d)
      (hflow : flow ∈ d.flowNames) :
      ControlFault c { c.graph with edges := before ++ ⟨.proc p flow, .proc p⟩ :: after }
        [(.cyclicDependency, .proc p)]
  /-- A node reads a value of its own, of the right type. -/
  | ownValue {p : ProcId} {d : Definition} {slot flow id : String} {expected : Slot}
      (hd : c.definition? p = some d) (hslot : d.input? slot = some expected)
      (hown : c.Denotes ⟨.proc p flow, id⟩ expected.type) :
      ControlFault c (c.graph.bind p slot ⟨.proc p flow, id⟩) [(.cyclicDependency, .proc p)]
  /-- An edge leaves a node by a name that is no flow. -/
  | label {before after : List Edge} {p : ProcId} {d : Definition} {flow label : String}
      {target : Target} (hedges : c.graph.edges = before ++ ⟨.proc p flow, target⟩ :: after)
      (hd : c.definition? p = some d) (hlabel : label ∉ d.flowNames) :
      ControlFault c { c.graph with edges := before ++ ⟨.proc p label, target⟩ :: after }
        [(.flowNameMismatch, .edge ⟨before.length⟩)]
  /-- An edge leaves the graph by a name that is no output flow. -/
  | output {before after : List Edge} {source : Source} {flow out : String}
      (hedges : c.graph.edges = before ++ ⟨source, .output flow⟩ :: after)
      (hout : out ∉ c.graph.outputFlows.keys) :
      ControlFault c { c.graph with edges := before ++ ⟨source, .output out⟩ :: after }
        [(.flowNameMismatch, .edge ⟨before.length⟩)]

/-- Whatever edge is gone from a valid graph is missed, and nothing else is reported; any other fault in
control is reported for what it is and where it is, and nothing else is reported. -/
theorem findings_of_controlFault {c : Context} (hvalid : c.diagnostics = []) :
    (∀ id : EdgeId, id.index < c.graph.edges.length →
        (c.withGraph (c.graph.removeEdge id)).diagnostics ≠ [] ∧
          ∀ d ∈ (c.withGraph (c.graph.removeEdge id)).diagnostics, d.kind = .missingControlEdge) ∧
      ∀ g' expected, c.ControlFault g' expected → (c.withGraph g').findings = expected := by
  have hc := wellFormed_of_diagnostics_eq_nil hvalid
  refine ⟨?_, ?_⟩
  · intro id hid
    obtain ⟨before, e, after, hedges, heq⟩ := exists_removeEdge hid
    rw [heq]
    exact ⟨diagnostics_removed_ne_nil hc hedges, fun d => kind_of_mem_diagnostics_removed hc hedges⟩
  · intro g' expected hfault
    cases hfault with
    | selfEdge hedges hd hflow => exact findings_selfEdge hc hedges hd hflow
    | ownValue hd hslot hown =>
        obtain ⟨node, hnode, _⟩ := proc?_of_definition? hd
        exact findings_bind_own hc hnode hd hslot hown
    | label hedges hd hlabel => exact findings_relabelled hc hedges hd hlabel
    | output hedges hout => exact findings_redirected hc hedges hout

open Code (division diagnostics_division) in
/-- An edge of the division is taken away, and then each of the other faults is put into it. -/
theorem findings_division_misled :
    (Catalog.standard.context division).diagnostics = [] ∧
      ((Catalog.standard.context (division.removeEdge ⟨1⟩)).diagnostics ≠ [] ∧
        ∀ d ∈ (Catalog.standard.context (division.removeEdge ⟨1⟩)).diagnostics,
          d.kind = .missingControlEdge) ∧
      (Catalog.standard.context { division with edges :=
          [⟨.entry, .proc ⟨0⟩⟩, ⟨.proc ⟨0⟩ "divByZero", .proc ⟨0⟩⟩, ⟨.proc ⟨0⟩ "result", .proc ⟨1⟩⟩,
            ⟨.proc ⟨0⟩ "divByZero", .output "failed"⟩, ⟨.proc ⟨1⟩ "result", .output "done"⟩] }).findings
        = [(.cyclicDependency, .proc ⟨0⟩)] ∧
      (Catalog.standard.context (division.bind ⟨0⟩ "b" ⟨.proc ⟨0⟩ "result", "res"⟩)).findings
        = [(.cyclicDependency, .proc ⟨0⟩)] ∧
      (Catalog.standard.context { division with edges :=
          [⟨.entry, .proc ⟨0⟩⟩, ⟨.proc ⟨0⟩ "quotient", .proc ⟨1⟩⟩,
            ⟨.proc ⟨0⟩ "divByZero", .output "failed"⟩, ⟨.proc ⟨1⟩ "result", .output "done"⟩] }).findings
        = [(.flowNameMismatch, .edge ⟨1⟩)] ∧
      (Catalog.standard.context { division with edges :=
          [⟨.entry, .proc ⟨0⟩⟩, ⟨.proc ⟨0⟩ "result", .proc ⟨1⟩⟩,
            ⟨.proc ⟨0⟩ "divByZero", .output "undefined"⟩, ⟨.proc ⟨1⟩ "result", .output "done"⟩] }).findings
        = [(.flowNameMismatch, .edge ⟨2⟩)] := by
  obtain ⟨hremoved, hfault⟩ := findings_of_controlFault diagnostics_division
  have hd : (Catalog.standard.context division).definition? ⟨0⟩
      = some ⟨[⟨"a", "number"⟩, ⟨"b", "number"⟩], [Catalog.resultFlow "number", ⟨"divByZero", []⟩]⟩ := by
    decide +kernel
  have hflow : Definition.flow? ⟨[⟨"a", "number"⟩, ⟨"b", "number"⟩],
      [Catalog.resultFlow "number", ⟨"divByZero", []⟩]⟩ "result" = some (Catalog.resultFlow "number") := rfl
  have hvalue : (Catalog.resultFlow "number").value? "res" = some ⟨"res", "number"⟩ := rfl
  have hown : (Catalog.standard.context division).Denotes ⟨.proc ⟨0⟩ "result", "res"⟩ "number" :=
    (Denotes.value hd hflow hvalue :)
  have hone : (Catalog.standard.context division).graph.edges
      = [⟨.entry, .proc ⟨0⟩⟩] ++ ⟨.proc ⟨0⟩ "result", .proc ⟨1⟩⟩
        :: [⟨.proc ⟨0⟩ "divByZero", .output "failed"⟩, ⟨.proc ⟨1⟩ "result", .output "done"⟩] := rfl
  have htwo : (Catalog.standard.context division).graph.edges
      = [⟨.entry, .proc ⟨0⟩⟩, ⟨.proc ⟨0⟩ "result", .proc ⟨1⟩⟩]
        ++ ⟨.proc ⟨0⟩ "divByZero", .output "failed"⟩ :: [⟨.proc ⟨1⟩ "result", .output "done"⟩] := rfl
  refine ⟨diagnostics_division, hremoved ⟨1⟩ (by decide), ?_, ?_, ?_, ?_⟩
  · exact hfault _ _ (.selfEdge hone hd (by decide))
  · exact hfault _ _ (.ownValue hd rfl hown)
  · exact hfault _ _ (.label hone hd (by decide))
  · exact hfault _ _ (.output htwo (by decide))

end Context

end ProcFlow
