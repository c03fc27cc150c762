import ProcFlow.Proofs.Agreement
import ProcFlow.Proofs.Changes
import ProcFlow.Proofs.Exploration
/-!
# What leaves a valid graph as it is

Two changes leave a valid graph valid and its code untouched: the catalog grows, or the edges and the
bindings of a node are put into another order. Both rest on one argument. Being well formed speaks of
which edges and bindings there are and of what definitions say, so it carries over to a graph with the
same ones and to more definitions. And in a well-formed graph no choice depends on the order: one edge
leaves each source, one symbol is bound to each slot, and every node is resolved, so the labels of its
edges are not asked for.

A catalog that grows keeps its answers because a manifest with a name that is already taken is refused.
-/

namespace ProcFlow

/-- The same call with its bindings in another order. -/
structure ProcNode.Reorders (node node' : ProcNode) : Prop where
  procedure : node'.procedure = node.procedure
  inputs : node.inputs.entries.Perm node'.inputs.entries

/-- The same graph with its edges, and the bindings of each node, in another order. -/
structure Graph.Reorders (g g' : Graph) : Prop where
  procs : List.Forall₂ ProcNode.Reorders g.procs g'.procs
  edges : g.edges.Perm g'.edges
  inputs : g'.inputs = g.inputs
  outputFlows : g'.outputFlows = g.outputFlows

/-- A catalog that answers whatever another one does, and may answer more. -/
structure Catalog.Extends (c c' : Catalog) : Prop where
  types : ∀ id e, c.types.get? id = some e → c'.types.get? id = some e
  procedures : ∀ name e, c.procedures.get? name = some e → c'.procedures.get? name = some e

namespace Table

variable {α β : Type}

theorem get?_eq_of_perm {t t' : Table α} (h : t.entries.Perm t'.entries) (key : String) :
    t'.get? key = t.get? key := by
  apply Option.ext
  intro value
  rw [get?_eq_some_iff, get?_eq_some_iff, h.mem_iff]

theorem get?_foldl_insert_of_not_mem {f : β → α} (l : List (String × β)) (t : Table α) {key : String}
    (h : key ∉ l.map Prod.fst) :
    (l.foldl (fun t e => t.insert e.1 (f e.2)) t).get? key = t.get? key := by
  induction l generalizing t with
  | nil => rfl
  | cons e rest ih =>
      rw [List.map_cons, List.mem_cons, not_or] at h
      rw [List.foldl_cons, ih _ h.2, get?_insert, if_neg h.1]

end Table


/-! ### Catalogs that grow -/

namespace Catalog

variable {c c' : Catalog} {m : Manifest} {origin : String} {count : Nat}

theorem get?_types_of_add (h : c.add m origin = .ok (c', count)) {id : TypeId}
    (hid : id ∈ m.types.keys) : c.types.get? id = none := by
  unfold add at h
  split at h
  · cases h
  next hclash =>
  have hnone := List.findSome?_eq_none_iff.mp hclash id hid
  rwa [Option.map_eq_none_iff] at hnone

theorem get?_procedures_of_checkProcedures {entries : List (String × ProcEntry)}
    (h : c.checkProcedures m origin = .ok entries) {name : String}
    (hname : name ∈ entries.map Prod.fst) : c.procedures.get? name = none := by
  obtain ⟨⟨_, e⟩, he, rfl⟩ := List.mem_map.mp hname
  rw [checkProcedures_eq] at h
  obtain ⟨x, _, hcheck⟩ := exists_of_mem_mapM h _ he
  obtain ⟨hnew, hname, _⟩ := checkEntry_eq_ok hcheck
  rwa [hname]

theorem extends_of_add (h : c.add m origin = .ok (c', count)) : c.Extends c' := by
  obtain ⟨entries, hcheck, htypes, hprocedures⟩ := add_eq_ok h
  refine ⟨?_, ?_⟩
  · intro id e he
    have hnew : id ∉ m.types.entries.map Prod.fst := fun hid =>
      Option.some_ne_none e (he.symm.trans (get?_types_of_add h hid))
    rw [htypes]
    exact (Table.get?_foldl_insert_of_not_mem (f := fun host => ⟨host, origin⟩) _ _ hnew).trans he
  · intro name e he
    have hnew : name ∉ entries.map Prod.fst := fun hname =>
      Option.some_ne_none e (he.symm.trans (get?_procedures_of_checkProcedures hcheck hname))
    rw [hprocedures]
    exact (Table.get?_foldl_insert_of_not_mem (f := id) _ _ hnew).trans he

theorem Extends.refl (c : Catalog) : c.Extends c := ⟨fun _ _ he => he, fun _ _ he => he⟩

end Catalog


/-! ### Graphs in another order -/

namespace Graph.Reorders

theorem refl (g : Graph) : g.Reorders g :=
  ⟨List.forall₂_same.mpr fun _ _ => ⟨rfl, .refl _⟩, .refl _, rfl, rfl⟩

variable {g g' : Graph} (h : g.Reorders g')

include h

theorem proc? (id : ProcId) : Option.Rel ProcNode.Reorders (g.proc? id) (g'.proc? id) := by
  have hrel : ∀ (procs procs' : List ProcNode) (i : Nat),
      List.Forall₂ ProcNode.Reorders procs procs' →
        Option.Rel ProcNode.Reorders procs[i]? procs'[i]? := by
    intro procs procs' i hprocs
    induction hprocs generalizing i with
    | nil => exact Option.Rel.none
    | cons hnode _ ih =>
        cases i with
        | zero => exact Option.Rel.some hnode
        | succ i => simpa using ih i
  exact hrel g.procs g'.procs id.index h.procs

theorem exists_proc? {id : ProcId} {node' : ProcNode} (hnode : g'.proc? id = some node') :
    ∃ node, g.proc? id = some node ∧ node.Reorders node' := by
  have hrel := h.proc? id
  rw [hnode] at hrel
  cases hnode' : g.proc? id with
  | none =>
      rw [hnode'] at hrel
      cases hrel
  | some node =>
      rw [hnode'] at hrel
      cases hrel with
      | some hreorders => exact ⟨node, rfl, hreorders⟩

theorem isSome_proc? (id : ProcId) : (g'.proc? id).isSome = (g.proc? id).isSome := by
  have hrel := h.proc? id
  generalize g.proc? id = node at hrel
  generalize g'.proc? id = node' at hrel
  cases hrel <;> rfl

theorem mem_procIds {id : ProcId} : id ∈ g'.procIds ↔ id ∈ g.procIds := by
  rw [Graph.mem_procIds, Graph.mem_procIds, h.isSome_proc?]

theorem outputEntries : g'.outputEntries = g.outputEntries := by
  rw [Graph.outputEntries, Graph.outputEntries, h.outputFlows]

theorem procedures : g'.procs.map ProcNode.procedure = g.procs.map ProcNode.procedure := by
  have hprocs := h.procs
  generalize g.procs = procs at hprocs
  generalize g'.procs = procs' at hprocs
  induction hprocs with
  | nil => rfl
  | cons hnode _ ih => rw [List.map_cons, List.map_cons, hnode.procedure, ih]

end Graph.Reorders


/-! ### Well-formed graphs -/

namespace Context

/-- The same graph up to order, in the light of more definitions. -/
structure CarriesTo (c c' : Context) : Prop where
  graph : c.graph.Reorders c'.graph
  definition : ∀ name d, c.catalog.definition? name = some d → c'.catalog.definition? name = some d
  knows : ∀ type, c.catalog.knows type → c'.catalog.knows type

variable {c c' : Context}

/-- Where edges keep apart, the edge that is found from a source is the one that leaves it. -/
theorem Controlled.map_snd_successor?_iff (h : c.Controlled) {source : Source} {e : Edge} :
    (c.successor? source).map Prod.snd = some e ↔ e ∈ c.graph.edges ∧ e.source = source := by
  refine ⟨?_, ?_⟩
  · intro hfound
    rw [Code.successor?_map_snd] at hfound
    exact ⟨List.mem_of_find?_eq_some hfound, by simpa using List.find?_some hfound⟩
  · intro hedge
    obtain ⟨hmem, rfl⟩ := hedge
    obtain ⟨id, hid⟩ := h.successor?_eq hmem
    rw [hid]
    rfl

namespace CarriesTo

variable (h : c.CarriesTo c')

include h

-- More definitions could resolve a procedure that was not known before, so this needs that all are known.
theorem definition?_eq (htypes : c.TypesKnown) (id : ProcId) : c'.definition? id = c.definition? id := by
  cases hnode' : c'.graph.proc? id with
  | none =>
      have hnone : c.graph.proc? id = none := by
        rw [← Option.not_isSome_iff_eq_none, ← h.graph.isSome_proc?, hnode']
        simp
      rw [definition?, definition?, hnode', hnone]
      rfl
  | some node' =>
      obtain ⟨node, hnode, hreorders⟩ := h.graph.exists_proc? hnode'
      obtain ⟨d, hd, _⟩ := htypes.procedure id node hnode
      rw [definition?_of_proc? hnode, definition?_of_proc? hnode', hreorders.procedure, hd,
        h.definition _ d hd]

theorem lookup_eq (htypes : c.TypesKnown) (s : SymbolRef) : c'.lookup s = c.lookup s := by
  have harena : ∀ id, (c'.graph.proc? id).isNone = (c.graph.proc? id).isNone := by
    intro id
    rw [← Option.not_isSome, ← Option.not_isSome, h.graph.isSome_proc?]
  simp only [Context.lookup, h.graph.inputs, h.definition?_eq htypes, harena]

theorem resolve_eq (htypes : c.TypesKnown) (s : SymbolRef) : c'.resolve s = c.resolve s := by
  rw [resolve, resolve, h.lookup_eq htypes]

theorem denotes (htypes : c.TypesKnown) {s : SymbolRef} {type : TypeId} (hs : c.Denotes s type) :
    c'.Denotes s type := by
  cases hs with
  | input hinput =>
      apply Denotes.input
      rwa [h.graph.inputs]
  | value hnode hflow hvalue =>
      apply Denotes.value _ hflow hvalue
      rwa [h.definition?_eq htypes]

theorem binding?_eq (htypes : c.TypesKnown) (id : ProcId) (slot : String) :
    c'.binding? id slot = c.binding? id slot := by
  have hbinding : c'.bindingOf id slot = c.bindingOf id slot := by
    funext symbol
    rw [bindingOf, bindingOf, h.definition?_eq htypes, h.resolve_eq htypes]
  rw [Context.binding?_eq, Context.binding?_eq, hbinding]
  have hrel := h.graph.proc? id
  generalize c.graph.proc? id = node at hrel
  generalize c'.graph.proc? id = node' at hrel
  cases hrel with
  | none => rfl
  | some hnode => simp only [Option.bind_some, Table.get?_eq_of_perm hnode.inputs]

theorem outputs_eq (htypes : c.TypesKnown) : c'.outputs = c.outputs := by
  simp only [outputs, h.graph.outputEntries, h.resolve_eq htypes]

theorem typesKnown (htypes : c.TypesKnown) : c'.TypesKnown := by
  refine ⟨?_, ?_, ?_⟩
  · intro key decl hinput
    rw [h.graph.inputs] at hinput
    exact h.knows _ (htypes.input key decl hinput)
  · intro flow id value houtput
    rw [h.graph.outputEntries] at houtput
    exact h.knows _ (htypes.output flow id value houtput)
  · intro id node' hnode'
    obtain ⟨node, hnode, hreorders⟩ := h.graph.exists_proc? hnode'
    obtain ⟨d, hd, hknown⟩ := htypes.procedure id node hnode
    refine ⟨d, ?_, fun type htype => h.knows type (hknown type htype)⟩
    rw [hreorders.procedure]
    exact h.definition _ d hd

theorem slotsMatch (htypes : c.TypesKnown) (hslots : c.SlotsMatch) : c'.SlotsMatch := by
  intro id node' d hnode' hd slot
  obtain ⟨node, hnode, hreorders⟩ := h.graph.exists_proc? hnode'
  rw [h.definition?_eq htypes] at hd
  rw [← hslots id node d hnode hd slot]
  exact (hreorders.inputs.map Prod.fst).mem_iff.symm

theorem symbolsFit (htypes : c.TypesKnown) (hsymbols : c.SymbolsFit) : c'.SymbolsFit := by
  refine ⟨?_, ?_⟩
  · intro id node' slot symbol hnode' hmem
    obtain ⟨node, hnode, hreorders⟩ := h.graph.exists_proc? hnode'
    obtain ⟨d, expected, hd, hslot, hdenotes⟩ :=
      hsymbols.binding id node slot symbol hnode (hreorders.inputs.mem_iff.mpr hmem)
    rw [← h.definition?_eq htypes] at hd
    exact ⟨d, expected, hd, hslot, h.denotes htypes hdenotes⟩
  · intro flow id value houtput
    rw [h.graph.outputEntries] at houtput
    exact h.denotes htypes (hsymbols.output flow id value houtput)

theorem edgesAnchored (htypes : c.TypesKnown) (hedges : c.EdgesAnchored) : c'.EdgesAnchored := by
  refine ⟨?_, ?_, ?_⟩
  · intro node flow target hedge
    rw [h.definition?_eq htypes]
    exact hedges.source node flow target (h.graph.edges.mem_iff.mpr hedge)
  · intro source node hedge
    rw [h.graph.isSome_proc?]
    exact hedges.node source node (h.graph.edges.mem_iff.mpr hedge)
  · intro source flow hedge
    rw [h.graph.outputFlows]
    exact hedges.output source flow (h.graph.edges.mem_iff.mpr hedge)

theorem controlComplete (htypes : c.TypesKnown) (hcontrol : c.ControlComplete) :
    c'.ControlComplete := by
  refine ⟨?_, ?_, ?_, ?_, ?_⟩
  · exact h.graph.edges.pairwise hcontrol.apart fun hapart => Std.Symm.symm _ _ hapart
  · intro id hid
    obtain ⟨source, hedge⟩ := hcontrol.incoming id (h.graph.mem_procIds.mp hid)
    exact ⟨source, h.graph.edges.mem_iff.mp hedge⟩
  · intro id hid
    obtain ⟨flow, target, hedge⟩ := hcontrol.outgoing id (h.graph.mem_procIds.mp hid)
    exact ⟨flow, target, h.graph.edges.mem_iff.mp hedge⟩
  · intro id d hd flow hflow
    rw [h.definition?_eq htypes] at hd
    obtain ⟨target, hedge⟩ := hcontrol.flow id d hd flow hflow
    exact ⟨target, h.graph.edges.mem_iff.mp hedge⟩
  · intro hprocs
    have hempty : c.graph.procs = [] := by
      have hforall := h.graph.procs
      rwa [hprocs, List.forall₂_nil_right_iff] at hforall
    obtain ⟨target, hedge⟩ := hcontrol.entry hempty
    exact ⟨target, h.graph.edges.mem_iff.mp hedge⟩

theorem readsAt {id origin : ProcId} {flow : String} (hreads : c'.ReadsAt id origin flow) :
    c.ReadsAt id origin flow := by
  obtain ⟨node', slot, symbol, hnode', hmem, horigin⟩ := hreads
  obtain ⟨node, hnode, hreorders⟩ := h.graph.exists_proc? hnode'
  exact ⟨node, slot, symbol, hnode, hreorders.inputs.mem_iff.mpr hmem, horigin⟩

theorem acyclic (hacyclic : c.Acyclic) : c'.Acyclic := by
  apply hacyclic.of_leadsTo
  -- A step along an edge or along a binding is also one in the graph as it was.
  intro u v hlead
  rw [LeadsTo.iff_readsAt] at hlead ⊢
  rw [← h.graph.isSome_proc?]
  cases hlead with
  | inl hprecedes =>
      obtain ⟨hu, hv, flow, hedge⟩ := hprecedes
      rw [h.graph.isSome_proc?] at hu hv
      exact Or.inl ⟨hu, hv, flow, h.graph.edges.mem_iff.mpr hedge⟩
  | inr hreads =>
      obtain ⟨hu, flow, hreads⟩ := hreads
      exact Or.inr ⟨hu, flow, h.readsAt hreads⟩

theorem inScope (hscope : c.InScope) : c'.InScope := by
  have hwalk : ∀ {walk target}, Walk c'.graph walk target → Walk c.graph walk target := by
    intro walk target hwalk
    exact hwalk.of_edges fun e he => h.graph.edges.mem_iff.mpr (hwalk.mem_edges e he)
  refine ⟨?_, ?_⟩
  · intro id node' slot symbol origin flow hnode' hmem horigin walk hwalk'
    obtain ⟨node, hnode, hreorders⟩ := h.graph.exists_proc? hnode'
    exact hscope.binding id node slot symbol origin flow hnode (hreorders.inputs.mem_iff.mpr hmem)
      horigin walk (hwalk hwalk')
  · intro out id value origin flow houtput horigin walk hwalk'
    rw [h.graph.outputEntries] at houtput
    exact hscope.output out id value origin flow houtput horigin walk (hwalk hwalk')

theorem wellFormed (hc : c.WellFormed) : c'.WellFormed where
  types := h.typesKnown hc.types
  slots := h.slotsMatch hc.types hc.slots
  symbols := h.symbolsFit hc.types hc.symbols
  edges := h.edgesAnchored hc.types hc.edges
  control := h.controlComplete hc.types hc.control
  acyclic := h.acyclic hc.acyclic
  scope := h.inScope hc.scope

/-- One edge leaves each source, so the order does not decide which one is found. -/
theorem next_eq (hc : c.WellFormed) (source : Source) :
    (c'.successor? source).map Prod.snd = (c.successor? source).map Prod.snd := by
  apply Option.ext
  intro e
  rw [(h.wellFormed hc).controlled.map_snd_successor?_iff, hc.controlled.map_snd_successor?_iff,
    h.graph.edges.mem_iff]

end CarriesTo

end Context


/-! ### The same code -/

namespace Catalog

open Code

variable {c c' : Catalog} {g g' : Graph}

theorem Extends.carriesTo (hc : c.Extends c') (hg : g.Reorders g') :
    (c.context g).CarriesTo (c'.context g') where
  graph := hg
  definition name d hd := by
    obtain ⟨e, he, rfl⟩ := Option.map_eq_some_iff.mp hd
    exact Option.map_eq_some_iff.mpr ⟨e, hc.procedures name e he, rfl⟩
  knows type hknown := by
    obtain ⟨host, hhost⟩ := Option.isSome_iff_exists.mp hknown
    obtain ⟨e, he, rfl⟩ := Option.map_eq_some_iff.mp hhost
    exact Option.isSome_iff_exists.mpr ⟨_, Option.map_eq_some_iff.mpr ⟨e, hc.types type e he, rfl⟩⟩

theorem Extends.hostType_eq (hc : c.Extends c') {type : TypeId} (hknown : c.definitions.knows type) :
    (c'.setup g').hostType type = (c.setup g).hostType type := by
  obtain ⟨host, hhost⟩ := Option.isSome_iff_exists.mp hknown
  obtain ⟨e, he, rfl⟩ := Option.map_eq_some_iff.mp hhost
  have hold : (c.setup g).implementations.host? type = some e.host :=
    Option.map_eq_some_iff.mpr ⟨e, he, rfl⟩
  have hnew : (c'.setup g').implementations.host? type = some e.host :=
    Option.map_eq_some_iff.mpr ⟨e, hc.types type e he, rfl⟩
  rw [Setup.hostType, Setup.hostType, hold, hnew]
  rfl

theorem knows_of_spells (htypes : (c.context g).TypesKnown) {type : TypeId}
    (h : (c.setup g).Spells type) : c.definitions.knows type := by
  cases h with
  | input hinput => exact htypes.input _ _ hinput
  | output houtput => exact htypes.output _ _ _ houtput
  | @value id d t f v hresolved hflow hvalue =>
      obtain ⟨node, hnode, hd, _⟩ := Setup.resolved?_eq_some_iff.mp hresolved
      obtain ⟨d', hd', hknown⟩ := htypes.procedure id node hnode
      rw [Context.definition?_of_proc? hnode] at hd
      obtain rfl := Option.some.inj (hd.symm.trans hd')
      apply hknown
      exact List.mem_append_right _ (List.mem_flatMap.mpr ⟨f, hflow, List.mem_map_of_mem hvalue⟩)

/-- Every node is resolved, and in the same way. -/
theorem Extends.exists_resolved? (hc : c.Extends c') (hg : g.Reorders g')
    (htypes : (c.context g).TypesKnown) {id : ProcId} (hid : (g.proc? id).isSome) :
    ∃ found, (c.setup g).resolved? id = some found ∧ (c'.setup g').resolved? id = some found := by
  rw [← hg.isSome_proc?] at hid
  obtain ⟨node', hnode'⟩ := Option.isSome_iff_exists.mp hid
  obtain ⟨node, hnode, hreorders⟩ := hg.exists_proc? hnode'
  obtain ⟨d, hd, _⟩ := htypes.procedure id node hnode
  obtain ⟨e, he, _⟩ := Option.map_eq_some_iff.mp hd
  refine ⟨(e.definition, e.template), ?_, ?_⟩
  · exact resolved?_setup_iff.mpr ⟨node, e, hnode, he, rfl, rfl⟩
  · refine resolved?_setup_iff.mpr ⟨node', e, hnode', ?_, rfl, rfl⟩
    rw [hreorders.procedure]
    exact hc.procedures _ e he

theorem Extends.resolved?_eq (hc : c.Extends c') (hg : g.Reorders g')
    (htypes : (c.context g).TypesKnown) (id : ProcId) :
    (c'.setup g').resolved? id = (c.setup g).resolved? id := by
  by_cases hid : (g.proc? id).isSome
  · obtain ⟨found, hold, hnew⟩ := hc.exists_resolved? hg htypes hid
    rw [hold, hnew]
  · have hold : (c.setup g).context.graph.proc? id = none := by
      show g.proc? id = none
      simpa using hid
    have hnew : (c'.setup g').context.graph.proc? id = none := by
      show g'.proc? id = none
      rw [← hg.isSome_proc?] at hid
      simpa using hid
    rw [Setup.resolved?, Setup.resolved?, hold, hnew]
    rfl

theorem Extends.agrees (hc : c.Extends c') (hg : g.Reorders g')
    (hgraph : (c.context g).WellFormed) : (c.setup g).Agrees (c'.setup g') where
  placeholder := rfl
  inputs := hg.inputs
  outputFlows := hg.outputFlows
  procedures := hg.procedures
  next := (hc.carriesTo hg).next_eq hgraph
  resolved := hc.resolved?_eq hg hgraph.types
  outgoing id hid hnone := by
    -- There is no such node: in a valid graph each one is resolved.
    obtain ⟨found, hfound, _⟩ := hc.exists_resolved? hg hgraph.types hid
    rw [hfound] at hnone
    cases hnone
  binding := (hc.carriesTo hg).binding?_eq hgraph.types
  outputs := (hc.carriesTo hg).outputs_eq hgraph.types
  host _ hspells := hc.hostType_eq (knows_of_spells hgraph.types hspells)

/-- A valid graph stays valid, and its code stays the same, in a larger catalog and in another order. -/
theorem Extends.generate_eq (hc : c.Extends c') (hg : g.Reorders g')
    (hvalid : (c.context g).isFullyValid) :
    (c'.context g').isFullyValid ∧
      ∀ flavor, generate (c'.context g') c'.implementations flavor
        = generate (c.context g) c.implementations flavor := by
  have hgraph := Context.wellFormed_of_diagnostics_eq_nil (List.isEmpty_iff.mp hvalid)
  refine ⟨?_, (hc.agrees hg hgraph).generate⟩
  exact List.isEmpty_iff.mpr
    (Context.diagnostics_eq_nil_of_wellFormed ((hc.carriesTo hg).wellFormed hgraph))

/-- Whatever is added to a catalog, a graph that was valid stays valid and its code stays the same. -/
theorem generate_eq_of_add {m : Manifest} {origin : String} {count : Nat}
    (hadd : c.add m origin = .ok (c', count)) (hvalid : (c.context g).isFullyValid) :
    (c'.context g).isFullyValid ∧
      ∀ flavor, generate (c'.context g) c'.implementations flavor
        = generate (c.context g) c.implementations flavor :=
  (extends_of_add hadd).generate_eq (Graph.Reorders.refl g) hvalid

/-- A type and a procedure on it. -/
def flagManifest : Manifest where
  types := .ofList [("flag", "boolean")]
  procedures := .ofList
    [("flip", ⟨⟨[⟨"x", "flag"⟩], [⟨"result", [⟨"res", "flag"⟩]⟩]⟩, "@result(\x7b res: !$x \x7d)"⟩)]

theorem exists_add_flagManifest :
    ∃ c' count, standard.add flagManifest "flags.json" = .ok (c', count) := by
  have hok : (standard.add flagManifest "flags.json").isOk := by decide +kernel
  cases hadd : standard.add flagManifest "flags.json" with
  | error _ =>
      rw [hadd] at hok
      cases hok
  | ok added => exact ⟨added.1, added.2, rfl⟩

theorem generate_division_of_add_flagManifest :
    ∃ c' count, standard.add flagManifest "flags.json" = .ok (c', count) ∧
      (standard.context division).isFullyValid ∧ (c'.context division).isFullyValid ∧
      ∀ flavor, generate (c'.context division) c'.implementations flavor
        = generate (standard.context division) standard.implementations flavor := by
  obtain ⟨c', count, hadd⟩ := exists_add_flagManifest
  have hvalid : (standard.context division).isFullyValid := List.isEmpty_iff.mpr diagnostics_division
  exact ⟨c', count, hadd, hvalid, generate_eq_of_add hadd hvalid⟩

/-- The order of the edges, and of the bindings of each node, is not seen in the code of a valid graph
nor in its being valid. -/
theorem generate_eq_of_reorders (hg : g.Reorders g') (hvalid : (c.context g).isFullyValid) :
    (c.context g').isFullyValid ∧
      ∀ flavor, generate (c.context g') c.implementations flavor
        = generate (c.context g) c.implementations flavor :=
  (Extends.refl c).generate_eq hg hvalid

/-- The division with its edges the other way round and the divisor bound first. -/
def divisionReordered : Graph :=
  { division with
    procs :=
      [⟨"div", .ofList [("b", ⟨.entry, "y"⟩), ("a", ⟨.entry, "x"⟩)]⟩,
        ⟨"negate", .ofList [("x", ⟨.proc ⟨0⟩ "result", "res"⟩)]⟩]
    edges := division.edges.reverse }

theorem division_reorders : division.Reorders divisionReordered where
  procs := .cons ⟨rfl, .swap _ _ _⟩ (.cons ⟨rfl, .refl _⟩ .nil)
  edges := (List.reverse_perm division.edges).symm
  inputs := rfl
  outputFlows := rfl

theorem generate_divisionReordered :
    divisionReordered ≠ division ∧ division.Reorders divisionReordered ∧
      (standard.context division).isFullyValid ∧ (standard.context divisionReordered).isFullyValid ∧
      ∀ flavor, generate (standard.context divisionReordered) standard.implementations flavor
        = generate (standard.context division) standard.implementations flavor := by
  have hvalid : (standard.context division).isFullyValid := List.isEmpty_iff.mpr diagnostics_division
  exact ⟨by decide, division_reorders, hvalid, generate_eq_of_reorders division_reorders hvalid⟩

end Catalog

end ProcFlow
