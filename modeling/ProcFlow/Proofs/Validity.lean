import ProcFlow.Proofs.ControlTree
import ProcFlow.Proofs.Silence
/-!
# A graph is valid exactly if it is well formed

Each check looks at one kind of problem and trusts the others for the rest. The theorem of this module
says that together they leave no gap and report nothing without a cause.

The order of the argument follows that trust. Definitions come first, because a symbol whose node has no
definition is passed over; with definitions and types in place, a symbol that can be looked up stands for
something of a known type. Then come the ends of edges, because an edge without an end is not held
against others; then cycles, because an edge from a node to itself is not either; then the edges that
meet; and last scope, which is asked only along a path that can be walked back to the entry.
-/

namespace ProcFlow.Context

variable {c : Context}


/-! ### Types, slots and symbols -/

theorem TypesKnown.defined (h : c.TypesKnown) (id : ProcId) (node : ProcNode)
    (hnode : c.graph.proc? id = some node) : ∃ d, c.definition? id = some d := by
  obtain ⟨d, hd, _⟩ := h.procedure id node hnode
  exact ⟨d, (definition?_of_proc? hnode).trans hd⟩

theorem typesKnown_of_silent (hinputs : c.inputProblems = [])
    (hnodes : ∀ id node, c.graph.proc? id = some node → c.procedureProblems id node = [])
    (houtputs : ∀ flow id value, (flow, id, value) ∈ c.graph.outputEntries →
      c.outputProblems flow id value = []) : c.TypesKnown where
  input := inputProblems_eq_nil_iff.mp hinputs
  output := fun flow id value hmem => (outputProblems_eq_nil_iff.mp (houtputs flow id value hmem)).1
  procedure := by
    intro id node hnode
    obtain ⟨d, hd, hknown⟩ := procedureProblems_eq_nil_iff.mp (hnodes id node hnode)
    exact ⟨d, (definition?_of_proc? hnode).symm.trans hd, hknown⟩

/-- Where types are known, a symbol is read without complaint exactly if it stands for something of the
declared type. -/
theorem denotes_iff_of_typesKnown (htypes : c.TypesKnown) {s : SymbolRef} {declared : TypeId}
    (hdeclared : c.catalog.knows declared) :
    ((∃ r, c.lookup s = .ok r) ∧
        ∀ actual, (c.resolve s).type? = some actual → c.typesDiffer declared (some actual) = false)
      ↔ c.Denotes s declared := by
  refine ⟨?_, ?_⟩
  · intro hleft
    obtain ⟨⟨r, hr⟩, hsame⟩ := hleft
    obtain ⟨type, hdenotes⟩ := exists_denotes_of_lookup hr htypes.defined
    have hequal := hsame type hdenotes.type?_resolve
    rw [typesDiffer_eq_false_iff hdeclared (hdenotes.knows htypes)] at hequal
    rwa [hequal]
  · intro hdenotes
    obtain ⟨r, hr, _⟩ := hdenotes.lookup
    refine ⟨⟨r, hr⟩, fun actual hactual => ?_⟩
    rw [hdenotes.type?_resolve, Option.some.injEq] at hactual
    subst hactual
    exact (typesDiffer_eq_false_iff hdeclared hdeclared).mpr rfl

theorem TypesKnown.knows_slot (htypes : c.TypesKnown) {id : ProcId} {d : Definition}
    (hd : c.definition? id = some d) {slot : Slot} (hslot : slot ∈ d.inputs) :
    c.catalog.knows slot.type := by
  obtain ⟨node, hnode, hdef⟩ := proc?_of_definition? hd
  obtain ⟨d', hd', hknown⟩ := htypes.procedure id node hnode
  obtain rfl := Option.some.inj (hdef.symm.trans hd')
  exact hknown slot.type (List.mem_append_left _ (List.mem_map_of_mem hslot))

theorem bindingProblems_eq_nil_iff_denotes (htypes : c.TypesKnown) {id : ProcId} {node : ProcNode}
    {d : Definition} (hd : c.definition? id = some d) {slot : String} {symbol : SymbolRef} :
    c.bindingProblems id node slot symbol = []
      ↔ ∃ expected, d.input? slot = some expected ∧ c.Denotes symbol expected.type := by
  rw [bindingProblems_eq_nil_iff]
  refine ⟨?_, ?_⟩
  · intro hleft
    obtain ⟨hlookup, hslot⟩ := hleft
    obtain ⟨expected, hexpected, hsame⟩ := hslot d hd
    have hknown := htypes.knows_slot hd (Definition.input?_eq_some hexpected).1
    exact ⟨expected, hexpected, (denotes_iff_of_typesKnown htypes hknown).mp ⟨hlookup, hsame⟩⟩
  · intro hright
    obtain ⟨expected, hexpected, hdenotes⟩ := hright
    have hknown := htypes.knows_slot hd (Definition.input?_eq_some hexpected).1
    obtain ⟨hlookup, hsame⟩ := (denotes_iff_of_typesKnown htypes hknown).mpr hdenotes
    refine ⟨hlookup, fun d' hd' => ?_⟩
    obtain rfl := Option.some.inj (hd.symm.trans hd')
    exact ⟨expected, hexpected, hsame⟩

theorem nodeProblems_eq_nil_iff (htypes : c.TypesKnown) :
    (∀ id node, c.graph.proc? id = some node → c.nodeProblems id node = [])
      ↔ c.SlotsMatch ∧ ∀ id node slot symbol, c.graph.proc? id = some node →
        (slot, symbol) ∈ node.inputs.entries → ∃ d expected, c.definition? id = some d ∧
          d.input? slot = some expected ∧ c.Denotes symbol expected.type := by
  simp only [nodeProblems, List.append_eq_nil_iff, List.flatMap_eq_nil_iff]
  refine ⟨?_, ?_⟩
  · intro hsilent
    have hbinding : ∀ id node slot symbol, c.graph.proc? id = some node →
        (slot, symbol) ∈ node.inputs.entries → ∃ d expected, c.definition? id = some d ∧
          d.input? slot = some expected ∧ c.Denotes symbol expected.type := by
      intro id node slot symbol hnode hmem
      obtain ⟨d, hd⟩ := htypes.defined id node hnode
      obtain ⟨expected, hexpected, hdenotes⟩ :=
        (bindingProblems_eq_nil_iff_denotes htypes hd).mp ((hsilent id node hnode).1.2 _ hmem)
      exact ⟨d, expected, hd, hexpected, hdenotes⟩
    refine ⟨fun id node d hnode hd slot => ⟨fun hbound => ?_, fun hslot => ?_⟩, hbinding⟩
    · obtain ⟨⟨_, symbol⟩, hmem, rfl⟩ := List.mem_map.mp hbound
      obtain ⟨d', expected, hd', hexpected, _⟩ := hbinding id node _ symbol hnode hmem
      obtain rfl := Option.some.inj (hd.symm.trans hd')
      exact Definition.input?_isSome_iff.mp (Option.isSome_iff_exists.mpr ⟨expected, hexpected⟩)
    · obtain ⟨declared, hdeclared, rfl⟩ := List.mem_map.mp hslot
      exact missingSlots_eq_nil_iff.mp (hsilent id node hnode).2 d hd declared hdeclared
  · rintro ⟨hslots, hbinding⟩ id node hnode
    obtain ⟨d, hd, hknown⟩ := htypes.procedure id node hnode
    have hd' : c.definition? id = some d := (definition?_of_proc? hnode).trans hd
    refine ⟨⟨procedureProblems_eq_nil_iff.mpr ⟨d, hd', hknown⟩, ?_⟩, ?_⟩
    · rintro ⟨slot, symbol⟩ hmem
      obtain ⟨d'', expected, hd'', hexpected, hdenotes⟩ := hbinding id node slot symbol hnode hmem
      exact (bindingProblems_eq_nil_iff_denotes htypes hd'').mpr ⟨expected, hexpected, hdenotes⟩
    · rw [missingSlots_eq_nil_iff]
      intro d'' hd'' slot hslot
      exact (hslots id node d'' hnode hd'' slot.name).mpr (List.mem_map_of_mem hslot)

theorem outputProblems_eq_nil_iff_denotes (htypes : c.TypesKnown) {flow id : String}
    {value : OutputValue} (hknown : c.catalog.knows value.type) :
    c.outputProblems flow id value = [] ↔ c.Denotes value.source value.type := by
  rw [outputProblems_eq_nil_iff, denotes_iff_of_typesKnown htypes hknown, and_iff_right hknown]


/-! ### Edges -/

theorem edgeProblems_eq_nil_iff (htypes : c.TypesKnown) :
    (∀ id e, (id, e) ∈ c.graph.edgesWithIds → c.edgeProblems id e = []) ↔ c.EdgesAnchored := by
  have hedges : (∀ id e, (id, e) ∈ c.graph.edgesWithIds → c.edgeProblems id e = [])
      ↔ ∀ source target, ⟨source, target⟩ ∈ c.graph.edges →
        (∀ node flow, source = .proc node flow →
          (c.graph.proc? node).isSome ∧ ∀ d, c.definition? node = some d → flow ∈ d.flowNames) ∧
        (∀ node, target = .proc node → (c.graph.proc? node).isSome) ∧
        ∀ flow, target = .output flow → flow ∈ c.graph.outputFlows.keys := by
    refine ⟨?_, ?_⟩
    · intro hsilent source target hmem
      obtain ⟨id, hid⟩ := c.graph.exists_mem_edgesWithIds.mpr hmem
      have hnil := hsilent id _ hid
      rwa [edgeProblems, List.append_eq_nil_iff, edgeStartProblems_eq_nil_iff,
        edgeEndProblems_eq_nil_iff] at hnil
    · rintro hanchored id ⟨source, target⟩ hid
      rw [edgeProblems, List.append_eq_nil_iff, edgeStartProblems_eq_nil_iff,
        edgeEndProblems_eq_nil_iff]
      exact hanchored source target (c.graph.exists_mem_edgesWithIds.mp ⟨id, hid⟩)
  rw [hedges]
  refine ⟨?_, ?_⟩
  · intro hanchored
    refine ⟨fun node flow target hmem => ?_, fun source node hmem => ?_, fun source flow hmem => ?_⟩
    · obtain ⟨hnode, hflow⟩ := (hanchored _ target hmem).1 node flow rfl
      obtain ⟨procNode, hproc⟩ := Option.isSome_iff_exists.mp hnode
      obtain ⟨d, hd⟩ := htypes.defined node procNode hproc
      exact ⟨d, hd, hflow d hd⟩
    · exact (hanchored source _ hmem).2.1 node rfl
    · exact (hanchored source _ hmem).2.2 flow rfl
  · intro hanchored source target hmem
    refine ⟨?_, ?_, ?_⟩
    · rintro node flow rfl
      obtain ⟨d, hd, hflow⟩ := hanchored.source node flow target hmem
      obtain ⟨procNode, hproc, _⟩ := proc?_of_definition? hd
      refine ⟨Option.isSome_iff_exists.mpr ⟨procNode, hproc⟩, fun d' hd' => ?_⟩
      obtain rfl := Option.some.inj (hd.symm.trans hd')
      exact hflow
    · rintro node rfl
      exact hanchored.node source node hmem
    · rintro flow rfl
      exact hanchored.output source flow hmem

/-- Where edges are anchored and there is no cycle, every edge is held against the others. -/
theorem isWired_of_anchored (hedges : c.EdgesAnchored) (hacyclic : c.Acyclic) {e : Edge}
    (he : e ∈ c.graph.edges) : c.isWired e = true := by
  obtain ⟨source, target⟩ := e
  have hsource : ∀ node flow, source = .proc node flow → (c.graph.proc? node).isSome := by
    rintro node flow rfl
    obtain ⟨d, hd, _⟩ := hedges.source node flow target he
    obtain ⟨procNode, hproc, _⟩ := proc?_of_definition? hd
    exact Option.isSome_iff_exists.mpr ⟨procNode, hproc⟩
  rcases source with _ | ⟨node, flow⟩ <;> rcases target with next | out
  · exact hedges.node _ next he
  · rfl
  · have hnode := hsource node flow rfl
    have hnext := hedges.node _ next he
    simp only [isWired, hnode, hnext, Bool.and_self, Bool.true_and, decide_eq_true_iff]
    -- An edge from a node to itself is a cycle.
    rintro rfl
    exact hacyclic node (Relation.TransGen.single (Or.inl ⟨hnode, hnext, flow, he⟩))
  · exact hsource node flow rfl

theorem duplicateProblems_eq_nil_iff_apart (hedges : c.EdgesAnchored) (hacyclic : c.Acyclic) :
    c.duplicateProblems = [] ↔ c.graph.edges.Pairwise Apart := by
  rw [duplicateProblems_eq_nil_iff,
    List.filter_eq_self.mpr fun e he => isWired_of_anchored hedges hacyclic he]

theorem control_silent_iff (hedges : c.EdgesAnchored) (hacyclic : c.Acyclic) :
    ((∀ id node, c.graph.proc? id = some node →
        c.incomingProblems id node ++ c.outgoingProblems id node = []) ∧
      c.entryProblems = [] ∧ c.duplicateProblems = []) ↔ c.ControlComplete := by
  simp only [List.append_eq_nil_iff, incomingProblems_eq_nil_iff, outgoingProblems_eq_nil_iff,
    entryProblems_eq_nil_iff, duplicateProblems_eq_nil_iff_apart hedges hacyclic]
  refine ⟨?_, ?_⟩
  · intro hleft
    obtain ⟨hnodes, hentry, hapart⟩ := hleft
    refine ⟨hapart, fun id hid => ?_, fun id hid => ?_, fun id d hd flow hflow => ?_, hentry⟩
    · obtain ⟨node, hnode⟩ := Option.isSome_iff_exists.mp (c.graph.mem_procIds.mp hid)
      exact (hnodes id node hnode).1
    · obtain ⟨node, hnode⟩ := Option.isSome_iff_exists.mp (c.graph.mem_procIds.mp hid)
      exact (hnodes id node hnode).2.1
    · obtain ⟨node, hnode, _⟩ := proc?_of_definition? hd
      rcases (hnodes id node hnode).2.2 d hd with ⟨label, hundeclared, target, hmem⟩ | hall
      · -- The edge that would excuse the missing ones has been reported for its name.
        obtain ⟨d', hd', hdeclared⟩ := hedges.source id label target hmem
        obtain rfl := Option.some.inj (hd.symm.trans hd')
        exact absurd hdeclared hundeclared
      · exact hall flow hflow
  · intro hcontrol
    refine ⟨fun id node hnode => ?_, hcontrol.entry, hcontrol.apart⟩
    have hid : id ∈ c.graph.procIds :=
      c.graph.mem_procIds.mpr (Option.isSome_iff_exists.mpr ⟨node, hnode⟩)
    exact ⟨hcontrol.incoming id hid, hcontrol.outgoing id hid,
      fun d hd => Or.inr (hcontrol.flow id d hd)⟩


/-! ### Scope -/

theorem bindingScope_silent_iff (h : c.Controlled) (hsymbols : c.SymbolsFit) {id : ProcId}
    {node : ProcNode} (hnode : c.graph.proc? id = some node) :
    c.bindingScopeProblems id = []
      ↔ ∀ slot symbol origin flow, (slot, symbol) ∈ node.inputs.entries →
        symbol.origin = .proc origin flow →
          ∀ walk, Walk c.graph walk (.proc id) → (origin, flow) ∈ passedFlows walk := by
  rw [bindingScopeProblems_eq_nil_iff]
  refine ⟨?_, ?_⟩
  · intro hscope slot symbol origin flow hmem horigin walk hwalk
    obtain ⟨before, ⟨source, target⟩, rfl, hedge, htarget⟩ := hwalk.eq_append
    subst htarget
    have hpath : c.scope? id = some (passedFlows (before ++ [⟨source, .proc id⟩])) := by
      rw [scope?, h.firstInto?_eq hedge, Option.bind_some, h.controlPath?_eq hwalk]
    obtain ⟨d, expected, _, _, hdenotes⟩ := hsymbols.binding id node slot symbol hnode hmem
    obtain ⟨f, v, hresolve, rfl, _⟩ := hdenotes.resolve_eq_proc horigin
    exact hscope _ hpath _ (mem_bindings.mpr ⟨node, slot, symbol, hnode, hmem, rfl⟩) origin f v hresolve
  · intro hwalks scope hscope b hb origin f v hresolution
    obtain ⟨node', slot, symbol, hnode', hmem, rfl⟩ := mem_bindings.mp hb
    obtain rfl := Option.some.inj (hnode.symm.trans hnode')
    obtain ⟨e, hfirst, hpath⟩ := Option.bind_eq_some_iff.mp hscope
    obtain ⟨hedge, htarget⟩ := firstInto?_eq_some hfirst
    obtain ⟨walk, hwalk, rfl⟩ := exists_walk_of_controlPath? hedge hpath
    rw [htarget] at hwalk
    exact hwalks slot symbol origin f.name hmem (resolve_eq_proc hresolution).1 walk hwalk

theorem mem_pathsInto_iff (h : c.Controlled) {flow : String} {scope : List (ProcId × String)} :
    scope ∈ c.pathsInto flow ↔ ∃ walk, Walk c.graph walk (.output flow) ∧ scope = passedFlows walk := by
  rw [pathsInto, List.mem_filterMap]
  refine ⟨?_, ?_⟩
  · intro hleft
    obtain ⟨e, he, hpath⟩ := hleft
    obtain ⟨hmem, htarget⟩ := List.mem_filter.mp he
    obtain ⟨walk, hwalk, hscope⟩ := exists_walk_of_controlPath? hmem hpath
    rw [of_decide_eq_true htarget] at hwalk
    exact ⟨walk, hwalk, hscope⟩
  · intro hright
    obtain ⟨walk, hwalk, rfl⟩ := hright
    obtain ⟨before, e, rfl, hmem, htarget⟩ := hwalk.eq_append
    exact ⟨e, List.mem_filter.mpr ⟨hmem, decide_eq_true htarget⟩, h.controlPath?_eq hwalk⟩

theorem outputScope_silent_iff (h : c.Controlled) (hsymbols : c.SymbolsFit) :
    (∀ out ∈ c.graph.outputFlows.keys, c.outputScopeProblems out = [])
      ↔ ∀ out id value origin flow, (out, id, value) ∈ c.graph.outputEntries →
        value.source.origin = .proc origin flow →
          ∀ walk, Walk c.graph walk (.output out) → (origin, flow) ∈ passedFlows walk := by
  simp only [outputScopeProblems_eq_nil_iff]
  refine ⟨?_, ?_⟩
  · intro hscope out id value origin flow hmem horigin walk hwalk
    obtain ⟨values, hvalues, _⟩ := c.graph.mem_outputEntries.mp hmem
    have hout : out ∈ c.graph.outputFlows.keys :=
      (Table.contains_iff _ _).mp ((Table.contains_iff_exists _ _).mpr ⟨values, hvalues⟩)
    obtain ⟨f, v, hresolve, rfl, _⟩ := (hsymbols.output out id value hmem).resolve_eq_proc horigin
    exact hscope out hout ⟨out, id, value, c.resolve value.source⟩ (mem_outputs.mpr ⟨hmem, rfl⟩) rfl
      origin f v hresolve _ ((mem_pathsInto_iff h).mpr ⟨walk, hwalk, rfl⟩)
  · rintro hwalks out _ o ho rfl origin f v hresolution scope hscope
    obtain ⟨hmem, hresolve⟩ := mem_outputs.mp ho
    obtain ⟨walk, hwalk, rfl⟩ := (mem_pathsInto_iff h).mp hscope
    rw [hresolve] at hresolution
    exact hwalks o.flow o.id o.value origin f.name hmem (resolve_eq_proc hresolution).1 walk hwalk

theorem scopeProblems_eq_nil_iff (h : c.Controlled) (hsymbols : c.SymbolsFit) :
    c.scopeProblems c.cycles = [] ↔ c.InScope := by
  have hcycles : ∀ id, (cycleOf? c.cycles id).isSome = false := by
    intro id
    rw [Bool.eq_false_iff]
    exact fun hsome => h.acyclic id ((c.cycleOf?_isSome_iff id).mp hsome)
  simp only [scopeProblems, List.append_eq_nil_iff, List.flatMap_eq_nil_iff, hcycles,
    Bool.false_eq_true, if_false, outputScope_silent_iff h hsymbols]
  refine ⟨?_, ?_⟩
  · intro hleft
    obtain ⟨hbindings, houtputs⟩ := hleft
    refine ⟨fun id node slot symbol origin flow hnode => ?_, houtputs⟩
    have hid := c.graph.mem_procIds.mpr (Option.isSome_iff_exists.mpr ⟨node, hnode⟩)
    exact (bindingScope_silent_iff h hsymbols hnode).mp (hbindings id hid) slot symbol origin flow
  · intro hscope
    refine ⟨fun id hid => ?_, hscope.output⟩
    obtain ⟨node, hnode⟩ := Option.isSome_iff_exists.mp (c.graph.mem_procIds.mp hid)
    rw [bindingScope_silent_iff h hsymbols hnode]
    exact fun slot symbol origin flow => hscope.binding id node slot symbol origin flow hnode


/-! ### All checks together -/

theorem diagnostics_eq_nil_iff :
    c.diagnostics = [] ↔ c.inputProblems = [] ∧
      (∀ id node, c.graph.proc? id = some node → c.nodeProblems id node = []) ∧
      (∀ flow id value, (flow, id, value) ∈ c.graph.outputEntries →
        c.outputProblems flow id value = []) ∧
      (∀ id e, (id, e) ∈ c.graph.edgesWithIds → c.edgeProblems id e = []) ∧
      ((∀ id node, c.graph.proc? id = some node →
          c.incomingProblems id node ++ c.outgoingProblems id node = []) ∧
        c.entryProblems = [] ∧ c.duplicateProblems = []) ∧
      c.cycleProblems c.cycles = [] ∧ c.scopeProblems c.cycles = [] := by
  simp only [diagnostics, List.append_eq_nil_iff, List.flatMap_eq_nil_iff, Prod.forall,
    Graph.mem_procsWithIds, and_assoc]

theorem wellFormed_of_diagnostics_eq_nil (h : c.diagnostics = []) : c.WellFormed := by
  obtain ⟨hinputs, hnodes, houtputs, hedges, hcontrol, hcycles, hscope⟩ := diagnostics_eq_nil_iff.mp h
  have htypes : c.TypesKnown := typesKnown_of_silent hinputs
    (fun id node hnode => (List.append_eq_nil_iff.mp (List.append_eq_nil_iff.mp
      (hnodes id node hnode)).1).1) houtputs
  obtain ⟨hslots, hbindings⟩ := (nodeProblems_eq_nil_iff htypes).mp hnodes
  have hsymbols : c.SymbolsFit := ⟨hbindings, fun flow id value hmem =>
    (outputProblems_eq_nil_iff_denotes htypes (htypes.output flow id value hmem)).mp
      (houtputs flow id value hmem)⟩
  have hanchored := (edgeProblems_eq_nil_iff htypes).mp hedges
  have hacyclic := cycleProblems_eq_nil_iff.mp hcycles
  have hcomplete := (control_silent_iff hanchored hacyclic).mp hcontrol
  have hinScope := (scopeProblems_eq_nil_iff ⟨hanchored, hcomplete, hacyclic⟩ hsymbols).mp hscope
  exact ⟨htypes, hslots, hsymbols, hanchored, hcomplete, hacyclic, hinScope⟩

theorem diagnostics_eq_nil_of_wellFormed (h : c.WellFormed) : c.diagnostics = [] := by
  rw [diagnostics_eq_nil_iff]
  refine ⟨inputProblems_eq_nil_iff.mpr h.types.input, ?_, ?_, ?_, ?_, ?_, ?_⟩
  · exact (nodeProblems_eq_nil_iff h.types).mpr ⟨h.slots, h.symbols.binding⟩
  · intro flow id value hmem
    exact (outputProblems_eq_nil_iff_denotes h.types (h.types.output flow id value hmem)).mpr
      (h.symbols.output flow id value hmem)
  · exact (edgeProblems_eq_nil_iff h.types).mpr h.edges
  · exact (control_silent_iff h.edges h.acyclic).mpr h.control
  · exact cycleProblems_eq_nil_iff.mpr h.acyclic
  · exact (scopeProblems_eq_nil_iff h.controlled h.symbols).mpr h.scope

/-- A graph has no diagnostics exactly if it is well formed. -/
theorem diagnostics_eq_nil_iff_wellFormed (c : Context) : c.diagnostics = [] ↔ c.WellFormed :=
  ⟨wellFormed_of_diagnostics_eq_nil, diagnostics_eq_nil_of_wellFormed⟩

end ProcFlow.Context
