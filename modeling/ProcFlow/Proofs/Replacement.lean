import ProcFlow.Proofs.Changes
/-!
# Another node in one place

One node of a well-formed graph is replaced by another. The rest of the graph reads and is read as before:
a symbol of the node can still be looked up, also if the node has lost its definition, because then nobody
asks for more. So all that can be wrong with the data is wrong with the new node; and if only one of its
inputs has been bound anew, with that binding.
-/

namespace ProcFlow

theorem flatMap_eq_of_unique {α β : Type} {l : List α} {f : α → List β} {a : α} (hnodup : l.Nodup)
    (ha : a ∈ l) (hsilent : ∀ b ∈ l, b ≠ a → f b = []) : l.flatMap f = f a := by
  obtain ⟨before, after, rfl⟩ := List.append_of_mem ha
  have hne : ∀ b ∈ before ++ after, b ≠ a := by
    rintro b hb rfl
    exact (List.nodup_cons.mp (List.nodup_middle.mp hnodup)).1 hb
  have hbefore : before.flatMap f = [] := List.flatMap_eq_nil_iff.mpr fun b hb =>
    hsilent b (List.mem_append_left _ hb) (hne b (List.mem_append_left _ hb))
  have hafter : after.flatMap f = [] := List.flatMap_eq_nil_iff.mpr fun b hb =>
    hsilent b (List.mem_append_right _ (List.mem_cons_of_mem a hb)) (hne b (List.mem_append_right _ hb))
  rw [List.flatMap_append, List.flatMap_cons, hbefore, hafter, List.nil_append, List.append_nil]

namespace Table

variable {α : Type} (t : Table α)

theorem nodup_entries : t.entries.Nodup := t.nodup.of_map

theorem mem_entries_insert {key k : String} {value v : α} :
    (k, v) ∈ (t.insert key value).entries
      ↔ (k = key ∧ v = value) ∨ (k ≠ key ∧ (k, v) ∈ t.entries) := by
  rw [← get?_eq_some_iff, ← get?_eq_some_iff, get?_insert]
  by_cases hk : k = key
  · simp [hk, eq_comm]
  · simp [hk]

theorem mem_keys_insert {key k : String} {value : α} (h : k ∈ t.keys) :
    k ∈ (t.insert key value).keys := by
  rw [keys_insert]
  split
  · exact h
  · exact List.mem_append_left _ h

end Table

namespace Graph

variable (g : Graph)

theorem nodup_procsWithIds : g.procsWithIds.Nodup := by
  apply List.Nodup.of_map Prod.fst
  rw [map_fst_procsWithIds]
  exact g.nodup_procIds

/-- Another graph has another node in one place, and is the same otherwise. -/
structure Swaps (g g' : Graph) (p : ProcId) (node' : ProcNode) : Prop where
  proc? : ∀ id, g'.proc? id = if id = p then some node' else g.proc? id
  edges : g'.edges = g.edges
  inputs : g'.inputs = g.inputs
  outputFlows : g'.outputFlows = g.outputFlows

theorem swaps_modifyProc {g : Graph} {p : ProcId} {node : ProcNode} (hnode : g.proc? p = some node)
    (f : ProcNode → ProcNode) : g.Swaps (g.modifyProc p f) p (f node) := by
  refine ⟨fun id => ?_, rfl, rfl, rfl⟩
  rw [proc?] at hnode
  rw [proc?, modifyProc, List.getElem?_modify]
  by_cases hid : id = p
  · rw [if_pos hid, hid, hnode]
    simp
  · have hne : p.index ≠ id.index := fun heq => hid (congrArg ProcId.mk heq.symm)
    simp [hid, hne, proc?]

theorem swaps_bind {g : Graph} {p : ProcId} {node : ProcNode} (hnode : g.proc? p = some node)
    (slot : String) (symbol : SymbolRef) :
    g.Swaps (g.bind p slot symbol) p { node with inputs := node.inputs.insert slot symbol } :=
  swaps_modifyProc hnode _

end Graph


namespace Context

/-- Another graph in the light of the same definitions. -/
def withGraph (c : Context) (g : Graph) : Context := ⟨g, c.catalog⟩

variable {c c' : Context} {g' : Graph}


/-! ### Symbols that can be read -/

/-- A symbol can be read as something of a type, as far as can be told. -/
def Legible (c : Context) (s : SymbolRef) (type : TypeId) : Prop :=
  (∃ r, c.lookup s = .ok r) ∧
    ∀ actual, (c.resolve s).type? = some actual → c.typesDiffer type (some actual) = false

theorem Denotes.legible {s : SymbolRef} {type : TypeId} (h : c.Denotes s type) :
    c.Legible s type := by
  obtain ⟨r, hr, _⟩ := h.lookup
  refine ⟨⟨r, hr⟩, fun actual hactual => ?_⟩
  rw [h.type?_resolve, Option.some.injEq] at hactual
  simp [typesDiffer, hactual]

theorem SameArena.legible (h : SameArena c c') (hinputs : c'.graph.inputs = c.graph.inputs)
    {s : SymbolRef} {type : TypeId} (hdenotes : c.Denotes s type) : c'.Legible s type := by
  cases hdenotes with
  | input hinput => exact (Denotes.input (hinputs ▸ hinput)).legible
  | @value node flow id d f v hnode hflow hvalue =>
      rcases hd : c'.definition? node with _ | d'
      · obtain ⟨procNode, hproc, _⟩ := proc?_of_definition? hnode
        have hsome := (h.arena node).mpr (Option.isSome_iff_exists.mpr ⟨procNode, hproc⟩)
        have hlookup : c'.lookup ⟨.proc node flow, id⟩ = .ok .undefinedOrigin := by
          obtain ⟨procNode', hproc'⟩ := Option.isSome_iff_exists.mp hsome
          simp [Context.lookup, hproc', hd]
        refine ⟨⟨_, hlookup⟩, fun actual hactual => ?_⟩
        simp [resolve, hlookup, Resolution.type?] at hactual
      · obtain rfl := Option.some.inj (hnode.symm.trans (h.definition node d' hd))
        exact (Denotes.value hd hflow hvalue).legible

/-- What a symbol stands for depends on the inputs and on the definitions of the nodes. -/
theorem SameArena.lookup_eq (h : SameArena c c') (hinputs : c'.graph.inputs = c.graph.inputs)
    (hdefinition : ∀ id, c'.definition? id = c.definition? id) (s : SymbolRef) :
    c'.lookup s = c.lookup s := by
  have harena : ∀ id, (c'.graph.proc? id).isNone = (c.graph.proc? id).isNone := by
    intro id
    rw [← Option.not_isSome, ← Option.not_isSome, Bool.eq_iff_iff.mpr (h.arena id)]
  simp only [Context.lookup, hinputs, hdefinition, harena]

theorem bindingProblems_eq_nil_of_legible {id : ProcId} {node : ProcNode} {d : Definition}
    {slot : String} {symbol : SymbolRef} {expected : Slot}
    (hlegible : c.Legible symbol expected.type) (hd : c.definition? id = some d)
    (hslot : d.input? slot = some expected) :
    c.bindingProblems id node slot symbol = [] := by
  refine bindingProblems_eq_nil_iff.mpr ⟨hlegible.1, fun d' hd' => ?_⟩
  obtain rfl := Option.some.inj (hd.symm.trans hd')
  exact ⟨expected, hslot, hlegible.2⟩

theorem outputProblems_eq_nil_of_legible {flow id : String} {value : OutputValue}
    (hlegible : c.Legible value.source value.type) (hknown : c.catalog.knows value.type) :
    c.outputProblems flow id value = [] :=
  outputProblems_eq_nil_iff.mpr ⟨hknown, hlegible⟩

/-- A node whose definition and whose bindings stay as they were has nothing to report. -/
theorem WellFormed.nodeProblems_eq_nil (h : c.WellFormed) (hcatalog : c'.catalog = c.catalog)
    {id : ProcId} {node : ProcNode} (hnode : c.graph.proc? id = some node)
    (hdefinition : c'.definition? id = c.definition? id)
    (hlegible : ∀ slot symbol type, (slot, symbol) ∈ node.inputs.entries → c.Denotes symbol type →
      c'.Legible symbol type) : c'.nodeProblems id node = [] := by
  obtain ⟨d, hdef, hknown⟩ := h.types.procedure id node hnode
  have hd : c.definition? id = some d := (definition?_of_proc? hnode).trans hdef
  rw [nodeProblems, List.append_eq_nil_iff, List.append_eq_nil_iff, procedureProblems_eq_nil_iff,
    List.flatMap_eq_nil_iff, missingSlots_eq_nil_iff, hdefinition, hcatalog]
  refine ⟨⟨⟨d, hd, hknown⟩, ?_⟩, ?_⟩
  · rintro ⟨slot, symbol⟩ hmem
    obtain ⟨d', expected, hd', hslot, hdenotes⟩ := h.symbols.binding id node slot symbol hnode hmem
    exact bindingProblems_eq_nil_of_legible (hlegible slot symbol _ hmem hdenotes)
      (hdefinition.trans hd') hslot
  · intro d' hd' slot hslot
    exact (h.slots id node d' hnode hd' slot.name).mpr (List.mem_map_of_mem hslot)


/-! ### Another node in one place -/

section Swap

variable {p : ProcId} {node node' : ProcNode}

theorem definition?_of_swaps_ne (h : c.graph.Swaps g' p node') {id : ProcId} (hid : id ≠ p) :
    (c.withGraph g').definition? id = c.definition? id := by
  rw [definition?, definition?, withGraph, h.proc?, if_neg hid]

theorem definition?_of_swaps (h : c.graph.Swaps g' p node') :
    (c.withGraph g').definition? p = c.catalog.definition? node'.procedure := by
  rw [definition?, withGraph, h.proc?, if_pos rfl, Option.bind_some]

theorem sameControl_of_swaps (h : c.graph.Swaps g' p node') (hnode : c.graph.proc? p = some node)
    (hdefinition : ∀ d, c.catalog.definition? node'.procedure = some d →
      c.catalog.definition? node.procedure = some d) : SameControl c (c.withGraph g') where
  catalog := rfl
  arena := by
    intro id
    rw [withGraph, h.proc?]
    by_cases hid : id = p
    · simp [hid, hnode]
    · rw [if_neg hid]
  definition := by
    intro id d hd
    by_cases hid : id = p
    · subst hid
      rw [definition?_of_swaps h] at hd
      rw [definition?_of_proc? hnode]
      exact hdefinition d hd
    · rwa [definition?_of_swaps_ne h hid] at hd
  edges := h.edges
  outputs := by rw [withGraph, h.outputFlows]

theorem readsOut_of_swaps (h : c.graph.Swaps g' p node') {out : String} {origin : ProcId}
    {flow : String} (hread : (c.withGraph g').ReadsOut out origin flow) :
    c.ReadsOut out origin flow := by
  obtain ⟨id, value, hmem, horigin⟩ := hread
  refine ⟨id, value, ?_, horigin⟩
  rw [Graph.mem_outputEntries] at hmem ⊢
  rwa [withGraph, h.outputFlows] at hmem

theorem readsAt_of_swaps_ne (h : c.graph.Swaps g' p node') {id origin : ProcId} {flow : String}
    (hid : id ≠ p) (hread : (c.withGraph g').ReadsAt id origin flow) : c.ReadsAt id origin flow := by
  obtain ⟨other, slot, symbol, hother, hmem, horigin⟩ := hread
  rw [withGraph, h.proc?, if_neg hid] at hother
  exact ⟨other, slot, symbol, hother, hmem, horigin⟩

section

variable (h : c.graph.Swaps g' p node') (hsame : SameControl c (c.withGraph g')) (hc : c.WellFormed)
include h hsame hc

theorem outputProblems_of_swaps :
    (c.withGraph g').graph.outputEntries.flatMap
      (fun (flow, id, value) => (c.withGraph g').outputProblems flow id value) = [] := by
  rw [List.flatMap_eq_nil_iff]
  rintro ⟨flow, id, value⟩ hmem
  rw [Graph.mem_outputEntries, withGraph, h.outputFlows, ← Graph.mem_outputEntries] at hmem
  exact outputProblems_eq_nil_of_legible
    (hsame.legible h.inputs (hc.symbols.output flow id value hmem)) (hc.types.output flow id value hmem)

/-- All that is wrong with nodes is wrong with the node in the changed place. -/
theorem nodeProblems_of_swaps :
    (c.withGraph g').graph.procsWithIds.flatMap
        (fun (id, node) => (c.withGraph g').nodeProblems id node)
      = (c.withGraph g').nodeProblems p node' := by
  have hp : (p, node') ∈ (c.withGraph g').graph.procsWithIds := by
    rw [Graph.mem_procsWithIds, withGraph, h.proc?, if_pos rfl]
  apply flatMap_eq_of_unique (Graph.nodup_procsWithIds _) hp
  rintro ⟨id, other⟩ hmem hne
  rw [Graph.mem_procsWithIds, withGraph, h.proc?] at hmem
  by_cases hid : id = p
  · rw [if_pos hid, Option.some.injEq] at hmem
    exact absurd (by rw [hid, hmem]) hne
  · rw [if_neg hid] at hmem
    exact hc.nodeProblems_eq_nil hsame.catalog hmem (definition?_of_swaps_ne h hid)
      fun _ _ _ _ => hsame.legible h.inputs

theorem dataProblems_of_swaps :
    (c.withGraph g').dataProblems = (c.withGraph g').nodeProblems p node' := by
  have hinputs : (c.withGraph g').inputProblems = [] := by
    rw [inputProblems_eq_nil_iff, withGraph, h.inputs]
    exact hc.types.input
  rw [dataProblems, hinputs, nodeProblems_of_swaps h hsame hc, outputProblems_of_swaps h hsame hc,
    List.nil_append, List.append_nil]

end

end Swap


/-! ### Other bindings of a node -/

section Bindings

variable {p : ProcId} {node : ProcNode} {inputs : Table SymbolRef}

theorem definition?_of_swaps_inputs (h : c.graph.Swaps g' p { node with inputs })
    (hnode : c.graph.proc? p = some node) (id : ProcId) :
    (c.withGraph g').definition? id = c.definition? id := by
  by_cases hid : id = p
  · rw [hid, definition?_of_swaps h, definition?_of_proc? hnode]
  · exact definition?_of_swaps_ne h hid

theorem procedureProblems_of_swaps_inputs (h : c.graph.Swaps g' p { node with inputs })
    (hnode : c.graph.proc? p = some node) (hc : c.WellFormed) :
    (c.withGraph g').procedureProblems p { node with inputs } = [] := by
  obtain ⟨d, hd, hknown⟩ := hc.types.procedure p node hnode
  rw [procedureProblems_eq_nil_iff, definition?_of_swaps_inputs h hnode, definition?_of_proc? hnode]
  exact ⟨d, hd, hknown⟩

/-- A binding that was there before has nothing to report. -/
theorem bindingProblems_of_swaps_inputs (h : c.graph.Swaps g' p { node with inputs })
    (hnode : c.graph.proc? p = some node) (hc : c.WellFormed) {slot : String} {symbol : SymbolRef}
    (hmem : (slot, symbol) ∈ node.inputs.entries) :
    (c.withGraph g').bindingProblems p { node with inputs } slot symbol = [] := by
  have hsame := sameControl_of_swaps h hnode fun d hd => hd
  obtain ⟨d, expected, hd, hslot, hdenotes⟩ := hc.symbols.binding p node slot symbol hnode hmem
  exact bindingProblems_eq_nil_of_legible (hsame.legible h.inputs hdenotes)
    ((definition?_of_swaps_inputs h hnode p).trans hd) hslot

/-- All that is wrong with a node that has one input bound anew is wrong with that binding. -/
theorem nodeProblems_bind (hc : c.WellFormed) (hnode : c.graph.proc? p = some node) (slot : String)
    (symbol : SymbolRef) :
    (c.withGraph (c.graph.bind p slot symbol)).nodeProblems p
        { node with inputs := node.inputs.insert slot symbol }
      = (c.withGraph (c.graph.bind p slot symbol)).bindingProblems p
          { node with inputs := node.inputs.insert slot symbol } slot symbol := by
  have hswap := Graph.swaps_bind hnode slot symbol
  have hentry : (slot, symbol) ∈ (node.inputs.insert slot symbol).entries :=
    (Table.mem_entries_insert _).mpr (Or.inl ⟨rfl, rfl⟩)
  have hmissing : (c.withGraph (c.graph.bind p slot symbol)).missingSlots p
      { node with inputs := node.inputs.insert slot symbol } = [] := by
    rw [missingSlots_eq_nil_iff, definition?_of_swaps_inputs hswap hnode]
    intro d hd other hother
    exact Table.mem_keys_insert _
      ((hc.slots p node d hnode hd other.name).mpr (List.mem_map_of_mem hother))
  rw [nodeProblems, procedureProblems_of_swaps_inputs hswap hnode hc, hmissing, List.nil_append,
    List.append_nil]
  apply flatMap_eq_of_unique (Table.nodup_entries _) hentry
  rintro ⟨other, s⟩ hother hne
  rcases (Table.mem_entries_insert _).mp hother with ⟨rfl, rfl⟩ | ⟨_, hold⟩
  · exact absurd rfl hne
  · exact bindingProblems_of_swaps_inputs hswap hnode hc hold

end Bindings

end Context

end ProcFlow
