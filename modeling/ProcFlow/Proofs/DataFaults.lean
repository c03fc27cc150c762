import ProcFlow.Proofs.Replacement
import ProcFlow.Proofs.Unfolding
/-!
# Faults in the data of a graph

One name or one type of a valid graph is made wrong. Then exactly that is found: the fault is reported on
the part that has it, once, and nothing else is reported for it. A node that has lost its definition
passes its readers by, an unresolved symbol has no type to differ and no scope to leave, and neither
control nor dependency looks at types or at the names of values.
-/

namespace ProcFlow

open Diagnostic (Kind Subject)
open Relation (TransGen)

theorem flatMap_ite_eq_map_filter {α β : Type} (l : List α) (q : α → Prop) [DecidablePred q]
    (f : α → β) :
    l.flatMap (fun a => if q a then [f a] else []) = (l.filter (fun a => q a)).map f := by
  induction l with
  | nil => rfl
  | cons a rest ih =>
      rw [List.flatMap_cons, List.filter_cons, ih]
      by_cases ha : q a <;> simp [ha]

theorem Table.get?_erase {α : Type} (t : Table α) (key k : String) :
    (t.erase key).get? k = if k = key then none else t.get? k := by
  ext v
  rw [get?_eq_some_iff, erase, List.mem_filter, decide_eq_true_iff, ← get?_eq_some_iff]
  by_cases hk : k = key <;> simp [hk]

namespace Graph

variable (g : Graph)

theorem nodup_outputEntries : g.outputEntries.Nodup := by
  rw [outputEntries, List.nodup_flatMap]
  refine ⟨?_, ?_⟩
  · intro entry _
    exact entry.2.nodup_entries.map fun a b hab => by simpa using hab
  · refine (List.pairwise_map.mp g.outputFlows.nodup).imp ?_
    intro a b hne x hxa hxb
    obtain ⟨_, _, rfl⟩ := List.mem_map.mp hxa
    obtain ⟨_, _, heq⟩ := List.mem_map.mp hxb
    exact hne (congrArg Prod.fst heq).symm

/-- The bindings and the output values that read a symbol, in order. -/
def readers (symbol : SymbolRef) : List Subject :=
  g.procsWithIds.flatMap (fun (id, node) =>
      (node.inputs.entries.filter fun (_, s) => s = symbol).map fun (slot, _) => .binding id slot)
    ++ (g.outputEntries.filter fun (_, _, value) => value.source = symbol).map
      fun (flow, id, _) => .outputValue flow id

theorem mem_outputEntries_declareOutput {flow id f i : String} {type : TypeId} {source : SymbolRef}
    {value : OutputValue} :
    (f, i, value) ∈ (g.declareOutput flow id type source).outputEntries
      ↔ ((f = flow ∧ i = id) ∧ value = ⟨type, source⟩)
        ∨ (¬ (f = flow ∧ i = id) ∧ (f, i, value) ∈ g.outputEntries) := by
  rw [mem_outputEntries, mem_outputEntries, declareOutput]
  simp only [Table.get?_insert]
  by_cases hf : f = flow
  · subst hf
    simp only [if_true, Option.some.injEq, exists_eq_left', Table.get?_insert, true_and]
    by_cases hi : i = id
    · simp [hi, eq_comm]
    · rcases hvalues : g.outputFlows.get? f with _ | values
      · simp [hi, Table.get?, Table.empty]
      · simp [hi]
  · simp [hf]

theorem keys_declareOutput {flow id : String} {type : TypeId} {source : SymbolRef}
    (h : flow ∈ g.outputFlows.keys) :
    (g.declareOutput flow id type source).outputFlows.keys = g.outputFlows.keys := by
  rw [declareOutput, Table.keys_insert, if_pos h]

theorem mem_keys_of_mem_outputEntries {flow id : String} {value : OutputValue}
    (h : (flow, id, value) ∈ g.outputEntries) : flow ∈ g.outputFlows.keys := by
  obtain ⟨values, hvalues, _⟩ := g.mem_outputEntries.mp h
  exact (Table.contains_iff _ _).mp ((Table.contains_iff_exists _ _).mpr ⟨values, hvalues⟩)

end Graph


namespace Context

variable {c c' : Context} {g' : Graph}


/-! ### What a fault is reported as -/

theorem finding_symbolProblems {subject : Subject} {s : SymbolRef}
    (h : ∀ r, c.lookup s ≠ .ok r) :
    (c.symbolProblems subject s).map Diagnostic.finding = [(.unresolvedSymbolSource, subject)] := by
  rcases hlookup : c.lookup s with reason | r
  · simp only [symbolProblems, hlookup, List.map_cons, List.map_nil, Diagnostic.finding]
  · exact absurd hlookup (h r)

theorem type?_resolve_eq_none {s : SymbolRef} (h : ∀ r, c.lookup s ≠ .ok r) :
    (c.resolve s).type? = none := by
  rcases hlookup : c.lookup s with reason | r
  · simp only [resolve, hlookup, Resolution.type?]
  · exact absurd hlookup (h r)

theorem finding_bindingProblems_unresolved {id : ProcId} {node : ProcNode} {slot : String}
    {symbol : SymbolRef} {d : Definition} {expected : Slot} (hd : c.definition? id = some d)
    (hslot : d.input? slot = some expected) (h : ∀ r, c.lookup symbol ≠ .ok r) :
    (c.bindingProblems id node slot symbol).map Diagnostic.finding
      = [(.unresolvedSymbolSource, .binding id slot)] := by
  simp only [bindingProblems, bindingOf, hd, Option.bind_some, hslot, type?_resolve_eq_none h,
    Option.isNone_some, Bool.and_false, Bool.false_eq_true, if_false, List.append_nil]
  exact finding_symbolProblems h

theorem finding_bindingProblems_unmatched {id : ProcId} {node : ProcNode} {slot : String}
    {symbol : SymbolRef} {d : Definition} (hd : c.definition? id = some d)
    (hslot : slot ∉ d.inputs.map Slot.name) {r : Resolution} (hlookup : c.lookup symbol = .ok r) :
    (c.bindingProblems id node slot symbol).map Diagnostic.finding
      = [(.unmatchedInputSlot, .binding id slot)] := by
  have hnone : d.input? slot = none := by
    rw [← Option.not_isSome_iff_eq_none]
    exact mt Definition.input?_isSome_iff.mp hslot
  have hsymbol : c.symbolProblems (.binding id slot) symbol = [] :=
    symbolProblems_eq_nil_iff.mpr ⟨r, hlookup⟩
  simp [bindingProblems, bindingOf, hd, hnone, hsymbol, Diagnostic.finding]

theorem finding_bindingProblems_mismatch {id : ProcId} {node : ProcNode} {slot : String}
    {symbol : SymbolRef} {d : Definition} {expected : Slot} {actual : TypeId}
    (hd : c.definition? id = some d) (hslot : d.input? slot = some expected)
    (hdenotes : c.Denotes symbol actual) (hne : expected.type ≠ actual)
    (hexpected : c.catalog.knows expected.type) (hactual : c.catalog.knows actual) :
    (c.bindingProblems id node slot symbol).map Diagnostic.finding
      = [(.typeMismatch, .binding id slot)] := by
  have hsymbol : c.symbolProblems (.binding id slot) symbol = [] :=
    symbolProblems_eq_nil_iff.mpr hdenotes.legible.1
  simp [bindingProblems, bindingOf, hd, hslot, hsymbol, hdenotes.type?_resolve, typesDiffer, hne,
    hexpected, hactual, Diagnostic.finding]

theorem finding_outputProblems_unresolved {flow id : String} {value : OutputValue}
    (hknown : c.catalog.knows value.type) (h : ∀ r, c.lookup value.source ≠ .ok r) :
    (c.outputProblems flow id value).map Diagnostic.finding
      = [(.unresolvedSymbolSource, .outputValue flow id)] := by
  simp only [outputProblems, hknown, if_true, List.nil_append, type?_resolve_eq_none h,
    List.append_nil]
  exact finding_symbolProblems h

theorem finding_outputProblems_mismatch {flow id : String} {value : OutputValue} {actual : TypeId}
    (hdenotes : c.Denotes value.source actual) (hne : value.type ≠ actual)
    (hknown : c.catalog.knows value.type) (hactual : c.catalog.knows actual) :
    (c.outputProblems flow id value).map Diagnostic.finding
      = [(.typeMismatch, .outputValue flow id)] := by
  have hsymbol : c.symbolProblems (.outputValue flow id) value.source = [] :=
    symbolProblems_eq_nil_iff.mpr hdenotes.legible.1
  simp [outputProblems, hsymbol, hdenotes.type?_resolve, typesDiffer, hne, hknown, hactual,
    Diagnostic.finding]

/-- If one slot of a node is left unbound, it is missed once. -/
theorem finding_missingSlots {id : ProcId} {node : ProcNode} {d : Definition} {slot : Slot}
    (hd : c.definition? id = some d) (hnodup : (d.inputs.map Slot.name).Nodup)
    (hslot : slot ∈ d.inputs) (hfree : slot.name ∉ node.inputs.keys)
    (hbound : ∀ other ∈ d.inputs, other ≠ slot → other.name ∈ node.inputs.keys) :
    (c.missingSlots id node).map Diagnostic.finding = [(.missingInputSlot, .proc id)] := by
  simp only [missingSlots, hd, List.filterMap_eq_flatMap_toList]
  rw [flatMap_eq_of_unique hnodup.of_map hslot]
  · have hcontains : node.inputs.contains slot.name = false :=
      Bool.eq_false_iff.mpr (mt (Table.contains_iff _ _).mp hfree)
    simp [hcontains, Diagnostic.finding]
  · intro other hother hne
    rw [if_pos ((Table.contains_iff _ _).mpr (hbound other hother hne))]
    rfl


/-! ### Only the data has changed -/

/-- Nothing is read from a flow that was not read there before. -/
structure ReadsWithin (c c' : Context) : Prop where
  binding : ∀ id origin flow, c'.ReadsAt id origin flow → c.ReadsAt id origin flow
  output : ∀ out origin flow, c'.ReadsOut out origin flow → c.ReadsOut out origin flow

theorem SameControl.acyclic (h : SameControl c c') (hreads : ReadsWithin c c') (hc : c.Acyclic) :
    c'.Acyclic := by
  apply hc.of_leadsTo
  intro u v hlead
  rw [LeadsTo.iff_readsAt] at hlead ⊢
  rcases hlead with ⟨hu, hv, flow, hedge⟩ | ⟨hu, flow, hread⟩
  · exact Or.inl ⟨(h.arena u).mp hu, (h.arena v).mp hv, flow, h.edges ▸ hedge⟩
  · exact Or.inr ⟨(h.arena u).mp hu, flow, hreads.binding v u flow hread⟩

/-- Where control stays and no more is read than before, all findings are about data. -/
theorem SameControl.findings_eq (h : SameControl c c') (hreads : ReadsWithin c c')
    (hc : c.WellFormed) : c'.findings = c'.dataProblems.map Diagnostic.finding := by
  have hcontrol := h.controlProblems_eq_nil hc.controlled
  have hcycles := cycleProblems_eq_nil_iff.mpr (h.acyclic hreads hc.acyclic)
  have hscope : c'.scopeProblems c'.cycles = [] := by
    apply scopeProblems_eq_nil_of_inScope hc.scope (fun id origin flow _ => hreads.binding id origin flow)
      hreads.output
    · intro id walk _ hwalk _ e he
      exact h.edges ▸ hwalk.mem_edges e he
    · intro out walk _ hwalk _ e he
      exact h.edges ▸ hwalk.mem_edges e he
  rw [findings, diagnostics_eq_append, hcontrol, hcycles, hscope, List.append_nil, List.append_nil,
    List.append_nil]


section Swap

variable {p : ProcId} {node node' : ProcNode}

theorem readsWithin_of_swaps (h : c.graph.Swaps g' p node') (hnode : c.graph.proc? p = some node)
    (hreads : ∀ slot symbol, (slot, symbol) ∈ node'.inputs.entries →
      ∃ slot₀ symbol₀, (slot₀, symbol₀) ∈ node.inputs.entries ∧ symbol₀.origin = symbol.origin) :
    ReadsWithin c (c.withGraph g') where
  binding := by
    intro id origin flow hread
    by_cases hid : id = p
    · subst hid
      obtain ⟨other, slot, symbol, hother, hmem, horigin⟩ := hread
      rw [withGraph, h.proc?, if_pos rfl, Option.some.injEq] at hother
      subst hother
      obtain ⟨slot₀, symbol₀, hmem₀, horigin₀⟩ := hreads slot symbol hmem
      exact ⟨node, slot₀, symbol₀, hnode, hmem₀, horigin₀.trans horigin⟩
    · exact readsAt_of_swaps_ne h hid hread
  output := fun _ _ _ => readsOut_of_swaps h

/-- Where a node reads from nowhere else than before, all findings are about the node. -/
theorem findings_of_swaps (h : c.graph.Swaps g' p node') (hnode : c.graph.proc? p = some node)
    (hdefinition : ∀ d, c.catalog.definition? node'.procedure = some d →
      c.catalog.definition? node.procedure = some d)
    (hreads : ∀ slot symbol, (slot, symbol) ∈ node'.inputs.entries →
      ∃ slot₀ symbol₀, (slot₀, symbol₀) ∈ node.inputs.entries ∧ symbol₀.origin = symbol.origin)
    (hc : c.WellFormed) :
    (c.withGraph g').findings
      = ((c.withGraph g').nodeProblems p node').map Diagnostic.finding := by
  have hsame := sameControl_of_swaps h hnode hdefinition
  rw [hsame.findings_eq (readsWithin_of_swaps h hnode hreads) hc, dataProblems_of_swaps h hsame hc]

end Swap


/-! ### Unknown procedures -/

theorem findings_setProcedure (hc : c.WellFormed) {p : ProcId} {node : ProcNode} {name : String}
    (hnode : c.graph.proc? p = some node) (hname : c.catalog.definition? name = none) :
    (c.withGraph (c.graph.setProcedure p name)).findings = [(.unresolvedProcedure, .proc p)] := by
  have hswap := Graph.swaps_modifyProc hnode fun node => { node with procedure := name }
  have hdefinition : ∀ d, c.catalog.definition? name = some d →
      c.catalog.definition? node.procedure = some d := by
    intro d hd
    rw [hname] at hd
    cases hd
  rw [Graph.setProcedure, findings_of_swaps hswap hnode hdefinition
    (fun slot symbol hmem => ⟨slot, symbol, hmem, rfl⟩) hc]
  have hsame := sameControl_of_swaps hswap hnode hdefinition
  have hundefined := (definition?_of_swaps hswap).trans hname
  -- The bindings of the node can still be looked up, and none of them is held against a slot.
  have hbindings : node.inputs.entries.flatMap (fun (slot, symbol) =>
      (c.withGraph (c.graph.modifyProc p fun node => { node with procedure := name })).bindingProblems
        p { node with procedure := name } slot symbol) = [] := by
    rw [List.flatMap_eq_nil_iff]
    rintro ⟨slot, symbol⟩ hmem
    obtain ⟨d, expected, _, _, hdenotes⟩ := hc.symbols.binding p node slot symbol hnode hmem
    refine bindingProblems_eq_nil_iff.mpr ⟨(hsame.legible hswap.inputs hdenotes).1, fun d hd => ?_⟩
    rw [hundefined] at hd
    cases hd
  simp only [nodeProblems, hbindings, procedureProblems, hundefined, missingSlots, List.append_nil,
    List.map_cons, List.map_nil, Diagnostic.finding]


/-! ### Bindings under another name -/

/-- As a map, one table is another with one name changed; the order of the names is free. -/
def Renames {α : Type} (t t' : Table α) (old new : String) : Prop :=
  ∀ key, t'.get? key = if key = new then t.get? old else if key = old then none else t.get? key

theorem renames_insert_erase {α : Type} {t : Table α} {old : String} {value : α}
    (h : t.get? old = some value) (new : String) :
    Renames t ((t.erase old).insert new value) old new := by
  intro key
  rw [Table.get?_insert, Table.get?_erase, h]

theorem Renames.eq_or_mem {α : Type} {t t' : Table α} {old new key : String} {value v : α}
    (h : Renames t t' old new) (hvalue : t.get? old = some value) (hmem : (key, v) ∈ t'.entries) :
    (key = new ∧ v = value) ∨ (key, v) ∈ t.entries := by
  rw [← Table.get?_eq_some_iff, h key] at hmem
  split at hmem
  · next heq => exact Or.inl ⟨heq, (Option.some.inj (hvalue.symm.trans hmem)).symm⟩
  · split at hmem
    · cases hmem
    · exact Or.inr ((Table.get?_eq_some_iff _ _ _).mp hmem)

theorem Renames.mem_keys_iff {α : Type} {t t' : Table α} {old new key : String}
    (h : Renames t t' old new) (hkey : key ≠ new) : key ∈ t'.keys ↔ key ≠ old ∧ key ∈ t.keys := by
  rw [← Table.contains_iff, ← Table.contains_iff, Table.contains, Table.contains, h key, if_neg hkey]
  by_cases hold : key = old <;> simp [hold]

theorem findings_rename (hc : c.WellFormed) {p : ProcId} {node : ProcNode} {d : Definition}
    {old new : String} {inputs : Table SymbolRef} (hnode : c.graph.proc? p = some node)
    (hd : c.definition? p = some d) (hslots : (d.inputs.map Slot.name).Nodup)
    (hold : old ∈ node.inputs.keys) (hslot : new ∉ d.inputs.map Slot.name)
    (hfree : new ∉ node.inputs.keys) (hrename : Renames node.inputs inputs old new) :
    (c.withGraph (c.graph.modifyProc p fun node => { node with inputs })).findings
      = [(.unmatchedInputSlot, .binding p new), (.missingInputSlot, .proc p)] := by
  have hswap := Graph.swaps_modifyProc hnode fun node => { node with inputs }
  obtain ⟨symbol, hsymbol⟩ := (Table.contains_iff_exists _ _).mp ((Table.contains_iff _ _).mpr hold)
  have hmem := (Table.get?_eq_some_iff _ _ _).mp hsymbol
  have hreads : ∀ slot s, (slot, s) ∈ inputs.entries →
      ∃ slot₀ s₀, (slot₀, s₀) ∈ node.inputs.entries ∧ s₀.origin = s.origin := by
    intro slot s hentry
    rcases hrename.eq_or_mem hsymbol hentry with ⟨_, rfl⟩ | hentry
    · exact ⟨old, s, hmem, rfl⟩
    · exact ⟨slot, s, hentry, rfl⟩
  have hdefined := (definition?_of_swaps_inputs hswap hnode p).trans hd
  -- The renamed binding is the one that no slot expects.
  have hbindings : (inputs.entries.flatMap fun (slot, s) =>
      (c.withGraph (c.graph.modifyProc p fun node => { node with inputs })).bindingProblems p
        { node with inputs } slot s).map Diagnostic.finding
      = [(.unmatchedInputSlot, .binding p new)] := by
    have hentry : (new, symbol) ∈ inputs.entries := by
      rw [← Table.get?_eq_some_iff, hrename new, if_pos rfl, hsymbol]
    rw [flatMap_eq_of_unique inputs.nodup_entries hentry]
    · obtain ⟨_, _, _, _, hdenotes⟩ := hc.symbols.binding p node old symbol hnode hmem
      have hsame := sameControl_of_swaps hswap hnode fun d hd => hd
      obtain ⟨r, hlookup⟩ := (hsame.legible hswap.inputs hdenotes).1
      exact finding_bindingProblems_unmatched hdefined hslot hlookup
    · rintro ⟨slot, s⟩ hother hne
      rcases hrename.eq_or_mem hsymbol hother with ⟨rfl, rfl⟩ | hother
      · exact absurd rfl hne
      · exact bindingProblems_of_swaps_inputs hswap hnode hc hother
  -- The slot that it was bound to is the one that is missed.
  have hmissing : ((c.withGraph (c.graph.modifyProc p fun node => { node with inputs })).missingSlots p
      { node with inputs }).map Diagnostic.finding = [(.missingInputSlot, .proc p)] := by
    obtain ⟨slot, hdeclared, hname⟩ := List.mem_map.mp ((hc.slots p node d hnode hd old).mp hold)
    have hkeep : ∀ other ∈ d.inputs, other.name ∈ inputs.keys ↔ other.name ≠ old := by
      intro other hother
      rw [hrename.mem_keys_iff fun heq => hslot (heq ▸ List.mem_map_of_mem hother)]
      exact and_iff_left ((hc.slots p node d hnode hd _).mpr (List.mem_map_of_mem hother))
    apply finding_missingSlots hdefined hslots hdeclared
    · exact fun hkey => (hkeep slot hdeclared).mp hkey hname
    · intro other hother hdifferent
      rw [hkeep other hother, ← hname]
      exact fun heq => hdifferent (List.inj_on_of_nodup_map hslots hother hdeclared heq)
  rw [findings_of_swaps hswap hnode (fun d hd => hd) hreads hc, nodeProblems,
    procedureProblems_of_swaps_inputs hswap hnode hc, List.nil_append, List.map_append, hbindings,
    hmissing]
  rfl


/-! ### Symbols that stand for nothing -/

theorem WellFormed.lookup_ne_ok (hc : c.WellFormed) {s : SymbolRef}
    (hs : ∀ type, ¬ c.Denotes s type) (r : Resolution) : c.lookup s ≠ .ok r := by
  intro hlookup
  obtain ⟨type, hdenotes⟩ := exists_denotes_of_lookup hlookup hc.types.defined
  exact hs type hdenotes

theorem findings_bind_undeclared (hc : c.WellFormed) {p : ProcId} {node : ProcNode} {slot id : String}
    {symbol : SymbolRef} (hnode : c.graph.proc? p = some node)
    (hbound : node.inputs.get? slot = some symbol)
    (hundeclared : ∀ type, ¬ c.Denotes ⟨symbol.origin, id⟩ type) :
    (c.withGraph (c.graph.bind p slot ⟨symbol.origin, id⟩)).findings
      = [(.unresolvedSymbolSource, .binding p slot)] := by
  have hswap := Graph.swaps_bind hnode slot ⟨symbol.origin, id⟩
  have hsame := sameControl_of_swaps hswap hnode fun d hd => hd
  have hmem := (Table.get?_eq_some_iff _ _ _).mp hbound
  have hreads : ∀ other s, (other, s) ∈ (node.inputs.insert slot ⟨symbol.origin, id⟩).entries →
      ∃ slot₀ s₀, (slot₀, s₀) ∈ node.inputs.entries ∧ s₀.origin = s.origin := by
    intro other s hother
    rcases (Table.mem_entries_insert _).mp hother with ⟨_, rfl⟩ | ⟨_, hold⟩
    · exact ⟨slot, symbol, hmem, rfl⟩
    · exact ⟨other, s, hold, rfl⟩
  obtain ⟨d, expected, hd, hslot, _⟩ := hc.symbols.binding p node slot symbol hnode hmem
  have hdefined := (definition?_of_swaps_inputs hswap hnode p).trans hd
  have hunresolved : ∀ r, (c.withGraph (c.graph.bind p slot ⟨symbol.origin, id⟩)).lookup
      ⟨symbol.origin, id⟩ ≠ .ok r := by
    rw [hsame.lookup_eq hswap.inputs (definition?_of_swaps_inputs hswap hnode)]
    exact hc.lookup_ne_ok hundeclared
  rw [findings_of_swaps hswap hnode (fun d hd => hd) hreads hc, nodeProblems_bind hc hnode]
  exact finding_bindingProblems_unresolved hdefined hslot hunresolved


/-! ### Another value of an output flow -/

section Output

variable {flow id : String} {value : OutputValue}

/-- Where a value of an output flow is read from the flow it was read from before, all findings are about
the value. -/
theorem findings_declareOutput (hc : c.WellFormed) (hvalue : (flow, id, value) ∈ c.graph.outputEntries)
    (type : TypeId) (source : SymbolRef) (horigin : source.origin = value.source.origin) :
    (c.withGraph (c.graph.declareOutput flow id type source)).findings
      = (c.outputProblems flow id ⟨type, source⟩).map Diagnostic.finding := by
  have hsame : SameControl c (c.withGraph (c.graph.declareOutput flow id type source)) :=
    { catalog := rfl
      arena := fun _ => Iff.rfl
      definition := fun _ _ hd => hd
      edges := rfl
      outputs := c.graph.keys_declareOutput (c.graph.mem_keys_of_mem_outputEntries hvalue) }
  have hreads : ReadsWithin c (c.withGraph (c.graph.declareOutput flow id type source)) := by
    refine ⟨fun _ _ _ hread => hread, ?_⟩
    intro out origin label hread
    obtain ⟨i, v, hmem, hsource⟩ := hread
    rcases c.graph.mem_outputEntries_declareOutput.mp hmem with ⟨⟨rfl, rfl⟩, rfl⟩ | ⟨_, hold⟩
    · exact ⟨i, value, hvalue, horigin.symm.trans hsource⟩
    · exact ⟨i, v, hold, hsource⟩
  -- The other checks of data do not look at output flows, and the other values are as they were.
  have hold := dataProblems_eq_nil hc.types hc.slots hc.symbols
  rw [dataProblems, List.append_eq_nil_iff, List.flatMap_eq_nil_iff] at hold
  obtain ⟨hrest, hvalues⟩ := hold
  have hentry : (flow, id, ⟨type, source⟩)
      ∈ (c.graph.declareOutput flow id type source).outputEntries :=
    c.graph.mem_outputEntries_declareOutput.mpr (Or.inl ⟨⟨rfl, rfl⟩, rfl⟩)
  have hunique : (c.graph.declareOutput flow id type source).outputEntries.flatMap
      (fun (flow, id, value) => c.outputProblems flow id value)
        = c.outputProblems flow id ⟨type, source⟩ := by
    apply flatMap_eq_of_unique (Graph.nodup_outputEntries _) hentry
    rintro ⟨f, i, v⟩ hmem hne
    rcases c.graph.mem_outputEntries_declareOutput.mp hmem with ⟨⟨rfl, rfl⟩, rfl⟩ | ⟨_, hmem⟩
    · exact absurd rfl hne
    · exact hvalues _ hmem
  have hdata : (c.withGraph (c.graph.declareOutput flow id type source)).dataProblems
      = c.outputProblems flow id ⟨type, source⟩ := by
    calc (c.withGraph (c.graph.declareOutput flow id type source)).dataProblems
        = (c.inputProblems ++ c.graph.procsWithIds.flatMap fun (id, node) => c.nodeProblems id node)
            ++ (c.graph.declareOutput flow id type source).outputEntries.flatMap
              (fun (flow, id, value) => c.outputProblems flow id value) := rfl
      _ = c.outputProblems flow id ⟨type, source⟩ := by rw [hrest, hunique, List.nil_append]
  rw [hsame.findings_eq hreads hc, hdata]

theorem findings_output_undeclared (hc : c.WellFormed)
    (hvalue : (flow, id, value) ∈ c.graph.outputEntries) {symbol : String}
    (hundeclared : ∀ type, ¬ c.Denotes ⟨value.source.origin, symbol⟩ type) :
    (c.withGraph (c.graph.declareOutput flow id value.type ⟨value.source.origin, symbol⟩)).findings
      = [(.unresolvedSymbolSource, .outputValue flow id)] := by
  rw [findings_declareOutput hc hvalue value.type ⟨value.source.origin, symbol⟩ rfl]
  exact finding_outputProblems_unresolved (hc.types.output flow id value hvalue)
    (hc.lookup_ne_ok hundeclared)

theorem findings_output_type (hc : c.WellFormed)
    (hvalue : (flow, id, value) ∈ c.graph.outputEntries) {type : TypeId} (hne : type ≠ value.type)
    (hknown : c.catalog.knows type) :
    (c.withGraph (c.graph.declareOutput flow id type value.source)).findings
      = [(.typeMismatch, .outputValue flow id)] := by
  rw [findings_declareOutput hc hvalue type value.source rfl]
  exact finding_outputProblems_mismatch (hc.symbols.output flow id value hvalue) hne hknown
    (hc.types.output flow id value hvalue)

end Output


/-! ### Another type of an input -/

section Input

variable {key : String} {decl : InputDecl} {type : TypeId}

theorem Denotes.declareInput_of_ne {names : List String} {s : SymbolRef} {declared : TypeId}
    (h : c.Denotes s declared) (hs : s ≠ ⟨.entry, key⟩) :
    (c.withGraph (c.graph.declareInput key names type)).Denotes s declared := by
  cases h with
  | @input id decl hinput =>
      apply Denotes.input
      rw [withGraph, Graph.declareInput, Table.get?_insert, if_neg]
      · exact hinput
      · exact fun heq => hs (by rw [heq])
  | value hnode hflow hvalue => exact Denotes.value hnode hflow hvalue

theorem denotes_declareInput (names : List String) :
    (c.withGraph (c.graph.declareInput key names type)).Denotes ⟨.entry, key⟩ type := by
  have hget : (c.withGraph (c.graph.declareInput key names type)).graph.inputs.get? key
      = some ⟨names, type⟩ := by
    rw [withGraph, Graph.declareInput, Table.get?_insert, if_pos rfl]
  exact Denotes.input hget

/-- A symbol that stands for the changed input was of the type that the input had. -/
theorem Denotes.type_eq (h : c.Denotes ⟨.entry, key⟩ type) (hdecl : c.graph.inputs.get? key = some decl) :
    type = decl.type := by
  cases h with
  | input hinput => rw [Option.some.inj (hinput.symm.trans hdecl)]

variable (hc : c.WellFormed) (hdecl : c.graph.inputs.get? key = some decl) (hne : type ≠ decl.type)
  (hknown : c.catalog.knows type)
include hc hdecl hne hknown

theorem finding_bindingProblems_declareInput {id : ProcId} {node : ProcNode} {slot : String}
    {symbol : SymbolRef} (hnode : c.graph.proc? id = some node)
    (hmem : (slot, symbol) ∈ node.inputs.entries) :
    ((c.withGraph (c.graph.declareInput key decl.names type)).bindingProblems id node slot symbol).map
        Diagnostic.finding
      = if symbol = ⟨.entry, key⟩ then [(.typeMismatch, .binding id slot)] else [] := by
  obtain ⟨d, expected, hd, hslot, hdenotes⟩ := hc.symbols.binding id node slot symbol hnode hmem
  split
  · next heq =>
    subst heq
    have htype := hdenotes.type_eq hdecl
    refine finding_bindingProblems_mismatch hd hslot (denotes_declareInput decl.names) ?_ ?_ hknown
    · rw [htype]
      exact hne.symm
    · exact hc.types.knows_slot hd (Definition.input?_eq_some hslot).1
  · next hother =>
    rw [bindingProblems_eq_nil_of_legible (hdenotes.declareInput_of_ne hother).legible hd hslot]
    rfl

theorem finding_outputProblems_declareInput {flow id : String} {value : OutputValue}
    (hmem : (flow, id, value) ∈ c.graph.outputEntries) :
    ((c.withGraph (c.graph.declareInput key decl.names type)).outputProblems flow id value).map
        Diagnostic.finding
      = if value.source = ⟨.entry, key⟩ then [(.typeMismatch, .outputValue flow id)] else [] := by
  have hdenotes := hc.symbols.output flow id value hmem
  have hdeclared := hc.types.output flow id value hmem
  split
  · next heq =>
    have hsource : (c.withGraph (c.graph.declareInput key decl.names type)).Denotes value.source type :=
      heq ▸ denotes_declareInput decl.names
    refine finding_outputProblems_mismatch hsource ?_ hdeclared hknown
    rw [(heq ▸ hdenotes : c.Denotes ⟨.entry, key⟩ value.type).type_eq hdecl]
    exact hne.symm
  · next hother =>
    rw [outputProblems_eq_nil_of_legible (hdenotes.declareInput_of_ne hother).legible hdeclared]
    rfl

theorem finding_nodeProblems_declareInput {id : ProcId} {node : ProcNode}
    (hnode : c.graph.proc? id = some node) :
    ((c.withGraph (c.graph.declareInput key decl.names type)).nodeProblems id node).map
        Diagnostic.finding
      = (node.inputs.entries.filter fun e => e.2 = ⟨.entry, key⟩).map
          fun e => (.typeMismatch, .binding id e.1) := by
  -- The procedure and the slots of a node have nothing to do with the inputs of the graph.
  have hold := hc.nodeProblems_eq_nil rfl hnode rfl fun _ _ _ _ hdenotes => hdenotes.legible
  rw [nodeProblems, List.append_eq_nil_iff, List.append_eq_nil_iff] at hold
  have hprocedure : (c.withGraph (c.graph.declareInput key decl.names type)).procedureProblems id node
      = [] := hold.1.1
  have hmissing : (c.withGraph (c.graph.declareInput key decl.names type)).missingSlots id node
      = [] := hold.2
  rw [nodeProblems, hprocedure, hmissing, List.nil_append, List.append_nil, List.map_flatMap,
    ← flatMap_ite_eq_map_filter]
  apply List.flatMap_congr
  rintro ⟨slot, symbol⟩ hentry
  exact finding_bindingProblems_declareInput hc hdecl hne hknown hnode hentry

/-- Whoever reads the input is told of the type, and nobody else is. -/
theorem findings_declareInput :
    (c.withGraph (c.graph.declareInput key decl.names type)).findings
      = (c.graph.readers ⟨.entry, key⟩).map fun reader => (.typeMismatch, reader) := by
  have hsame : SameControl c (c.withGraph (c.graph.declareInput key decl.names type)) :=
    ⟨⟨rfl, fun _ => Iff.rfl, fun _ _ hd => hd⟩, rfl, rfl⟩
  have hreads : ReadsWithin c (c.withGraph (c.graph.declareInput key decl.names type)) :=
    ⟨fun _ _ _ hread => hread, fun _ _ _ hread => hread⟩
  have hinputs : (c.withGraph (c.graph.declareInput key decl.names type)).inputProblems = [] := by
    rw [inputProblems_eq_nil_iff]
    intro other decl' hget
    rw [withGraph, Graph.declareInput, Table.get?_insert] at hget
    split at hget
    · rw [← Option.some.inj hget]
      exact hknown
    · exact hc.types.input other decl' hget
  rw [hsame.findings_eq hreads hc, dataProblems, hinputs, List.nil_append, List.map_append,
    Graph.readers, List.map_append, List.map_map, List.map_flatMap, List.map_flatMap, List.map_flatMap]
  refine congrArg₂ (· ++ ·) ?_ ?_
  · apply List.flatMap_congr
    rintro ⟨id, node⟩ hmem
    rw [List.map_map]
    exact finding_nodeProblems_declareInput hc hdecl hne hknown (c.graph.mem_procsWithIds.mp hmem)
  · refine Eq.trans ?_ (flatMap_ite_eq_map_filter c.graph.outputEntries
      (fun e => e.2.2.source = ⟨.entry, key⟩)
      fun e => (Kind.typeMismatch, Subject.outputValue e.1 e.2.1))
    apply List.flatMap_congr
    rintro ⟨flow, id, value⟩ hmem
    exact finding_outputProblems_declareInput hc hdecl hne hknown hmem

end Input


/-! ### Each fault is found and nothing else is -/

/-- One fault in the data of a graph: the graph that has it, and what there is to find. -/
inductive DataFault (c : Context) : Graph → List (Kind × Subject) → Prop where
  /-- A node calls a procedure that is not defined. -/
  | procedure {p : ProcId} {node : ProcNode} {name : String} (hnode : c.graph.proc? p = some node)
      (hname : c.catalog.definition? name = none) :
      DataFault c (c.graph.setProcedure p name) [(.unresolvedProcedure, .proc p)]
  /-- A binding goes by a name that is neither a slot nor bound. -/
  | slot {p : ProcId} {node : ProcNode} {d : Definition} {old new : String} {inputs : Table SymbolRef}
      (hnode : c.graph.proc? p = some node) (hd : c.definition? p = some d)
      (hold : old ∈ node.inputs.keys) (hslot : new ∉ d.inputs.map Slot.name)
      (hfree : new ∉ node.inputs.keys) (hrename : Renames node.inputs inputs old new) :
      DataFault c (c.graph.modifyProc p fun node => { node with inputs })
        [(.unmatchedInputSlot, .binding p new), (.missingInputSlot, .proc p)]
  /-- A binding reads a name that is not declared where it reads. -/
  | binding {p : ProcId} {node : ProcNode} {slot id : String} {symbol : SymbolRef}
      (hnode : c.graph.proc? p = some node) (hbound : node.inputs.get? slot = some symbol)
      (hundeclared : ∀ type, ¬ c.Denotes ⟨symbol.origin, id⟩ type) :
      DataFault c (c.graph.bind p slot ⟨symbol.origin, id⟩)
        [(.unresolvedSymbolSource, .binding p slot)]
  /-- An output value reads a name that is not declared where it reads. -/
  | output {flow id symbol : String} {value : OutputValue}
      (hvalue : (flow, id, value) ∈ c.graph.outputEntries)
      (hundeclared : ∀ type, ¬ c.Denotes ⟨value.source.origin, symbol⟩ type) :
      DataFault c (c.graph.declareOutput flow id value.type ⟨value.source.origin, symbol⟩)
        [(.unresolvedSymbolSource, .outputValue flow id)]
  /-- An output value is declared with another type. -/
  | outputType {flow id : String} {value : OutputValue} {type : TypeId}
      (hvalue : (flow, id, value) ∈ c.graph.outputEntries) (hne : type ≠ value.type)
      (hknown : c.catalog.knows type) :
      DataFault c (c.graph.declareOutput flow id type value.source)
        [(.typeMismatch, .outputValue flow id)]
  /-- An input is declared with another type, which all its readers notice. -/
  | inputType {key : String} {decl : InputDecl} {type : TypeId}
      (hdecl : c.graph.inputs.get? key = some decl) (hne : type ≠ decl.type)
      (hknown : c.catalog.knows type) :
      DataFault c (c.graph.declareInput key decl.names type)
        ((c.graph.readers ⟨.entry, key⟩).map fun reader => (.typeMismatch, reader))

/-- A fault in the data of a valid graph is reported for what it is and where it is, and nothing else is
reported. -/
theorem findings_of_dataFault {cat : Catalog} (hloaded : cat.Loaded) {g g' : Graph}
    (hvalid : (cat.context g).diagnostics = []) {expected : List (Kind × Subject)}
    (hfault : (cat.context g).DataFault g' expected) : (cat.context g').findings = expected := by
  have hc := wellFormed_of_diagnostics_eq_nil hvalid
  cases hfault with
  | procedure hnode hname => exact findings_setProcedure hc hnode hname
  | slot hnode hd hold hslot hfree hrename =>
      obtain ⟨e, rfl, hfits⟩ := hloaded.exists_fits hd
      exact findings_rename hc hnode hd hfits.slots hold hslot hfree hrename
  | binding hnode hbound hundeclared => exact findings_bind_undeclared hc hnode hbound hundeclared
  | output hvalue hundeclared => exact findings_output_undeclared hc hvalue hundeclared
  | outputType hvalue hne hknown => exact findings_output_type hc hvalue hne hknown
  | inputType hdecl hne hknown => exact findings_declareInput hc hdecl hne hknown

theorem not_denotes_of_lookup {c : Context} {s : SymbolRef} (h : (c.lookup s).isOk = false)
    (type : TypeId) : ¬ c.Denotes s type := by
  intro hdenotes
  obtain ⟨r, hr, _⟩ := hdenotes.lookup
  rw [hr] at h
  cases h

open Code (division diagnostics_division) in
/-- The six faults, one after the other in the division. -/
theorem findings_division_faults :
    Catalog.standard.Loaded ∧ (Catalog.standard.context division).diagnostics = [] ∧
      (Catalog.standard.context (division.setProcedure ⟨1⟩ "root")).findings
        = [(.unresolvedProcedure, .proc ⟨1⟩)] ∧
      (Catalog.standard.context (division.modifyProc ⟨1⟩ fun node =>
          { node with inputs := .ofList [("y", ⟨.proc ⟨0⟩ "result", "res"⟩)] })).findings
        = [(.unmatchedInputSlot, .binding ⟨1⟩ "y"), (.missingInputSlot, .proc ⟨1⟩)] ∧
      (Catalog.standard.context (division.bind ⟨1⟩ "x" ⟨.proc ⟨0⟩ "result", "quotient"⟩)).findings
        = [(.unresolvedSymbolSource, .binding ⟨1⟩ "x")] ∧
      (Catalog.standard.context (division.declareOutput "done" "res" "number"
          ⟨.proc ⟨1⟩ "result", "quotient"⟩)).findings
        = [(.unresolvedSymbolSource, .outputValue "done" "res")] ∧
      (Catalog.standard.context (division.declareOutput "done" "res" "string"
          ⟨.proc ⟨1⟩ "result", "res"⟩)).findings
        = [(.typeMismatch, .outputValue "done" "res")] ∧
      (Catalog.standard.context (division.declareInput "y" [] "string")).findings
        = [(.typeMismatch, .binding ⟨0⟩ "b")] := by
  have hnode : (Catalog.standard.context division).graph.proc? ⟨1⟩
      = some ⟨"negate", .ofList [("x", ⟨.proc ⟨0⟩ "result", "res"⟩)]⟩ := rfl
  have hdefinition : (Catalog.standard.context division).definition? ⟨1⟩
      = some ⟨[⟨"x", "number"⟩], [Catalog.resultFlow "number"]⟩ := by decide +kernel
  have hbound : Table.get? (.ofList [("x", SymbolRef.mk (.proc ⟨0⟩ "result") "res")]) "x"
      = some ⟨.proc ⟨0⟩ "result", "res"⟩ := rfl
  have hvalue : ("done", "res", OutputValue.mk "number" ⟨.proc ⟨1⟩ "result", "res"⟩)
      ∈ (Catalog.standard.context division).graph.outputEntries := by decide
  have hdecl : (Catalog.standard.context division).graph.inputs.get? "y" = some ⟨[], "number"⟩ := rfl
  have hstring : (Catalog.standard.context division).catalog.knows "string" := by decide +kernel
  have hread : ∀ type, ¬ (Catalog.standard.context division).Denotes
      ⟨.proc ⟨0⟩ "result", "quotient"⟩ type := not_denotes_of_lookup (by decide +kernel)
  have hout : ∀ type, ¬ (Catalog.standard.context division).Denotes
      ⟨.proc ⟨1⟩ "result", "quotient"⟩ type := not_denotes_of_lookup (by decide +kernel)
  have hfault : ∀ {g' expected}, (Catalog.standard.context division).DataFault g' expected →
      (Catalog.standard.context g').findings = expected :=
    findings_of_dataFault Catalog.loaded_standard diagnostics_division
  have hslot := DataFault.slot hnode hdefinition (by decide) (by decide) (by decide)
    (renames_insert_erase hbound "y")
  have hbinding := DataFault.binding hnode hbound hread
  have houtput := DataFault.output hvalue hout
  have houtputType := DataFault.outputType hvalue (by decide) hstring
  have hinputType := DataFault.inputType hdecl (by decide) hstring
  refine ⟨Catalog.loaded_standard, diagnostics_division, hfault (.procedure hnode (by decide +kernel)),
    hfault hslot, hfault hbinding, hfault houtput, hfault houtputType, hfault hinputType⟩

end Context

end ProcFlow
