import ProcFlow.Compile
import ProcFlow.Proofs.Loaded
import ProcFlow.Proofs.Validity
/-!
# Code without placeholders

Code of a well-formed graph is generated from a sound setup, if definitions and templates come from one
loaded catalog: every node has its template, every type its spelling, and every symbol that is read
something to stand for. Each expression that code is made of then comes out the same whatever text
stands for what cannot be resolved, so that text has no part in it.
-/

namespace ProcFlow

open Code

/-- What the code of a graph is generated from, when one catalog gives definitions and templates. -/
def Catalog.setup (c : Catalog) (g : Graph) : Setup where
  context := c.context g
  implementations := c.implementations

namespace Code.Setup

/-- A well-formed graph, with implementations that go with its definitions. -/
structure Sound (s : Setup) : Prop where
  graph : s.context.WellFormed
  resolved : ∀ id d, s.context.definition? id = some d → ∃ t, s.resolved? id = some (d, t)
  host : ∀ type, s.context.catalog.knows type → (s.implementations.host? type).isSome
  flows : ∀ id d t, s.resolved? id = some (d, t) → d.flowNames.Nodup
  inputs : ∀ id d t, s.resolved? id = some (d, t) →
    ∀ slot ∈ t.inputs, slot ∈ d.inputs.map Slot.name
  exits : ∀ id d t, s.resolved? id = some (d, t) → ∀ exit ∈ t.exits, exit ∈ d.flowNames

/-- The same setup with another text for what cannot be resolved. -/
def withPlaceholder (s : Setup) (placeholder : String) : Setup := { s with placeholder }

variable {s : Setup}

@[simp] theorem context_withPlaceholder (p : String) : (s.withPlaceholder p).context = s.context :=
  rfl

@[simp] theorem resolved?_withPlaceholder (p : String) (id : ProcId) :
    (s.withPlaceholder p).resolved? id = s.resolved? id := rfl

theorem hostType_withPlaceholder_of_host (p : String) {type : TypeId}
    (hhost : (s.implementations.host? type).isSome) :
    (s.withPlaceholder p).hostType type = s.hostType type := by
  obtain ⟨host, hhost⟩ := Option.isSome_iff_exists.mp hhost
  have hhost' : (s.withPlaceholder p).implementations.host? type = some host := hhost
  rw [hostType, hostType, hhost, hhost']
  rfl

theorem flowType_withPlaceholder_of_host (p : String) {f : FlowDef}
    (hhost : ∀ v ∈ f.values, (s.implementations.host? v.type).isSome) :
    (s.withPlaceholder p).flowType f = s.flowType f := by
  rw [flowType, flowType]
  congr 1
  apply List.map_congr_left
  intro v hv
  rw [hostType_withPlaceholder_of_host p (hhost v hv)]

theorem resolved?_eq_some_iff {id : ProcId} {d : Definition} {t : Template} :
    s.resolved? id = some (d, t)
      ↔ ∃ node, s.context.graph.proc? id = some node ∧ s.context.definition? id = some d ∧
        s.implementations.template? node.procedure = some t := by
  simp only [resolved?, Option.bind_eq_bind, Option.bind_eq_some_iff, Option.pure_def,
    Option.some.injEq, Prod.mk.injEq]
  refine ⟨?_, ?_⟩
  · intro hleft
    obtain ⟨node, hnode, d', hd, t', ht, rfl, rfl⟩ := hleft
    exact ⟨node, hnode, hd, ht⟩
  · intro hright
    obtain ⟨node, hnode, hd, ht⟩ := hright
    exact ⟨node, hnode, d, hd, t, ht, rfl, rfl⟩

end Code.Setup


/-! ### Loaded catalogs -/

namespace Catalog

variable {c : Catalog} {g : Graph}

theorem resolved?_setup_iff {id : ProcId} {d : Definition} {t : Template} :
    (c.setup g).resolved? id = some (d, t)
      ↔ ∃ node e, g.proc? id = some node ∧ c.procedures.get? node.procedure = some e ∧
        e.definition = d ∧ e.template = t := by
  rw [Setup.resolved?_eq_some_iff]
  refine ⟨?_, ?_⟩
  · intro hleft
    obtain ⟨node, hnode, hd, ht⟩ := hleft
    obtain ⟨e, he, rfl⟩ := Option.map_eq_some_iff.mp ht
    rw [Context.definition?_of_proc? hnode] at hd
    obtain ⟨e', he', rfl⟩ := Option.map_eq_some_iff.mp hd
    obtain rfl := Option.some.inj (he.symm.trans he')
    exact ⟨node, e, hnode, he, rfl, rfl⟩
  · intro hright
    obtain ⟨node, e, hnode, he, rfl, rfl⟩ := hright
    refine ⟨node, hnode, ?_, Option.map_eq_some_iff.mpr ⟨e, he, rfl⟩⟩
    rw [Context.definition?_of_proc? hnode]
    exact Option.map_eq_some_iff.mpr ⟨e, he, rfl⟩

theorem Loaded.exists_fits (hloaded : c.Loaded) {id : ProcId} {d : Definition}
    (hd : (c.context g).definition? id = some d) :
    ∃ e : ProcEntry, e.definition = d ∧ e.Fits fun type => c.types.contains type := by
  obtain ⟨node, _, hdefinition⟩ := Context.proc?_of_definition? hd
  obtain ⟨e, he, rfl⟩ := Option.map_eq_some_iff.mp hdefinition
  exact ⟨e, rfl, hloaded.fits he⟩

/-- A loaded catalog and a graph that is well formed in its light make a sound setup. -/
theorem Loaded.sound (hloaded : c.Loaded) (hgraph : (c.context g).WellFormed) :
    (c.setup g).Sound := by
  refine ⟨hgraph, ?_, fun type hknown => hknown, ?_, ?_, ?_⟩
  · intro id d hd
    obtain ⟨node, hnode, hdefinition⟩ := Context.proc?_of_definition? hd
    obtain ⟨e, he, hd⟩ := Option.map_eq_some_iff.mp hdefinition
    exact ⟨e.template, resolved?_setup_iff.mpr ⟨node, e, hnode, he, hd, rfl⟩⟩
  · intro id d t hresolved
    obtain ⟨node, e, _, he, rfl, rfl⟩ := resolved?_setup_iff.mp hresolved
    exact (hloaded.fits he).flows
  · intro id d t hresolved slot hslot
    obtain ⟨node, e, _, he, rfl, rfl⟩ := resolved?_setup_iff.mp hresolved
    exact Definition.input?_isSome_iff.mp ((hloaded.fits he).inputs slot hslot)
  · intro id d t hresolved
    obtain ⟨node, e, _, he, rfl, rfl⟩ := resolved?_setup_iff.mp hresolved
    exact (hloaded.fits he).exits

theorem Loaded.sound_of_valid (hloaded : c.Loaded) (hvalid : (c.context g).diagnostics = []) :
    (c.setup g).Sound :=
  hloaded.sound (Context.wellFormed_of_diagnostics_eq_nil hvalid)

end Catalog

namespace Code

/-! ### Types and the signature -/

namespace Setup.Sound

variable {s : Setup} (h : s.Sound) (p : String)

include h

theorem withPlaceholder : (s.withPlaceholder p).Sound :=
  ⟨h.graph, h.resolved, h.host, h.flows, h.inputs, h.exits⟩

theorem knows_flow {id : ProcId} {d : Definition} {t : Template}
    (hresolved : s.resolved? id = some (d, t)) {f : FlowDef} (hf : f ∈ d.outputs) :
    ∀ v ∈ f.values, s.context.catalog.knows v.type := by
  intro v hv
  obtain ⟨node, hnode, hd, _⟩ := resolved?_eq_some_iff.mp hresolved
  obtain ⟨d', hd', hknown⟩ := h.graph.types.procedure id node hnode
  rw [Context.definition?_of_proc? hnode, hd'] at hd
  obtain rfl := Option.some.inj hd
  apply hknown
  exact List.mem_append_right _ (List.mem_flatMap.mpr ⟨f, hf, List.mem_map_of_mem hv⟩)

theorem hostType_withPlaceholder {type : TypeId} (hknown : s.context.catalog.knows type) :
    (s.withPlaceholder p).hostType type = s.hostType type :=
  hostType_withPlaceholder_of_host p (h.host type hknown)

theorem flowType_withPlaceholder {f : FlowDef}
    (hknown : ∀ v ∈ f.values, s.context.catalog.knows v.type) :
    (s.withPlaceholder p).flowType f = s.flowType f :=
  flowType_withPlaceholder_of_host p fun v hv => h.host v.type (hknown v hv)

theorem outputType_withPlaceholder (flow : String) :
    (s.withPlaceholder p).outputType flow = s.outputType flow := by
  rcases hvalues : s.context.graph.outputFlows.get? flow with _ | values
  · simp [outputType, hvalues, Table.empty]
  · simp only [outputType, context_withPlaceholder, hvalues, Option.getD_some]
    congr 1
    apply List.map_congr_left
    rintro ⟨id, value⟩ hvalue
    have hentry : (flow, id, value) ∈ s.context.graph.outputEntries :=
      s.context.graph.mem_outputEntries.mpr
        ⟨values, hvalues, (values.get?_eq_some_iff id value).mpr hvalue⟩
    simp only [h.hostType_withPlaceholder p (h.graph.types.output flow id value hentry)]

theorem parameters_withPlaceholder : (s.withPlaceholder p).parameters = s.parameters := by
  simp only [parameters, context_withPlaceholder]
  apply List.map_congr_left
  rintro ⟨⟨key, decl⟩, _, name⟩ hmem
  have hget := (s.context.graph.inputs.get?_eq_some_iff key decl).mpr (List.of_mem_zip hmem).1
  simp only [h.hostType_withPlaceholder p (h.graph.types.input key decl hget)]

theorem continuationSignature_withPlaceholder :
    (s.withPlaceholder p).continuationSignature = s.continuationSignature := by
  simp only [continuationSignature, context_withPlaceholder, h.parameters_withPlaceholder,
    h.outputType_withPlaceholder]

theorem signature_withPlaceholder (style : ExitStyle) :
    (s.withPlaceholder p).signature style = s.signature style := by
  cases style with
  | continuation => exact h.continuationSignature_withPlaceholder p
  | union =>
      simp only [signature, unionSignature, context_withPlaceholder, h.parameters_withPlaceholder,
        h.outputType_withPlaceholder]

end Setup.Sound


/-! ### Symbols -/

theorem map_fst_nameInputs (used : List String) (inputs : List (String × InputDecl)) :
    (nameInputs used inputs).map Prod.fst = inputs.map Prod.fst := by
  induction inputs generalizing used with
  | nil => rfl
  | cons e rest ih =>
      obtain ⟨key, decl⟩ := e
      rw [nameInputs, List.map_cons, List.map_cons, ih]

theorem exists_lookup_parameterNames {g : Graph} {key : String} {decl : InputDecl}
    (h : g.inputs.get? key = some decl) : ∃ name, (parameterNames g).lookup key = some name := by
  have hkey : key ∈ (parameterNames g).map Prod.fst := by
    rw [parameterNames, map_fst_nameInputs]
    exact List.mem_map_of_mem ((g.inputs.get?_eq_some_iff key decl).mp h)
  obtain ⟨e, he, rfl⟩ := List.mem_map.mp hkey
  exact Option.isSome_iff_exists.mp (List.lookup_isSome_iff.mpr ⟨e, he, beq_self_eq_true e.1⟩)

namespace Setup

variable {s : Setup}

theorem symbolExpr_withPlaceholder (p : String) {symbol : SymbolRef} {type : TypeId}
    (hdenotes : s.context.Denotes symbol type) :
    (s.withPlaceholder p).symbolExpr (s.context.resolve symbol)
      = s.symbolExpr (s.context.resolve symbol) := by
  cases hdenotes with
  | @input id decl hinput =>
      have hresolve : s.context.resolve ⟨.entry, id⟩ = .entry id decl := by
        simp only [Context.resolve, Context.lookup, hinput]
      obtain ⟨name, hname⟩ := exists_lookup_parameterNames hinput
      simp only [hresolve, symbolExpr, context_withPlaceholder, hname, Option.getD_some]
  | value hnode hflow hvalue =>
      obtain ⟨f, v, hresolve, _⟩ := (Context.Denotes.value hnode hflow hvalue).resolve_eq_proc rfl
      rw [hresolve]
      rfl

namespace Sound

variable (h : s.Sound) (p : String)

include h

theorem exists_binding? {id : ProcId} {d : Definition} {t : Template}
    (hresolved : s.resolved? id = some (d, t)) {slot : String} (hslot : slot ∈ t.inputs) :
    ∃ b, s.context.binding? id slot = some b ∧ b ∈ s.context.bindings id := by
  obtain ⟨node, hnode, hd, _⟩ := resolved?_eq_some_iff.mp hresolved
  have hkey := (h.graph.slots id node d hnode hd slot).mpr (h.inputs id d t hresolved slot hslot)
  obtain ⟨⟨_, symbol⟩, hentry, rfl⟩ := List.mem_map.mp hkey
  have hmem : s.context.bindingOf id _ symbol ∈ s.context.bindings id :=
    Context.mem_bindings.mpr ⟨node, _, symbol, hnode, hentry, rfl⟩
  have hsome : (s.context.binding? id _).isSome :=
    List.find?_isSome.mpr ⟨_, hmem, decide_eq_true rfl⟩
  obtain ⟨b, hb⟩ := Option.isSome_iff_exists.mp hsome
  exact ⟨b, hb, List.mem_of_find?_eq_some hb⟩

theorem inputExpr_withPlaceholder {id : ProcId} {d : Definition} {t : Template}
    (hresolved : s.resolved? id = some (d, t)) {slot : String} (hslot : slot ∈ t.inputs) :
    (s.withPlaceholder p).inputExpr id slot = s.inputExpr id slot := by
  obtain ⟨b, hb, hmem⟩ := h.exists_binding? hresolved hslot
  obtain ⟨node, slot', symbol, hnode, hentry, rfl⟩ := Context.mem_bindings.mp hmem
  obtain ⟨_, _, _, _, hdenotes⟩ := h.graph.symbols.binding id node slot' symbol hnode hentry
  simp only [inputExpr, context_withPlaceholder, hb]
  exact symbolExpr_withPlaceholder p hdenotes

theorem outputExpr_withPlaceholder (flow : String) :
    (s.withPlaceholder p).outputExpr flow = s.outputExpr flow := by
  simp only [outputExpr, context_withPlaceholder]
  congr 1
  apply List.map_congr_left
  intro o ho
  obtain ⟨hentry, hresolution⟩ := Context.mem_outputs.mp (List.mem_filter.mp ho).1
  rw [hresolution, symbolExpr_withPlaceholder p (h.graph.symbols.output _ _ _ hentry)]

end Sound

end Setup


/-! ### Templates -/

theorem render_congr {t : Template} {input input' exit exit' : String → String}
    (hinput : ∀ slot ∈ t.inputs, input slot = input' slot)
    (hexit : ∀ flow ∈ t.exits, exit flow = exit' flow) :
    t.render input exit = t.render input' exit' := by
  rw [Template.render, Template.render]
  congr 1
  apply List.map_congr_left
  intro segment hsegment
  cases segment with
  | text _ => rfl
  | input slot =>
      apply hinput
      rw [Template.inputs, List.mem_eraseDups]
      exact List.mem_filterMap.mpr ⟨_, hsegment, rfl⟩
  | exit flow =>
      apply hexit
      rw [Template.exits, List.mem_eraseDups]
      exact List.mem_filterMap.mpr ⟨_, hsegment, rfl⟩

namespace Setup

/-- A declared exit becomes nothing, if its flow is the only one, or the function that tags the values
with its flow. -/
theorem exists_exitExpr_eq {d : Definition} {exit : String} (h : exit ∈ d.flowNames) :
    ∃ f ∈ d.outputs, f.name = exit ∧
      ∀ s : Setup, s.exitExpr d exit = if d.outputs.length = 1 then "" else s.taggingExit f := by
  obtain ⟨f, hf, hname⟩ := List.mem_map.mp h
  by_cases hsingle : d.outputs.length = 1
  · obtain ⟨only, honly⟩ := List.length_eq_one_iff.mp hsingle
    rw [honly, List.mem_singleton] at hf
    refine ⟨only, honly ▸ List.mem_singleton_self only, hf ▸ hname, fun s => ?_⟩
    rw [exitExpr, honly]
    simp [← hname, hf]
  · have hsome : (d.outputs.reverse.find? fun f => f.name = exit).isSome :=
      List.find?_isSome.mpr ⟨f, List.mem_reverse.mpr hf, decide_eq_true hname⟩
    obtain ⟨last, hlast⟩ := Option.isSome_iff_exists.mp hsome
    refine ⟨last, List.mem_reverse.mp (List.mem_of_find?_eq_some hlast),
      by simpa using List.find?_some hlast, fun s => ?_⟩
    rw [if_neg hsingle, exitExpr]
    split
    · next only honly =>
      rw [honly] at hsingle
      exact absurd rfl hsingle
    · rw [hlast]

end Setup

namespace Setup.Sound

variable {s : Setup} (h : s.Sound) (p : String)

include h

theorem nodeExpr_withPlaceholder {id : ProcId} {d : Definition} {t : Template}
    (hresolved : s.resolved? id = some (d, t)) {exit exit' : String → String}
    (hexit : ∀ flow ∈ t.exits, exit flow = exit' flow) :
    (s.withPlaceholder p).nodeExpr id t exit = s.nodeExpr id t exit' :=
  render_congr (fun _ hslot => h.inputExpr_withPlaceholder p hresolved hslot) hexit

theorem exitExpr_withPlaceholder {id : ProcId} {d : Definition} {t : Template}
    (hresolved : s.resolved? id = some (d, t)) {flow : String} (hflow : flow ∈ d.flowNames) :
    (s.withPlaceholder p).exitExpr d flow = s.exitExpr d flow := by
  obtain ⟨f, hf, _, hexit⟩ := exists_exitExpr_eq hflow
  rw [hexit, hexit, taggingExit, taggingExit,
    h.flowType_withPlaceholder p (h.knows_flow hresolved hf)]

theorem stepExpr_withPlaceholder {id : ProcId} {d : Definition} {t : Template}
    (hresolved : s.resolved? id = some (d, t)) :
    (s.withPlaceholder p).stepExpr id d t = s.stepExpr id d t := by
  apply h.nodeExpr_withPlaceholder p hresolved
  intro flow hflow
  exact h.exitExpr_withPlaceholder p hresolved (h.exits id d t hresolved flow hflow)

end Setup.Sound

end Code

end ProcFlow
