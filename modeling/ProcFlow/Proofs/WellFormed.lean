import ProcFlow.Proofs.Dependency
import ProcFlow.Proofs.Walk
/-!
# Well-formed graphs

What it means for a graph to make sense in the light of its definitions, said without any check: every
name stands for something, types agree, control edges tie all nodes and flows together one by one, and
whatever is read has been produced on the way.

The conditions fall into those on types, slots and symbols, those on edges, the absence of cycles, and
scope. None of them mentions how a check walks the graph or what it leaves to another check.
-/

namespace ProcFlow.Context

/-- Every type that is mentioned is known, and every procedure is defined. -/
structure TypesKnown (c : Context) : Prop where
  input : ∀ key decl, c.graph.inputs.get? key = some decl → c.catalog.knows decl.type
  output : ∀ flow id value, (flow, id, value) ∈ c.graph.outputEntries → c.catalog.knows value.type
  procedure : ∀ id node, c.graph.proc? id = some node →
    ∃ d, c.catalog.definition? node.procedure = some d ∧ ∀ type ∈ d.types, c.catalog.knows type

/-- Every node binds exactly the input slots of its definition. -/
def SlotsMatch (c : Context) : Prop :=
  ∀ id node d, c.graph.proc? id = some node → c.definition? id = some d →
    ∀ slot, slot ∈ node.inputs.keys ↔ slot ∈ d.inputs.map Slot.name

/-- A symbol stands for a declared input, or for a declared value of a declared flow of a node in the
arena, and that is of the given type. -/
inductive Denotes (c : Context) : SymbolRef → TypeId → Prop where
  | input {id : String} {decl : InputDecl} (hinput : c.graph.inputs.get? id = some decl) :
      Denotes c ⟨.entry, id⟩ decl.type
  | value {node : ProcId} {flow id : String} {d : Definition} {f : FlowDef} {v : Slot}
      (hnode : c.definition? node = some d) (hflow : d.flow? flow = some f)
      (hvalue : f.value? id = some v) : Denotes c ⟨.proc node flow, id⟩ v.type

/-- Every symbol that is read stands for something of the type that is asked for. -/
structure SymbolsFit (c : Context) : Prop where
  binding : ∀ id node slot symbol, c.graph.proc? id = some node →
    (slot, symbol) ∈ node.inputs.entries →
      ∃ d expected, c.definition? id = some d ∧ d.input? slot = some expected ∧
        c.Denotes symbol expected.type
  output : ∀ flow id value, (flow, id, value) ∈ c.graph.outputEntries →
    c.Denotes value.source value.type

/-- Every edge starts at the entry or in a declared flow of a node, and ends in a node or in a declared
output flow. -/
structure EdgesAnchored (c : Context) : Prop where
  source : ∀ node flow target, ⟨.proc node flow, target⟩ ∈ c.graph.edges →
    ∃ d, c.definition? node = some d ∧ flow ∈ d.flowNames
  node : ∀ source node, ⟨source, .proc node⟩ ∈ c.graph.edges → (c.graph.proc? node).isSome
  output : ∀ source flow, ⟨source, .output flow⟩ ∈ c.graph.edges → flow ∈ c.graph.outputFlows.keys

/-- Two edges start in different places, and do not end in one node. -/
def Apart (e e' : Edge) : Prop :=
  e.source ≠ e'.source ∧ ∀ node, e.target = .proc node → e'.target ≠ .proc node

/-- Edges do not meet, every node is entered and left, and every flow goes on. -/
structure ControlComplete (c : Context) : Prop where
  apart : c.graph.edges.Pairwise Apart
  incoming : ∀ id ∈ c.graph.procIds, ∃ source, ⟨source, .proc id⟩ ∈ c.graph.edges
  outgoing : ∀ id ∈ c.graph.procIds, ∃ flow target, ⟨.proc id flow, target⟩ ∈ c.graph.edges
  flow : ∀ id d, c.definition? id = some d →
    ∀ flow ∈ d.flowNames, ∃ target, ⟨.proc id flow, target⟩ ∈ c.graph.edges
  entry : c.graph.procs = [] → ∃ target, ⟨.entry, target⟩ ∈ c.graph.edges

/-- Whatever is read from a flow of a node is read behind that flow, on every walk to the reader. -/
structure InScope (c : Context) : Prop where
  binding : ∀ id node slot symbol origin flow, c.graph.proc? id = some node →
    (slot, symbol) ∈ node.inputs.entries → symbol.origin = .proc origin flow →
      ∀ walk, Walk c.graph walk (.proc id) → (origin, flow) ∈ passedFlows walk
  output : ∀ out id value origin flow, (out, id, value) ∈ c.graph.outputEntries →
    value.source.origin = .proc origin flow →
      ∀ walk, Walk c.graph walk (.output out) → (origin, flow) ∈ passedFlows walk

/-- The graph makes sense in the light of its definitions. -/
structure WellFormed (c : Context) : Prop where
  types : c.TypesKnown
  slots : c.SlotsMatch
  symbols : c.SymbolsFit
  edges : c.EdgesAnchored
  control : c.ControlComplete
  acyclic : c.Acyclic
  scope : c.InScope


/-! ### What a symbol stands for is what it resolves to -/

variable {c : Context}

theorem Denotes.lookup {s : SymbolRef} {type : TypeId} (h : c.Denotes s type) :
    ∃ r, c.lookup s = .ok r ∧ r.type? = some type := by
  cases h with
  | @input id decl hinput =>
      refine ⟨.entry id decl, ?_, rfl⟩
      simp only [Context.lookup, hinput]
  | @value node flow id d f v hnode hflow hvalue =>
      refine ⟨.proc node f v, ?_, rfl⟩
      obtain ⟨procNode, hproc, _⟩ := proc?_of_definition? hnode
      simp [Context.lookup, hproc, hnode, hflow, hvalue]

theorem Denotes.type?_resolve {s : SymbolRef} {type : TypeId} (h : c.Denotes s type) :
    (c.resolve s).type? = some type := by
  obtain ⟨r, hr, htype⟩ := h.lookup
  rwa [resolve, hr]

/-- A symbol that resolves to a value names its node, its flow and itself. -/
theorem resolve_eq_proc {s : SymbolRef} {node : ProcId} {f : FlowDef} {v : Slot}
    (h : c.resolve s = .proc node f v) :
    s.origin = .proc node f.name ∧
      ∃ d, c.definition? node = some d ∧ d.flow? f.name = some f ∧ f.value? s.id = some v := by
  obtain ⟨origin, id⟩ := s
  rcases origin with _ | ⟨origin, flow⟩
  · rcases hinput : c.graph.inputs.get? id with _ | decl <;>
      simp [resolve, Context.lookup, hinput] at h
  · rcases hproc : c.graph.proc? origin with _ | procNode
    · simp [resolve, Context.lookup, hproc] at h
    rcases hd : c.definition? origin with _ | d
    · simp [resolve, Context.lookup, hproc, hd] at h
    rcases hflow : d.flow? flow with _ | f'
    · simp [resolve, Context.lookup, hproc, hd, hflow] at h
    rcases hvalue : f'.value? id with _ | v'
    · simp [resolve, Context.lookup, hproc, hd, hflow, hvalue] at h
    simp only [resolve, Context.lookup, hproc, Option.isNone_some, Bool.false_eq_true, if_false, hd,
      hflow, hvalue, Resolution.proc.injEq] at h
    obtain ⟨rfl, rfl, rfl⟩ := h
    obtain rfl := (Definition.flow?_eq_some hflow).2
    exact ⟨rfl, d, hd, hflow, hvalue⟩

/-- A symbol that stands for a value of a flow resolves to it. -/
theorem Denotes.resolve_eq_proc {s : SymbolRef} {type : TypeId} (h : c.Denotes s type)
    {node : ProcId} {flow : String} (horigin : s.origin = .proc node flow) :
    ∃ f v, c.resolve s = .proc node f v ∧ f.name = flow ∧ v.type = type := by
  cases h with
  | input _ => simp at horigin
  | @value node flow id d f v hnode hflow hvalue =>
      cases horigin
      refine ⟨f, v, ?_, (Definition.flow?_eq_some hflow).2, rfl⟩
      obtain ⟨procNode, hproc, _⟩ := proc?_of_definition? hnode
      simp [resolve, Context.lookup, hproc, hnode, hflow, hvalue]

/-- Where every procedure is defined, a symbol that can be looked up stands for something. -/
theorem exists_denotes_of_lookup {s : SymbolRef} {r : Resolution} (h : c.lookup s = .ok r)
    (hdefined : ∀ id node, c.graph.proc? id = some node → ∃ d, c.definition? id = some d) :
    ∃ type, c.Denotes s type := by
  obtain ⟨origin, id⟩ := s
  rcases origin with _ | ⟨node, flow⟩
  · rcases hinput : c.graph.inputs.get? id with _ | decl
    · simp [Context.lookup, hinput] at h
    · exact ⟨decl.type, .input hinput⟩
  · rcases hproc : c.graph.proc? node with _ | procNode
    · simp [Context.lookup, hproc] at h
    · obtain ⟨d, hd⟩ := hdefined node procNode hproc
      rcases hflow : d.flow? flow with _ | f
      · simp [Context.lookup, hproc, hd, hflow] at h
      · rcases hvalue : f.value? id with _ | v
        · simp [Context.lookup, hproc, hd, hflow, hvalue] at h
        · exact ⟨v.type, .value hd hflow hvalue⟩

/-- Whatever a symbol stands for is of a known type. -/
theorem Denotes.knows {s : SymbolRef} {type : TypeId} (h : c.Denotes s type) (htypes : c.TypesKnown) :
    c.catalog.knows type := by
  cases h with
  | input hinput => exact htypes.input _ _ hinput
  | @value node flow id d f v hnode hflow hvalue =>
      obtain ⟨procNode, hproc, hd⟩ := proc?_of_definition? hnode
      obtain ⟨d', hd', hknown⟩ := htypes.procedure node procNode hproc
      obtain rfl := Option.some.inj (hd.symm.trans hd')
      refine hknown v.type (List.mem_append_right _ (List.mem_flatMap.mpr ?_))
      refine ⟨f, (Definition.flow?_eq_some hflow).1, ?_⟩
      exact List.mem_map_of_mem (FlowDef.value?_eq_some hvalue).1

end ProcFlow.Context
