import ProcFlow.Proofs.Placeholder
import ProcFlow.Proofs.Reports
/-!
# Catalogs after any calls

A catalog starts out empty or as the standard one and is changed by calls, some of which fail and leave
it as it was. Every call comes down to adding a manifest, so what holds of loaded catalogs holds after
any calls: each procedure fits. Two things follow for every graph, valid or not. No node can have an
unknown type, because the types of its procedure came with the procedure or before it. And procedural
code fills each exit of a template with what its flow asks for, because no template has an exit that is
not a flow.
-/

namespace ProcFlow

open Code

namespace Catalog

/-- A call that is to change a catalog. -/
inductive Call where
  | addText (text origin : String)
  | add (manifest : Manifest) (origin : String)
  | define (name : String) (definition : Definition) (template : String)
  | defineType (id : TypeId) (host : String)

/-- The catalog that a call leads to, or why it fails. -/
def Call.result (c : Catalog) : Call → Except Error Catalog
  | .addText text origin => (c.addText text origin).map Prod.fst
  | .add manifest origin => (c.add manifest origin).map Prod.fst
  | .define name definition template => c.define name definition template
  | .defineType id host => c.defineType id host

/-- The catalog after a call. -/
def after (c : Catalog) (call : Call) : Catalog :=
  match call.result c with
  | .ok c' => c'
  | .error _ => c

/-- A catalog that calls have led to. -/
inductive Reachable : Catalog → Prop where
  | empty : Reachable Catalog.empty
  | standard : Reachable Catalog.standard
  | after {c : Catalog} (hreachable : Reachable c) (call : Call) : Reachable (c.after call)


/-! ### Every call adds a manifest -/

theorem exists_add_of_result {c c' : Catalog} {call : Call} (h : call.result c = .ok c') :
    ∃ manifest origin count, c.add manifest origin = .ok (c', count) := by
  have hadd : ∃ manifest origin, (c.add manifest origin).map Prod.fst = .ok c' := by
    cases call with
    | addText text origin =>
        simp only [Call.result, addText] at h
        split at h
        · cases h
        · exact ⟨_, _, h⟩
    | add manifest origin => exact ⟨manifest, origin, h⟩
    | define name definition template => exact ⟨_, _, h⟩
    | defineType id host => exact ⟨_, _, h⟩
  obtain ⟨manifest, origin, hmap⟩ := hadd
  rcases hresult : c.add manifest origin with error | ⟨c'', count⟩
  · rw [hresult] at hmap
    cases hmap
  · rw [hresult] at hmap
    cases hmap
    exact ⟨manifest, origin, count, hresult⟩

theorem Reachable.loaded {c : Catalog} (h : c.Reachable) : c.Loaded := by
  induction h with
  | empty => exact Loaded.empty
  | standard => exact loaded_standard
  | @after c call _ ih =>
      rw [Catalog.after]
      split
      · next hresult =>
        obtain ⟨manifest, origin, count, hadd⟩ := exists_add_of_result hresult
        exact ih.add hadd
      · exact ih


end Catalog


/-! ### Types of nodes -/

namespace Context

variable {c : Context} {d : Diagnostic}

theorem subject_of_mem_inputProblems (h : d ∈ c.inputProblems) : ∃ key, d.subject = .input key := by
  obtain ⟨⟨key, decl⟩, _, hd⟩ := List.mem_filterMap.mp h
  simp only [Option.ite_none_left_eq_some, Option.some.injEq] at hd
  exact ⟨key, by rw [← hd.2]⟩

theorem subject_of_mem_symbolProblems {subject : Diagnostic.Subject} {s : SymbolRef}
    (h : d ∈ c.symbolProblems subject s) : d.subject = subject := by
  unfold symbolProblems at h
  split at h
  · exact absurd h List.not_mem_nil
  · rw [List.mem_singleton.mp h]

theorem subject_of_mem_outputProblems {flow id : String} {value : OutputValue}
    (h : d ∈ c.outputProblems flow id value) : d.subject = .outputValue flow id := by
  simp only [outputProblems, List.mem_append] at h
  rcases h with (h | h) | h
  · rw [List.mem_ite_nil_left, List.mem_singleton] at h
    rw [h.2]
  · exact subject_of_mem_symbolProblems h
  · split at h
    · rw [List.mem_ite_nil_right, List.mem_singleton] at h
      rw [h.2]
    · exact absurd h List.not_mem_nil

end Context

namespace Catalog

theorem Loaded.procedureProblems_kind {c : Catalog} (h : c.Loaded) {g : Graph} {id : ProcId}
    {node : ProcNode} {d : Diagnostic} (hd : d ∈ (c.context g).procedureProblems id node) :
    d.kind = .unresolvedProcedure := by
  unfold Context.procedureProblems at hd
  split at hd
  · rw [List.mem_singleton.mp hd]
  · next definition hdefinition =>
    obtain ⟨e, rfl, hfits⟩ := h.exists_fits hdefinition
    have hknown : e.definition.types.find? (fun t => !(c.context g).catalog.knows t) = none := by
      rw [List.find?_eq_none]
      intro type htype
      have hhost : (c.context g).catalog.knows type = c.types.contains type := by
        simp [context, definitions, Definitions.knows, Table.contains]
      simp [hhost, hfits.types type htype]
    rw [hknown] at hd
    exact absurd hd List.not_mem_nil

theorem Loaded.subject_ne_proc {c : Catalog} (h : c.Loaded) {g : Graph} {d : Diagnostic}
    (hd : d ∈ (c.context g).diagnostics) (hkind : d.kind = .unknownType) (id : ProcId) :
    d.subject ≠ .proc id := by
  -- Only the checks on data know of unknown types, and those on inputs and outputs own theirs.
  have hdata : d ∈ (c.context g).dataProblems := by
    rw [Context.diagnostics_eq_append, List.mem_append, List.mem_append, List.mem_append] at hd
    rcases hd with ((hd | hd) | hd) | hd
    · exact hd
    · exact absurd (Context.kind_of_mem_controlProblems hd) (by simp [hkind])
    · exact absurd (Context.kind_of_mem_cycleProblems hd) (by simp [hkind])
    · exact absurd (Context.kind_of_mem_scopeProblems hd) (by simp [hkind])
  rw [Context.dataProblems, List.mem_append, List.mem_append, List.mem_flatMap, List.mem_flatMap]
    at hdata
  rcases hdata with (hd | ⟨⟨id', node⟩, _, hd⟩) | ⟨⟨flow, value, _⟩, _, hd⟩
  · obtain ⟨key, hsubject⟩ := Context.subject_of_mem_inputProblems hd
    simp [hsubject]
  · simp only [Context.nodeProblems, List.mem_append, List.mem_flatMap] at hd
    rcases hd with (hd | ⟨⟨slot, symbol⟩, _, hd⟩) | hd
    · exact absurd (h.procedureProblems_kind hd) (by simp [hkind])
    · rcases Context.kind_of_mem_bindingProblems hd with hother | hother | hother <;>
        simp [hkind] at hother
    · exact absurd (Context.kind_of_mem_missingSlots hd) (by simp [hkind])
  · simp [Context.subject_of_mem_outputProblems hd]



/-! ### Exits of templates -/

theorem Loaded.flowType_withPlaceholder {c : Catalog} (h : c.Loaded) {g : Graph} (p : String)
    {node : ProcId} {d : Definition} {t : Template}
    (hnode : (c.setup g).resolved? node = some (d, t)) {f : FlowDef} (hf : f ∈ d.outputs) :
    ((c.setup g).withPlaceholder p).flowType f = (c.setup g).flowType f := by
  obtain ⟨_, e, _, he, rfl, rfl⟩ := resolved?_setup_iff.mp hnode
  apply Setup.flowType_withPlaceholder_of_host
  intro v hv
  have hknown : c.types.contains v.type := by
    apply (h.fits he).types
    exact List.mem_append_right _ (List.mem_flatMap.mpr ⟨f, hf, List.mem_map_of_mem hv⟩)
  rw [Table.contains] at hknown
  simpa [setup, implementations] using hknown

/-- The template of a node is filled the same way at its exits whatever the placeholder is. -/
theorem Loaded.stepExpr_eq_render {c : Catalog} (h : c.Loaded) {g : Graph} {node : ProcId}
    {d : Definition} {t : Template} (hnode : (c.setup g).resolved? node = some (d, t)) (p : String) :
    ((c.setup g).withPlaceholder p).stepExpr node d t
      = t.render (((c.setup g).withPlaceholder p).inputExpr node) ((c.setup g).exitExpr d) := by
  rw [Setup.stepExpr, Setup.nodeExpr]
  refine render_congr (fun _ _ => rfl) fun exit hexit => ?_
  have hflow : exit ∈ d.flowNames := by
    obtain ⟨_, e, _, he, rfl, rfl⟩ := resolved?_setup_iff.mp hnode
    exact (h.fits he).exits exit hexit
  obtain ⟨f, hf, _, hfill⟩ := Setup.exists_exitExpr_eq hflow
  rw [hfill, hfill, Setup.taggingExit, Setup.taggingExit, h.flowType_withPlaceholder p hnode hf]


/-! ### What every catalog promises -/

/-- What holds of a catalog, and of every graph in its light. -/
structure Consistent (c : Catalog) : Prop where
  /-- Every procedure fits. -/
  procedures : ∀ name e, c.procedures.get? name = some e → e.Fits fun type => type ∈ c.types.keys
  /-- No node has an unknown type. -/
  nodes : ∀ g, ∀ d ∈ (c.context g).diagnostics, d.kind = .unknownType → ∀ id, d.subject ≠ .proc id
  /-- Each exit of a template is filled as its flow asks for, and the placeholder is not used. -/
  exits : ∀ g node d t, (c.setup g).resolved? node = some (d, t) → ∃ fill : String → String,
    (∀ exit ∈ t.exits, ∃ f ∈ d.outputs, f.name = exit ∧
      fill exit = if d.outputs.length = 1 then "" else (c.setup g).taggingExit f) ∧
    ∀ p, ((c.setup g).withPlaceholder p).stepExpr node d t
      = t.render (((c.setup g).withPlaceholder p).inputExpr node) fill

/-- After any calls, failed ones included, every procedure of a catalog fits, no graph is told of an
unknown type on a node, and no exit of a template is filled with the placeholder. -/
theorem consistent_of_reachable {c : Catalog} (hreachable : c.Reachable) : c.Consistent := by
  have hloaded := hreachable.loaded
  refine ⟨?_, ?_, ?_⟩
  · intro name e hget
    exact (hloaded.fits hget).mono fun type htype => (c.types.contains_iff type).mp htype
  · exact fun g d hd hkind id => hloaded.subject_ne_proc hd hkind id
  · intro g node d t hnode
    refine ⟨(c.setup g).exitExpr d, ?_, hloaded.stepExpr_eq_render hnode⟩
    intro exit hexit
    obtain ⟨_, e, _, he, rfl, rfl⟩ := resolved?_setup_iff.mp hnode
    obtain ⟨f, hf, hname, hfill⟩ := Setup.exists_exitExpr_eq ((hloaded.fits he).exits exit hexit)
    exact ⟨f, hf, hname, hfill _⟩

/-- The standard catalog with a type of its own and a procedure on it, after a call that fails because
the name is taken and another because the type is not there yet. -/
def withFlags : Catalog :=
  let flip : Definition := ⟨[⟨"x", "flag"⟩], [⟨"result", [⟨"res", "flag"⟩]⟩]⟩
  (((Catalog.standard.after (.define "add" ⟨[], []⟩ "0")).after
    (.define "flip" flip "@result(\x7b res: !$x \x7d)")).after (.defineType "flag" "boolean")).after
      (.define "flip" flip "@result(\x7b res: !$x \x7d)")

theorem reachable_withFlags : withFlags.Reachable :=
  (((Reachable.standard.after _).after _).after _).after _

theorem size_withFlags : withFlags.size = 11 := by decide +kernel

theorem consistent_withFlags :
    withFlags.Reachable ∧ withFlags.size = 11 ∧ withFlags.Consistent :=
  ⟨reachable_withFlags, size_withFlags, consistent_of_reachable reachable_withFlags⟩

end Catalog

end ProcFlow
