import ProcFlow.Context.Check
import ProcFlow.Proofs.WellFormed
/-!
# When a check keeps silent

For each check, what the graph has to be like so that the check reports nothing. A check that leaves some
problem to another one is silent there too, so these conditions are weaker than well-formedness; only
together do they make it up.
-/

namespace ProcFlow.Context

open Relation (TransGen)

variable {c : Context}


/-! ### Types, procedures and symbols -/

theorem inputProblems_eq_nil_iff :
    c.inputProblems = []
      ↔ ∀ key decl, c.graph.inputs.get? key = some decl → c.catalog.knows decl.type := by
  rw [inputProblems, List.filterMap_eq_nil_iff]
  refine ⟨?_, ?_⟩
  · intro hsilent key decl hget
    have hentry := hsilent (key, decl) ((Table.get?_eq_some_iff _ _ _).mp hget)
    by_contra hunknown
    simp [hunknown] at hentry
  · rintro hknown ⟨key, decl⟩ hmem
    exact if_pos (hknown key decl ((Table.get?_eq_some_iff _ _ _).mpr hmem))

theorem procedureProblems_eq_nil_iff {id : ProcId} {node : ProcNode} :
    c.procedureProblems id node = []
      ↔ ∃ d, c.definition? id = some d ∧ ∀ type ∈ d.types, c.catalog.knows type := by
  rcases hd : c.definition? id with _ | d
  · simp [procedureProblems, hd]
  · rcases hfind : d.types.find? fun t => !c.catalog.knows t with _ | t
    · simp only [procedureProblems, hd, hfind, true_iff]
      rw [List.find?_eq_none] at hfind
      exact ⟨d, rfl, fun t ht => by simpa using hfind t ht⟩
    · simp only [procedureProblems, hd, hfind, reduceCtorEq, false_iff]
      intro hmem
      obtain ⟨_, heq, hknown⟩ := hmem
      cases heq
      have ht := List.find?_some hfind
      rw [hknown t (List.mem_of_find?_eq_some hfind)] at ht
      exact absurd ht (by simp)

theorem symbolProblems_eq_nil_iff {subject : Diagnostic.Subject} {s : SymbolRef} :
    c.symbolProblems subject s = [] ↔ ∃ r, c.lookup s = .ok r := by
  unfold symbolProblems
  rcases c.lookup s with reason | r <;> simp

theorem typesDiffer_eq_false_iff {declared actual : TypeId} (hdeclared : c.catalog.knows declared)
    (hactual : c.catalog.knows actual) :
    c.typesDiffer declared (some actual) = false ↔ declared = actual := by
  simp [typesDiffer, hdeclared, hactual]

theorem bindingProblems_eq_nil_iff {id : ProcId} {node : ProcNode} {slot : String}
    {symbol : SymbolRef} :
    c.bindingProblems id node slot symbol = []
      ↔ (∃ r, c.lookup symbol = .ok r) ∧ ∀ d, c.definition? id = some d →
        ∃ expected, d.input? slot = some expected ∧
          ∀ actual, (c.resolve symbol).type? = some actual →
            c.typesDiffer expected.type (some actual) = false := by
  rw [bindingProblems, List.append_eq_nil_iff, List.append_eq_nil_iff, symbolProblems_eq_nil_iff,
    and_assoc]
  apply and_congr_right
  intro _
  rcases hd : c.definition? id with _ | d
  · simp [bindingOf, hd]
  · rcases hslot : d.input? slot with _ | expected
    · simp [bindingOf, hd, hslot]
    · rcases htype : (c.resolve symbol).type? with _ | actual <;> simp [bindingOf, hd, hslot, htype]

theorem missingSlots_eq_nil_iff {id : ProcId} {node : ProcNode} :
    c.missingSlots id node = []
      ↔ ∀ d, c.definition? id = some d → ∀ slot ∈ d.inputs, slot.name ∈ node.inputs.keys := by
  unfold missingSlots
  rcases c.definition? id with _ | d
  · simp
  · simp only [List.filterMap_eq_nil_iff, Option.some.injEq, forall_eq', ← Table.contains_iff]
    apply forall₂_congr
    intro slot _
    by_cases hbound : node.inputs.contains slot.name <;> simp [hbound]

theorem outputProblems_eq_nil_iff {flow id : String} {value : OutputValue} :
    c.outputProblems flow id value = []
      ↔ c.catalog.knows value.type ∧ (∃ r, c.lookup value.source = .ok r) ∧
        ∀ actual, (c.resolve value.source).type? = some actual →
          c.typesDiffer value.type (some actual) = false := by
  rw [outputProblems, List.append_eq_nil_iff, List.append_eq_nil_iff, symbolProblems_eq_nil_iff,
    and_assoc]
  apply and_congr
  · by_cases hknown : c.catalog.knows value.type <;> simp [hknown]
  · apply and_congr_right
    intro _
    rcases htype : (c.resolve value.source).type? with _ | actual <;> simp


/-! ### Control edges -/

theorem edgeStartProblems_eq_nil_iff {id : EdgeId} {source : Source} {target : Target} :
    c.edgeStartProblems id ⟨source, target⟩ = []
      ↔ ∀ node flow, source = .proc node flow →
        (c.graph.proc? node).isSome ∧ ∀ d, c.definition? node = some d → flow ∈ d.flowNames := by
  rcases source with _ | ⟨node, flow⟩
  · simp [edgeStartProblems]
  · simp only [edgeStartProblems, Source.proc.injEq, and_imp, forall_apply_eq_imp_iff, forall_eq']
    rcases hnode : c.graph.proc? node with _ | procNode
    · simp
    · rcases hd : c.definition? node with _ | d
      · simp
      · by_cases hflow : (d.flow? flow).isSome
        · simpa [hflow] using Definition.flow?_isSome_iff.mp hflow
        · simpa [hflow] using mt Definition.flow?_isSome_iff.mpr hflow

theorem edgeEndProblems_eq_nil_iff {id : EdgeId} {source : Source} {target : Target} :
    c.edgeEndProblems id ⟨source, target⟩ = []
      ↔ (∀ node, target = .proc node → (c.graph.proc? node).isSome) ∧
        ∀ flow, target = .output flow → flow ∈ c.graph.outputFlows.keys := by
  rcases target with node | flow
  · by_cases hnode : (c.graph.proc? node).isSome <;> simp [edgeEndProblems, hnode]
  · simp only [edgeEndProblems, ← Table.contains_iff]
    by_cases hflow : c.graph.outputFlows.contains flow <;> simp [hflow]

theorem incomingProblems_eq_nil_iff {id : ProcId} {node : ProcNode} :
    c.incomingProblems id node = [] ↔ ∃ source, ⟨source, .proc id⟩ ∈ c.graph.edges := by
  have hany : (c.graph.edges.any fun e => e.target = .proc id) = true
      ↔ ∃ source, ⟨source, .proc id⟩ ∈ c.graph.edges := by
    rw [List.any_eq_true]
    refine ⟨?_, ?_⟩
    · intro hleft
      obtain ⟨⟨source, target⟩, hmem, htarget⟩ := hleft
      obtain rfl : target = .proc id := of_decide_eq_true htarget
      exact ⟨source, hmem⟩
    · exact fun ⟨source, hmem⟩ => ⟨_, hmem, decide_eq_true rfl⟩
  rw [← hany, incomingProblems]
  split <;> simp_all

theorem mem_outgoing_labels {id : ProcId} {flow : String} :
    flow ∈ (c.outgoing id).map (fun o => o.2.1)
      ↔ ∃ target, ⟨.proc id flow, target⟩ ∈ c.graph.edges := by
  simp only [outgoing, List.mem_map, List.mem_filterMap]
  refine ⟨?_, ?_⟩
  · intro hleft
    obtain ⟨_, ⟨⟨edgeId, source, target⟩, hmem, hsome⟩, rfl⟩ := hleft
    rcases source with _ | ⟨node, label⟩
    · simp at hsome
    · simp only [Option.ite_none_right_eq_some, Option.some.injEq] at hsome
      obtain ⟨rfl, rfl⟩ := hsome
      exact ⟨target, c.graph.exists_mem_edgesWithIds.mp ⟨edgeId, hmem⟩⟩
  · intro hright
    obtain ⟨target, hmem⟩ := hright
    obtain ⟨edgeId, hid⟩ := c.graph.exists_mem_edgesWithIds.mpr hmem
    exact ⟨(edgeId, flow, ⟨.proc id flow, target⟩), ⟨_, hid, by simp⟩, rfl⟩

/-- The check is silent if an edge leaves the node, and either one leaves it by a name that is no flow,
or one leaves every flow. -/
theorem outgoingProblems_eq_nil_iff {id : ProcId} {node : ProcNode} :
    c.outgoingProblems id node = []
      ↔ (∃ flow target, ⟨.proc id flow, target⟩ ∈ c.graph.edges) ∧
        ∀ d, c.definition? id = some d →
          (∃ flow ∉ d.flowNames, ∃ target, ⟨.proc id flow, target⟩ ∈ c.graph.edges) ∨
            ∀ flow ∈ d.flowNames, ∃ target, ⟨.proc id flow, target⟩ ∈ c.graph.edges := by
  simp only [← mem_outgoing_labels, outgoingProblems]
  generalize (c.outgoing id).map (fun o => o.2.1) = labels
  by_cases hempty : labels.isEmpty
  · rw [if_pos hempty, List.isEmpty_iff.mp hempty]
    simp
  · have hexists : ∃ flow, flow ∈ labels :=
      List.exists_mem_of_ne_nil labels (mt List.isEmpty_iff.mpr hempty)
    rw [if_neg hempty]
    rcases c.definition? id with _ | d
    · simpa using hexists
    · simp only [Option.some.injEq, forall_eq', hexists, true_and]
      have hany : (labels.any fun flow => (d.flow? flow).isNone) = true
          ↔ ∃ flow ∉ d.flowNames, flow ∈ labels := by
        simp only [List.any_eq_true, ← Definition.flow?_isSome_iff, Option.isNone_iff_eq_none,
          Option.not_isSome_iff_eq_none, and_comm]
      rw [← hany]
      split
      · next hundeclared => simp [hundeclared]
      · next hdeclared =>
        simp only [hdeclared, Bool.false_eq_true, false_or, List.filterMap_eq_nil_iff,
          Definition.flowNames, List.mem_map, forall_exists_index, and_imp, forall_apply_eq_imp_iff₂]
        apply forall₂_congr
        intro f _
        by_cases hleft : f.name ∈ labels <;> simp [hleft]

theorem entryProblems_eq_nil_iff :
    c.entryProblems = [] ↔ (c.graph.procs = [] → ∃ target, ⟨.entry, target⟩ ∈ c.graph.edges) := by
  have hsuccessor : (c.successor? .entry).isSome ↔ ∃ target, ⟨.entry, target⟩ ∈ c.graph.edges := by
    rw [successor?, List.find?_isSome]
    refine ⟨?_, ?_⟩
    · intro hleft
      obtain ⟨⟨id, source, target⟩, hmem, hsource⟩ := hleft
      obtain rfl : source = .entry := of_decide_eq_true hsource
      exact ⟨target, c.graph.exists_mem_edgesWithIds.mp ⟨id, hmem⟩⟩
    · intro hright
      obtain ⟨target, hmem⟩ := hright
      obtain ⟨id, hid⟩ := c.graph.exists_mem_edgesWithIds.mpr hmem
      exact ⟨_, hid, decide_eq_true rfl⟩
  rw [← hsuccessor, entryProblems]
  by_cases hprocs : c.graph.procs = [] <;> rcases c.successor? .entry with _ | e <;> simp [hprocs]


/-! ### Edges that meet -/

/-- Whether an edge keeps clear of the sources and the nodes that have been taken. -/
def ClearOf (leaving : List (Source × EdgeId)) (entering : List (ProcId × EdgeId))
    (e : Edge) : Prop :=
  leaving.lookup e.source = none ∧ ∀ node, e.target = .proc node → entering.lookup node = none

/-- The check is silent exactly if the wired edges keep clear of what has been taken and of each other.
An edge that is reported takes less than it could, but then the check is not silent anyway. -/
theorem sharedEnds_eq_nil_iff (leaving : List (Source × EdgeId)) (entering : List (ProcId × EdgeId))
    (edges : List (EdgeId × Edge)) :
    c.sharedEnds leaving entering edges = []
      ↔ ((edges.map Prod.snd).filter c.isWired).Pairwise Apart ∧
        ∀ e ∈ (edges.map Prod.snd).filter c.isWired, ClearOf leaving entering e := by
  induction edges generalizing leaving entering with
  | nil => simp [sharedEnds]
  | cons head rest ih =>
      obtain ⟨id, source, target⟩ := head
      rw [sharedEnds, List.map_cons, List.filter_cons]
      by_cases hwired : c.isWired ⟨source, target⟩
      · simp only [hwired, Bool.not_true, Bool.false_eq_true, if_false, if_true, List.pairwise_cons,
          List.forall_mem_cons]
        rcases hsource : leaving.lookup source with _ | first
        · have hleaving : ∀ s, ((source, id) :: leaving).lookup s = none
              ↔ source ≠ s ∧ leaving.lookup s = none := by
            intro s
            rw [List.lookup_cons]
            by_cases hs : s = source
            · simp [hs]
            · have hb : (s == source) = false := by simpa using hs
              simp [hb, Ne.symm hs]
          rcases target with node | flow
          · rcases hnode : entering.lookup node with _ | first
            · have hentering : ∀ n, ((node, id) :: entering).lookup n = none
                  ↔ node ≠ n ∧ entering.lookup n = none := by
                intro n
                rw [List.lookup_cons]
                by_cases hn : n = node
                · simp [hn]
                · have hb : (n == node) = false := by simpa using hn
                  simp [hb, Ne.symm hn]
              simp only [hnode, ih, ClearOf, hleaving, hentering, hsource, Apart, Target.proc.injEq]
              grind
            · simp only [hnode, reduceCtorEq, false_iff, ClearOf, Target.proc.injEq]
              grind
          · simp only [ih, ClearOf, hleaving, hsource, Apart, reduceCtorEq]
            grind
        · simp only [reduceCtorEq, false_iff, ClearOf, hsource]
          grind
      · simp only [hwired, Bool.not_false, if_true, Bool.false_eq_true, if_false]
        exact ih leaving entering

theorem duplicateProblems_eq_nil_iff :
    c.duplicateProblems = [] ↔ (c.graph.edges.filter c.isWired).Pairwise Apart := by
  rw [duplicateProblems, sharedEnds_eq_nil_iff, Graph.map_snd_edgesWithIds]
  simp [ClearOf]


/-! ### Cycles and scope -/

theorem cycleProblems_eq_nil_iff : c.cycleProblems c.cycles = [] ↔ c.Acyclic := by
  rw [cycleProblems, List.filterMap_eq_nil_iff]
  refine ⟨?_, ?_⟩
  · intro hsilent id hcycle
    obtain ⟨v, hlead, _⟩ := TransGen.head'_iff.mp hcycle
    obtain ⟨node, hnode⟩ := Option.isSome_iff_exists.mp (c.graph.mem_procIds.mp hlead.source_mem)
    have hnone := hsilent (id, node) (c.graph.mem_procsWithIds.mpr hnode)
    rw [Option.map_eq_none_iff] at hnone
    have hsome := (c.cycleOf?_isSome_iff id).mpr hcycle
    rw [hnone] at hsome
    exact absurd hsome (by simp)
  · rintro hacyclic ⟨id, node⟩ _
    rw [Option.map_eq_none_iff]
    by_contra hne
    exact hacyclic id ((c.cycleOf?_isSome_iff id).mp (Option.isSome_iff_ne_none.mpr hne))

theorem bindingScopeProblems_eq_nil_iff {id : ProcId} :
    c.bindingScopeProblems id = []
      ↔ ∀ scope, c.scope? id = some scope → ∀ b ∈ c.bindings id, ∀ node flow value,
        b.resolution = .proc node flow value → (node, flow.name) ∈ scope := by
  rcases hscope : c.scope? id with _ | scope
  · simp [bindingScopeProblems, hscope]
  · simp only [bindingScopeProblems, hscope, List.filterMap_eq_nil_iff, Option.some.injEq, forall_eq']
    apply forall₂_congr
    intro b _
    rcases b.resolution with _ | ⟨node, flow, value⟩ | _ | _ <;> simp

theorem outputScopeProblems_eq_nil_iff {flow : String} :
    c.outputScopeProblems flow = []
      ↔ ∀ o ∈ c.outputs, o.flow = flow → ∀ node f value, o.resolution = .proc node f value →
        ∀ scope ∈ c.pathsInto flow, (node, f.name) ∈ scope := by
  simp only [outputScopeProblems, List.filterMap_eq_nil_iff, List.mem_filter, decide_eq_true_iff,
    and_imp]
  apply forall₃_congr
  intro o _ _
  rcases o.resolution with _ | ⟨node, f, value⟩ | _ | _ <;> simp

end ProcFlow.Context
