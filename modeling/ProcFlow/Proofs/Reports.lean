import ProcFlow.Context.Check
/-!
# What the checks report

A finding is a diagnostic without its wording: what kind of problem there is, and which part has it. The
checks fall into those on data, those on control edges, the cycles and the scope, and come in that order.
No two of these report a problem of the same kind, so a kind tells which check has spoken.
-/

namespace ProcFlow

open Diagnostic (Kind Subject)

/-- What is wrong and with which part, without the wording. -/
def Diagnostic.finding (d : Diagnostic) : Kind × Subject := (d.kind, d.subject)

namespace Context

/-- All that is found to be wrong with a graph, in order. -/
def findings (c : Context) : List (Kind × Subject) := c.diagnostics.map Diagnostic.finding

/-- What is wrong with types, procedures and symbols. -/
def dataProblems (c : Context) : List Diagnostic :=
  c.inputProblems
    ++ c.graph.procsWithIds.flatMap (fun (id, node) => c.nodeProblems id node)
    ++ c.graph.outputEntries.flatMap (fun (flow, id, value) => c.outputProblems flow id value)

/-- What is wrong with control edges. -/
def controlProblems (c : Context) : List Diagnostic :=
  c.graph.edgesWithIds.flatMap (fun (id, e) => c.edgeProblems id e)
    ++ c.graph.procsWithIds.flatMap (fun (id, node) =>
      c.incomingProblems id node ++ c.outgoingProblems id node)
    ++ c.entryProblems
    ++ c.duplicateProblems

theorem diagnostics_eq_append (c : Context) :
    c.diagnostics = c.dataProblems ++ c.controlProblems ++ c.cycleProblems c.cycles
      ++ c.scopeProblems c.cycles := by
  simp only [diagnostics, dataProblems, controlProblems, List.append_assoc]

variable {c : Context} {d : Diagnostic}


/-! ### The kinds of each check -/

theorem kind_of_mem_inputProblems (h : d ∈ c.inputProblems) : d.kind = .unknownType := by
  obtain ⟨⟨key, decl⟩, _, hd⟩ := List.mem_filterMap.mp h
  simp only [Option.ite_none_left_eq_some, Option.some.injEq] at hd
  rw [← hd.2]

theorem kind_of_mem_procedureProblems {id : ProcId} {node : ProcNode}
    (h : d ∈ c.procedureProblems id node) :
    d.kind = .unresolvedProcedure ∨ d.kind = .unknownType := by
  unfold procedureProblems at h
  split at h
  · rw [List.mem_singleton.mp h]
    exact Or.inl rfl
  · split at h
    · exact absurd h List.not_mem_nil
    · rw [List.mem_singleton.mp h]
      exact Or.inr rfl

theorem kind_of_mem_symbolProblems {subject : Subject} {s : SymbolRef}
    (h : d ∈ c.symbolProblems subject s) : d.kind = .unresolvedSymbolSource := by
  unfold symbolProblems at h
  split at h
  · exact absurd h List.not_mem_nil
  · rw [List.mem_singleton.mp h]

theorem kind_of_mem_bindingProblems {id : ProcId} {node : ProcNode} {slot : String}
    {symbol : SymbolRef} (h : d ∈ c.bindingProblems id node slot symbol) :
    d.kind = .unresolvedSymbolSource ∨ d.kind = .unmatchedInputSlot ∨ d.kind = .typeMismatch := by
  rw [bindingProblems, List.mem_append, List.mem_append] at h
  rcases h with (h | h) | h
  · exact Or.inl (kind_of_mem_symbolProblems h)
  · rw [List.mem_ite_nil_right, List.mem_singleton] at h
    rw [h.2]
    exact Or.inr (Or.inl rfl)
  · split at h
    · rw [List.mem_ite_nil_right, List.mem_singleton] at h
      rw [h.2]
      exact Or.inr (Or.inr rfl)
    · exact absurd h List.not_mem_nil

theorem kind_of_mem_missingSlots {id : ProcId} {node : ProcNode} (h : d ∈ c.missingSlots id node) :
    d.kind = .missingInputSlot := by
  unfold missingSlots at h
  split at h
  · exact absurd h List.not_mem_nil
  · obtain ⟨slot, _, hd⟩ := List.mem_filterMap.mp h
    simp only [Option.ite_none_left_eq_some, Option.some.injEq] at hd
    rw [← hd.2]

theorem kind_of_mem_outputProblems {flow id : String} {value : OutputValue}
    (h : d ∈ c.outputProblems flow id value) :
    d.kind = .unknownType ∨ d.kind = .unresolvedSymbolSource ∨ d.kind = .typeMismatch := by
  rw [outputProblems, List.mem_append, List.mem_append] at h
  rcases h with (h | h) | h
  · rw [List.mem_ite_nil_left, List.mem_singleton] at h
    rw [h.2]
    exact Or.inl rfl
  · exact Or.inr (Or.inl (kind_of_mem_symbolProblems h))
  · split at h
    · rw [List.mem_ite_nil_right, List.mem_singleton] at h
      rw [h.2]
      exact Or.inr (Or.inr rfl)
    · exact absurd h List.not_mem_nil

theorem kind_of_mem_edgeProblems {id : EdgeId} {e : Edge} (h : d ∈ c.edgeProblems id e) :
    d.kind = .unknownNode ∨ d.kind = .flowNameMismatch := by
  rw [edgeProblems, List.mem_append, edgeStartProblems, edgeEndProblems] at h
  grind

theorem kind_of_mem_incomingProblems {id : ProcId} {node : ProcNode}
    (h : d ∈ c.incomingProblems id node) : d.kind = .missingControlEdge := by
  rw [incomingProblems, List.mem_ite_nil_left, List.mem_singleton] at h
  rw [h.2]

theorem kind_of_mem_outgoingProblems {id : ProcId} {node : ProcNode}
    (h : d ∈ c.outgoingProblems id node) : d.kind = .missingControlEdge := by
  simp only [outgoingProblems] at h
  split at h
  · rw [List.mem_singleton.mp h]
  · split at h
    · exact absurd h List.not_mem_nil
    · rw [List.mem_ite_nil_left, List.mem_filterMap] at h
      obtain ⟨_, flow, _, hd⟩ := h
      simp only [Option.ite_none_left_eq_some, Option.some.injEq] at hd
      rw [← hd.2]

theorem kind_of_mem_entryProblems (h : d ∈ c.entryProblems) : d.kind = .missingControlEdge := by
  rw [entryProblems, List.mem_ite_nil_right, List.mem_singleton] at h
  rw [h.2]

theorem kind_of_mem_sharedEnds {leaving : List (Source × EdgeId)} {entering : List (ProcId × EdgeId)}
    {edges : List (EdgeId × Edge)} (h : d ∈ c.sharedEnds leaving entering edges) :
    d.kind = .duplicateControlEdge := by
  fun_induction sharedEnds c leaving entering edges with
  | case1 => exact absurd h List.not_mem_nil
  | case2 _ _ _ _ _ _ ih => exact ih h
  | case3 _ _ _ _ _ _ _ _ ih =>
      rcases List.mem_cons.mp h with rfl | h
      · rfl
      · exact ih h
  | case4 _ _ _ _ _ _ _ _ _ ih => exact ih h
  | case5 _ _ _ _ _ _ _ _ _ _ _ ih =>
      rcases List.mem_cons.mp h with rfl | h
      · rfl
      · exact ih h
  | case6 _ _ _ _ _ _ _ _ _ _ ih => exact ih h

theorem kind_of_mem_cycleProblems {cycles : List (List ProcId)} (h : d ∈ c.cycleProblems cycles) :
    d.kind = .cyclicDependency := by
  obtain ⟨⟨id, node⟩, _, hd⟩ := List.mem_filterMap.mp h
  obtain ⟨members, _, rfl⟩ := Option.map_eq_some_iff.mp hd
  rfl

theorem kind_of_mem_scopeProblems {cycles : List (List ProcId)} (h : d ∈ c.scopeProblems cycles) :
    d.kind = .symbolOutOfScope := by
  rw [scopeProblems, List.mem_append, List.mem_flatMap, List.mem_flatMap] at h
  rcases h with ⟨id, _, h⟩ | ⟨flow, _, h⟩
  · rw [List.mem_ite_nil_left, bindingScopeProblems] at h
    grind
  · rw [outputScopeProblems] at h
    grind


/-! ### The kinds of each group -/

theorem kind_of_mem_dataProblems (h : d ∈ c.dataProblems) :
    d.kind ∈ [Kind.unresolvedProcedure, .unmatchedInputSlot, .missingInputSlot,
      .unresolvedSymbolSource, .typeMismatch, .unknownType] := by
  rw [dataProblems, List.mem_append, List.mem_append, List.mem_flatMap, List.mem_flatMap] at h
  rcases h with (h | ⟨⟨id, node⟩, _, h⟩) | ⟨⟨flow, id, value⟩, _, h⟩
  · simp [kind_of_mem_inputProblems h]
  · simp only [nodeProblems, List.mem_append, List.mem_flatMap] at h
    rcases h with (h | ⟨⟨slot, symbol⟩, _, h⟩) | h
    · rcases kind_of_mem_procedureProblems h with hkind | hkind <;> simp [hkind]
    · rcases kind_of_mem_bindingProblems h with hkind | hkind | hkind <;> simp [hkind]
    · simp [kind_of_mem_missingSlots h]
  · rcases kind_of_mem_outputProblems h with hkind | hkind | hkind <;> simp [hkind]

theorem kind_of_mem_controlProblems (h : d ∈ c.controlProblems) :
    d.kind ∈ [Kind.missingControlEdge, .flowNameMismatch, .unknownNode, .duplicateControlEdge] := by
  rw [controlProblems, List.mem_append, List.mem_append, List.mem_append, List.mem_flatMap,
    List.mem_flatMap] at h
  rcases h with ((⟨⟨id, e⟩, _, h⟩ | ⟨⟨id, node⟩, _, h⟩) | h) | h
  · rcases kind_of_mem_edgeProblems h with hkind | hkind <;> simp [hkind]
  · rcases List.mem_append.mp h with h | h
    · simp [kind_of_mem_incomingProblems h]
    · simp [kind_of_mem_outgoingProblems h]
  · simp [kind_of_mem_entryProblems h]
  · simp [kind_of_mem_sharedEnds h]

end Context

end ProcFlow
