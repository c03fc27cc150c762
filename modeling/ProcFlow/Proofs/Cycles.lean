import ProcFlow.Proofs.Dependency
import ProcFlow.Proofs.Reports
/-!
# The cycles that are listed

The listed cycles are the strongly connected components of the dependencies between nodes that a node
lies on which leads back to itself. No node lies on two of them, and they are listed by their least nodes.

The diagnostics of cycles name the nodes that lie on one, each once and in the order of the arena.
-/

namespace ProcFlow.Context

open Diagnostic (Subject)
open Relation (ReflTransGen TransGen)

variable {c : Context}

theorem reflTransGen_dependencies_iff {u v : ProcId} :
    ReflTransGen c.dependencies.Step u.index v.index ↔ ReflTransGen c.LeadsTo u v := by
  rw [Relation.reflTransGen_iff_eq_or_transGen, Relation.reflTransGen_iff_eq_or_transGen,
    transGen_dependencies_iff]
  apply or_congr_left
  exact ⟨fun h => congrArg ProcId.mk h, fun h => congrArg ProcId.index h⟩

theorem tied_dependencies_iff {u v : ProcId} : c.dependencies.Tied u.index v.index
    ↔ ReflTransGen c.LeadsTo u v ∧ ReflTransGen c.LeadsTo v u :=
  and_congr reflTransGen_dependencies_iff reflTransGen_dependencies_iff

/-- The nodes that lead to each other with a node that leads back to itself, in the order of the
arena. -/
def IsCycle (c : Context) (members : List ProcId) : Prop :=
  members.Pairwise (fun a b => a.index < b.index) ∧
    ∃ id, TransGen c.LeadsTo id id ∧
      ∀ other, other ∈ members ↔ ReflTransGen c.LeadsTo id other ∧ ReflTransGen c.LeadsTo other id

theorem isCycle_iff {members : List ProcId} :
    c.IsCycle members ↔ members.map ProcId.index ∈ c.dependencies.cycles := by
  rw [IsCycle, Digraph.mem_cycles_iff c.closed_dependencies, List.pairwise_map]
  apply and_congr_right'
  have hmem : ∀ id : ProcId, id.index ∈ members.map ProcId.index ↔ id ∈ members :=
    fun id => List.mem_map_of_injective fun a b hab => congrArg ProcId.mk hab
  refine ⟨?_, ?_⟩
  · intro hleft
    obtain ⟨id, hcycle, hothers⟩ := hleft
    refine ⟨id.index, transGen_dependencies_iff.mpr hcycle, fun w => ?_⟩
    exact (hmem ⟨w⟩).trans ((hothers ⟨w⟩).trans (tied_dependencies_iff (v := ⟨w⟩)).symm)
  · intro hright
    obtain ⟨v, hcycle, hothers⟩ := hright
    refine ⟨⟨v⟩, transGen_dependencies_iff.mp hcycle, fun other => ?_⟩
    exact (hmem other).symm.trans ((hothers other.index).trans (tied_dependencies_iff (u := ⟨v⟩)))

theorem mem_cycles_iff (c : Context) (members : List ProcId) :
    members ∈ c.cycles ↔ c.IsCycle members := by
  rw [isCycle_iff, cycles, List.mem_map]
  refine ⟨?_, ?_⟩
  · intro hleft
    obtain ⟨indices, hmem, rfl⟩ := hleft
    rwa [List.map_map, List.map_id'' (f := ProcId.index ∘ ProcId.mk) fun _ => rfl]
  · intro hmem
    refine ⟨_, hmem, ?_⟩
    rw [List.map_map, List.map_id'' (f := ProcId.mk ∘ ProcId.index) fun _ => rfl]

theorem pairwise_disjoint_cycles (c : Context) : c.cycles.Pairwise List.Disjoint := by
  rw [cycles, List.pairwise_map]
  refine (Digraph.pairwise_disjoint_cycles c.closed_dependencies).imp fun hdisjoint => ?_
  exact hdisjoint.map fun a b hab => congrArg ProcId.index hab

theorem pairwise_head_cycles (c : Context) :
    c.cycles.Pairwise fun first second =>
      ∀ a ∈ first.head?, ∀ b ∈ second.head?, a.index < b.index := by
  rw [cycles, List.pairwise_map]
  refine (Digraph.pairwise_head_cycles c.closed_dependencies).imp ?_
  intro first second hlt a ha b hb
  rcases first with _ | ⟨x, first⟩
  · exact absurd ha (by simp)
  rcases second with _ | ⟨y, second⟩
  · exact absurd hb (by simp)
  simp only [List.map_cons, List.head?_cons, Option.mem_some_iff] at ha hb
  rw [← ha, ← hb]
  exact hlt


/-! ### The diagnostics of cycles -/

/-- The diagnostics of cycles name the nodes on cycles, each once and in the order of the arena. -/
theorem subject_cycleProblems (c : Context) :
    (c.cycleProblems c.cycles).map Diagnostic.subject
      = (c.graph.procIds.filter c.isOnCycle).map Subject.proc := by
  rw [cycleProblems, List.map_filterMap, ← Graph.map_fst_procsWithIds, List.filter_map, List.map_map,
    ← List.filterMap_eq_map (f := Subject.proc ∘ Prod.fst), List.filterMap_filter]
  apply List.filterMap_congr
  intro entry _
  obtain ⟨id, node⟩ := entry
  rcases hcycle : cycleOf? c.cycles id with _ | members <;> simp [isOnCycle, hcycle]

theorem filter_kind_eq_nil {kinds : List Diagnostic.Kind} {kind : Diagnostic.Kind}
    {ds : List Diagnostic} (hkind : kind ∉ kinds) (h : ∀ d ∈ ds, d.kind ∈ kinds) :
    (ds.filter fun d => d.kind = kind) = [] := by
  rw [List.filter_eq_nil_iff]
  intro d hd heq
  exact hkind (of_decide_eq_true heq ▸ h d hd)

/-- Cycle detection is exact: a node is said to be on a cycle exactly if it leads back to itself, the
cycles are listed without overlap by their first members, and each node on a cycle is reported once. -/
theorem dependency_cycles_exact (c : Context) :
    (∀ id, c.isOnCycle id ↔ TransGen c.LeadsTo id id) ∧
      (∀ members, members ∈ c.cycles ↔ c.IsCycle members) ∧
      c.cycles.Pairwise List.Disjoint ∧
      (c.cycles.Pairwise fun first second =>
        ∀ a ∈ first.head?, ∀ b ∈ second.head?, a.index < b.index) ∧
      (c.diagnostics.filter fun d => d.kind = .cyclicDependency).map Diagnostic.subject
        = (c.graph.procIds.filter c.isOnCycle).map Subject.proc := by
  refine ⟨c.cycleOf?_isSome_iff, c.mem_cycles_iff, c.pairwise_disjoint_cycles,
    c.pairwise_head_cycles, ?_⟩
  have hdata : (c.dataProblems.filter fun d => d.kind = .cyclicDependency) = [] :=
    filter_kind_eq_nil (by decide) fun _ => kind_of_mem_dataProblems
  have hcontrol : (c.controlProblems.filter fun d => d.kind = .cyclicDependency) = [] :=
    filter_kind_eq_nil (by decide) fun _ => kind_of_mem_controlProblems
  have hscope : ((c.scopeProblems c.cycles).filter fun d => d.kind = .cyclicDependency) = [] :=
    filter_kind_eq_nil (by decide) fun _ hd => List.mem_singleton.mpr (kind_of_mem_scopeProblems hd)
  have hcycles : (c.cycleProblems c.cycles).filter (fun d => d.kind = .cyclicDependency)
      = c.cycleProblems c.cycles :=
    List.filter_eq_self.mpr fun _ hd => decide_eq_true (kind_of_mem_cycleProblems hd)
  rw [diagnostics_eq_append, List.filter_append, List.filter_append, List.filter_append, hdata,
    hcontrol, hscope, hcycles, List.append_nil, List.append_nil, List.nil_append]
  exact c.subject_cycleProblems

end ProcFlow.Context
