import Mathlib.Data.Finset.Card
import ProcFlow.Context.Cycle
import ProcFlow.Proofs.Components
import ProcFlow.Proofs.Lookup
/-!
# Dependency between nodes

One node leads to another if a control edge runs from a flow of the first to the second, or if an input
of the second reads what the first produces. Both nodes have to be in the arena. The listed cycles are
the cycles of this relation, and where it has none, it can be followed only finitely often in either
direction.
-/

namespace ProcFlow.Context

open Relation (ReflTransGen TransGen)

variable {c : Context}

/-- A control edge runs from a flow of one node to another, within the arena. -/
def Precedes (c : Context) (u v : ProcId) : Prop :=
  (c.graph.proc? u).isSome ∧ (c.graph.proc? v).isSome ∧
    ∃ flow, (⟨.proc u flow, .proc v⟩ : Edge) ∈ c.graph.edges

/-- An input of one node reads a value of another, within the arena. -/
def Feeds (c : Context) (u v : ProcId) : Prop :=
  (c.graph.proc? u).isSome ∧
    ∃ node, c.graph.proc? v = some node ∧
      ∃ slot symbol flow, (slot, symbol) ∈ node.inputs.entries ∧ symbol.origin = .proc u flow

/-- One node has to run before another. -/
def LeadsTo (c : Context) (u v : ProcId) : Prop := c.Precedes u v ∨ c.Feeds u v

theorem LeadsTo.source_mem {u v : ProcId} (h : c.LeadsTo u v) : u ∈ c.graph.procIds := by
  rw [Graph.mem_procIds]
  rcases h with h | h
  · exact h.1
  · exact h.1

theorem LeadsTo.target_mem {u v : ProcId} (h : c.LeadsTo u v) : v ∈ c.graph.procIds := by
  rw [Graph.mem_procIds]
  rcases h with h | ⟨_, node, hnode, _⟩
  · exact h.2.1
  · rw [hnode]
    rfl


/-! ### The listed cycles -/

theorem mem_dependents_iff {u v : ProcId} (hu : (c.graph.proc? u).isSome) :
    v.index ∈ c.dependents u ↔ c.LeadsTo u v := by
  rw [dependents, List.mem_append]
  apply or_congr
  · rw [List.mem_filterMap]
    refine ⟨?_, ?_⟩
    · intro hleft
      obtain ⟨⟨source, target⟩, hmem, heq⟩ := hleft
      rcases source with _ | ⟨node, flow⟩ <;> rcases target with next | out <;>
        simp only [reduceCtorEq] at heq
      split at heq
      · next hcond =>
        obtain ⟨rfl, hnext⟩ := hcond
        have hv : next = v := congrArg ProcId.mk (Option.some.inj heq)
        subst hv
        exact ⟨hu, hnext, flow, hmem⟩
      · simp at heq
    · intro hright
      obtain ⟨_, hv, flow, hmem⟩ := hright
      exact ⟨_, hmem, by simp [hv]⟩
  · simp only [List.mem_flatMap, List.mem_filterMap]
    refine ⟨?_, ?_⟩
    · intro hleft
      obtain ⟨⟨reader, node⟩, hnode, symbol, hsymbol, heq⟩ := hleft
      rcases horigin : symbol.origin with _ | ⟨origin, flow⟩
      · simp [horigin] at heq
      · simp only [horigin] at heq
        split at heq
        · next ho =>
          subst ho
          have hv : reader = v := congrArg ProcId.mk (Option.some.inj heq)
          subst hv
          obtain ⟨⟨slot, read⟩, hentry, heq⟩ := List.mem_map.mp hsymbol
          subst heq
          exact ⟨hu, node, c.graph.mem_procsWithIds.mp hnode, slot, read, flow, hentry, horigin⟩
        · simp at heq
    · intro hright
      obtain ⟨_, node, hnode, slot, symbol, flow, hentry, horigin⟩ := hright
      refine ⟨(v, node), c.graph.mem_procsWithIds.mpr hnode, symbol, ?_, by simp [horigin]⟩
      exact List.mem_map.mpr ⟨(slot, symbol), hentry, rfl⟩

theorem size_dependencies (c : Context) : c.dependencies.size = c.graph.procs.length := by
  simp [dependencies, Digraph.size, Graph.length_procIds]

theorem step_dependencies_iff {u v : ProcId} :
    c.dependencies.Step u.index v.index ↔ c.LeadsTo u v := by
  by_cases hu : (c.graph.proc? u).isSome
  · have hlt : u.index < c.graph.procs.length := by
      rw [Graph.proc?, isSome_getElem?] at hu
      exact hu
    have hnext : c.dependencies.next u.index = c.dependents u := by
      simp [dependencies, Digraph.next, Graph.procIds, hlt]
    rw [Digraph.Step, hnext, mem_dependents_iff hu]
  · constructor
    · intro hstep
      have hlt := Digraph.lt_size_of_step hstep
      rw [size_dependencies] at hlt
      rw [Graph.proc?, isSome_getElem?] at hu
      exact absurd hlt hu
    · exact fun hlead => absurd (c.graph.mem_procIds.mp hlead.source_mem) hu

theorem closed_dependencies (c : Context) : c.dependencies.Closed := by
  intro v w hstep
  have htarget := (step_dependencies_iff (u := ⟨v⟩) (v := ⟨w⟩)).mp hstep |>.target_mem
  rw [Graph.mem_procIds, Graph.proc?, isSome_getElem?] at htarget
  rwa [size_dependencies]

theorem transGen_dependencies_iff {u v : ProcId} :
    TransGen c.dependencies.Step u.index v.index ↔ TransGen c.LeadsTo u v := by
  refine ⟨?_, ?_⟩
  · intro h
    exact TransGen.lift ProcId.mk
      (fun a b hstep => (step_dependencies_iff (u := ⟨a⟩) (v := ⟨b⟩)).mp hstep) _ _ h
  · intro h
    exact TransGen.lift ProcId.index (fun a b hlead => step_dependencies_iff.mpr hlead) _ _ h

theorem cycleOf?_isSome_iff (c : Context) (id : ProcId) :
    (cycleOf? c.cycles id).isSome ↔ TransGen c.LeadsTo id id := by
  rw [← transGen_dependencies_iff, ← Digraph.exists_mem_cycles_iff _ c.closed_dependencies, cycleOf?,
    List.find?_isSome]
  simp only [cycles, List.mem_map, decide_eq_true_iff]
  refine ⟨?_, ?_⟩
  · intro hleft
    obtain ⟨_, ⟨members, hmembers, rfl⟩, hid⟩ := hleft
    obtain ⟨i, hi, rfl⟩ := List.mem_map.mp hid
    exact ⟨members, hmembers, hi⟩
  · intro hright
    obtain ⟨members, hmembers, hid⟩ := hright
    exact ⟨_, ⟨members, hmembers, rfl⟩, List.mem_map.mpr ⟨id.index, hid, rfl⟩⟩


/-! ### Without cycles -/

/-- No node leads back to itself. -/
def Acyclic (c : Context) : Prop := ∀ id, ¬ TransGen c.LeadsTo id id

/-- A relation without cycles on finitely many things is well founded: what lies before a thing grows
strictly along the relation. -/
private theorem wellFounded_of_acyclic_on {α : Type} {r : α → α → Prop} (s : Finset α)
    (hs : ∀ a b, r a b → a ∈ s) (hacyclic : ∀ a, ¬ TransGen r a a) : WellFounded r := by
  classical
  apply Subrelation.wf (r := InvImage (· < ·) fun a => (s.filter (TransGen r · a)).card) _
    (InvImage.wf _ Nat.lt_wfRel.wf)
  intro a b hab
  apply Finset.card_lt_card
  rw [Finset.ssubset_iff_of_subset]
  · refine ⟨a, Finset.mem_filter.mpr ⟨hs a b hab, TransGen.single hab⟩, ?_⟩
    exact fun hmem => hacyclic a (Finset.mem_filter.mp hmem).2
  · intro x hx
    obtain ⟨hxs, hxa⟩ := Finset.mem_filter.mp hx
    exact Finset.mem_filter.mpr ⟨hxs, hxa.tail hab⟩

/-- Going back from node to node comes to an end, as long as no node is on a cycle. -/
theorem wellFounded_leadsTo_offCycle (c : Context) :
    WellFounded fun u v => c.LeadsTo u v ∧ ¬ TransGen c.LeadsTo v v := by
  classical
  refine wellFounded_of_acyclic_on c.graph.procIds.toFinset
    (fun a b hab => List.mem_toFinset.mpr hab.1.source_mem) fun id hcycle => ?_
  obtain ⟨_, _, hlast⟩ := TransGen.tail'_iff.mp hcycle
  exact hlast.2 (TransGen.mono (fun _ _ hab => hab.1) _ _ hcycle)

/-- Where no node is on a cycle, going back comes to an end. -/
theorem Acyclic.wellFounded (h : c.Acyclic) : WellFounded c.LeadsTo :=
  Subrelation.wf (fun hab => ⟨hab, h _⟩) c.wellFounded_leadsTo_offCycle

end ProcFlow.Context
