import Mathlib.Data.List.Pairwise
import ProcFlow.Proofs.WayBack
import ProcFlow.Proofs.WellFormed
/-!
# Control as a tree

Where edges are anchored, complete and free of cycles, control is a tree that grows from the entry. Going
back from a node never branches, because one edge enters it, and comes to an end, because nothing leads
back to itself; so it ends at the entry, and every node has a walk to it. A walk never passes a node
twice, so the way back from its last edge does not stop short.
-/

namespace ProcFlow.Context

open Relation (ReflTransGen TransGen)

/-- The conditions on control alone, without types and scope. -/
structure Controlled (c : Context) : Prop where
  edges : c.EdgesAnchored
  control : c.ControlComplete
  acyclic : c.Acyclic

theorem WellFormed.controlled {c : Context} (h : c.WellFormed) : c.Controlled :=
  ⟨h.edges, h.control, h.acyclic⟩

instance : Std.Symm Apart where
  symm _ _ h := ⟨h.1.symm, fun node htarget' htarget => h.2 node htarget htarget'⟩

namespace Controlled

variable {c : Context} (h : c.Controlled)

include h

/-! ### One edge out of each source and into each node -/

theorem apart_of_ne {e e' : Edge} (he : e ∈ c.graph.edges) (he' : e' ∈ c.graph.edges)
    (hne : e ≠ e') : Apart e e' :=
  h.control.apart.forall he he' hne

theorem eq_of_source {e e' : Edge} (he : e ∈ c.graph.edges) (he' : e' ∈ c.graph.edges)
    (hsource : e.source = e'.source) : e = e' := by
  by_contra hne
  exact (h.apart_of_ne he he' hne).1 hsource

theorem eq_of_target {e e' : Edge} {node : ProcId} (he : e ∈ c.graph.edges)
    (he' : e' ∈ c.graph.edges) (htarget : e.target = .proc node) (htarget' : e'.target = .proc node) :
    e = e' := by
  by_contra hne
  exact (h.apart_of_ne he he' hne).2 node htarget htarget'

theorem target_unique {source : Source} {target target' : Target}
    (hedge : ⟨source, target⟩ ∈ c.graph.edges) (hedge' : ⟨source, target'⟩ ∈ c.graph.edges) :
    target = target' :=
  (Edge.mk.inj (h.eq_of_source hedge hedge' rfl)).2

theorem source_unique {source source' : Source} {node : ProcId}
    (hedge : ⟨source, .proc node⟩ ∈ c.graph.edges) (hedge' : ⟨source', .proc node⟩ ∈ c.graph.edges) :
    source = source' :=
  (Edge.mk.inj (h.eq_of_target hedge hedge' rfl rfl)).1

theorem successor?_eq {source : Source} {target : Target}
    (hedge : ⟨source, target⟩ ∈ c.graph.edges) :
    ∃ id, c.successor? source = some (id, ⟨source, target⟩) := by
  obtain ⟨id, hid⟩ := c.graph.exists_mem_edgesWithIds.mpr hedge
  have hsome : (c.successor? source).isSome :=
    List.find?_isSome.mpr ⟨_, hid, decide_eq_true rfl⟩
  obtain ⟨⟨first, e⟩, hfirst⟩ := Option.isSome_iff_exists.mp hsome
  have hmem : e ∈ c.graph.edges :=
    c.graph.exists_mem_edgesWithIds.mp ⟨first, List.mem_of_find?_eq_some hfirst⟩
  have hsource : e.source = source := by simpa using List.find?_some hfirst
  refine ⟨first, ?_⟩
  rw [hfirst, h.eq_of_source hmem hedge hsource]

theorem firstInto?_eq {source : Source} {node : ProcId}
    (hedge : ⟨source, .proc node⟩ ∈ c.graph.edges) :
    c.firstInto? (.proc node) = some ⟨source, .proc node⟩ := by
  have hsome : (c.firstInto? (.proc node)).isSome :=
    List.find?_isSome.mpr ⟨_, hedge, decide_eq_true rfl⟩
  obtain ⟨e, hfirst⟩ := Option.isSome_iff_exists.mp hsome
  obtain ⟨hmem, htarget⟩ := firstInto?_eq_some hfirst
  rw [hfirst, h.eq_of_target hmem hedge htarget rfl]

theorem leadsTo_of_edge {u v : ProcId} {flow : String}
    (hedge : ⟨.proc u flow, .proc v⟩ ∈ c.graph.edges) : c.LeadsTo u v := by
  obtain ⟨d, hd, _⟩ := h.edges.source u flow _ hedge
  refine Or.inl ⟨?_, h.edges.node _ v hedge, flow, hedge⟩
  rw [definition?] at hd
  obtain ⟨node, hnode, _⟩ := Option.bind_eq_some_iff.mp hd
  rw [hnode]
  rfl


/-! ### Walks do not repeat nodes -/

/-- A node that a walk has passed leads to where the walk arrives. -/
theorem leadsTo_of_mem_passedFlows {walk : List Edge} {node id : ProcId} {flow : String}
    (hwalk : Walk c.graph walk (.proc id)) (hmem : (node, flow) ∈ passedFlows walk) :
    TransGen c.LeadsTo node id := by
  generalize htarget : Target.proc id = target at hwalk
  induction hwalk generalizing id with
  | start _ => exact absurd hmem List.not_mem_nil
  | @step walk last lastFlow target hwalk hedge ih =>
      subst htarget
      have hlast := h.leadsTo_of_edge hedge
      rw [passedFlows_step, List.mem_append, List.mem_singleton] at hmem
      rcases hmem with hmem | heq
      · exact (ih hmem rfl).tail hlast
      · obtain ⟨rfl, rfl⟩ := Prod.mk.inj heq
        exact TransGen.single hlast

theorem nodup_passedFlows {walk : List Edge} {target : Target} (hwalk : Walk c.graph walk target) :
    ((passedFlows walk).map Prod.fst).Nodup := by
  induction hwalk with
  | start _ => exact List.nodup_nil
  | @step walk node flow target hwalk hedge ih =>
      rw [passedFlows_step, List.map_append, List.map_singleton]
      refine List.Nodup.append ih (List.nodup_singleton _) ?_
      intro id hid hnode
      rw [List.mem_singleton.mp hnode] at hid
      obtain ⟨⟨_, flow'⟩, hmem, rfl⟩ := List.mem_map.mp hid
      exact h.acyclic _ (h.leadsTo_of_mem_passedFlows hwalk hmem)

theorem length_passedFlows_le {walk : List Edge} {target : Target}
    (hwalk : Walk c.graph walk target) : (passedFlows walk).length ≤ c.graph.procs.length := by
  have hsubset : (passedFlows walk).map Prod.fst ⊆ c.graph.procIds := by
    intro id hid
    obtain ⟨⟨_, flow⟩, hmem, rfl⟩ := List.mem_map.mp hid
    obtain ⟨⟨source, target'⟩, he, hflow⟩ := List.mem_filterMap.mp hmem
    rcases source with _ | ⟨node, flow'⟩
    · simp [Edge.flow?] at hflow
    · simp only [Edge.flow?, Option.some.injEq, Prod.mk.injEq] at hflow
      obtain ⟨rfl, rfl⟩ := hflow
      obtain ⟨d, hd, _⟩ := h.edges.source _ _ _ (hwalk.mem_edges _ he)
      obtain ⟨procNode, hnode, _⟩ := Option.bind_eq_some_iff.mp hd
      rw [Graph.mem_procIds, hnode]
      rfl
  have hle := c.graph.length_le_of_nodup (h.nodup_passedFlows hwalk) hsubset
  rwa [List.length_map] at hle


/-! ### The way back retraces the walk -/

theorem wayTo_of_walk {walk before : List Edge} {e : Edge} {target : Target}
    (hwalk : Walk c.graph walk target) (hlast : walk = before ++ [e]) : c.WayTo e walk := by
  induction hwalk generalizing before e with
  | start hedge =>
      obtain ⟨rfl, heq⟩ := List.append_inj' ((List.nil_append _).trans hlast) rfl
      obtain rfl := List.singleton_inj.mp heq
      exact .entry rfl
  | @step walk node flow target hwalk hedge ih =>
      obtain ⟨rfl, heq⟩ := List.append_inj' hlast rfl
      obtain rfl := List.singleton_inj.mp heq
      obtain ⟨before', ⟨source, target'⟩, rfl, hmem, htarget⟩ := hwalk.eq_append
      subst htarget
      have hleaves : c.Leaves ⟨.proc node flow, target⟩ node flow :=
        leaves_iff_definition?.mpr ⟨rfl, h.edges.source node flow target hedge⟩
      exact .back hleaves (firstInto?_eq_some_iff.mp (h.firstInto?_eq hmem)) (ih rfl)

theorem controlPath?_eq {before : List Edge} {e : Edge} {target : Target}
    (hwalk : Walk c.graph (before ++ [e]) target) :
    c.controlPath? e = some (passedFlows (before ++ [e])) :=
  controlPath?_eq_some_iff.mpr ⟨_, h.wayTo_of_walk hwalk rfl, h.nodup_passedFlows hwalk, rfl⟩


/-! ### Every node has a walk -/

theorem exists_walk {id : ProcId} (hid : id ∈ c.graph.procIds) :
    ∃ walk, Walk c.graph walk (.proc id) := by
  induction id using h.acyclic.wellFounded.induction with
  | _ id ih =>
      obtain ⟨source, hedge⟩ := h.control.incoming id hid
      rcases source with _ | ⟨node, flow⟩
      · exact ⟨_, Walk.start hedge⟩
      · have hlead := h.leadsTo_of_edge hedge
        obtain ⟨walk, hwalk⟩ := ih node hlead hlead.source_mem
        exact ⟨_, Walk.step hwalk hedge⟩

theorem exists_entry_edge : ∃ target, ⟨.entry, target⟩ ∈ c.graph.edges := by
  rcases hprocs : c.graph.procIds with _ | ⟨id, rest⟩
  · apply h.control.entry
    rw [← List.length_eq_zero_iff, ← Graph.length_procIds, hprocs, List.length_nil]
  · obtain ⟨walk, hwalk⟩ := h.exists_walk (hprocs ▸ List.mem_cons_self : id ∈ c.graph.procIds)
    exact hwalk.exists_start

end Controlled

end ProcFlow.Context
