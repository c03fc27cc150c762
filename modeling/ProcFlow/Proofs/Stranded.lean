import ProcFlow.Catalog.Standard
import ProcFlow.Compile
import ProcFlow.Proofs.Cycles
import ProcFlow.Proofs.Silence
/-!
# Nodes that the entry does not lead to

Whether the entry leads to a node is checked nowhere. A node that it does not lead to is still explained,
though the report may stand far ahead of it: going back from the node along control edges comes to a node
that no edge enters, that is on a cycle, or that is entered from outside of the arena, and each of these is
reported.

Going back gets stuck nowhere else, since an edge into a node starts at the entry, within the arena or
outside of it; and it comes to an end, because it could go on forever only around a cycle.
-/

namespace ProcFlow.Context

open Relation (ReflTransGen TransGen)

variable {c : Context} {id : ProcId}

/-- A walk comes to nodes of the arena only. -/
def StaysInArena (c : Context) (walk : List Edge) : Prop :=
  ∀ e ∈ walk, ∀ id, e.target = .proc id → id ∈ c.graph.procIds

/-- A diagnostic says why the entry need not lead to a node. -/
inductive CutsOff (c : Context) (id : ProcId) (d : Diagnostic) : Prop where
  | unentered {node : ProcNode} (hnode : c.graph.proc? id = some node)
      (hnone : ∀ source, ⟨source, .proc id⟩ ∉ c.graph.edges)
      (hfinding : d.finding = (.missingControlEdge, .proc id))
      (hmessage : d.message = "'" ++ node.procedure ++ "' has no incoming control edge")
  | onCycle (hcycle : TransGen c.LeadsTo id id)
      (hfinding : d.finding = (.cyclicDependency, .proc id))
  | fromOutside {edge : EdgeId} {e : Edge} {origin : ProcId} {flow : String}
      (hedge : c.graph.edge? edge = some e) (htarget : e.target = .proc id)
      (hsource : e.source = .proc origin flow) (horigin : origin ∉ c.graph.procIds)
      (hfinding : d.finding = (.unknownNode, .edge edge))
      (hmessage : d.message = "edge " ++ e.text ++ " starts at unknown node " ++ origin.text)


/-! ### What is reported -/

theorem mem_diagnostics_of_mem_controlProblems {d : Diagnostic} (h : d ∈ c.controlProblems) :
    d ∈ c.diagnostics := by
  rw [diagnostics_eq_append]
  exact List.mem_append_left _ (List.mem_append_left _ (List.mem_append_right _ h))

theorem exists_report_of_unentered (hid : id ∈ c.graph.procIds)
    (hnone : ∀ source, ⟨source, .proc id⟩ ∉ c.graph.edges) : ∃ d ∈ c.diagnostics, c.CutsOff id d := by
  obtain ⟨node, hnode⟩ := Option.isSome_iff_exists.mp (c.graph.mem_procIds.mp hid)
  have hproblems : c.incomingProblems id node ≠ [] := by
    rw [Ne, incomingProblems_eq_nil_iff, not_exists]
    exact hnone
  obtain ⟨d, hd⟩ := List.exists_mem_of_ne_nil _ hproblems
  refine ⟨d, mem_diagnostics_of_mem_controlProblems ?_, ?_⟩
  · rw [controlProblems]
    refine List.mem_append_left _ (List.mem_append_left _ (List.mem_append_right _ ?_))
    exact List.mem_flatMap.mpr
      ⟨(id, node), c.graph.mem_procsWithIds.mpr hnode, List.mem_append_left _ hd⟩
  · rw [incomingProblems, List.mem_ite_nil_left, List.mem_singleton] at hd
    obtain ⟨_, rfl⟩ := hd
    exact .unentered hnode hnone rfl rfl

theorem exists_report_of_onCycle (hcycle : TransGen c.LeadsTo id id) :
    ∃ d ∈ c.diagnostics, c.CutsOff id d := by
  have hid : id ∈ c.graph.procIds.filter c.isOnCycle := by
    obtain ⟨_, hlead, _⟩ := TransGen.head'_iff.mp hcycle
    exact List.mem_filter.mpr ⟨hlead.source_mem, (c.cycleOf?_isSome_iff id).mpr hcycle⟩
  have hsubject := List.mem_map_of_mem (f := Diagnostic.Subject.proc) hid
  rw [← subject_cycleProblems] at hsubject
  obtain ⟨d, hd, hsubject⟩ := List.mem_map.mp hsubject
  refine ⟨d, ?_, .onCycle hcycle (Prod.ext (kind_of_mem_cycleProblems hd) hsubject)⟩
  rw [diagnostics_eq_append]
  exact List.mem_append_left _ (List.mem_append_right _ hd)

theorem exists_report_of_outside {origin : ProcId} {flow : String}
    (hedge : ⟨.proc origin flow, .proc id⟩ ∈ c.graph.edges) (horigin : origin ∉ c.graph.procIds) :
    ∃ d ∈ c.diagnostics, c.CutsOff id d := by
  obtain ⟨edge, hedge⟩ := c.graph.exists_mem_edgesWithIds.mpr hedge
  have hnone : c.graph.proc? origin = none := by
    rwa [Graph.mem_procIds, Option.not_isSome_iff_eq_none] at horigin
  have hproblems : c.edgeStartProblems edge ⟨.proc origin flow, .proc id⟩ ≠ [] := by
    simp [edgeStartProblems, hnone]
  obtain ⟨d, hd⟩ := List.exists_mem_of_ne_nil _ hproblems
  refine ⟨d, mem_diagnostics_of_mem_controlProblems ?_, ?_⟩
  · rw [controlProblems]
    refine List.mem_append_left _ (List.mem_append_left _ (List.mem_append_left _ ?_))
    exact List.mem_flatMap.mpr ⟨_, hedge, List.mem_append_left _ hd⟩
  · simp only [edgeStartProblems, hnone, List.mem_singleton] at hd
    subst hd
    exact .fromOutside (c.graph.mem_edgesWithIds.mp hedge) rfl rfl horigin rfl rfl


/-! ### Going back -/

theorem StaysInArena.step {walk : List Edge} {source : Source} (h : c.StaysInArena walk)
    (hid : id ∈ c.graph.procIds) : c.StaysInArena (walk ++ [⟨source, .proc id⟩]) := by
  intro e he id' htarget
  rw [List.mem_append, List.mem_singleton] at he
  obtain he | rfl := he
  · exact h e he id' htarget
  · rwa [← Target.proc.inj htarget]

theorem StaysInArena.start (hid : id ∈ c.graph.procIds) :
    c.StaysInArena [⟨.entry, .proc id⟩] := by
  have hnowhere : c.StaysInArena [] := fun _ he => absurd he List.not_mem_nil
  exact hnowhere.step hid

/-- The entry leads to a node unless a diagnostic cuts off a node on a way to it. -/
theorem exists_walk_of_not_cutsOff (hid : id ∈ c.graph.procIds)
    (hback : ∀ a, ReflTransGen c.Precedes a id → ∀ d ∈ c.diagnostics, ¬ c.CutsOff a d) :
    ∃ walk, Walk c.graph walk (.proc id) ∧ c.StaysInArena walk := by
  -- By going back along edges into nodes that are on no cycle. What lies before an earlier node lies
  -- before this one too, so it is not cut off either.
  induction id using c.wellFounded_leadsTo_offCycle.induction with
  | _ id ih =>
      have hself : ¬ ∃ d ∈ c.diagnostics, c.CutsOff id d := by
        simpa using hback id ReflTransGen.refl
      have hentered : ∃ source, ⟨source, .proc id⟩ ∈ c.graph.edges := by
        by_contra hnone
        exact hself (exists_report_of_unentered hid (not_exists.mp hnone))
      obtain ⟨source, hedge⟩ := hentered
      cases source with
      | entry => exact ⟨_, Walk.start hedge, .start hid⟩
      | proc origin flow =>
          have horigin : origin ∈ c.graph.procIds := by
            by_contra hmissing
            exact hself (exists_report_of_outside hedge hmissing)
          have hprecedes : c.Precedes origin id :=
            ⟨c.graph.mem_procIds.mp horigin, c.graph.mem_procIds.mp hid, flow, hedge⟩
          have hoff : ¬ TransGen c.LeadsTo id id := fun hcycle =>
            hself (exists_report_of_onCycle hcycle)
          obtain ⟨walk, hwalk, hstays⟩ := ih origin ⟨Or.inl hprecedes, hoff⟩ horigin
            fun a ha => hback a (ha.tail hprecedes)
          exact ⟨_, Walk.step hwalk hedge, hstays.step hid⟩

/-- Code that cannot be reached is always explained: going back from a node to which no walk within the
arena leads comes to a node that a diagnostic cuts off. -/
theorem unreached_explained (c : Context) {id : ProcId} (hid : id ∈ c.graph.procIds)
    (hunreached : ∀ walk, Walk c.graph walk (.proc id) → ¬ c.StaysInArena walk) :
    ∃ a ∈ c.graph.procIds, ReflTransGen c.Precedes a id ∧ ∃ d ∈ c.diagnostics, c.CutsOff a d := by
  by_contra hnone
  have hback : ∀ a, ReflTransGen c.Precedes a id → ∀ d ∈ c.diagnostics, ¬ c.CutsOff a d := by
    intro a ha d hd hcut
    refine hnone ⟨a, ?_, ha, d, hd, hcut⟩
    rcases ReflTransGen.cases_head ha with rfl | ⟨_, hprecedes, _⟩
    · exact hid
    · exact c.graph.mem_procIds.mpr hprecedes.1
  obtain ⟨walk, hwalk, hstays⟩ := exists_walk_of_not_cutsOff hid hback
  exact hunreached walk hwalk hstays

/-- The entry leads out of the arena and from there back into it; on the way further on there is a node
that leads to itself. -/
def detour : Graph where
  procs := [⟨"toString", .empty⟩, ⟨"length", .empty⟩, ⟨"nothing", .empty⟩]
  edges :=
    [⟨.entry, .proc ⟨7⟩⟩, ⟨.proc ⟨7⟩ "result", .proc ⟨0⟩⟩, ⟨.proc ⟨0⟩ "result", .proc ⟨1⟩⟩,
      ⟨.proc ⟨1⟩ "result", .proc ⟨1⟩⟩, ⟨.proc ⟨1⟩ "result", .proc ⟨2⟩⟩,
      ⟨.proc ⟨0⟩ "result", .proc ⟨2⟩⟩]
  inputs := .empty
  outputFlows := .empty

theorem detour_explained :
    (⟨2⟩ : ProcId) ∈ detour.procIds ∧
      (∀ walk, Walk detour walk (.proc ⟨2⟩) →
        ¬ (Catalog.standard.context detour).StaysInArena walk) ∧
      ∃ a ∈ detour.procIds, ReflTransGen (Catalog.standard.context detour).Precedes a ⟨2⟩ ∧
        ∃ d ∈ (Catalog.standard.context detour).diagnostics,
          (Catalog.standard.context detour).CutsOff a d := by
  have hid : (⟨2⟩ : ProcId) ∈ detour.procIds := by decide
  have hunreached : ∀ walk, Walk detour walk (.proc ⟨2⟩) →
      ¬ (Catalog.standard.context detour).StaysInArena walk := by
    intro walk hwalk hstays
    obtain ⟨first, rest, rfl, hedge⟩ := hwalk.exists_cons
    obtain rfl : first = .proc ⟨7⟩ := by simpa [detour] using hedge
    have hmem := hstays _ List.mem_cons_self ⟨7⟩ rfl
    exact absurd hmem (by decide)
  exact ⟨hid, hunreached, unreached_explained (Catalog.standard.context detour) hid hunreached⟩

end ProcFlow.Context
