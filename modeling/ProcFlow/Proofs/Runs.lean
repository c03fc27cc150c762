import Mathlib.Data.List.Infix
import ProcFlow.Proofs.Unfolding
/-!
# Runs of a valid graph

A run starts at the entry, takes one of the flows at each node that it comes to, and ends in an output
flow. In a valid graph control is a tree, so a run never comes to a node twice and is no longer than
there are nodes; it cannot get stuck, because every flow of a node goes on; and once it is settled which
flow each node takes, there is only one run.

That there is a way from the entry to every node is checked nowhere. It follows from the edges into the
nodes: there is one into each, and going back along them comes to an end.
-/

namespace ProcFlow

namespace Context

/-- A walk takes the chosen flow at each node that it passes. -/
def Heeds (choice : ProcId → String) (walk : List Edge) : Prop :=
  ∀ node flow, (node, flow) ∈ passedFlows walk → flow = choice node

/-- At each node, one of its flows is chosen. -/
def Chooses (c : Context) (choice : ProcId → String) : Prop :=
  ∀ id ∈ c.graph.procIds, ∃ d, c.definition? id = some d ∧ choice id ∈ d.flowNames

/-- Control as a finite tree that grows from the entry, and the runs through it. -/
structure ControlTree (c : Context) : Prop where
  /-- No edge stands twice among the edges, so a walk is told by its edges. -/
  nodup : c.graph.edges.Nodup
  node : ∀ id ∈ c.graph.procIds, ∃! walk, Walk c.graph walk (.proc id)
  edge : ∀ e ∈ c.graph.edges, ∃ walk target, Walk c.graph walk target ∧ e ∈ walk
  length : ∀ walk target, Walk c.graph walk target → walk.length ≤ c.graph.procs.length + 1
  /-- Standing at the entry, one can go on. -/
  start : ∃ target, ⟨.entry, target⟩ ∈ c.graph.edges
  /-- Where one cannot go on, a declared output flow has been reached. -/
  stop : ∀ walk target, Walk c.graph walk target →
    (∀ e next, ¬ Walk c.graph (walk ++ [e]) next) →
      ∃ out ∈ c.graph.outputFlows.keys, target = .output out
  labels : ∀ id ∈ c.graph.procIds, ∃ d, c.definition? id = some d ∧
    ((c.outgoing id).map fun o => o.2.1).Nodup ∧
      ∀ flow, flow ∈ (c.outgoing id).map (fun o => o.2.1) ↔ flow ∈ d.flowNames
  /-- With a flow chosen at each node there is one run, and nowhere else to go. -/
  run : ∀ choice, c.Chooses choice → ∃! out, out ∈ c.graph.outputFlows.keys ∧
    ∃ run, Walk c.graph run (.output out) ∧ Heeds choice run ∧
      ∀ walk target, Walk c.graph walk target → Heeds choice walk → walk <+: run

namespace Controlled

variable {c : Context} (h : c.Controlled)

include h

/-! ### Walks -/

theorem walk_unique {walk walk' : List Edge} {id : ProcId} (hwalk : Walk c.graph walk (.proc id))
    (hwalk' : Walk c.graph walk' (.proc id)) : walk = walk' := by
  generalize htarget : Target.proc id = target at hwalk
  induction hwalk generalizing id walk' with
  | start hedge =>
      subst htarget
      cases hwalk' with
      | start _ => rfl
      | step _ hedge' => cases h.source_unique hedge hedge'
  | step _ hedge ih =>
      subst htarget
      cases hwalk' with
      | start hedge' => cases h.source_unique hedge hedge'
      | step hbefore' hedge' =>
          cases h.source_unique hedge hedge'
          rw [ih hbefore' rfl]

theorem length_walk_le {walk : List Edge} {target : Target} (hwalk : Walk c.graph walk target) :
    walk.length ≤ c.graph.procs.length + 1 := by
  rw [hwalk.length_eq]
  exact Nat.succ_le_succ (h.length_passedFlows_le hwalk)

theorem source_mem {node : ProcId} {flow : String} {target : Target}
    (hedge : ⟨.proc node flow, target⟩ ∈ c.graph.edges) : node ∈ c.graph.procIds := by
  obtain ⟨d, hd, _⟩ := h.edges.source node flow target hedge
  obtain ⟨procNode, hproc, _⟩ := proc?_of_definition? hd
  exact c.graph.mem_procIds.mpr (Option.isSome_iff_exists.mpr ⟨procNode, hproc⟩)

theorem exists_walk_of_edge {e : Edge} (he : e ∈ c.graph.edges) :
    ∃ walk target, Walk c.graph walk target ∧ e ∈ walk := by
  obtain ⟨source, target⟩ := e
  rcases source with _ | ⟨node, flow⟩
  · exact ⟨_, target, Walk.start he, List.mem_singleton_self _⟩
  · obtain ⟨walk, hwalk⟩ := h.exists_walk (h.source_mem he)
    exact ⟨_, target, Walk.step hwalk he, List.mem_append_right _ (List.mem_singleton_self _)⟩

theorem target_mem {walk : List Edge} {node : ProcId} (hwalk : Walk c.graph walk (.proc node)) :
    node ∈ c.graph.procIds := by
  obtain ⟨_, ⟨source, target⟩, _, hedge, htarget⟩ := hwalk.eq_append
  subst htarget
  exact c.graph.mem_procIds.mpr (h.edges.node source node hedge)

theorem output_mem {walk : List Edge} {out : String} (hwalk : Walk c.graph walk (.output out)) :
    out ∈ c.graph.outputFlows.keys := by
  obtain ⟨_, ⟨source, target⟩, _, hedge, htarget⟩ := hwalk.eq_append
  subst htarget
  exact h.edges.output source out hedge

theorem exists_output_of_stop {walk : List Edge} {target : Target}
    (hwalk : Walk c.graph walk target) (hstop : ∀ e next, ¬ Walk c.graph (walk ++ [e]) next) :
    ∃ out ∈ c.graph.outputFlows.keys, target = .output out := by
  rcases target with node | out
  · obtain ⟨flow, next, hedge⟩ := h.control.outgoing node (h.target_mem hwalk)
    exact absurd (Walk.step hwalk hedge) (hstop _ next)
  · exact ⟨out, h.output_mem hwalk, rfl⟩


/-! ### Labels -/

theorem nodup_labels (id : ProcId) : ((c.outgoing id).map fun o => o.2.1).Nodup := by
  have hapart : c.graph.edgesWithIds.Pairwise fun a b => Apart a.2 b.2 := by
    rw [← List.pairwise_map, c.graph.map_snd_edgesWithIds]
    exact h.control.apart
  rw [outgoing, List.Nodup, List.pairwise_map, List.pairwise_filterMap]
  refine hapart.imp ?_
  rintro ⟨i, source, target⟩ ⟨j, source', target'⟩ happart o ho o' ho'
  rcases source with _ | ⟨node, flow⟩
  · cases ho
  rcases source' with _ | ⟨node', flow'⟩
  · cases ho'
  simp only [Option.ite_none_right_eq_some, Option.some.injEq] at ho ho'
  obtain ⟨rfl, rfl⟩ := ho
  obtain ⟨rfl, rfl⟩ := ho'
  rintro rfl
  exact happart.1 rfl

theorem mem_labels_iff {id : ProcId} {d : Definition} (hd : c.definition? id = some d)
    (flow : String) :
    flow ∈ (c.outgoing id).map (fun o => o.2.1) ↔ flow ∈ d.flowNames := by
  rw [mem_outgoing_labels]
  refine ⟨?_, h.control.flow id d hd flow⟩
  intro hleft
  obtain ⟨target, hedge⟩ := hleft
  obtain ⟨d', hd', hflow⟩ := h.edges.source id flow target hedge
  obtain rfl := Option.some.inj (hd.symm.trans hd')
  exact hflow


/-! ### Runs -/

variable {choice : ProcId → String}

/-- At a node, the walk goes on by the flow that is chosen there. -/
theorem exists_step (hchoice : c.Chooses choice) {walk : List Edge} {node : ProcId}
    (hwalk : Walk c.graph walk (.proc node)) (hheeds : Heeds choice walk) :
    ∃ e next, Walk c.graph (walk ++ [e]) next ∧ Heeds choice (walk ++ [e]) := by
  obtain ⟨d, hd, hflow⟩ := hchoice node (h.target_mem hwalk)
  obtain ⟨next, hedge⟩ := h.control.flow node d hd _ hflow
  refine ⟨_, next, Walk.step hwalk hedge, ?_⟩
  intro id flow hmem
  rw [passedFlows_step, List.mem_append, List.mem_singleton] at hmem
  rcases hmem with hmem | heq
  · exact hheeds id flow hmem
  · obtain ⟨rfl, rfl⟩ := Prod.mk.inj heq
    rfl

theorem exists_run_of_walk (hchoice : c.Chooses choice) {walk : List Edge} {target : Target}
    (hwalk : Walk c.graph walk target) (hheeds : Heeds choice walk) :
    ∃ run out, Walk c.graph run (.output out) ∧ Heeds choice run := by
  -- A walk gets no longer than there are nodes, so only so many edges are left to take.
  generalize hleft : c.graph.procs.length + 1 - walk.length = left
  induction left generalizing walk target with
  | zero =>
      rcases target with node | out
      · obtain ⟨e, next, hlonger, _⟩ := h.exists_step hchoice hwalk hheeds
        have hlength := h.length_walk_le hlonger
        rw [List.length_append, List.length_singleton] at hlength
        omega
      · exact ⟨walk, out, hwalk, hheeds⟩
  | succ left ih =>
      rcases target with node | out
      · obtain ⟨e, next, hlonger, hheeds'⟩ := h.exists_step hchoice hwalk hheeds
        apply ih hlonger hheeds'
        rw [List.length_append, List.length_singleton]
        omega
      · exact ⟨walk, out, hwalk, hheeds⟩

theorem prefix_or_prefix {walk walk' : List Edge} {target target' : Target}
    (hwalk : Walk c.graph walk target) (hheeds : Heeds choice walk)
    (hwalk' : Walk c.graph walk' target') (hheeds' : Heeds choice walk') :
    walk <+: walk' ∨ walk' <+: walk := by
  induction hwalk with
  | start hedge =>
      obtain ⟨first, rest, rfl, hedge'⟩ := hwalk'.exists_cons
      rw [h.target_unique hedge hedge']
      exact Or.inl ⟨rest, rfl⟩
  | @step walk node flow target hbefore hedge ih =>
      have hheedsBefore : Heeds choice walk := by
        intro id flow' hmem
        refine hheeds id flow' ?_
        rw [passedFlows_step]
        exact List.mem_append_left _ hmem
      rcases ih hheedsBefore with ⟨rest, rfl⟩ | hback
      · rcases rest with _ | ⟨e, rest⟩
        · rw [List.append_nil]
          exact Or.inr (List.prefix_append _ _)
        · -- Both go on from the same node, by the flow that is chosen there.
          obtain ⟨node', flow', hsource, hbefore'⟩ := hwalk'.exists_before hbefore.ne_nil
          obtain rfl := Target.proc.inj (hbefore.target_eq hbefore')
          have hmem : e ∈ walk ++ e :: rest := List.mem_append_right _ List.mem_cons_self
          have hflow' := hheeds' node flow' (Walk.mem_passedFlows_of_mem hmem hsource)
          have hflow : flow = choice node := by
            refine hheeds node flow ?_
            rw [passedFlows_step]
            exact List.mem_append_right _ (List.mem_singleton_self _)
          have he : e = ⟨.proc node flow, target⟩ := by
            apply h.eq_of_source (hwalk'.mem_edges e hmem) hedge
            rw [hsource, hflow', hflow]
          subst he
          exact Or.inl ⟨rest, by rw [List.append_assoc]; rfl⟩
      · exact Or.inr (hback.trans (List.prefix_append _ _))

theorem prefix_run {run walk : List Edge} {out : String} {target : Target}
    (hrun : Walk c.graph run (.output out)) (hheeds : Heeds choice run)
    (hwalk : Walk c.graph walk target) (hheeds' : Heeds choice walk) : walk <+: run := by
  rcases h.prefix_or_prefix hwalk hheeds' hrun hheeds with hprefix | ⟨rest, rfl⟩
  · exact hprefix
  · rcases rest with _ | ⟨e, rest⟩
    · rw [List.append_nil]
    · obtain ⟨node, _, _, hbefore⟩ := hwalk.exists_before hrun.ne_nil
      cases hrun.target_eq hbefore

theorem run_unique {run run' : List Edge} {out out' : String}
    (hrun : Walk c.graph run (.output out)) (hheeds : Heeds choice run)
    (hrun' : Walk c.graph run' (.output out')) (hheeds' : Heeds choice run') : out = out' := by
  have hle := h.prefix_run hrun' hheeds' hrun hheeds
  have hge := h.prefix_run hrun hheeds hrun' hheeds'
  obtain rfl := hle.eq_of_length (Nat.le_antisymm hle.length_le hge.length_le)
  exact Target.output.inj (hrun.target_eq hrun')

theorem exists_unique_output (hchoice : c.Chooses choice) :
    ∃! out, out ∈ c.graph.outputFlows.keys ∧
      ∃ run, Walk c.graph run (.output out) ∧ Heeds choice run ∧
        ∀ walk target, Walk c.graph walk target → Heeds choice walk → walk <+: run := by
  obtain ⟨target, hentry⟩ := h.exists_entry_edge
  have hstart : Heeds choice [⟨.entry, target⟩] := fun _ _ hmem => absurd hmem List.not_mem_nil
  obtain ⟨run, out, hrun, hheeds⟩ := h.exists_run_of_walk hchoice (Walk.start hentry) hstart
  refine ⟨out, ⟨h.output_mem hrun, run, hrun, hheeds, ?_⟩, ?_⟩
  · exact fun walk _ hwalk hheeds' => h.prefix_run hrun hheeds hwalk hheeds'
  · intro out' hout'
    obtain ⟨_, run', hrun', hheeds', _⟩ := hout'
    exact h.run_unique hrun' hheeds' hrun hheeds

end Controlled

/-- Control of a valid graph is a finite tree, and every choice of flows makes one run through it. -/
theorem controlTree_of_valid {c : Context} (hvalid : c.diagnostics = []) : c.ControlTree := by
  have hwellFormed := wellFormed_of_diagnostics_eq_nil hvalid
  have hcontrolled := hwellFormed.controlled
  constructor
  · exact hcontrolled.control.apart.imp fun hapart heq => hapart.1 (congrArg Edge.source heq)
  · intro id hid
    obtain ⟨walk, hwalk⟩ := hcontrolled.exists_walk hid
    exact ⟨walk, hwalk, fun walk' hwalk' => hcontrolled.walk_unique hwalk' hwalk⟩
  · exact fun e he => hcontrolled.exists_walk_of_edge he
  · exact fun walk target hwalk => hcontrolled.length_walk_le hwalk
  · exact hcontrolled.exists_entry_edge
  · exact fun walk target hwalk hstop => hcontrolled.exists_output_of_stop hwalk hstop
  · intro id hid
    obtain ⟨node, hnode⟩ := Option.isSome_iff_exists.mp (c.graph.mem_procIds.mp hid)
    obtain ⟨d, hd⟩ := hwellFormed.types.defined id node hnode
    exact ⟨d, hd, hcontrolled.nodup_labels id, hcontrolled.mem_labels_iff hd⟩
  · exact fun choice hchoice => hcontrolled.exists_unique_output hchoice

theorem controlTree_division :
    (Catalog.standard.context Code.division).diagnostics = [] ∧
      (Catalog.standard.context Code.division).ControlTree :=
  ⟨Code.diagnostics_division, controlTree_of_valid Code.diagnostics_division⟩

end Context

end ProcFlow
