import Mathlib.Logic.Relation
import ProcFlow.Code.Route
import ProcFlow.Proofs.ControlTree
/-!
# Routes that trace the control tree

A route is built by stepping into nodes, each at most once, and to a bounded depth. In a control tree
neither limit is ever felt: what lies ahead of two labels of a node has no node in common and does not
contain the node itself, so no node is come to again, and a path has no more steps than there are nodes.
What is left is a route that traces the edges, and the nodes it steps into are all that lie ahead.

The labels that are followed at a node are a parameter. All that is asked of them is that they are
distinct and that each has an edge.
-/

namespace ProcFlow.Code

open Relation (ReflTransGen TransGen)

/-- An edge runs from a label that is followed at one node to another. -/
def Follows (c : Context) (labels : ProcId → List String) (u v : ProcId) : Prop :=
  ∃ label ∈ labels u, ⟨.proc u label, .proc v⟩ ∈ c.graph.edges

/-- A node lies ahead of a source. -/
def Ahead (c : Context) (labels : ProcId → List String) (source : Source) (id : ProcId) : Prop :=
  ∃ node, ⟨source, .proc node⟩ ∈ c.graph.edges ∧ ReflTransGen (Follows c labels) node id

/-- The labels of each node are distinct, and an edge leaves each of them. -/
structure Followable (c : Context) (labels : ProcId → List String) : Prop where
  nodup : ∀ id ∈ c.graph.procIds, (labels id).Nodup
  edge : ∀ id ∈ c.graph.procIds, ∀ label ∈ labels id,
    ∃ target, ⟨.proc id label, target⟩ ∈ c.graph.edges

/-- A route does what the edges from a source on say, and ends in output flows only. -/
inductive Traces (c : Context) (labels : ProcId → List String) : Source → Route → Prop where
  | leave {source : Source} {flow : String} (hedge : ⟨source, .output flow⟩ ∈ c.graph.edges) :
      Traces c labels source (.leave flow)
  | step {source : Source} {node : ProcId} {branches : List (String × Route)}
      (hedge : ⟨source, .proc node⟩ ∈ c.graph.edges) (hlabels : branches.map Prod.fst = labels node)
      (hbranches : ∀ b ∈ branches, Traces c labels (.proc node b.1) b.2) :
      Traces c labels source (.step node branches)


/-! ### The bound on the depth -/

/-- The nodes that have been seen are so many that a bound on the depth is not reached. -/
structure Room (c : Context) (depth : Nat) (seen : List ProcId) : Prop where
  nodup : seen.Nodup
  subset : seen ⊆ c.graph.procIds
  bound : c.graph.procs.length < depth + seen.length

namespace Room

variable {c : Context} {depth : Nat} {seen : List ProcId}

theorem start (c : Context) : Room c (c.graph.procs.length + 1) [] :=
  ⟨List.nodup_nil, List.nil_subset _, Nat.lt_succ_self _⟩

theorem depth_pos (h : Room c depth seen) : 0 < depth := by
  have hlength := c.graph.length_le_of_nodup h.nodup h.subset
  have hbound := h.bound
  omega

theorem cons (h : Room c (depth + 1) seen) {node : ProcId} (hnode : node ∈ c.graph.procIds)
    (hfresh : node ∉ seen) : Room c depth (node :: seen) := by
  refine ⟨List.nodup_cons.mpr ⟨hfresh, h.nodup⟩, List.cons_subset.mpr ⟨hnode, h.subset⟩, ?_⟩
  have hbound := h.bound
  rw [List.length_cons]
  omega

theorem deeper (h : Room c depth seen) : Room c (depth + 1) seen := by
  refine ⟨h.nodup, h.subset, ?_⟩
  have hbound := h.bound
  omega

end Room


/-! ### What lies ahead -/

variable {c : Context} {labels : ProcId → List String}

theorem ahead_iff (hcontrol : c.Controlled) {source : Source} {node id : ProcId}
    (hedge : ⟨source, .proc node⟩ ∈ c.graph.edges) :
    Ahead c labels source id ↔ ReflTransGen (Follows c labels) node id := by
  refine ⟨?_, ?_⟩
  · intro hleft
    obtain ⟨node', hedge', hpath⟩ := hleft
    obtain rfl := Target.proc.inj (hcontrol.target_unique hedge hedge')
    exact hpath
  · exact fun hpath => ⟨node, hedge, hpath⟩

theorem not_ahead_of_output (hcontrol : c.Controlled) {source : Source} {flow : String} {id : ProcId}
    (hedge : ⟨source, .output flow⟩ ∈ c.graph.edges) : ¬ Ahead c labels source id := by
  intro hmem
  obtain ⟨node, hedge', _⟩ := hmem
  cases hcontrol.target_unique hedge hedge'

/-- Ahead of an edge into a node lie the node and what lies ahead of its labels. -/
theorem ahead_step_iff (hcontrol : c.Controlled) {source : Source} {node id : ProcId}
    (hedge : ⟨source, .proc node⟩ ∈ c.graph.edges) :
    Ahead c labels source id
      ↔ id = node ∨ ∃ label ∈ labels node, Ahead c labels (.proc node label) id := by
  rw [ahead_iff hcontrol hedge]
  refine ⟨?_, ?_⟩
  · intro hpath
    rcases hpath.cases_head with rfl | ⟨next, ⟨label, hlabel, hnext⟩, hrest⟩
    · exact Or.inl rfl
    · exact Or.inr ⟨label, hlabel, next, hnext, hrest⟩
  · intro hright
    rcases hright with rfl | ⟨label, hlabel, next, hnext, hrest⟩
    · exact ReflTransGen.refl
    · exact ReflTransGen.head ⟨label, hlabel, hnext⟩ hrest

theorem leadsTo_of_follows (hcontrol : c.Controlled) {u v : ProcId} (h : Follows c labels u v) :
    c.LeadsTo u v := by
  obtain ⟨label, _, hedge⟩ := h
  exact hcontrol.leadsTo_of_edge hedge

/-- A node does not lie ahead of its own labels. -/
theorem not_ahead_self (hcontrol : c.Controlled) {node : ProcId} {label : String} :
    ¬ Ahead c labels (.proc node label) node := by
  intro hmem
  obtain ⟨next, hedge, hpath⟩ := hmem
  have hback : ReflTransGen c.LeadsTo next node :=
    ReflTransGen.mono (fun _ _ hfollows => leadsTo_of_follows hcontrol hfollows) _ _ hpath
  exact hcontrol.acyclic node (TransGen.head' (hcontrol.leadsTo_of_edge hedge) hback)

/-- A label of a node is found again by going back from any node that the label leads to, also if the
way there comes by the target of another label. -/
private theorem label_eq_of_path (hcontrol : c.Controlled) {node first second : ProcId}
    {label label' : String} (hedge : ⟨.proc node label, .proc first⟩ ∈ c.graph.edges)
    (hedge' : ⟨.proc node label', .proc second⟩ ∈ c.graph.edges)
    (hpath : ReflTransGen (Follows c labels) first second) : label = label' := by
  rcases hpath.cases_tail with rfl | ⟨last, hbefore, l, _, hlast⟩
  · exact (Source.proc.inj (hcontrol.source_unique hedge hedge')).2
  · -- The edge into the second node is the only one, so the way there comes by the node itself.
    obtain ⟨rfl, rfl⟩ := Source.proc.inj (hcontrol.source_unique hlast hedge')
    have hself : Ahead c labels (.proc last label) last := ⟨first, hedge, hbefore⟩
    exact absurd hself (not_ahead_self hcontrol)

theorem label_eq_of_ahead (hcontrol : c.Controlled) {node id : ProcId} {label label' : String}
    (h : Ahead c labels (.proc node label) id) (h' : Ahead c labels (.proc node label') id) :
    label = label' := by
  obtain ⟨first, hedge, hpath⟩ := h
  obtain ⟨second, hedge', hpath'⟩ := h'
  have hunique : Relator.RightUnique (Function.swap (Follows c labels)) := by
    rintro v u u' ⟨l, _, hu⟩ ⟨l', _, hu'⟩
    exact (Source.proc.inj (hcontrol.source_unique hu hu')).1
  rcases ReflTransGen.total_of_right_unique hunique hpath.swap hpath'.swap with hback | hback
  · exact (label_eq_of_path hcontrol hedge' hedge hback.swap).symm
  · exact label_eq_of_path hcontrol hedge hedge' hback.swap


/-! ### Building a route -/

/-- What going on from a source gives: a route that traces the edges, all that lies ahead among the
nodes that have been seen, and still enough room. -/
structure Covers (c : Context) (labels : ProcId → List String) (depth : Nat) (source : Source)
    (seen : List ProcId) (result : Route × List ProcId) : Prop where
  traces : Traces c labels source result.1
  seen : ∀ id, id ∈ result.2 ↔ id ∈ seen ∨ Ahead c labels source id
  room : Room c depth result.2

variable {depth : Nat} {seen : List ProcId}

theorem follow_covers (hcontrol : c.Controlled) {enter : ProcId → List ProcId → Route × List ProcId}
    {source : Source} {target : Target} (hedge : ⟨source, target⟩ ∈ c.graph.edges)
    (henter : ∀ node, target = .proc node → Covers c labels depth source seen (enter node seen))
    (hroom : Room c depth seen) :
    Covers c labels depth source seen (Route.follow c enter source seen) := by
  obtain ⟨id, hsuccessor⟩ := hcontrol.successor?_eq hedge
  rcases target with node | flow
  · simp only [Route.follow, hsuccessor]
    exact henter node rfl
  · simp only [Route.follow, hsuccessor]
    refine ⟨Traces.leave hedge, fun id => ?_, hroom⟩
    exact (or_iff_left (not_ahead_of_output hcontrol hedge)).symm

/-- What following some labels of a node one after the other gives. -/
structure BranchesCover (c : Context) (labels : ProcId → List String) (depth : Nat) (node : ProcId)
    (taken : List String) (seen : List ProcId) (result : List (String × Route) × List ProcId) :
    Prop where
  names : result.1.map Prod.fst = taken
  traces : ∀ b ∈ result.1, Traces c labels (.proc node b.1) b.2
  seen : ∀ id, id ∈ result.2 ↔ id ∈ seen ∨ ∃ label ∈ taken, Ahead c labels (.proc node label) id
  room : Room c depth result.2

theorem branches_cover (hcontrol : c.Controlled) {enter : ProcId → List ProcId → Route × List ProcId}
    {node : ProcId} {taken : List String} (hnodup : taken.Nodup)
    (hedge : ∀ label ∈ taken, ∃ target, ⟨.proc node label, target⟩ ∈ c.graph.edges)
    (henter : ∀ source next seen, ⟨source, .proc next⟩ ∈ c.graph.edges → Room c depth seen →
      (∀ id, Ahead c labels source id → id ∉ seen) →
        Covers c labels depth source seen (enter next seen))
    (hroom : Room c depth seen)
    (hfresh : ∀ label ∈ taken, ∀ id, Ahead c labels (.proc node label) id → id ∉ seen) :
    BranchesCover c labels depth node taken seen (Route.branches c enter node taken seen) := by
  induction taken generalizing seen with
  | nil =>
      refine ⟨rfl, fun b hb => absurd hb List.not_mem_nil, fun id => ?_, hroom⟩
      simp [Route.branches]
  | cons label rest ih =>
      rw [List.nodup_cons] at hnodup
      obtain ⟨target, hlabel⟩ := hedge label List.mem_cons_self
      have hfirst : Covers c labels depth (.proc node label) seen
          (Route.follow c enter (.proc node label) seen) := by
        refine follow_covers hcontrol hlabel (fun next hnext => ?_) hroom
        subst hnext
        exact henter _ next seen hlabel hroom (hfresh label List.mem_cons_self)
      -- The rest starts out with more nodes seen, but with none that lies ahead of its labels.
      have hrest := ih hnodup.2 (fun l hl => hedge l (List.mem_cons_of_mem label hl)) hfirst.room
        (by
          intro l hl id hahead hseen
          rcases (hfirst.seen id).mp hseen with hseen | hother
          · exact hfresh l (List.mem_cons_of_mem label hl) id hahead hseen
          · obtain rfl := label_eq_of_ahead hcontrol hahead hother
            exact hnodup.1 hl)
      refine ⟨?_, ?_, fun id => ?_, hrest.room⟩
      · exact congrArg (label :: ·) hrest.names
      · intro b hb
        rcases List.mem_cons.mp hb with rfl | hb
        · exact hfirst.traces
        · exact hrest.traces b hb
      · rw [Route.branches, hrest.seen, hfirst.seen, or_assoc]
        simp

/-- Stepping into a node of a control tree is never stopped. -/
theorem enter_covers (hcontrol : c.Controlled) (hlabels : Followable c labels) {source : Source}
    {node : ProcId} (hedge : ⟨source, .proc node⟩ ∈ c.graph.edges) (hroom : Room c depth seen)
    (hfresh : ∀ id, Ahead c labels source id → id ∉ seen) :
    Covers c labels depth source seen (Route.enter c labels depth node seen) := by
  induction depth generalizing source node seen with
  | zero => exact absurd hroom.depth_pos (Nat.lt_irrefl 0)
  | succ depth ih =>
      have hsome : (c.graph.proc? node).isSome := hcontrol.edges.node source node hedge
      have hnode : node ∈ c.graph.procIds := c.graph.mem_procIds.mpr hsome
      have hnot : node ∉ seen := hfresh node ⟨node, hedge, ReflTransGen.refl⟩
      have hbranches : BranchesCover c labels depth node (labels node) (node :: seen)
          (Route.branches c (Route.enter c labels depth) node (labels node) (node :: seen)) := by
        refine branches_cover hcontrol (hlabels.nodup node hnode) (hlabels.edge node hnode)
          (fun source next seen hedge hroom hfresh => ih hedge hroom hfresh)
          (hroom.cons hnode hnot) ?_
        intro label hlabel id hahead hseen
        rcases List.mem_cons.mp hseen with rfl | hseen
        · exact not_ahead_self hcontrol hahead
        · exact hfresh id ((ahead_step_iff hcontrol hedge).mpr (Or.inr ⟨label, hlabel, hahead⟩)) hseen
      have hinside : ¬ (c.graph.proc? node).isNone := by
        rw [Option.isNone_iff_eq_none]
        exact Option.isSome_iff_ne_none.mp hsome
      have henter : Route.enter c labels (depth + 1) node seen
          = (.step node
              (Route.branches c (Route.enter c labels depth) node (labels node) (node :: seen)).1,
            (Route.branches c (Route.enter c labels depth) node (labels node) (node :: seen)).2) := by
        rw [Route.enter, if_neg hinside, if_neg hnot]
      rw [henter]
      refine ⟨Traces.step hedge hbranches.names hbranches.traces, fun id => ?_,
        hbranches.room.deeper⟩
      rw [hbranches.seen, ahead_step_iff hcontrol hedge, List.mem_cons, or_assoc, or_left_comm]


/-! ### The nodes of a route -/

theorem mem_branchNodes {branches : List (String × Route)} {id : ProcId} :
    id ∈ Route.branchNodes branches ↔ ∃ b ∈ branches, id ∈ b.2.nodes := by
  induction branches with
  | nil => simp [Route.branchNodes]
  | cons b rest ih => simp [Route.branchNodes, ih]

/-- A route that traces the edges steps into exactly the nodes that lie ahead. -/
theorem Traces.mem_nodes_iff (hcontrol : c.Controlled) {source : Source} {route : Route}
    (h : Traces c labels source route) {id : ProcId} :
    id ∈ route.nodes ↔ Ahead c labels source id := by
  induction h with
  | leave hedge => exact iff_of_false List.not_mem_nil (not_ahead_of_output hcontrol hedge)
  | @step source node branches hedge hlabels _ ih =>
      rw [Route.nodes, List.mem_cons, mem_branchNodes, ahead_step_iff hcontrol hedge, ← hlabels]
      apply or_congr Iff.rfl
      refine ⟨?_, ?_⟩
      · intro hleft
        obtain ⟨b, hb, hid⟩ := hleft
        exact ⟨b.1, List.mem_map_of_mem hb, (ih b hb).mp hid⟩
      · intro hright
        obtain ⟨label, hlabel, hahead⟩ := hright
        obtain ⟨b, hb, rfl⟩ := List.mem_map.mp hlabel
        exact ⟨b, hb, (ih b hb).mpr hahead⟩


/-! ### The plan -/

theorem leftOver_eq_nil_iff (enter : ProcId → List ProcId → Route × List ProcId)
    (ids seen : List ProcId) : Plan.leftOver enter ids seen = [] ↔ ∀ id ∈ ids, id ∈ seen := by
  induction ids with
  | nil => simp [Plan.leftOver]
  | cons id rest ih =>
      rw [Plan.leftOver, List.forall_mem_cons]
      by_cases hid : id ∈ seen
      · rw [if_pos hid, ih]
        simp [hid]
      · simp [hid]

/-- Nodes are ahead of the entry all together exactly if every edge between nodes is followed. -/
theorem forall_ahead_entry_iff (hcontrol : c.Controlled) :
    (∀ id ∈ c.graph.procIds, Ahead c labels .entry id)
      ↔ ∀ u label v, ⟨.proc u label, .proc v⟩ ∈ c.graph.edges → label ∈ labels u := by
  refine ⟨?_, ?_⟩
  · intro hahead u label v hedge
    obtain ⟨first, hfirst, hpath⟩ := hahead v (hcontrol.leadsTo_of_edge hedge).target_mem
    -- The edge is the only one into its node, so the way from the entry comes by it.
    rcases hpath.cases_tail with rfl | ⟨last, _, l, hl, hlast⟩
    · cases hcontrol.source_unique hfirst hedge
    · obtain ⟨rfl, rfl⟩ := Source.proc.inj (hcontrol.source_unique hlast hedge)
      exact hl
  · intro hfollowed id hid
    obtain ⟨walk, hwalk⟩ := hcontrol.exists_walk hid
    generalize htarget : Target.proc id = target at hwalk
    induction hwalk generalizing id with
    | start hedge =>
        subst htarget
        exact ⟨id, hedge, ReflTransGen.refl⟩
    | @step walk node label target _ hedge ih =>
        subst htarget
        obtain ⟨first, hfirst, hpath⟩ := ih node (hcontrol.leadsTo_of_edge hedge).source_mem rfl
        exact ⟨first, hfirst, hpath.tail ⟨label, hfollowed node label id hedge, hedge⟩⟩

theorem plan_covers (hcontrol : c.Controlled) (hlabels : Followable c labels) :
    Covers c labels (c.graph.procs.length + 1) .entry []
      (Route.follow c (Route.enter c labels (c.graph.procs.length + 1)) .entry []) := by
  obtain ⟨target, hentry⟩ := hcontrol.exists_entry_edge
  refine follow_covers hcontrol hentry (fun node hnode => ?_) (Room.start c)
  subst hnode
  exact enter_covers hcontrol hlabels hentry (Room.start c) fun _ _ => List.not_mem_nil

theorem traces_main (hcontrol : c.Controlled) (hlabels : Followable c labels) :
    Traces c labels .entry (Plan.ofContext c labels).main :=
  (plan_covers hcontrol hlabels).traces

/-- No node is left over exactly if every edge between nodes is followed. -/
theorem detached_eq_nil_iff (hcontrol : c.Controlled) (hlabels : Followable c labels) :
    (Plan.ofContext c labels).detached = []
      ↔ ∀ u label v, ⟨.proc u label, .proc v⟩ ∈ c.graph.edges → label ∈ labels u := by
  rw [← forall_ahead_entry_iff hcontrol, Plan.ofContext, leftOver_eq_nil_iff]
  simp only [(plan_covers hcontrol hlabels).seen, List.not_mem_nil, false_or]

end ProcFlow.Code
