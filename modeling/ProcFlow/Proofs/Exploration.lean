import Mathlib.Logic.Relation
import ProcFlow.Proofs.Tracing
/-!
# What a guarded walk comes to

A plan is made by walking along first edges and stepping into a node only if no step has been made into
it before. The walk is the same on any graph, however malformed, and whatever definitions and templates
it is given. What it leaves behind is described by three facts about the nodes it has stepped into: they
are new and distinct, they were led to from where the walk started, and all that they lead to has been
stepped into by the time the walk is over. `Explores` holds these facts, and walks that follow one
another add up, so each of the three functions that build a plan needs no more than a few lines.

A walk that starts with nothing stepped into has then come to exactly what its start leads to, and a walk
over the whole arena has come to every node.
-/

namespace ProcFlow

open Relation (ReflTransGen)

/-- The first edge out of a source goes into a node of the arena. -/
def Context.ContinuesTo (c : Context) (source : Source) (id : ProcId) : Prop :=
  c.graph.edges.find? (fun e => e.source = source) = some ⟨source, .proc id⟩ ∧ id ∈ c.graph.procIds

namespace Code

variable {c : Context} {labels : ProcId → List String} {depth : Nat}

/-- A label that is followed at one node continues to another. -/
def Continues (c : Context) (labels : ProcId → List String) (u v : ProcId) : Prop :=
  ∃ label ∈ labels u, c.ContinuesTo (.proc u label) v


/-! ### What a walk leaves behind -/

/-- What a walk over `nodes` leaves behind, if `starts` are the nodes of the arena at which it had to
arrive, and `seen` and `after` the nodes that had been stepped into before and after it. -/
structure Explores (c : Context) (labels : ProcId → List String) (depth : Nat)
    (starts : ProcId → Prop) (seen nodes after : List ProcId) : Prop where
  after_eq : after = nodes.reverse ++ seen
  room : Room c depth after
  arrives : ∀ v, starts v → v ∈ after
  closed : ∀ u ∈ nodes, ∀ v, Continues c labels u v → v ∈ after
  reached : ∀ id ∈ nodes, ∃ v, starts v ∧ ReflTransGen (Continues c labels) v id

namespace Explores

variable {starts starts' : ProcId → Prop} {seen nodes nodes' between after : List ProcId}

theorem mem_after_iff (h : Explores c labels depth starts seen nodes after) {id : ProcId} :
    id ∈ after ↔ id ∈ nodes ∨ id ∈ seen := by
  rw [h.after_eq, List.mem_append, List.mem_reverse]

theorem start_congr (h : Explores c labels depth starts seen nodes after)
    (hstarts : ∀ v, starts' v ↔ starts v) : Explores c labels depth starts' seen nodes after := by
  have heq : starts' = starts := funext fun v => propext (hstarts v)
  rw [heq]
  exact h

theorem stay (hroom : Room c depth seen) (hstarts : ∀ v, starts v → v ∈ seen) :
    Explores c labels depth starts seen [] seen :=
  ⟨rfl, hroom, hstarts, fun _ hu => absurd hu List.not_mem_nil,
    fun _ hid => absurd hid List.not_mem_nil⟩

theorem append (h : Explores c labels depth starts seen nodes between)
    (h' : Explores c labels depth starts' between nodes' after) :
    Explores c labels depth (fun v => starts v ∨ starts' v) seen (nodes ++ nodes') after := by
  have hkeep : ∀ id ∈ between, id ∈ after := fun id hid => h'.mem_after_iff.mpr (Or.inr hid)
  refine ⟨?_, h'.room, ?_, ?_, ?_⟩
  · rw [h'.after_eq, h.after_eq, List.reverse_append, List.append_assoc]
  · intro v hv
    rcases hv with hv | hv
    · exact hkeep v (h.arrives v hv)
    · exact h'.arrives v hv
  · intro u hu v huv
    rcases List.mem_append.mp hu with hu | hu
    · exact hkeep v (h.closed u hu v huv)
    · exact h'.closed u hu v huv
  · intro id hid
    rcases List.mem_append.mp hid with hid | hid
    · obtain ⟨v, hv, hpath⟩ := h.reached id hid
      exact ⟨v, Or.inl hv, hpath⟩
    · obtain ⟨v, hv, hpath⟩ := h'.reached id hid
      exact ⟨v, Or.inr hv, hpath⟩

theorem step {node : ProcId}
    (h : Explores c labels depth (Continues c labels node) (node :: seen) nodes after) :
    Explores c labels (depth + 1) (· = node) seen (node :: nodes) after := by
  have hnode : node ∈ after := h.mem_after_iff.mpr (Or.inr List.mem_cons_self)
  refine ⟨?_, h.room.deeper, ?_, ?_, ?_⟩
  · rw [h.after_eq, List.reverse_cons, List.append_assoc, List.singleton_append]
  · intro v hv
    rw [hv]
    exact hnode
  · intro u hu v huv
    rcases List.mem_cons.mp hu with rfl | hu
    · exact h.arrives v huv
    · exact h.closed u hu v huv
  · intro id hid
    refine ⟨node, rfl, ?_⟩
    rcases List.mem_cons.mp hid with rfl | hid
    · exact ReflTransGen.refl
    · obtain ⟨v, hv, hpath⟩ := h.reached id hid
      exact ReflTransGen.head hv hpath

theorem nodup (h : Explores c labels depth starts seen nodes after) : (nodes.reverse ++ seen).Nodup :=
  h.after_eq ▸ h.room.nodup

/-- A walk that starts with nothing seen comes to exactly what its start leads to. -/
theorem mem_nodes_iff (h : Explores c labels depth starts [] nodes after) {id : ProcId} :
    id ∈ nodes ↔ ∃ v, starts v ∧ ReflTransGen (Continues c labels) v id := by
  refine ⟨h.reached id, ?_⟩
  intro hright
  obtain ⟨v, hv, hpath⟩ := hright
  have hafter : ∀ u, u ∈ after ↔ u ∈ nodes := fun u => by
    rw [h.mem_after_iff, or_iff_left List.not_mem_nil]
  induction hpath with
  | refl => exact (hafter v).mp (h.arrives v hv)
  | tail _ hnext ih => exact (hafter _).mp (h.closed _ ih _ hnext)

end Explores


/-! ### The functions that build a plan -/

theorem successor?_map_snd (source : Source) :
    (c.successor? source).map Prod.snd = c.graph.edges.find? fun e => e.source = source := by
  rw [Context.successor?, ← c.graph.map_snd_edgesWithIds, List.find?_map]
  rfl

theorem source_of_successor? {source : Source} {found : EdgeId × Edge}
    (h : c.successor? source = some found) : found.2.source = source := by
  simpa using List.find?_some h

/-- Where the first edge out of a source goes, as the walk finds it. -/
theorem continuesTo_iff {source : Source} {id : ProcId} :
    c.ContinuesTo source id
      ↔ ∃ found, c.successor? source = some found ∧ found.2.target = .proc id ∧
        id ∈ c.graph.procIds := by
  rw [Context.ContinuesTo, ← successor?_map_snd, Option.map_eq_some_iff]
  refine ⟨?_, ?_⟩
  · intro hleft
    obtain ⟨⟨found, hfound, hedge⟩, hid⟩ := hleft
    exact ⟨found, hfound, by rw [hedge], hid⟩
  · intro hright
    obtain ⟨found, hfound, htarget, hid⟩ := hright
    refine ⟨⟨found, hfound, ?_⟩, hid⟩
    rw [← source_of_successor? hfound, ← htarget]

variable {enter : ProcId → List ProcId → Route × List ProcId} {seen : List ProcId}

/-- What stepping into a node is asked to do, with room for a number of steps. -/
def EnterExplores (c : Context) (labels : ProcId → List String) (depth : Nat)
    (enter : ProcId → List ProcId → Route × List ProcId) : Prop :=
  ∀ node seen, Room c depth seen →
    Explores c labels depth (fun v => v = node ∧ v ∈ c.graph.procIds) seen (enter node seen).1.nodes
      (enter node seen).2

theorem follow_explores (henter : EnterExplores c labels depth enter) (hroom : Room c depth seen)
    (source : Source) :
    Explores c labels depth (c.ContinuesTo source) seen (Route.follow c enter source seen).1.nodes
      (Route.follow c enter source seen).2 := by
  rcases hsuccessor : c.successor? source with _ | ⟨id, ⟨_, target⟩⟩
  · simp only [Route.follow, hsuccessor, Route.nodes]
    refine Explores.stay hroom fun v hv => ?_
    obtain ⟨found, hfound, _⟩ := continuesTo_iff.mp hv
    rw [hsuccessor] at hfound
    cases hfound
  · rcases target with node | flow
    · simp only [Route.follow, hsuccessor]
      refine (henter node seen hroom).start_congr fun v => ?_
      rw [continuesTo_iff]
      simp [hsuccessor, eq_comm]
    · simp only [Route.follow, hsuccessor, Route.nodes]
      refine Explores.stay hroom fun v hv => ?_
      obtain ⟨found, hfound, htarget, _⟩ := continuesTo_iff.mp hv
      rw [hsuccessor] at hfound
      cases hfound
      cases htarget

theorem branches_explores (henter : EnterExplores c labels depth enter) (hroom : Room c depth seen)
    (node : ProcId) (taken : List String) :
    Explores c labels depth (fun v => ∃ label ∈ taken, c.ContinuesTo (.proc node label) v) seen
      (Route.branchNodes (Route.branches c enter node taken seen).1)
      (Route.branches c enter node taken seen).2 := by
  induction taken generalizing seen with
  | nil =>
      refine Explores.stay hroom fun v hv => ?_
      obtain ⟨label, hlabel, _⟩ := hv
      exact absurd hlabel List.not_mem_nil
  | cons label rest ih =>
      have hfirst := follow_explores henter hroom (.proc node label)
      refine (hfirst.append (ih hfirst.room)).start_congr fun v => ?_
      simp

theorem enter_explores (c : Context) (labels : ProcId → List String) (depth : Nat) :
    EnterExplores c labels depth (Route.enter c labels depth) := by
  -- The walk is never stopped by the depth: the nodes that have been seen leave no room for that.
  induction depth with
  | zero => exact fun node seen hroom => absurd hroom.depth_pos (Nat.lt_irrefl 0)
  | succ depth ih =>
      intro node seen hroom
      by_cases hnone : (c.graph.proc? node).isNone
      · rw [Route.enter, if_pos hnone]
        refine Explores.stay hroom fun v hv => ?_
        obtain ⟨rfl, hv⟩ := hv
        rw [Graph.mem_procIds] at hv
        simp [Option.isNone_iff_eq_none.mp hnone] at hv
      · have hnode : node ∈ c.graph.procIds := by
          rw [Graph.mem_procIds]
          simpa [Option.isSome_iff_ne_none] using hnone
        by_cases hseen : node ∈ seen
        · rw [Route.enter, if_neg hnone, if_pos hseen]
          refine Explores.stay hroom fun v hv => ?_
          rw [hv.1]
          exact hseen
        · rw [Route.enter, if_neg hnone, if_neg hseen]
          refine Explores.start_congr ?_ fun v => and_iff_left_of_imp fun hv => hv ▸ hnode
          exact (branches_explores ih (hroom.cons hnode hseen) node (labels node)).step

theorem leftOver_explores (henter : EnterExplores c labels depth enter) (ids : List ProcId)
    (hids : ids ⊆ c.graph.procIds) (hroom : Room c depth seen) :
    ∃ after, Explores c labels depth (· ∈ ids) seen
      ((Plan.leftOver enter ids seen).flatMap fun d => d.2.nodes) after := by
  induction ids generalizing seen with
  | nil => exact ⟨seen, Explores.stay hroom fun v hv => absurd hv List.not_mem_nil⟩
  | cons id rest ih =>
      obtain ⟨hid, hrest⟩ := List.cons_subset.mp hids
      by_cases hseen : id ∈ seen
      · obtain ⟨after, hafter⟩ := ih hrest hroom
        refine ⟨after, ?_⟩
        rw [Plan.leftOver, if_pos hseen]
        have hstay : Explores c labels depth (· = id) seen [] seen :=
          Explores.stay hroom fun v hv => hv ▸ hseen
        exact (hstay.append hafter).start_congr fun v => List.mem_cons
      · have hstep := henter id seen hroom
        obtain ⟨after, hafter⟩ := ih hrest hstep.room
        refine ⟨after, ?_⟩
        rw [Plan.leftOver, if_neg hseen]
        refine (hstep.append hafter).start_congr fun v => ?_
        rw [List.mem_cons, and_iff_left_of_imp (a := v = id) fun hv => hv ▸ hid]


/-! ### The order of what is left over -/

/-- What is left over is taken in the order of the list: whatever stands before it has been stepped into
by then. -/
theorem leftOver_split (henter : EnterExplores c labels depth enter) {ids : List ProcId}
    (hids : ids ⊆ c.graph.procIds) (hroom : Room c depth seen)
    {before after : List (ProcId × Route)} {id : ProcId} {route : Route}
    (hsplit : Plan.leftOver enter ids seen = before ++ (id, route) :: after) :
    ∃ earlier later seen', ids = earlier ++ id :: later ∧ Room c depth seen' ∧ id ∉ seen' ∧
      (∀ j, j ∈ seen' ↔ j ∈ seen ∨ j ∈ before.flatMap fun d => d.2.nodes) ∧
      (∀ j ∈ earlier, j ∈ seen') ∧ route = (enter id seen').1 := by
  induction ids generalizing seen before with
  | nil => exact absurd hsplit.symm (by simp [Plan.leftOver])
  | cons first rest ih =>
      obtain ⟨hfirst, hrest⟩ := List.cons_subset.mp hids
      by_cases hseen : first ∈ seen
      · rw [Plan.leftOver, if_pos hseen] at hsplit
        obtain ⟨earlier, later, seen', rfl, hroom', hfresh, hmem, hearlier, hroute⟩ :=
          ih hrest hroom hsplit
        refine ⟨first :: earlier, later, seen', rfl, hroom', hfresh, hmem, ?_, hroute⟩
        exact List.forall_mem_cons.mpr ⟨(hmem first).mpr (Or.inl hseen), hearlier⟩
      · rw [Plan.leftOver, if_neg hseen] at hsplit
        have hstep := henter first seen hroom
        cases before with
        | nil =>
            obtain ⟨hhead, _⟩ := List.cons.inj hsplit
            obtain ⟨rfl, rfl⟩ := Prod.mk.inj hhead
            exact ⟨[], rest, seen, rfl, hroom, hseen, by simp, by simp, rfl⟩
        | cons b before =>
            obtain ⟨rfl, hafter⟩ := List.cons.inj hsplit
            obtain ⟨earlier, later, seen', rfl, hroom', hfresh, hmem, hearlier, hroute⟩ :=
              ih hrest hstep.room hafter
            refine ⟨first :: earlier, later, seen', rfl, hroom', hfresh, ?_, ?_, hroute⟩
            · intro j
              rw [hmem, hstep.mem_after_iff, List.flatMap_cons, List.mem_append, or_assoc,
                or_left_comm]
            · refine List.forall_mem_cons.mpr ⟨?_, hearlier⟩
              exact (hmem first).mpr (Or.inl (hstep.arrives first ⟨rfl, hfirst⟩))

/-- Stepping into a new node puts it in front. -/
theorem head?_nodes_enter (hroom : Room c depth seen) {node : ProcId} (hnode : node ∈ c.graph.procIds)
    (hfresh : node ∉ seen) : (Route.enter c labels depth node seen).1.nodes.head? = some node := by
  cases depth with
  | zero => exact absurd hroom.depth_pos (Nat.lt_irrefl 0)
  | succ depth =>
      have hsome : ¬ (c.graph.proc? node).isNone := by
        rw [Graph.mem_procIds] at hnode
        simpa [Option.isSome_iff_ne_none] using hnode
      rw [Route.enter, if_neg hsome, if_neg hfresh]
      rfl

theorem mem_earlier_of_procIds {g : Graph} {earlier later : List ProcId} {id : ProcId}
    (hids : g.procIds = earlier ++ id :: later) {j : ProcId} (hj : j ∈ g.procIds)
    (hlt : j.index < id.index) : j ∈ earlier := by
  have hsorted : (earlier ++ id :: later).Pairwise fun u v => u.index < v.index := by
    rw [← hids, Graph.procIds, List.pairwise_map]
    exact List.pairwise_lt_range
  rw [hids, List.mem_append, List.mem_cons] at hj
  rcases hj with hj | rfl | hj
  · exact hj
  · exact absurd hlt (Nat.lt_irrefl _)
  · have hafter := (List.pairwise_cons.mp (List.pairwise_append.mp hsorted).2.1).1 j hj
    omega


/-! ### The bound on the depth does not matter -/

/-- The plan of a graph with another bound on the depth of the steps. -/
def Plan.within (c : Context) (labels : ProcId → List String) (depth : Nat) : Plan :=
  let enter := Route.enter c labels depth
  let (main, seen) := Route.follow c enter .entry []
  ⟨main, leftOver enter c.graph.procIds seen⟩

theorem ofContext_eq_within :
    Plan.ofContext c labels = Plan.within c labels (c.graph.procs.length + 1) := rfl

/-- Two ways of stepping into nodes agree wherever there is room. -/
def Agree (c : Context) (depth : Nat) (enter enter' : ProcId → List ProcId → Route × List ProcId) :
    Prop :=
  ∀ node seen, Room c depth seen → enter' node seen = enter node seen

section Agree

variable {enter' : ProcId → List ProcId → Route × List ProcId}

theorem follow_agree (hagree : Agree c depth enter enter') (hroom : Room c depth seen)
    (source : Source) : Route.follow c enter' source seen = Route.follow c enter source seen := by
  rcases hsuccessor : c.successor? source with _ | ⟨id, ⟨_, target⟩⟩
  · simp only [Route.follow, hsuccessor]
  · rcases target with node | flow
    · simp only [Route.follow, hsuccessor, hagree node seen hroom]
    · simp only [Route.follow, hsuccessor]

theorem branches_agree (henter : EnterExplores c labels depth enter)
    (hagree : Agree c depth enter enter') (hroom : Room c depth seen) (node : ProcId)
    (taken : List String) :
    Route.branches c enter' node taken seen = Route.branches c enter node taken seen := by
  induction taken generalizing seen with
  | nil => rfl
  | cons label rest ih =>
      have hfirst := (follow_explores henter hroom (.proc node label)).room
      simp only [Route.branches, follow_agree hagree hroom, ih hfirst]

theorem leftOver_agree (henter : EnterExplores c labels depth enter)
    (hagree : Agree c depth enter enter') (hroom : Room c depth seen) (ids : List ProcId) :
    Plan.leftOver enter' ids seen = Plan.leftOver enter ids seen := by
  induction ids generalizing seen with
  | nil => rfl
  | cons id rest ih =>
      simp only [Plan.leftOver, hagree id seen hroom, ih hroom, ih (henter id seen hroom).room]

end Agree

theorem enter_agree (c : Context) (labels : ProcId → List String) (depth extra : Nat) :
    Agree c depth (Route.enter c labels depth) (Route.enter c labels (depth + extra)) := by
  induction depth with
  | zero => exact fun node seen hroom => absurd hroom.depth_pos (Nat.lt_irrefl 0)
  | succ depth ih =>
      intro node seen hroom
      rw [Nat.succ_add, Route.enter, Route.enter]
      split
      · rfl
      · next hsome =>
        split
        · rfl
        · next hfresh =>
          have hnode : node ∈ c.graph.procIds := by
            rw [Graph.mem_procIds]
            simpa [Option.isSome_iff_ne_none] using hsome
          rw [branches_agree (enter_explores c labels depth) ih (hroom.cons hnode hfresh)]

theorem within_eq_ofContext (hdepth : c.graph.procs.length < depth) :
    Plan.within c labels depth = Plan.ofContext c labels := by
  obtain ⟨extra, rfl⟩ := Nat.exists_eq_add_of_le hdepth
  have hagree := enter_agree c labels (c.graph.procs.length + 1) extra
  have hroom := (follow_explores (enter_explores c labels _) (Room.start c) .entry).room
  rw [ofContext_eq_within, Plan.within, Plan.within]
  simp only [Nat.succ_eq_add_one, follow_agree hagree (Room.start c),
    leftOver_agree (enter_explores c labels _) hagree hroom]


/-! ### The whole plan -/

section Plan

variable (c : Context) (labels : ProcId → List String)

theorem main_explores :
    ∃ after, Explores c labels (c.graph.procs.length + 1) (c.ContinuesTo .entry) []
        (Plan.ofContext c labels).main.nodes after ∧
      (Plan.ofContext c labels).detached
        = Plan.leftOver (Route.enter c labels (c.graph.procs.length + 1)) c.graph.procIds after :=
  ⟨_, follow_explores (enter_explores c labels _) (Room.start c) .entry, rfl⟩

theorem nodes_perm_procIds : (Plan.ofContext c labels).nodes.Perm c.graph.procIds := by
  obtain ⟨seen, hmain, hdetached⟩ := main_explores c labels
  obtain ⟨after, hleft⟩ := leftOver_explores (enter_explores c labels _) c.graph.procIds
    (List.Subset.refl _) hmain.room
  rw [← hdetached] at hleft
  have hall := hmain.append hleft
  have hmem : ∀ id, id ∈ after ↔ id ∈ (Plan.ofContext c labels).nodes := fun id => by
    rw [hall.mem_after_iff, or_iff_left List.not_mem_nil, Plan.nodes]
  refine (List.perm_ext_iff_of_nodup ?_ c.graph.nodup_procIds).mpr fun id => ⟨?_, ?_⟩
  · have hnodup := hall.nodup
    rw [List.append_nil, List.nodup_reverse] at hnodup
    exact hnodup
  · exact fun hid => hall.room.subset ((hmem id).mpr hid)
  · exact fun hid => (hmem id).mp (hall.arrives id (Or.inr hid))

/-- The node that is taken next from what is left over is the least that has not been stepped into. -/
theorem detached_least {before after : List (ProcId × Route)} {id : ProcId} {route : Route}
    (hsplit : (Plan.ofContext c labels).detached = before ++ (id, route) :: after) :
    let emitted := (Plan.ofContext c labels).main.nodes ++ before.flatMap fun d => d.2.nodes
    route.nodes.head? = some id ∧ id ∉ emitted ∧
      ∀ earlier ∈ c.graph.procIds, earlier.index < id.index → earlier ∈ emitted := by
  obtain ⟨seen, hmain, hdetached⟩ := main_explores c labels
  rw [hdetached] at hsplit
  obtain ⟨earlier, later, seen', hids, hroom, hfresh, hmem, hearlier, hroute⟩ :=
    leftOver_split (enter_explores c labels _) (List.Subset.refl _) hmain.room hsplit
  have hemitted : ∀ j, j ∈ seen' ↔ j ∈ (Plan.ofContext c labels).main.nodes ++
      before.flatMap fun d => d.2.nodes := fun j => by
    rw [hmem, hmain.mem_after_iff, or_iff_left List.not_mem_nil, List.mem_append]
  have hid : id ∈ c.graph.procIds := by
    rw [hids]
    exact List.mem_append_right _ List.mem_cons_self
  refine ⟨?_, ?_, ?_⟩
  · rw [hroute]
    exact head?_nodes_enter hroom hid hfresh
  · exact fun hold => hfresh ((hemitted id).mpr hold)
  · exact fun j hj hlt => (hemitted j).mp (hearlier j (mem_earlier_of_procIds hids hj hlt))

end Plan

end Code

end ProcFlow
