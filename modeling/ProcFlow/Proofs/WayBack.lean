import ProcFlow.Catalog.Standard
import ProcFlow.Compile
import ProcFlow.Proofs.Walk
/-!
# The way back from an edge

The control path is found by going back, from an edge to the first edge into the node that it leaves, and
is bounded by the number of nodes. The bound never cuts it short: each step back passes a node of the arena
that has not been passed, so there are no more steps than nodes, and where no step is left the path is
there if the entry has been reached, and missing otherwise.

Read the other way round, the steps are a way from the entry to the edge. There is one such way at most,
since an edge tells which one came before it. So the path is there exactly if there is a way on which no
node comes twice, and it holds the flows that the way passes. A way to an edge of the graph is a walk.
-/

namespace ProcFlow.Context

open Relation (ReflTransGen)

/-- An edge leaves a node of the arena through a flow that the definition of its procedure declares. -/
def Leaves (c : Context) (e : Edge) (node : ProcId) (flow : String) : Prop :=
  e.source = .proc node flow ∧ ∃ procNode d, c.graph.proc? node = some procNode ∧
    c.catalog.definition? procNode.procedure = some d ∧ flow ∈ d.flowNames

/-- An edge is the first one of the graph to enter a node. -/
def FirstInto (c : Context) (node : ProcId) (e : Edge) : Prop :=
  IsFirst (fun x => x.target = .proc node) c.graph.edges e

/-- The edges of a way from the entry to an edge: each one after the first leaves the node that the one
before it is the first to enter. -/
inductive WayTo (c : Context) : Edge → List Edge → Prop where
  | entry {e : Edge} (hsource : e.source = .entry) : WayTo c e [e]
  | back {e before : Edge} {way : List Edge} {node : ProcId} {flow : String}
      (hleaves : c.Leaves e node flow) (hfirst : c.FirstInto node before) (hway : WayTo c before way) :
      WayTo c e (way ++ [e])

/-- One step back from an edge, with the flows that were passed. -/
inductive GoesBack (c : Context) :
    Edge × List (ProcId × String) → Edge × List (ProcId × String) → Prop where
  | mk {e before : Edge} {node : ProcId} {flow : String} {passed : List (ProcId × String)}
      (hleaves : c.Leaves e node flow) (hnew : node ∉ passed.map Prod.fst)
      (hfirst : c.FirstInto node before) : GoesBack c (e, passed) (before, (node, flow) :: passed)

variable {c : Context} {e before : Edge} {node : ProcId} {flow : String}
  {passed scope : List (ProcId × String)} {way : List Edge} {steps : Nat}
  {a b : Edge × List (ProcId × String)}

theorem firstInto?_eq_some_iff : c.firstInto? (.proc node) = some e ↔ c.FirstInto node e := by
  rw [firstInto?, find?_eq_some_iff_isFirst, FirstInto]
  exact IsFirst.congr fun x _ => decide_eq_true_iff

theorem FirstInto.unique {e' : Edge} (h : c.FirstInto node e) (h' : c.FirstInto node e') : e = e' := by
  rw [← firstInto?_eq_some_iff] at h h'
  exact Option.some.inj (h.symm.trans h')

theorem Leaves.mem_procIds (h : c.Leaves e node flow) : node ∈ c.graph.procIds := by
  obtain ⟨_, procNode, _, hnode, _⟩ := h
  exact c.graph.mem_procIds.mpr (Option.isSome_iff_exists.mpr ⟨procNode, hnode⟩)

theorem leaves_iff_definition? : c.Leaves e node flow ↔
    e.source = .proc node flow ∧ ∃ d, c.definition? node = some d ∧ flow ∈ d.flowNames := by
  refine and_congr_right fun _ => ⟨?_, ?_⟩
  · rintro ⟨procNode, d, hnode, hd, hflow⟩
    exact ⟨d, (definition?_of_proc? hnode).trans hd, hflow⟩
  · rintro ⟨d, hd, hflow⟩
    obtain ⟨procNode, hnode, hprocedure⟩ := proc?_of_definition? hd
    exact ⟨procNode, d, hnode, hprocedure, hflow⟩

theorem leaves_iff_isSome (hsource : e.source = .proc node flow) :
    c.Leaves e node flow ↔ ((c.definition? node).bind fun d => d.flow? flow).isSome := by
  simp only [leaves_iff_definition?, hsource, true_and, Option.isSome_bind, Option.any_eq_true,
    Definition.flow?_isSome_iff]


/-! ### What the walk does at an edge -/

theorem walkBack_of_entry (hsource : e.source = .entry) (steps : Nat) :
    c.walkBack (steps + 1) e passed = some passed := by
  simp only [walkBack, hsource]

theorem GoesBack.walkBack_eq (h : c.GoesBack a b) (steps : Nat) :
    c.walkBack (steps + 1) a.1 a.2 = c.walkBack steps b.1 b.2 := by
  obtain ⟨hleaves, hnew, hfirst⟩ := h
  have hsource := hleaves.1
  rw [leaves_iff_isSome hsource] at hleaves
  obtain ⟨f, hf⟩ := Option.isSome_iff_exists.mp hleaves
  simp only [walkBack, hsource, hf, if_neg hnew, firstInto?_eq_some_iff.mpr hfirst]

/-- Where no step back is possible and the entry is not reached, there is no path. -/
theorem walkBack_of_stuck (hsource : e.source ≠ .entry) (hstuck : ∀ next, ¬ c.GoesBack (e, passed) next)
    (steps : Nat) : c.walkBack steps e passed = none := by
  cases steps with
  | zero => rfl
  | succ steps =>
      rcases hproc : e.source with _ | ⟨node, flow⟩
      · exact absurd hproc hsource
      simp only [walkBack, hproc]
      split
      · rfl
      next f hf =>
      split
      · rfl
      next hnew =>
      split
      · rfl
      next before hfirst =>
      have hleaves := (leaves_iff_isSome hproc).mpr (Option.isSome_iff_exists.mpr ⟨f, hf⟩)
      exact absurd (.mk hleaves hnew (firstInto?_eq_some_iff.mp hfirst)) (hstuck _)


/-! ### Going back comes to an end -/

/-- The nodes of the arena that were not passed. -/
def unpassed (c : Context) (a : Edge × List (ProcId × String)) : List ProcId :=
  c.graph.procIds.filter fun id => id ∉ a.2.map Prod.fst

theorem GoesBack.length_unpassed_lt (h : c.GoesBack a b) :
    (c.unpassed b).length < (c.unpassed a).length := by
  obtain @⟨e, before, node, flow, passed, hleaves, hnew, _⟩ := h
  have hfilter : c.unpassed (before, (node, flow) :: passed)
      = (c.unpassed (e, passed)).filter fun id => id ≠ node := by
    rw [unpassed, unpassed, List.filter_filter]
    apply List.filter_congr
    intro id _
    simp only [List.map_cons, List.mem_cons, not_or, Bool.decide_and]
  rw [hfilter, List.length_filter_lt_length_iff_exists]
  refine ⟨node, List.mem_filter.mpr ⟨hleaves.mem_procIds, decide_eq_true hnew⟩, ?_⟩
  simp

theorem wellFounded_goesBack (c : Context) : WellFounded fun later earlier => c.GoesBack earlier later :=
  Subrelation.wf GoesBack.length_unpassed_lt (measure fun a => (c.unpassed a).length).wf

theorem passed_of_back (h : ReflTransGen c.GoesBack (e, []) a) :
    (a.2.map Prod.fst).Nodup ∧ a.2.map Prod.fst ⊆ c.graph.procIds := by
  induction h with
  | refl => exact ⟨List.nodup_nil, List.nil_subset _⟩
  | tail _ hback ih =>
      obtain ⟨hleaves, hnew, _⟩ := hback
      exact ⟨List.nodup_cons.mpr ⟨hnew, ih.1⟩, List.cons_subset.mpr ⟨hleaves.mem_procIds, ih.2⟩⟩

theorem walkBack_of_back (h : ReflTransGen c.GoesBack (e, []) a) (steps : Nat) :
    c.walkBack (steps + a.2.length) e [] = c.walkBack steps a.1 a.2 := by
  induction h generalizing steps with
  | refl => rfl
  | @tail a b _ hback ih =>
      have hlength : b.2.length = a.2.length + 1 := by
        cases hback
        rfl
      rw [hlength, ← Nat.add_assoc, Nat.add_right_comm, ih, hback.walkBack_eq]

/-- No more nodes are passed than the bound allows for. -/
theorem controlPath?_of_back (h : ReflTransGen c.GoesBack (e, []) a) :
    ∃ steps, c.controlPath? e = c.walkBack (steps + 1) a.1 a.2 := by
  obtain ⟨hnodup, hsubset⟩ := passed_of_back h
  have hle := c.graph.length_le_of_nodup hnodup hsubset
  rw [List.length_map] at hle
  refine ⟨c.graph.procs.length - a.2.length, ?_⟩
  rw [← walkBack_of_back h, controlPath?]
  congr 1
  omega

theorem exists_back_or_controlPath?_eq (h : ReflTransGen c.GoesBack (e, []) a) :
    (∃ next, c.GoesBack a next) ∨
      c.controlPath? e = if a.1.source = .entry then some a.2 else none := by
  obtain ⟨steps, hpath⟩ := controlPath?_of_back h
  by_cases hsource : a.1.source = .entry
  · right
    rw [hpath, walkBack_of_entry hsource, if_pos hsource]
  · by_cases hnext : ∃ next, c.GoesBack a next
    · exact Or.inl hnext
    · right
      rw [hpath, walkBack_of_stuck hsource (not_exists.mp hnext), if_neg hsource]

theorem exists_end (a : Edge × List (ProcId × String)) :
    ∃ b, ReflTransGen c.GoesBack a b ∧ ∀ next, ¬ c.GoesBack b next := by
  induction a using (wellFounded_goesBack c).induction with
  | _ a ih =>
      by_cases hnext : ∃ next, c.GoesBack a next
      · obtain ⟨next, hback⟩ := hnext
        obtain ⟨b, hrest, hend⟩ := ih next hback
        exact ⟨b, .head hback hrest, hend⟩
      · exact ⟨a, .refl, not_exists.mp hnext⟩

/-- The path is there exactly if going back comes to the entry, and it is what was passed then. -/
theorem controlPath?_eq_some_iff_back :
    c.controlPath? e = some scope ↔
      ∃ first, first.source = .entry ∧ ReflTransGen c.GoesBack (e, []) (first, scope) := by
  refine ⟨?_, ?_⟩
  · intro hpath
    obtain ⟨⟨first, passed⟩, hback, hend⟩ := exists_end (c := c) (e, [])
    rcases exists_back_or_controlPath?_eq hback with ⟨next, hnext⟩ | heq
    · exact absurd hnext (hend next)
    rw [hpath] at heq
    split at heq
    next hsource => exact ⟨first, hsource, Option.some.inj heq ▸ hback⟩
    next => cases heq
  · rintro ⟨first, hsource, hback⟩
    obtain ⟨steps, hpath⟩ := controlPath?_of_back hback
    rw [hpath, walkBack_of_entry hsource]


/-! ### Ways -/

theorem passedFlows_of_entry (hsource : e.source = .entry) : passedFlows [e] = [] := by
  obtain ⟨source, target⟩ := e
  obtain rfl : source = .entry := hsource
  rfl

theorem passedFlows_append_of_leaves (hleaves : c.Leaves e node flow) (way : List Edge) :
    passedFlows (way ++ [e]) = passedFlows way ++ [(node, flow)] := by
  obtain ⟨source, target⟩ := e
  obtain ⟨rfl, _⟩ := hleaves
  exact passedFlows_step way node flow target

/-- An edge tells which one came before it. -/
theorem WayTo.unique {way' : List Edge} (h : c.WayTo e way) (h' : c.WayTo e way') : way = way' := by
  induction h generalizing way' with
  | entry hsource =>
      cases h' with
      | entry _ => rfl
      | back hleaves _ _ => cases hsource.symm.trans hleaves.1
  | back hleaves hfirst _ ih =>
      cases h' with
      | entry hsource => cases hsource.symm.trans hleaves.1
      | back hleaves' hfirst' hway' =>
          obtain ⟨rfl, rfl⟩ := Source.proc.inj (hleaves.1.symm.trans hleaves'.1)
          obtain rfl := hfirst.unique hfirst'
          rw [ih hway']

/-- The steps back, put in front of a way to where they lead, are a way. -/
theorem exists_way_of_back (h : ReflTransGen c.GoesBack (e, []) a) (hway : c.WayTo a.1 way) :
    ∃ whole, c.WayTo e whole ∧ passedFlows whole = passedFlows way ++ a.2 := by
  induction h generalizing way with
  | refl => exact ⟨way, hway, (List.append_nil _).symm⟩
  | tail _ hback ih =>
      obtain ⟨hleaves, _, hfirst⟩ := hback
      obtain ⟨whole, hwhole, hflows⟩ := ih (.back hleaves hfirst hway)
      refine ⟨whole, hwhole, ?_⟩
      rw [hflows, passedFlows_append_of_leaves hleaves, List.append_assoc, List.singleton_append]

/-- A way on which no node comes twice can be gone back. -/
theorem WayTo.exists_back (h : c.WayTo e way)
    (hnodup : ((passedFlows way ++ passed).map Prod.fst).Nodup) :
    ∃ first, first.source = .entry ∧
      ReflTransGen c.GoesBack (e, passed) (first, passedFlows way ++ passed) := by
  induction h generalizing passed with
  | @entry e hsource =>
      rw [passedFlows_of_entry hsource]
      exact ⟨e, hsource, .refl⟩
  | @back e before way node flow hleaves hfirst _ ih =>
      rw [passedFlows_append_of_leaves hleaves, List.append_assoc, List.singleton_append]
        at hnodup ⊢
      obtain ⟨first, hsource, hback⟩ := ih hnodup
      rw [List.map_append, List.map_cons] at hnodup
      have hnew := (List.nodup_cons.mp hnodup.of_append_right).1
      exact ⟨first, hsource, .head (.mk hleaves hnew hfirst) hback⟩

/-- The path is there exactly if there is a way on which no node comes twice, and holds its flows. -/
theorem controlPath?_eq_some_iff :
    c.controlPath? e = some scope ↔
      ∃ way, c.WayTo e way ∧ ((passedFlows way).map Prod.fst).Nodup ∧ scope = passedFlows way := by
  rw [controlPath?_eq_some_iff_back]
  refine ⟨?_, ?_⟩
  · rintro ⟨first, hsource, hback⟩
    obtain ⟨way, hway, hflows⟩ := exists_way_of_back hback (.entry hsource)
    rw [passedFlows_of_entry hsource, List.nil_append] at hflows
    exact ⟨way, hway, hflows ▸ (passed_of_back hback).1, hflows.symm⟩
  · rintro ⟨way, hway, hnodup, rfl⟩
    rw [← List.append_nil (passedFlows way)] at hnodup ⊢
    exact hway.exists_back hnodup

theorem WayTo.walk (h : c.WayTo e way) (hedge : e ∈ c.graph.edges) : Walk c.graph way e.target := by
  induction h with
  | @entry e hsource =>
      obtain ⟨source, target⟩ := e
      obtain rfl : source = .entry := hsource
      exact .start hedge
  | @back e before way node flow hleaves hfirst _ ih =>
      obtain ⟨hbefore, htarget⟩ := firstInto?_eq_some (firstInto?_eq_some_iff.mpr hfirst)
      have hwalk := ih hbefore
      rw [htarget] at hwalk
      obtain ⟨source, target⟩ := e
      obtain ⟨rfl, _⟩ := hleaves
      exact .step hwalk hedge

theorem WayTo.declared (h : c.WayTo e way) : ∀ node flow, (node, flow) ∈ passedFlows way →
    ∃ d, c.definition? node = some d ∧ flow ∈ d.flowNames := by
  induction h with
  | entry hsource =>
      rw [passedFlows_of_entry hsource]
      exact fun node flow hmem => absurd hmem List.not_mem_nil
  | back hleaves _ _ ih =>
      intro node flow hmem
      rw [passedFlows_append_of_leaves hleaves, List.mem_append, List.mem_singleton] at hmem
      rcases hmem with hmem | heq
      · exact ih node flow hmem
      · obtain ⟨rfl, rfl⟩ := Prod.mk.inj heq
        exact (leaves_iff_definition?.mp hleaves).2

theorem exists_walk_of_controlPath? (hedge : e ∈ c.graph.edges) (h : c.controlPath? e = some scope) :
    ∃ walk, Walk c.graph walk e.target ∧ scope = passedFlows walk := by
  obtain ⟨way, hway, _, hscope⟩ := controlPath?_eq_some_iff.mp h
  exact ⟨way, hway.walk hedge, hscope⟩

/-- Going back from an edge comes to an end, passes no node twice, and yields the path if it ends at the
entry. The path is there exactly if there is a way to the edge on which no node comes twice, and holds the
flows of the way; and there is one way at most. -/
theorem way_back_exact (c : Context) (e : Edge) :
    (WellFounded (fun later earlier => c.GoesBack earlier later) ∧
      ∀ last passed, ReflTransGen c.GoesBack (e, []) (last, passed) →
        (passed.map Prod.fst).Nodup ∧ passed.map Prod.fst ⊆ c.graph.procIds ∧
          ((∃ next, c.GoesBack (last, passed) next) ∨
            c.controlPath? e = if last.source = .entry then some passed else none)) ∧
    (∀ scope, c.controlPath? e = some scope ↔
      ∃ way, c.WayTo e way ∧ ((passedFlows way).map Prod.fst).Nodup ∧ scope = passedFlows way) ∧
    ∀ way way', c.WayTo e way → c.WayTo e way' → way = way' := by
  refine ⟨⟨wellFounded_goesBack c, ?_⟩, fun scope => controlPath?_eq_some_iff,
    fun way way' h h' => h.unique h'⟩
  intro last passed hback
  obtain ⟨hnodup, hsubset⟩ := passed_of_back hback
  exact ⟨hnodup, hsubset, exists_back_or_controlPath?_eq hback⟩

/-- Two edges enter one node and two lead around in a circle, which comes from nowhere. -/
def confluent : Graph where
  procs := List.replicate 4 ⟨"negate", .ofList [("x", ⟨.entry, "x"⟩)]⟩
  edges :=
    [⟨.entry, .proc ⟨0⟩⟩, ⟨.proc ⟨0⟩ "result", .proc ⟨1⟩⟩, ⟨.proc ⟨2⟩ "result", .proc ⟨1⟩⟩,
      ⟨.proc ⟨1⟩ "result", .output "done"⟩, ⟨.proc ⟨2⟩ "result", .proc ⟨3⟩⟩,
      ⟨.proc ⟨3⟩ "result", .proc ⟨2⟩⟩]
  inputs := .ofList [("x", ⟨[], "number"⟩)]
  outputFlows := .ofList [("done", .empty)]

theorem way_back_confluent :
    (∃ next, (Catalog.standard.context confluent).GoesBack
        (⟨.proc ⟨1⟩ "result", .output "done"⟩, []) next) ∧
      (∃ way, passedFlows way = [(⟨0⟩, "result"), (⟨1⟩, "result")] ∧
        ∀ way', (Catalog.standard.context confluent).WayTo ⟨.proc ⟨1⟩ "result", .output "done"⟩ way'
          ↔ way' = way) ∧
      ¬ ∃ way, (Catalog.standard.context confluent).WayTo ⟨.proc ⟨2⟩ "result", .proc ⟨3⟩⟩ way ∧
        ((passedFlows way).map Prod.fst).Nodup := by
  have hpath : (Catalog.standard.context confluent).controlPath? ⟨.proc ⟨1⟩ "result", .output "done"⟩
      = some [(⟨0⟩, "result"), (⟨1⟩, "result")] := by
    decide +kernel
  have hcircle : (Catalog.standard.context confluent).controlPath? ⟨.proc ⟨2⟩ "result", .proc ⟨3⟩⟩
      = none := by
    decide +kernel
  obtain ⟨⟨_, hback⟩, hways, hunique⟩ :=
    way_back_exact (Catalog.standard.context confluent) ⟨.proc ⟨1⟩ "result", .output "done"⟩
  refine ⟨?_, ?_, ?_⟩
  · rcases (hback _ _ .refl).2.2 with hnext | hnone
    · exact hnext
    · rw [hpath] at hnone
      cases hnone
  · obtain ⟨way, hway, _, hflows⟩ := (hways _).mp hpath
    refine ⟨way, hflows.symm, fun way' => ⟨fun hway' => hunique way' way hway' hway, ?_⟩⟩
    rintro rfl
    exact hway
  · rintro ⟨way, hway, hnodup⟩
    obtain ⟨_, hways, _⟩ :=
      way_back_exact (Catalog.standard.context confluent) ⟨.proc ⟨2⟩ "result", .proc ⟨3⟩⟩
    rw [(hways _).mpr ⟨way, hway, hnodup, rfl⟩] at hcircle
    cases hcircle

end ProcFlow.Context
