import ProcFlow.Context.Scope
import ProcFlow.Proofs.Lookup
/-!
# Walks from the entry

A walk follows control edges from the entry: each edge leaves the node that the one before has entered.
What it passes are the flows that its edges leave through.
-/

namespace ProcFlow

/-- The flow that an edge leaves through; none at the entry. -/
def Edge.flow? (e : Edge) : Option (ProcId × String) :=
  match e.source with
  | .entry => none
  | .proc node flow => some (node, flow)

/-- The edges of a walk from the entry, in order, and where it arrives. -/
inductive Walk (g : Graph) : List Edge → Target → Prop where
  | start {target : Target} (hedge : ⟨.entry, target⟩ ∈ g.edges) : Walk g [⟨.entry, target⟩] target
  | step {walk : List Edge} {node : ProcId} {flow : String} {target : Target}
      (hwalk : Walk g walk (.proc node)) (hedge : ⟨.proc node flow, target⟩ ∈ g.edges) :
      Walk g (walk ++ [⟨.proc node flow, target⟩]) target

/-- The flows that a walk passes, in order. -/
def passedFlows (walk : List Edge) : List (ProcId × String) := walk.filterMap Edge.flow?

@[simp] theorem passedFlows_start (target : Target) : passedFlows [⟨.entry, target⟩] = [] := rfl

@[simp] theorem passedFlows_step (walk : List Edge) (node : ProcId) (flow : String)
    (target : Target) :
    passedFlows (walk ++ [⟨.proc node flow, target⟩]) = passedFlows walk ++ [(node, flow)] := by
  rw [passedFlows, List.filterMap_append]
  rfl

theorem Walk.mem_edges {g : Graph} {walk : List Edge} {target : Target} (h : Walk g walk target) :
    ∀ e ∈ walk, e ∈ g.edges := by
  induction h with
  | start hedge =>
      intro e he
      rwa [List.mem_singleton.mp he]
  | step _ hedge ih =>
      intro e he
      rcases List.mem_append.mp he with he | he
      · exact ih e he
      · rwa [List.mem_singleton.mp he]

theorem Walk.eq_append {g : Graph} {walk : List Edge} {target : Target} (h : Walk g walk target) :
    ∃ before e, walk = before ++ [e] ∧ e ∈ g.edges ∧ e.target = target := by
  cases h with
  | start hedge => exact ⟨[], _, rfl, hedge, rfl⟩
  | step _ hedge => exact ⟨_, _, rfl, hedge, rfl⟩

theorem Walk.exists_start {g : Graph} {walk : List Edge} {target : Target} (h : Walk g walk target) :
    ∃ first, ⟨.entry, first⟩ ∈ g.edges := by
  induction h with
  | start hedge => exact ⟨_, hedge⟩
  | step _ _ ih => exact ih

namespace Walk

variable {g : Graph} {walk : List Edge} {target : Target}

theorem length_eq (h : Walk g walk target) : walk.length = (passedFlows walk).length + 1 := by
  induction h with
  | start _ => rfl
  | step _ _ ih => rw [passedFlows_step, List.length_append, List.length_append, ih]; rfl

theorem ne_nil (h : Walk g walk target) : walk ≠ [] := by
  obtain ⟨_, _, rfl, _⟩ := h.eq_append
  exact List.append_ne_nil_of_right_ne_nil _ (List.cons_ne_nil _ _)

theorem exists_cons (h : Walk g walk target) :
    ∃ first rest, walk = ⟨.entry, first⟩ :: rest ∧ ⟨.entry, first⟩ ∈ g.edges := by
  induction h with
  | start hedge => exact ⟨_, [], rfl, hedge⟩
  | step _ _ ih =>
      obtain ⟨first, rest, rfl, hedge⟩ := ih
      exact ⟨first, rest ++ _, rfl, hedge⟩

theorem target_last {before : List Edge} {e : Edge} (h : Walk g (before ++ [e]) target) :
    e.target = target := by
  obtain ⟨_, _, heq, _, rfl⟩ := h.eq_append
  obtain ⟨_, hlast⟩ := List.append_inj' heq rfl
  rw [List.singleton_inj.mp hlast]

theorem target_eq {target' : Target} (h : Walk g walk target) (h' : Walk g walk target') :
    target = target' := by
  obtain ⟨_, _, rfl, _, rfl⟩ := h.eq_append
  exact h'.target_last

/-- An edge within a walk leaves the node that the walk has come to before it. -/
theorem exists_before {before after : List Edge} {e : Edge} (hne : before ≠ [])
    (h : Walk g (before ++ e :: after) target) :
    ∃ node flow, e.source = .proc node flow ∧ Walk g before (.proc node) := by
  generalize hwalk : before ++ e :: after = walk at h
  induction h generalizing after with
  | start _ =>
      rcases before with _ | ⟨x, before⟩
      · exact absurd rfl hne
      · simp at hwalk
  | @step walk node flow target hbefore hedge ih =>
      rcases List.eq_nil_or_concat after with rfl | ⟨after, last, rfl⟩
      · obtain ⟨rfl, hlast⟩ := List.append_inj' hwalk rfl
        obtain rfl := List.singleton_inj.mp hlast
        exact ⟨node, flow, rfl, hbefore⟩
      · rw [List.concat_eq_append, ← List.cons_append, ← List.append_assoc] at hwalk
        exact ih (List.append_inj' hwalk rfl).1

/-- An edge of a walk is the last one, or is followed by an edge that leaves the node it enters. -/
theorem target_eq_or_exists_next {e : Edge} (h : Walk g walk target) (he : e ∈ walk) :
    e.target = target ∨ ∃ before after next node flow, walk = before ++ e :: next :: after ∧
      e.target = .proc node ∧ next.source = .proc node flow := by
  obtain ⟨before, after, rfl⟩ := List.append_of_mem he
  rcases after with _ | ⟨next, after⟩
  · exact Or.inl h.target_last
  · have hsplit : before ++ e :: next :: after = (before ++ [e]) ++ next :: after := by simp
    rw [hsplit] at h
    obtain ⟨node, flow, hsource, hbefore⟩ := h.exists_before (by simp)
    exact Or.inr ⟨before, after, next, node, flow, rfl, hbefore.target_last, hsource⟩

theorem mem_passedFlows_of_mem {e : Edge} {node : ProcId} {flow : String} (he : e ∈ walk)
    (hsource : e.source = .proc node flow) : (node, flow) ∈ passedFlows walk :=
  List.mem_filterMap.mpr ⟨e, he, by simp only [Edge.flow?, hsource]⟩

/-- The edges of a walk are all that it takes to walk it in another graph. -/
theorem of_edges {g' : Graph} (h : Walk g walk target) (hedges : ∀ e ∈ walk, e ∈ g'.edges) :
    Walk g' walk target := by
  induction h with
  | start _ => exact Walk.start (hedges _ (List.mem_singleton_self _))
  | step _ _ ih =>
      refine Walk.step (ih fun e he => hedges e (List.mem_append_left _ he)) ?_
      exact hedges _ (List.mem_append_right _ (List.mem_singleton_self _))

end Walk


namespace Context

theorem firstInto?_eq_some {c : Context} {target : Target} {e : Edge}
    (h : c.firstInto? target = some e) : e ∈ c.graph.edges ∧ e.target = target :=
  ⟨List.mem_of_find?_eq_some h, by simpa using List.find?_some h⟩

end Context

end ProcFlow
