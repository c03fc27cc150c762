import ProcFlow.Proofs.Components
/-!
# The search as a loop

The search is written with a bound on its steps, and with arrays that have a value at every index. It would
find the same without either. Taken one turn after the other for as long as there is one, it comes to an
end, because each turn leaves less to do; all that a turn looks up or changes is there, because whatever
the stack and the frames hold are vertices of the graph; and where it ends, it has the components that the
bounded search finds.

The components are the classes of vertices that lead to each other. They come in an order in which none
leads to a later one, for when a component is found all that it leads to has been found.
-/

namespace ProcFlow.Digraph

open Relation (ReflTransGen)

/-! ### The components and their order -/

/-- Once components are found, they lead to nothing that is found later. -/
theorem Settled.pairwise_not_reaches {d : Digraph} {found : List (List Nat)} (h : Settled d found) :
    found.Pairwise fun later earlier => ∀ v ∈ earlier, ∀ w ∈ later, ¬ ReflTransGen d.Step v w := by
  induction h with
  | nil => exact List.Pairwise.nil
  | @cons members found hfound _ hdisjoint _ ih =>
      refine List.pairwise_cons.mpr ⟨?_, ih⟩
      intro m hm v hv w hw hpath
      obtain ⟨m', hm', hw'⟩ := hfound.mem_of_reflTransGen ⟨m, hm, hv⟩ hpath
      exact hdisjoint m' hm' hw hw'

theorem IsComponent.ne_nil {d : Digraph} {members : List Nat} (h : d.IsComponent members) :
    members ≠ [] := by
  obtain ⟨_, v, hmem⟩ := h
  exact List.ne_nil_of_mem ((hmem v).mpr (Tied.refl d v))

section Components

variable {d : Digraph} (hclosed : d.Closed)
include hclosed

theorem flatten_components_perm : d.components.flatten.Perm (List.range d.size) := by
  have hnodup : d.components.flatten.Nodup := by
    rw [List.nodup_flatten]
    exact ⟨fun m hm => (isComponent_of_mem_components hclosed hm).1, pairwise_disjoint_components hclosed⟩
  rw [List.perm_ext_iff_of_nodup hnodup List.nodup_range]
  intro v
  rw [List.mem_flatten, List.mem_range]
  exact exists_mem_components_iff hclosed

theorem exists_mem_components_both_iff {v w : Nat} (hv : v < d.size) :
    (∃ members ∈ d.components, v ∈ members ∧ w ∈ members) ↔ d.Tied v w := by
  refine ⟨?_, ?_⟩
  · rintro ⟨members, hmem, hv, hw⟩
    exact ((isComponent_of_mem_components hclosed hmem).mem_iff hv).mp hw
  · intro htied
    obtain ⟨members, hmem, hv⟩ := (exists_mem_components_iff hclosed).mpr hv
    exact ⟨members, hmem, hv, ((isComponent_of_mem_components hclosed hmem).mem_iff hv).mpr htied⟩

theorem pairwise_not_reaches_components :
    d.components.Pairwise fun earlier later =>
      ∀ v ∈ earlier, ∀ w ∈ later, ¬ ReflTransGen d.Step v w := by
  rw [components, List.pairwise_reverse]
  exact (search_settled hclosed).1.pairwise_not_reaches

end Components


/-- What is being looked at is on the stack, with successors that are left. -/
theorem Stacked.mem_of_mem_frames {d : Digraph} {index : Nat → Option Nat} {low : Nat → Nat}
    {frames : List (Nat × List Nat)} {stack : List Nat} (h : Stacked d index low frames stack) :
    ∀ frame ∈ frames, frame.1 ∈ stack ∧ ∀ w ∈ frame.2, d.Step frame.1 w := by
  induction h with
  | nil => exact fun frame hframe => absurd hframe List.not_mem_nil
  | @cons v rest segment below frames _ _ hsegment ih =>
      intro frame hframe
      rcases List.mem_cons.mp hframe with rfl | hframe
      · exact ⟨List.mem_append_right _ List.mem_cons_self, hsegment.left⟩
      · obtain ⟨hmem, hleft⟩ := ih frame hframe
        exact ⟨List.mem_append_right _ (List.mem_cons_of_mem v hmem), hleft⟩


namespace Search

/-! ### Turns -/

/-- One turn of the search that has come to a root: a step while a vertex is being looked at, and else the
root is met, or passed over if it was met before. -/
inductive Turn (d : Digraph) : Nat × Search → Nat × Search → Prop where
  | step {root : Nat} {s : Search} (hframes : s.frames ≠ []) : Turn d (root, s) (root, s.step d)
  | enter {root : Nat} {s : Search} (hframes : s.frames = []) (hroot : root < d.size)
      (hnew : s.index? root = none) : Turn d (root, s) (root + 1, s.enter d root)
  | pass {root : Nat} {s : Search} (hframes : s.frames = []) (hroot : root < d.size)
      (hmet : (s.index? root).isSome) : Turn d (root, s) (root + 1, s)

/-- The arrays have an entry for each vertex, and a turn asks for nothing but vertices: those that are being
looked at, which are on the stack that a component is taken from, the successors that are left of them,
and those on the stack. Numbers are below the number of vertices. -/
structure InRange (d : Digraph) (s : Search) : Prop where
  size_index : s.index.size = d.size
  size_low : s.low.size = d.size
  size_onStack : s.onStack.size = d.size
  mem_stack : ∀ frame ∈ s.frames, frame.1 ∈ s.stack
  left_lt_size : ∀ frame ∈ s.frames, ∀ w ∈ frame.2, w < d.size
  lt_size : ∀ v ∈ s.stack, v < d.size
  number_lt_size : ∀ v i, s.index? v = some i → i < d.size

/-- As many vertices were met as were counted. -/
def Counted (d : Digraph) (s : Search) : Prop :=
  s.count + ((Finset.range d.size).filter fun v => s.index? v = none).card = d.size

variable {d : Digraph} {s : Search} {v w root : Nat} {a b : Nat × Search}

theorem counted_start (d : Digraph) : Counted d (start d) := by
  have hnone : ∀ v, (start d).index? v = none := by
    intro v
    by_cases hv : v < d.size <;> simp [index?, start, hv]
  rw [Counted, Finset.filter_true_of_mem fun v _ => hnone v, Finset.card_range]
  exact Nat.zero_add _

theorem Counted.enter (h : Counted d s) (hsize : s.index.size = d.size) (hw : w < d.size)
    (hnew : s.index? w = none) : Counted d (s.enter d w) := by
  have hmem : w ∈ (Finset.range d.size).filter fun x => s.index? x = none := by
    simp [hw, hnew]
  have hcard := Finset.card_erase_add_one hmem
  rw [Counted] at h ⊢
  rw [filter_index?_enter hsize hw]
  have hcount : (s.enter d w).count = s.count + 1 := rfl
  omega

theorem Counted.look (h : Counted d s) (hsize : s.index.size = d.size) (hw : w < d.size) :
    Counted d (s.look d v w) := by
  rcases hindex : s.index? w with _ | i
  · rw [look_of_none hindex]
    exact h.enter hsize hw hindex
  · rw [look_of_some hindex]
    split
    · exact h
    · exact h

theorem count_leave (s : Search) (v : Nat) : (s.leave v).count = s.count := by
  rw [leave]
  split <;> split <;> rfl

theorem Counted.leave (h : Counted d s) (v : Nat) : Counted d (s.leave v) := by
  rw [Counted, index?_leave, count_leave]
  exact h

theorem Invariant.counted_step (h : s.Invariant d) (hclosed : d.Closed) (hcount : Counted d s) :
    Counted d (s.step d) := by
  rcases hhead : s.frames with _ | ⟨⟨v, _ | ⟨w, rest⟩⟩, frames⟩
  · rw [Search.step, hhead]
    exact hcount
  · rw [step_eq_leave hhead]
    exact Counted.leave (s := { s with frames }) hcount v
  · obtain ⟨_, _, _, _, _, hsegment⟩ := Stacked.uncons (hhead ▸ h.stacked)
    have hw := hclosed v w (hsegment.left w List.mem_cons_self)
    rw [step_eq_look hhead]
    exact Counted.look (s := { s with frames := (v, rest) :: frames }) hcount h.size_index hw

theorem Invariant.inRange (h : s.Invariant d) (hclosed : d.Closed) (hcount : Counted d s) :
    s.InRange d where
  size_index := h.size_index
  size_low := h.size_low
  size_onStack := h.size_onStack
  mem_stack := fun frame hframe => (h.stacked.mem_of_mem_frames frame hframe).1
  left_lt_size := fun frame hframe w hw =>
    hclosed _ w ((h.stacked.mem_of_mem_frames frame hframe).2 w hw)
  lt_size := h.lt_size
  number_lt_size := by
    intro v i hi
    have hlt := h.lt_count v i hi
    rw [Counted] at hcount
    omega


/-! ### Each turn -/

theorem Turn.keeps (h : Turn d a b) (hclosed : d.Closed) (ha : a.2.Invariant d)
    (hcount : Counted d a.2) : b.2.Invariant d ∧ Counted d b.2 := by
  cases h with
  | step hframes => exact ⟨ha.step hclosed, ha.counted_step hclosed hcount⟩
  | @enter root s hframes hroot hnew =>
      refine ⟨ha.enter hroot hnew (ha.stacked_enter hroot hnew) fun p hp => ?_,
        hcount.enter ha.size_index hroot hnew⟩
      rw [hframes] at hp
      cases hp
  | pass hframes hroot hmet => exact ⟨ha, hcount⟩

/-- What is left to do: vertices to leave, edges to look at, and roots to come to. -/
def remaining (d : Digraph) (a : Nat × Search) : Nat := todo d a.2 + (d.size - a.1)

theorem Turn.remaining_lt (h : Turn d a b) (hclosed : d.Closed) (ha : a.2.Invariant d) :
    remaining d b < remaining d a := by
  cases h with
  | @step root s hframes =>
      have htodo : todo d (s.step d) + 1 = todo d s := ha.todo_step hclosed hframes
      simp only [remaining]
      omega
  | @enter root s hframes hroot hnew =>
      have htodo : todo d (s.enter d root) = todo d s := todo_enter ha.size_index hroot hnew
      simp only [remaining]
      omega
  | pass hframes hroot hmet =>
      simp only [remaining]
      omega

theorem rightUnique_turn (d : Digraph) : Relator.RightUnique (Turn d) := by
  intro a b c hb hc
  cases hb with
  | step hframes =>
      cases hc with
      | step _ => rfl
      | enter hnone _ _ => exact absurd hnone hframes
      | pass hnone _ _ => exact absurd hnone hframes
  | enter hframes _ hnew =>
      cases hc with
      | step hsome => exact absurd hframes hsome
      | enter _ _ _ => rfl
      | pass _ _ hmet => simp [hnew] at hmet
  | pass hframes _ hmet =>
      cases hc with
      | step hsome => exact absurd hframes hsome
      | enter _ _ hnew => simp [hnew] at hmet
      | pass _ _ _ => rfl


/-! ### All turns -/

/-- There is no end of turns without an end. -/
theorem acc_turn (hclosed : d.Closed) (ha : a.2.Invariant d) (hcount : Counted d a.2) :
    Acc (fun later earlier => Turn d earlier later) a := by
  induction hleft : remaining d a using Nat.strong_induction_on generalizing a with
  | _ left ih =>
      refine Acc.intro a fun b hturn => ?_
      obtain ⟨hb, hcount⟩ := hturn.keeps hclosed ha hcount
      exact ih _ (hleft ▸ hturn.remaining_lt hclosed ha) hb hcount rfl

theorem keeps_of_turns (hclosed : d.Closed) (h : ReflTransGen (Turn d) (0, start d) a) :
    a.2.Invariant d ∧ Counted d a.2 := by
  induction h with
  | refl => exact ⟨invariant_start d, counted_start d⟩
  | tail _ hturn ih => exact hturn.keeps hclosed ih.1 ih.2

theorem turns_run (d : Digraph) (root steps : Nat) (s : Search) :
    ReflTransGen (Turn d) (root, s) (root, s.run d steps) := by
  fun_induction Search.run d steps s with
  | case1 s => exact .refl
  | case2 steps s hempty => exact .refl
  | case3 steps s hempty ih =>
      exact .head (.step fun hnil => hempty (List.isEmpty_iff.mpr hnil)) ih

theorem turns_visit (hframes : s.frames = []) (hroot : root < d.size) (steps : Nat) :
    ReflTransGen (Turn d) (root, s) (root + 1, s.visit d steps root) := by
  rw [visit]
  split
  next hmet => exact .single (.pass hframes hroot hmet)
  next hnew =>
    rw [Option.not_isSome_iff_eq_none] at hnew
    exact .head (.enter hframes hroot hnew) (turns_run d (root + 1) steps _)

/-- The bounded search takes the turns up to any root. -/
theorem turns_visits (hclosed : d.Closed) {k : Nat} (hk : k ≤ d.size) :
    ReflTransGen (Turn d) (0, start d)
      (k, (List.range k).foldl (visit d (d.edgeCount + d.size)) (start d)) := by
  induction k with
  | zero => exact .refl
  | succ k ih =>
      have hroots : ∀ root ∈ List.range k, root < d.size := by
        intro root hroot
        rw [List.mem_range] at hroot
        omega
      have hrest := (Invariant.visits hclosed hroots (invariant_start d) rfl).1
      rw [List.range_succ, List.foldl_append]
      exact (ih (by omega)).trans (turns_visit hrest.frames_eq_nil hk _)

/-- The turns go on, or have come to what the bounded search finds. -/
theorem exists_turn_or_eq_search (hclosed : d.Closed)
    (h : ReflTransGen (Turn d) (0, start d) (root, s)) :
    (∃ later, Turn d (root, s) later) ∨ s = d.search := by
  have hsearch : ReflTransGen (Turn d) (0, start d) (d.size, d.search) := turns_visits hclosed le_rfl
  have hend : ∀ later, ¬ Turn d (d.size, d.search) later := by
    have hframes : d.search.frames = [] :=
      (Invariant.visits hclosed (fun v hv => List.mem_range.mp hv) (invariant_start d) rfl).1.frames_eq_nil
    rintro later (hsome | ⟨_, hlt, _⟩ | ⟨_, hlt, _⟩)
    · exact hsome hframes
    · exact absurd hlt (lt_irrefl _)
    · exact absurd hlt (lt_irrefl _)
  rcases h.total_of_right_unique (rightUnique_turn d) hsearch with hmore | hback
  · rcases Relation.ReflTransGen.cases_head hmore with heq | ⟨later, hturn, _⟩
    · exact Or.inr (Prod.mk.inj heq).2
    · exact Or.inl ⟨later, hturn⟩
  · rcases Relation.ReflTransGen.cases_head hback with heq | ⟨later, hturn, _⟩
    · exact Or.inr (Prod.mk.inj heq).2.symm
    · exact absurd hturn (hend later)

end Search

/-- No entry out of range means that no edge leads out of the graph. -/
theorem closed_of_entries {d : Digraph} (hentries : ∀ ws ∈ d.successors, ∀ w ∈ ws, w < d.size) :
    d.Closed := by
  intro v w hstep
  have hv : v < d.successors.size := lt_size_of_step hstep
  rw [Step, next, Array.getElem?_eq_getElem hv, Option.getD_some] at hstep
  exact hentries _ (Array.getElem_mem hv) w hstep

/-- The search for components comes to its end with nothing out of range, and the components are the classes
of vertices that lead to each other, each vertex in one of them, with no component before one that it leads
to. -/
theorem search_components_exact {d : Digraph}
    (hentries : ∀ ws ∈ d.successors, ∀ w ∈ ws, w < d.size) :
    (Acc (fun later earlier => Search.Turn d earlier later) (0, Search.start d) ∧
      ∀ root s, ReflTransGen (Search.Turn d) (0, Search.start d) (root, s) →
        s.InRange d ∧ ((∃ later, Search.Turn d (root, s) later) ∨ s = d.search)) ∧
    (d.components.flatten.Perm (List.range d.size) ∧ [] ∉ d.components) ∧
    (∀ v w, v < d.size → w < d.size →
      ((∃ members ∈ d.components, v ∈ members ∧ w ∈ members) ↔ d.Tied v w)) ∧
    d.components.Pairwise fun earlier later =>
      ∀ v ∈ earlier, ∀ w ∈ later, ¬ ReflTransGen d.Step v w := by
  have hclosed := closed_of_entries hentries
  refine ⟨⟨?_, ?_⟩, ⟨flatten_components_perm hclosed, ?_⟩, ?_, pairwise_not_reaches_components hclosed⟩
  · exact Search.acc_turn hclosed (Search.invariant_start d) (Search.counted_start d)
  · intro root s hturns
    obtain ⟨hinvariant, hcount⟩ := Search.keeps_of_turns hclosed hturns
    exact ⟨hinvariant.inRange hclosed hcount, Search.exists_turn_or_eq_search hclosed hturns⟩
  · intro hnil
    exact (isComponent_of_mem_components hclosed hnil).ne_nil rfl
  · intro v w hv _
    exact exists_mem_components_both_iff hclosed hv

/-- Edges back to a vertex on the stack, across to a component, and forward to a vertex that is done, with
edges that repeat and a loop. -/
def knot : Digraph := ⟨#[[1, 4, 1], [2, 3], [0, 2], [3, 4], [], [0, 6], [5, 3]]⟩

theorem search_knot_components_exact :
    (∀ ws ∈ knot.successors, ∀ w ∈ ws, w < knot.size) ∧
      knot.components = [[4], [3], [2, 1, 0], [6, 5]] ∧
      knot.Tied 2 0 ∧ ¬ knot.Tied 0 3 ∧ ¬ ReflTransGen knot.Step 3 5 := by
  have hentries : ∀ ws ∈ knot.successors, ∀ w ∈ ws, w < knot.size := by decide
  have hcomponents : knot.components = [[4], [3], [2, 1, 0], [6, 5]] := by decide
  obtain ⟨_, _, hsame, horder⟩ := search_components_exact hentries
  rw [hcomponents] at hsame horder
  refine ⟨hentries, hcomponents, (hsame 2 0 (by decide) (by decide)).mp (by decide), ?_, ?_⟩
  · exact mt (hsame 0 3 (by decide) (by decide)).mpr (by decide)
  · have hlater := (List.pairwise_cons.mp (List.pairwise_cons.mp horder).2).1
    exact hlater [6, 5] (by decide) 3 (by decide) 5 (by decide)

end ProcFlow.Digraph
