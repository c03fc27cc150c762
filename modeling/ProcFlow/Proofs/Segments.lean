import Mathlib.Data.List.Nodup
import Mathlib.Logic.Relation
import Mathlib.Order.Nat
import ProcFlow.Digraph.Components
/-!
# The segments of the stack

At every moment of the search the stack falls into segments, one for each vertex that is being looked at.
The segment of a vertex holds it and, above it, the vertices met from it that are done and in no component
yet. All vertices of a segment lead to each other. The low number of the vertex is the number of a vertex
on the stack that it leads to, and it is not above the number of any vertex further down the stack that an
edge from the segment leads to.

So when a vertex is done and its low number is its own, no edge leads from its segment further down the
stack: the segment and the components found before are closed under edges, and the segment is a
component. When its low number is less, it leads further down the stack, from where everything leads to
the vertex that it was met from; so its segment and that of the other vertex become one.
-/

namespace ProcFlow.Digraph

open Relation (ReflTransGen)

/-- An edge leads from one vertex to another. -/
def Step (d : Digraph) (v w : Nat) : Prop := w ∈ d.next v

/-- No edge leads out of the graph. -/
def Closed (d : Digraph) : Prop := ∀ v w, d.Step v w → w < d.size

theorem lt_size_of_step {d : Digraph} {v w : Nat} (h : d.Step v w) : v < d.size := by
  by_contra hv
  have hnone : d.successors[v]? = none := Array.getElem?_eq_none (not_lt.mp hv)
  simp [Step, next, hnone] at h

/-- Two vertices lead to each other. -/
def Tied (d : Digraph) (v w : Nat) : Prop :=
  ReflTransGen d.Step v w ∧ ReflTransGen d.Step w v

namespace Tied

variable {d : Digraph} {u v w : Nat}

theorem refl (d : Digraph) (v : Nat) : d.Tied v v := ⟨.refl, .refl⟩

theorem symm (h : d.Tied v w) : d.Tied w v := ⟨h.2, h.1⟩

theorem trans (h : d.Tied u v) (h' : d.Tied v w) : d.Tied u w :=
  ⟨h.1.trans h'.1, h'.2.trans h.2⟩

end Tied

/-- A list holds the vertices that are tied to one of them, each once. -/
def IsComponent (d : Digraph) (members : List Nat) : Prop :=
  members.Nodup ∧ ∃ v, ∀ w, w ∈ members ↔ d.Tied v w

/-- Components that were found one after the other, the last one first: they have no vertex in common, and
no edge leads from one of them to a vertex that was not found by then. -/
inductive Settled (d : Digraph) : List (List Nat) → Prop where
  | nil : Settled d []
  | cons {members : List Nat} {found : List (List Nat)} (hfound : Settled d found)
      (hcomponent : d.IsComponent members) (hdisjoint : ∀ m ∈ found, members.Disjoint m)
      (hclosed : ∀ v ∈ members, ∀ w, d.Step v w → w ∈ members ∨ ∃ m ∈ found, w ∈ m) :
      Settled d (members :: found)

namespace Settled

variable {d : Digraph} {found : List (List Nat)} (h : Settled d found)
include h

theorem isComponent : ∀ m ∈ found, d.IsComponent m := by
  induction h with
  | nil => exact fun m hm => absurd hm List.not_mem_nil
  | cons _ hcomponent _ _ ih => exact List.forall_mem_cons.mpr ⟨hcomponent, ih⟩

theorem pairwise_disjoint : found.Pairwise List.Disjoint := by
  induction h with
  | nil => exact List.Pairwise.nil
  | cons _ _ hdisjoint _ ih => exact List.pairwise_cons.mpr ⟨hdisjoint, ih⟩

theorem mem_of_step {v w : Nat} (hv : ∃ m ∈ found, v ∈ m) (hstep : d.Step v w) :
    ∃ m ∈ found, w ∈ m := by
  induction h with
  | nil =>
      obtain ⟨m, hm, _⟩ := hv
      exact absurd hm List.not_mem_nil
  | @cons members found _ _ _ hclosed ih =>
      obtain ⟨m, hm, hv⟩ := hv
      rcases List.mem_cons.mp hm with rfl | hm
      · rcases hclosed v hv w hstep with hw | ⟨m', hm', hw⟩
        · exact ⟨m, List.mem_cons_self, hw⟩
        · exact ⟨m', List.mem_cons_of_mem _ hm', hw⟩
      · obtain ⟨m', hm', hw⟩ := ih ⟨m, hm, hv⟩
        exact ⟨m', List.mem_cons_of_mem _ hm', hw⟩

theorem mem_of_reflTransGen {v w : Nat} (hv : ∃ m ∈ found, v ∈ m) (hpath : ReflTransGen d.Step v w) :
    ∃ m ∈ found, w ∈ m := by
  induction hpath with
  | refl => exact hv
  | tail _ hstep ih => exact h.mem_of_step ih hstep

end Settled


/-! ### The stack falls into segments -/

/-- The number of a vertex that was met. -/
def order (index : Nat → Option Nat) (v : Nat) : Nat := (index v).getD 0

/-- An edge to a vertex has been taken note of: the vertex was met, and if it is further down the stack,
its number bounds the low number. -/
def Heeded (index : Nat → Option Nat) (low : Nat) (below : List Nat) (w : Nat) : Prop :=
  (index w).isSome ∧ (w ∈ below → low ≤ order index w)

/-- What holds of the segment of a vertex with some successors left, above the rest of the stack. -/
structure Segment (d : Digraph) (index : Nat → Option Nat) (low : Nat → Nat) (v : Nat)
    (rest segment below : List Nat) : Prop where
  later : ∀ x ∈ segment, order index v < order index x
  earlier : ∀ x ∈ below, order index x < order index v
  tied : ∀ x ∈ segment, d.Tied v x
  left : ∀ w ∈ rest, d.Step v w
  low_le : low v ≤ order index v
  low_reached : ∃ y ∈ v :: below, order index y = low v ∧ ReflTransGen d.Step v y
  heeded : ∀ x ∈ segment, ∀ w, d.Step x w → Heeded index (low v) below w
  heeded_or_left : ∀ w, d.Step v w → w ∈ rest ∨ Heeded index (low v) below w

/-- The stack falls into the segments of the vertices that are being looked at, each of which was met from
the one below. -/
inductive Stacked (d : Digraph) (index : Nat → Option Nat) (low : Nat → Nat) :
    List (Nat × List Nat) → List Nat → Prop where
  | nil : Stacked d index low [] []
  | cons {v : Nat} {rest segment below : List Nat} {frames : List (Nat × List Nat)}
      (hbelow : Stacked d index low frames below) (hedge : ∀ p ∈ frames.head?, d.Step p.1 v)
      (hsegment : Segment d index low v rest segment below) :
      Stacked d index low ((v, rest) :: frames) (segment ++ v :: below)

variable {d : Digraph} {index index' : Nat → Option Nat} {low low' : Nat → Nat} {v w : Nat}
  {rest segment below stack : List Nat} {frames : List (Nat × List Nat)}

/-- Numbers are given once, so a segment stays one while more vertices are met. -/
theorem Segment.congr (h : Segment d index low v rest segment below)
    (horder : ∀ x ∈ segment ++ v :: below, order index' x = order index x) (hlow : low' v = low v)
    (hmet : ∀ x, (index x).isSome → (index' x).isSome) :
    Segment d index' low' v rest segment below := by
  have hv : order index' v = order index v := horder v (by simp)
  have hsegment : ∀ x ∈ segment, order index' x = order index x :=
    fun x hx => horder x (List.mem_append_left _ hx)
  have hbelow : ∀ x ∈ below, order index' x = order index x :=
    fun x hx => horder x (List.mem_append_right _ (List.mem_cons_of_mem v hx))
  have hheeded : ∀ w, Heeded index (low v) below w → Heeded index' (low' v) below w := by
    intro w hw
    refine ⟨hmet w hw.1, fun hmem => ?_⟩
    rw [hlow, hbelow w hmem]
    exact hw.2 hmem
  obtain ⟨y, hy, hyorder, hreach⟩ := h.low_reached
  refine ⟨?_, ?_, h.tied, h.left, ?_, ⟨y, hy, ?_, hreach⟩, ?_, ?_⟩
  · intro x hx
    rw [hv, hsegment x hx]
    exact h.later x hx
  · intro x hx
    rw [hv, hbelow x hx]
    exact h.earlier x hx
  · rw [hlow, hv]
    exact h.low_le
  · rw [hlow, ← hyorder]
    exact horder y (List.mem_append_right _ hy)
  · exact fun x hx w hstep => hheeded w (h.heeded x hx w hstep)
  · exact fun w hstep => (h.heeded_or_left w hstep).imp_right (hheeded w)

theorem Stacked.congr (h : Stacked d index low frames stack)
    (horder : ∀ x ∈ stack, order index' x = order index x) (hlow : ∀ x ∈ stack, low' x = low x)
    (hmet : ∀ x, (index x).isSome → (index' x).isSome) : Stacked d index' low' frames stack := by
  induction h with
  | nil => exact Stacked.nil
  | @cons v rest segment below frames _ hedge hsegment ih =>
      have hsub : ∀ x ∈ below, x ∈ segment ++ v :: below :=
        fun x hx => List.mem_append_right _ (List.mem_cons_of_mem v hx)
      refine Stacked.cons (ih ?_ ?_) hedge (hsegment.congr horder (hlow v (by simp)) hmet)
      · exact fun x hx => horder x (hsub x hx)
      · exact fun x hx => hlow x (hsub x hx)

/-- Whatever is on the stack leads to the vertex that is being looked at. -/
theorem Stacked.reaches_head (h : Stacked d index low frames stack) {x : Nat} (hx : x ∈ stack) :
    ∃ p ∈ frames.head?, ReflTransGen d.Step x p.1 := by
  induction h with
  | nil => exact absurd hx List.not_mem_nil
  | @cons v rest segment below frames _ hedge hsegment ih =>
      refine ⟨(v, rest), rfl, ?_⟩
      rcases List.mem_append.mp hx with hx | hx
      · exact (hsegment.tied x hx).2
      · rcases List.mem_cons.mp hx with rfl | hx
        · exact ReflTransGen.refl
        · obtain ⟨p, hp, hreach⟩ := ih hx
          exact hreach.tail (hedge p hp)

theorem Stacked.eq_nil (h : Stacked d index low [] stack) : stack = [] := by
  cases h
  rfl

theorem Stacked.uncons (h : Stacked d index low ((v, rest) :: frames) stack) :
    ∃ segment below, stack = segment ++ v :: below ∧ Stacked d index low frames below ∧
      (∀ p ∈ frames.head?, d.Step p.1 v) ∧ Segment d index low v rest segment below := by
  cases h with
  | @cons _ _ segment below _ hbelow hedge hsegment =>
      exact ⟨segment, below, rfl, hbelow, hedge, hsegment⟩


/-! ### What each action does to the segments -/

theorem Stacked.enter (h : Stacked d index low frames stack)
    (hedge : ∀ p ∈ frames.head?, d.Step p.1 w) (hlater : ∀ x ∈ stack, order index x < order index w)
    (hlow : low w = order index w) : Stacked d index low ((w, d.next w) :: frames) (w :: stack) := by
  have hsegment : Segment d index low w (d.next w) [] stack :=
    { later := fun x hx => absurd hx List.not_mem_nil
      earlier := hlater
      tied := fun x hx => absurd hx List.not_mem_nil
      left := fun _ hstep => hstep
      low_le := Nat.le_of_eq hlow
      low_reached := ⟨w, List.mem_cons_self, hlow.symm, ReflTransGen.refl⟩
      heeded := fun x hx => absurd hx List.not_mem_nil
      heeded_or_left := fun _ hstep => Or.inl hstep }
  exact Stacked.cons h hedge hsegment

/-- A successor that has been taken note of is not left. -/
theorem Stacked.advance (h : Stacked d index low ((v, w :: rest) :: frames) stack)
    (hmet : (index w).isSome) (hlow : w ∈ stack → low v ≤ order index w) :
    Stacked d index low ((v, rest) :: frames) stack := by
  cases h with
  | @cons _ _ segment below _ hbelow hedge hsegment =>
      refine Stacked.cons hbelow hedge { hsegment with left := ?_, heeded_or_left := ?_ }
      · exact fun x hx => hsegment.left x (List.mem_cons_of_mem w hx)
      · intro x hstep
        rcases hsegment.heeded_or_left x hstep with hx | hx
        · rcases List.mem_cons.mp hx with rfl | hx
          · refine Or.inr ⟨hmet, fun hmem => hlow ?_⟩
            exact List.mem_append_right _ (List.mem_cons_of_mem v hmem)
          · exact Or.inl hx
        · exact Or.inr hx

/-- The low number of the vertex that is being looked at may be lowered to the number of a vertex on the
stack that it leads to. -/
theorem Stacked.lower (h : Stacked d index low ((v, rest) :: frames) stack) {y : Nat} (hy : y ∈ stack)
    (hreach : ReflTransGen d.Step v y) (hlow : low' v = min (low v) (order index y))
    (hother : ∀ x, x ≠ v → low' x = low x) : Stacked d index low' ((v, rest) :: frames) stack := by
  cases h with
  | @cons _ _ segment below _ hbelow hedge hsegment =>
      have hle : low' v ≤ low v := hlow ▸ min_le_left _ _
      have hheeded : ∀ w, Heeded index (low v) below w → Heeded index (low' v) below w :=
        fun w hw => ⟨hw.1, fun hmem => le_trans hle (hw.2 hmem)⟩
      refine Stacked.cons ?_ hedge
        { hsegment with low_le := ?_, low_reached := ?_, heeded := ?_, heeded_or_left := ?_ }
      · refine hbelow.congr (fun _ _ => rfl) (fun x hx => hother x ?_) fun _ hx => hx
        rintro rfl
        exact absurd (hsegment.earlier x hx) (lt_irrefl _)
      · exact le_trans hle hsegment.low_le
      · rcases le_total (low v) (order index y) with hmin | hmin
        · rw [hlow, min_eq_left hmin]
          exact hsegment.low_reached
        · rw [hlow, min_eq_right hmin]
          refine ⟨y, ?_, rfl, hreach⟩
          -- A vertex of the segment has too great a number.
          rcases List.mem_append.mp hy with hy | hy
          · have hlt := hsegment.later y hy
            have hbound := hsegment.low_le
            omega
          · exact hy
      · exact fun x hx w hstep => hheeded w (hsegment.heeded x hx w hstep)
      · exact fun w hstep => (hsegment.heeded_or_left w hstep).imp_right (hheeded w)

/-- A vertex that leads further down the stack is tied to the vertex it was met from, and so is all of its
segment. -/
theorem Stacked.merge {p : Nat} (hbelow : Stacked d index low ((p, rest) :: frames) below)
    (hedge : d.Step p v) (hsegment : Segment d index low v [] segment below)
    (hlt : low v < order index v) (hle : low p ≤ low v) :
    Stacked d index low ((p, rest) :: frames) (segment ++ v :: below) := by
  have htied : d.Tied p v := by
    obtain ⟨y, hy, horder, hreach⟩ := hsegment.low_reached
    rcases List.mem_cons.mp hy with rfl | hy
    · omega
    · obtain ⟨_, hhead, hback⟩ := hbelow.reaches_head hy
      cases hhead
      exact ⟨ReflTransGen.single hedge, hreach.trans hback⟩
  have hearlier := hsegment.earlier
  have hheeded : ∀ x ∈ v :: segment, ∀ w, d.Step x w → Heeded index (low v) below w := by
    intro x hx w hstep
    rcases List.mem_cons.mp hx with rfl | hx
    · exact (hsegment.heeded_or_left w hstep).resolve_left List.not_mem_nil
    · exact hsegment.heeded x hx w hstep
  cases hbelow with
  | @cons _ _ lower base _ hbase hbaseEdge hlower =>
      have hp : order index p < order index v := hearlier p (by simp)
      have hsplit : segment ++ v :: (lower ++ p :: base) = (segment ++ v :: lower) ++ p :: base := by
        simp
      have hmem : ∀ x ∈ segment ++ v :: lower, x ∈ v :: segment ∨ x ∈ lower := by
        intro x hx
        simp only [List.mem_append, List.mem_cons] at hx ⊢
        tauto
      rw [hsplit]
      refine Stacked.cons hbase hbaseEdge { hlower with later := ?_, tied := ?_, heeded := ?_ }
      · intro x hx
        rcases hmem x hx with hx | hx
        · rcases List.mem_cons.mp hx with rfl | hx
          · exact hp
          · exact lt_trans hp (hsegment.later x hx)
        · exact hlower.later x hx
      · intro x hx
        rcases hmem x hx with hx | hx
        · rcases List.mem_cons.mp hx with rfl | hx
          · exact htied
          · exact htied.trans (hsegment.tied x hx)
        · exact hlower.tied x hx
      · intro x hx w hstep
        rcases hmem x hx with hx | hx
        · obtain ⟨hmet, hlow⟩ := hheeded x hx w hstep
          refine ⟨hmet, fun hbase => le_trans hle (hlow ?_)⟩
          exact List.mem_append_right _ (List.mem_cons_of_mem p hbase)
        · exact hlower.heeded x hx w hstep

/-- The segment of a vertex that leads to none before itself is a component, once all edges from it have
been taken note of. -/
theorem Segment.settled {found : List (List Nat)} (h : Segment d index low v [] segment below)
    (hlow : low v = order index v) (hfound : Settled d found) (hnodup : (segment ++ v :: below).Nodup)
    (hmet : ∀ x, (index x).isSome → x ∈ segment ++ v :: below ∨ ∃ m ∈ found, x ∈ m)
    (hapart : ∀ x ∈ segment ++ v :: below, ∀ m ∈ found, x ∉ m) :
    Settled d ((segment ++ [v]) :: found) := by
  have hv : v ∈ segment ++ v :: below := by simp
  have hsub : ∀ x ∈ segment ++ [v], x ∈ segment ++ v :: below := by
    intro x hx
    simp only [List.mem_append, List.mem_cons] at hx ⊢
    tauto
  have hheeded : ∀ x ∈ segment ++ [v], ∀ w, d.Step x w → Heeded index (low v) below w := by
    intro x hx w hstep
    rcases List.mem_append.mp hx with hx | hx
    · exact h.heeded x hx w hstep
    · obtain rfl := List.mem_singleton.mp hx
      exact (h.heeded_or_left w hstep).resolve_left List.not_mem_nil
  -- No edge leads further down the stack, where all numbers are less than the low number.
  have hclosed : ∀ x ∈ segment ++ [v], ∀ w, d.Step x w → w ∈ segment ++ [v] ∨ ∃ m ∈ found, w ∈ m := by
    intro x hx w hstep
    obtain ⟨hw, hbound⟩ := hheeded x hx w hstep
    rcases hmet w hw with hw | hw
    · have hnot : w ∉ below := by
        intro hmem
        have hearlier := h.earlier w hmem
        have hle := hbound hmem
        omega
      left
      simp only [List.mem_append, List.mem_cons] at hw ⊢
      tauto
    · exact Or.inr hw
  have hreached : ∀ w, ReflTransGen d.Step v w → w ∈ segment ++ [v] ∨ ∃ m ∈ found, w ∈ m := by
    intro w hpath
    induction hpath with
    | refl => exact Or.inl (by simp)
    | tail _ hstep ih =>
        rcases ih with ih | ih
        · exact hclosed _ ih _ hstep
        · exact Or.inr (hfound.mem_of_step ih hstep)
  refine Settled.cons hfound ⟨?_, v, fun w => ⟨?_, ?_⟩⟩ ?_ hclosed
  · rw [List.append_cons] at hnodup
    exact hnodup.of_append_left
  · intro hw
    rcases List.mem_append.mp hw with hw | hw
    · exact h.tied w hw
    · rw [List.mem_singleton.mp hw]
      exact Tied.refl d v
  · intro htied
    rcases hreached w htied.1 with hw | hw
    · exact hw
    · -- A component found before would hold the vertex itself.
      obtain ⟨m, hm, hmem⟩ := hfound.mem_of_reflTransGen hw htied.2
      exact absurd hmem (hapart v hv m hm)
  · exact fun m hm x hx hxm => hapart x (hsub x hx) m hm hxm

end ProcFlow.Digraph
