import Mathlib.Algebra.BigOperators.Fin
import Mathlib.Algebra.Order.BigOperators.Group.Finset
import ProcFlow.Proofs.Segments
/-!
# The search finds the components

What holds at every moment of the search: the stack falls into segments, and the vertices that were met
are those on the stack and those in components. Each action keeps this. Each step also takes off one from
the number of edges that were not looked at and vertices that were not left, so the search comes to its
end within the number of all edges and vertices, and then every vertex is in a component.
-/

namespace ProcFlow.Digraph

open Relation (ReflTransGen)
open scoped BigOperators

namespace Search

variable {d : Digraph} {s : Search} {v w : Nat} {rest : List Nat} {frames : List (Nat × List Nat)}


/-! ### What the actions do to the arrays and the stack -/

theorem getD_setIfInBounds {α : Type} {a : Array α} {i : Nat} (hi : i < a.size) (x z : α) (j : Nat) :
    (a.setIfInBounds i x)[j]?.getD z = if j = i then x else a[j]?.getD z := by
  rw [Array.getElem?_setIfInBounds]
  by_cases hj : j = i
  · simp [hj, hi]
  · simp [hj, Ne.symm hj]

theorem lt_size_of_met (hv : (s.index? v).isSome) : v < s.index.size := by
  by_contra hlt
  simp [index?, Array.getElem?_eq_none (not_lt.mp hlt)] at hv

theorem index?_enter (hsize : s.index.size = d.size) (hw : w < d.size) (x : Nat) :
    (s.enter d w).index? x = if x = w then some s.count else s.index? x :=
  getD_setIfInBounds (hsize.symm ▸ hw) _ _ x

theorem look_of_none (hindex : s.index? w = none) : s.look d v w = s.enter d w := by
  rw [look, hindex]

theorem look_of_some {i : Nat} (hindex : s.index? w = some i) :
    s.look d v w = if s.waits w then s.lower v i else s := by
  rw [look, hindex]

theorem step_eq_leave (hframes : s.frames = (v, []) :: frames) :
    s.step d = { s with frames }.leave v := by
  rw [step, hframes]

theorem step_eq_look (hframes : s.frames = (v, w :: rest) :: frames) :
    s.step d = { s with frames := (v, rest) :: frames }.look d v w := by
  rw [step, hframes]

theorem close_eq {segment below : List Nat} (hstack : s.stack = segment ++ v :: below)
    (hv : v ∉ segment) :
    s.close v = { s with
      stack := below
      onStack := (segment ++ [v]).foldl (fun onStack w => onStack.setIfInBounds w false) s.onStack
      found := (segment ++ [v]) :: s.found } := by
  have hne : ∀ x ∈ segment, decide (x ≠ v) = true :=
    fun x hx => decide_eq_true fun heq => hv (heq ▸ hx)
  have hmembers : s.stack.takeWhile (· ≠ v) = segment := by
    rw [hstack, List.takeWhile_append_of_pos hne, List.takeWhile_cons_of_neg (by simp), List.append_nil]
  have hdrop : s.stack.drop (segment ++ [v]).length = below := by
    rw [hstack, List.append_cons segment v below]
    exact List.drop_left
  rw [close, hmembers, hdrop]

theorem size_foldl_clear (members : List Nat) (onStack : Array Bool) :
    (members.foldl (fun onStack w => onStack.setIfInBounds w false) onStack).size = onStack.size := by
  induction members generalizing onStack with
  | nil => rfl
  | cons w members ih => exact (ih _).trans Array.size_setIfInBounds

theorem getD_foldl_clear (members : List Nat) (onStack : Array Bool) (x : Nat) :
    (members.foldl (fun onStack w => onStack.setIfInBounds w false) onStack)[x]?.getD false = true
      ↔ onStack[x]?.getD false = true ∧ x ∉ members := by
  induction members generalizing onStack with
  | nil => simp
  | cons w members ih =>
      rw [List.foldl_cons, ih, Array.getElem?_setIfInBounds, List.mem_cons, not_or]
      by_cases hx : w = x
      · by_cases hlt : w < onStack.size <;> simp [hx.symm, hlt]
      · simp [hx, Ne.symm hx]


/-! ### The invariant of the search -/

/-- What holds at every moment of the search. -/
structure Invariant (d : Digraph) (s : Search) : Prop where
  size_index : s.index.size = d.size
  size_low : s.low.size = d.size
  size_onStack : s.onStack.size = d.size
  lt_size : ∀ v ∈ s.stack, v < d.size
  stacked : Stacked d s.index? s.lowOf s.frames s.stack
  waits_iff : ∀ v, s.waits v = true ↔ v ∈ s.stack
  met_iff : ∀ v, (s.index? v).isSome ↔ v ∈ s.stack ∨ ∃ m ∈ s.found, v ∈ m
  lt_count : ∀ v i, s.index? v = some i → i < s.count
  nodup : s.stack.Nodup
  settled : Settled d s.found
  apart : ∀ v ∈ s.stack, ∀ m ∈ s.found, v ∉ m

theorem invariant_start (d : Digraph) : (start d).Invariant d where
  size_index := Array.size_replicate
  size_low := Array.size_replicate
  size_onStack := Array.size_replicate
  lt_size := fun v hv => absurd hv List.not_mem_nil
  stacked := Stacked.nil
  waits_iff := by
    intro v
    by_cases hv : v < d.size <;> simp [waits, start, hv]
  met_iff := by
    intro v
    by_cases hv : v < d.size <;> simp [index?, start, hv]
  lt_count := by
    intro v i hi
    by_cases hv : v < d.size <;> simp [index?, start, hv] at hi
  nodup := List.nodup_nil
  settled := Settled.nil
  apart := fun v hv => absurd hv List.not_mem_nil

namespace Invariant

variable (h : s.Invariant d)
include h

theorem index?_eq {x : Nat} (hx : x ∈ s.stack) : s.index? x = some (order s.index? x) := by
  obtain ⟨i, hi⟩ := Option.isSome_iff_exists.mp ((h.met_iff x).mpr (Or.inl hx))
  rw [order, hi]
  rfl

theorem order_lt {x : Nat} (hx : x ∈ s.stack) : order s.index? x < s.count :=
  h.lt_count x _ (h.index?_eq hx)

theorem lowOf_enter (hw : w < d.size) (x : Nat) :
    (s.enter d w).lowOf x = if x = w then s.count else s.lowOf x :=
  getD_setIfInBounds (h.size_low.symm ▸ hw) _ _ x

theorem waits_enter (hw : w < d.size) (x : Nat) :
    (s.enter d w).waits x = if x = w then true else s.waits x :=
  getD_setIfInBounds (h.size_onStack.symm ▸ hw) _ _ x

theorem lowOf_lower (hv : v < d.size) (i x : Nat) :
    (s.lower v i).lowOf x = if x = v then min (s.lowOf v) i else s.lowOf x :=
  getD_setIfInBounds (h.size_low.symm ▸ hv) _ _ x

theorem of_stacked {low : Array Nat} (hsize : low.size = d.size)
    (hstacked : Stacked d s.index? (fun x => low[x]?.getD 0) frames s.stack) :
    { s with low, frames }.Invariant d :=
  { h with size_low := hsize, stacked := hstacked }


/-! ### Meeting a vertex -/

theorem not_mem_stack (hnew : s.index? w = none) : w ∉ s.stack := by
  intro hmem
  have hmet := (h.met_iff w).mpr (Or.inl hmem)
  rw [hnew] at hmet
  cases hmet

section Enter

variable (hw : w < d.size) (hnew : s.index? w = none)
include hw hnew

theorem stacked_enter : Stacked d (s.enter d w).index? (s.enter d w).lowOf s.frames s.stack := by
  have hne : ∀ x ∈ s.stack, x ≠ w := by
    rintro x hx rfl
    exact h.not_mem_stack hnew hx
  refine h.stacked.congr ?_ ?_ ?_
  · intro x hx
    rw [order, order, index?_enter h.size_index hw, if_neg (hne x hx)]
  · intro x hx
    rw [h.lowOf_enter hw, if_neg (hne x hx)]
  · intro x hx
    rw [index?_enter h.size_index hw]
    split
    · rfl
    · exact hx

theorem enter (hstacked : Stacked d (s.enter d w).index? (s.enter d w).lowOf frames s.stack)
    (hedge : ∀ p ∈ frames.head?, d.Step p.1 w) : ({ s with frames }.enter d w).Invariant d := by
  have hnot := h.not_mem_stack hnew
  have hindex := index?_enter h.size_index hw
  have horder : order (s.enter d w).index? w = s.count := by rw [order, hindex, if_pos rfl]; rfl
  have hlater : ∀ x ∈ s.stack, order (s.enter d w).index? x < order (s.enter d w).index? w := by
    intro x hx
    have hne : x ≠ w := fun heq => hnot (heq ▸ hx)
    rw [horder, order, hindex, if_neg hne]
    exact h.order_lt hx
  have hlow : (s.enter d w).lowOf w = order (s.enter d w).index? w := by
    rw [horder, h.lowOf_enter hw, if_pos rfl]
  exact
    { size_index := Array.size_setIfInBounds.trans h.size_index
      size_low := Array.size_setIfInBounds.trans h.size_low
      size_onStack := Array.size_setIfInBounds.trans h.size_onStack
      lt_size := List.forall_mem_cons.mpr ⟨hw, h.lt_size⟩
      stacked := hstacked.enter hedge hlater hlow
      waits_iff := by
        intro x
        refine Iff.trans (Bool.eq_iff_iff.mp (h.waits_enter hw x)) ?_
        by_cases hx : x = w
        · simp [hx, Search.enter]
        · simp [hx, Search.enter, h.waits_iff x]
      met_iff := by
        intro x
        refine Iff.trans (Bool.eq_iff_iff.mp (congrArg Option.isSome (hindex x))) ?_
        by_cases hx : x = w
        · simp [hx, Search.enter]
        · simp [hx, Search.enter, h.met_iff x]
      lt_count := by
        intro x i hi
        have hi' := (hindex x).symm.trans hi
        split at hi'
        · cases hi'
          exact Nat.lt_succ_self _
        · exact Nat.lt_succ_of_lt (h.lt_count x i hi')
      nodup := List.nodup_cons.mpr ⟨hnot, h.nodup⟩
      settled := h.settled
      apart := by
        refine List.forall_mem_cons.mpr ⟨fun m hm hmem => ?_, h.apart⟩
        have hmet := (h.met_iff w).mpr (Or.inr ⟨m, hm, hmem⟩)
        rw [hnew] at hmet
        cases hmet }

end Enter


/-! ### Looking at a successor -/

theorem look (hclosed : d.Closed) (hframes : s.frames = (v, w :: rest) :: frames) :
    (Search.look d { s with frames := (v, rest) :: frames } v w).Invariant d := by
  have hstacked : Stacked d s.index? s.lowOf ((v, w :: rest) :: frames) s.stack := hframes ▸ h.stacked
  obtain ⟨segment, below, hstack, _, _, hsegment⟩ := hstacked.uncons
  have hstep : d.Step v w := hsegment.left w List.mem_cons_self
  have hv : v ∈ s.stack := hstack ▸ List.mem_append_right segment List.mem_cons_self
  rcases hindex : s.index? w with _ | i
  · have hw := hclosed v w hstep
    have hmet : ((s.enter d w).index? w).isSome := by
      rw [index?_enter h.size_index hw, if_pos rfl]
      rfl
    have hentered := hframes ▸ h.stacked_enter hw hindex
    have hadvanced := hentered.advance hmet fun hmem => absurd hmem (h.not_mem_stack hindex)
    rw [look_of_none (s := { s with frames := (v, rest) :: frames }) hindex]
    exact h.enter hw hindex hadvanced fun p hp => Option.mem_some.mp hp ▸ hstep
  · have hmet : (s.index? w).isSome := by
      rw [hindex]
      rfl
    rw [look_of_some (s := { s with frames := (v, rest) :: frames }) hindex]
    split
    · next hwaits =>
      have hlowOf := h.lowOf_lower (h.lt_size v hv) i
      have hmin : (s.lower v i).lowOf v = min (s.lowOf v) (order s.index? w) := by
        rw [hlowOf, if_pos rfl, order, hindex]
        rfl
      have hlowered := hstacked.lower ((h.waits_iff w).mp hwaits) (ReflTransGen.single hstep) hmin
        fun x hx => by rw [hlowOf, if_neg hx]
      refine h.of_stacked (Array.size_setIfInBounds.trans h.size_low) ?_
      exact hlowered.advance hmet fun _ => hmin ▸ min_le_right _ _
    · next hwaits =>
      refine h.of_stacked h.size_low (hstacked.advance hmet fun hmem => ?_)
      exact absurd ((h.waits_iff w).mpr hmem) hwaits


/-! ### Being done with a vertex -/

/-- A vertex that leads to none before itself is the first of a component. -/
theorem close (hframes : s.frames = (v, []) :: frames) (hroot : s.lowOf v = order s.index? v)
    {low : Array Nat} (hsize : low.size = d.size) (hlow : ∀ x, low[x]?.getD 0 = s.lowOf x) :
    ({ s with low, frames }.close v).Invariant d := by
  obtain ⟨segment, below, hstack, hbelow, _, hsegment⟩ := Stacked.uncons (hframes ▸ h.stacked)
  have hnodup : (segment ++ v :: below).Nodup := hstack ▸ h.nodup
  have hsettled := hsegment.settled hroot h.settled hnodup
    (fun x hx => hstack ▸ (h.met_iff x).mp hx) fun x hx => h.apart x (hstack ▸ hx)
  have hv : v ∉ segment := fun hmem => absurd (hsegment.later v hmem) (lt_irrefl _)
  have hsplit : s.stack = (segment ++ [v]) ++ below := hstack.trans (List.append_cons segment v below)
  have hdisjoint : (segment ++ [v]).Disjoint below :=
    (List.nodup_append'.mp (hsplit ▸ h.nodup)).2.2
  have hbelowMem : ∀ x, x ∈ below ↔ x ∈ s.stack ∧ x ∉ segment ++ [v] := by
    intro x
    rw [hsplit, List.mem_append]
    exact ⟨fun hx => ⟨Or.inr hx, fun hmem => hdisjoint hmem hx⟩, fun hx => hx.1.resolve_left hx.2⟩
  rw [close_eq (s := { s with low, frames }) hstack hv]
  exact
    { size_index := h.size_index
      size_low := hsize
      size_onStack := (size_foldl_clear _ _).trans h.size_onStack
      lt_size := fun x hx => h.lt_size x ((hbelowMem x).mp hx).1
      stacked := hbelow.congr (fun _ _ => rfl) (fun x _ => hlow x) fun _ hx => hx
      waits_iff := by
        intro x
        rw [hbelowMem x, ← h.waits_iff x]
        exact getD_foldl_clear _ _ x
      met_iff := by
        intro x
        refine (h.met_iff x).trans ?_
        rw [hsplit, List.mem_append, List.exists_mem_cons_iff]
        tauto
      lt_count := h.lt_count
      nodup := (List.nodup_append'.mp hnodup).2.1.of_cons
      settled := hsettled
      apart := by
        intro x hx
        have hx' := (hbelowMem x).mp hx
        exact List.forall_mem_cons.mpr ⟨hx'.2, h.apart x hx'.1⟩ }

/-- The vertex that another was met from is before it on the stack, and so is whatever it is known to lead
to. -/
theorem parent {p : Nat} (hframes : s.frames = (v, []) :: (p, rest) :: frames) :
    p < d.size ∧ s.lowOf p ≤ order s.index? p ∧ order s.index? p < order s.index? v := by
  obtain ⟨segment, below, hstack, hbelow, _, hsegment⟩ := Stacked.uncons (hframes ▸ h.stacked)
  obtain ⟨lower, base, hbase, _, _, hlower⟩ := hbelow.uncons
  have hp : p ∈ below := hbase ▸ List.mem_append_right lower List.mem_cons_self
  have hlt := h.lt_size p (hstack ▸ List.mem_append_right segment (List.mem_cons_of_mem v hp))
  exact ⟨hlt, hlower.low_le, hsegment.earlier p hp⟩

/-- A vertex that leads further down the stack leaves its segment to the vertex it was met from. -/
theorem merge {p : Nat} (hframes : s.frames = (v, []) :: (p, rest) :: frames)
    (hlt : s.lowOf v < order s.index? v) :
    ({ s with frames := (p, rest) :: frames }.lower p (s.lowOf v)).Invariant d := by
  obtain ⟨segment, below, hstack, hbelow, hedge, hsegment⟩ := Stacked.uncons (hframes ▸ h.stacked)
  obtain ⟨hp, _, hearlier⟩ := h.parent hframes
  have hstep : d.Step p v := hedge (p, rest) rfl
  have hlowOf := h.lowOf_lower hp (s.lowOf v)
  have hother : ∀ x, x ≠ p → (s.lower p (s.lowOf v)).lowOf x = s.lowOf x :=
    fun x hx => by rw [hlowOf, if_neg hx]
  have hkept := hother v fun heq => absurd hearlier (heq ▸ lt_irrefl _)
  obtain ⟨y, hy, horder, hreach⟩ := hsegment.low_reached
  have hmem : y ∈ below := by
    rcases List.mem_cons.mp hy with rfl | hy
    · omega
    · exact hy
  have hlowered := hbelow.lower hmem (hreach.head hstep) (by rw [hlowOf, if_pos rfl, horder]) hother
  have hmerged := hlowered.merge hstep (hsegment.congr (fun _ _ => rfl) hkept fun _ hx => hx)
    (by rw [hkept]; exact hlt) (by rw [hkept, hlowOf, if_pos rfl]; exact min_le_right _ _)
  exact h.of_stacked (Array.size_setIfInBounds.trans h.size_low) (hstack ▸ hmerged)

theorem leave (hframes : s.frames = (v, []) :: frames) :
    ({ s with frames }.leave v).Invariant d := by
  obtain ⟨segment, below, hstack, hbelow, _, hsegment⟩ := Stacked.uncons (hframes ▸ h.stacked)
  have hv : v ∈ s.stack := hstack ▸ List.mem_append_right segment List.mem_cons_self
  have hindex := h.index?_eq hv
  rcases frames with _ | ⟨⟨p, rest⟩, frames⟩
  · -- At the bottom of the stack there is nothing before the vertex to lead to.
    have hroot : s.lowOf v = order s.index? v := by
      obtain ⟨y, hy, horder, _⟩ := hsegment.low_reached
      rw [hbelow.eq_nil, List.mem_singleton] at hy
      rw [← horder, hy]
    have hleave : { s with frames := [] }.leave v = { s with frames := [] }.close v :=
      if_pos (hindex.trans (congrArg some hroot.symm))
    rw [hleave]
    exact h.close hframes hroot h.size_low fun _ => rfl
  · obtain ⟨hp, hlow, hearlier⟩ := h.parent hframes
    have hlowOf := h.lowOf_lower hp (s.lowOf v)
    have hne : v ≠ p := fun heq => absurd hearlier (heq ▸ lt_irrefl _)
    have hkept : (s.lower p (s.lowOf v)).lowOf v = s.lowOf v := by rw [hlowOf, if_neg hne]
    have hleave : { s with frames := (p, rest) :: frames }.leave v
        = if s.index? v = some ((s.lower p (s.lowOf v)).lowOf v)
          then ({ s with frames := (p, rest) :: frames }.lower p (s.lowOf v)).close v
          else { s with frames := (p, rest) :: frames }.lower p (s.lowOf v) := rfl
    rw [hleave, hkept, hindex]
    split
    · next hroot =>
      have hroot := (Option.some.inj hroot).symm
      -- The other vertex is known to lead further down than this one.
      refine h.close hframes hroot (Array.size_setIfInBounds.trans h.size_low) fun x => ?_
      refine (hlowOf x).trans ?_
      split
      · next hx => rw [hx, min_eq_left (by omega)]
      · rfl
    · next hroot =>
      have hlt : s.lowOf v < order s.index? v :=
        lt_of_le_of_ne hsegment.low_le fun heq => hroot (congrArg some heq.symm)
      exact h.merge hframes hlt

theorem step (hclosed : d.Closed) : (s.step d).Invariant d := by
  rcases hframes : s.frames with _ | ⟨⟨v, _ | ⟨w, rest⟩⟩, frames⟩
  · rw [Search.step, hframes]
    exact h
  · rw [step_eq_leave hframes]
    exact h.leave hframes
  · rw [step_eq_look hframes]
    exact h.look hclosed hframes

end Invariant


/-! ### The search comes to its end -/

/-- The vertices that were not met and the edges from them. -/
def unmet (d : Digraph) (index : Nat → Option Nat) : Nat :=
  ∑ v ∈ (Finset.range d.size).filter fun v => index v = none, ((d.next v).length + 1)

/-- The vertices that are to be left and the edges that are to be looked at. -/
def todo (d : Digraph) (s : Search) : Nat :=
  unmet d s.index? + (s.frames.map fun frame => frame.2.length + 1).sum

theorem unmet_le (d : Digraph) (index : Nat → Option Nat) : unmet d index ≤ d.edgeCount + d.size := by
  have hnext : ∀ i : Fin d.successors.toList.length,
      (d.next i).length = (d.successors.toList.get i).length := by
    intro i
    have hi : i.val < d.successors.size := i.isLt
    simp [next, hi]
  calc unmet d index
      ≤ ∑ v ∈ Finset.range d.size, ((d.next v).length + 1) :=
        Finset.sum_le_sum_of_subset (Finset.filter_subset _ _)
    _ = ∑ v ∈ Finset.range d.size, (d.next v).length + d.size := by
        rw [Finset.sum_add_distrib, Finset.sum_const, Finset.card_range, smul_eq_mul, mul_one]
    _ = d.edgeCount + d.size := by
        rw [edgeCount, List.length_flatten, size, ← Array.length_toList, Finset.sum_range,
          Finset.sum_congr rfl fun i _ => hnext i]
        exact congrArg (· + _) (Fin.sum_univ_fun_getElem d.successors.toList List.length)

theorem filter_index?_enter (hsize : s.index.size = d.size) (hw : w < d.size) :
    ((Finset.range d.size).filter fun x => (s.enter d w).index? x = none)
      = ((Finset.range d.size).filter fun x => s.index? x = none).erase w := by
  ext x
  rw [Finset.mem_erase, Finset.mem_filter, Finset.mem_filter, index?_enter hsize hw]
  by_cases hx : x = w <;> simp [hx]

theorem todo_enter (hsize : s.index.size = d.size) (hw : w < d.size) (hnew : s.index? w = none) :
    todo d (s.enter d w) = todo d s := by
  have hmem : w ∈ (Finset.range d.size).filter fun x => s.index? x = none := by
    simp [hw, hnew]
  have hsum : unmet d (s.enter d w).index? + ((d.next w).length + 1) = unmet d s.index? := by
    rw [unmet, unmet, filter_index?_enter hsize hw]
    exact Finset.sum_erase_add _ _ hmem
  rw [todo, todo, ← hsum, add_assoc]
  rfl

theorem todo_look (hsize : s.index.size = d.size) (hw : w < d.size) :
    todo d (s.look d v w) = todo d s := by
  rcases hindex : s.index? w with _ | i
  · rw [look_of_none hindex]
    exact todo_enter hsize hw hindex
  · rw [look_of_some hindex]
    split <;> rfl

theorem index_leave (s : Search) (v : Nat) : (s.leave v).index = s.index := by
  rw [leave]
  split <;> split <;> rfl

theorem frames_leave (s : Search) (v : Nat) : (s.leave v).frames = s.frames := by
  rw [leave]
  split <;> split <;> rfl

theorem index?_leave (s : Search) (v : Nat) : (s.leave v).index? = s.index? := by
  funext x
  rw [index?, index?, index_leave]

theorem todo_leave (s : Search) (v : Nat) : todo d (s.leave v) = todo d s := by
  rw [todo, todo, index?_leave, frames_leave]

theorem todo_frames (d : Digraph) (s : Search) (frames : List (Nat × List Nat)) :
    todo d { s with frames } = unmet d s.index? + (frames.map fun frame => frame.2.length + 1).sum :=
  rfl

theorem Invariant.todo_step (h : s.Invariant d) (hclosed : d.Closed) (hframes : s.frames ≠ []) :
    todo d (s.step d) + 1 = todo d s := by
  rcases hhead : s.frames with _ | ⟨⟨v, _ | ⟨w, rest⟩⟩, frames⟩
  · exact absurd hhead hframes
  · rw [step_eq_leave hhead, todo_leave, todo_frames, todo, hhead, List.map_cons, List.sum_cons,
      List.length_nil]
    omega
  · obtain ⟨_, _, _, _, _, hsegment⟩ := Stacked.uncons (hhead ▸ h.stacked)
    have hw := hclosed v w (hsegment.left w List.mem_cons_self)
    rw [step_eq_look hhead,
      todo_look (s := { s with frames := (v, rest) :: frames }) h.size_index hw, todo_frames, todo, hhead]
    simp only [List.map_cons, List.sum_cons, List.length_cons]
    omega

theorem isSome_index?_enter (hv : (s.index? v).isSome) : ((s.enter d w).index? v).isSome := by
  rw [index?, enter, Array.getElem?_setIfInBounds]
  by_cases hw : w = v
  · simp [hw, lt_size_of_met hv]
  · rwa [if_neg hw]

theorem isSome_index?_look (hv : (s.index? v).isSome) (u w : Nat) :
    ((s.look d u w).index? v).isSome := by
  rcases hindex : s.index? w with _ | i
  · rw [look_of_none hindex]
    exact isSome_index?_enter hv
  · rw [look_of_some hindex]
    split
    · exact hv
    · exact hv

theorem isSome_index?_step (hv : (s.index? v).isSome) : ((s.step d).index? v).isSome := by
  rcases hhead : s.frames with _ | ⟨⟨u, _ | ⟨w, rest⟩⟩, frames⟩
  · rw [Search.step, hhead]
    exact hv
  · rw [step_eq_leave hhead, index?_leave]
    exact hv
  · rw [step_eq_look hhead]
    exact isSome_index?_look (s := { s with frames := (u, rest) :: frames }) hv u w

/-- A later moment of the search, when nothing is being looked at. -/
structure Rests (d : Digraph) (s s' : Search) : Prop where
  invariant : s'.Invariant d
  frames_eq_nil : s'.frames = []
  met : ∀ v, (s.index? v).isSome → (s'.index? v).isSome

theorem Invariant.run (h : s.Invariant d) (hclosed : d.Closed) {steps : Nat}
    (hsteps : todo d s ≤ steps) : Rests d s (s.run d steps) := by
  fun_induction Search.run d steps s with
  | case1 s =>
      refine ⟨h, ?_, fun _ hv => hv⟩
      rcases hframes : s.frames with _ | ⟨frame, frames⟩
      · rfl
      · rw [todo, hframes, List.map_cons, List.sum_cons] at hsteps
        omega
  | case2 steps s hempty => exact ⟨h, List.isEmpty_iff.mp hempty, fun _ hv => hv⟩
  | case3 steps s hempty ih =>
      have hframes : s.frames ≠ [] := fun hnil => hempty (List.isEmpty_iff.mpr hnil)
      have htodo := h.todo_step hclosed hframes
      have hrest := ih (h.step hclosed) (by omega)
      exact { hrest with met := fun v hv => hrest.met v (isSome_index?_step hv) }

theorem Invariant.visit (h : s.Invariant d) (hclosed : d.Closed) (hframes : s.frames = []) {root : Nat}
    (hroot : root < d.size) :
    Rests d s (s.visit d (d.edgeCount + d.size) root) ∧
      ((s.visit d (d.edgeCount + d.size) root).index? root).isSome := by
  rcases hindex : s.index? root with _ | i
  · have hentered : (s.enter d root).Invariant d := by
      refine h.enter hroot hindex (h.stacked_enter hroot hindex) fun p hp => ?_
      rw [hframes] at hp
      cases hp
    have htodo : todo d (s.enter d root) ≤ d.edgeCount + d.size := by
      rw [todo_enter h.size_index hroot hindex, todo, hframes]
      exact unmet_le d s.index?
    have hrest := hentered.run hclosed htodo
    rw [Search.visit, hindex, Option.isSome_none, if_neg Bool.false_ne_true]
    refine ⟨{ hrest with met := fun v hv => hrest.met v (isSome_index?_enter hv) }, hrest.met root ?_⟩
    rw [index?_enter h.size_index hroot, if_pos rfl]
    rfl
  · rw [Search.visit, hindex, Option.isSome_some, if_pos rfl]
    exact ⟨⟨h, hframes, fun _ hv => hv⟩, by rw [hindex]; rfl⟩

theorem Invariant.visits (hclosed : d.Closed) {roots : List Nat} (hroots : ∀ root ∈ roots, root < d.size)
    (h : s.Invariant d) (hframes : s.frames = []) :
    Rests d s (roots.foldl (Search.visit d (d.edgeCount + d.size)) s) ∧
      ∀ root ∈ roots,
        ((roots.foldl (Search.visit d (d.edgeCount + d.size)) s).index? root).isSome := by
  induction roots generalizing s with
  | nil => exact ⟨⟨h, hframes, fun _ hv => hv⟩, fun root hmem => absurd hmem List.not_mem_nil⟩
  | cons root roots ih =>
      obtain ⟨hroot, hroots⟩ := List.forall_mem_cons.mp hroots
      obtain ⟨hfirst, hmet⟩ := h.visit hclosed hframes hroot
      obtain ⟨hrest, hmets⟩ := ih hroots hfirst.invariant hfirst.frames_eq_nil
      refine ⟨{ hrest with met := fun v hv => hrest.met v (hfirst.met v hv) }, ?_⟩
      exact List.forall_mem_cons.mpr ⟨hrest.met root hmet, hmets⟩

end Search

/-- The search puts every vertex into a component. -/
theorem search_settled {d : Digraph} (hclosed : d.Closed) :
    d.Settled d.search.found ∧ ∀ v, (∃ members ∈ d.search.found, v ∈ members) ↔ v < d.size := by
  obtain ⟨⟨h, hframes, _⟩, hmet⟩ := Search.Invariant.visits hclosed
    (fun v hv => List.mem_range.mp hv) (Search.invariant_start d) rfl
  have hstack := Stacked.eq_nil (hframes ▸ h.stacked)
  have hmem : ∀ v, (d.search.index? v).isSome ↔ ∃ members ∈ d.search.found, v ∈ members := by
    intro v
    refine (h.met_iff v).trans ?_
    rw [hstack, or_iff_right List.not_mem_nil]
    rfl
  refine ⟨h.settled, fun v => ⟨?_, ?_⟩⟩
  · intro hv
    exact h.size_index ▸ Search.lt_size_of_met ((hmem v).mpr hv)
  · intro hv
    exact (hmem v).mp (hmet v (List.mem_range.mpr hv))

end ProcFlow.Digraph
