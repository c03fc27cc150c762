import Mathlib.Data.List.Sort
import ProcFlow.Proofs.Search
/-!
# Components and cycles

The search lists the strongly connected components: each of them once, without overlap, and all vertices
among them. A component holds a cycle exactly if its vertices lead back to themselves along at least one
edge. So the listed cycles are the components of the vertices that do, each ascending; no two of them
share a vertex, and listing them by their least vertices leaves no ties.
-/

namespace ProcFlow.Digraph

open Relation (ReflTransGen TransGen)

variable {d : Digraph} {members : List Nat} {v w : Nat}

theorem IsComponent.mem_iff (h : d.IsComponent members) (hv : v ∈ members) :
    w ∈ members ↔ d.Tied v w := by
  obtain ⟨_, u, hmem⟩ := h
  have huv := (hmem v).mp hv
  rw [hmem w]
  exact ⟨fun huw => huv.symm.trans huw, fun hvw => huv.trans hvw⟩


/-! ### The listed components -/

theorem isComponent_of_mem_components (hclosed : d.Closed) (h : members ∈ d.components) :
    d.IsComponent members :=
  (search_settled hclosed).1.isComponent members (List.mem_reverse.mp h)

theorem pairwise_disjoint_components (hclosed : d.Closed) : d.components.Pairwise List.Disjoint := by
  rw [components, List.pairwise_reverse]
  exact (search_settled hclosed).1.pairwise_disjoint.imp fun h => h.symm

theorem exists_mem_components_iff (hclosed : d.Closed) :
    (∃ members ∈ d.components, v ∈ members) ↔ v < d.size := by
  simp only [components, List.mem_reverse]
  exact (search_settled hclosed).2 v


/-! ### The listed cycles -/

theorem IsComponent.isCyclic_iff (h : d.IsComponent members) (hv : v ∈ members) :
    d.isCyclic members = true ↔ TransGen d.Step v v := by
  rcases hmembers : members with _ | ⟨a, _ | ⟨b, rest⟩⟩
  · rw [hmembers] at hv
    exact absurd hv List.not_mem_nil
  · have ha : v = a := by
      rw [hmembers] at hv
      exact List.mem_singleton.mp hv
    subst ha
    rw [isCyclic, decide_eq_true_iff]
    refine ⟨?_, ?_⟩
    · exact fun hloop => TransGen.single hloop
    · intro hcycle
      -- The first vertex of the way back is in the component, so it is `v` itself.
      obtain ⟨w, hstep, hback⟩ := TransGen.head'_iff.mp hcycle
      have hw : w ∈ members := (h.mem_iff hv).mpr ⟨ReflTransGen.single hstep, hback⟩
      rw [hmembers, List.mem_singleton] at hw
      rwa [hw] at hstep
  · simp only [isCyclic, true_iff]
    -- Two vertices differ, so one of them is another vertex than `v`.
    have hother : ∃ w ∈ members, w ≠ v := by
      have hnodup := h.1
      rw [hmembers] at hnodup ⊢
      by_cases ha : a = v
      · refine ⟨b, by simp, ?_⟩
        rintro rfl
        simp [ha] at hnodup
      · exact ⟨a, by simp, ha⟩
    obtain ⟨w, hw, hne⟩ := hother
    obtain ⟨hvw, hwv⟩ := (h.mem_iff hv).mp hw
    rcases Relation.reflTransGen_iff_eq_or_transGen.mp hvw with heq | htrans
    · exact absurd heq hne
    · exact TransGen.trans_left htrans hwv

theorem mem_cycles_iff_component : members ∈ d.cycles
    ↔ ∃ component ∈ d.components, d.isCyclic component = true ∧ component.mergeSort = members := by
  simp only [cycles, List.mem_mergeSort, List.mem_map, List.mem_filter, and_assoc]

theorem exists_mem_cycles_iff (d : Digraph) (hclosed : d.Closed) (v : Nat) :
    (∃ members ∈ d.cycles, v ∈ members) ↔ TransGen d.Step v v := by
  refine ⟨?_, ?_⟩
  · intro hleft
    obtain ⟨_, hmem, hv⟩ := hleft
    obtain ⟨component, hcomponent, hcyclic, rfl⟩ := mem_cycles_iff_component.mp hmem
    rw [List.mem_mergeSort] at hv
    exact ((isComponent_of_mem_components hclosed hcomponent).isCyclic_iff hv).mp hcyclic
  · intro hcycle
    obtain ⟨w, hstep, _⟩ := TransGen.head'_iff.mp hcycle
    obtain ⟨component, hcomponent, hv⟩ := (exists_mem_components_iff hclosed).mpr (lt_size_of_step hstep)
    have hcyclic :=
      ((isComponent_of_mem_components hclosed hcomponent).isCyclic_iff hv).mpr hcycle
    exact ⟨_, mem_cycles_iff_component.mpr ⟨component, hcomponent, hcyclic, rfl⟩, List.mem_mergeSort.mpr hv⟩

theorem pairwise_lt_of_mem_cycles (hclosed : d.Closed) (h : members ∈ d.cycles) :
    members.Pairwise (· < ·) := by
  obtain ⟨component, hcomponent, _, rfl⟩ := mem_cycles_iff_component.mp h
  have hnodup : component.mergeSort.Nodup :=
    (List.mergeSort_perm _ _).nodup_iff.mpr (isComponent_of_mem_components hclosed hcomponent).1
  have hsorted : component.mergeSort.Pairwise (· ≤ ·) := List.pairwise_mergeSort' (· ≤ ·) component
  exact (hsorted.and hnodup).imp fun hboth => lt_of_le_of_ne hboth.1 hboth.2

theorem mem_iff_of_mem_cycles (hclosed : d.Closed) (h : members ∈ d.cycles) (hv : v ∈ members) :
    w ∈ members ↔ d.Tied v w := by
  obtain ⟨component, hcomponent, _, rfl⟩ := mem_cycles_iff_component.mp h
  rw [List.mem_mergeSort] at hv ⊢
  exact (isComponent_of_mem_components hclosed hcomponent).mem_iff hv

theorem ne_nil_of_mem_cycles (h : members ∈ d.cycles) : members ≠ [] := by
  obtain ⟨component, _, hcyclic, rfl⟩ := mem_cycles_iff_component.mp h
  intro hnil
  have hempty : component = [] := List.eq_nil_of_length_eq_zero (by
    rw [← List.length_mergeSort, hnil, List.length_nil])
  rw [hempty] at hcyclic
  exact absurd hcyclic (by simp [isCyclic])

/-- The listed cycles are the vertices that are tied to one that leads back to itself, in ascending
order. -/
theorem mem_cycles_iff (hclosed : d.Closed) : members ∈ d.cycles
    ↔ members.Pairwise (· < ·) ∧ ∃ v, TransGen d.Step v v ∧ ∀ w, w ∈ members ↔ d.Tied v w := by
  refine ⟨?_, ?_⟩
  · intro hmem
    obtain ⟨v, hv⟩ := List.exists_mem_of_ne_nil _ (ne_nil_of_mem_cycles hmem)
    have hcycle := (d.exists_mem_cycles_iff hclosed v).mp ⟨members, hmem, hv⟩
    exact ⟨pairwise_lt_of_mem_cycles hclosed hmem, v, hcycle,
      fun w => mem_iff_of_mem_cycles hclosed hmem hv⟩
  · intro hright
    obtain ⟨hsorted, v, hcycle, hmem⟩ := hright
    obtain ⟨listed, hlisted, hv⟩ := (d.exists_mem_cycles_iff hclosed v).mpr hcycle
    have heq : members = listed := by
      apply List.Pairwise.eq_of_mem_iff hsorted (pairwise_lt_of_mem_cycles hclosed hlisted)
      intro w
      rw [hmem w, mem_iff_of_mem_cycles hclosed hlisted hv]
    rwa [heq]

theorem pairwise_disjoint_cycles (hclosed : d.Closed) : d.cycles.Pairwise List.Disjoint := by
  rw [cycles, (List.mergeSort_perm _ _).pairwise_iff fun h => h.symm, List.pairwise_map]
  refine ((pairwise_disjoint_components hclosed).filter _).imp fun hdisjoint w hw hw' => ?_
  exact hdisjoint (List.mem_mergeSort.mp hw) (List.mem_mergeSort.mp hw')

theorem pairwise_head_cycles (hclosed : d.Closed) :
    d.cycles.Pairwise fun c c' => c.headD 0 < c'.headD 0 := by
  have hsorted : d.cycles.Pairwise fun c c' => c.headD 0 ≤ c'.headD 0 := by
    rw [cycles]
    refine List.Pairwise.imp (fun hle => of_decide_eq_true hle) (List.pairwise_mergeSort ?_ ?_ _)
    · intro a b c hab hbc
      exact decide_eq_true (le_trans (of_decide_eq_true hab) (of_decide_eq_true hbc))
    · intro a b
      rw [Bool.or_eq_true, decide_eq_true_iff, decide_eq_true_iff]
      exact le_total _ _
  refine (hsorted.and (pairwise_disjoint_cycles hclosed)).imp_of_mem ?_
  intro c c' hc hc' hboth
  obtain ⟨hle, hdisjoint⟩ := hboth
  obtain ⟨a, rest, rfl⟩ := List.exists_cons_of_ne_nil (ne_nil_of_mem_cycles hc)
  obtain ⟨a', rest', rfl⟩ := List.exists_cons_of_ne_nil (ne_nil_of_mem_cycles hc')
  have hne : a ≠ a' := fun heq => hdisjoint List.mem_cons_self (heq ▸ List.mem_cons_self)
  exact lt_of_le_of_ne hle hne

end ProcFlow.Digraph
