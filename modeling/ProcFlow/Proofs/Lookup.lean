import Mathlib.Data.List.Nodup
import Mathlib.Data.List.Perm.Subperm
import ProcFlow.Context.Basic
/-!
# Looking up and listing

A table is asked by name or listed entry by entry, an arena by position or node by node. The two views
say the same, so whatever a check learns by running over a list can be used by whoever looks something
up. Where a list is searched, what is found is the first that will do.
-/

namespace ProcFlow

/-! ### What comes first -/

/-- The first member of a list that has a property. -/
def IsFirst {α : Type} (P : α → Prop) (l : List α) (x : α) : Prop :=
  ∃ before after, l = before ++ x :: after ∧ (∀ y ∈ before, ¬ P y) ∧ P x

section IsFirst

variable {α : Type} {P Q : α → Prop} {l : List α} {x : α}

theorem IsFirst.congr (h : ∀ y ∈ l, P y ↔ Q y) : IsFirst P l x ↔ IsFirst Q l x := by
  refine exists₂_congr fun before after => and_congr_right ?_
  rintro rfl
  refine and_congr (forall₂_congr fun y hy => not_congr (h y ?_)) (h x ?_)
  · exact List.mem_append_left _ hy
  · exact List.mem_append_right _ List.mem_cons_self

theorem not_isFirst_nil : ¬ IsFirst P [] x := by
  rintro ⟨before, after, hl, _⟩
  exact List.append_ne_nil_of_right_ne_nil before (List.cons_ne_nil x after) hl.symm

theorem isFirst_cons {y : α} : IsFirst P (y :: l) x ↔ P y ∧ x = y ∨ ¬ P y ∧ IsFirst P l x := by
  refine ⟨?_, ?_⟩
  · rintro ⟨before, after, hl, hbefore, hx⟩
    cases before with
    | nil =>
        obtain ⟨rfl, rfl⟩ := List.cons.inj hl
        exact Or.inl ⟨hx, rfl⟩
    | cons z before =>
        obtain ⟨rfl, rfl⟩ := List.cons.inj hl
        obtain ⟨hz, hbefore⟩ := List.forall_mem_cons.mp hbefore
        exact Or.inr ⟨hz, before, after, rfl, hbefore, hx⟩
  · rintro (⟨hy, rfl⟩ | ⟨hy, before, after, rfl, hbefore, hx⟩)
    · exact ⟨[], l, rfl, fun y hy => absurd hy List.not_mem_nil, hy⟩
    · exact ⟨y :: before, after, rfl, List.forall_mem_cons.mpr ⟨hy, hbefore⟩, hx⟩

theorem find?_eq_some_iff_isFirst {p : α → Bool} : l.find? p = some x ↔ IsFirst (fun y => p y) l x := by
  rw [List.find?_eq_some_iff_append, IsFirst]
  refine ⟨?_, ?_⟩
  · rintro ⟨hx, before, after, rfl, hbefore⟩
    exact ⟨before, after, rfl, fun y hy => by simpa using hbefore y hy, hx⟩
  · rintro ⟨before, after, rfl, hbefore, hx⟩
    exact ⟨hx, before, after, rfl, fun y hy => by simpa using hbefore y hy⟩

theorem findSome?_eq_some_iff_isFirst {β : Type} {f : α → Option β} {b : β} :
    l.findSome? f = some b ↔ ∃ x, IsFirst (fun y => f y ≠ none) l x ∧ f x = some b := by
  rw [List.findSome?_eq_some_iff]
  refine ⟨?_, ?_⟩
  · rintro ⟨before, x, after, rfl, hx, hbefore⟩
    have hne : f x ≠ none := hx ▸ Option.some_ne_none b
    exact ⟨x, ⟨before, after, rfl, fun y hy => not_not.mpr (hbefore y hy), hne⟩, hx⟩
  · rintro ⟨x, ⟨before, after, rfl, hbefore, _⟩, hx⟩
    exact ⟨before, x, after, rfl, hx, fun y hy => not_not.mp (hbefore y hy)⟩

end IsFirst


/-! ### Lists that are read entry by entry -/

theorem forall₂_of_mapM {α β ε : Type} {f : α → Except ε β} {l : List α} {r : List β}
    (h : l.mapM f = .ok r) : List.Forall₂ (fun a b => f a = .ok b) l r := by
  induction l generalizing r with
  | nil =>
      cases h
      exact .nil
  | cons a rest ih =>
      rw [List.mapM_cons] at h
      cases hfirst : f a with
      | error _ =>
          rw [hfirst] at h
          cases h
      | ok b =>
          cases hrest : rest.mapM f with
          | error _ =>
              rw [hfirst, hrest] at h
              cases h
          | ok bs =>
              rw [hfirst, hrest] at h
              cases h
              exact .cons hfirst (ih hrest)

theorem exists_of_mem_mapM {α β ε : Type} {f : α → Except ε β} {l : List α} {r : List β}
    (h : l.mapM f = .ok r) : ∀ b ∈ r, ∃ a ∈ l, f a = .ok b := by
  have hall := forall₂_of_mapM h
  clear h
  induction hall with
  | nil => exact fun b hb => absurd hb List.not_mem_nil
  | @cons a b l r hfirst _ ih =>
      intro x hx
      cases List.mem_cons.mp hx with
      | inl heq => exact ⟨a, List.mem_cons_self, heq ▸ hfirst⟩
      | inr hmem =>
          obtain ⟨a', ha', hf⟩ := ih x hmem
          exact ⟨a', List.mem_cons_of_mem a ha', hf⟩

theorem mapM_map_eq_ok {α β γ ε : Type} {f : β → Except ε γ} {g : α → β} {k : α → γ} {l : List α}
    (h : ∀ x ∈ l, f (g x) = .ok (k x)) : (l.map g).mapM f = .ok (l.map k) := by
  induction l with
  | nil => rfl
  | cons x rest ih =>
      rw [List.map_cons, List.mapM_cons, h x List.mem_cons_self,
        ih fun y hy => h y (List.mem_cons_of_mem x hy)]
      rfl

namespace Table

variable {α β : Type}

theorem lookup_eq_some_iff_of_nodup {l : List (String × α)} (hnodup : (l.map Prod.fst).Nodup)
    (key : String) (value : α) : l.lookup key = some value ↔ (key, value) ∈ l := by
  induction l with
  | nil => simp
  | cons e rest ih =>
      obtain ⟨k, v⟩ := e
      rw [List.map_cons, List.nodup_cons] at hnodup
      by_cases h : key = k
      · subst h
        rw [List.lookup_cons_self, Option.some.injEq, List.mem_cons]
        refine ⟨?_, ?_⟩
        · exact fun heq => Or.inl (by rw [heq])
        · intro hright
          rcases hright with heq | hmem
          · exact (Prod.mk.inj heq).2.symm
          · exact absurd (List.mem_map_of_mem hmem) hnodup.1
      · have hb : (key == k) = false := by simpa using h
        rw [List.lookup_cons, hb]
        simpa [h] using ih hnodup.2

theorem get?_eq_some_iff (t : Table α) (key : String) (value : α) :
    t.get? key = some value ↔ (key, value) ∈ t.entries :=
  lookup_eq_some_iff_of_nodup t.nodup key value

theorem contains_iff (t : Table α) (key : String) : t.contains key ↔ key ∈ t.keys := by
  rw [contains, get?, List.lookup_isSome_iff, keys, List.mem_map]
  simp only [beq_iff_eq, @eq_comm String key]

theorem get?_eq_none_iff (t : Table α) (key : String) : t.get? key = none ↔ key ∉ t.keys := by
  rw [← contains_iff, contains, Bool.not_eq_true, Option.isSome_eq_false_iff, Option.isNone_iff_eq_none]

theorem contains_iff_exists (t : Table α) (key : String) :
    t.contains key ↔ ∃ value, t.get? key = some value :=
  Option.isSome_iff_exists

theorem get?_foldl_insert {f : β → α} (l : List (String × β)) (t : Table α)
    {key : String} {value : α}
    (h : (l.foldl (fun t e => t.insert e.1 (f e.2)) t).get? key = some value) :
    t.get? key = some value ∨ ∃ x, (key, x) ∈ l ∧ value = f x := by
  induction l generalizing t with
  | nil => exact Or.inl h
  | cons e rest ih =>
      rcases ih (t.insert e.1 (f e.2)) h with hhere | ⟨x, hx, hvalue⟩
      · rw [get?_insert] at hhere
        split at hhere
        · next hkey =>
          subst hkey
          exact Or.inr ⟨e.2, List.mem_cons_self, (Option.some.inj hhere).symm⟩
        · exact Or.inl hhere
      · exact Or.inr ⟨x, List.mem_cons_of_mem e hx, hvalue⟩

theorem contains_foldl_insert {f : β → α} (l : List (String × β)) (t : Table α)
    (key : String) :
    (l.foldl (fun t e => t.insert e.1 (f e.2)) t).contains key
      ↔ t.contains key ∨ key ∈ l.map Prod.fst := by
  induction l generalizing t with
  | nil => simp
  | cons e rest ih =>
      rw [List.foldl_cons, ih, List.map_cons, List.mem_cons, ← or_assoc]
      apply or_congr_left
      rw [contains, get?_insert, contains]
      by_cases hkey : key = e.1 <;> simp [hkey]

theorem lookup_map (f : β → α) (l : List (String × β)) (key : String) :
    (l.map fun e => (e.1, f e.2)).lookup key = (l.lookup key).map f := by
  induction l with
  | nil => rfl
  | cons e rest ih =>
      rw [List.map_cons, List.lookup_cons, List.lookup_cons, ih]
      cases key == e.1 <;> rfl

theorem put_of_not_mem {key : String} {value : α} {l : List (String × α)}
    (h : key ∉ l.map Prod.fst) : put key value l = l ++ [(key, value)] := by
  induction l with
  | nil => rfl
  | cons e rest ih =>
      rw [List.map_cons, List.mem_cons, not_or] at h
      rw [put, if_neg (Ne.symm h.1), ih h.2, List.cons_append]

/-- Names that are all new come one after the other behind the entries that are there. -/
theorem entries_foldl_insert {f : β → α} (l : List (String × β)) (t : Table α)
    (hnodup : (t.keys ++ l.map Prod.fst).Nodup) :
    (l.foldl (fun t e => t.insert e.1 (f e.2)) t).entries
      = t.entries ++ l.map fun e => (e.1, f e.2) := by
  induction l generalizing t with
  | nil => simp
  | cons e rest ih =>
      have hnew : e.1 ∉ t.keys := fun hmem =>
        (List.nodup_append.mp hnodup).2.2 e.1 hmem e.1 List.mem_cons_self rfl
      have hkeys : (t.insert e.1 (f e.2)).keys = t.keys ++ [e.1] := by
        rw [keys_insert, if_neg hnew]
      have hentries : (t.insert e.1 (f e.2)).entries = t.entries ++ [(e.1, f e.2)] :=
        put_of_not_mem hnew
      rw [List.foldl_cons, ih, hentries, List.append_assoc, List.singleton_append, List.map_cons]
      rwa [hkeys, List.append_assoc, List.singleton_append]

theorem ofList_entries (t : Table α) : ofList t.entries = t := by
  apply ext
  have hentries := entries_foldl_insert (f := id) t.entries empty t.nodup
  simpa [ofList, empty] using hentries

end Table


/-! ### Definitions -/

namespace Definition

variable {d : Definition}

theorem flow?_eq_some {name : String} {f : FlowDef} (h : d.flow? name = some f) :
    f ∈ d.outputs ∧ f.name = name :=
  ⟨List.mem_of_find?_eq_some h, by simpa using List.find?_some h⟩

theorem flow?_isSome_iff {name : String} : (d.flow? name).isSome ↔ name ∈ d.flowNames := by
  rw [flow?, List.find?_isSome, flowNames, List.mem_map]
  simp only [decide_eq_true_iff]

theorem input?_eq_some {name : String} {slot : Slot} (h : d.input? name = some slot) :
    slot ∈ d.inputs ∧ slot.name = name :=
  ⟨List.mem_of_find?_eq_some h, by simpa using List.find?_some h⟩

theorem input?_isSome_iff {name : String} :
    (d.input? name).isSome ↔ name ∈ d.inputs.map Slot.name := by
  rw [input?, List.find?_isSome, List.mem_map]
  simp only [decide_eq_true_iff]

end Definition

theorem FlowDef.value?_eq_some {f : FlowDef} {name : String} {v : Slot}
    (h : f.value? name = some v) : v ∈ f.values ∧ v.name = name :=
  ⟨List.mem_of_find?_eq_some h, by simpa using List.find?_some h⟩


/-! ### The arena and the edges -/

namespace Graph

variable (g : Graph)

theorem mem_procsWithIds {id : ProcId} {node : ProcNode} :
    (id, node) ∈ g.procsWithIds ↔ g.proc? id = some node := by
  rw [procsWithIds, proc?, List.mem_map]
  refine ⟨?_, ?_⟩
  · intro hleft
    obtain ⟨⟨n, i⟩, hmem, heq⟩ := hleft
    obtain ⟨rfl, rfl⟩ := Prod.mk.inj heq
    exact List.mem_zipIdx_iff_getElem?.mp hmem
  · exact fun hget => ⟨(node, id.index), List.mem_zipIdx_iff_getElem?.mpr hget, rfl⟩

theorem map_fst_procsWithIds : g.procsWithIds.map Prod.fst = g.procIds := by
  rw [procIds, procsWithIds, List.map_map, List.range_eq_range', ← List.zipIdx_map_snd, List.map_map]
  rfl

theorem map_snd_procsWithIds : g.procsWithIds.map Prod.snd = g.procs := by
  rw [procsWithIds, List.map_map]
  exact List.zipIdx_map_fst 0 g.procs

theorem map_snd_edgesWithIds : g.edgesWithIds.map Prod.snd = g.edges := by
  rw [edgesWithIds, List.map_map]
  exact List.zipIdx_map_fst 0 g.edges

theorem exists_mem_edgesWithIds {e : Edge} : (∃ id, (id, e) ∈ g.edgesWithIds) ↔ e ∈ g.edges := by
  rw [← g.map_snd_edgesWithIds, List.mem_map]
  refine ⟨?_, ?_⟩
  · exact fun ⟨id, hmem⟩ => ⟨(id, e), hmem, rfl⟩
  · intro hright
    obtain ⟨⟨id, _⟩, hmem, rfl⟩ := hright
    exact ⟨id, hmem⟩

theorem mem_edgesWithIds {id : EdgeId} {e : Edge} :
    (id, e) ∈ g.edgesWithIds ↔ g.edges[id.index]? = some e := by
  rw [edgesWithIds, List.mem_map]
  refine ⟨?_, ?_⟩
  · intro hleft
    obtain ⟨⟨x, i⟩, hmem, heq⟩ := hleft
    obtain ⟨rfl, rfl⟩ := Prod.mk.inj heq
    exact List.mem_zipIdx_iff_getElem?.mp hmem
  · exact fun hget => ⟨(e, id.index), List.mem_zipIdx_iff_getElem?.mpr hget, rfl⟩

theorem mem_procIds {id : ProcId} : id ∈ g.procIds ↔ (g.proc? id).isSome := by
  simp only [procIds, proc?, List.mem_map, isSome_getElem?]
  refine ⟨?_, ?_⟩
  · intro hleft
    obtain ⟨i, hi, rfl⟩ := hleft
    exact List.mem_range.mp hi
  · exact fun hlt => ⟨id.index, List.mem_range.mpr hlt, rfl⟩

theorem nodup_procIds : g.procIds.Nodup :=
  List.nodup_range.map fun _ _ hab => congrArg ProcId.index hab

theorem length_procIds : g.procIds.length = g.procs.length := by
  rw [procIds, List.length_map, List.length_range]

theorem length_le_of_nodup {ids : List ProcId} (hnodup : ids.Nodup) (hsubset : ids ⊆ g.procIds) :
    ids.length ≤ g.procs.length :=
  g.length_procIds ▸ (hnodup.subperm hsubset).length_le

theorem mem_outputEntries {flow id : String} {value : OutputValue} :
    (flow, id, value) ∈ g.outputEntries
      ↔ ∃ values, g.outputFlows.get? flow = some values ∧ values.get? id = some value := by
  simp only [outputEntries, List.mem_flatMap, List.mem_map, Table.get?_eq_some_iff]
  refine ⟨?_, ?_⟩
  · intro hleft
    obtain ⟨⟨f, values⟩, hf, ⟨i, v⟩, hv, heq⟩ := hleft
    cases heq
    exact ⟨values, hf, hv⟩
  · exact fun ⟨values, hf, hv⟩ => ⟨(flow, values), hf, (id, value), hv, rfl⟩

end Graph

namespace Context

variable {c : Context}

theorem definition?_of_proc? {id : ProcId} {node : ProcNode} (h : c.graph.proc? id = some node) :
    c.definition? id = c.catalog.definition? node.procedure := by
  rw [definition?, h, Option.bind_some]

theorem proc?_of_definition? {id : ProcId} {d : Definition} (h : c.definition? id = some d) :
    ∃ node, c.graph.proc? id = some node ∧ c.catalog.definition? node.procedure = some d :=
  Option.bind_eq_some_iff.mp h

theorem mem_bindings {id : ProcId} {b : Binding} :
    b ∈ c.bindings id ↔ ∃ node slot symbol, c.graph.proc? id = some node ∧
      (slot, symbol) ∈ node.inputs.entries ∧ b = c.bindingOf id slot symbol := by
  rcases hnode : c.graph.proc? id with _ | node
  · simp [bindings, hnode]
  · simp only [bindings, hnode, List.mem_map, Option.some.injEq]
    refine ⟨?_, ?_⟩
    · intro hleft
      obtain ⟨⟨slot, symbol⟩, hmem, rfl⟩ := hleft
      exact ⟨node, slot, symbol, rfl, hmem, rfl⟩
    · intro hright
      obtain ⟨_, slot, symbol, rfl, hmem, rfl⟩ := hright
      exact ⟨(slot, symbol), hmem, rfl⟩

theorem find?_bindingOf (id : ProcId) (slot : String) (entries : List (String × SymbolRef)) :
    (entries.map fun e => c.bindingOf id e.1 e.2).find? (fun b => b.slot = slot)
      = (entries.lookup slot).map (c.bindingOf id slot) := by
  induction entries with
  | nil => rfl
  | cons e rest ih =>
      obtain ⟨key, symbol⟩ := e
      by_cases hkey : slot = key
      · subst hkey
        simp [bindingOf]
      · have hne : (slot == key) = false := by simpa using hkey
        rw [List.map_cons, List.lookup_cons, hne, List.find?_cons_of_neg, ih]
        exact fun hfound => hkey (of_decide_eq_true hfound).symm

theorem binding?_eq (id : ProcId) (slot : String) :
    c.binding? id slot
      = (c.graph.proc? id).bind fun node => (node.inputs.get? slot).map (c.bindingOf id slot) := by
  rw [binding?, bindings]
  cases c.graph.proc? id with
  | none => rfl
  | some node => exact find?_bindingOf id slot node.inputs.entries

theorem binding?_of_mem {id : ProcId} {b : Binding} (hb : b ∈ c.bindings id) :
    c.binding? id b.slot = some b := by
  obtain ⟨node, slot, symbol, hnode, hentry, rfl⟩ := mem_bindings.mp hb
  have hget := (node.inputs.get?_eq_some_iff slot symbol).mpr hentry
  change c.binding? id slot = _
  rw [binding?_eq, hnode, Option.bind_some, hget, Option.map_some]

theorem mem_outputs {o : OutputBinding} :
    o ∈ c.outputs ↔ (o.flow, o.id, o.value) ∈ c.graph.outputEntries ∧
      o.resolution = c.resolve o.value.source := by
  rw [outputs, List.mem_map]
  refine ⟨?_, ?_⟩
  · intro hleft
    obtain ⟨⟨flow, id, value⟩, hmem, rfl⟩ := hleft
    exact ⟨hmem, rfl⟩
  · intro hright
    obtain ⟨hmem, hresolution⟩ := hright
    refine ⟨_, hmem, ?_⟩
    simp only [← hresolution]

end Context

end ProcFlow
