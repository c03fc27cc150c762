import ProcFlow.Proofs.CatalogText
import ProcFlow.Proofs.LoadOrder
/-!
# The first flaw of a procedure

The checks on a procedure run in one order and stop at the first that fails. Main statements: a procedure
passes exactly if it fits, and then the entry says what the manifest says; and what is reported of one that
does not is its first flaw, first in the order of the checks and first in the list that a check runs over.
-/

namespace ProcFlow

/-! ### Repeated names -/

/-- The first name in a list that stands there already. -/
def IsFirstRepeat (names : List String) (x : String) : Prop :=
  ∃ before after, names = before ++ x :: after ∧ before.Nodup ∧ x ∈ before

namespace Catalog

theorem exists_of_firstRepeat? {seen names : List String} {x : String}
    (h : firstRepeat? seen names = some x) :
    ∃ before after, names = before ++ x :: after ∧ firstRepeat? seen before = none ∧
      (x ∈ before ∨ x ∈ seen) := by
  induction names generalizing seen with
  | nil => cases h
  | cons y rest ih =>
      rw [firstRepeat?] at h
      split at h
      next hy =>
        cases h
        exact ⟨[], rest, rfl, rfl, Or.inr hy⟩
      next hy =>
        obtain ⟨before, after, rfl, hnone, hx⟩ := ih h
        refine ⟨y :: before, after, rfl, by rwa [firstRepeat?, if_neg hy], ?_⟩
        rw [List.mem_cons] at hx ⊢
        tauto

theorem firstRepeat?_append {seen before after : List String} {x : String}
    (hnone : firstRepeat? seen before = none) (hx : x ∈ before ∨ x ∈ seen) :
    firstRepeat? seen (before ++ x :: after) = some x := by
  induction before generalizing seen with
  | nil => rw [List.nil_append, firstRepeat?, if_pos (hx.resolve_left List.not_mem_nil)]
  | cons y before ih =>
      rw [firstRepeat?] at hnone
      split at hnone
      · cases hnone
      next hy =>
        rw [List.cons_append, firstRepeat?, if_neg hy]
        refine ih hnone ?_
        rw [List.mem_cons] at hx ⊢
        tauto

theorem firstRepeat?_nil_eq_none_iff {names : List String} :
    firstRepeat? [] names = none ↔ names.Nodup := by
  rw [firstRepeat?_eq_none_iff]
  exact and_iff_left fun _ _ => List.not_mem_nil

theorem firstRepeat?_nil_eq_some_iff {names : List String} {x : String} :
    firstRepeat? [] names = some x ↔ IsFirstRepeat names x := by
  refine ⟨fun h => ?_, ?_⟩
  · obtain ⟨before, after, rfl, hnone, hx⟩ := exists_of_firstRepeat? h
    exact ⟨before, after, rfl, firstRepeat?_nil_eq_none_iff.mp hnone,
      hx.resolve_right List.not_mem_nil⟩
  · rintro ⟨before, after, rfl, hnodup, hx⟩
    exact firstRepeat?_append (firstRepeat?_nil_eq_none_iff.mpr hnodup) (Or.inl hx)

end Catalog


/-! ### Flaws of definitions and of holes -/

/-- The first flaw of a definition, given which types are known. -/
inductive Definition.Flawed (known : TypeId → Prop) (d : Definition) : Catalog.ProcFlaw → Prop where
  | unknownType {type : TypeId} (h : IsFirst (fun type => ¬ known type) d.types type) :
      Flawed known d (.unknownType type)
  | duplicateSlot {slot : String} (htypes : ∀ type ∈ d.types, known type)
      (h : IsFirstRepeat (d.inputs.map Slot.name) slot) : Flawed known d (.duplicateSlot slot)
  | duplicateFlow {flow : String} (htypes : ∀ type ∈ d.types, known type)
      (hslots : (d.inputs.map Slot.name).Nodup) (h : IsFirstRepeat d.flowNames flow) :
      Flawed known d (.duplicateFlow flow)
  | collidingFlows {suffix : String} (htypes : ∀ type ∈ d.types, known type)
      (hslots : (d.inputs.map Slot.name).Nodup) (hflows : d.flowNames.Nodup)
      (h : IsFirstRepeat (d.flowNames.map Code.flowSuffix) suffix) :
      Flawed known d (.collidingFlows suffix)
  | duplicateValue {f : FlowDef} {value : String} (htypes : ∀ type ∈ d.types, known type)
      (hslots : (d.inputs.map Slot.name).Nodup) (hflows : d.flowNames.Nodup)
      (hsuffixes : (d.flowNames.map Code.flowSuffix).Nodup)
      (hf : IsFirst (fun f => ¬ (f.values.map Slot.name).Nodup) d.outputs f)
      (h : IsFirstRepeat (f.values.map Slot.name) value) :
      Flawed known d (.duplicateValue value f.name)

/-- The first hole of a template that a definition does not declare; inputs come before exits. -/
inductive Template.Flawed (d : Definition) (t : Template) : Catalog.ProcFlaw → Prop where
  | undeclaredInput {slot : String}
      (h : IsFirst (fun slot => slot ∉ d.inputs.map Slot.name) t.inputs slot) :
      Flawed d t (.undeclaredInput slot)
  | undeclaredExit {exit : String} (hinputs : ∀ slot ∈ t.inputs, slot ∈ d.inputs.map Slot.name)
      (h : IsFirst (fun exit => exit ∉ d.flowNames) t.exits exit) :
      Flawed d t (.undeclaredExit exit)

namespace Catalog

theorem definitionFlaw?_eq_some_iff {known : TypeId → Bool} {d : Definition} {flaw : ProcFlaw} :
    definitionFlaw? known d = some flaw ↔ d.Flawed (fun type => known type) flaw := by
  have hunknown : ∀ type, IsFirst (fun type => known type = false) d.types type
      ↔ IsFirst (fun type => ¬ known type) d.types type := fun _ =>
    IsFirst.congr fun _ _ => by rw [Bool.not_eq_true]
  have hvalues : ∀ f : FlowDef,
      (firstRepeat? [] (f.values.map Slot.name)).map (fun v => ProcFlaw.duplicateValue v f.name) ≠ none
        ↔ ¬ (f.values.map Slot.name).Nodup := fun f => by
    rw [ne_eq, Option.map_eq_none_iff, firstRepeat?_nil_eq_none_iff]
  simp only [definitionFlaw?, Option.orElse_eq_orElse, Option.orElse_eq_or, Option.or_eq_some_iff,
    Option.map_eq_some_iff, Option.map_eq_none_iff, find?_eq_some_iff_isFirst, List.find?_eq_none,
    findSome?_eq_some_iff_isFirst, firstRepeat?_nil_eq_some_iff, firstRepeat?_nil_eq_none_iff, hvalues,
    Bool.not_eq_true', Bool.not_eq_false, hunknown]
  refine ⟨?_, fun h => ?_⟩
  · rintro (⟨type, h, rfl⟩ | ⟨htypes, ⟨slot, h, rfl⟩ | ⟨hslots, ⟨flow, h, rfl⟩ | ⟨hflows, h⟩⟩⟩)
    · exact .unknownType h
    · exact .duplicateSlot htypes h
    · exact .duplicateFlow htypes hslots h
    · rcases h with ⟨suffix, h, rfl⟩ | ⟨hsuffixes, f, hf, value, h, rfl⟩
      · exact .collidingFlows htypes hslots hflows h
      · exact .duplicateValue htypes hslots hflows hsuffixes hf h
  · cases h with
    | unknownType h => exact Or.inl ⟨_, h, rfl⟩
    | duplicateSlot htypes h => exact Or.inr ⟨htypes, Or.inl ⟨_, h, rfl⟩⟩
    | duplicateFlow htypes hslots h => exact Or.inr ⟨htypes, Or.inr ⟨hslots, Or.inl ⟨_, h, rfl⟩⟩⟩
    | collidingFlows htypes hslots hflows h =>
        exact Or.inr ⟨htypes, Or.inr ⟨hslots, Or.inr ⟨hflows, Or.inl ⟨_, h, rfl⟩⟩⟩⟩
    | duplicateValue htypes hslots hflows hsuffixes hf h =>
        exact Or.inr ⟨htypes, Or.inr ⟨hslots, Or.inr ⟨hflows, Or.inr ⟨hsuffixes, _, hf, _, h, rfl⟩⟩⟩⟩

theorem templateFlaw?_eq_some_iff {d : Definition} {t : Template} {flaw : ProcFlaw} :
    templateFlaw? d t = some flaw ↔ t.Flawed d flaw := by
  have hinput : ∀ slot, (d.input? slot).isNone ↔ slot ∉ d.inputs.map Slot.name := fun slot => by
    rw [← Definition.input?_isSome_iff, Bool.not_eq_true, Option.isSome_eq_false_iff]
  have hflow : ∀ flow, (d.flow? flow).isNone ↔ flow ∉ d.flowNames := fun flow => by
    rw [← Definition.flow?_isSome_iff, Bool.not_eq_true, Option.isSome_eq_false_iff]
  simp only [templateFlaw?, Option.orElse_eq_orElse, Option.orElse_eq_or, Option.or_eq_some_iff,
    Option.map_eq_some_iff, Option.map_eq_none_iff, find?_eq_some_iff_isFirst, List.find?_eq_none, hinput,
    hflow, not_not]
  refine ⟨?_, fun h => ?_⟩
  · rintro (⟨slot, h, rfl⟩ | ⟨hinputs, exit, h, rfl⟩)
    · exact .undeclaredInput h
    · exact .undeclaredExit hinputs h
  · cases h with
    | undeclaredInput h => exact Or.inl ⟨_, h, rfl⟩
    | undeclaredExit hinputs h => exact Or.inr ⟨hinputs, _, h, rfl⟩

end Catalog


/-! ### Procedures that pass, and what is reported of those that do not -/

/-- A procedure passes against the known types if what it becomes fits. -/
def ProcManifest.Passes (known : TypeId → Prop) (p : ProcManifest) : Prop :=
  ∃ e, p.Becomes e ∧ e.Fits known

/-- What is reported of a procedure. The definition is looked at first, then the template for itself, and
last the holes of the template against the definition. -/
inductive ProcManifest.Rejected (known : TypeId → Prop) (origin name : String) (p : ProcManifest) :
    Catalog.Error → Prop where
  | definition {flaw : Catalog.ProcFlaw} (h : p.definition.Flawed known flaw) :
      Rejected known origin name p (.invalidProcedure origin name flaw)
  | template {errors : List Template.Error} (hdefinition : ∀ flaw, ¬ p.definition.Flawed known flaw)
      (h : Template.parse p.template = .error errors) :
      Rejected known origin name p (.badTemplate origin name errors)
  | hole {t : Template} {flaw : Catalog.ProcFlaw}
      (hdefinition : ∀ flaw, ¬ p.definition.Flawed known flaw)
      (hparse : Template.parse p.template = .ok t) (h : t.Flawed p.definition flaw) :
      Rejected known origin name p (.invalidProcedure origin name flaw)

namespace Catalog

variable {known : TypeId → Bool} {origin : String} {p : ProcManifest}

theorem checkProcedure_eq_error_iff {name : String} {error : Error} :
    checkProcedure known origin name p = .error error
      ↔ p.Rejected (fun type => known type) origin name error := by
  have hnone : definitionFlaw? known p.definition = none
      ↔ ∀ flaw, ¬ p.definition.Flawed (fun type => known type) flaw := by
    simp only [← definitionFlaw?_eq_some_iff, Option.eq_none_iff_forall_ne_some, ne_eq]
  refine ⟨fun h => ?_, fun h => ?_⟩
  · unfold checkProcedure at h
    split at h
    next flaw hflaw =>
      cases h
      exact .definition (definitionFlaw?_eq_some_iff.mp hflaw)
    next hdefinition =>
    split at h
    next errors hparse =>
      cases h
      exact .template (hnone.mp hdefinition) hparse
    next t hparse =>
    split at h
    next flaw hflaw =>
      cases h
      exact .hole (hnone.mp hdefinition) hparse (templateFlaw?_eq_some_iff.mp hflaw)
    · cases h
  · cases h with
    | definition h => simp only [checkProcedure, definitionFlaw?_eq_some_iff.mpr h]
    | template hdefinition h => simp only [checkProcedure, hnone.mpr hdefinition, h]
    | hole hdefinition hparse h =>
        simp only [checkProcedure, hnone.mpr hdefinition, hparse, templateFlaw?_eq_some_iff.mpr h]

theorem checkProcedure_eq_ok_iff (name : String) {e : ProcEntry} :
    checkProcedure known origin name p = .ok e
      ↔ p.Becomes e ∧ e.origin = origin ∧ e.Fits fun type => known type := by
  refine ⟨fun h => ⟨becomes_of_checkProcedure h, ?_, fits_of_checkProcedure h⟩, ?_⟩
  · obtain ⟨_, _, _, _, rfl⟩ := checkProcedure_eq_ok h
    rfl
  · rintro ⟨hbecomes, rfl, hfits⟩
    have hp : p = ⟨e.definition, e.template.source⟩ := by
      rw [hbecomes.definition, parse_source hbecomes.template]
    rw [hp]
    exact checkProcedure_of_fits hfits e.origin name

theorem exists_checkProcedure_iff (origin name : String) :
    (∃ e, checkProcedure known origin name p = .ok e) ↔ p.Passes fun type => known type := by
  simp only [checkProcedure_eq_ok_iff]
  refine ⟨fun ⟨e, hbecomes, _, hfits⟩ => ⟨e, hbecomes, hfits⟩, fun ⟨e, hbecomes, hfits⟩ => ?_⟩
  exact ⟨{ e with origin := origin }, { hbecomes with }, rfl, { hfits with }⟩

end Catalog

end ProcFlow
