import ProcFlow.Catalog.Standard
import ProcFlow.Proofs.Lookup
/-!
# Catalogs that have been loaded

A catalog comes about by adding manifests to the empty one. Whatever is added has passed the checks, and
nothing that is added later takes a type away, so every procedure of a loaded catalog fits: its types are
there, its names are distinct, and its template keeps to the declared slots and flows.
-/

namespace ProcFlow

namespace Catalog

/-- A catalog that adding manifests has led to. -/
inductive Loaded : Catalog → Prop where
  | empty : Loaded Catalog.empty
  | add {c c' : Catalog} {m : Manifest} {origin : String} {count : Nat} (hloaded : Loaded c)
      (hadd : c.add m origin = .ok (c', count)) : Loaded c'

/-- The catalog of one manifest is a loaded one, also if the manifest is refused. -/
theorem loaded_of_manifest (m : Manifest) (origin : String) :
    Loaded (match empty.add m origin with
      | .ok (c, _) => c
      | .error _ => empty) := by
  split
  · next hadd => exact Loaded.empty.add hadd
  · exact Loaded.empty

theorem loaded_standard : Loaded standard := loaded_of_manifest standardManifest builtinOrigin

end Catalog

/-- What the checks make sure of for a procedure, given which types are known. -/
structure ProcEntry.Fits (known : TypeId → Prop) (e : ProcEntry) : Prop where
  types : ∀ type ∈ e.definition.types, known type
  slots : (e.definition.inputs.map Slot.name).Nodup
  flows : e.definition.flowNames.Nodup
  suffixes : (e.definition.flowNames.map Code.flowSuffix).Nodup
  values : ∀ f ∈ e.definition.outputs, (f.values.map Slot.name).Nodup
  template : Template.parse e.template.source = .ok e.template
  inputs : ∀ slot ∈ e.template.inputs, (e.definition.input? slot).isSome
  exits : ∀ flow ∈ e.template.exits, flow ∈ e.definition.flowNames

theorem ProcEntry.Fits.mono {known known' : TypeId → Prop} {e : ProcEntry} (h : e.Fits known)
    (hmore : ∀ type, known type → known' type) : e.Fits known' :=
  { h with types := fun type htype => hmore type (h.types type htype) }

namespace Catalog

/-! ### Checking one procedure -/

theorem firstRepeat?_eq_none_iff (seen names : List String) :
    firstRepeat? seen names = none ↔ names.Nodup ∧ ∀ name ∈ names, name ∉ seen := by
  induction names generalizing seen with
  | nil => simp [firstRepeat?]
  | cons x rest ih =>
      rw [firstRepeat?]
      by_cases hx : x ∈ seen
      · simp [hx]
      · rw [if_neg hx, ih, List.nodup_cons, List.forall_mem_cons]
        refine ⟨?_, ?_⟩
        · intro hleft
          obtain ⟨hnodup, hfresh⟩ := hleft
          refine ⟨⟨fun hmem => hfresh x hmem List.mem_cons_self, hnodup⟩, hx, ?_⟩
          exact fun name hname hseen => hfresh name hname (List.mem_cons_of_mem x hseen)
        · intro hright
          obtain ⟨⟨hnot, hnodup⟩, _, hfresh⟩ := hright
          refine ⟨hnodup, fun name hname hseen => ?_⟩
          rcases List.mem_cons.mp hseen with rfl | hseen
          · exact hnot hname
          · exact hfresh name hname hseen

theorem nodup_of_firstRepeat? {names : List String} (h : firstRepeat? [] names = none) :
    names.Nodup :=
  ((firstRepeat?_eq_none_iff [] names).mp h).1

theorem parse_source {source : String} {t : Template} (h : Template.parse source = .ok t) :
    t.source = source := by
  simp only [Template.parse] at h
  split at h
  · cases h
    rfl
  · cases h

theorem checkProcedure_eq_ok {known : TypeId → Bool} {origin name : String} {p : ProcManifest}
    {e : ProcEntry} (h : checkProcedure known origin name p = .ok e) :
    ∃ template, definitionFlaw? known p.definition = none ∧ Template.parse p.template = .ok template ∧
      templateFlaw? p.definition template = none ∧ e = ⟨p.definition, template, origin⟩ := by
  unfold checkProcedure at h
  split at h
  · cases h
  next hdefinition =>
  split at h
  · cases h
  next template hparse =>
  split at h
  · cases h
  next htemplate =>
  cases h
  exact ⟨template, hdefinition, hparse, htemplate, rfl⟩

theorem fits_of_checkProcedure {known : TypeId → Bool} {origin name : String} {p : ProcManifest}
    {e : ProcEntry} (h : checkProcedure known origin name p = .ok e) :
    e.Fits fun type => known type = true := by
  obtain ⟨template, hdefinition, hparse, htemplate, rfl⟩ := checkProcedure_eq_ok h
  simp only [definitionFlaw?, Option.orElse_eq_orElse, Option.orElse_eq_or, Option.or_eq_none_iff,
    Option.map_eq_none_iff, List.find?_eq_none, List.findSome?_eq_none_iff] at hdefinition
  simp only [templateFlaw?, Option.orElse_eq_orElse, Option.orElse_eq_or, Option.or_eq_none_iff,
    Option.map_eq_none_iff, List.find?_eq_none] at htemplate
  obtain ⟨htypes, hslots, hflows, hsuffixes, hvalues⟩ := hdefinition
  obtain ⟨hinputs, hexits⟩ := htemplate
  refine ⟨?_, nodup_of_firstRepeat? hslots, nodup_of_firstRepeat? hflows,
    nodup_of_firstRepeat? hsuffixes, ?_, ?_, ?_, ?_⟩
  · intro type htype
    simpa using htypes type htype
  · exact fun f hf => nodup_of_firstRepeat? (hvalues f hf)
  · rw [parse_source hparse]
    exact hparse
  · intro slot hslot
    simpa [Option.isSome_iff_ne_none] using hinputs slot hslot
  · intro flow hflow
    rw [← Definition.flow?_isSome_iff]
    simpa [Option.isSome_iff_ne_none] using hexits flow hflow


/-! ### Adding a manifest -/

/-- Checks one procedure of a manifest. -/
def checkEntry (c : Catalog) (m : Manifest) (origin : String) (x : String × ProcManifest) :
    Except Error (String × ProcEntry) :=
  match c.procedures.get? x.1 with
  | some first => .error (.duplicateProcedure x.1 first.origin origin)
  | none => do
    return (x.1,
      ← checkProcedure (fun type => c.types.contains type || m.types.contains type) origin x.1 x.2)

theorem checkProcedures_eq (c : Catalog) (m : Manifest) (origin : String) :
    c.checkProcedures m origin = m.procedures.entries.mapM (c.checkEntry m origin) := rfl

theorem checkEntry_eq_ok {c : Catalog} {m : Manifest} {origin : String} {x : String × ProcManifest}
    {e : String × ProcEntry} (h : c.checkEntry m origin x = .ok e) :
    c.procedures.get? x.1 = none ∧ e.1 = x.1 ∧
      checkProcedure (fun type => c.types.contains type || m.types.contains type) origin x.1 x.2
        = .ok e.2 := by
  unfold checkEntry at h
  split at h
  · cases h
  next hnew =>
  cases hprocedure : checkProcedure (fun type => c.types.contains type || m.types.contains type)
      origin x.1 x.2 with
  | error _ =>
      rw [hprocedure] at h
      cases h
  | ok e' =>
      rw [hprocedure] at h
      cases h
      exact ⟨hnew, rfl, rfl⟩

theorem add_eq_ok {c c' : Catalog} {m : Manifest} {origin : String} {count : Nat}
    (h : c.add m origin = .ok (c', count)) :
    ∃ entries, c.checkProcedures m origin = .ok entries ∧
      c'.types = m.types.entries.foldl (fun t e => t.insert e.1 ⟨e.2, origin⟩) c.types ∧
      c'.procedures = entries.foldl (fun t e => t.insert e.1 e.2) c.procedures := by
  unfold add at h
  split at h
  · cases h
  · rcases hcheck : c.checkProcedures m origin with error | entries
    · rw [hcheck] at h
      cases h
    · rw [hcheck] at h
      cases h
      exact ⟨entries, rfl, rfl, rfl⟩

theorem fits_of_mem_checkProcedures {c : Catalog} {m : Manifest} {origin : String}
    {entries : List (String × ProcEntry)} (h : c.checkProcedures m origin = .ok entries)
    {name : String} {e : ProcEntry} (hmem : (name, e) ∈ entries) :
    e.Fits fun type => c.types.contains type ∨ m.types.contains type := by
  rw [checkProcedures_eq] at h
  obtain ⟨x, _, hcheck⟩ := exists_of_mem_mapM h (name, e) hmem
  obtain ⟨_, _, hprocedure⟩ := checkEntry_eq_ok hcheck
  exact (fits_of_checkProcedure hprocedure).mono fun type htype => by simpa using htype

theorem Loaded.fits {c : Catalog} (h : c.Loaded) {name : String} {e : ProcEntry}
    (hget : c.procedures.get? name = some e) : e.Fits fun type => c.types.contains type := by
  induction h generalizing name e with
  | empty => cases hget
  | @add c c' m origin count hloaded hadd ih =>
      obtain ⟨entries, hcheck, htypes, hprocedures⟩ := add_eq_ok hadd
      have hmore : ∀ type, c.types.contains type ∨ m.types.contains type → c'.types.contains type := by
        intro type htype
        rw [htypes]
        rw [Table.contains_iff m.types] at htype
        exact (Table.contains_foldl_insert (f := fun host => ⟨host, origin⟩) _ _ type).mpr htype
      rw [hprocedures] at hget
      rcases Table.get?_foldl_insert (f := id) entries _ hget with hold | ⟨x, hx, rfl⟩
      · exact (ih hold).mono fun type htype => hmore type (Or.inl htype)
      · exact (fits_of_mem_checkProcedures hcheck hx).mono hmore

end Catalog

end ProcFlow
