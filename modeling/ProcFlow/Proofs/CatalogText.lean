import ProcFlow.Proofs.CatalogCalls
import ProcFlow.Proofs.Decoding
/-!
# Catalogs as text

A catalog that calls have led to can be written as one manifest and loaded again. The manifest comes back
from its text as it was. Its procedures then pass the checks, although they were admitted one manifest at
a time: each of them fits the types that the catalog has in the end, and the one manifest brings all of
these with it. Names are distinct in a catalog, so everything is added in its order. What is lost is only
where each type and procedure came from.
-/

namespace ProcFlow

open Json (Reads Checks Fills setAside)


/-! ### Manifests -/

theorem Slot.reads (s : Slot) : Reads Slot.decoder 1 s.document s :=
  Reads.record (.slot (.string s.name) rfl (.slot (.string s.type) rfl (.nil _))) (by decide) rfl

theorem FlowDef.reads (f : FlowDef) : Reads FlowDef.decoder 3 f.document f :=
  Reads.record (.slot (.string f.name) rfl (.slot (.list fun s _ => s.reads) rfl (.nil _)))
    (by decide) rfl

theorem Slot.checks (s : Slot) : Checks 1 s.document :=
  Checks.object (List.forall_mem_cons.mpr
    ⟨Checks.string s.name, List.forall_mem_singleton.mpr (Checks.string s.type)⟩)

theorem Slot.checks_list (slots : List Slot) : Checks 2 (.list (slots.map Slot.document)) :=
  Checks.list (List.forall_mem_map.mpr fun s _ => s.checks)

theorem FlowDef.checks (f : FlowDef) : Checks 3 f.document :=
  Checks.object (List.forall_mem_cons.mpr
    ⟨Checks.string f.name, List.forall_mem_singleton.mpr (Slot.checks_list f.values)⟩)

theorem FlowDef.checks_list (flows : List FlowDef) : Checks 4 (.list (flows.map FlowDef.document)) :=
  Checks.list (List.forall_mem_map.mpr fun f _ => f.checks)

namespace ProcManifest

/-- The members of a definition, which stand before the template. -/
def definitionMembers (d : Definition) : List (String × Json.Document) :=
  [("inputs", .list (d.inputs.map Slot.document)), ("outputs", .list (d.outputs.map FlowDef.document))]

theorem definitionMembers_set_aside (d : Definition) :
    ∀ m ∈ definitionMembers d, m.1 ≠ "template" ∧ Checks 4 m.2 :=
  List.forall_mem_cons.mpr ⟨⟨by simp, (Slot.checks_list d.inputs).mono (by decide)⟩,
    List.forall_mem_singleton.mpr ⟨by simp, FlowDef.checks_list d.outputs⟩⟩

theorem fills_definitionMembers (d : Definition) :
    Fills 4 definitionShape.fields (none, none) (definitionMembers d) (some d.inputs, some d.outputs) :=
  .slot (Reads.mono (.list fun s _ => s.reads) (by decide)) rfl
    (.slot (.list fun f _ => f.reads) rfl (.nil _))

theorem collect_eq {height : Nat} {members : List (String × Json.Document)}
    (hmembers : ∀ m ∈ members, m.1 ≠ "template" ∧ Checks height m.2) (template : String)
    {r : Json.Reading} (hr : r.depth + height ≤ Json.maxDepth) (kept : List (String × Json.Node)) :
    collect r (Json.Document.memberNodes (members ++ [("template", .string template)])) none kept
      = .ok (some template, kept.reverse ++ setAside members) := by
  induction members generalizing kept with
  | nil =>
      have hread : Json.Decode.string r (Json.Document.string template).node = .ok template :=
        Json.Literal.text_ofString template
      rw [List.nil_append, Json.Document.memberNodes, collect, Json.Literal.text_ofString]
      simp only [bind, Except.bind, if_true, Option.isSome_none, Bool.false_eq_true, if_false, hread]
      rw [Json.Document.memberNodes, collect, setAside, List.map_nil, List.append_nil]
  | cons m rest ih =>
      obtain ⟨hkey, hcheck⟩ := hmembers m List.mem_cons_self
      rw [List.cons_append, Json.Document.memberNodes, collect, Json.Literal.text_ofString]
      simp only [bind, Except.bind, if_neg hkey]
      rw [hcheck r hr]
      simp only
      rw [ih fun m hm => hmembers m (List.mem_cons_of_mem _ hm)]
      simp [setAside]

theorem reads (p : ProcManifest) : Reads decoder 5 p.document p := by
  intro r hr
  obtain ⟨inner, henter, hinner⟩ := Json.Reading.exists_enter hr
  have hcollect := collect_eq (definitionMembers_set_aside p.definition) p.template hinner []
  have hdraft := (fills_definitionMembers p.definition).readSetAside (by decide) (fun f hf => hf)
    (r := { inner with setAside := true }) hinner
  have hdocument : p.document = .object (definitionMembers p.definition
      ++ [("template", .string p.template)]) := rfl
  rw [hdocument, Json.Document.node, decoder]
  simp only [henter, bind, Except.bind, hcollect, List.reverse_nil, List.nil_append, hdraft]
  rfl

end ProcManifest

theorem Manifest.reads (m : Manifest) : Reads Manifest.decoder 7 m.document m := by
  have htypes : Reads (Json.Decode.table Json.Decode.string) 1 (m.types.document .string) m.types :=
    .table fun e _ => .string e.2
  have hprocedures : Reads (Json.Decode.table ProcManifest.decoder) 6
      (m.procedures.document ProcManifest.document) m.procedures := .table fun e _ => e.2.reads
  exact Reads.record (.slot (htypes.mono (by decide)) rfl (.slot hprocedures rfl (.nil _)))
    (by decide) rfl

theorem Manifest.ofJson_canonicalJson (m : Manifest) : Manifest.ofJson m.canonicalJson = .ok m :=
  Json.Decode.text_eq_ok m.reads (by decide) m.document.ofText_compact


/-! ### Adding all at once -/

namespace Catalog

theorem checkProcedure_of_fits {known : TypeId → Bool} {e : ProcEntry}
    (h : e.Fits fun type => known type = true) (origin name : String) :
    checkProcedure known origin name ⟨e.definition, e.template.source⟩
      = .ok { e with origin := origin } := by
  have hdefinition : definitionFlaw? known e.definition = none := by
    simp only [definitionFlaw?, Option.orElse_eq_orElse, Option.orElse_eq_or, Option.or_eq_none_iff,
      Option.map_eq_none_iff, List.find?_eq_none, List.findSome?_eq_none_iff, firstRepeat?_eq_none_iff]
    refine ⟨?_, ⟨h.slots, by simp⟩, ⟨h.flows, by simp⟩, ⟨h.suffixes, by simp⟩, ?_⟩
    · intro type htype
      simp [h.types type htype]
    · exact fun f hf => ⟨h.values f hf, by simp⟩
  have htemplate : templateFlaw? e.definition e.template = none := by
    simp only [templateFlaw?, Option.orElse_eq_orElse, Option.orElse_eq_or, Option.or_eq_none_iff,
      Option.map_eq_none_iff, List.find?_eq_none]
    refine ⟨?_, ?_⟩
    · intro slot hslot
      simpa [Option.isSome_iff_ne_none] using h.inputs slot hslot
    · intro flow hflow
      simpa [Option.isSome_iff_ne_none] using Definition.flow?_isSome_iff.mpr (h.exits flow hflow)
  simp only [checkProcedure, hdefinition, h.template, htemplate]

/-- The catalog as if all of it had come from one place. -/
def withOrigin (c : Catalog) (origin : String) : Catalog where
  types := c.types.mapValues fun e => { e with origin }
  procedures := c.procedures.mapValues fun e => { e with origin }

theorem manifest_withOrigin (c : Catalog) (origin : String) :
    (c.withOrigin origin).manifest = c.manifest := by
  simp only [manifest, withOrigin, Table.mapValues, List.map_map, Function.comp_def]

theorem contains_manifest_types (c : Catalog) (type : TypeId) :
    c.manifest.types.contains type = c.types.contains type := by
  have hkeys : c.manifest.types.keys = c.types.keys := by
    simp [manifest, Table.keys, Table.mapValues]
  rw [Bool.eq_iff_iff, Table.contains_iff, Table.contains_iff, hkeys]

theorem Loaded.checkProcedures_manifest {c : Catalog} (h : c.Loaded) (origin : String) :
    Catalog.empty.checkProcedures c.manifest origin = .ok (c.withOrigin origin).procedures.entries := by
  have hentry : ∀ e ∈ c.procedures.entries,
      checkProcedure
        (fun type => Catalog.empty.types.contains type || c.manifest.types.contains type) origin e.1
        ⟨e.2.definition, e.2.template.source⟩ = .ok { e.2 with origin } := by
    intro e he
    -- It was admitted when there were fewer types, and fits those that there are now.
    have hfits := h.fits ((Table.get?_eq_some_iff c.procedures e.1 e.2).mpr he)
    apply checkProcedure_of_fits
    apply hfits.mono
    intro type htype
    rw [contains_manifest_types, htype, Bool.or_true]
  apply mapM_map_eq_ok
  intro e he
  have hnew : Catalog.empty.procedures.get? e.1 = none := rfl
  simp only [hnew, hentry e he]
  rfl

/-- One manifest brings back the whole catalog. -/
theorem Loaded.add_manifest {c : Catalog} (h : c.Loaded) (origin : String) :
    Catalog.empty.add c.manifest origin = .ok (c.withOrigin origin, c.size) := by
  have hclash : Catalog.empty.typeClash? c.manifest origin = none := by
    simp [typeClash?, Catalog.empty, Table.empty, Table.get?]
  have htypes : c.manifest.types.entries.foldl (fun t e => t.insert e.1 ⟨e.2, origin⟩)
      Catalog.empty.types = (c.withOrigin origin).types := by
    apply Table.ext
    rw [Table.entries_foldl_insert (f := fun host => TypeEntry.mk host origin) c.manifest.types.entries
      Catalog.empty.types c.manifest.types.nodup]
    simp [manifest, withOrigin, Table.mapValues, Catalog.empty, Table.empty]
  have hprocedures : (c.withOrigin origin).procedures.entries.foldl (fun t e => t.insert e.1 e.2)
      Catalog.empty.procedures = (c.withOrigin origin).procedures := Table.ofList_entries _
  have hsize : (c.withOrigin origin).procedures.entries.length = c.size := List.length_map _
  rw [Catalog.add, hclash]
  simp only [h.checkProcedures_manifest origin, bind, Except.bind, htypes, hprocedures, hsize]
  rfl

/-- Every catalog that calls have led to is loaded from its canonical text as it is, its types and
procedures in order, and only with the new origin; so its text is the same again. -/
theorem addText_canonicalJson {c : Catalog} (hreachable : c.Reachable) (origin : String) :
    empty.addText c.canonicalJson origin = .ok (c.withOrigin origin, c.size) ∧
      (c.withOrigin origin).canonicalJson = c.canonicalJson := by
  refine ⟨?_, ?_⟩
  · rw [addText, canonicalJson, Manifest.ofJson_canonicalJson]
    exact hreachable.loaded.add_manifest origin
  · rw [canonicalJson, manifest_withOrigin, canonicalJson]

theorem addText_withFlags :
    withFlags.Reachable ∧
      empty.addText withFlags.canonicalJson "copy.json" = .ok (withFlags.withOrigin "copy.json", 11) := by
  have hadd := (addText_canonicalJson reachable_withFlags "copy.json").1
  rw [size_withFlags] at hadd
  exact ⟨reachable_withFlags, hadd⟩

end Catalog

end ProcFlow
