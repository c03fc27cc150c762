import ProcFlow.Proofs.CatalogCalls
import ProcFlow.Proofs.Stability
/-!
# The order in which manifests are added

What a catalog answers after a manifest has been added is what it answered before, and what the manifest
says as it is written where it had no answer. The checks decide whether a manifest is added; they leave no
trace in the answers.

So two manifests that can be added in either order lead to the same answers. Neither says anything of what
the other does, or else the later one would have been refused. The entries come in another order and the
texts of the two catalogs differ, but a graph comes to a catalog only by asking it.
-/

namespace ProcFlow

/-! ### Answers on top of others -/

/-- Names that had no answer get one, and all others keep theirs. -/
structure Augments {α : Type} (old new after : String → Option α) : Prop where
  answer : ∀ key, after key = (old key).or (new key)
  fresh : ∀ key, (new key).isSome → old key = none

namespace Augments

variable {α β : Type} {old new new₁ new₂ after after₁ after₂ after₁₂ after₂₁ : String → Option α}

theorem map (h : Augments old new after) (f : α → β) :
    Augments (fun key => (old key).map f) (fun key => (new key).map f)
      (fun key => (after key).map f) where
  answer key := by rw [h.answer, Option.map_or]
  fresh key hsome := by
    rw [Option.isSome_map] at hsome
    rw [h.fresh key hsome, Option.map_none]

/-- What is put on top second had no answer before, in either order, so the order does not matter. -/
theorem comm (h₁ : Augments old new₁ after₁) (h₁₂ : Augments after₁ new₂ after₁₂)
    (h₂ : Augments old new₂ after₂) (h₂₁ : Augments after₂ new₁ after₂₁) : after₂₁ = after₁₂ := by
  funext key
  have hfresh := h₁₂.fresh key
  rw [h₁.answer, Option.or_eq_none_iff] at hfresh
  rw [h₂₁.answer, h₂.answer, h₁₂.answer, h₁.answer, Option.or_assoc, Option.or_assoc]
  cases hnew : new₂ key with
  | none => rw [Option.none_or, Option.or_none]
  | some value =>
      obtain ⟨hold, hnone⟩ := hfresh (by rw [hnew, Option.isSome_some])
      rw [hnone, Option.or_none, Option.none_or]

end Augments

namespace Table

variable {α β : Type}

theorem augments_foldl_insert {f : β → α} {l : List (String × β)} {t : Table α}
    (hnodup : (l.map Prod.fst).Nodup) (hnew : ∀ key ∈ l.map Prod.fst, t.get? key = none) :
    Augments t.get? (fun key => (l.lookup key).map f)
      (l.foldl (fun t e => t.insert e.1 (f e.2)) t).get? where
  answer key := by
    have hkeys : (t.keys ++ l.map Prod.fst).Nodup := by
      rw [List.nodup_append]
      refine ⟨t.nodup, hnodup, ?_⟩
      rintro name hold _ hmem rfl
      rw [← contains_iff, contains, hnew name hmem] at hold
      cases hold
    rw [get?, entries_foldl_insert l t hkeys, List.lookup_append, lookup_map]
    rfl
  fresh key hsome := by
    rw [Option.isSome_map, List.lookup_isSome_iff] at hsome
    obtain ⟨e, he, hkey⟩ := hsome
    rw [beq_iff_eq.mp hkey]
    exact hnew e.1 (List.mem_map_of_mem he)

end Table


/-! ### What a manifest adds -/

/-- An entry of a catalog says what a procedure of a manifest says. -/
structure ProcManifest.Becomes (p : ProcManifest) (e : ProcEntry) : Prop where
  definition : e.definition = p.definition
  template : Template.parse p.template = .ok e.template

namespace Catalog

open Code

variable {c c' : Catalog} {m : Manifest} {origin : String} {count : Nat}

theorem becomes_of_checkProcedure {known : TypeId → Bool} {name : String} {p : ProcManifest}
    {e : ProcEntry} (h : checkProcedure known origin name p = .ok e) : p.Becomes e := by
  obtain ⟨template, _, hparse, _, rfl⟩ := checkProcedure_eq_ok h
  exact ⟨rfl, hparse⟩

theorem forall₂_of_checkProcedures {entries : List (String × ProcEntry)}
    (h : c.checkProcedures m origin = .ok entries) :
    List.Forall₂ (fun p e => e.1 = p.1 ∧ p.2.Becomes e.2) m.procedures.entries entries := by
  rw [checkProcedures_eq] at h
  refine (forall₂_of_mapM h).imp fun p e hcheck => ?_
  obtain ⟨_, hname, hprocedure⟩ := checkEntry_eq_ok hcheck
  exact ⟨hname, becomes_of_checkProcedure hprocedure⟩

theorem map_fst_of_forall₂ {procedures : List (String × ProcManifest)}
    {entries : List (String × ProcEntry)}
    (h : List.Forall₂ (fun p e => e.1 = p.1 ∧ p.2.Becomes e.2) procedures entries) :
    entries.map Prod.fst = procedures.map Prod.fst := by
  induction h with
  | nil => rfl
  | cons hfirst _ ih => rw [List.map_cons, List.map_cons, hfirst.1, ih]

/-- What an entry shows and a manifest says of a procedure is looked up the same in both. -/
theorem map_lookup_of_forall₂ {α : Type} {shown : ProcEntry → α} {said : ProcManifest → Option α}
    (hsaid : ∀ p e, p.Becomes e → said p = some (shown e))
    {procedures : List (String × ProcManifest)} {entries : List (String × ProcEntry)}
    (h : List.Forall₂ (fun p e => e.1 = p.1 ∧ p.2.Becomes e.2) procedures entries) (name : String) :
    (entries.lookup name).map shown = (procedures.lookup name).bind said := by
  induction h with
  | nil => rfl
  | @cons p e _ _ hfirst _ ih =>
      rw [List.lookup_cons, List.lookup_cons, hfirst.1]
      cases name == p.1 with
      | true => exact (hsaid p.2 e.2 hfirst.2).symm
      | false => exact ih


/-! ### The answers of a catalog that has grown -/

theorem host?_augments (h : c.add m origin = .ok (c', count)) :
    Augments c.definitions.host? m.definitions.host? c'.definitions.host? := by
  obtain ⟨_, _, htypes, _⟩ := add_eq_ok h
  have htable : Augments c.types.get? (fun id => (m.types.get? id).map (⟨·, origin⟩)) c'.types.get? := by
    rw [htypes]
    exact Table.augments_foldl_insert m.types.nodup fun id hid => get?_types_of_add h hid
  have hsaid : m.definitions.host?
      = fun id => ((m.types.get? id).map (TypeEntry.mk · origin)).map TypeEntry.host := by
    funext id
    rw [Option.map_map]
    exact Option.map_id'.symm
  rw [hsaid]
  exact htable.map TypeEntry.host

theorem procedures_augment {α : Type} {shown : ProcEntry → α} {said : ProcManifest → Option α}
    (hsaid : ∀ p e, p.Becomes e → said p = some (shown e))
    (h : c.add m origin = .ok (c', count)) :
    Augments (fun name => (c.procedures.get? name).map shown)
      (fun name => (m.procedures.get? name).bind said)
      (fun name => (c'.procedures.get? name).map shown) := by
  obtain ⟨entries, hcheck, _, hprocedures⟩ := add_eq_ok h
  have hentries := forall₂_of_checkProcedures hcheck
  have hnodup : (entries.map Prod.fst).Nodup := by
    rw [map_fst_of_forall₂ hentries]
    exact m.procedures.nodup
  have htable := Table.augments_foldl_insert (f := id) hnodup
    fun name hname => get?_procedures_of_checkProcedures hcheck hname
  have hshown := htable.map shown
  simp only [Option.map_id, id_eq, map_lookup_of_forall₂ hsaid hentries] at hshown
  rw [hprocedures]
  exact hshown

theorem definition?_augments (h : c.add m origin = .ok (c', count)) :
    Augments c.definitions.definition? m.definitions.definition? c'.definitions.definition? := by
  have hsaid : m.definitions.definition?
      = fun name => (m.procedures.get? name).bind fun p => some p.definition := by
    funext name
    exact Option.map_eq_bind
  rw [hsaid]
  exact procedures_augment (fun p e hbecomes => congrArg some hbecomes.definition.symm) h

/-- A template that has been checked is what its source is parsed to. -/
theorem template?_augments (h : c.add m origin = .ok (c', count)) :
    Augments c.implementations.template? m.implementations.template?
      c'.implementations.template? := by
  refine procedures_augment (fun p e hbecomes => ?_) h
  rw [hbecomes.template]
  rfl


/-! ### Either order -/

/-- If two manifests can be added in either order, the two catalogs answer alike, and so every graph has
the same diagnostics and the same code in the light of both. -/
theorem generate_eq_of_either_order {c₁ c₂ c₁₂ c₂₁ : Catalog} {m₁ m₂ : Manifest}
    {origin₁ origin₂ origin₁' origin₂' : String} {count₁ count₂ count₁₂ count₂₁ : Nat}
    (h₁ : c.add m₁ origin₁ = .ok (c₁, count₁)) (h₁₂ : c₁.add m₂ origin₂ = .ok (c₁₂, count₁₂))
    (h₂ : c.add m₂ origin₂' = .ok (c₂, count₂)) (h₂₁ : c₂.add m₁ origin₁' = .ok (c₂₁, count₂₁)) :
    (∀ name, c₂₁.definitions.definition? name = c₁₂.definitions.definition? name) ∧
      (∀ type, c₂₁.definitions.host? type = c₁₂.definitions.host? type) ∧
      (∀ name, c₂₁.implementations.template? name = c₁₂.implementations.template? name) ∧
      (∀ type, c₂₁.implementations.host? type = c₁₂.implementations.host? type) ∧
      ∀ g, (c₂₁.context g).diagnostics = (c₁₂.context g).diagnostics ∧
        ∀ flavor, generate (c₂₁.context g) c₂₁.implementations flavor
          = generate (c₁₂.context g) c₁₂.implementations flavor := by
  have hdefinition := (definition?_augments h₁).comm (definition?_augments h₁₂)
    (definition?_augments h₂) (definition?_augments h₂₁)
  have htemplate := (template?_augments h₁).comm (template?_augments h₁₂)
    (template?_augments h₂) (template?_augments h₂₁)
  have hhost := (host?_augments h₁).comm (host?_augments h₁₂) (host?_augments h₂)
    (host?_augments h₂₁)
  refine ⟨congrFun hdefinition, congrFun hhost, congrFun htemplate, congrFun hhost, fun g => ?_⟩
  -- The catalog reaches the checks and the generator through these answers alone.
  have hdefinitions : c₂₁.definitions = c₁₂.definitions := congrArg₂ Definitions.mk hdefinition hhost
  have himplementations : c₂₁.implementations = c₁₂.implementations :=
    congrArg₂ Implementations.mk htemplate hhost
  rw [context, context, hdefinitions, himplementations]
  exact ⟨rfl, fun _ => rfl⟩

/-- A procedure on texts, and a type that no procedure needs. -/
def shoutManifest : Manifest where
  types := .ofList [("noise", "string")]
  procedures := .ofList
    [("shout", ⟨⟨[⟨"s", "string"⟩], [⟨"result", [⟨"res", "string"⟩]⟩]⟩,
      "@result(\x7b res: $s.toUpperCase() \x7d)"⟩)]

theorem exists_add_eq_after (c : Catalog) (m : Manifest) (origin : String)
    (h : (c.add m origin).isOk) :
    ∃ count, c.add m origin = .ok (c.after (.add m origin), count) := by
  cases hadd : c.add m origin with
  | error _ =>
      rw [hadd] at h
      cases h
  | ok added =>
      refine ⟨added.2, ?_⟩
      simp only [after, Call.result, hadd, Except.map]

/-- The standard catalog with flags, and then with shouting. -/
def flagsFirst : Catalog :=
  (standard.after (.add flagManifest "flags.json")).after (.add shoutManifest "shout.json")

/-- The standard catalog with shouting, and then with flags. -/
def shoutFirst : Catalog :=
  (standard.after (.add shoutManifest "shout.json")).after (.add flagManifest "flags.json")

theorem generate_flagsFirst_eq_shoutFirst :
    (∃ count₁ count₁₂ count₂ count₂₁,
      standard.add flagManifest "flags.json"
        = .ok (standard.after (.add flagManifest "flags.json"), count₁) ∧
      (standard.after (.add flagManifest "flags.json")).add shoutManifest "shout.json"
        = .ok (flagsFirst, count₁₂) ∧
      standard.add shoutManifest "shout.json"
        = .ok (standard.after (.add shoutManifest "shout.json"), count₂) ∧
      (standard.after (.add shoutManifest "shout.json")).add flagManifest "flags.json"
        = .ok (shoutFirst, count₂₁)) ∧
      flagsFirst.procedures.keys ≠ shoutFirst.procedures.keys ∧
      (∀ name, shoutFirst.definitions.definition? name = flagsFirst.definitions.definition? name) ∧
      ∀ flavor, generate (shoutFirst.context division) shoutFirst.implementations flavor
        = generate (flagsFirst.context division) flagsFirst.implementations flavor := by
  obtain ⟨count₁, h₁⟩ := exists_add_eq_after standard flagManifest "flags.json" (by decide +kernel)
  obtain ⟨count₁₂, h₁₂⟩ := exists_add_eq_after (standard.after (.add flagManifest "flags.json"))
    shoutManifest "shout.json" (by decide +kernel)
  obtain ⟨count₂, h₂⟩ := exists_add_eq_after standard shoutManifest "shout.json" (by decide +kernel)
  obtain ⟨count₂₁, h₂₁⟩ := exists_add_eq_after (standard.after (.add shoutManifest "shout.json"))
    flagManifest "flags.json" (by decide +kernel)
  obtain ⟨hdefinition, _, _, _, hgraph⟩ := generate_eq_of_either_order h₁ h₁₂ h₂ h₂₁
  refine ⟨⟨count₁, count₁₂, count₂, count₂₁, h₁, h₁₂, h₂, h₂₁⟩, ?_, hdefinition, (hgraph division).2⟩
  decide +kernel

end Catalog

end ProcFlow
