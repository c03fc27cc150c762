import ProcFlow.Proofs.CatalogText
import ProcFlow.Proofs.Unfolding
/-!
# Canonical texts as keys

A compilation is known by the digests of two texts, the canonical text of the graph and that of the
catalog. The texts say all that compiling looks at. A document can be read back from its compact form, so
no two documents share one, and a graph can be told from its document whatever numbers it names its nodes
by. A catalog cannot be told from its text, which leaves out where things came from; but what a loaded
catalog answers can, because each template is what parsing its source gives.
-/

namespace ProcFlow

open Function (Injective)

namespace Json

theorem Literal.ofString_injective : Injective Literal.ofString := by
  intro s s' heq
  have htext := congrArg Literal.text heq
  rw [Literal.text_ofString, Literal.text_ofString] at htext
  exact Except.ok.inj htext

theorem Numeral.ofNat_injective : Injective Numeral.ofNat := by
  intro n n' heq
  have hdigits : Nat.toDigits 10 n = Nat.toDigits 10 n' := congrArg Numeral.whole heq
  rw [← @Nat.ofDigitChars_ten_toDigits n, hdigits, Nat.ofDigitChars_ten_toDigits]

namespace Document

mutual

theorem eq_of_node_eq (d d' : Document) (heq : d.node = d'.node) : d = d' := by
  match d, d' with
  | string s, string s' =>
      rw [node, node] at heq
      rw [Literal.ofString_injective (Node.string.inj heq)]
  | number n, number n' =>
      rw [node, node] at heq
      rw [Numeral.ofNat_injective (Node.number.inj heq)]
  | list items, list items' =>
      rw [node, node] at heq
      rw [eq_of_itemNodes_eq items items' (Node.list.inj heq).1]
  | object members, object members' =>
      rw [node, node] at heq
      rw [eq_of_memberNodes_eq members members' (Node.object.inj heq).1]

theorem eq_of_itemNodes_eq (items items' : List Document) (heq : itemNodes items = itemNodes items') :
    items = items' := by
  match items, items' with
  | [], [] => rfl
  | d :: rest, d' :: rest' =>
      rw [itemNodes, itemNodes] at heq
      obtain ⟨hfirst, hrest⟩ := List.cons.inj heq
      rw [eq_of_node_eq d d' hfirst, eq_of_itemNodes_eq rest rest' hrest]

theorem eq_of_memberNodes_eq (members members' : List (String × Document))
    (heq : memberNodes members = memberNodes members') : members = members' := by
  match members, members' with
  | [], [] => rfl
  | (key, d) :: rest, (key', d') :: rest' =>
      rw [memberNodes, memberNodes] at heq
      obtain ⟨hfirst, hrest⟩ := List.cons.inj heq
      obtain ⟨hkey, hd⟩ := Prod.mk.inj hfirst
      rw [Literal.ofString_injective hkey, eq_of_node_eq d d' hd, eq_of_memberNodes_eq rest rest' hrest]

end

theorem compact_injective : Injective compact := by
  intro d d' heq
  have hread := congrArg Node.ofText heq
  rw [ofText_compact, ofText_compact] at hread
  exact eq_of_node_eq d d' (Prod.mk.inj hread).1

theorem string_injective : Injective string := fun _ _ heq => Document.string.inj heq

end Document

end Json


/-! ### Graphs -/

open Json (Document)

theorem Source.document_injective : Injective Source.document := by
  intro s s' heq
  cases s with
  | entry =>
      cases s' with
      | entry => rfl
      | proc node' flow' => simp [Source.document] at heq
  | proc node flow =>
      cases s' with
      | entry => simp [Source.document] at heq
      | proc node' flow' =>
          obtain ⟨i⟩ := node
          obtain ⟨i'⟩ := node'
          simpa [Source.document] using heq

theorem Target.document_injective : Injective Target.document := by
  intro t t' heq
  cases t with
  | proc node =>
      cases t' with
      | proc node' =>
          obtain ⟨i⟩ := node
          obtain ⟨i'⟩ := node'
          simpa [Target.document] using heq
      | output flow' => simp [Target.document] at heq
  | output flow =>
      cases t' with
      | proc node' => simp [Target.document] at heq
      | output flow' => simpa [Target.document] using heq

theorem SymbolRef.document_injective : Injective SymbolRef.document := by
  intro s s' heq
  obtain ⟨origin, id⟩ := s
  obtain ⟨origin', id'⟩ := s'
  simpa [SymbolRef.document, Source.document_injective.eq_iff] using heq

theorem Edge.document_injective : Injective Edge.document := by
  intro e e' heq
  obtain ⟨source, target⟩ := e
  obtain ⟨source', target'⟩ := e'
  simpa [Edge.document, Source.document_injective.eq_iff, Target.document_injective.eq_iff] using heq

theorem Table.document_injective {α : Type} {item : α → Document} (hitem : Injective item) :
    Injective (Table.document item) := by
  intro t t' heq
  apply Table.ext
  apply List.map_injective_iff.mpr _ (Document.object.inj heq)
  intro e e' hentry
  obtain ⟨hkey, hvalue⟩ := Prod.mk.inj hentry
  exact Prod.ext hkey (hitem hvalue)

theorem ProcNode.document_injective : Injective ProcNode.document := by
  intro p p' heq
  obtain ⟨procedure, inputs⟩ := p
  obtain ⟨procedure', inputs'⟩ := p'
  simpa [ProcNode.document, (Table.document_injective SymbolRef.document_injective).eq_iff] using heq

theorem InputDecl.document_injective : Injective InputDecl.document := by
  intro d d' heq
  obtain ⟨names, type⟩ := d
  obtain ⟨names', type'⟩ := d'
  simpa [InputDecl.document, (List.map_injective_iff.mpr Document.string_injective).eq_iff] using heq

theorem OutputValue.document_injective : Injective OutputValue.document := by
  intro v v' heq
  obtain ⟨type, source⟩ := v
  obtain ⟨type', source'⟩ := v'
  simpa [OutputValue.document, SymbolRef.document_injective.eq_iff] using heq

/-- Different graphs have different canonical texts, also graphs that no text could be read as. -/
theorem Graph.canonicalJson_injective : Injective Graph.canonicalJson := by
  intro g g' heq
  have hdocument : g.document = g'.document := Document.compact_injective heq
  obtain ⟨procs, edges, inputs, outputFlows⟩ := g
  obtain ⟨procs', edges', inputs', outputFlows'⟩ := g'
  have hvalues := Table.document_injective OutputValue.document_injective
  simpa [Graph.document, (List.map_injective_iff.mpr ProcNode.document_injective).eq_iff,
    (List.map_injective_iff.mpr Edge.document_injective).eq_iff,
    (Table.document_injective InputDecl.document_injective).eq_iff,
    (Table.document_injective hvalues).eq_iff] using hdocument


/-! ### Catalogs -/

theorem Table.get?_mapValues {α β : Type} (f : α → β) (t : Table α) (key : String) :
    (t.mapValues f).get? key = (t.get? key).map f :=
  lookup_map f t.entries key

theorem Manifest.canonicalJson_injective : Injective Manifest.canonicalJson := by
  intro m m' heq
  have hread := congrArg Manifest.ofJson heq
  rw [ofJson_canonicalJson, ofJson_canonicalJson] at hread
  exact Except.ok.inj hread

namespace Catalog

variable {c c' : Catalog}

theorem definitions_manifest (c : Catalog) : c.manifest.definitions = c.definitions := by
  simp only [Manifest.definitions, definitions, manifest, Table.get?_mapValues, Option.map_map,
    Function.comp_def]

/-- The templates of a loaded catalog are what its sources are parsed to. -/
theorem Loaded.implementations_manifest (h : c.Loaded) :
    c.manifest.implementations = c.implementations := by
  rw [Manifest.implementations, implementations, Implementations.mk.injEq]
  refine ⟨?_, ?_⟩
  · funext name
    -- The text keeps the source of a template alone, and the entry fits it because it was loaded.
    rw [manifest, Table.get?_mapValues]
    cases he : c.procedures.get? name with
    | none => rfl
    | some e => simp [(h.fits he).template, Except.toOption]
  · funext type
    exact Table.get?_mapValues TypeEntry.host c.types type

theorem Loaded.setup_eq (h : c.Loaded) (h' : c'.Loaded) (hmanifest : c.manifest = c'.manifest)
    (g : Graph) : c.setup g = c'.setup g := by
  rw [setup, setup, context, context, ← definitions_manifest c, ← definitions_manifest c',
    ← h.implementations_manifest, ← h'.implementations_manifest, hmanifest]

/-- Graphs and loaded catalogs with the same canonical texts are compiled to the same result: code,
diagnostics in their order, and provenance. -/
theorem compile_eq_of_canonicalJson (hloaded : c.Loaded) (hloaded' : c'.Loaded) {g g' : Graph}
    (hgraph : g.canonicalJson = g'.canonicalJson) (hcatalog : c.canonicalJson = c'.canonicalJson)
    (flavor : Code.Flavor) : compile g c flavor = compile g' c' flavor := by
  obtain rfl := Graph.canonicalJson_injective hgraph
  have hsetup := hloaded.setup_eq hloaded' (Manifest.canonicalJson_injective hcatalog) g
  have hcontext : c.context g = c'.context g := congrArg Code.Setup.context hsetup
  have himplementations : c.implementations = c'.implementations :=
    congrArg Code.Setup.implementations hsetup
  rw [compile, compile, Provenance.of, Provenance.of, hcontext, himplementations, hcatalog]

/-- A catalog that several calls have built, and one that its own text has built in one. -/
theorem compile_division_withFlags :
    withFlags.Loaded ∧ (withFlags.withOrigin "copy.json").Loaded ∧
      withFlags ≠ withFlags.withOrigin "copy.json" ∧
      withFlags.canonicalJson = (withFlags.withOrigin "copy.json").canonicalJson ∧
      compile Code.division withFlags .cont
        = compile Code.division (withFlags.withOrigin "copy.json") .cont := by
  have hloaded := reachable_withFlags.loaded
  have hloaded' : (withFlags.withOrigin "copy.json").Loaded :=
    Loaded.empty.add (hloaded.add_manifest "copy.json")
  have hne : withFlags ≠ withFlags.withOrigin "copy.json" := by
    intro heq
    have horigin := congrArg (fun c => (c.types.get? "flag").map TypeEntry.origin) heq
    revert horigin
    decide +kernel
  have htext : withFlags.canonicalJson = (withFlags.withOrigin "copy.json").canonicalJson := by
    rw [canonicalJson, canonicalJson, manifest_withOrigin]
  exact ⟨hloaded, hloaded', hne, htext, compile_eq_of_canonicalJson hloaded hloaded' rfl htext .cont⟩

end Catalog

end ProcFlow
