import ProcFlow.Proofs.Decoding
/-!
# Graphs as text

A graph that is written, compact or indented, and read again is the same graph, with the order of all its
tables. The one condition is that node identifiers are 32-bit numbers: a source or a target may name any
node, but reading refuses a larger number. Graphs that were read meet it, so writing and reading again
changes nothing for them, and the compact form tells any two graphs apart.
-/

namespace ProcFlow

open Json (Reads Checks Fills Yields bind_eq_ok forall_getD)
open Json.Decode (RecordField Shape need_eq_ok)

/-! ### Identifiers in range -/

def ProcId.InRange (id : ProcId) : Prop := id.index < idLimit

instance (id : ProcId) : Decidable id.InRange := inferInstanceAs (Decidable (id.index < idLimit))

def Source.InRange : Source → Prop
  | .entry => True
  | .proc node _ => node.InRange

instance : (s : Source) → Decidable s.InRange
  | .entry => isTrue trivial
  | .proc node _ => inferInstanceAs (Decidable node.InRange)

def Target.InRange : Target → Prop
  | .proc node => node.InRange
  | .output _ => True

instance : (t : Target) → Decidable t.InRange
  | .proc node => inferInstanceAs (Decidable node.InRange)
  | .output _ => isTrue trivial

/-- Every identifier in the graph is a 32-bit number, whether or not there is such a node. -/
structure Graph.InRange (g : Graph) : Prop where
  inputs : ∀ node ∈ g.procs, ∀ e ∈ node.inputs.entries, e.2.origin.InRange
  edges : ∀ e ∈ g.edges, e.source.InRange ∧ e.target.InRange
  outputs : ∀ flow ∈ g.outputFlows.entries, ∀ e ∈ flow.2.entries, e.2.source.origin.InRange


/-! ### Reading what was written -/

theorem ProcId.InRange.checks {id : ProcId} (h : id.InRange) : Checks 0 (.number id.index) :=
  Checks.number (Nat.lt_trans h (by decide))

theorem Source.reads {s : Source} (h : s.InRange) : Reads Source.decoder 1 s.document s := by
  cases s with
  | entry => exact Reads.tagged (by decide) (by simp) fun _ _ => rfl
  | proc node flow =>
      refine Reads.alternative (by decide) ?_ (fun _ _ => if_neg (by decide))
        (.slot (.word32 h) rfl (.slot (.string flow) rfl (.nil _))) (by decide) rfl
      exact List.forall_mem_cons.mpr ⟨⟨by simp, h.checks⟩,
        List.forall_mem_singleton.mpr ⟨by simp, Checks.string flow⟩⟩

theorem Target.reads {t : Target} (h : t.InRange) : Reads Target.decoder 1 t.document t := by
  cases t with
  | proc node =>
      refine Reads.alternative (by decide) ?_ (fun _ _ => if_pos rfl)
        (.slot (.word32 h) rfl (.nil _)) (by decide) rfl
      exact List.forall_mem_singleton.mpr ⟨by simp, h.checks⟩
  | output flow =>
      refine Reads.alternative (by decide) ?_ (fun _ _ => if_neg (by decide))
        (.slot (.string flow) rfl (.nil _)) (by decide) rfl
      exact List.forall_mem_singleton.mpr ⟨by simp, Checks.string flow⟩

theorem SymbolRef.reads {s : SymbolRef} (h : s.origin.InRange) :
    Reads SymbolRef.decoder 2 s.document s :=
  Reads.record (.slot (Source.reads h) rfl (.slot (.string s.id) rfl (.nil _))) (by decide) rfl

theorem Edge.reads {e : Edge} (hsource : e.source.InRange) (htarget : e.target.InRange) :
    Reads Edge.decoder 2 e.document e :=
  Reads.record (.slot (Source.reads hsource) rfl (.slot (Target.reads htarget) rfl (.nil _)))
    (by decide) rfl

theorem ProcNode.reads {p : ProcNode} (h : ∀ e ∈ p.inputs.entries, e.2.origin.InRange) :
    Reads ProcNode.decoder 4 p.document p :=
  Reads.record (.slot (.string p.procedure) rfl
    (.slot (.table fun e he => SymbolRef.reads (h e he)) rfl (.nil _))) (by decide) rfl

theorem InputDecl.reads (d : InputDecl) : Reads InputDecl.decoder 2 d.document d :=
  Reads.record (.slot (.list fun name _ => .string name) rfl
    (.slot (.string d.type) rfl (.nil _))) (by decide) rfl

theorem OutputValue.reads {v : OutputValue} (h : v.source.origin.InRange) :
    Reads OutputValue.decoder 3 v.document v :=
  Reads.record (.slot (.string v.type) rfl (.slot (SymbolRef.reads h) rfl (.nil _))) (by decide) rfl

theorem Graph.reads {g : Graph} (h : g.InRange) : Reads Graph.decoder 6 g.document g := by
  have hprocs : Reads (Json.Decode.list ProcNode.decoder) 5 (.list (g.procs.map ProcNode.document))
      g.procs := .list fun node hnode => ProcNode.reads (h.inputs node hnode)
  have hedges : Reads (Json.Decode.list Edge.decoder) 3 (.list (g.edges.map Edge.document)) g.edges :=
    .list fun e he => Edge.reads (h.edges e he).1 (h.edges e he).2
  have hinputs : Reads (Json.Decode.table InputDecl.decoder) 3
      (g.inputs.document InputDecl.document) g.inputs := .table fun e _ => InputDecl.reads e.2
  have houtputs : Reads (Json.Decode.table (Json.Decode.table OutputValue.decoder)) 5
      (g.outputFlows.document fun values => values.document OutputValue.document) g.outputFlows :=
    .table fun flow hflow => .table fun e he => OutputValue.reads (h.outputs flow hflow e he)
  exact Reads.record (.slot hprocs rfl (.slot (hedges.mono (by decide)) rfl
    (.slot (hinputs.mono (by decide)) rfl (.slot houtputs rfl (.nil _))))) (by decide) rfl


/-! ### What is read is in range -/

def EndDraft.InRange (d : EndDraft) : Prop := ∀ n ∈ d.1, n < idLimit

theorem nodeField_keeps : nodeField.Keeps EndDraft.InRange :=
  RecordField.slot_sets Yields.word32 fun _ _ => rfl

theorem flowField_keeps : flowField.Keeps EndDraft.InRange :=
  RecordField.slot_leaves fun _ _ hdraft => hdraft

theorem Source.yields : Yields Source.decoder Source.InRange := by
  apply Yields.tagged
  intro name r payload s h
  split at h
  · obtain ⟨_, _, h⟩ := bind_eq_ok h
    cases h
    exact trivial
  · obtain ⟨draft, hdraft, h⟩ := bind_eq_ok h
    obtain ⟨node, hnode, h⟩ := bind_eq_ok h
    obtain ⟨flow, _, h⟩ := bind_eq_ok h
    cases h
    have hfields : ∀ f ∈ [nodeField, flowField], f.Keeps EndDraft.InRange :=
      List.forall_mem_cons.mpr ⟨nodeField_keeps, List.forall_mem_singleton.mpr flowField_keeps⟩
    exact Shape.readPayload_keeps hfields nofun hdraft node (need_eq_ok hnode)

theorem Target.yields : Yields Target.decoder Target.InRange := by
  apply Yields.tagged
  intro name r payload t h
  split at h
  · obtain ⟨draft, hdraft, h⟩ := bind_eq_ok h
    obtain ⟨node, hnode, h⟩ := bind_eq_ok h
    cases h
    have hfields : ∀ f ∈ [nodeField], f.Keeps EndDraft.InRange :=
      List.forall_mem_singleton.mpr nodeField_keeps
    exact Shape.readPayload_keeps hfields nofun hdraft node (need_eq_ok hnode)
  · obtain ⟨draft, _, h⟩ := bind_eq_ok h
    obtain ⟨flow, _, h⟩ := bind_eq_ok h
    cases h
    exact trivial

theorem SymbolRef.yields : Yields SymbolRef.decoder (·.origin.InRange) := by
  refine Yields.record (List.forall_mem_cons.mpr
    ⟨RecordField.slot_sets Source.yields fun _ _ => rfl, List.forall_mem_singleton.mpr
      (RecordField.slot_leaves fun _ _ hdraft => hdraft)⟩) nofun ?_
  intro draft s hdraft h
  obtain ⟨origin, horigin, h⟩ := bind_eq_ok h
  obtain ⟨id, _, h⟩ := bind_eq_ok h
  cases h
  exact hdraft origin (need_eq_ok horigin)

theorem Edge.yields : Yields Edge.decoder fun e => e.source.InRange ∧ e.target.InRange := by
  refine Yields.record (I := fun d => (∀ s ∈ d.1, s.InRange) ∧ ∀ t ∈ d.2, t.InRange) ?_
    ⟨nofun, nofun⟩ ?_
  · refine List.forall_mem_cons.mpr ⟨?_, List.forall_mem_singleton.mpr ?_⟩
    · exact RecordField.slot_keeps Source.yields fun _ _ hdraft hs =>
        ⟨fun _ hmem => Option.some.inj hmem ▸ hs, hdraft.2⟩
    · exact RecordField.slot_keeps Target.yields fun _ _ hdraft ht =>
        ⟨hdraft.1, fun _ hmem => Option.some.inj hmem ▸ ht⟩
  · intro draft e hdraft h
    obtain ⟨source, hsource, h⟩ := bind_eq_ok h
    obtain ⟨target, htarget, h⟩ := bind_eq_ok h
    cases h
    exact ⟨hdraft.1 source (need_eq_ok hsource), hdraft.2 target (need_eq_ok htarget)⟩

theorem ProcNode.yields :
    Yields ProcNode.decoder fun p => ∀ e ∈ p.inputs.entries, e.2.origin.InRange := by
  refine Yields.record (List.forall_mem_cons.mpr
    ⟨RecordField.slot_leaves fun _ _ hdraft => hdraft, List.forall_mem_singleton.mpr
      (RecordField.slot_sets (Yields.table SymbolRef.yields) fun _ _ => rfl)⟩) nofun ?_
  intro draft p hdraft h
  obtain ⟨procedure, _, h⟩ := bind_eq_ok h
  cases h
  exact forall_getD hdraft nofun

theorem OutputValue.yields : Yields OutputValue.decoder (·.source.origin.InRange) := by
  refine Yields.record (List.forall_mem_cons.mpr
    ⟨RecordField.slot_leaves fun _ _ hdraft => hdraft, List.forall_mem_singleton.mpr
      (RecordField.slot_sets SymbolRef.yields fun _ _ => rfl)⟩) nofun ?_
  intro draft v hdraft h
  obtain ⟨type, _, h⟩ := bind_eq_ok h
  obtain ⟨source, hsource, h⟩ := bind_eq_ok h
  cases h
  exact hdraft source (need_eq_ok hsource)

namespace Graph

structure Draft.InRange (d : Draft) : Prop where
  procs : ∀ procs ∈ d.procs, ∀ node ∈ procs, ∀ e ∈ node.inputs.entries, e.2.origin.InRange
  edges : ∀ edges ∈ d.edges, ∀ e ∈ edges, e.source.InRange ∧ e.target.InRange
  outputFlows : ∀ flows ∈ d.outputFlows, ∀ flow ∈ flows.entries, ∀ e ∈ flow.2.entries,
    e.2.source.origin.InRange

theorem yields : Yields decoder InRange := by
  refine Yields.record (I := Draft.InRange) ?_ ⟨nofun, nofun, nofun⟩ ?_
  · refine List.forall_mem_cons.mpr ⟨?_, List.forall_mem_cons.mpr ⟨?_, List.forall_mem_cons.mpr
      ⟨?_, List.forall_mem_singleton.mpr ?_⟩⟩⟩
    · exact RecordField.slot_keeps (Yields.list ProcNode.yields) fun _ _ hdraft hprocs =>
        { hdraft with procs := fun _ hmem => Option.some.inj hmem ▸ hprocs }
    · exact RecordField.slot_keeps (Yields.list Edge.yields) fun _ _ hdraft hedges =>
        { hdraft with edges := fun _ hmem => Option.some.inj hmem ▸ hedges }
    · exact RecordField.slot_leaves fun _ _ hdraft => ⟨hdraft.procs, hdraft.edges, hdraft.outputFlows⟩
    · exact RecordField.slot_keeps (Yields.table (Yields.table OutputValue.yields))
        fun _ _ hdraft hflows =>
          { hdraft with outputFlows := fun _ hmem => Option.some.inj hmem ▸ hflows }
  · intro draft g hdraft h
    cases h
    exact ⟨forall_getD hdraft.procs nofun, forall_getD hdraft.edges nofun,
      forall_getD hdraft.outputFlows nofun⟩


/-! ### The round trip -/

theorem ofJson_canonicalJson {g : Graph} (h : g.InRange) : ofJson g.canonicalJson = .ok g :=
  Json.Decode.text_eq_ok (reads h) (by decide) g.document.ofText_compact

theorem ofJson_prettyJson {g : Graph} (h : g.InRange) : ofJson g.prettyJson = .ok g :=
  Json.Decode.text_eq_ok (reads h) (by decide) g.document.ofText_pretty

/-- Either form of a graph is read as that graph, the compact form tells graphs apart, and a graph that
was read is in range, so it comes back from its compact form. -/
theorem text_round_trip :
    (∀ g : Graph, g.InRange → ofJson g.canonicalJson = .ok g ∧ ofJson g.prettyJson = .ok g) ∧
      (∀ g g' : Graph, g.InRange → g'.InRange → g.canonicalJson = g'.canonicalJson → g = g') ∧
      ∀ text g, ofJson text = .ok g → g.InRange ∧ ofJson g.canonicalJson = .ok g := by
  refine ⟨?_, ?_, ?_⟩
  · exact fun g hg => ⟨ofJson_canonicalJson hg, ofJson_prettyJson hg⟩
  · intro g g' hg hg' htext
    have hread := ofJson_canonicalJson hg'
    rw [← htext, ofJson_canonicalJson hg] at hread
    exact Except.ok.inj hread
  · intro text g hread
    have hg : g.InRange := Json.Decode.yields_of_text yields hread
    exact ⟨hg, ofJson_canonicalJson hg⟩

/-- Names that have to be escaped, and the largest identifier, which names no node. -/
def strange : Graph where
  procs := [⟨"\"\\\n\x00",
    .ofList [("", ⟨.proc ⟨4294967295⟩ "\x7f😀", "\x1f/"⟩), ("a", ⟨.entry, "é"⟩)]⟩]
  edges := [⟨.proc ⟨0⟩ "", .output "\t"⟩, ⟨.entry, .proc ⟨4294967295⟩⟩]
  inputs := .ofList [("z", ⟨["z", "z"], "number"⟩), ("a", ⟨[], ""⟩)]
  outputFlows := .ofList [("none", .empty), ("\t", .ofList [("v", ⟨"number", ⟨.entry, "z"⟩⟩)])]

/-- A graph as it may be written by hand: with blanks, escapes, records as lists and a tag that comes
last. -/
def handwritten : String :=
  " \x7b\"edges\": [[ [\"entry\"], \x7b \"flow\" : \"\\u0041\" , \"type\":\"output\"\x7d]]\x7d"

theorem strange_round_trip :
    strange.InRange ∧ ofJson strange.canonicalJson = .ok strange ∧
      ofJson strange.prettyJson = .ok strange ∧
      ∃ g, ofJson handwritten = .ok g ∧ ofJson g.canonicalJson = .ok g ∧
        strange.canonicalJson ≠ g.canonicalJson := by
  have hstrange : strange.InRange := ⟨by decide, by decide, by decide⟩
  have hread : ofJson handwritten = .ok ⟨[], [⟨.entry, .output "A"⟩], .empty, .empty⟩ := by decide +kernel
  obtain ⟨hwrite, hinjective, haccepted⟩ := text_round_trip
  obtain ⟨hg, hagain⟩ := haccepted _ _ hread
  refine ⟨hstrange, (hwrite strange hstrange).1, (hwrite strange hstrange).2, _, hread, hagain, ?_⟩
  intro htext
  have hequal := hinjective _ _ hstrange hg htext
  exact absurd (congrArg Graph.procs hequal) (by simp [strange])

end Graph

end ProcFlow
