import ProcFlow.Proofs.DrawingText
/-!
# Where arrows end

An arrow of a drawing names two nodes, and a node that no statement declares is drawn all the same, but
without its label and without a word about its being missing. The statements for nodes have distinct
names. They declare the entry, the output, each node of the arena, and each node outside of it that a
control edge mentions; so control edges end at declared nodes, and data links lead to such.

A data link may come from anywhere, though, since an input slot or a value of an output flow may read from
a node that does not exist. Where no control edge happens to mention that node as well, nothing declares
it. Every end is declared by one statement exactly if that does not occur.
-/

namespace ProcFlow

/-- Where the input slots of nodes and the values of output flows read from. -/
def Graph.origins (g : Graph) : List Source :=
  (g.procs.flatMap fun node => node.inputs.entries.map fun (_, symbol) => symbol.origin)
    ++ g.outputEntries.map fun (_, _, value) => value.source.origin

namespace Drawing

/-- What the lines of a text say, in order; lines without a label say nothing. -/
def readings (text : String) : List Reading := (textLines text).filterMap read?

/-- One line of a drawing declares a name, and it says what is to be said about the node of that name. -/
def DeclaredOnce (c : Context) (name : String) : Prop :=
  ∃ node ∈ drawnNodes c.graph, word node.1 = name ∧
    (readings (draw c)).filter (fun r => r.words = [name]) = [nodeReading node]

/-- Whatever is drawn between two nodes, both of them are declared. -/
def EndsDeclared (c : Context) : Prop :=
  ∀ r ∈ readings (draw c), ∀ source target, r.words = [source, "->", target] →
    DeclaredOnce c source ∧ DeclaredOnce c target


/-! ### The readings of a drawing -/

/-- The arrows of a drawing: its control edges, and its data links with repetitions. -/
def arrows (g : Graph) : List Arrow := g.edges.map controlArrow ++ dataArrows g

/-- What the lines for control edges and for data links say. -/
def endReadings (c : Context) : List Reading :=
  (edgeLines c).filterMap read? ++ (linkLines c.graph).filterMap read?

theorem filterMap_eq_of_map_eq {α β γ : Type} {f : α → Option β} {g : γ → β} {l : List α} {m : List γ}
    (h : l.map f = m.map fun x => some (g x)) : l.filterMap f = m.map g := by
  have hid : l.filterMap f = (l.map f).filterMap id := by
    rw [List.filterMap_map, Function.id_comp]
  rw [hid, h, List.filterMap_map, ← List.filterMap_eq_map]
  rfl

theorem readings_draw (c : Context) :
    readings (draw c) = (drawnNodes c.graph).map nodeReading ++ endReadings c := by
  have hframe : ∀ line ∈ header ++ ["", "\x7d"], read? line = none := by decide +kernel
  have hheader : header.filterMap read? = [] :=
    List.filterMap_eq_nil_iff.mpr fun line hline => hframe line (List.mem_append_left _ hline)
  have hempty : read? "" = none := hframe "" (by simp)
  have hclose : read? "\x7d" = none := hframe "\x7d" (by simp)
  have hlinks : (if (linkLines c.graph).isEmpty then [] else "" :: linkLines c.graph).filterMap read?
      = (linkLines c.graph).filterMap read? := by
    split
    next hnone => rw [List.isEmpty_iff.mp hnone]
    · rw [List.filterMap_cons_none hempty]
  rw [readings, textLines_draw_eq]
  simp only [List.filterMap_append, hheader, hlinks, List.filterMap_cons_none hempty,
    List.filterMap_cons_none hclose, List.filterMap_nil, List.nil_append, List.append_nil,
    filterMap_eq_of_map_eq (map_read?_nodeStatements c.graph c.diagnostics), List.append_assoc,
    endReadings]

theorem exists_arrow_of_mem_endReadings {c : Context} {r : Reading} (h : r ∈ endReadings c) :
    ∃ a ∈ arrows c.graph, ∃ attributes, r = a.reading attributes := by
  rw [endReadings, filterMap_eq_of_map_eq (map_read?_edgeLines c), List.mem_append] at h
  cases h with
  | inl h =>
      obtain ⟨⟨id, e⟩, he, rfl⟩ := List.mem_map.mp h
      have hedge := c.graph.exists_mem_edgesWithIds.mp ⟨id, he⟩
      exact ⟨controlArrow e, List.mem_append_left _ (List.mem_map_of_mem hedge), _, rfl⟩
  | inr h =>
      obtain ⟨line, hline, hread⟩ := List.mem_filterMap.mp h
      obtain ⟨l, hl, rfl⟩ := List.mem_map.mp hline
      obtain ⟨a, ha, rfl⟩ := mem_linkStatements_iff.mp hl
      rw [a.read?_text, Option.some.injEq] at hread
      exact ⟨a, List.mem_append_right _ ha, _, hread.symm⟩

theorem exists_reading_of_mem_arrows {c : Context} {a : Arrow} (h : a ∈ arrows c.graph) :
    ∃ attributes, a.reading attributes ∈ readings (draw c) := by
  have hends : ∃ attributes, a.reading attributes ∈ endReadings c := by
    rw [endReadings, filterMap_eq_of_map_eq (map_read?_edgeLines c)]
    rw [arrows, List.mem_append] at h
    cases h with
    | inl h =>
        obtain ⟨e, hedge, rfl⟩ := List.mem_map.mp h
        obtain ⟨id, he⟩ := c.graph.exists_mem_edgesWithIds.mpr hedge
        exact ⟨_, List.mem_append_left _ (List.mem_map_of_mem he)⟩
    | inr h =>
        have hlink := mem_linkStatements_iff.mpr ⟨a, h, rfl⟩
        exact ⟨_, List.mem_append_right _
          (List.mem_filterMap.mpr ⟨_, List.mem_map_of_mem hlink, a.read?_text linkAttributes⟩)⟩
  obtain ⟨attributes, hmem⟩ := hends
  rw [readings_draw]
  exact ⟨attributes, List.mem_append_right _ hmem⟩


/-! ### Declared nodes -/

theorem word_injective : Function.Injective word := by
  have hhead : ∀ id : ProcId, (word (.proc id)).toList.head? = some 'n' := by
    intro id
    rw [word, String.toList_append]
    rfl
  have hentry : (word .entry).toList.head? = some 'e' := by decide
  have houtput : (word .output).toList.head? = some 'o' := by decide
  intro ref ref' heq
  have hheads := congrArg (fun w : String => w.toList.head?) heq
  cases ref with
  | entry => cases ref' <;> simp [hhead, hentry, houtput] at hheads ⊢
  | output => cases ref' <;> simp [hhead, hentry, houtput] at hheads ⊢
  | proc id =>
      cases ref' with
      | entry => simp [hhead, hentry] at hheads
      | output => simp [hhead, houtput] at hheads
      | proc id' => exact congrArg NodeRef.proc (ProcId.text_injective heq)

theorem map_fst_drawnNodes (g : Graph) :
    (drawnNodes g).map Prod.fst
      = .entry :: .output :: (g.procIds ++ missingNodes g).map NodeRef.proc := by
  simp only [drawnNodes, ← g.map_fst_procsWithIds, List.map_append, List.map_map, List.map_cons,
    List.cons_append, List.nil_append]
  rfl

theorem nodup_procIds_append_missingNodes (g : Graph) : (g.procIds ++ missingNodes g).Nodup := by
  refine List.nodup_append'.mpr ⟨g.nodup_procIds, ?_, ?_⟩
  · refine (pairwise_missingNodes g).imp fun hlt heq => ?_
    rw [heq] at hlt
    exact Nat.lt_irrefl _ hlt
  · intro id hid hmissing
    rw [g.mem_procIds, (mem_missingNodes.mp hmissing).1] at hid
    cases hid

theorem nodup_map_fst_drawnNodes (g : Graph) : ((drawnNodes g).map Prod.fst).Nodup := by
  rw [map_fst_drawnNodes, List.nodup_cons, List.nodup_cons]
  refine ⟨by simp, by simp, ?_⟩
  exact (nodup_procIds_append_missingNodes g).map fun _ _ heq => NodeRef.proc.inj heq

/-- Drawn is whatever is in the arena or counts as missing. -/
theorem mem_map_fst_drawnNodes {g : Graph} {ref : NodeRef} :
    ref ∈ (drawnNodes g).map Prod.fst
      ↔ ∀ id, ref = .proc id → g.proc? id = none → id ∈ missingNodes g := by
  rw [map_fst_drawnNodes]
  cases ref with
  | entry => simp
  | output => simp
  | proc id =>
      have hmem : NodeRef.proc id ∈ NodeRef.entry :: .output :: (g.procIds ++ missingNodes g).map .proc
          ↔ (g.proc? id).isSome ∨ id ∈ missingNodes g := by
        simp [g.mem_procIds]
      rw [hmem, or_iff_not_imp_left, Option.not_isSome_iff_eq_none]
      simp

/-- Among the members of a list with distinct keys, a key is found once. -/
theorem filter_eq_singleton {α β : Type} [DecidableEq α] [DecidableEq β] {key : α → β} {l : List α}
    (hnodup : (l.map key).Nodup) {a : α} (ha : a ∈ l) : l.filter (fun b => key b = key a) = [a] := by
  have hiff : ∀ b ∈ l, decide (key b = key a) = (b == a) := by
    intro b hb
    rw [Bool.eq_iff_iff, decide_eq_true_iff, beq_iff_eq]
    exact ⟨List.inj_on_of_nodup_map hnodup hb ha, congrArg key⟩
  rw [List.filter_congr hiff, List.filter_beq, List.count_eq_one_of_mem hnodup.of_map ha,
    List.replicate_one]

/-- The readings of a single name come from the statements for nodes. -/
theorem filter_readings_draw (c : Context) (ref : NodeRef) :
    (readings (draw c)).filter (fun r => r.words = [word ref])
      = ((drawnNodes c.graph).filter fun node => node.1 = ref).map nodeReading := by
  have hends : (endReadings c).filter (fun r => r.words = [word ref]) = [] := by
    rw [List.filter_eq_nil_iff]
    intro r hr
    obtain ⟨a, _, attributes, rfl⟩ := exists_arrow_of_mem_endReadings hr
    simp [Arrow.reading]
  have hword : ((fun r : Reading => decide (r.words = [word ref])) ∘ nodeReading)
      = fun node => decide (node.1 = ref) := by
    funext node
    simp [nodeReading, word_injective.eq_iff]
  rw [readings_draw, List.filter_append, hends, List.append_nil, List.filter_map, hword]

theorem declaredOnce_iff (c : Context) (ref : NodeRef) :
    DeclaredOnce c (word ref) ↔ ref ∈ (drawnNodes c.graph).map Prod.fst := by
  refine ⟨?_, ?_⟩
  · rintro ⟨node, hnode, hname, _⟩
    exact word_injective hname ▸ List.mem_map_of_mem hnode
  · intro hdrawn
    obtain ⟨node, hnode, rfl⟩ := List.mem_map.mp hdrawn
    refine ⟨node, hnode, rfl, ?_⟩
    rw [filter_readings_draw, filter_eq_singleton (nodup_map_fst_drawnNodes c.graph) hnode]
    rfl


/-! ### Declared ends -/

theorem endsDeclared_iff_arrows (c : Context) :
    EndsDeclared c ↔ ∀ a ∈ arrows c.graph,
      a.source ∈ (drawnNodes c.graph).map Prod.fst ∧ a.target ∈ (drawnNodes c.graph).map Prod.fst := by
  refine ⟨?_, ?_⟩
  · intro hdeclared a ha
    obtain ⟨attributes, hreading⟩ := exists_reading_of_mem_arrows ha
    rw [← declaredOnce_iff, ← declaredOnce_iff]
    exact hdeclared _ hreading _ _ rfl
  · intro hdrawn r hr source target hwords
    rw [readings_draw, List.mem_append] at hr
    cases hr with
    | inl hr =>
        obtain ⟨node, _, rfl⟩ := List.mem_map.mp hr
        simp [nodeReading] at hwords
    | inr hr =>
        obtain ⟨a, ha, attributes, rfl⟩ := exists_arrow_of_mem_endReadings hr
        simp only [Arrow.reading, List.cons.injEq, true_and, and_true] at hwords
        obtain ⟨rfl, rfl⟩ := hwords
        rw [declaredOnce_iff, declaredOnce_iff]
        exact hdrawn a ha

/-- Both ends of a control edge are drawn: what is not in the arena counts as missing because of the
edge. -/
theorem drawn_controlArrow {g : Graph} {e : Edge} (h : e ∈ g.edges) :
    (controlArrow e).source ∈ (drawnNodes g).map Prod.fst ∧
      (controlArrow e).target ∈ (drawnNodes g).map Prod.fst := by
  rw [mem_map_fst_drawnNodes, mem_map_fst_drawnNodes]
  refine ⟨?_, ?_⟩
  · exact fun id heq hnone => mem_missingNodes.mpr ⟨hnone, e, h, Or.inl heq⟩
  · exact fun id heq hnone => mem_missingNodes.mpr ⟨hnone, e, h, Or.inr heq⟩

theorem drawn_target_dataArrow {g : Graph} {a : Arrow} (h : a ∈ dataArrows g) :
    a.target ∈ (drawnNodes g).map Prod.fst := by
  rw [map_fst_drawnNodes]
  rw [dataArrows, List.mem_append] at h
  cases h with
  | inl h =>
      obtain ⟨⟨id, node⟩, hnode, h⟩ := List.mem_flatMap.mp h
      obtain ⟨⟨slot, symbol⟩, _, rfl⟩ := List.mem_map.mp h
      have hid : id ∈ g.procIds := by
        rw [g.mem_procIds, g.mem_procsWithIds.mp hnode]
        rfl
      simp [hid]
  | inr h =>
      obtain ⟨⟨flow, id, value⟩, _, rfl⟩ := List.mem_map.mp h
      simp

theorem map_source_dataArrows (g : Graph) :
    (dataArrows g).map Arrow.source = g.origins.map Source.node := by
  rw [Graph.origins, ← g.map_snd_procsWithIds, dataArrows]
  simp only [List.map_append, List.map_flatMap, List.flatMap_map, List.map_map]
  rfl

/-- Each arrow of the graph is drawn, and every end of what is drawn is declared by one statement, provided
that each node outside of the arena that something reads from is mentioned by a control edge as well, and
not otherwise. -/
theorem arrows_drawn_ends_declared_iff (c : Context) :
    (∀ a ∈ arrows c.graph, ∃ attributes, a.reading attributes ∈ readings (draw c)) ∧
    (EndsDeclared c ↔ ∀ id flow, Source.proc id flow ∈ c.graph.origins → c.graph.proc? id = none →
      ∃ e ∈ c.graph.edges, e.source.node = .proc id ∨ e.target.node = .proc id) := by
  refine ⟨fun _ => exists_reading_of_mem_arrows, ?_⟩
  rw [endsDeclared_iff_arrows]
  refine ⟨?_, ?_⟩
  · intro hdrawn id flow horigin hnone
    have hsource : NodeRef.proc id ∈ (dataArrows c.graph).map Arrow.source := by
      rw [map_source_dataArrows]
      exact List.mem_map_of_mem horigin
    obtain ⟨a, ha, heq⟩ := List.mem_map.mp hsource
    have hmissing := mem_map_fst_drawnNodes.mp (hdrawn a (List.mem_append_right _ ha)).1 id heq hnone
    exact (mem_missingNodes.mp hmissing).2
  · intro hmentioned a ha
    rw [arrows, List.mem_append] at ha
    cases ha with
    | inl ha =>
        obtain ⟨e, he, rfl⟩ := List.mem_map.mp ha
        exact drawn_controlArrow he
    | inr ha =>
        refine ⟨mem_map_fst_drawnNodes.mpr fun id heq hnone => ?_, drawn_target_dataArrow ha⟩
        have hsource : a.source ∈ c.graph.origins.map Source.node := by
          rw [← map_source_dataArrows]
          exact List.mem_map_of_mem ha
        obtain ⟨origin, horigin, hnode⟩ := List.mem_map.mp hsource
        rw [heq] at hnode
        cases origin with
        | entry => cases hnode
        | proc node flow =>
            obtain rfl := NodeRef.proc.inj hnode
            exact mem_missingNodes.mpr ⟨hnone, hmentioned node flow horigin hnone⟩

/-- A node reads from a node that does not exist and that no control edge mentions. -/
def borrowed : Graph :=
  { Graph.empty with
    procs := [⟨"negate", .ofList [("x", ⟨.proc ⟨5⟩ "result", "res"⟩)]⟩]
    edges := [⟨.entry, .proc ⟨0⟩⟩, ⟨.proc ⟨0⟩ "result", .output "done"⟩]
    outputFlows := .ofList [("done", .empty)] }

theorem not_endsDeclared_borrowed : ¬ EndsDeclared (Catalog.standard.context borrowed) := by
  rw [endsDeclared_iff_arrows]
  intro hdrawn
  have hlink : NodeRef.proc ⟨5⟩ ∈ (arrows borrowed).map Arrow.source := by decide
  obtain ⟨a, ha, hsource⟩ := List.mem_map.mp hlink
  have hmem : NodeRef.proc ⟨5⟩ ∈ (drawnNodes borrowed).map Prod.fst := hsource ▸ (hdrawn a ha).1
  rw [map_fst_drawnNodes] at hmem
  revert hmem
  decide

end Drawing

end ProcFlow
