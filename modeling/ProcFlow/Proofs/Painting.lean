import ProcFlow.Proofs.Labels
import ProcFlow.Proofs.Ownership
import ProcFlow.Proofs.Validity
/-!
# Drawings read back

A drawing shows that something is wrong with a graph by the colour of its statements. To say so about the
text, the text is read: it falls into lines, what stands between quotes is left out of a line, and what
is left holds the attributes of the statement in brackets. A label is escaped, so it neither ends its
line nor closes its quotes, and no name of the graph is taken for an attribute.

A statement is in red exactly if the node or the edge that it draws has a diagnostic, or if it stands for
a node that is missing, and then the edge that mentions the node has one. As every diagnostic belongs to
something that is drawn, the drawing of a graph is free of red exactly if nothing is wrong with the graph.
-/

namespace ProcFlow.Drawing

open Diagnostic (Subject)


/-! ### Reading a drawing -/

/-- The lines of a text. What follows the last line end counts as a line. -/
def textLines (text : String) : List String := (text.toList.splitOn '\n').map String.ofList

/-- What stands outside of quotes. Within quotes, a backslash takes the next character with it. -/
def bare : (quoted : Bool) → List Char → List Char
  | _, [] => []
  | false, '"' :: rest => bare true rest
  | false, c :: rest => c :: bare false rest
  | true, '"' :: rest => bare false rest
  | true, '\\' :: _ :: rest => bare true rest
  | true, _ :: rest => bare true rest

/-- The items of a list with commas, without the blanks in front of them. -/
def items (cs : List Char) : List String :=
  (cs.splitOn ',').map fun item => String.ofList (item.dropWhile (· = ' '))

/-- The attributes of a statement, quoted values left out. -/
def attributes (line : String) : List String :=
  items ((((bare false line.toList).dropWhile (· ≠ '[')).drop 1).takeWhile (· ≠ ']'))

/-- Whether a statement is drawn in the colour of errors. -/
def isPainted (line : String) : Bool := "color=red" ∈ attributes line


/-! ### Statements with a label -/

/-- Characters that neither end a line nor open or close anything. -/
def Clean (cs : List Char) : Prop := ∀ c ∈ cs, c ∉ ['"', '[', ']', '\n']

instance (cs : List Char) : Decidable (Clean cs) :=
  List.decidableBAll (fun c => c ∉ ['"', '[', ']', '\n']) cs

theorem Clean.append {cs cs' : List Char} (h : Clean cs) (h' : Clean cs') : Clean (cs ++ cs') := by
  intro c hc
  cases List.mem_append.mp hc with
  | inl hc => exact h c hc
  | inr hc => exact h' c hc

/-- A statement with its attributes in brackets, a label among them. -/
def labelled (front before label after : List Char) : List Char :=
  front ++ '[' :: (before ++ '"' :: (label.flatMap escapeChar ++ '"' :: (after ++ [']', ';'])))

/-- The words in front of the attributes of a statement, each behind a blank. -/
def front (words : List String) : List Char :=
  "   ".toList ++ (words.flatMap fun word => ' ' :: word.toList) ++ [' ']

theorem clean_front {words : List String} (h : ∀ word ∈ words, Clean word.toList) :
    Clean (front words) := by
  refine Clean.append (Clean.append (by decide) fun c hc => ?_) (by decide)
  obtain ⟨word, hword, hc⟩ := List.mem_flatMap.mp hc
  cases List.mem_cons.mp hc with
  | inl heq =>
      rw [heq]
      decide
  | inr hc => exact h word hword c hc

theorem bare_append_of_clean {cs : List Char} (h : Clean cs) (rest : List Char) :
    bare false (cs ++ rest) = cs ++ bare false rest := by
  induction cs with
  | nil => rfl
  | cons c cs ih =>
      have hc : c ≠ '"' := fun heq => h c List.mem_cons_self (by simp [heq])
      rw [List.cons_append, bare, ih fun x hx => h x (List.mem_cons_of_mem c hx), List.cons_append]
      exact hc

theorem bare_escapeChar (c : Char) (rest : List Char) :
    bare true (escapeChar c ++ rest) = bare true rest := by
  unfold escapeChar
  split
  · rfl
  · rfl
  · rfl
  · rfl
  next hquote hslash _ _ =>
  rw [List.singleton_append, bare]
  · exact hquote
  · exact fun _ _ heq => absurd heq hslash

theorem bare_label (label rest : List Char) :
    bare false ('"' :: (label.flatMap escapeChar ++ '"' :: rest)) = bare false rest := by
  rw [bare]
  induction label with
  | nil => rfl
  | cons c label ih => rw [List.flatMap_cons, List.append_assoc, bare_escapeChar, ih]

theorem attributes_labelled {front before after : List Char} (hfront : Clean front)
    (hbefore : Clean before) (hafter : Clean after) (label : List Char) :
    attributes (String.ofList (labelled front before label after)) = items (before ++ after) := by
  have hbare : bare false (labelled front before label after)
      = front ++ '[' :: (before ++ after ++ [']', ';']) := by
    rw [labelled, bare_append_of_clean hfront, bare, bare_append_of_clean hbefore, bare_label,
      bare_append_of_clean hafter, List.append_assoc]
    · rfl
    · simp
  have hopen : ∀ c ∈ front, decide (c ≠ '[') = true := by
    intro c hc
    exact decide_eq_true fun heq => hfront c hc (by simp [heq])
  have hclose : ∀ c ∈ before ++ after, decide (c ≠ ']') = true := by
    intro c hc
    exact decide_eq_true fun heq => (hbefore.append hafter) c hc (by simp [heq])
  rw [attributes, String.toList_ofList, hbare, List.dropWhile_append_of_pos hopen,
    List.dropWhile_cons_of_neg (by simp), List.drop_one, List.tail_cons,
    List.takeWhile_append_of_pos hclose, List.takeWhile_cons_of_neg (by simp), List.append_nil]

theorem not_mem_escapeChar (c : Char) : '\n' ∉ escapeChar c := by
  unfold escapeChar
  split
  iterate 4
    · decide
  next hne _ =>
  rw [List.mem_singleton]
  exact fun heq => hne heq.symm

theorem not_mem_labelled {front before after : List Char} (hfront : Clean front)
    (hbefore : Clean before) (hafter : Clean after) (label : List Char) :
    '\n' ∉ labelled front before label after := by
  have hclean : ∀ {cs : List Char}, Clean cs → '\n' ∉ cs := fun hcs hmem => hcs _ hmem (by simp)
  have hlabel : '\n' ∉ label.flatMap escapeChar := by
    intro hmem
    obtain ⟨c, _, hc⟩ := List.mem_flatMap.mp hmem
    exact not_mem_escapeChar c hc
  simp [labelled, hclean hfront, hclean hbefore, hclean hafter, hlabel]


/-! ### Names and labels of a drawing -/

theorem clean_word (ref : NodeRef) : Clean (word ref).toList := by
  intro c hc hmark
  have hmarks : ∀ m ∈ ['"', '[', ']', '\n'], m.isAlphanum = false := by simp
  have halphanum := isAlphanum_of_mem_word hc
  rw [hmarks c hmark] at halphanum
  cases halphanum

/-- A node with a name that can be read and a label that is escaped. -/
structure NodeStatement.Legible (n : NodeStatement) : Prop where
  name : Clean n.name.toList
  label : ∃ label, n.label = escape label

structure EdgeStatement.Legible (e : EdgeStatement) : Prop where
  source : Clean e.source.toList
  target : Clean e.target.toList
  label : ∃ label, e.label = escape label

theorem NodeStatement.legible_of_mem {g : Graph} {ds : List Diagnostic} {n : NodeStatement}
    (h : n ∈ nodeStatements g ds) : n.Legible := by
  have hmem := List.mem_map_of_mem (f := fun n : NodeStatement => (n.name, n.label)) h
  rw [map_nodeStatements] at hmem
  obtain ⟨node, _, heq⟩ := List.mem_map.mp hmem
  obtain ⟨hname, hlabel⟩ := Prod.mk.inj heq
  exact ⟨hname ▸ clean_word node.1, _, hlabel.symm⟩

theorem Arrow.legible_statement (a : Arrow) : a.statement.Legible :=
  ⟨clean_word _, clean_word _, _, rfl⟩

theorem legible_edgeStatement (e : Edge) : (edgeStatement e).Legible := by
  rw [edgeStatement_eq]
  exact (controlArrow e).legible_statement

section Insertion

-- Links and missing nodes are put in order in the same way: what is there already is not put in again.
variable {α : Type} [DecidableEq α] {before : α → α → Prop} [DecidableRel before]
  (insert : α → List α → List α) (hnil : ∀ a, insert a [] = [a])
  (hcons : ∀ a b l, insert a (b :: l)
    = if before a b then a :: b :: l else if a = b then b :: l else b :: insert a l)

include hnil hcons

theorem mem_insert_iff (a x : α) (l : List α) : x ∈ insert a l ↔ x = a ∨ x ∈ l := by
  induction l with
  | nil => rw [hnil, List.mem_singleton, or_iff_left List.not_mem_nil]
  | cons b l ih =>
      rw [hcons]
      split
      · rw [List.mem_cons]
      · split
        next heq => rw [heq, List.mem_cons, ← or_assoc, or_self]
        · rw [List.mem_cons, ih, List.mem_cons, or_left_comm]

theorem mem_foldr_insert_iff (x : α) (l : List α) : x ∈ l.foldr insert [] ↔ x ∈ l := by
  induction l with
  | nil => rfl
  | cons a l ih => rw [List.foldr_cons, mem_insert_iff insert hnil hcons, ih, List.mem_cons]

theorem pairwise_insert (htrans : ∀ a b c, before a b → before b c → before a c)
    (htotal : ∀ a b, ¬ before a b → a ≠ b → before b a) (a : α) {l : List α} (h : l.Pairwise before) :
    (insert a l).Pairwise before := by
  induction l with
  | nil =>
      rw [hnil]
      exact List.pairwise_singleton before a
  | cons b l ih =>
      rw [hcons]
      obtain ⟨hb, hl⟩ := List.pairwise_cons.mp h
      split
      next hab =>
        refine List.pairwise_cons.mpr ⟨List.forall_mem_cons.mpr ⟨hab, ?_⟩, h⟩
        exact fun x hx => htrans a b x hab (hb x hx)
      next hab =>
        split
        · exact h
        next hne =>
          refine List.pairwise_cons.mpr ⟨fun x hx => ?_, ih hl⟩
          cases (mem_insert_iff insert hnil hcons a x l).mp hx with
          | inl heq => exact heq ▸ htotal a b hab hne
          | inr hx => exact hb x hx

theorem pairwise_foldr_insert (htrans : ∀ a b c, before a b → before b c → before a c)
    (htotal : ∀ a b, ¬ before a b → a ≠ b → before b a) (l : List α) :
    (l.foldr insert []).Pairwise before := by
  induction l with
  | nil => exact List.Pairwise.nil
  | cons a l ih => exact pairwise_insert insert hnil hcons htrans htotal a ih

end Insertion

theorem mem_linkStatements {g : Graph} {l : EdgeStatement} : l ∈ linkStatements g ↔ l ∈ allLinks g :=
  mem_foldr_insert_iff insertLink (fun _ => rfl) (fun _ _ _ => rfl) l (allLinks g)

theorem mem_linkStatements_iff {g : Graph} {l : EdgeStatement} :
    l ∈ linkStatements g ↔ ∃ a ∈ dataArrows g, a.statement = l := by
  rw [mem_linkStatements, allLinks_eq, List.mem_map]

theorem legible_of_mem_linkStatements {g : Graph} {l : EdgeStatement} (h : l ∈ linkStatements g) :
    l.Legible := by
  obtain ⟨a, _, rfl⟩ := mem_linkStatements_iff.mp h
  exact a.legible_statement


/-! ### The colour of a statement -/

/-- The attributes of a node in front of its label say whether it is flagged or missing. -/
theorem NodeStatement.exists_look (n : NodeStatement) :
    ∃ look : String, Clean look.toList ∧
      n.text = "    " ++ n.name ++ " [" ++ look ++ ", label=\"" ++ n.label ++ "\"];" ∧
      ("color=red" ∈ items (look.toList ++ ", label=".toList) ↔ n.flagged ∨ n.kind = .missing) := by
  obtain ⟨name, kind, label, flagged⟩ := n
  -- Four kinds, flagged or not: the front of the statement is a fixed text in each case.
  cases kind <;> cases flagged <;> refine ⟨_, ?_, rfl, ?_⟩ <;>
    simp only [if_true, if_false, Bool.false_eq_true] <;> decide +kernel

theorem NodeStatement.Legible.clean_front {n : NodeStatement} (h : n.Legible) :
    Clean (front [n.name]) :=
  Drawing.clean_front (List.forall_mem_singleton.mpr h.name)

theorem EdgeStatement.Legible.clean_front {e : EdgeStatement} (h : e.Legible) :
    Clean (front [e.source, "->", e.target]) := by
  refine Drawing.clean_front ?_
  simp only [List.forall_mem_cons]
  exact ⟨h.source, by decide, h.target, List.forall_mem_nil _⟩

theorem NodeStatement.exists_text_eq_labelled {n : NodeStatement} {label : String}
    (hlabel : n.label = escape label) :
    ∃ look, Clean look ∧
      n.text = String.ofList
        (labelled (front [n.name]) (look ++ "label=".toList) label.toList []) ∧
      ("color=red" ∈ items (look ++ "label=".toList) ↔ n.flagged ∨ n.kind = .missing) := by
  obtain ⟨look, hlook, htext, hred⟩ := n.exists_look
  refine ⟨look.toList ++ ", ".toList, hlook.append (by decide), ?_, ?_⟩
  · apply String.toList_injective
    rw [htext, hlabel]
    simp [labelled, front, escape, String.toList_append]
  · rw [← hred, List.append_assoc]
    rfl

theorem EdgeStatement.text_eq_labelled {e : EdgeStatement} {label : String}
    (hlabel : e.label = escape label) (attributes : String) :
    e.text attributes = String.ofList
      (labelled (front [e.source, "->", e.target]) "label=".toList label.toList attributes.toList) := by
  apply String.toList_injective
  rw [EdgeStatement.text, hlabel]
  simp [labelled, front, escape, String.toList_append]

/-- A node is in red if it is flagged or missing. -/
theorem NodeStatement.Legible.isPainted_iff {n : NodeStatement} (h : n.Legible) :
    isPainted n.text ↔ n.flagged ∨ n.kind = .missing := by
  obtain ⟨label, hlabel⟩ := h.label
  obtain ⟨look, hlook, htext, hred⟩ := n.exists_text_eq_labelled hlabel
  rw [isPainted, decide_eq_true_iff, htext,
    attributes_labelled h.clean_front (hlook.append (by decide)) (by decide), List.append_nil, hred]

theorem EdgeStatement.Legible.isPainted_iff {e : EdgeStatement} (h : e.Legible) {attributes : String}
    (hclean : Clean attributes.toList) :
    isPainted (e.text attributes) ↔ "color=red" ∈ items ("label=".toList ++ attributes.toList) := by
  obtain ⟨label, hlabel⟩ := h.label
  rw [isPainted, decide_eq_true_iff, e.text_eq_labelled hlabel,
    attributes_labelled h.clean_front (by decide) hclean]

theorem NodeStatement.Legible.not_mem_text {n : NodeStatement} (h : n.Legible) :
    '\n' ∉ n.text.toList := by
  obtain ⟨label, hlabel⟩ := h.label
  obtain ⟨look, hlook, htext, _⟩ := n.exists_text_eq_labelled hlabel
  rw [htext, String.toList_ofList]
  exact not_mem_labelled h.clean_front (hlook.append (by decide)) (by decide) label.toList

theorem EdgeStatement.Legible.not_mem_text {e : EdgeStatement} (h : e.Legible) {attributes : String}
    (hclean : Clean attributes.toList) : '\n' ∉ (e.text attributes).toList := by
  obtain ⟨label, hlabel⟩ := h.label
  rw [e.text_eq_labelled hlabel, String.toList_ofList]
  exact not_mem_labelled h.clean_front (by decide) hclean label.toList


/-! ### The lines of a drawing -/

/-- The attributes of a control edge behind its label. -/
def edgeAttributes (ds : List Diagnostic) (id : EdgeId) : String :=
  if (Diagnostic.onEdge ds id).isEmpty then "" else ", " ++ flagText

/-- The attributes of a data link behind its label. -/
def linkAttributes : String := ", style=dashed, color=gray50, constraint=false"

/-- What a line of a drawing is. -/
inductive IsLine (c : Context) : String → Prop where
  | frame {line : String} (h : line ∈ header ++ ["", "\x7d"]) : IsLine c line
  | node {n : NodeStatement} (h : n ∈ nodeStatements c.graph c.diagnostics) : IsLine c n.text
  | edge {id : EdgeId} {e : Edge} (h : (id, e) ∈ c.graph.edgesWithIds) :
      IsLine c ((edgeStatement e).text (edgeAttributes c.diagnostics id))
  | link {l : EdgeStatement} (h : l ∈ linkStatements c.graph) : IsLine c (l.text linkAttributes)

theorem isLine_of_mem {c : Context} {line : String} (h : line ∈ lines c) : IsLine c line := by
  simp only [lines, List.mem_append, List.mem_map, List.mem_singleton] at h
  obtain ((((h | ⟨n, hn, rfl⟩) | rfl) | ⟨⟨id, e⟩, he, rfl⟩) | h) | rfl := h
  · exact .frame (List.mem_append_left _ h)
  · exact .node hn
  · exact .frame (by simp)
  · exact .edge he
  · split at h
    · exact absurd h List.not_mem_nil
    · cases List.mem_cons.mp h with
      | inl heq => exact .frame (by simp [heq])
      | inr h =>
          obtain ⟨l, hl, rfl⟩ := List.mem_map.mp h
          exact .link hl
  · exact .frame (by simp)

theorem mem_lines_of_node {c : Context} {n : NodeStatement}
    (h : n ∈ nodeStatements c.graph c.diagnostics) : n.text ∈ lines c := by
  simp only [lines, List.mem_append]
  exact Or.inl (Or.inl (Or.inl (Or.inl (Or.inr (List.mem_map_of_mem h)))))

theorem mem_lines_of_edge {c : Context} {id : EdgeId} {e : Edge}
    (h : (id, e) ∈ c.graph.edgesWithIds) :
    (edgeStatement e).text (edgeAttributes c.diagnostics id) ∈ lines c := by
  simp only [lines, List.mem_append]
  exact Or.inl (Or.inl (Or.inr (List.mem_map.mpr ⟨(id, e), h, rfl⟩)))

theorem clean_edgeAttributes (ds : List Diagnostic) (id : EdgeId) :
    Clean (edgeAttributes ds id).toList := by
  unfold edgeAttributes
  split
  · decide
  · decide

theorem isPainted_edge_iff (ds : List Diagnostic) (id : EdgeId) (e : Edge) :
    isPainted ((edgeStatement e).text (edgeAttributes ds id)) ↔ Diagnostic.onEdge ds id ≠ [] := by
  rw [(legible_edgeStatement e).isPainted_iff (clean_edgeAttributes ds id), ne_eq, ← List.isEmpty_iff]
  unfold edgeAttributes
  split
  next hempty => exact iff_of_false (by decide) (not_not_intro hempty)
  next hempty => exact iff_of_true (by decide) hempty

theorem isPainted_link {l : EdgeStatement} (h : l.Legible) : isPainted (l.text linkAttributes) = false := by
  rw [Bool.eq_false_iff]
  intro hpainted
  rw [h.isPainted_iff (by decide)] at hpainted
  revert hpainted
  decide

theorem IsLine.not_mem {c : Context} {line : String} (h : IsLine c line) : '\n' ∉ line.toList := by
  cases h with
  | frame h =>
      have hframe : ∀ line ∈ header ++ ["", "\x7d"], '\n' ∉ line.toList := by decide
      exact hframe line h
  | node h => exact (NodeStatement.legible_of_mem h).not_mem_text
  | edge _ => exact (legible_edgeStatement _).not_mem_text (clean_edgeAttributes _ _)
  | link h => exact (legible_of_mem_linkStatements h).not_mem_text (by decide)

theorem textLines_draw (c : Context) : textLines (draw c) = lines c ++ [""] := by
  have hsplit : ∀ ls : List String, (∀ line ∈ ls, '\n' ∉ line.toList) →
      ((ls.flatMap fun line => line.toList ++ ['\n']).splitOn '\n').map String.ofList = ls ++ [""] := by
    intro ls hls
    induction ls with
    | nil => rfl
    | cons line rest ih =>
        rw [List.flatMap_cons, List.append_assoc, List.singleton_append,
          List.splitOn_append_cons_self_of_not_mem (hls line List.mem_cons_self), List.map_cons,
          ih fun l hl => hls l (List.mem_cons_of_mem line hl), String.ofList_toList, List.cons_append]
  have htext : (draw c).toList = (lines c).flatMap fun line => line.toList ++ ['\n'] := by
    rw [draw, String.toList_join, List.flatMap_map]
    simp only [String.toList_append]
    rfl
  rw [textLines, htext]
  exact hsplit (lines c) fun line hline => (isLine_of_mem hline).not_mem

theorem isLine_of_mem_textLines {c : Context} {line : String} (h : line ∈ textLines (draw c)) :
    IsLine c line := by
  rw [textLines_draw, List.mem_append, List.mem_singleton] at h
  cases h with
  | inl h => exact isLine_of_mem h
  | inr h => exact .frame (by simp [h])


/-! ### What is in red -/

theorem mem_missingNodes {g : Graph} {id : ProcId} :
    id ∈ missingNodes g ↔
      g.proc? id = none ∧ ∃ e ∈ g.edges, e.source.node = .proc id ∨ e.target.node = .proc id := by
  simp only [missingNodes, List.mem_map,
    mem_foldr_insert_iff insertAscending (fun _ => rfl) fun _ _ _ => rfl, List.mem_filterMap]
  refine ⟨?_, ?_⟩
  · rintro ⟨i, ⟨ref, href, hnode⟩, rfl⟩
    obtain ⟨e, he, href⟩ := List.mem_flatMap.mp href
    cases ref with
    | entry => cases hnode
    | output => cases hnode
    | proc id =>
        simp only [Option.ite_none_right_eq_some, Option.some.injEq, Option.isNone_iff_eq_none] at hnode
        obtain ⟨hnone, rfl⟩ := hnode
        refine ⟨hnone, e, he, ?_⟩
        simpa [eq_comm] using href
  · rintro ⟨hnone, e, he, hends⟩
    refine ⟨id.index, ⟨.proc id, List.mem_flatMap.mpr ⟨e, he, ?_⟩, ?_⟩, rfl⟩
    · simpa [eq_comm] using hends
    · simp [hnone]

/-- The entry, the output and each node of the arena are drawn, and flagged if they have a diagnostic. -/
theorem exists_nodeStatement {g : Graph} {ref : NodeRef} (h : Owner.node ref ∈ g.owners)
    (ds : List Diagnostic) :
    ∃ n ∈ nodeStatements g ds, n.flagged = !(Diagnostic.onNode ds ref).isEmpty := by
  simp only [Graph.owners, List.mem_append, List.mem_cons, List.not_mem_nil, or_false, List.mem_map,
    Owner.node.injEq, reduceCtorEq, and_false, exists_false] at h
  simp only [nodeStatements]
  obtain (rfl | rfl) | ⟨id, hid, rfl⟩ := h
  · exact ⟨_, List.mem_append_left _ (List.mem_append_left _ List.mem_cons_self), rfl⟩
  · exact ⟨_, List.mem_append_left _ (List.mem_append_left _
      (List.mem_cons_of_mem _ List.mem_cons_self)), rfl⟩
  · obtain ⟨node, hnode⟩ := Option.isSome_iff_exists.mp (g.mem_procIds.mp hid)
    have hproc := g.mem_procsWithIds.mpr hnode
    exact ⟨_, List.mem_append_left _ (List.mem_append_right _ (List.mem_map_of_mem hproc)), rfl⟩

theorem exists_isPainted_of_owner {c : Context} {owner : Owner} (howner : owner ∈ c.graph.owners)
    (hne : owner.diagnostics c.diagnostics ≠ []) : ∃ line ∈ lines c, isPainted line := by
  cases owner with
  | node ref =>
      obtain ⟨n, hn, hflagged⟩ := exists_nodeStatement howner c.diagnostics
      refine ⟨n.text, mem_lines_of_node hn, ?_⟩
      rw [(NodeStatement.legible_of_mem hn).isPainted_iff, hflagged]
      exact Or.inl (by simpa [Owner.diagnostics] using hne)
  | edge id =>
      have hmem : ∃ e, (id, e) ∈ c.graph.edgesWithIds := by
        simpa [Graph.owners] using howner
      obtain ⟨e, he⟩ := hmem
      exact ⟨_, mem_lines_of_edge he, (isPainted_edge_iff _ id e).mpr hne⟩

theorem missingNodes_eq_nil {c : Context} (hc : c.WellFormed) : missingNodes c.graph = [] := by
  rw [List.eq_nil_iff_forall_not_mem]
  intro id hid
  obtain ⟨hnone, ⟨source, target⟩, hedge, hends⟩ := mem_missingNodes.mp hid
  cases hends with
  | inl hsource =>
      -- The source has a definition, which only a node of the arena has.
      cases source with
      | entry => cases hsource
      | proc node flow =>
          obtain ⟨d, hd, _⟩ := hc.edges.source node flow target hedge
          obtain ⟨procNode, hproc, _⟩ := Context.proc?_of_definition? hd
          cases hsource
          rw [hnone] at hproc
          cases hproc
  | inr htarget =>
      cases target with
      | output flow => cases htarget
      | proc node =>
          have hsome := hc.edges.node source node hedge
          cases htarget
          rw [hnone] at hsome
          cases hsome

/-- Only nodes and control edges are ever in red. -/
theorem IsLine.eq_text_of_isPainted {c : Context} {line : String} (h : IsLine c line)
    (hpainted : isPainted line) :
    (∃ n ∈ nodeStatements c.graph c.diagnostics, line = n.text) ∨
      ∃ e ∈ c.graph.edgesWithIds,
        line = (edgeStatement e.2).text (edgeAttributes c.diagnostics e.1) := by
  cases h with
  | frame h =>
      have hframe : ∀ line ∈ header ++ ["", "\x7d"], isPainted line = false := by decide
      rw [hframe line h] at hpainted
      cases hpainted
  | node h => exact Or.inl ⟨_, h, rfl⟩
  | edge h => exact Or.inr ⟨_, h, rfl⟩
  | link h =>
      rw [isPainted_link (legible_of_mem_linkStatements h)] at hpainted
      cases hpainted

theorem IsLine.not_isPainted {c : Context} (hvalid : c.diagnostics = []) {line : String}
    (h : IsLine c line) : ¬ isPainted line := by
  intro hpainted
  obtain ⟨n, hn, rfl⟩ | ⟨⟨id, e⟩, _, rfl⟩ := h.eq_text_of_isPainted hpainted
  · rw [(NodeStatement.legible_of_mem hn).isPainted_iff] at hpainted
    have hmissing := missingNodes_eq_nil (Context.wellFormed_of_diagnostics_eq_nil hvalid)
    simp only [nodeStatements, hvalid, hmissing, Diagnostic.onNode, List.filter_nil,
      List.isEmpty_nil, Bool.not_true, List.map_nil, List.append_nil, List.mem_append,
      List.mem_cons, List.not_mem_nil, or_false, List.mem_map] at hn
    obtain (rfl | rfl) | ⟨_, _, rfl⟩ := hn <;> simp at hpainted
  · rw [isPainted_edge_iff, hvalid] at hpainted
    exact hpainted rfl

theorem exists_isPainted_iff (c : Context) :
    (∃ line ∈ textLines (draw c), isPainted line) ↔ c.isFullyValid = false := by
  refine ⟨?_, ?_⟩
  · intro hleft
    obtain ⟨line, hline, hpainted⟩ := hleft
    rw [Bool.eq_false_iff]
    intro hvalid
    exact (isLine_of_mem_textLines hline).not_isPainted (List.isEmpty_iff.mp hvalid) hpainted
  · intro hinvalid
    obtain ⟨d, hd⟩ := List.exists_mem_of_ne_nil _ (List.isEmpty_eq_false_iff.mp hinvalid)
    have hmem : d ∈ d.subject.owner.diagnostics c.diagnostics :=
      Owner.mem_diagnostics.mpr ⟨hd, rfl⟩
    obtain ⟨line, hline, hpainted⟩ := exists_isPainted_of_owner
      (Context.hasPart_of_mem_diagnostics hd).owner_mem (List.ne_nil_of_mem hmem)
    refine ⟨line, ?_, hpainted⟩
    rw [textLines_draw]
    exact List.mem_append_left _ hline

/-- No diagnostic gets lost. Each is about a part that the graph has, and is told by one node or one edge
and by no other; so a node or a control edge is drawn in red exactly if something is wrong. -/
theorem diagnostics_owned_and_drawn (c : Context) :
    (∀ d ∈ c.diagnostics, c.graph.HasPart d.subject ∧
      ∃! owner, owner ∈ c.graph.owners ∧ d ∈ owner.diagnostics c.diagnostics) ∧
    ((∃ line ∈ textLines (draw c), isPainted line) ↔ c.isFullyValid = false) ∧
    ∀ line ∈ textLines (draw c), isPainted line →
      (∃ n ∈ nodeStatements c.graph c.diagnostics, line = n.text) ∨
        ∃ e ∈ c.graph.edgesWithIds,
          line = (edgeStatement e.2).text (edgeAttributes c.diagnostics e.1) := by
  refine ⟨?_, exists_isPainted_iff c, ?_⟩
  · intro d hd
    have hpart := Context.hasPart_of_mem_diagnostics hd
    exact ⟨hpart, hpart.existsUnique_owner hd⟩
  · exact fun line hline hpainted => (isLine_of_mem_textLines hline).eq_text_of_isPainted hpainted

/-- An edge that leads out of the arena, and a name that looks like an attribute. -/
def astray : Graph :=
  { Graph.empty with
    edges := [⟨.entry, .proc ⟨5⟩⟩]
    inputs := .ofList [("\", color=red, \"", ⟨[], "number"⟩)] }

theorem astray_owned_and_drawn :
    (∃ d ∈ (Catalog.empty.context astray).diagnostics,
      d.subject = .edge ⟨0⟩ ∧ astray.HasPart d.subject ∧
        ∃! owner, owner ∈ astray.owners ∧
          d ∈ owner.diagnostics (Catalog.empty.context astray).diagnostics) ∧
    (Catalog.empty.context astray).isFullyValid = false ∧
    ∃ line ∈ textLines (draw (Catalog.empty.context astray)), isPainted line ∧
      ((∃ n ∈ nodeStatements astray (Catalog.empty.context astray).diagnostics, line = n.text) ∨
        ∃ e ∈ astray.edgesWithIds, line = (edgeStatement e.2).text
          (edgeAttributes (Catalog.empty.context astray).diagnostics e.1)) := by
  obtain ⟨howned, hdrawn, hkind⟩ := diagnostics_owned_and_drawn (Catalog.empty.context astray)
  have hany : (Catalog.empty.context astray).diagnostics.any
      (fun d => d.subject = .edge ⟨0⟩) := by decide +kernel
  obtain ⟨d, hd, hsubject⟩ := List.any_eq_true.mp hany
  have hinvalid : (Catalog.empty.context astray).isFullyValid = false :=
    List.isEmpty_eq_false_iff.mpr (List.ne_nil_of_mem hd)
  obtain ⟨line, hline, hpainted⟩ := hdrawn.mpr hinvalid
  exact ⟨⟨d, hd, of_decide_eq_true hsubject, howned d hd⟩, hinvalid, line, hline, hpainted,
    hkind line hline hpainted⟩

end ProcFlow.Drawing
