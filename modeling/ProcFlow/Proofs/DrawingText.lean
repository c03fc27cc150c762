import Mathlib.Data.Prod.Lex
import Mathlib.Data.String.Basic
import ProcFlow.Proofs.Painting
/-!
# Drawings as text

A drawing is read back line by line. The words in front of the attributes of a line name what the line
draws, and the first text in quotes is its label. Whatever characters the names of a graph hold, the
quotes close where the label ends, and what they say is the label as it was meant, with blanks for line
breaks.

So the text holds one line for each statement: after the header there is one for the entry, for the output,
for each node and for each node that is missing, then one for each control edge in the order of the graph,
then one for each data link, ascending and without repetition.
-/

namespace ProcFlow.Drawing

/-! ### Reading a statement -/

/-- A label with blanks for line breaks. -/
def flat (label : String) : String :=
  String.ofList (label.toList.map fun c => if c = '\n' ∨ c = '\r' then ' ' else c)

/-- What is said up to the closing quote, and what stands behind it. A backslash stands in front of a
quote or of another backslash and nowhere else. -/
def scanQuoted : List Char → Option (List Char × List Char)
  | [] => none
  | '"' :: rest => some ([], rest)
  | '\\' :: '"' :: rest => (scanQuoted rest).map fun r => ('"' :: r.1, r.2)
  | '\\' :: '\\' :: rest => (scanQuoted rest).map fun r => ('\\' :: r.1, r.2)
  | '\\' :: _ => none
  | c :: rest => (scanQuoted rest).map fun r => (c :: r.1, r.2)

/-- What a line says. -/
structure Reading where
  /-- The words in front of the attributes. -/
  words : List String
  /-- The label, which is the first text in quotes. -/
  label : String
  /-- What stands behind that text. -/
  after : String
  deriving DecidableEq, Repr

/-- The words of a text, which stand between blanks. -/
def wordsOf (cs : List Char) : List String :=
  ((cs.splitOn ' ').filter (· ≠ [])).map String.ofList

/-- Reads a line whose first text in quotes is a label. -/
def read? (line : String) : Option Reading :=
  match line.toList.dropWhile (· ≠ '"') with
  | '"' :: rest =>
    if "label=".toList <:+ line.toList.takeWhile (· ≠ '"') then
      (scanQuoted rest).map fun r =>
        ⟨wordsOf (line.toList.takeWhile (· ≠ '[')), String.ofList r.1, String.ofList r.2⟩
    else none
  | _ => none


/-! ### Statements are read back -/

theorem scanQuoted_escapeChar (c : Char) (rest : List Char) :
    scanQuoted (escapeChar c ++ rest)
      = (scanQuoted rest).map fun r => ((if c = '\n' ∨ c = '\r' then ' ' else c) :: r.1, r.2) := by
  unfold escapeChar
  split
  · rfl
  · rfl
  · rfl
  · rfl
  next hquote hslash hfeed hreturn =>
    rw [List.singleton_append, scanQuoted, if_neg (not_or.mpr ⟨hfeed, hreturn⟩)]
    · exact hquote
    · exact fun _ heq _ => hslash heq
    · exact fun _ heq _ => hslash heq
    · exact hslash

theorem scanQuoted_escaped (label rest : List Char) :
    scanQuoted (label.flatMap escapeChar ++ '"' :: rest)
      = some (label.map fun c => if c = '\n' ∨ c = '\r' then ' ' else c, rest) := by
  induction label with
  | nil => rfl
  | cons c label ih =>
      rw [List.flatMap_cons, List.append_assoc, scanQuoted_escapeChar, ih, List.map_cons,
        Option.map_some]

/-- A word that can be told from what stands around it. -/
structure IsWord (word : String) : Prop where
  ne_empty : word ≠ ""
  no_blank : ' ' ∉ word.toList
  clean : Clean word.toList

theorem isWord_word (ref : NodeRef) : IsWord (word ref) := by
  refine ⟨?_, ?_, clean_word ref⟩
  · cases ref with
    | entry => decide
    | output => decide
    | proc id =>
        intro heq
        have hlength := congrArg String.length heq
        simp [word] at hlength
  · intro hmem
    exact absurd (isAlphanum_of_mem_word hmem) (by decide)

theorem isWord_arrow : IsWord "->" := ⟨by decide, by decide, by decide⟩

theorem splitOn_words {words : List String} (hwords : ∀ word ∈ words, ' ' ∉ word.toList)
    {first : List Char} (hfirst : ' ' ∉ first) :
    (first ++ ((words.flatMap fun word => ' ' :: word.toList) ++ [' '])).splitOn ' '
      = first :: (words.map String.toList ++ [[]]) := by
  induction words generalizing first with
  | nil =>
      rw [List.flatMap_nil, List.nil_append, List.splitOn_append_cons_self_of_not_mem hfirst]
      rfl
  | cons word words ih =>
      obtain ⟨hword, hrest⟩ := List.forall_mem_cons.mp hwords
      rw [List.flatMap_cons, List.append_assoc, List.cons_append,
        List.splitOn_append_cons_self_of_not_mem hfirst, ih hrest hword, List.map_cons,
        List.cons_append]

theorem wordsOf_front {words : List String} (hwords : ∀ word ∈ words, IsWord word) :
    wordsOf (front words) = words := by
  have hblank : ∀ rest : List Char, (' ' :: rest).splitOn ' ' = [] :: rest.splitOn ' ' := by
    have hnil : ' ' ∉ ([] : List Char) := List.not_mem_nil
    exact List.splitOn_append_cons_self_of_not_mem hnil
  have hsplit : (front words).splitOn ' ' = [] :: [] :: [] :: [] :: (words.map String.toList ++ [[]]) := by
    have hfront : front words
        = ' ' :: ' ' :: ' ' :: ([] ++ ((words.flatMap fun word => ' ' :: word.toList) ++ [' '])) := by
      rw [front, List.append_assoc]
      rfl
    rw [hfront, hblank, hblank, hblank,
      splitOn_words (fun word hword => (hwords word hword).no_blank) List.not_mem_nil]
  have hkept : (words.map String.toList).filter (· ≠ []) = words.map String.toList := by
    rw [List.filter_eq_self]
    intro cs hcs
    obtain ⟨word, hword, rfl⟩ := List.mem_map.mp hcs
    simpa using (hwords word hword).ne_empty
  have hempty : ∀ rest : List (List Char), ([] :: rest).filter (· ≠ []) = rest.filter (· ≠ []) :=
    fun _ => List.filter_cons_of_neg (by simp)
  rw [wordsOf, hsplit, hempty, hempty, hempty, hempty, List.filter_append, hkept, hempty,
    List.filter_nil, List.append_nil, List.map_map]
  simp

theorem clean_nil : Clean [] := fun _ hc => absurd hc List.not_mem_nil

theorem read?_labelled {words : List String} (hwords : ∀ word ∈ words, IsWord word) {look : List Char}
    (hlook : Clean look) (label : String) (after : List Char) :
    read? (String.ofList (labelled (front words) (look ++ "label=".toList) label.toList after))
      = some ⟨words, flat label, String.ofList after ++ "];"⟩ := by
  let opening := front words ++ '[' :: (look ++ "label=".toList)
  let rest := label.toList.flatMap escapeChar ++ '"' :: (after ++ [']', ';'])
  have hline : labelled (front words) (look ++ "label=".toList) label.toList after
      = opening ++ '"' :: rest := by
    simp only [labelled, opening, rest, List.append_assoc, List.cons_append]
  have hfront : Clean (front words) := clean_front fun word hword => (hwords word hword).clean
  have hbracket : ∀ c ∈ front words, decide (c ≠ '[') = true := by
    intro c hc
    exact decide_eq_true fun heq => hfront c hc (by simp [heq])
  have hquote : ∀ c ∈ opening, decide (c ≠ '"') = true := by
    intro c hc
    refine decide_eq_true fun heq => ?_
    rw [heq, List.mem_append, List.mem_cons] at hc
    rcases hc with hc | hc | hc
    · exact hfront _ hc (by simp)
    · cases hc
    · exact (hlook.append (by decide)) _ hc (by simp)
  have hdrop : (opening ++ '"' :: rest).dropWhile (· ≠ '"') = '"' :: rest := by
    rw [List.dropWhile_append_of_pos hquote, List.dropWhile_cons_of_neg (by simp)]
  have htake : (opening ++ '"' :: rest).takeWhile (· ≠ '"') = opening := by
    rw [List.takeWhile_append_of_pos hquote, List.takeWhile_cons_of_neg (by simp), List.append_nil]
  have htakeWords : (opening ++ '"' :: rest).takeWhile (· ≠ '[') = front words := by
    rw [List.append_assoc, List.takeWhile_append_of_pos hbracket, List.cons_append,
      List.takeWhile_cons_of_neg (by simp), List.append_nil]
  have hsuffix : "label=".toList <:+ opening :=
    ⟨front words ++ '[' :: look, by rw [List.append_assoc, List.cons_append]⟩
  have hafter : String.ofList (after ++ [']', ';']) = String.ofList after ++ "];" := by
    apply String.toList_injective
    simp [String.toList_append]
  rw [read?, String.toList_ofList, hline]
  simp only [hdrop, htake, if_pos hsuffix, htakeWords, wordsOf_front hwords, rest,
    scanQuoted_escaped, Option.map_some, hafter]
  rfl


/-! ### What the lines say -/

/-- What the line of an arrow is to say. -/
def Arrow.reading (a : Arrow) (attributes : String) : Reading :=
  ⟨[word a.source, "->", word a.target], flat a.label, attributes ++ "];"⟩

theorem Arrow.read?_text (a : Arrow) (attributes : String) :
    read? (a.statement.text attributes) = some (a.reading attributes) := by
  have hwords : ∀ w ∈ [word a.source, "->", word a.target], IsWord w := by
    simp only [List.forall_mem_cons]
    exact ⟨isWord_word _, isWord_arrow, isWord_word _, List.forall_mem_nil _⟩
  have hread := read?_labelled hwords clean_nil a.label attributes.toList
  rw [String.ofList_toList, List.nil_append] at hread
  rw [EdgeStatement.text_eq_labelled rfl]
  exact hread

/-- What the line of a node is to say. -/
def nodeReading (node : NodeRef × String) : Reading := ⟨[word node.1], flat node.2, "];"⟩

theorem NodeStatement.read?_text {n : NodeStatement} {node : NodeRef × String}
    (hname : n.name = word node.1) (hlabel : n.label = escape node.2) :
    read? n.text = some (nodeReading node) := by
  obtain ⟨look, hlook, htext, _⟩ := n.exists_text_eq_labelled hlabel
  have hword : ∀ w ∈ [n.name], IsWord w := by
    rw [List.forall_mem_singleton, hname]
    exact isWord_word node.1
  rw [htext, read?_labelled hword hlook, hname]
  rfl

theorem map_read?_nodeStatements (g : Graph) (ds : List Diagnostic) :
    ((nodeStatements g ds).map NodeStatement.text).map read?
      = (drawnNodes g).map fun node => some (nodeReading node) := by
  rw [List.map_map, ← List.forall₂_eq_eq_eq, List.forall₂_map_left_iff, List.forall₂_map_right_iff]
  exact (forall₂_nodeStatements g ds).imp fun _ _ h => NodeStatement.read?_text h.1 h.2


/-! ### The order of the links -/

/-- What links are ordered by: the source, then the target, then the label as it is written. -/
def EdgeStatement.rank (e : EdgeStatement) : String ×ₗ String ×ₗ String :=
  toLex (e.source, toLex (e.target, e.label))

theorem EdgeStatement.rank_injective : Function.Injective EdgeStatement.rank := by
  rintro ⟨source, target, label⟩ ⟨source', target', label'⟩ heq
  obtain ⟨rfl, heq⟩ := Prod.mk.inj (toLex_inj.mp heq)
  obtain ⟨rfl, rfl⟩ := Prod.mk.inj (toLex_inj.mp heq)
  rfl

theorem EdgeStatement.before_iff {a b : EdgeStatement} : a.before b ↔ a.rank < b.rank := by
  rw [before, rank, rank, Prod.Lex.toLex_lt_toLex, Prod.Lex.toLex_lt_toLex]
  split
  next hsource => simp [hsource]
  next hsource =>
    rw [not_not] at hsource
    split
    next htarget => simp [hsource, htarget]
    next htarget =>
      rw [not_not] at htarget
      simp [hsource, htarget]

theorem pairwise_linkStatements (g : Graph) :
    (linkStatements g).Pairwise fun l m => l.rank < m.rank := by
  have hsorted : (linkStatements g).Pairwise fun l m => l.before m := by
    refine pairwise_foldr_insert insertLink (fun _ => rfl) (fun _ _ _ => rfl) ?_ ?_ (allLinks g)
    · simp only [EdgeStatement.before_iff]
      exact fun _ _ _ => lt_trans
    · simp only [EdgeStatement.before_iff]
      intro l m hnot hne
      exact lt_of_le_of_ne (not_lt.mp hnot) fun heq => hne (EdgeStatement.rank_injective heq.symm)
  exact hsorted.imp EdgeStatement.before_iff.mp

theorem pairwise_missingNodes (g : Graph) :
    (missingNodes g).Pairwise fun id id' => id.index < id'.index := by
  rw [missingNodes, List.pairwise_map]
  refine pairwise_foldr_insert insertAscending (fun _ => rfl) (fun _ _ _ => rfl) ?_ ?_ _
  · exact fun _ _ _ => Nat.lt_trans
  · omega


/-! ### The whole drawing -/

/-- The lines for control edges, in the order of the graph. -/
def edgeLines (c : Context) : List String :=
  c.graph.edgesWithIds.map fun (id, e) =>
    (controlArrow e).statement.text (edgeAttributes c.diagnostics id)

def linkLines (g : Graph) : List String := (linkStatements g).map fun l => l.text linkAttributes

theorem map_read?_edgeLines (c : Context) :
    (edgeLines c).map read? = c.graph.edgesWithIds.map fun (id, e) =>
      some ((controlArrow e).reading (edgeAttributes c.diagnostics id)) := by
  rw [edgeLines, List.map_map]
  refine List.map_congr_left ?_
  rintro ⟨id, e⟩ _
  rw [Function.comp_apply, Arrow.read?_text]

theorem textLines_draw_eq (c : Context) :
    textLines (draw c) = header ++ (nodeStatements c.graph c.diagnostics).map NodeStatement.text ++ [""]
      ++ edgeLines c ++ (if (linkLines c.graph).isEmpty then [] else "" :: linkLines c.graph)
      ++ ["\x7d", ""] := by
  rw [textLines_draw, lines, List.append_assoc]
  simp only [edgeStatement_eq]
  rfl

/-- What the lines of a drawing are and what they say, given the lines for nodes, for control edges and
for data links. -/
structure ReadBack (c : Context) (nodes edges links : List String) : Prop where
  lines : textLines (draw c)
    = ["digraph ffc \x7b", "    rankdir=LR;", "    node [fontname=\"Helvetica\", fontsize=10];",
        "    edge [fontname=\"Helvetica\", fontsize=9];", ""]
      ++ nodes ++ [""] ++ edges ++ (if links.isEmpty then [] else "" :: links) ++ ["\x7d", ""]
  nodes : nodes.map read? = (drawnNodes c.graph).map fun node => some (nodeReading node)
  missing : (missingNodes c.graph).Pairwise fun id id' => id.index < id'.index
  missing_iff : ∀ id, id ∈ missingNodes c.graph ↔
    c.graph.proc? id = none ∧ ∃ e ∈ c.graph.edges, e.source.node = .proc id ∨ e.target.node = .proc id
  edges : edges.map read? = c.graph.edgesWithIds.map fun (id, e) =>
    some ((controlArrow e).reading (edgeAttributes c.diagnostics id))
  links : List.Forall₂
    (fun l line => ∀ a ∈ dataArrows c.graph, a.statement = l →
      read? line = some (a.reading linkAttributes))
    (linkStatements c.graph) links
  ascending : (linkStatements c.graph).Pairwise fun l l' => l.rank < l'.rank
  link_iff : ∀ l, l ∈ linkStatements c.graph ↔ ∃ a ∈ dataArrows c.graph, a.statement = l

/-- A drawing holds one line for each statement, and each line can be read back, whatever characters the
names of the graph hold. -/
theorem draw_readBack (c : Context) : ∃ nodes edges links, ReadBack c nodes edges links := by
  refine ⟨(nodeStatements c.graph c.diagnostics).map NodeStatement.text, edgeLines c,
    linkLines c.graph, ?_⟩
  refine ⟨textLines_draw_eq c, map_read?_nodeStatements c.graph c.diagnostics,
    pairwise_missingNodes c.graph, fun _ => mem_missingNodes, map_read?_edgeLines c, ?_,
    pairwise_linkStatements c.graph, fun _ => mem_linkStatements_iff⟩
  rw [linkLines, List.forall₂_map_right_iff, List.forall₂_same]
  rintro _ _ a _ rfl
  exact a.read?_text linkAttributes

end ProcFlow.Drawing
