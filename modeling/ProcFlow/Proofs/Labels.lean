import Mathlib.Data.List.Forall2
import ProcFlow.Drawing
import ProcFlow.Proofs.Naming
/-!
# Labels of a drawing

What the statements of a drawing are about, and what their labels are meant to say. A drawing puts a label
together from parts that are escaped one by one. As escaping goes character by character and leaves alone
what stands between the parts, this is the escaped form of the label as a whole, whatever the parts are.
-/

namespace ProcFlow.Drawing

/-! ### Escaping -/

theorem toList_escape (text : String) : (escape text).toList = text.toList.flatMap escapeChar :=
  String.toList_ofList

theorem escape_append (text text' : String) : escape (text ++ text') = escape text ++ escape text' := by
  apply String.toList_injective
  rw [toList_escape, String.toList_append, String.toList_append, toList_escape, toList_escape,
    List.flatMap_append]

theorem escape_intercalate (separator : String) (parts : List String) :
    escape (separator.intercalate parts) = (escape separator).intercalate (parts.map escape) := by
  induction parts with
  | nil => rfl
  | cons first rest ih =>
      cases rest with
      | nil =>
          rw [String.intercalate_singleton, List.map_cons, List.map_nil, String.intercalate_singleton]
      | cons second rest =>
          rw [String.intercalate_cons_cons, escape_append, escape_append, ih]
          simp only [List.map_cons, String.intercalate_cons_cons]

theorem escape_eq_self {text : String} (h : ∀ c ∈ text.toList, escapeChar c = [c]) :
    escape text = text := by
  apply String.toList_injective
  rw [toList_escape, List.flatMap_congr h, List.flatMap_singleton']

theorem escapeChar_of_isAlphanum {c : Char} (h : c.isAlphanum = true) : escapeChar c = [c] := by
  unfold escapeChar
  split
  iterate 4
    · exact absurd h (by decide)
  · rfl


/-! ### What is drawn -/

/-- The word for a node. -/
def word : NodeRef → String
  | .entry => "entry"
  | .output => "output"
  | .proc id => "n" ++ id.index.repr

theorem nodeName_eq_word (ref : NodeRef) : nodeName ref = word ref := by
  cases ref <;> rfl

theorem isAlphanum_of_mem_word {ref : NodeRef} {c : Char} (hc : c ∈ (word ref).toList) :
    c.isAlphanum = true := by
  cases ref with
  | entry =>
      have hentry : ∀ c ∈ "entry".toList, c.isAlphanum = true := by simp
      exact hentry c hc
  | output =>
      have houtput : ∀ c ∈ "output".toList, c.isAlphanum = true := by simp
      exact houtput c hc
  | proc id => exact ProcId.isAlphanum_of_mem_text hc

@[simp] theorem escape_word (ref : NodeRef) : escape (word ref) = word ref :=
  escape_eq_self fun _ hc => escapeChar_of_isAlphanum (isAlphanum_of_mem_word hc)

/-- The nodes that are drawn, each with what its label is to say. -/
def drawnNodes (g : Graph) : List (NodeRef × String) :=
  [(.entry, "entry(" ++ ", ".intercalate g.inputs.keys ++ ")"),
    (.output, "output(" ++ " | ".intercalate g.outputFlows.keys ++ ")")]
    ++ g.procsWithIds.map (fun (id, node) => (.proc id, word (.proc id) ++ ": " ++ node.procedure))
    ++ (missingNodes g).map fun id => (.proc id, word (.proc id) ++ " (missing)")

/-- What is drawn between two nodes, with what its label is to say. -/
structure Arrow where
  source : NodeRef
  target : NodeRef
  label : String

def Arrow.statement (a : Arrow) : EdgeStatement := ⟨word a.source, word a.target, escape a.label⟩

/-- The flow by which a control edge leaves a node and the one by which it leaves the graph, told once if
they have one name. -/
def flowsOf (e : Edge) : List String :=
  let left := match e.source with
    | .entry => []
    | .proc _ flow => [flow]
  let entered := match e.target with
    | .proc _ => []
    | .output flow => [flow]
  (left ++ entered).eraseDups

/-- The arrow of a control edge. -/
def controlArrow (e : Edge) : Arrow := ⟨e.source.node, e.target.node, " -> ".intercalate (flowsOf e)⟩

/-- How the label of a data link names where a value comes from. -/
def originText : Source → String
  | .entry => "entry"
  | .proc node flow => word (.proc node) ++ "." ++ flow

/-- The arrows from what is read to the nodes and output flows that read it, repetitions included. -/
def dataArrows (g : Graph) : List Arrow :=
  (g.procsWithIds.flatMap fun (id, node) => node.inputs.entries.map fun (slot, symbol) =>
      ⟨symbol.origin.node, .proc id, originText symbol.origin ++ "." ++ symbol.id ++ " -> " ++ slot⟩)
    ++ g.outputEntries.map fun (flow, id, value) =>
      ⟨value.source.origin.node, .output, value.source.id ++ " -> " ++ flow ++ "." ++ id⟩


/-! ### Labels are escaped as a whole -/

theorem map_nodeStatements (g : Graph) (ds : List Diagnostic) :
    (nodeStatements g ds).map (fun n => (n.name, n.label))
      = (drawnNodes g).map fun node => (word node.1, escape node.2) := by
  have hentry : escape "entry(" = "entry(" := by decide
  have houtput : escape "output(" = "output(" := by decide
  have hclose : escape ")" = ")" := by decide
  have hcomma : escape ", " = ", " := by decide
  have hbar : escape " | " = " | " := by decide
  have hcolon : escape ": " = ": " := by decide
  have hmissing : escape " (missing)" = " (missing)" := by decide
  simp only [nodeStatements, drawnNodes, List.map_append, List.map_map, List.map_cons, List.map_nil,
    Function.comp_def, escape_append, escape_intercalate, escape_word, hentry, houtput, hclose, hcomma,
    hbar, hcolon, hmissing]
  rfl

theorem forall₂_nodeStatements (g : Graph) (ds : List Diagnostic) :
    List.Forall₂ (fun n node => n.name = word node.1 ∧ n.label = escape node.2)
      (nodeStatements g ds) (drawnNodes g) := by
  have hmap := map_nodeStatements g ds
  rw [← List.forall₂_eq_eq_eq, List.forall₂_map_left_iff, List.forall₂_map_right_iff] at hmap
  exact hmap.imp fun _ _ heq => Prod.mk.inj heq

theorem edgeStatement_eq (e : Edge) : edgeStatement e = (controlArrow e).statement := by
  have harrow : escape " -> " = " -> " := by decide
  have hlabel : edgeLabel e = escape (controlArrow e).label := by
    obtain ⟨source, target⟩ := e
    rw [controlArrow, escape_intercalate, harrow]
    cases source with
    | entry => cases target <;> simp [edgeLabel, flowsOf, List.eraseDups_cons]
    | proc node flow =>
        cases target with
        | proc node' => simp [edgeLabel, flowsOf, List.eraseDups_cons]
        | output out =>
            by_cases hsame : out = flow
            · simp [edgeLabel, flowsOf, List.eraseDups_cons, hsame]
            · simp [edgeLabel, flowsOf, List.eraseDups_cons, hsame, Ne.symm hsame]
  rw [edgeStatement, hlabel, nodeName_eq_word, nodeName_eq_word]
  rfl

theorem allLinks_eq (g : Graph) : allLinks g = (dataArrows g).map Arrow.statement := by
  have harrow : escape " -> " = " -> " := by decide
  have hdot : escape "." = "." := by decide
  have horigin : ∀ source : Source, source.text = originText source := fun source => by
    cases source <;> rfl
  rw [allLinks, dataArrows, List.map_append, List.map_flatMap, List.map_map]
  simp only [List.map_map, Function.comp_def, Arrow.statement, escape_append, harrow, hdot,
    nodeName_eq_word, horigin]
  rfl

end ProcFlow.Drawing
