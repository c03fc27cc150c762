import Mathlib.Data.List.Forall2
import ProcFlow.Code.Generate
/-!
# Lines of procedural code

What procedural code is known by to the rest: how each kind of statement is written, and which lines a
route has. A route ends at once with some statements, goes on in one way at the same depth, or switches,
with a block for each of its branches; whatever is to be shown of the lines of all routes is shown of these
three.
-/

namespace ProcFlow.Code

/-! ### How lines are written -/

/-- How a statement is written, given how the function is left. -/
inductive Statement.Spelled : ExitStyle → Statement → String → Prop where
  | header (style : ExitStyle) (signature : String) :
      Spelled style (.header signature) (signature ++ " => \x7b")
  | comment (style : ExitStyle) (text : String) : Spelled style (.comment text) ("// " ++ text)
  | bind (style : ExitStyle) (name value : String) :
      Spelled style (.bind name value) ("const " ++ name ++ " = " ++ value ++ ";")
  | run (style : ExitStyle) (expression : String) : Spelled style (.run expression) (expression ++ ";")
  | giveBack (style : ExitStyle) (value : String) :
      Spelled style (.giveBack value) ("return " ++ value ++ ";")
  | call (flow value : String) :
      Spelled .continuation (.leave flow value) ("return __k" ++ member flow ++ "(" ++ value ++ ");")
  | tag (flow value : String) :
      Spelled .union (.leave flow value)
        ("return \x7b flow: " ++ Json.quote flow ++ ", value: " ++ value ++ " \x7d;")
  | switchOn (style : ExitStyle) (name : String) :
      Spelled style (.switchOn name) ("switch (" ++ name ++ ".flow) \x7b")
  | onFlow (style : ExitStyle) (flow : String) :
      Spelled style (.onFlow flow) ("case " ++ Json.quote flow ++ ": \x7b")
  | openBlock (style : ExitStyle) : Spelled style .openBlock "\x7b"
  | closeBlock (style : ExitStyle) : Spelled style .closeBlock "\x7d"

/-- The text of a line: two blanks for each level of depth, the statement, and a line break. -/
inductive Line.Spelled (style : ExitStyle) : Line → String → Prop where
  | mk {depth : Nat} {statement : Statement} {body : String} (hbody : statement.Spelled style body) :
      Spelled style ⟨depth, statement⟩ (String.join (List.replicate depth "  ") ++ body ++ "\n")

theorem Statement.spelled_text (style : ExitStyle) (statement : Statement) :
    statement.Spelled style (statement.text style) := by
  cases statement with
  | leave flow value =>
      cases style with
      | continuation => exact .call flow value
      | union => exact .tag flow value
  | _ => constructor

theorem toList_indentation (width : Nat) : ("".pushn ' ' width).toList = List.replicate width ' ' := by
  rw [String.pushn_eq_repeat_push]
  induction width with
  | zero => rfl
  | succ width ih => rw [Nat.repeat, String.toList_push, ih, ← List.replicate_succ']

theorem indentation_eq (depth : Nat) :
    "".pushn ' ' (2 * depth) = String.join (List.replicate depth "  ") := by
  apply String.toList_injective
  rw [toList_indentation, String.toList_join]
  induction depth with
  | zero => rfl
  | succ depth ih =>
      rw [List.replicate_succ, List.flatMap_cons, ← ih, Nat.mul_succ, Nat.add_comm, List.replicate_add]
      rfl

theorem Line.spelled_text (style : ExitStyle) (line : Line) : line.Spelled style (line.text style) := by
  obtain ⟨depth, statement⟩ := line
  rw [Line.text, indentation_eq]
  exact .mk (statement.spelled_text style)


/-! ### Texts within texts -/

theorem infix_flatMap_of_mem {α β : Type} (f : α → List β) {l : List α} {a : α} (h : a ∈ l) :
    f a <:+: l.flatMap f := by
  obtain ⟨before, after, rfl⟩ := List.append_of_mem h
  refine ⟨before.flatMap f, after.flatMap f, ?_⟩
  rw [List.flatMap_append, List.flatMap_cons, List.append_assoc]

/-- A text has another one in it. -/
def Shows (text part : String) : Prop := part.toList <:+: text.toList

namespace Shows

theorem trans {text middle part : String} (h : Shows text middle) (h' : Shows middle part) :
    Shows text part :=
  List.IsInfix.trans h' h

theorem append (before part after : String) : Shows (before ++ part ++ after) part := by
  rw [Shows, String.toList_append, String.toList_append]
  exact List.infix_append _ _ _

theorem join {parts : List String} {part : String} (h : part ∈ parts) :
    Shows (String.join parts) part := by
  rw [Shows, String.toList_join]
  exact infix_flatMap_of_mem String.toList h

theorem intercalate (separator : String) {parts : List String} {part : String} (h : part ∈ parts) :
    Shows (separator.intercalate parts) part := by
  induction parts with
  | nil => exact absurd h List.not_mem_nil
  | cons first rest ih =>
      cases rest with
      | nil =>
          obtain rfl := List.mem_singleton.mp h
          simpa using Shows.append "" part ""
      | cons second rest =>
          rw [String.intercalate_cons_cons]
          rcases List.mem_cons.mp h with rfl | h
          · simpa [String.append_assoc] using
              Shows.append "" part (separator ++ separator.intercalate (second :: rest))
          · have hrest := Shows.append (first ++ separator) (separator.intercalate (second :: rest)) ""
            rw [String.append_empty] at hrest
            exact hrest.trans (ih h)

theorem arrowBody (body : String) : Shows (Code.arrowBody body) body := by
  rw [Code.arrowBody]
  split
  · exact Shows.append "(" body ")"
  · simpa using Shows.append "" body ""

theorem objectLiteral {fields : List String} {field : String} (h : field ∈ fields) :
    Shows (Code.objectLiteral fields) field := by
  have hsome : fields.isEmpty = false := by
    rw [List.isEmpty_eq_false_iff]
    exact List.ne_nil_of_mem h
  rw [Code.objectLiteral, braced, hsome, if_neg Bool.false_ne_true]
  exact (Shows.append "\x7b " (", ".intercalate fields) " \x7d").trans (Shows.intercalate ", " h)

theorem render_input {t : Template} (input exit : String → String) {slot : String}
    (h : slot ∈ t.inputs) : Shows (t.render input exit) (input slot) := by
  rw [Template.inputs, List.mem_eraseDups, List.mem_filterMap] at h
  obtain ⟨segment, hsegment, hname⟩ := h
  apply Shows.join
  refine List.mem_map.mpr ⟨segment, hsegment, ?_⟩
  cases segment with
  | text _ => cases hname
  | exit _ => cases hname
  | input name =>
      cases hname
      rfl

theorem render_exit {t : Template} (input exit : String → String) {flow : String}
    (h : flow ∈ t.exits) : Shows (t.render input exit) (exit flow) := by
  rw [Template.exits, List.mem_eraseDups, List.mem_filterMap] at h
  obtain ⟨segment, hsegment, hname⟩ := h
  apply Shows.join
  refine List.mem_map.mpr ⟨segment, hsegment, ?_⟩
  cases segment with
  | text _ => cases hname
  | input _ => cases hname
  | exit name =>
      cases hname
      rfl

end Shows


/-! ### The lines of a route -/

/-- A route has a property if it ends, or if all that it branches to have the property. -/
@[elab_as_elim]
theorem Route.induction {P : Route → Prop} (deadEnd : ∀ source, P (.deadEnd source))
    (leave : ∀ flow, P (.leave flow)) (missing : ∀ node, P (.missing node))
    (repeated : ∀ node, P (.repeated node))
    (step : ∀ node branches, (∀ b ∈ branches, P b.2) → P (.step node branches)) (route : Route) :
    P route := by
  have hcons : ∀ (b : String × Route) (rest : List (String × Route)), P b.2 → (∀ x ∈ rest, P x.2) →
      ∀ x ∈ b :: rest, P x.2 :=
    fun _ _ hb hrest => List.forall_mem_cons.mpr ⟨hb, hrest⟩
  exact @Route.rec P (fun branches => ∀ b ∈ branches, P b.2) (fun b => P b.2) deadEnd leave missing
    repeated step (List.forall_mem_nil _) hcons (fun _ _ hnext => hnext) route

/-- The block for one flow of a switch at a depth, around the lines that go on from the flow. -/
def caseBlock (depth : Nat) (node : ProcId) (branch : String × List Line) : List Line :=
  ⟨depth + 1, .onFlow branch.1⟩
    :: ⟨depth + 2, .bind (flowVar node branch.1) (nodeVar node ++ ".value")⟩
    :: branch.2 ++ [⟨depth + 1, .closeBlock⟩]

namespace Setup

variable {s : Setup}

theorem caseLines_eq_flatMap (depth : Nat) (node : ProcId) (branches : List (String × Route)) :
    s.caseLines depth node branches
      = (branches.map fun b => (b.1, s.routeLines (depth + 2) b.2)).flatMap
          (caseBlock depth node) := by
  induction branches with
  | nil => rw [caseLines, List.map_nil, List.flatMap_nil]
  | cons b rest ih =>
      rw [caseLines, ih, List.map_cons, List.flatMap_cons, caseBlock]
      simp only [linesAt, List.map_cons, List.map_nil, List.cons_append, List.nil_append,
        List.append_assoc]

/-- The statements of a route that ends at once. -/
inductive Ends (s : Setup) : Route → List Statement → Prop where
  | deadEnd (source : Source) :
      Ends s (.deadEnd source) (s.stub ("no control edge leaves " ++ source.text))
  | leave (flow : String) : Ends s (.leave flow) (s.leaveStatements flow)
  | missing (node : ProcId) : Ends s (.missing node) (s.stub (node.text ++ " does not exist"))
  | repeated (node : ProcId) : Ends s (.repeated node) (s.stub (node.text ++ " was already emitted"))
  | final (node : ProcId) : Ends s (.step node []) (s.finalStep node)

theorem Ends.routeLines_eq {route : Route} {statements : List Statement} (h : s.Ends route statements)
    (depth : Nat) : s.routeLines depth route = linesAt depth statements := by
  cases h <;> rw [routeLines]

theorem routeLines_single (depth : Nat) (node : ProcId) (flow : String) (next : Route) :
    s.routeLines depth (.step node [(flow, next)])
      = linesAt depth (s.singleStep node flow) ++ s.routeLines depth next := by
  rw [routeLines]

theorem routeLines_several (depth : Nat) (node : ProcId) {branches : List (String × Route)}
    (hseveral : 2 ≤ branches.length) :
    s.routeLines depth (.step node branches)
      = linesAt depth (s.switchStep node)
        ++ (branches.map fun b => (b.1, s.routeLines (depth + 2) b.2)).flatMap (caseBlock depth node)
        ++ linesAt depth [.closeBlock] := by
  rcases branches with _ | ⟨first, _ | ⟨second, rest⟩⟩
  · cases hseveral
  · exact absurd hseveral (Nat.not_succ_le_self 1)
  · simp only [routeLines, caseLines_eq_flatMap]

/-- What holds of the lines of every route: it holds where a route ends at once, outlasts a step that goes
on in one way, and holds of a switch if it holds of its branches. -/
theorem routeLines_induction {P : Nat → Route → List Line → Prop}
    (ending : ∀ depth route statements, s.Ends route statements →
      P depth route (linesAt depth statements))
    (single : ∀ depth node flow next, P depth next (s.routeLines depth next) →
      P depth (.step node [(flow, next)])
        (linesAt depth (s.singleStep node flow) ++ s.routeLines depth next))
    (several : ∀ depth node branches, 2 ≤ branches.length →
      (∀ b ∈ branches, P (depth + 2) b.2 (s.routeLines (depth + 2) b.2)) →
      P depth (.step node branches)
        (linesAt depth (s.switchStep node)
          ++ (branches.map fun b => (b.1, s.routeLines (depth + 2) b.2)).flatMap (caseBlock depth node)
          ++ linesAt depth [.closeBlock]))
    (depth : Nat) (route : Route) : P depth route (s.routeLines depth route) := by
  have hending : ∀ depth route statements, s.Ends route statements →
      P depth route (s.routeLines depth route) := by
    intro depth route statements hends
    rw [hends.routeLines_eq]
    exact ending depth route statements hends
  induction route using Route.induction generalizing depth with
  | deadEnd source => exact hending depth _ _ (.deadEnd source)
  | leave flow => exact hending depth _ _ (.leave flow)
  | missing node => exact hending depth _ _ (.missing node)
  | repeated node => exact hending depth _ _ (.repeated node)
  | step node branches ih =>
      rcases branches with _ | ⟨⟨flow, next⟩, _ | ⟨second, rest⟩⟩
      · exact hending depth _ _ (.final node)
      · rw [routeLines_single]
        exact single depth node flow next (ih _ List.mem_cons_self depth)
      · have hseveral : 2 ≤ ((flow, next) :: second :: rest).length := Nat.le_add_left 2 rest.length
        rw [routeLines_several depth node hseveral]
        exact several depth node _ hseveral fun b hb => ih b hb (depth + 2)

end Setup

end ProcFlow.Code
