import ProcFlow.Proofs.Naming
import ProcFlow.Proofs.Unfolding
/-!
# Temporaries are read in scope

Procedural code is read line by line, with the blocks that are open at each line. What a node reads from
a flow of another node is read through a temporary, and in an open block a line has to declare that name.

Whether a graph is in scope is said about walks from the entry, while code is nested by what lies ahead.
The two meet in the invariant of the unfolding: the temporaries of all flows that the walk to a point has
passed are bound in the blocks that are open there. The lines that are unfolded from a point leave the
outer blocks as they are, so the invariant outlasts the branches before.
-/

namespace ProcFlow.Code

/-! ### Open blocks -/

/-- An open block: the line that opened it, and the lines that stand in it so far. -/
structure Block where
  opener : Line
  lines : List Line

/-- What a line does to the open blocks, the innermost being first. -/
def Line.applyTo (blocks : List Block) (line : Line) : List Block :=
  match line.statement with
  | .header _ | .switchOn _ | .onFlow _ | .openBlock => ⟨line, []⟩ :: blocks
  | .closeBlock => blocks.tail
  | .comment _ | .bind _ _ | .run _ | .giveBack _ | .leave _ _ =>
    match blocks with
    | [] => []
    | block :: outer => { block with lines := line :: block.lines } :: outer

/-- The blocks that are open behind some lines. -/
def openBlocks (blocks : List Block) (lines : List Line) : List Block :=
  lines.foldl Line.applyTo blocks

@[simp] theorem openBlocks_nil (blocks : List Block) : openBlocks blocks [] = blocks := rfl

@[simp] theorem openBlocks_cons (blocks : List Block) (line : Line) (rest : List Line) :
    openBlocks blocks (line :: rest) = openBlocks (line.applyTo blocks) rest := rfl

@[simp] theorem openBlocks_append (blocks : List Block) (lines rest : List Line) :
    openBlocks blocks (lines ++ rest) = openBlocks (openBlocks blocks lines) rest :=
  List.foldl_append

/-- A line is written so, behind its indentation. -/
def Line.Reads (style : ExitStyle) (line : Line) (body : String) : Prop :=
  line.text style = String.join (List.replicate line.depth "  ") ++ body ++ "\n"

theorem Line.reads_text (style : ExitStyle) (line : Line) :
    line.Reads style (line.statement.text style) := by
  rw [Reads, Line.text, indentation_eq]

/-- The name of the temporary of a flow: the number of the node, and the name of the flow with underscores
for what cannot stand in a name. -/
def temporary (node : ProcId) (flow : String) : String :=
  "__n" ++ node.index.repr ++ "_"
    ++ String.ofList (flow.toList.map fun c => if c.isAlphanum ∨ c = '_' then c else '_')

/-- A value of a flow is read off the temporary of the flow, by its name or by its quoted name. -/
def readText (node : ProcId) (flow value : String) : String :=
  temporary node flow ++ if isPlainName value then "." ++ value else "[" ++ Json.quote value ++ "]"

theorem flowVar_eq_temporary (node : ProcId) (flow : String) : flowVar node flow = temporary node flow := by
  simp [flowVar, nodeVar, flowSuffix, temporary]

theorem symbolExpr_proc (s : Setup) (node : ProcId) (flow : FlowDef) (value : Slot) :
    s.symbolExpr (.proc node flow value) = readText node flow.name value.name := by
  rw [Setup.symbolExpr, flowVar_eq_temporary]
  rfl

/-- A line of a block declares a constant. -/
def Block.Binds (style : ExitStyle) (block : Block) (name value : String) : Prop :=
  ∃ line ∈ block.lines, line.Reads style ("const " ++ name ++ " = " ++ value ++ ";")

/-- The temporary of a flow is declared in a block. If the node has several flows, the block is the case of
this one. -/
inductive Block.Declares (s : Setup) (style : ExitStyle) (block : Block) (node : ProcId) (flow : String) :
    Prop where
  | single {d : Definition} {t : Template} (hnode : s.resolved? node = some (d, t))
      (hflow : d.flowNames = [flow])
      (hbound : block.Binds style (temporary node flow) (s.stepExpr node d t))
  | several {d : Definition} {t : Template} (hnode : s.resolved? node = some (d, t))
      (hflow : flow ∈ d.flowNames)
      (hopener : block.opener.Reads style ("case " ++ Json.quote flow ++ ": \x7b"))
      (hbound : block.Binds style (temporary node flow) ("__n" ++ node.index.repr ++ ".value"))

/-- The temporaries of flows are declared in open blocks. -/
def Visible (s : Setup) (style : ExitStyle) (blocks : List Block) (flows : List (ProcId × String)) :
    Prop :=
  ∀ node flow, (node, flow) ∈ flows → ∃ block ∈ blocks, block.Declares s style node flow

theorem Block.binds_bind (style : ExitStyle) (opener : Line) (lines : List Line) (depth : Nat)
    (node : ProcId) (flow value : String) :
    Block.Binds style ⟨opener, ⟨depth, .bind (flowVar node flow) value⟩ :: lines⟩ (temporary node flow)
      value := by
  refine ⟨_, List.mem_cons_self, ?_⟩
  rw [← flowVar_eq_temporary]
  exact Line.reads_text style _

theorem Block.Binds.cons {style : ExitStyle} {block : Block} {name value : String}
    (h : block.Binds style name value) (line : Line) :
    Block.Binds style { block with lines := line :: block.lines } name value := by
  obtain ⟨found, hfound, hreads⟩ := h
  exact ⟨found, List.mem_cons_of_mem line hfound, hreads⟩

namespace Visible

variable {s : Setup} {style : ExitStyle} {blocks : List Block} {flows : List (ProcId × String)}

theorem cons (h : Visible s style blocks flows) (block : Block) :
    Visible s style (block :: blocks) flows := by
  intro node flow hmem
  obtain ⟨outer, houter, hdeclares⟩ := h node flow hmem
  exact ⟨outer, List.mem_cons_of_mem block houter, hdeclares⟩

theorem goOn {block : Block} (h : Visible s style (block :: blocks) flows) (line : Line) :
    Visible s style ({ block with lines := line :: block.lines } :: blocks) flows := by
  intro node flow hmem
  obtain ⟨found, hfound, hdeclares⟩ := h node flow hmem
  rcases List.mem_cons.mp hfound with rfl | houter
  · refine ⟨_, List.mem_cons_self, ?_⟩
    cases hdeclares with
    | single hnode hflow hbound => exact .single hnode hflow (hbound.cons line)
    | several hnode hflow hopener hbound => exact .several hnode hflow hopener (hbound.cons line)
  · exact ⟨found, List.mem_cons_of_mem _ houter, hdeclares⟩

theorem snoc (h : Visible s style blocks flows) {node : ProcId} {flow : String} {block : Block}
    (hblock : block ∈ blocks) (hdeclares : block.Declares s style node flow) :
    Visible s style blocks (flows ++ [(node, flow)]) := by
  intro node' flow' hmem
  rcases List.mem_append.mp hmem with hmem | hmem
  · exact h node' flow' hmem
  · obtain ⟨rfl, rfl⟩ := Prod.mk.inj (List.mem_singleton.mp hmem)
    exact ⟨block, hblock, hdeclares⟩

end Visible


/-! ### What a statement reads -/

/-- A statement renders what a symbol stands for, where something of a type is asked for: the step of a
node renders each binding that its template has a place for, and leaving through an output flow renders the
values of the flow. -/
inductive Renders (s : Setup) : Statement → Resolution → Option TypeId → Prop where
  | bind {node : ProcId} {d : Definition} {t : Template} {name : String} {b : Binding}
      {r : Resolution} (hnode : s.resolved? node = some (d, t)) (hname : IsTemporary node name)
      (hb : b ∈ s.context.bindings node) (hplace : b.slot ∈ t.inputs) (hr : b.resolution = r) :
      Renders s (.bind name (s.stepExpr node d t)) r (b.expected.map Slot.type)
  | run {node : ProcId} {d : Definition} {t : Template} {b : Binding} {r : Resolution}
      (hnode : s.resolved? node = some (d, t)) (hb : b ∈ s.context.bindings node)
      (hplace : b.slot ∈ t.inputs) (hr : b.resolution = r) :
      Renders s (.run (s.stepExpr node d t)) r (b.expected.map Slot.type)
  | leave {flow : String} {o : OutputBinding} {r : Resolution} (ho : o ∈ s.context.outputs)
      (hflow : o.flow = flow) (hr : o.resolution = r) :
      Renders s (.leave flow (s.outputExpr flow)) r (some o.value.type)

variable {s : Setup} {style : ExitStyle}

theorem stepExpr_shows {node : ProcId} {d : Definition} {t : Template} {b : Binding}
    (hb : b ∈ s.context.bindings node) (hplace : b.slot ∈ t.inputs) :
    Shows (s.stepExpr node d t) (s.symbolExpr b.resolution) := by
  have hbinding : s.inputExpr node b.slot = s.symbolExpr b.resolution := by
    rw [Setup.inputExpr, Context.binding?_of_mem hb]
  rw [← hbinding]
  exact Shows.render_input (s.inputExpr node) (s.exitExpr d) hplace

theorem outputExpr_shows {o : OutputBinding} (ho : o ∈ s.context.outputs) :
    Shows (s.outputExpr o.flow) (s.symbolExpr o.resolution) := by
  have hleft : o ∈ s.context.outputs.filter fun other => other.flow = o.flow :=
    List.mem_filter.mpr ⟨ho, decide_eq_true rfl⟩
  refine (Shows.objectLiteral (List.mem_map_of_mem hleft)).trans ?_
  simpa using Shows.append (objectKey o.id ++ ": ") (s.symbolExpr o.resolution) ""

theorem Renders.shows {line : Line} {r : Resolution} {type? : Option TypeId}
    (h : Renders s line.statement r type?) : Shows (line.text style) (s.symbolExpr r) := by
  have hline : Shows (line.text style) (line.statement.text style) :=
    Shows.append ("".pushn ' ' (2 * line.depth)) (line.statement.text style) "\n"
  refine hline.trans ?_
  generalize line.statement = statement at h
  cases h with
  | @bind node d t name _ _ hnode hname hb hplace hr =>
      subst hr
      exact (Shows.append ("const " ++ name ++ " = ") (s.stepExpr node d t) ";").trans
        (stepExpr_shows hb hplace)
  | @run node d t _ _ hnode hb hplace hr =>
      subst hr
      have hcode := Shows.append "" (s.stepExpr node d t) ";"
      rw [String.empty_append] at hcode
      exact hcode.trans (stepExpr_shows hb hplace)
  | @leave _ o _ ho hflow hr =>
      subst hflow hr
      refine Shows.trans ?_ (outputExpr_shows ho)
      cases style with
      | continuation =>
          exact Shows.append ("return __k" ++ member o.flow ++ "(") (s.outputExpr o.flow) ");"
      | union =>
          exact Shows.append ("return \x7b flow: " ++ Json.quote o.flow ++ ", value: ")
            (s.outputExpr o.flow) " \x7d;"

theorem Setup.Sound.type_of_binding (h : s.Sound) {id : ProcId} {b : Binding} {node : ProcId}
    {flow : FlowDef} {value : Slot} (hb : b ∈ s.context.bindings id)
    (hr : b.resolution = .proc node flow value) :
    b.expected.map Slot.type = some value.type := by
  obtain ⟨procNode, slot, symbol, hproc, hentry, rfl⟩ := Context.mem_bindings.mp hb
  obtain ⟨d, expected, hd, hslot, hdenotes⟩ :=
    h.graph.symbols.binding id procNode slot symbol hproc hentry
  have htype := hdenotes.type?_resolve
  have hresolve : s.context.resolve symbol = .proc node flow value := hr
  rw [hresolve] at htype
  simp only [Context.bindingOf, hd, Option.bind_some, hslot, Option.map_some]
  exact htype.symm

theorem Renders.declared (h : s.Sound) {statement : Statement} {node : ProcId} {flow : FlowDef}
    {value : Slot} {type? : Option TypeId}
    (hrenders : Renders s statement (.proc node flow value) type?) :
    (∃ d, s.context.definition? node = some d ∧ flow ∈ d.outputs ∧ value ∈ flow.values) ∧
      type? = some value.type := by
  have hdeclared : ∀ symbol, s.context.resolve symbol = .proc node flow value →
      ∃ d, s.context.definition? node = some d ∧ flow ∈ d.outputs ∧ value ∈ flow.values := by
    intro symbol hresolve
    obtain ⟨_, d, hd, hflow, hvalue⟩ := Context.resolve_eq_proc hresolve
    exact ⟨d, hd, (Definition.flow?_eq_some hflow).1, (FlowDef.value?_eq_some hvalue).1⟩
  have hbinding : ∀ id, ∀ b ∈ s.context.bindings id, b.resolution = .proc node flow value →
      ∃ symbol, s.context.resolve symbol = .proc node flow value := by
    intro id b hb hr
    obtain ⟨_, slot, symbol, _, _, rfl⟩ := Context.mem_bindings.mp hb
    exact ⟨symbol, hr⟩
  cases hrenders with
  | bind _ _ hb _ hr =>
      obtain ⟨symbol, hresolve⟩ := hbinding _ _ hb hr
      exact ⟨hdeclared symbol hresolve, h.type_of_binding hb hr⟩
  | run _ hb _ hr =>
      obtain ⟨symbol, hresolve⟩ := hbinding _ _ hb hr
      exact ⟨hdeclared symbol hresolve, h.type_of_binding hb hr⟩
  | @leave _ o _ ho _ hr =>
      obtain ⟨hentry, hresolution⟩ := Context.mem_outputs.mp ho
      rw [hresolution] at hr
      have htype := (h.graph.symbols.output _ _ _ hentry).type?_resolve
      rw [hr] at htype
      exact ⟨hdeclared _ hr, htype.symm⟩


/-! ### What has been passed -/

/-- The flows that are passed on the way to a source, the one of the source included. -/
def PassedTo (g : Graph) (source : Source) (flows : List (ProcId × String)) : Prop :=
  ∀ target, ⟨source, target⟩ ∈ g.edges → ∃ walk, Walk g walk target ∧ passedFlows walk = flows

theorem passedTo_entry (g : Graph) : PassedTo g .entry [] :=
  fun target hedge => ⟨_, Walk.start hedge, passedFlows_start target⟩

theorem PassedTo.snoc {g : Graph} {source : Source} {flows : List (ProcId × String)}
    (h : PassedTo g source flows) {node : ProcId} (hedge : ⟨source, .proc node⟩ ∈ g.edges)
    (flow : String) : PassedTo g (.proc node flow) (flows ++ [(node, flow)]) := by
  obtain ⟨walk, hwalk, hflows⟩ := h (.proc node) hedge
  intro target hnext
  exact ⟨_, Walk.step hwalk hnext, by rw [passedFlows_step, hflows]⟩


/-! ### Lines in scope -/

/-- Whatever a statement renders is visible in the open blocks. -/
def InScopeAt (s : Setup) (style : ExitStyle) (blocks : List Block) (statement : Statement) : Prop :=
  ∀ node flow value type?, Renders s statement (.proc node flow value) type? →
    ∃ block ∈ blocks, block.Declares s style node flow.name

/-- Whatever lines render is visible in the blocks that are open there. -/
def Scoped (s : Setup) (style : ExitStyle) : List Block → List Line → Prop
  | _, [] => True
  | blocks, line :: rest =>
    InScopeAt s style blocks line.statement ∧ Scoped s style (line.applyTo blocks) rest

theorem scoped_append {blocks : List Block} {lines rest : List Line} :
    Scoped s style blocks (lines ++ rest)
      ↔ Scoped s style blocks lines ∧ Scoped s style (openBlocks blocks lines) rest := by
  induction lines generalizing blocks with
  | nil => simp [Scoped]
  | cons line lines ih => rw [List.cons_append, Scoped, ih, Scoped, openBlocks_cons, and_assoc]

theorem Setup.Sound.inScopeAt_bind (h : s.Sound) {blocks : List Block} {source : Source}
    {flows : List (ProcId × String)} {node : ProcId}
    (hpassed : PassedTo s.context.graph source flows) (hvisible : Visible s style blocks flows)
    (hedge : ⟨source, .proc node⟩ ∈ s.context.graph.edges) {name : String}
    (hname : IsTemporary node name) (value : String) :
    InScopeAt s style blocks (.bind name value) := by
  intro origin flow v type? hrenders
  cases hrenders with
  | @bind node' d t _ b _ _ hname' hb _ hr =>
      obtain rfl := hname.unique hname'
      obtain ⟨procNode, slot, symbol, hproc, hentry, rfl⟩ := Context.mem_bindings.mp hb
      obtain ⟨walk, hwalk, hflows⟩ := hpassed (.proc node) hedge
      have horigin := (Context.resolve_eq_proc hr).1
      apply hvisible origin flow.name
      rw [← hflows]
      exact h.graph.scope.binding node procNode slot symbol origin flow.name hproc hentry horigin
        walk hwalk

theorem Setup.Sound.inScopeAt_leave (h : s.Sound) {blocks : List Block} {source : Source}
    {flows : List (ProcId × String)} {out : String}
    (hpassed : PassedTo s.context.graph source flows) (hvisible : Visible s style blocks flows)
    (hedge : ⟨source, .output out⟩ ∈ s.context.graph.edges) (value : String) :
    InScopeAt s style blocks (.leave out value) := by
  intro origin flow v type? hrenders
  cases hrenders with
  | @leave _ o _ ho hout hr =>
      subst hout
      obtain ⟨hentry, hresolution⟩ := Context.mem_outputs.mp ho
      rw [hresolution] at hr
      obtain ⟨walk, hwalk, hflows⟩ := hpassed (.output o.flow) hedge
      have horigin := (Context.resolve_eq_proc hr).1
      apply hvisible origin flow.name
      rw [← hflows]
      exact h.graph.scope.output o.flow o.id o.value origin flow.name hentry horigin walk hwalk


/-! ### The unfolding is in scope -/

/-- Lines are in scope in a block, and leave the blocks around it as they are. -/
structure ScopedIn (s : Setup) (style : ExitStyle) (block : Block) (outer : List Block)
    (lines : List Line) : Prop where
  reads : Scoped s style (block :: outer) lines
  closed : ∃ block', openBlocks (block :: outer) lines = block' :: outer

/-- The block of a case, right behind the binding of its flow. -/
def startedCase (depth : Nat) (node : ProcId) (flow : String) : Block :=
  ⟨⟨depth + 1, .onFlow flow⟩, [⟨depth + 2, .bind (flowVar node flow) (nodeVar node ++ ".value")⟩]⟩

theorem startedCase_declares {depth : Nat} {node : ProcId} {flow : String} {d : Definition}
    {t : Template} (hnode : s.resolved? node = some (d, t)) (hflow : flow ∈ d.flowNames) :
    (startedCase depth node flow).Declares s style node flow :=
  .several hnode hflow (Line.reads_text style ⟨depth + 1, .onFlow flow⟩)
    (Block.binds_bind style _ [] (depth + 2) node flow (nodeVar node ++ ".value"))

theorem caseBlock_scoped {blocks : List Block} {node : ProcId} {branch : String × List Line}
    (depth : Nat)
    (hbind : ∀ block, InScopeAt s style (block :: blocks)
      (.bind (flowVar node branch.1) (nodeVar node ++ ".value")))
    (hbranch : ScopedIn s style (startedCase depth node branch.1) blocks branch.2) :
    Scoped s style blocks (caseBlock depth node branch) ∧
      openBlocks blocks (caseBlock depth node branch) = blocks := by
  obtain ⟨block', hclosed⟩ := hbranch.closed
  refine ⟨?_, ?_⟩
  · refine ⟨nofun, hbind _, scoped_append.mpr ⟨hbranch.reads, nofun, trivial⟩⟩
  · rw [caseBlock, List.cons_append, List.cons_append, openBlocks_cons, openBlocks_cons,
      openBlocks_append]
    change openBlocks (openBlocks (startedCase depth node branch.1 :: blocks) branch.2) _ = blocks
    rw [hclosed]
    rfl

theorem cases_scoped {blocks : List Block} {depth : Nat} {node : ProcId}
    {cases : List (String × List Line)}
    (hcases : ∀ b ∈ cases, Scoped s style blocks (caseBlock depth node b) ∧
      openBlocks blocks (caseBlock depth node b) = blocks) :
    Scoped s style blocks (cases.flatMap (caseBlock depth node)) ∧
      openBlocks blocks (cases.flatMap (caseBlock depth node)) = blocks := by
  induction cases with
  | nil => exact ⟨trivial, rfl⟩
  | cons b rest ih =>
      obtain ⟨hscoped, hopen⟩ := hcases b List.mem_cons_self
      obtain ⟨hrest, hopenRest⟩ := ih fun b' hb' => hcases b' (List.mem_cons_of_mem b hb')
      rw [List.flatMap_cons, scoped_append, openBlocks_append, hopen]
      exact ⟨⟨hscoped, hrest⟩, hopenRest⟩

/-- Where the flows on the way to a source are visible, the unfolding of the source is in scope. -/
theorem Unfolds.scopedIn (h : s.Sound) {source : Source} {depth : Nat} {lines : List Line}
    (hunfolds : Unfolds s source depth lines) {flows : List (ProcId × String)} {block : Block}
    {outer : List Block} (hpassed : PassedTo s.context.graph source flows)
    (hvisible : Visible s style (block :: outer) flows) : ScopedIn s style block outer lines := by
  induction hunfolds generalizing flows block outer with
  | @leave source depth flow hedge _ =>
      exact ⟨⟨h.inScopeAt_leave hpassed hvisible hedge _, trivial⟩, _, rfl⟩
  | @single source depth node d t flow rest hedge hnode hflow _ ih =>
      let bound : Line := ⟨depth, .bind (flowVar node flow) (s.stepExpr node d t)⟩
      have hrest : ScopedIn s style { block with lines := bound :: block.lines } outer rest := by
        refine ih (hpassed.snoc hedge flow) ((hvisible.goOn bound).snoc List.mem_cons_self ?_)
        exact .single hnode hflow (Block.binds_bind style block.opener block.lines depth node flow _)
      refine ⟨⟨h.inScopeAt_bind hpassed hvisible hedge (.flow flow) _, hrest.reads⟩, ?_⟩
      exact hrest.closed
  | @several source depth node d t cases hedge hnode hflows _ _ ih =>
      let bound : Line := ⟨depth, .bind (nodeVar node) (s.stepExpr node d t)⟩
      let switch : Block := ⟨⟨depth, .switchOn (nodeVar node)⟩, []⟩
      have hswitch := (hvisible.goOn bound).cons switch
      have hcase : ∀ b ∈ cases, ScopedIn s style (startedCase depth node b.1)
          (switch :: { block with lines := bound :: block.lines } :: outer) b.2 := by
        intro b hb
        refine ih b hb (hpassed.snoc hedge b.1) ((hswitch.cons _).snoc List.mem_cons_self ?_)
        exact startedCase_declares hnode (hflows ▸ List.mem_map_of_mem hb)
      obtain ⟨hreads, hopen⟩ := cases_scoped fun b hb => caseBlock_scoped depth
        (fun inner => h.inScopeAt_bind hpassed (hswitch.cons inner) hedge (.flow b.1) _) (hcase b hb)
      refine ⟨?_, ?_⟩
      · refine ⟨h.inScopeAt_bind hpassed hvisible hedge .outcome _, nofun, ?_⟩
        exact scoped_append.mpr ⟨hreads, nofun, trivial⟩
      · refine ⟨{ block with lines := bound :: block.lines }, ?_⟩
        rw [List.cons_append, List.cons_append, openBlocks_cons, openBlocks_cons, openBlocks_append]
        exact congrArg (openBlocks · [⟨depth, .closeBlock⟩]) hopen


/-! ### The generated function -/

theorem Scoped.inScopeAt {blocks : List Block} {before after : List Line} {line : Line}
    (h : Scoped s style blocks (before ++ line :: after)) :
    InScopeAt s style (openBlocks blocks before) line.statement :=
  (scoped_append.mp h).2.1

theorem Setup.Sound.proceduralLines_scoped (h : s.Sound) (style : ExitStyle) :
    Scoped s style [] (s.proceduralLines style) := by
  have hbody : ScopedIn s style ⟨⟨0, .header (s.signature style)⟩, []⟩ [] s.bodyLines :=
    h.bodyLines_unfolds.scopedIn h (passedTo_entry s.context.graph) fun _ _ hmem =>
      absurd hmem List.not_mem_nil
  rw [proceduralLines_eq]
  exact ⟨nofun, scoped_append.mpr ⟨hbody.reads, nofun, trivial⟩⟩

/-- On a valid graph, whatever procedural code renders from a flow of a node is read off the temporary of
that flow, behind the line that declares it, in the same block or in one within it; and it is a declared
value of the type that is asked for. -/
theorem rendered_flow_in_scope {c : Catalog} (hloaded : c.Loaded) {g : Graph}
    (hvalid : (c.context g).diagnostics = []) (style : ExitStyle) :
    generate (c.context g) c.implementations style.flavor
        = String.join (((c.setup g).proceduralLines style).map (Line.text style)) ∧
      (∀ line ∈ (c.setup g).proceduralLines style, line.Spelled style (line.text style)) ∧
      ∀ before line after, (c.setup g).proceduralLines style = before ++ line :: after →
        ∀ node flow value type?, Renders (c.setup g) line.statement (.proc node flow value) type? →
          Shows (line.text style) (readText node flow.name value.name) ∧
          (∃ block ∈ openBlocks [] before, block.Declares (c.setup g) style node flow.name) ∧
          (∃ d, (c.context g).definition? node = some d ∧ flow ∈ d.outputs ∧ value ∈ flow.values) ∧
          type? = some value.type := by
  have hsound := hloaded.sound_of_valid hvalid
  refine ⟨generate_flavor c g style, fun line _ => line.spelled_text style, ?_⟩
  intro before line after hlines node flow value type? hrenders
  have hscoped := hsound.proceduralLines_scoped style
  rw [hlines] at hscoped
  refine ⟨?_, hscoped.inScopeAt node flow value type? hrenders, hrenders.declared hsound⟩
  rw [← symbolExpr_proc (c.setup g)]
  exact hrenders.shows

/-- The definition and the template of the negation in the standard catalog. -/
def negation : Definition × Template :=
  (⟨[⟨"x", "number"⟩], [Catalog.resultFlow "number"]⟩,
    ⟨"@result(\x7b res: -$x \x7d)",
      [.exit "result", .text "(\x7b res: -", .input "x", .text " \x7d)"]⟩)

/-- The line in which the quotient of a division is negated. -/
def negationLine : Line where
  depth := 3
  statement := .bind (flowVar ⟨1⟩ "result")
    ((Catalog.standard.setup division).stepExpr ⟨1⟩ negation.1 negation.2)

theorem quotient_negated_in_scope :
    Catalog.standard.Loaded ∧ (Catalog.standard.context division).diagnostics = [] ∧
      ∃ before after type?,
        (Catalog.standard.setup division).proceduralLines .union = before ++ negationLine :: after ∧
        Renders (Catalog.standard.setup division) negationLine.statement
          (.proc ⟨0⟩ (Catalog.resultFlow "number") ⟨"res", "number"⟩) type? ∧
        Shows (negationLine.text .union) (readText ⟨0⟩ "result" "res") ∧
        (∃ block ∈ openBlocks [] before,
          block.Declares (Catalog.standard.setup division) .union ⟨0⟩ "result") ∧
        type? = some "number" := by
  have hlines := List.take_append_drop 5
    ((Catalog.standard.setup division).proceduralLines .union)
  have hdrop : ((Catalog.standard.setup division).proceduralLines .union).drop 5
      = negationLine :: ((Catalog.standard.setup division).proceduralLines .union).drop 6 := by
    decide +kernel
  rw [hdrop] at hlines
  have hnode : (Catalog.standard.setup division).resolved? ⟨1⟩ = some negation := by decide +kernel
  have hplace : "x" ∈ negation.2.inputs := by decide
  have hresolution : ((Catalog.standard.context division).bindingOf ⟨1⟩ "x"
      ⟨.proc ⟨0⟩ "result", "res"⟩).resolution
        = .proc ⟨0⟩ (Catalog.resultFlow "number") ⟨"res", "number"⟩ := by
    decide +kernel
  have hrenders := Renders.bind hnode (IsTemporary.flow "result") List.mem_cons_self hplace hresolution
  obtain ⟨_, _, hscope⟩ := rendered_flow_in_scope Catalog.loaded_standard diagnostics_division .union
  obtain ⟨hshows, hdeclares, _, htype⟩ := hscope _ negationLine _ hlines.symm _ _ _ _ hrenders
  exact ⟨Catalog.loaded_standard, diagnostics_division, _, _, _, hlines.symm, hrenders, hshows,
    hdeclares, htype⟩

end ProcFlow.Code
