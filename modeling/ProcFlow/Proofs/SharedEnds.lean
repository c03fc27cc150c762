import ProcFlow.Proofs.ControlFaults
/-!
# Edges that share an end

Edges are held against each other in the order in which they stand. What has been taken by then, sources
and nodes, is the state of the check, and whether an edge is reported depends on that state alone. A source
is taken by the first wired edge that leaves it. A node is taken by the first wired edge that enters it and
is itself the first to leave its source: an edge that is reported for its source takes no node.

Hence no two of the edges that are left without a report share an end, and a report is never without a
cause. But a node may be entered by several edges before it is taken, and of these only the ones that are
reported for their source are noticed.
-/

namespace ProcFlow

open Diagnostic (Kind Subject)

/-- Two edges start in the same place, or end in the same node. -/
def Edge.Meets (e e' : Edge) : Prop :=
  e.source = e'.source ∨ ∃ node, e.target = .proc node ∧ e'.target = .proc node

theorem Edge.Meets.symm {e e' : Edge} (h : e.Meets e') : e'.Meets e :=
  h.imp Eq.symm fun ⟨node, htarget, htarget'⟩ => ⟨node, htarget', htarget⟩

theorem Graph.getElem?_edgesWithIds (g : Graph) (n : Nat) :
    g.edgesWithIds[n]? = (g.edge? ⟨n⟩).map fun e => (⟨n⟩, e) := by
  rw [edgesWithIds, List.getElem?_map, List.getElem?_zipIdx, Option.map_map]
  simp [Graph.edge?, Function.comp_def]

theorem Graph.pairwise_edgesWithIds (g : Graph) :
    g.edgesWithIds.Pairwise fun x y => x.1.index < y.1.index := by
  have hindices : (g.edges.zipIdx.map Prod.snd).Pairwise (· < ·) := by
    rw [List.zipIdx_map_snd]
    exact List.pairwise_lt_range'
  rw [edgesWithIds, List.pairwise_map]
  exact List.pairwise_map.mp hindices

namespace Context

theorem not_apart_iff {e e' : Edge} : ¬ Apart e e' ↔ e.Meets e' := by
  simp only [Apart, Edge.Meets, not_and_or, not_forall, not_not, exists_prop]

/-! ### What has been taken -/

/-- The sources and the nodes that edges have taken, each with the edge that took it. -/
structure Taken where
  leaving : List (Source × EdgeId)
  entering : List (ProcId × EdgeId)

namespace Taken

/-- The report on an edge, given what has been taken before it. -/
def report? (c : Context) (t : Taken) (x : EdgeId × Edge) : Option Diagnostic :=
  if c.isWired x.2 then
    match t.leaving.lookup x.2.source, x.2.target with
    | some first, _ => some (sharedSource first x.1 x.2)
    | none, .output _ => none
    | none, .proc node => (t.entering.lookup node).map fun first => sharedTarget first x.1 x.2 node
  else none

/-- What has been taken after an edge, given what has been taken before it. -/
def next (c : Context) (t : Taken) (x : EdgeId × Edge) : Taken :=
  if c.isWired x.2 ∧ t.leaving.lookup x.2.source = none then
    { leaving := (x.2.source, x.1) :: t.leaving
      entering := match x.2.target with
        | .output _ => t.entering
        | .proc node =>
          if (t.entering.lookup node).isSome then t.entering else (node, x.1) :: t.entering }
  else t

end Taken

variable {c : Context}

theorem sharedEnds_cons (t : Taken) (x : EdgeId × Edge) (rest : List (EdgeId × Edge)) :
    c.sharedEnds t.leaving t.entering (x :: rest)
      = (t.report? c x).toList
        ++ c.sharedEnds (t.next c x).leaving (t.next c x).entering rest := by
  obtain ⟨id, source, target⟩ := x
  rw [sharedEnds]
  cases hwired : c.isWired ⟨source, target⟩ with
  | false => simp [Taken.report?, Taken.next, hwired]
  | true =>
      cases hleaving : t.leaving.lookup source with
      | some first => simp [Taken.report?, Taken.next, hwired, hleaving]
      | none =>
          cases target with
          | output flow => simp [Taken.report?, Taken.next, hwired, hleaving]
          | proc node =>
              cases hentering : t.entering.lookup node <;>
                simp [Taken.report?, Taken.next, hwired, hleaving, hentering]

/-- A diagnostic of the check is the report on one of the edges, given what the edges before it have
taken. -/
theorem mem_sharedEnds_iff {d : Diagnostic} (t : Taken) (edges : List (EdgeId × Edge)) :
    d ∈ c.sharedEnds t.leaving t.entering edges
      ↔ ∃ n x, edges[n]? = some x ∧ ((edges.take n).foldl (Taken.next c) t).report? c x = some d := by
  induction edges generalizing t with
  | nil => simp [sharedEnds]
  | cons x rest ih =>
      rw [sharedEnds_cons, List.mem_append, ih, Option.mem_toList]
      refine ⟨?_, ?_⟩
      · rintro (hfirst | ⟨n, y, hy, hreport⟩)
        · exact ⟨0, x, rfl, hfirst⟩
        · exact ⟨n + 1, y, hy, hreport⟩
      · rintro ⟨n, y, hy, hreport⟩
        cases n with
        | zero =>
            obtain rfl := Option.some.inj hy
            exact Or.inl hreport
        | succ n => exact Or.inr ⟨n, y, hy, hreport⟩

theorem report?_eq_some {t : Taken} {x : EdgeId × Edge} {d : Diagnostic}
    (h : t.report? c x = some d) :
    c.isWired x.2 ∧ d.finding = (.duplicateControlEdge, .edge x.1) := by
  unfold Taken.report? at h
  split at h
  next hwired =>
    refine ⟨hwired, ?_⟩
    split at h
    · cases h
      rfl
    · cases h
    · obtain ⟨first, _, rfl⟩ := Option.map_eq_some_iff.mp h
      rfl
  · cases h

theorem report?_isSome_iff {t : Taken} {id : EdgeId} {e : Edge} :
    (t.report? c (id, e)).isSome ↔ c.isWired e ∧ ((t.leaving.lookup e.source).isSome ∨
      ∃ node, e.target = .proc node ∧ (t.entering.lookup node).isSome) := by
  obtain ⟨source, target⟩ := e
  cases hwired : c.isWired ⟨source, target⟩ with
  | false => simp [Taken.report?, hwired]
  | true =>
      cases hleaving : t.leaving.lookup source with
      | some first => simp [Taken.report?, hwired, hleaving]
      | none => cases target <;> simp [Taken.report?, hwired, hleaving]

/-- The edges are reported in order, and none of them twice. -/
theorem sublist_sharedEnds (t : Taken) (edges : List (EdgeId × Edge)) :
    ((c.sharedEnds t.leaving t.entering edges).map Diagnostic.finding).Sublist
      (edges.map fun x => (Kind.duplicateControlEdge, Subject.edge x.1)) := by
  induction edges generalizing t with
  | nil => exact List.Sublist.slnil
  | cons x rest ih =>
      rw [sharedEnds_cons, List.map_append, List.map_cons]
      cases hreport : t.report? c x with
      | none => exact (ih (t.next c x)).cons _
      | some d =>
          rw [Option.toList_some, List.map_singleton, (report?_eq_some hreport).2]
          exact (ih (t.next c x)).cons_cons _


/-! ### What has been taken at each place -/

/-- A wired edge stands at a place. -/
def WiredAt (c : Context) (id : EdgeId) (e : Edge) : Prop :=
  c.graph.edge? id = some e ∧ c.isWired e

/-- No wired edge before a place starts where an edge does. -/
def Opens (c : Context) (id : EdgeId) (e : Edge) : Prop :=
  ∀ id' e', id'.index < id.index → c.WiredAt id' e' → e'.source ≠ e.source

/-- What has been taken by the edges before a place. -/
def takenBefore (c : Context) (n : Nat) : Taken :=
  (c.graph.edgesWithIds.take n).foldl (Taken.next c) ⟨[], []⟩

/-- Sources are taken by the wired edges before a place, and nodes by those of them that are the first to
leave their source. -/
structure Taken.Covers (c : Context) (n : Nat) (t : Taken) : Prop where
  leaving : ∀ source, (t.leaving.lookup source).isSome
    ↔ ∃ id e, id.index < n ∧ c.WiredAt id e ∧ e.source = source
  entering : ∀ node, (t.entering.lookup node).isSome
    ↔ ∃ id e, id.index < n ∧ c.WiredAt id e ∧ c.Opens id e ∧ e.target = .proc node

theorem isSome_lookup_cons {α β : Type} [DecidableEq α] {a k : α} {b : β} {l : List (α × β)} :
    (((a, b) :: l).lookup k).isSome ↔ a = k ∨ (l.lookup k).isSome := by
  rw [List.lookup_cons]
  by_cases h : k = a
  · simp [h]
  · have hb : (k == a) = false := by simpa using h
    simp only [hb, Ne.symm h, false_or]

/-- A wired edge before the next place stands at this place or before it. -/
theorem exists_wiredAt_succ {n : Nat} {e : Edge} (he : c.graph.edge? ⟨n⟩ = some e)
    {P : EdgeId → Edge → Prop} :
    (∃ id e, id.index < n + 1 ∧ c.WiredAt id e ∧ P id e)
      ↔ (∃ id e, id.index < n ∧ c.WiredAt id e ∧ P id e) ∨ c.isWired e ∧ P ⟨n⟩ e := by
  refine ⟨?_, ?_⟩
  · rintro ⟨⟨i⟩, e', hlt, hwired, hP⟩
    obtain hlt | rfl := Nat.lt_succ_iff_lt_or_eq.mp hlt
    · exact Or.inl ⟨⟨i⟩, e', hlt, hwired, hP⟩
    · obtain rfl := Option.some.inj (he.symm.trans hwired.1)
      exact Or.inr ⟨hwired.2, hP⟩
  · rintro (⟨id, e', hlt, hwired, hP⟩ | ⟨hwired, hP⟩)
    · exact ⟨id, e', Nat.lt_succ_of_lt hlt, hwired, hP⟩
    · exact ⟨⟨n⟩, e, Nat.lt_succ_self n, ⟨he, hwired⟩, hP⟩

namespace Taken.Covers

variable {n : Nat} {t : Taken}

theorem opens_iff (h : t.Covers c n) {e : Edge} :
    c.Opens ⟨n⟩ e ↔ t.leaving.lookup e.source = none := by
  rw [← Option.not_isSome_iff_eq_none, h.leaving]
  simp only [Opens, not_exists, not_and]

theorem next (h : t.Covers c n) {e : Edge} (he : c.graph.edge? ⟨n⟩ = some e) :
    (t.next c (⟨n⟩, e)).Covers c (n + 1) := by
  obtain ⟨source, target⟩ := e
  have hopens := h.opens_iff (e := ⟨source, target⟩)
  unfold Taken.next
  split
  next hnew =>
    -- The edge is the first to leave its source, so it takes that, and its node if it is still free.
    refine ⟨fun other => ?_, fun node => ?_⟩
    · rw [exists_wiredAt_succ he, isSome_lookup_cons, h.leaving, and_iff_right hnew.1, or_comm]
    · rw [exists_wiredAt_succ he, ← h.entering, and_iff_right hnew.1,
        and_iff_right (hopens.mpr hnew.2)]
      cases target with
      | output flow => simp
      | proc first =>
          by_cases htaken : (t.entering.lookup first).isSome
          · simp only [htaken, if_true, Target.proc.injEq]
            exact (or_iff_left_of_imp fun heq => heq ▸ htaken).symm
          · simp only [htaken, Bool.false_eq_true, if_false, isSome_lookup_cons, Target.proc.injEq]
            exact or_comm
  next hold =>
    -- The edge takes nothing: it is not wired, or its source has been taken.
    refine ⟨fun other => ?_, fun node => ?_⟩
    · rw [exists_wiredAt_succ he, ← h.leaving]
      refine (or_iff_left_of_imp ?_).symm
      rintro ⟨hwired, rfl⟩
      exact Option.isSome_iff_ne_none.mpr fun hnone => hold ⟨hwired, hnone⟩
    · rw [exists_wiredAt_succ he, ← h.entering]
      refine (or_iff_left_of_imp ?_).symm
      rintro ⟨hwired, hfirst, _⟩
      exact absurd ⟨hwired, hopens.mp hfirst⟩ hold

end Taken.Covers

theorem covers_takenBefore (c : Context) {n : Nat} (hn : n ≤ c.graph.edges.length) :
    (c.takenBefore n).Covers c n := by
  induction n with
  | zero => exact ⟨fun source => by simp [takenBefore], fun node => by simp [takenBefore]⟩
  | succ n ih =>
      have he : c.graph.edge? ⟨n⟩ = some c.graph.edges[n] := List.getElem?_eq_getElem hn
      have hnext : c.takenBefore (n + 1) = (c.takenBefore n).next c (⟨n⟩, c.graph.edges[n]) := by
        rw [takenBefore, List.take_add_one, List.foldl_append, Graph.getElem?_edgesWithIds, he]
        rfl
      rw [hnext]
      exact (ih (Nat.le_of_succ_le hn)).next he


/-! ### The edges that are reported -/

/-- An edge carries a report that it is a duplicate. -/
def ReportsDuplicate (c : Context) (id : EdgeId) : Prop :=
  (Kind.duplicateControlEdge, Subject.edge id) ∈ c.findings

/-- The edges are held against each other last, and what control is checked for before that has other
kinds. -/
theorem exists_controlProblems_eq (c : Context) : ∃ earlier,
    c.controlProblems = earlier ++ c.duplicateProblems ∧
      ∀ d ∈ earlier, d.kind ≠ .duplicateControlEdge := by
  refine ⟨_, rfl, fun d hd => ?_⟩
  rw [List.mem_append, List.mem_append, List.mem_flatMap, List.mem_flatMap] at hd
  rcases hd with (⟨⟨id, e⟩, _, hd⟩ | ⟨⟨id, node⟩, _, hd⟩) | hd
  · rcases kind_of_mem_edgeProblems hd with hkind | hkind <;> simp [hkind]
  · rcases List.mem_append.mp hd with hd | hd
    · simp [kind_of_mem_incomingProblems hd]
    · simp [kind_of_mem_outgoingProblems hd]
  · simp [kind_of_mem_entryProblems hd]

theorem filter_findings_duplicate (c : Context) :
    (c.findings.filter fun f => f.1 = .duplicateControlEdge)
      = c.duplicateProblems.map Diagnostic.finding := by
  let isDuplicate : Diagnostic → Bool := fun d => d.kind = .duplicateControlEdge
  have hdata : c.dataProblems.filter isDuplicate = [] :=
    filter_kind_eq_nil (by decide) fun _ => kind_of_mem_dataProblems
  have hcontrol : c.controlProblems.filter isDuplicate = c.duplicateProblems := by
    obtain ⟨earlier, heq, hearlier⟩ := c.exists_controlProblems_eq
    have hnone : earlier.filter isDuplicate = [] :=
      List.filter_eq_nil_iff.mpr fun d hd => by simpa [isDuplicate] using hearlier d hd
    have hall : c.duplicateProblems.filter isDuplicate = c.duplicateProblems :=
      List.filter_eq_self.mpr fun d hd => decide_eq_true (kind_of_mem_sharedEnds hd)
    rw [heq, List.filter_append, hnone, hall, List.nil_append]
  have hcycles : (c.cycleProblems c.cycles).filter isDuplicate = [] :=
    List.filter_eq_nil_iff.mpr fun d hd => by simp [isDuplicate, kind_of_mem_cycleProblems hd]
  have hscope : (c.scopeProblems c.cycles).filter isDuplicate = [] :=
    List.filter_eq_nil_iff.mpr fun d hd => by simp [isDuplicate, kind_of_mem_scopeProblems hd]
  rw [findings, List.filter_map]
  change (c.diagnostics.filter isDuplicate).map Diagnostic.finding = _
  rw [diagnostics_eq_append, List.filter_append, List.filter_append, List.filter_append, hdata,
    hcontrol, hcycles, hscope, List.append_nil, List.append_nil, List.nil_append]

theorem mem_findings_duplicate_iff {subject : Subject} :
    (Kind.duplicateControlEdge, subject) ∈ c.findings
      ↔ (Kind.duplicateControlEdge, subject) ∈ c.duplicateProblems.map Diagnostic.finding := by
  rw [← filter_findings_duplicate, List.mem_filter]
  simp

theorem count_duplicate_le_one (c : Context) (id : EdgeId) :
    c.findings.count (.duplicateControlEdge, .edge id) ≤ 1 := by
  have hedges : (c.graph.edgesWithIds.map fun x =>
      (Kind.duplicateControlEdge, Subject.edge x.1)).Nodup := by
    refine List.pairwise_map.mpr (c.graph.pairwise_edgesWithIds.imp fun {x y} hlt heq => ?_)
    rw [Subject.edge.inj (Prod.mk.inj heq).2] at hlt
    exact Nat.lt_irrefl _ hlt
  have hnodup : (c.duplicateProblems.map Diagnostic.finding).Nodup :=
    (sublist_sharedEnds ⟨[], []⟩ c.graph.edgesWithIds).nodup hedges
  have hcount := List.nodup_iff_count_le_one.mp hnodup (.duplicateControlEdge, .edge id)
  rwa [← filter_findings_duplicate, List.count_filter (by simp)] at hcount

/-- Reports of this kind are about wired edges, each of which meets what the edges before it have
taken. -/
theorem mem_findings_duplicate_iff_exists {subject : Subject} :
    (Kind.duplicateControlEdge, subject) ∈ c.findings
      ↔ ∃ id e, subject = .edge id ∧ c.graph.edge? id = some e ∧
        ((c.takenBefore id.index).report? c (id, e)).isSome := by
  rw [mem_findings_duplicate_iff, List.mem_map]
  refine ⟨?_, ?_⟩
  · rintro ⟨d, hd, hfinding⟩
    obtain ⟨n, x, hx, hreport⟩ := (mem_sharedEnds_iff ⟨[], []⟩ _).mp hd
    rw [Graph.getElem?_edgesWithIds] at hx
    obtain ⟨e, he, rfl⟩ := Option.map_eq_some_iff.mp hx
    rw [(report?_eq_some hreport).2] at hfinding
    exact ⟨⟨n⟩, e, (Prod.mk.inj hfinding).2.symm, he, Option.isSome_iff_exists.mpr ⟨d, hreport⟩⟩
  · rintro ⟨id, e, rfl, he, hreport⟩
    obtain ⟨d, hreport⟩ := Option.isSome_iff_exists.mp hreport
    refine ⟨d, (mem_sharedEnds_iff ⟨[], []⟩ _).mpr ⟨id.index, (id, e), ?_, hreport⟩, ?_⟩
    · rw [Graph.getElem?_edgesWithIds, he]
      rfl
    · exact (report?_eq_some hreport).2

theorem reportsDuplicate_iff {id : EdgeId} :
    c.ReportsDuplicate id ↔ ∃ e, c.WiredAt id e ∧
      ((∃ id' e', id'.index < id.index ∧ c.WiredAt id' e' ∧ e'.source = e.source) ∨
        ∃ id' e', id'.index < id.index ∧ c.WiredAt id' e' ∧ c.Opens id' e' ∧
          ∃ node, e'.target = .proc node ∧ e.target = .proc node) := by
  have hcovers : ∀ e, c.graph.edge? id = some e → (c.takenBefore id.index).Covers c id.index :=
    fun e he => c.covers_takenBefore (Nat.le_of_lt (List.getElem?_eq_some_iff.mp he).1)
  rw [ReportsDuplicate, mem_findings_duplicate_iff_exists]
  refine ⟨?_, ?_⟩
  · rintro ⟨_, e, heq, he, hreport⟩
    cases heq
    obtain ⟨hwired, hmeets⟩ := report?_isSome_iff.mp hreport
    refine ⟨e, ⟨he, hwired⟩, hmeets.imp ((hcovers e he).leaving _).mp ?_⟩
    rintro ⟨node, htarget, htaken⟩
    obtain ⟨id', e', hlt, hwired', hopens, htarget'⟩ := ((hcovers e he).entering node).mp htaken
    exact ⟨id', e', hlt, hwired', hopens, node, htarget', htarget⟩
  · rintro ⟨e, ⟨he, hwired⟩, hmeets⟩
    refine ⟨id, e, rfl, he, report?_isSome_iff.mpr ⟨hwired, ?_⟩⟩
    refine hmeets.imp ((hcovers e he).leaving _).mpr ?_
    rintro ⟨id', e', hlt, hwired', hopens, node, htarget', htarget⟩
    exact ⟨node, htarget, ((hcovers e he).entering node).mpr ⟨id', e', hlt, hwired', hopens, htarget'⟩⟩

/-- An edge that is not reported is the first wired edge to leave its source. -/
theorem opens_of_not_reportsDuplicate {id : EdgeId} {e : Edge} (hwired : c.WiredAt id e)
    (hsilent : ¬ c.ReportsDuplicate id) : c.Opens id e := by
  intro id' e' hlt hwired' hsource
  exact hsilent (reportsDuplicate_iff.mpr ⟨e, hwired, Or.inl ⟨id', e', hlt, hwired', hsource⟩⟩)

theorem reportsDuplicate_of_meets {id id' : EdgeId} {e e' : Edge} (hlt : id.index < id'.index)
    (hwired : c.WiredAt id e) (hwired' : c.WiredAt id' e') (hmeets : e.Meets e')
    (hsilent : ¬ c.ReportsDuplicate id) : c.ReportsDuplicate id' := by
  refine reportsDuplicate_iff.mpr ⟨e', hwired', ?_⟩
  obtain hsource | ⟨node, htarget, htarget'⟩ := hmeets
  · exact Or.inl ⟨id, e, hlt, hwired, hsource⟩
  · have hopens := opens_of_not_reportsDuplicate hwired hsilent
    exact Or.inr ⟨id, e, hlt, hwired, hopens, node, htarget, htarget'⟩

/-- Of two wired edges that meet, one is reported. -/
theorem not_meets_of_not_reportsDuplicate {id id' : EdgeId} {e e' : Edge} (hne : id ≠ id')
    (hwired : c.WiredAt id e) (hwired' : c.WiredAt id' e') (hsilent : ¬ c.ReportsDuplicate id)
    (hsilent' : ¬ c.ReportsDuplicate id') : ¬ e.Meets e' := by
  intro hmeets
  rcases Nat.lt_trichotomy id.index id'.index with hlt | heq | hlt
  · exact hsilent' (reportsDuplicate_of_meets hlt hwired hwired' hmeets hsilent)
  · exact hne (congrArg EdgeId.mk heq)
  · exact hsilent (reportsDuplicate_of_meets hlt hwired' hwired hmeets.symm hsilent')

/-- Some wired edge before a place meets the wired edge that stands there. -/
def MeetsEarlier (c : Context) (id : EdgeId) : Prop :=
  ∃ e, c.WiredAt id e ∧ ∃ id' e', id'.index < id.index ∧ c.WiredAt id' e' ∧ e'.Meets e

theorem ReportsDuplicate.meetsEarlier {id : EdgeId} (h : c.ReportsDuplicate id) :
    c.MeetsEarlier id := by
  obtain ⟨e, hwired, hmeets⟩ := reportsDuplicate_iff.mp h
  refine ⟨e, hwired, ?_⟩
  obtain ⟨id', e', hlt, hwired', hsource⟩ | ⟨id', e', hlt, hwired', _, hnode⟩ := hmeets
  · exact ⟨id', e', hlt, hwired', Or.inl hsource⟩
  · exact ⟨id', e', hlt, hwired', Or.inr hnode⟩


/-! ### Without the edges that are reported -/

/-- The edges that carry no report of being a duplicate. -/
def keptEdges (c : Context) : List Edge :=
  (c.graph.edgesWithIds.filter fun x =>
    (Kind.duplicateControlEdge, Subject.edge x.1) ∉ c.findings).map Prod.snd

theorem not_reportsDuplicate_keptEdges (c : Context) (id : EdgeId) :
    ¬ (c.withEdges c.keptEdges).ReportsDuplicate id := by
  have hkept : (c.keptEdges.filter c.isWired).Pairwise Apart := by
    rw [keptEdges, List.filter_map, List.pairwise_map, List.filter_filter, List.pairwise_filter]
    refine c.graph.pairwise_edgesWithIds.imp_of_mem ?_
    rintro ⟨i, e⟩ ⟨j, e'⟩ hi hj hlt hfirst hsecond
    simp only [Function.comp_apply, Bool.and_eq_true, decide_eq_true_iff] at hfirst hsecond
    by_contra hapart
    refine not_meets_of_not_reportsDuplicate ?_ ⟨c.graph.mem_edgesWithIds.mp hi, hfirst.1⟩
      ⟨c.graph.mem_edgesWithIds.mp hj, hsecond.1⟩ hfirst.2 hsecond.2 (not_apart_iff.mp hapart)
    rintro rfl
    exact Nat.lt_irrefl _ hlt
  have hsilent : (c.withEdges c.keptEdges).duplicateProblems = [] :=
    duplicateProblems_eq_nil_iff.mpr hkept
  rw [ReportsDuplicate, mem_findings_duplicate_iff, hsilent]
  exact List.not_mem_nil

/-- Dropping the edges that are reported as duplicates leaves clean control: the reports are about wired
edges, each reported at most once, no two of the others meet, and there is a report if any two meet. -/
theorem dropping_duplicates_clears (c : Context) :
    (∀ subject, (Kind.duplicateControlEdge, subject) ∈ c.findings →
        ∃ id e, subject = .edge id ∧ c.WiredAt id e) ∧
      (∀ id, c.findings.count (.duplicateControlEdge, .edge id) ≤ 1) ∧
      (∀ id id' e e', id ≠ id' → c.WiredAt id e → c.WiredAt id' e' → ¬ c.ReportsDuplicate id →
        ¬ c.ReportsDuplicate id' → ¬ e.Meets e') ∧
      ((∃ id, c.ReportsDuplicate id) ↔
        ∃ id id' e e', id ≠ id' ∧ c.WiredAt id e ∧ c.WiredAt id' e' ∧ e.Meets e') ∧
      ∀ id, ¬ (c.withEdges c.keptEdges).ReportsDuplicate id := by
  refine ⟨?_, c.count_duplicate_le_one, ?_, ?_, c.not_reportsDuplicate_keptEdges⟩
  · intro subject hmem
    obtain ⟨id, e, rfl, he, hreport⟩ := mem_findings_duplicate_iff_exists.mp hmem
    exact ⟨id, e, rfl, he, (report?_isSome_iff.mp hreport).1⟩
  · intro id id' e e' hne hwired hwired' hsilent hsilent'
    exact not_meets_of_not_reportsDuplicate hne hwired hwired' hsilent hsilent'
  · refine ⟨?_, ?_⟩
    · rintro ⟨id, hreport⟩
      obtain ⟨e, hwired, id', e', hlt, hwired', hmeets⟩ := hreport.meetsEarlier
      refine ⟨id', id, e', e, ?_, hwired', hwired, hmeets⟩
      rintro rfl
      exact Nat.lt_irrefl _ hlt
    · rintro ⟨id, id', e, e', hne, hwired, hwired', hmeets⟩
      by_contra hnone
      rw [not_exists] at hnone
      exact not_meets_of_not_reportsDuplicate hne hwired hwired' (hnone id) (hnone id') hmeets


/-! ### Where a shared node is overlooked -/

/-- Whenever the first wired edge to leave its source enters a node that has been entered before it, one
of the edges that have entered it was the first to leave its own source. -/
def NodesTaken (c : Context) : Prop :=
  ∀ id e node, c.WiredAt id e → c.Opens id e → e.target = .proc node →
    (∃ id' e', id'.index < id.index ∧ c.WiredAt id' e' ∧ e'.target = .proc node) →
      ∃ id' e', id'.index < id.index ∧ c.WiredAt id' e' ∧ c.Opens id' e' ∧ e'.target = .proc node

/-- An edge is reported only if it meets an earlier one. Each edge that does is reported, as long as nodes
are taken by the edges that enter them. -/
theorem reports_meeting_edges_iff (c : Context) :
    (∀ id, c.ReportsDuplicate id → c.MeetsEarlier id) ∧
      ((∀ id, c.ReportsDuplicate id ↔ c.MeetsEarlier id) ↔ c.NodesTaken) := by
  refine ⟨fun id => ReportsDuplicate.meetsEarlier, ?_, ?_⟩
  · rintro hrule id e node hwired hopens htarget ⟨id', e', hlt, hwired', htarget'⟩
    have hmeets : c.MeetsEarlier id :=
      ⟨e, hwired, id', e', hlt, hwired', Or.inr ⟨node, htarget', htarget⟩⟩
    obtain ⟨e₁, hwired₁, hends⟩ := reportsDuplicate_iff.mp ((hrule id).mpr hmeets)
    obtain rfl := Option.some.inj (hwired.1.symm.trans hwired₁.1)
    obtain ⟨id₂, e₂, hlt₂, hwired₂, hsource⟩ | ⟨id₂, e₂, hlt₂, hwired₂, hopens₂, node₂, h₂, h₁⟩ := hends
    · exact absurd hsource (hopens id₂ e₂ hlt₂ hwired₂)
    · obtain rfl := Target.proc.inj (htarget.symm.trans h₁)
      exact ⟨id₂, e₂, hlt₂, hwired₂, hopens₂, h₂⟩
  · intro htaken id
    refine ⟨ReportsDuplicate.meetsEarlier, ?_⟩
    rintro ⟨e, hwired, id', e', hlt, hwired', hmeets⟩
    by_contra hsilent
    have hopens := opens_of_not_reportsDuplicate hwired hsilent
    obtain hsource | ⟨node, htarget', htarget⟩ := hmeets
    · exact hopens id' e' hlt hwired' hsource
    · obtain ⟨id₂, e₂, hlt₂, hwired₂, hopens₂, htarget₂⟩ :=
        htaken id e node hwired hopens htarget ⟨id', e', hlt, hwired', htarget'⟩
      refine hsilent (reportsDuplicate_iff.mpr ⟨e, hwired, Or.inr ?_⟩)
      exact ⟨id₂, e₂, hlt₂, hwired₂, hopens₂, node, htarget₂, htarget⟩

/-- A flow goes on to two nodes, the second of which is entered from the first as well. -/
def forked : Graph where
  procs := List.replicate 3 ⟨"negate", .ofList [("x", ⟨.entry, "x"⟩)]⟩
  edges :=
    [⟨.entry, .proc ⟨0⟩⟩, ⟨.proc ⟨0⟩ "result", .proc ⟨1⟩⟩, ⟨.proc ⟨0⟩ "result", .proc ⟨2⟩⟩,
      ⟨.proc ⟨1⟩ "result", .proc ⟨2⟩⟩, ⟨.proc ⟨2⟩ "result", .output "done"⟩]
  inputs := .ofList [("x", ⟨[], "number"⟩)]
  outputFlows := .ofList [("done", .ofList [("res", ⟨"number", ⟨.proc ⟨2⟩ "result", "res"⟩⟩)])]

/-- The second edge into the node is not reported, because the first one has been reported for its
source. -/
theorem not_reports_meeting_forked :
    ¬ ∀ id, (Catalog.standard.context forked).ReportsDuplicate id
      ↔ (Catalog.standard.context forked).MeetsEarlier id := by
  intro hrule
  have hmeets : (Catalog.standard.context forked).MeetsEarlier ⟨3⟩ :=
    ⟨_, ⟨rfl, by decide⟩, ⟨2⟩, _, by decide, ⟨rfl, by decide⟩, Or.inr ⟨⟨2⟩, rfl, rfl⟩⟩
  have hreports : (Catalog.standard.context forked).duplicateProblems.map Diagnostic.finding
      = [(.duplicateControlEdge, .edge ⟨2⟩)] := by
    decide +kernel
  have hreport := (hrule ⟨3⟩).mpr hmeets
  rw [ReportsDuplicate, mem_findings_duplicate_iff, hreports] at hreport
  exact absurd hreport (by decide)

end Context

end ProcFlow
