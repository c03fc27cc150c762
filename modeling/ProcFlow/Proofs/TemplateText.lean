import ProcFlow.Proofs.TemplateGrammar
/-!
# Templates as text

Segments can be written down: signs in texts are doubled, and inputs stand in braces, so that nothing that
comes after a hole can run into its name. Main statements: what is read are canonical segments, and all
canonical segments are read back from what is written for them. A source with no doubled signs and no braced
inputs needs no such care: filling each hole with its own spelling gives the source back.

A canonical text may be cut into many pieces when it is written, at each sign that it holds. What joins them
again is that a text stands between holes or at an end, so the pieces of two texts never meet.
-/

namespace ProcFlow.Template

/-- Segments that tell texts and holes apart in one way only: names are names, texts are not empty and do not
meet, and each exit is called. -/
inductive Canonical : List Segment → Prop where
  | nil : Canonical []
  | text {x : String} {rest : List Segment} (hne : x ≠ "")
      (halone : ∀ y, rest.head? ≠ some (.text y)) (hrest : Canonical rest) :
      Canonical (.text x :: rest)
  | input {name : String} {rest : List Segment} (hname : IsName name.toList)
      (hrest : Canonical rest) : Canonical (.input name :: rest)
  | exit {name x : String} {rest : List Segment} (hname : IsName name.toList)
      (hcalled : x.toList.head? = some '(') (hrest : Canonical (.text x :: rest)) :
      Canonical (.exit name :: .text x :: rest)

/-- A character of a text, with signs doubled. -/
def escaped (c : Char) : List Char := if IsSign c then [c, c] else [c]

/-- How a segment is written. -/
def spellSegment : Segment → String
  | .text x => String.ofList (x.toList.flatMap escaped)
  | .input name => "$\x7b" ++ name ++ "\x7d"
  | .exit name => "@" ++ name

/-- How segments are written, one after the other. -/
def spell (ss : List Segment) : String := String.join (ss.map spellSegment)


/-! ### What is read is canonical -/

theorem Canonical.consMerged_text {x : String} {ss : List Segment} (h : Canonical ss) (hx : x ≠ "") :
    Canonical (consMerged (.text x) ss) := by
  cases h with
  | nil => exact .text hx (fun _ heq => nomatch heq) .nil
  | text _ halone hrest =>
      refine .text (fun hempty => hx ?_) halone hrest
      exact (String.append_eq_empty_iff.mp hempty).1
  | input hname hrest => exact .text hx (fun _ heq => nomatch heq) (.input hname hrest)
  | exit hname hcalled hrest =>
      exact .text hx (fun _ heq => nomatch heq) (.exit hname hcalled hrest)

/-- A row of pieces that starts with a plain character starts with a text that does. -/
theorem Pieces.exists_text {c : Char} {cs : List Char} {ss : List Segment} (h : Pieces (c :: cs) ss)
    (hc : ¬ IsSign c) : ∃ x rest, ss = .text x :: rest ∧ x.toList.head? = some c := by
  generalize hcs : c :: cs = cs' at h
  cases h with
  | nil => cases hcs
  | cons hpiece hrest =>
      cases hpiece with
      | @run run _ hne _ _ =>
          obtain ⟨d, ds, rfl⟩ := List.exists_cons_of_ne_nil hne
          refine ⟨_, _, rfl, ?_⟩
          rw [String.toList_ofList, (List.cons.inj hcs).1]
          rfl
      | dollarSign => exact absurd (Or.inl (List.cons.inj hcs).1) hc
      | atSign => exact absurd (Or.inr (List.cons.inj hcs).1) hc
      | input => exact absurd (Or.inl (List.cons.inj hcs).1) hc
      | braced => exact absurd (Or.inl (List.cons.inj hcs).1) hc
      | exit => exact absurd (Or.inr (List.cons.inj hcs).1) hc

theorem exists_mergeTexts_text (x : String) (ss : List Segment) :
    ∃ y rest, mergeTexts (.text x :: ss) = .text (x ++ y) :: rest := by
  rw [mergeTexts_cons]
  unfold consMerged
  split
  next y rest heq _ =>
    cases heq
    exact ⟨y, rest, rfl⟩
  · exact ⟨"", _, by rw [String.append_empty]⟩

theorem Pieces.canonical {cs : List Char} {ss : List Segment} (h : Pieces cs ss) :
    Canonical (mergeTexts ss) := by
  induction h with
  | nil => exact .nil
  | @cons piece rest s ss hpiece hrest ih =>
      cases hpiece with
      | run hne =>
          refine ih.consMerged_text fun hempty => hne ?_
          rw [← String.toList_inj, String.toList_ofList] at hempty
          exact hempty
      | dollarSign => exact ih.consMerged_text (by decide)
      | atSign => exact ih.consMerged_text (by decide)
      | input hname => exact .input (by rwa [String.toList_ofList]) ih
      | braced hname => exact .input (by rwa [String.toList_ofList]) ih
      | exit hname hcalled =>
          -- The call that follows is a text, and what is joined to it comes behind the parenthesis.
          obtain ⟨cs, rfl⟩ := List.head?_eq_some_iff.mp hcalled
          obtain ⟨x, tail, rfl, hx⟩ := hrest.exists_text (by decide)
          obtain ⟨y, joined, hjoined⟩ := exists_mergeTexts_text x tail
          rw [hjoined] at ih
          rw [mergeTexts_cons, hjoined]
          refine .exit (by rwa [String.toList_ofList]) ?_ ih
          rw [String.toList_append, List.head?_append, hx]
          rfl


/-! ### What is written is read back -/

/-- What is joined starts with a text if it did before. -/
theorem Joins.head?_ne_of_joined {ss joined : List Segment} (h : Joins ss joined)
    (hjoined : ∀ x, joined.head? ≠ some (.text x)) (x : String) : ss.head? ≠ some (.text x) := by
  cases h with
  | nil => exact hjoined x
  | texts => exact absurd rfl (hjoined _)
  | input => exact fun heq => nomatch heq
  | exit => exact fun heq => nomatch heq

theorem flatMap_escaped_of_plain {cs : List Char} (h : ∀ c ∈ cs, ¬ IsSign c) :
    cs.flatMap escaped = cs := by
  induction cs with
  | nil => rfl
  | cons c cs ih =>
      obtain ⟨hc, hcs⟩ := List.forall_mem_cons.mp h
      rw [List.flatMap_cons, escaped, if_neg hc, ih hcs, List.singleton_append]

theorem head?_flatMap_escaped (cs : List Char) : (cs.flatMap escaped).head? = cs.head? := by
  cases cs with
  | nil => rfl
  | cons c cs =>
      rw [List.flatMap_cons, escaped]
      split <;> rfl

theorem piece_sign {c : Char} (hc : IsSign c) (rest : List Char) :
    Piece [c, c] rest (.text (String.singleton c)) := by
  rcases hc with rfl | rfl
  · exact .dollarSign
  · exact .atSign

/-- What is written for a text is cut into texts that make it up again, provided that a sign comes next. -/
theorem exists_pieces_escaped (cs : List Char) {rest : List Char} {ss : List Segment}
    (hrest : Pieces rest ss) (hsign : ∀ c ∈ rest.head?, IsSign c) :
    ∃ xs : List String, Pieces (cs.flatMap escaped ++ rest) (xs.map Segment.text ++ ss) ∧
      String.join xs = String.ofList cs := by
  match cs with
  | [] => exact ⟨[], hrest, rfl⟩
  | c :: cs =>
      by_cases hc : IsSign c
      · obtain ⟨xs, hpieces, hjoin⟩ := exists_pieces_escaped cs hrest hsign
        refine ⟨String.singleton c :: xs, ?_, ?_⟩
        · rw [List.flatMap_cons, escaped, if_pos hc, List.append_assoc]
          exact .cons (piece_sign hc _) hpieces
        · rw [String.join_cons, hjoin, String.singleton_eq_ofList, ← String.ofList_append,
            List.singleton_append]
      · -- The run goes on to the next sign of the text, or else to the one behind it.
        obtain ⟨xs, hpieces, hjoin⟩ :=
          exists_pieces_escaped (cs.dropWhile Lexeme.isPlain) hrest hsign
        have hsplit : c :: cs = (c :: cs.takeWhile Lexeme.isPlain) ++ cs.dropWhile Lexeme.isPlain := by
          rw [List.cons_append, List.takeWhile_append_dropWhile]
        have hplain : ∀ x ∈ c :: cs.takeWhile Lexeme.isPlain, ¬ IsSign x :=
          List.forall_mem_cons.mpr
            ⟨hc, fun x hx => Lexeme.isPlain_iff.mp (List.mem_takeWhile_imp hx)⟩
        have hlongest : ∀ x ∈ ((cs.dropWhile Lexeme.isPlain).flatMap escaped ++ rest).head?,
            IsSign x := by
          intro x hx
          rw [List.head?_append, head?_flatMap_escaped, Option.mem_def, Option.or_eq_some_iff] at hx
          rcases hx with hx | ⟨_, hx⟩
          · exact not_not.mp (mt Lexeme.isPlain_iff.mpr (Lexeme.stop_of_dropWhile _ cs x hx))
          · exact hsign x hx
        refine ⟨String.ofList (c :: cs.takeWhile Lexeme.isPlain) :: xs, ?_, ?_⟩
        · rw [hsplit, List.flatMap_append, flatMap_escaped_of_plain hplain, List.append_assoc]
          exact .cons (.run (List.cons_ne_nil _ _) hplain hlongest) hpieces
        · rw [String.join_cons, hjoin, ← String.ofList_append, ← hsplit]
termination_by cs.length
decreasing_by
  · exact Nat.lt_succ_self _
  · exact Nat.lt_succ_of_le (List.length_dropWhile_le _ _)

theorem toList_spell_cons (s : Segment) (ss : List Segment) :
    (spell (s :: ss)).toList = (spellSegment s).toList ++ (spell ss).toList := by
  rw [spell, List.map_cons, String.join_cons, String.toList_append, spell]

/-- Where no text comes next, what is written starts with a sign. -/
theorem Canonical.head?_spell {ss : List Segment} (h : Canonical ss)
    (halone : ∀ y, ss.head? ≠ some (.text y)) : ∀ c ∈ (spell ss).toList.head?, IsSign c := by
  intro c hc
  cases h with
  | nil => cases hc
  | text => exact absurd rfl (halone _)
  | input =>
      rw [toList_spell_cons, spellSegment, String.toList_append, String.toList_append] at hc
      exact Or.inl (Option.some.inj hc).symm
  | exit =>
      rw [toList_spell_cons, spellSegment, String.toList_append] at hc
      exact Or.inr (Option.some.inj hc).symm

/-- What is written for canonical segments is a row of pieces, and these segments are what it is joined
to. -/
theorem Canonical.exists_pieces {ss : List Segment} (h : Canonical ss) :
    ∃ ms, Pieces (spell ss).toList ms ∧ Joins ms ss := by
  induction h with
  | nil => exact ⟨[], .nil, .nil⟩
  | @text x rest hne halone hrest ih =>
      obtain ⟨ms, hpieces, hjoins⟩ := ih
      obtain ⟨xs, hcut, hjoin⟩ := exists_pieces_escaped x.toList hpieces (hrest.head?_spell halone)
      rw [String.ofList_toList] at hjoin
      refine ⟨xs.map Segment.text ++ ms, ?_, ?_⟩
      · rwa [toList_spell_cons, spellSegment, String.toList_ofList]
      · subst hjoin
        refine .texts ?_ (hjoins.head?_ne_of_joined halone) hjoins
        rintro rfl
        exact hne rfl
  | @input name rest hname _ ih =>
      obtain ⟨ms, hpieces, hjoins⟩ := ih
      have hpieces := Pieces.cons (.braced hname) hpieces
      rw [String.ofList_toList] at hpieces
      refine ⟨_, ?_, .input hjoins⟩
      rw [toList_spell_cons, spellSegment, String.toList_append, String.toList_append]
      exact hpieces
  | @exit name x rest hname hcalled _ ih =>
      obtain ⟨ms, hpieces, hjoins⟩ := ih
      have hcall : (spell (.text x :: rest)).toList.head? = some '(' := by
        rw [toList_spell_cons, spellSegment, String.toList_ofList, List.head?_append,
          head?_flatMap_escaped, hcalled]
        rfl
      have hpieces := Pieces.cons (.exit hname hcall) hpieces
      rw [String.ofList_toList] at hpieces
      refine ⟨_, ?_, .exit hjoins⟩
      rw [toList_spell_cons, spellSegment, String.toList_append]
      exact hpieces

theorem Canonical.parse_spell {ss : List Segment} (h : Canonical ss) :
    parse (spell ss) = .ok ⟨spell ss, ss⟩ := by
  obtain ⟨ms, hpieces, hjoins⟩ := h.exists_pieces
  exact parse_eq_ok_iff_pieces.mpr ⟨ms, hpieces, by rw [← hjoins.eq_mergeTexts]⟩


/-! ### Holes that stand for themselves -/

/-- A source in which every sign starts a hole, and no input stands in braces. -/
structure Unescaped (cs : List Char) : Prop where
  dollars : ¬ ['$', '$'] <:+: cs
  ats : ¬ ['@', '@'] <:+: cs
  braces : ¬ ['$', '\x7b'] <:+: cs

theorem Unescaped.right {cs rest : List Char} (h : Unescaped (cs ++ rest)) : Unescaped rest where
  dollars := mt (·.trans (List.suffix_append cs rest).isInfix) h.dollars
  ats := mt (·.trans (List.suffix_append cs rest).isInfix) h.ats
  braces := mt (·.trans (List.suffix_append cs rest).isInfix) h.braces

theorem Pieces.fill_eq {cs : List Char} {ss : List Segment} (h : Pieces cs ss) (hcs : Unescaped cs) :
    (String.join (ss.map (fill ("$" ++ ·) ("@" ++ ·)))).toList = cs := by
  induction h with
  | nil => rfl
  | @cons piece rest s ss hpiece _ ih =>
      rw [List.map_cons, String.join_cons, String.toList_append, ih hcs.right]
      congr 1
      cases hpiece with
      | run => exact String.toList_ofList
      | dollarSign => exact absurd (List.prefix_append _ _).isInfix hcs.dollars
      | atSign => exact absurd (List.prefix_append _ _).isInfix hcs.ats
      | input =>
          rw [fill, String.toList_append]
          exact congrArg ('$' :: ·) String.toList_ofList
      | braced => exact absurd (List.prefix_append ['$', '\x7b'] _).isInfix hcs.braces
      | exit =>
          rw [fill, String.toList_append]
          exact congrArg ('@' :: ·) String.toList_ofList

/-- Whatever is read has canonical segments, canonical segments are read back from what is written for them,
and a source without doubled signs and braces is what its holes, spelled as they are, render to. -/
theorem canonical_round_trip :
    (∀ source t, parse source = .ok t → Canonical t.segments) ∧
      (∀ ss, Canonical ss → parse (spell ss) = .ok ⟨spell ss, ss⟩) ∧
      ∀ source t, parse source = .ok t → Unescaped source.toList →
        t.render ("$" ++ ·) ("@" ++ ·) = source := by
  refine ⟨fun source t hparse => ?_, fun ss hss => hss.parse_spell, fun source t hparse hplain => ?_⟩
  · obtain ⟨ss, hpieces, rfl⟩ := parse_eq_ok_iff_pieces.mp hparse
    exact hpieces.canonical
  · obtain ⟨ss, hpieces, rfl⟩ := parse_eq_ok_iff_pieces.mp hparse
    rw [render, (joins_mergeTexts ss).join_fill, ← String.toList_inj]
    exact hpieces.fill_eq hplain

/-- Signs and a brace beside holes. -/
def besideHoles : List Segment :=
  [.text "$", .exit "f", .text "(@", .input "a", .input "b1", .text "\x7d)$"]

theorem canonical_besideHoles : Canonical besideHoles :=
  have hname : ∀ c, c.isAlpha → IsName [c] := fun _ hc => .mk (Or.inl hc) fun _ hmem => nomatch hmem
  .text (by decide) (fun _ heq => nomatch heq) <|
  .exit (hname 'f' (by decide)) (by decide) <|
  .text (by decide) (fun _ heq => nomatch heq) <|
  .input (hname 'a' (by decide)) <|
  .input (@IsName.mk 'b' ['1'] (by decide) (by simp [IsNameChar])) <|
  .text (by decide) (fun _ heq => nomatch heq) .nil

theorem besideHoles_round_trip :
    (Canonical besideHoles ∧ spell besideHoles = "$$@f(@@$\x7ba\x7d$\x7bb1\x7d\x7d)$$" ∧
      parse (spell besideHoles) = .ok ⟨spell besideHoles, besideHoles⟩) ∧
      ∃ t, parse "$a ? @b($a) : @c()" = .ok t ∧ Unescaped "$a ? @b($a) : @c()".toList ∧
        Canonical t.segments ∧ t.render ("$" ++ ·) ("@" ++ ·) = "$a ? @b($a) : @c()" := by
  obtain ⟨hcanonical, hread, hrender⟩ := canonical_round_trip
  have hparse : parse "$a ? @b($a) : @c()" = .ok ⟨"$a ? @b($a) : @c()",
      [.input "a", .text " ? ", .exit "b", .text "(", .input "a", .text ") : ", .exit "c",
        .text "()"]⟩ := by
    decide +kernel
  have hplain : Unescaped "$a ? @b($a) : @c()".toList := by
    constructor <;> simp [List.infix_cons_iff]
  exact ⟨⟨canonical_besideHoles, by decide, hread _ canonical_besideHoles⟩, _, hparse, hplain,
    hcanonical _ _ hparse, hrender _ _ hparse hplain⟩

end ProcFlow.Template
