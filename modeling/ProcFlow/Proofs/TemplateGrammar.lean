import Mathlib.Data.List.TakeWhile
import ProcFlow.Template.Basic
/-!
# The grammar of templates

A template is a row of pieces: runs without signs, doubled signs, inputs in their two spellings, and exits
that are called. Runs and names are as long as they can be, so at each place there is one piece at most that
fits. Main statements: a template is read if and only if it is such a row, there is only one, and what has
been read are the meanings of the pieces, with neighbouring texts joined.

Reading happens in two passes, and only the second one looks at calls. The lexeme after an exit opens a call
exactly if the next character does, because the scanner starts afresh there. So the call can be seen in the
text, and the two passes come together in one grammar.
-/

namespace ProcFlow.Template

/-! ### Pieces and what they mean -/

/-- What a name is made of. -/
def IsNameChar (c : Char) : Prop := c.isAlphanum ∨ c = '_'

instance : DecidablePred IsNameChar := fun c => inferInstanceAs (Decidable (c.isAlphanum ∨ c = '_'))

/-- A letter or an underscore, and then any of these and digits. -/
inductive IsName : List Char → Prop where
  | mk {first : Char} {rest : List Char} (hfirst : first.isAlpha ∨ first = '_')
      (hrest : ∀ c ∈ rest, IsNameChar c) : IsName (first :: rest)

/-- One of the two signs that text cannot hold as it is. -/
def IsSign (c : Char) : Prop := c = '$' ∨ c = '@'

instance : DecidablePred IsSign := fun c => inferInstanceAs (Decidable (c = '$' ∨ c = '@'))

/-- The characters of a piece, what follows it, and what it means. -/
inductive Piece : List Char → List Char → Segment → Prop where
  | run {run rest : List Char} (hne : run ≠ []) (hplain : ∀ c ∈ run, ¬ IsSign c)
      (hlongest : ∀ c ∈ rest.head?, IsSign c) : Piece run rest (.text (String.ofList run))
  | dollarSign {rest : List Char} : Piece ['$', '$'] rest (.text "$")
  | atSign {rest : List Char} : Piece ['@', '@'] rest (.text "@")
  | input {name rest : List Char} (hname : IsName name)
      (hlongest : ∀ c ∈ rest.head?, ¬ IsNameChar c) :
      Piece ('$' :: name) rest (.input (String.ofList name))
  | braced {name rest : List Char} (hname : IsName name) :
      Piece ('$' :: '\x7b' :: name ++ ['\x7d']) rest (.input (String.ofList name))
  | exit {name rest : List Char} (hname : IsName name) (hcalled : rest.head? = some '(') :
      Piece ('@' :: name) rest (.exit (String.ofList name))

/-- A text that is a row of pieces, with their meanings in order. -/
inductive Pieces : List Char → List Segment → Prop where
  | nil : Pieces [] []
  | cons {piece rest : List Char} {s : Segment} {ss : List Segment} (hpiece : Piece piece rest s)
      (hrest : Pieces rest ss) : Pieces (piece ++ rest) (s :: ss)

/-- Every row of texts, as long as it can be, becomes one text. -/
inductive Joins : List Segment → List Segment → Prop where
  | nil : Joins [] []
  | texts {xs : List String} {ss joined : List Segment} (hne : xs ≠ [])
      (hlongest : ∀ x, ss.head? ≠ some (.text x)) (hrest : Joins ss joined) :
      Joins (xs.map Segment.text ++ ss) (.text (String.join xs) :: joined)
  | input {name : String} {ss joined : List Segment} (hrest : Joins ss joined) :
      Joins (.input name :: ss) (.input name :: joined)
  | exit {name : String} {ss joined : List Segment} (hrest : Joins ss joined) :
      Joins (.exit name :: ss) (.exit name :: joined)


/-! ### Scanning one piece -/

namespace Lexeme

theorem isNamePart_iff {c : Char} : isNamePart c ↔ IsNameChar c := by
  simp [isNamePart, IsNameChar]

theorem isPlain_iff {c : Char} : isPlain c ↔ ¬ IsSign c := by
  simp [isPlain, IsSign]

theorem span_of_stop {p : Char → Bool} {run rest : List Char} (hrun : ∀ c ∈ run, p c)
    (hstop : ∀ c ∈ rest.head?, ¬ p c) :
    (run ++ rest).takeWhile p = run ∧ (run ++ rest).dropWhile p = rest := by
  rw [List.takeWhile_append_of_pos hrun, List.dropWhile_append_of_pos hrun]
  cases rest with
  | nil => exact ⟨List.append_nil run, rfl⟩
  | cons c rest =>
      have hc : ¬ p c := hstop c rfl
      rw [List.takeWhile_cons_of_neg hc, List.dropWhile_cons_of_neg hc]
      exact ⟨List.append_nil run, rfl⟩

theorem stop_of_dropWhile (p : Char → Bool) (cs : List Char) :
    ∀ c ∈ (cs.dropWhile p).head?, ¬ p c := by
  intro c hc
  have hhead := List.head?_dropWhile_not p cs
  rw [hc] at hhead
  simpa using hhead

/-- The longest name is found, and nothing else. -/
theorem name?_eq_some_iff {cs name rest : List Char} :
    name? cs = some (name, rest)
      ↔ IsName name ∧ cs = name ++ rest ∧ ∀ c ∈ rest.head?, ¬ IsNameChar c := by
  refine ⟨fun h => ?_, ?_⟩
  · have happend := name?_append h
    cases cs with
    | nil => cases h
    | cons c cs =>
        rw [name?] at h
        split at h
        next hstart =>
          cases h
          refine ⟨.mk (by simpa [isNameStart] using hstart) ?_, happend.symm, ?_⟩
          · exact fun c hc => isNamePart_iff.mp (List.mem_takeWhile_imp hc)
          · exact fun c hc => mt isNamePart_iff.mpr (stop_of_dropWhile isNamePart cs c hc)
        · cases h
  · rintro ⟨⟨hfirst, hrest⟩, rfl, hlongest⟩
    obtain ⟨htake, hdrop⟩ := span_of_stop (fun c hc => isNamePart_iff.mpr (hrest c hc))
      fun c hc => mt isNamePart_iff.mp (hlongest c hc)
    rw [List.cons_append, name?, if_pos (by simpa [isNameStart] using hfirst), htake, hdrop]

theorem name?_of_isName {name rest : List Char} (hname : IsName name)
    (hlongest : ∀ c ∈ rest.head?, ¬ IsNameChar c) : name? (name ++ rest) = some (name, rest) :=
  name?_eq_some_iff.mpr ⟨hname, rfl, hlongest⟩

/-- What is scanned from a dollar sign on, unless it is stray, is a piece. -/
theorem piece_afterDollar {cs : List Char} (h : (afterDollar cs).1.isStray = false) :
    ∃ s, segment? (afterDollar cs).1 = some s
      ∧ Piece (afterDollar cs).1.chars (afterDollar cs).2 s := by
  unfold afterDollar at h ⊢
  split at h
  · exact ⟨_, rfl, .dollarSign⟩
  · split at h
    next hname => exact ⟨_, rfl, .braced (name?_eq_some_iff.mp hname).1⟩
    · cases h
    · cases h
  · split at h
    next hname =>
      obtain ⟨hname, _, hlongest⟩ := name?_eq_some_iff.mp hname
      exact ⟨_, rfl, .input hname hlongest⟩
    · cases h

theorem piece_afterAt {cs : List Char} (h : (afterAt cs).1.isStray = false)
    (hcalled : ∀ name, (afterAt cs).1 = .exit name → (afterAt cs).2.head? = some '(') :
    ∃ s, segment? (afterAt cs).1 = some s ∧ Piece (afterAt cs).1.chars (afterAt cs).2 s := by
  revert h hcalled
  unfold afterAt
  split
  · exact fun _ _ => ⟨_, rfl, .atSign⟩
  · split
    next hname => exact fun _ hcalled => ⟨_, rfl, .exit (name?_eq_some_iff.mp hname).1 (hcalled _ rfl)⟩
    · exact fun h => nomatch h

theorem piece_next {c : Char} {cs : List Char} (h : (next c cs).1.isStray = false)
    (hcalled : ∀ name, (next c cs).1 = .exit name → (next c cs).2.head? = some '(') :
    ∃ s, segment? (next c cs).1 = some s ∧ Piece (next c cs).1.chars (next c cs).2 s := by
  by_cases hdollar : c = '$'
  · rw [next, if_pos hdollar] at h ⊢
    exact piece_afterDollar h
  by_cases hat : c = '@'
  · rw [next, if_neg hdollar, if_pos hat] at h hcalled ⊢
    exact piece_afterAt h hcalled
  · rw [next, if_neg hdollar, if_neg hat]
    have hplain : ¬ IsSign c := not_or.mpr ⟨hdollar, hat⟩
    refine ⟨_, rfl, .run (List.cons_ne_nil _ _) ?_ fun x hx => ?_⟩
    · exact List.forall_mem_cons.mpr ⟨hplain, fun x hx => isPlain_iff.mp (List.mem_takeWhile_imp hx)⟩
    · exact not_not.mp (mt isPlain_iff.mpr (stop_of_dropWhile isPlain cs x hx))

theorem afterDollar_name {name rest : List Char} (hname : IsName name)
    (hlongest : ∀ c ∈ rest.head?, ¬ IsNameChar c) :
    afterDollar (name ++ rest) = (input name false, rest) := by
  have hfound := name?_of_isName hname hlongest
  obtain ⟨hfirst, _⟩ := hname
  unfold afterDollar
  split
  next heq =>
    rw [(List.cons.inj heq).1] at hfirst
    exact absurd hfirst (by decide)
  next heq =>
    rw [(List.cons.inj heq).1] at hfirst
    exact absurd hfirst (by decide)
  · rw [hfound]

theorem afterDollar_braced {name rest : List Char} (hname : IsName name) :
    afterDollar ('\x7b' :: name ++ '\x7d' :: rest) = (input name true, rest) := by
  have hbrace : ∀ c ∈ ('\x7d' :: rest).head?, ¬ IsNameChar c := by
    rintro _ ⟨⟩
    simp [IsNameChar]
  rw [List.cons_append, afterDollar]
  simp only [name?_of_isName hname hbrace]

theorem afterAt_name {name rest : List Char} (hname : IsName name)
    (hlongest : ∀ c ∈ rest.head?, ¬ IsNameChar c) :
    afterAt (name ++ rest) = (exit name, rest) := by
  have hfound := name?_of_isName hname hlongest
  obtain ⟨hfirst, _⟩ := hname
  unfold afterAt
  split
  next heq =>
    rw [(List.cons.inj heq).1] at hfirst
    exact absurd hfirst (by decide)
  · rw [hfound]

/-- A piece is scanned first, whatever follows it. -/
theorem scan_piece {piece rest : List Char} {s : Segment} (h : Piece piece rest s) :
    ∃ l, scan (piece ++ rest) = l :: scan rest ∧ l.isStray = false ∧ segment? l = some s
      ∧ ∀ name, l = .exit name → rest.head? = some '(' := by
  cases h with
  | @run run _ hne hplain hlongest =>
      obtain ⟨c, cs, rfl⟩ := List.exists_cons_of_ne_nil hne
      obtain ⟨hc, hcs⟩ := List.forall_mem_cons.mp hplain
      obtain ⟨hdollar, hat⟩ := not_or.mp hc
      obtain ⟨htake, hdrop⟩ := span_of_stop (fun x hx => isPlain_iff.mpr (hcs x hx))
        fun x hx hp => isPlain_iff.mp hp (hlongest x hx)
      refine ⟨.text (c :: cs), ?_, rfl, rfl, fun _ heq => nomatch heq⟩
      rw [List.cons_append, scan, next, if_neg hdollar, if_neg hat, htake, hdrop]
  | dollarSign =>
      refine ⟨.dollarSign, ?_, rfl, rfl, fun _ heq => nomatch heq⟩
      rw [List.cons_append, scan]
      rfl
  | atSign =>
      refine ⟨.atSign, ?_, rfl, rfl, fun _ heq => nomatch heq⟩
      rw [List.cons_append, scan]
      rfl
  | @input name _ hname hlongest =>
      refine ⟨.input name false, ?_, rfl, rfl, fun _ heq => nomatch heq⟩
      rw [List.cons_append, scan, next, if_pos rfl, afterDollar_name hname hlongest]
  | @braced name _ hname =>
      refine ⟨.input name true, ?_, rfl, rfl, fun _ heq => nomatch heq⟩
      rw [List.cons_append, List.cons_append, List.append_assoc, List.singleton_append, scan,
         next, if_pos rfl, afterDollar_braced hname]
  | @exit name _ hname hcalled =>
      refine ⟨.exit name, ?_, rfl, rfl, fun _ _ => hcalled⟩
      have hlongest : ∀ c ∈ rest.head?, ¬ IsNameChar c := by
        rw [hcalled]
        rintro _ ⟨⟩
        simp [IsNameChar]
      rw [List.cons_append, scan, next, if_neg (by decide), if_pos rfl, afterAt_name hname hlongest]

/-- The lexeme that is scanned first opens a call if the first character does. -/
theorem opensCall_scan_iff {cs : List Char} :
    (∃ l ∈ (scan cs).head?, l.opensCall) ↔ cs.head? = some '(' := by
  cases cs with
  | nil => simp [scan]
  | cons c cs =>
      rw [scan]
      simp only [List.head?_cons, Option.mem_some_iff, exists_eq_left', Option.some.injEq]
      refine ⟨fun hopens => ?_, ?_⟩
      · have happend := next_append c cs
        generalize next c cs = found at hopens happend
        obtain ⟨l, rest⟩ := found
        unfold opensCall at hopens
        split at hopens
        next heq =>
          subst heq
          exact (List.cons.inj happend).1.symm
        · cases hopens
      · rintro rfl
        rfl

/-- Each exit is followed by a lexeme that opens a call. -/
def Called : List Lexeme → Prop
  | [] => True
  | l :: rest => (∀ name, l = .exit name → ∃ l' ∈ rest.head?, l'.opensCall) ∧ Called rest

end Lexeme

open Lexeme


/-! ### Reading -/

theorem map_lexeme_place (start : Nat) (ls : List Lexeme) :
    (place start ls).map Placed.lexeme = ls := by
  induction ls generalizing start with
  | nil => rfl
  | cons l rest ih => rw [place, List.map_cons, ih]

theorem exitError?_eq_none_iff (length : Nat) (ps : List Placed) :
    exitError? length ps = none ↔ Called (ps.map Placed.lexeme) := by
  fun_induction exitError? length ps with
  | case1 => simp [Called]
  | case2 p _ hexit => simp [Called, hexit]
  | case3 p _ q rest hexit hopens ih => simpa [Called, hexit, hopens] using ih
  | case4 p _ q rest hexit hopens => simp [Called, hexit, hopens]
  | case5 p rest hlast hnext ih =>
      -- What is not an exit asks nothing of its neighbour.
      have hexit : ∀ name, p.lexeme ≠ .exit name := by
        intro name heq
        cases rest with
        | nil => exact hlast name heq rfl
        | cons q rest => exact hnext name q rest heq rfl
      simpa [Called, hexit] using ih

theorem strayErrors_eq_nil_iff {ps : List Placed} :
    strayErrors ps = [] ↔ ∀ p ∈ ps, p.lexeme.isStray = false := by
  rw [strayErrors, List.filterMap_eq_nil_iff]
  refine forall₂_congr fun p _ => ?_
  split
  next heq => simp [heq, isStray]
  next hstray =>
    refine iff_of_true rfl ?_
    unfold isStray
    split
    next heq => exact absurd heq (hstray _)
    · rfl

/-- Lexemes without anything wrong. -/
def Clean (ls : List Lexeme) : Prop := (∀ l ∈ ls, l.isStray = false) ∧ Called ls

theorem errors_eq_nil_iff (length : Nat) (ls : List Lexeme) :
    strayErrors (place 0 ls)
        ++ (exitError? length ((place 0 ls).filter fun p => !p.lexeme.isStray)).toList = []
      ↔ Clean ls := by
  have hstray := @List.forall_mem_map _ _ Placed.lexeme (place 0 ls) fun l => l.isStray = false
  rw [map_lexeme_place] at hstray
  rw [List.append_eq_nil_iff, strayErrors_eq_nil_iff, Clean, hstray]
  refine and_congr_right fun hgood => ?_
  have hfilter : ((place 0 ls).filter fun p => !p.lexeme.isStray) = place 0 ls :=
    List.filter_eq_self.mpr fun p hp => by rw [hgood p hp, Bool.not_false]
  rw [hfilter, Option.toList_eq_nil_iff, exitError?_eq_none_iff, map_lexeme_place]

theorem parse_eq_ok_iff {source : String} {t : Template} :
    parse source = .ok t
      ↔ Clean (scan source.toList) ∧
        t = ⟨source, mergeTexts ((scan source.toList).filterMap segment?)⟩ := by
  rw [← errors_eq_nil_iff (Text.byteLength source.toList), ← List.isEmpty_iff, parse]
  split
  next hempty => simp [hempty, eq_comm]
  next hempty => simp [hempty]

/-- A row of pieces is what is scanned without anything wrong. -/
theorem pieces_iff {cs : List Char} {ss : List Segment} :
    Pieces cs ss ↔ Clean (scan cs) ∧ ss = (scan cs).filterMap segment? := by
  refine ⟨fun h => ?_, ?_⟩
  · induction h with
    | nil => exact ⟨⟨fun _ hl => absurd hl (by simp [scan]), by simp [scan, Called]⟩, by simp [scan]⟩
    | cons hpiece _ ih =>
        obtain ⟨l, hscan, hstray, hmeans, hexit⟩ := scan_piece hpiece
        obtain ⟨⟨hgood, hcalled⟩, rfl⟩ := ih
        rw [hscan, List.filterMap_cons_some hmeans]
        refine ⟨⟨List.forall_mem_cons.mpr ⟨hstray, hgood⟩, fun name heq => ?_, hcalled⟩, rfl⟩
        exact opensCall_scan_iff.mpr (hexit name heq)
  · rintro ⟨hclean, rfl⟩
    fun_induction scan cs with
    | case1 => exact .nil
    | case2 c rest ih =>
        obtain ⟨hgood, hcalled, hrest⟩ := hclean
        obtain ⟨hstray, hgood⟩ := List.forall_mem_cons.mp hgood
        obtain ⟨s, hmeans, hpiece⟩ := piece_next hstray fun name heq =>
          opensCall_scan_iff.mp (hcalled name heq)
        rw [List.filterMap_cons_some hmeans]
        have hpieces := Pieces.cons hpiece (ih ⟨hgood, hrest⟩)
        rwa [next_append] at hpieces

theorem Pieces.unique {cs : List Char} {ss ss' : List Segment} (h : Pieces cs ss)
    (h' : Pieces cs ss') : ss = ss' := by
  rw [(pieces_iff.mp h).2, (pieces_iff.mp h').2]

theorem parse_eq_ok_iff_pieces {source : String} {t : Template} :
    parse source = .ok t
      ↔ ∃ ss, Pieces source.toList ss ∧ t = ⟨source, mergeTexts ss⟩ := by
  rw [parse_eq_ok_iff]
  refine ⟨?_, ?_⟩
  · rintro ⟨hclean, rfl⟩
    exact ⟨_, pieces_iff.mpr ⟨hclean, rfl⟩, rfl⟩
  · rintro ⟨ss, hpieces, rfl⟩
    obtain ⟨hclean, rfl⟩ := pieces_iff.mp hpieces
    exact ⟨hclean, rfl⟩


/-! ### Joining texts -/

theorem mergeTexts_cons (s : Segment) (ss : List Segment) :
    mergeTexts (s :: ss) = consMerged s (mergeTexts ss) := rfl

theorem consMerged_text {x : String} {ss : List Segment} (h : ∀ y, ss.head? ≠ some (.text y)) :
    consMerged (.text x) ss = .text x :: ss := by
  unfold consMerged
  split
  next y _ _ => exact absurd rfl (h y)
  · rfl

/-- What is joined starts with a text only if it did before. -/
theorem Joins.head?_ne {ss joined : List Segment} (h : Joins ss joined)
    (hss : ∀ x, ss.head? ≠ some (.text x)) (x : String) : joined.head? ≠ some (.text x) := by
  cases h with
  | nil => exact hss x
  | @texts xs _ _ hne =>
      obtain ⟨y, ys, rfl⟩ := List.exists_cons_of_ne_nil hne
      exact absurd rfl (hss y)
  | input _ => exact fun heq => nomatch heq
  | exit _ => exact fun heq => nomatch heq

theorem Joins.cons_text {ss joined : List Segment} (h : Joins ss joined) (x : String) :
    Joins (.text x :: ss) (consMerged (.text x) joined) := by
  have hsingle : ∀ {ss joined : List Segment}, Joins ss joined → (∀ y, ss.head? ≠ some (.text y)) →
      Joins (.text x :: ss) (.text x :: joined) := by
    intro ss joined h hss
    have htexts := Joins.texts (List.cons_ne_nil x []) hss h
    rwa [String.join_cons, String.join_nil, String.append_empty] at htexts
  cases h with
  | nil => exact hsingle .nil fun _ heq => nomatch heq
  | @texts xs _ _ hne hlongest hrest =>
      have htexts := Joins.texts (List.cons_ne_nil x xs) hlongest hrest
      rwa [String.join_cons] at htexts
  | input hrest => exact hsingle (.input hrest) fun _ heq => nomatch heq
  | exit hrest => exact hsingle (.exit hrest) fun _ heq => nomatch heq

theorem joins_mergeTexts (ss : List Segment) : Joins ss (mergeTexts ss) := by
  induction ss with
  | nil => exact .nil
  | cons s ss ih =>
      cases s with
      | text x => exact ih.cons_text x
      | input name => exact .input ih
      | exit name => exact .exit ih

theorem mergeTexts_texts {xs : List String} {ss : List Segment} (hne : xs ≠ [])
    (hlongest : ∀ x, (mergeTexts ss).head? ≠ some (.text x)) :
    mergeTexts (xs.map Segment.text ++ ss) = .text (String.join xs) :: mergeTexts ss := by
  induction xs with
  | nil => exact absurd rfl hne
  | cons x xs ih =>
      rw [List.map_cons, List.cons_append, mergeTexts_cons, String.join_cons]
      cases xs with
      | nil => rw [List.map_nil, List.nil_append, consMerged_text hlongest, String.join_nil,
          String.append_empty]
      | cons y ys => rw [ih (List.cons_ne_nil y ys), consMerged]

theorem Joins.eq_mergeTexts {ss joined : List Segment} (h : Joins ss joined) :
    joined = mergeTexts ss := by
  induction h with
  | nil => rfl
  | texts hne hlongest hrest ih =>
      subst ih
      exact (mergeTexts_texts hne (hrest.head?_ne hlongest)).symm
  | input _ ih => rw [ih]; rfl
  | exit _ ih => rw [ih]; rfl

theorem Joins.join_fill {ss joined : List Segment} (h : Joins ss joined)
    (input exit : String → String) :
    String.join (joined.map (fill input exit)) = String.join (ss.map (fill input exit)) := by
  induction h with
  | nil => rfl
  | @texts xs _ _ _ _ _ ih =>
      have hfill : (xs.map Segment.text).map (fill input exit) = xs := by
        rw [List.map_map]
        exact List.map_id xs
      rw [List.map_cons, String.join_cons, ih, List.map_append, hfill, String.join_append]
      rfl
  | input _ ih => rw [List.map_cons, String.join_cons, ih, List.map_cons, String.join_cons]
  | exit _ ih => rw [List.map_cons, String.join_cons, ih, List.map_cons, String.join_cons]

/-- A template is read if and only if it is a row of pieces. There is one such row then; the template keeps
its source and holds the meanings of the pieces, joined, and renders as they do one after the other. -/
theorem parse_iff_row_of_pieces (source : String) :
    ((∃ t, parse source = .ok t) ↔ ∃ ss, Pieces source.toList ss) ∧
      ∀ ss, Pieces source.toList ss →
        (∀ ss', Pieces source.toList ss' → ss' = ss) ∧
        ∃ t, parse source = .ok t ∧ t.source = source ∧ Joins ss t.segments ∧
          ∀ input exit, t.render input exit = String.join (ss.map (fill input exit)) := by
  have hread : ∀ ss, Pieces source.toList ss → parse source = .ok ⟨source, mergeTexts ss⟩ :=
    fun ss hpieces => parse_eq_ok_iff_pieces.mpr ⟨ss, hpieces, rfl⟩
  refine ⟨⟨?_, fun ⟨ss, hpieces⟩ => ⟨_, hread ss hpieces⟩⟩, fun ss hpieces => ?_⟩
  · rintro ⟨t, hparse⟩
    obtain ⟨ss, hpieces, _⟩ := parse_eq_ok_iff_pieces.mp hparse
    exact ⟨ss, hpieces⟩
  · have hjoins := joins_mergeTexts ss
    exact ⟨fun ss' hpieces' => hpieces'.unique hpieces, _, hread ss hpieces, rfl, hjoins,
      hjoins.join_fill⟩

/-- Signs beside signs, both spellings of an input, and an exit whose call runs on into a sign. -/
def signs : String := "$$$a + $\x7bb\x7d@@@r(1)$$"

theorem pieces_signs :
    Pieces signs.toList
      [.text "$", .input "a", .text " + ", .input "b", .text "@", .exit "r", .text "(1)", .text "$"] := by
  have hname : ∀ c, c.isAlpha → IsName [c] := fun _ hc => .mk (Or.inl hc) fun _ hmem => nomatch hmem
  have hchars : signs.toList = ['$', '$'] ++ (['$', 'a'] ++ ([' ', '+', ' '] ++
      (['$', '\x7b', 'b', '\x7d'] ++ (['@', '@'] ++ (['@', 'r'] ++ (['(', '1', ')'] ++
        (['$', '$'] ++ []))))))) := by
    decide
  rw [hchars]
  refine .cons .dollarSign (.cons (.input (hname 'a' (by decide)) ?_) ?_)
  · simp [IsNameChar]
  refine .cons (.run (List.cons_ne_nil _ _) ?_ ?_) ?_
  · simp [IsSign]
  · simp [IsSign]
  refine .cons (.braced (hname 'b' (by decide))) (.cons .atSign ?_)
  refine .cons (.exit (hname 'r' (by decide)) rfl) (.cons (.run (List.cons_ne_nil _ _) ?_ ?_) ?_)
  · simp [IsSign]
  · simp [IsSign]
  exact .cons .dollarSign .nil

theorem parse_signs_row_of_pieces :
    (∃ ss, Pieces signs.toList ss) ∧
      ∃ t, parse signs = .ok t ∧
        t.segments = [.text "$", .input "a", .text " + ", .input "b", .text "@", .exit "r",
          .text "(1)$"] := by
  obtain ⟨_, t, hparse, _, hjoins, _⟩ := (parse_iff_row_of_pieces signs).2 _ pieces_signs
  refine ⟨⟨_, pieces_signs⟩, t, hparse, ?_⟩
  rw [hjoins.eq_mergeTexts]
  decide

end ProcFlow.Template
