import Mathlib.Data.String.Basic
import ProcFlow.Proofs.TemplateGrammar
/-!
# Where template errors stand

The lexemes of a template, stray ones among them, tile it: each has at least one character, the next starts
where it ends, and together they reach from the first byte to the last. As a lexeme is a row of characters,
each end is a boundary between two of them, and what stands between its ends is the lexeme.

Errors get their places from the lexemes. A stray lexeme is an error where it stands. Exits are looked at
when the stray lexemes are gone, so what follows an exit then need not be what stands beside it; the first
exit that is not called is reported at what follows it, or else at the end of the source.
-/

namespace ProcFlow.Template

open Text (byteLength)

/-! ### Pieces in their places -/

/-- The pieces lie end to end from one byte to another, and none of them is empty. -/
inductive Tiles : Nat → List Placed → Nat → Prop where
  | nil {stop : Nat} : Tiles stop [] stop
  | cons {p : Placed} {rest : List Placed} {stop : Nat} (hpos : p.start < p.stop)
      (hrest : Tiles p.stop rest stop) : Tiles p.start (p :: rest) stop

theorem Tiles.start_le {start stop : Nat} {ps : List Placed} (h : Tiles start ps stop) :
    ∀ p ∈ ps, start ≤ p.start := by
  induction h with
  | nil => exact fun p hp => absurd hp List.not_mem_nil
  | @cons p rest stop hpos _ ih =>
      intro q hq
      rcases List.mem_cons.mp hq with rfl | hq
      · exact le_rfl
      · exact le_trans hpos.le (ih q hq)

theorem Tiles.pairwise {start stop : Nat} {ps : List Placed} (h : Tiles start ps stop) :
    ps.Pairwise fun p q => p.stop ≤ q.start := by
  induction h with
  | nil => exact List.Pairwise.nil
  | cons _ hrest ih => exact List.pairwise_cons.mpr ⟨hrest.start_le, ih⟩

theorem byteLength_pos {cs : List Char} (h : cs ≠ []) : 0 < byteLength cs := by
  obtain ⟨c, rest, rfl⟩ := List.exists_cons_of_ne_nil h
  have hc := c.utf8Size_pos
  rw [byteLength]
  omega

theorem byteLength_eq_utf8Len (cs : List Char) : byteLength cs = String.utf8Len cs := by
  induction cs with
  | nil => rfl
  | cons c rest ih => rw [byteLength, String.utf8Len_cons, ih, Nat.add_comm]

theorem Lexeme.chars_ne_nil_of_mem_scan {cs : List Char} : ∀ l ∈ scan cs, l.chars ≠ [] := by
  fun_induction scan cs with
  | case1 => exact fun l hl => absurd hl List.not_mem_nil
  | case2 c rest ih => exact List.forall_mem_cons.mpr ⟨chars_next_ne_nil c rest, ih⟩

/-- Lexemes in a row tile as many bytes as they have characters for. -/
theorem tiles_place {ls : List Lexeme} (hne : ∀ l ∈ ls, l.chars ≠ []) (start : Nat) :
    Tiles start (place start ls) (start + byteLength (ls.flatMap Lexeme.chars)) := by
  induction ls generalizing start with
  | nil => exact .nil
  | cons l rest ih =>
      obtain ⟨hl, hrest⟩ := List.forall_mem_cons.mp hne
      have hpos := byteLength_pos hl
      have htail := ih hrest (start + byteLength l.chars)
      rw [Nat.add_assoc, ← Text.byteLength_append, ← List.flatMap_cons] at htail
      exact .cons (p := ⟨start, l⟩) (Nat.lt_add_of_pos_right hpos) htail

theorem exists_split_of_mem_place {ls : List Lexeme} {start : Nat} {p : Placed}
    (hp : p ∈ place start ls) : ∃ before after, ls = before ++ p.lexeme :: after ∧
      p.start = start + byteLength (before.flatMap Lexeme.chars) := by
  induction ls generalizing start with
  | nil => exact absurd hp List.not_mem_nil
  | cons l rest ih =>
      rcases List.mem_cons.mp hp with rfl | hp
      · exact ⟨[], rest, rfl, rfl⟩
      · obtain ⟨before, after, rfl, hstart⟩ := ih hp
        refine ⟨l :: before, after, rfl, ?_⟩
        rw [hstart, List.flatMap_cons, Text.byteLength_append, Nat.add_assoc]


/-! ### The pieces of a source -/

/-- The pieces of a source, the stray ones included. -/
def pieces (source : String) : List Placed := place 0 (Lexeme.scan source.toList)

/-- The pieces that are no errors by themselves. -/
def goodPieces (source : String) : List Placed :=
  (pieces source).filter fun p => !p.lexeme.isStray

/-- A piece is what stands in the source between two boundaries of characters. -/
structure StandsIn (source : String) (p : Placed) : Prop where
  start_isValid : String.Pos.Raw.IsValid source ⟨p.start⟩
  stop_isValid : String.Pos.Raw.IsValid source ⟨p.stop⟩
  extract_eq : String.Pos.Raw.extract source ⟨p.start⟩ ⟨p.stop⟩ = String.ofList p.lexeme.chars

theorem tiles_pieces (source : String) : Tiles 0 (pieces source) source.utf8ByteSize := by
  have htiles := tiles_place (@Lexeme.chars_ne_nil_of_mem_scan source.toList) 0
  have hsize := String.utf8ByteSize_ofList source.toList
  rw [String.ofList_toList] at hsize
  rw [Lexeme.flatMap_chars_scan, Nat.zero_add, byteLength_eq_utf8Len, ← hsize] at htiles
  exact htiles

theorem isValid_of_toList_eq {source : String} {before after : List Char}
    (h : source.toList = before ++ after) : String.Pos.Raw.IsValid source ⟨byteLength before⟩ := by
  rw [String.Pos.Raw.isValid_iff_exists_append]
  refine ⟨String.ofList before, String.ofList after, ?_, ?_⟩
  · rw [← String.ofList_append, ← h, String.ofList_toList]
  · rw [String.rawEndPos_ofList, byteLength_eq_utf8Len]

theorem standsIn_of_mem_pieces {source : String} {p : Placed} (hp : p ∈ pieces source) :
    StandsIn source p := by
  obtain ⟨before, after, hscan, hstart⟩ := exists_split_of_mem_place hp
  generalize hfront : before.flatMap Lexeme.chars = front at hstart
  generalize hback : after.flatMap Lexeme.chars = back
  have hsource : source.toList = front ++ p.lexeme.chars ++ back := by
    rw [← Lexeme.flatMap_chars_scan source.toList, hscan, List.flatMap_append, List.flatMap_cons,
      hfront, hback, List.append_assoc]
  rw [Nat.zero_add] at hstart
  have hstop : p.stop = byteLength front + byteLength p.lexeme.chars := by rw [Placed.stop, hstart]
  refine ⟨?_, ?_, ?_⟩
  · rw [hstart]
    exact isValid_of_toList_eq (hsource.trans (List.append_assoc _ _ _))
  · rw [hstop, ← Text.byteLength_append]
    exact isValid_of_toList_eq hsource
  · have hextract := String.extract_of_valid front p.lexeme.chars back
    rw [← hsource, String.ofList_toList] at hextract
    rw [hstop, hstart, byteLength_eq_utf8Len, byteLength_eq_utf8Len]
    exact hextract


/-! ### Stray pieces -/

/-- The stray pieces of a source as errors. -/
def strays (source : String) : List Error :=
  ((pieces source).filter fun p => p.lexeme.isStray).map fun p =>
    ⟨p.start, p.stop, .stray p.lexeme.chars⟩

theorem strayErrors_eq (ps : List Placed) :
    strayErrors ps = (ps.filter fun p => p.lexeme.isStray).map fun p =>
      ⟨p.start, p.stop, .stray p.lexeme.chars⟩ := by
  induction ps with
  | nil => rfl
  | cons p rest ih =>
      obtain ⟨start, l⟩ := p
      cases l with
      | stray slice => exact congrArg (List.cons _) ih
      | _ => exact ih

theorem pairwise_strays (source : String) :
    (strays source).Pairwise fun e e' => e.stop ≤ e'.start := by
  rw [strays, List.pairwise_map]
  exact (tiles_pieces source).pairwise.filter _

/-- A sign that starts nothing, or a name that is opened by a dollar sign and a brace and not closed. -/
inductive IsUnmatched : List Char → Prop where
  | sign {c : Char} (hsign : IsSign c) : IsUnmatched [c]
  | opened {name : List Char} (hname : IsName name) : IsUnmatched ('$' :: '\x7b' :: name)

theorem Lexeme.isUnmatched_next {c : Char} {cs : List Char} :
    (next c cs).1.isStray → IsUnmatched (next c cs).1.chars := by
  unfold next afterDollar afterAt
  split
  · split
    · exact fun h => nomatch h
    · split
      · exact fun h => nomatch h
      · next hname => exact fun _ => .opened (name?_eq_some_iff.mp hname).1
      · exact fun _ => .sign (Or.inl rfl)
    · split
      · exact fun h => nomatch h
      · exact fun _ => .sign (Or.inl rfl)
  · split
    · split
      · exact fun h => nomatch h
      · split
        · exact fun h => nomatch h
        · exact fun _ => .sign (Or.inr rfl)
    · exact fun h => nomatch h

theorem Lexeme.isUnmatched_of_mem_scan {cs : List Char} :
    ∀ l ∈ scan cs, l.isStray → IsUnmatched l.chars := by
  fun_induction scan cs with
  | case1 => exact fun l hl => absurd hl List.not_mem_nil
  | case2 c rest ih => exact List.forall_mem_cons.mpr ⟨isUnmatched_next, ih⟩

theorem isUnmatched_of_mem_pieces {source : String} {p : Placed} (hp : p ∈ pieces source)
    (hstray : p.lexeme.isStray) : IsUnmatched p.lexeme.chars := by
  have hmem : p.lexeme ∈ (pieces source).map Placed.lexeme := List.mem_map_of_mem hp
  rw [pieces, map_lexeme_place] at hmem
  exact Lexeme.isUnmatched_of_mem_scan _ hmem hstray


/-! ### Exits that are not called -/

/-- In a row of pieces an exit is followed by a piece, or by none, that does not open a call. -/
def Uncalled (ps : List Placed) (following : Option Placed) : Prop :=
  ∃ before exit name after, ps = before ++ exit :: after ∧ exit.lexeme = .exit name ∧
    after.head? = following ∧ ∀ p ∈ following, ∀ run, p.lexeme ≠ .text ('(' :: run)

/-- The error of an exit, at what follows it or else at the end. -/
def uncalledError (length : Nat) : Option Placed → Error
  | none => ⟨length, length, .exitNotCalled none⟩
  | some p => ⟨p.start, p.stop, .exitNotCalled (some p.lexeme)⟩

theorem Lexeme.opensCall_iff {l : Lexeme} : l.opensCall ↔ ∃ run, l = .text ('(' :: run) := by
  unfold opensCall
  split
  next run => exact iff_of_true rfl ⟨run, rfl⟩
  next hother => exact iff_of_false Bool.false_ne_true fun ⟨run, heq⟩ => hother run heq

theorem not_uncalled_nil (following : Option Placed) : ¬ Uncalled [] following := by
  rintro ⟨before, exit, name, after, heq, _⟩
  exact List.append_ne_nil_of_right_ne_nil before (List.cons_ne_nil exit after) heq.symm

theorem uncalled_cons_iff {p : Placed} {rest : List Placed} {following : Option Placed} :
    Uncalled (p :: rest) following ↔
      ((∃ name, p.lexeme = .exit name) ∧ rest.head? = following ∧
        ∀ q ∈ following, ¬ q.lexeme.opensCall) ∨ Uncalled rest following := by
  have hopens : (∀ q ∈ following, ¬ q.lexeme.opensCall)
      ↔ ∀ q ∈ following, ∀ run, q.lexeme ≠ .text ('(' :: run) := by
    refine forall₂_congr fun q _ => ?_
    rw [Lexeme.opensCall_iff, not_exists]
  rw [hopens]
  refine ⟨?_, ?_⟩
  · rintro ⟨before, exit, name, after, heq, hexit, hnext, hnone⟩
    cases before with
    | nil =>
        obtain ⟨rfl, rfl⟩ := List.cons.inj heq
        exact Or.inl ⟨⟨name, hexit⟩, hnext, hnone⟩
    | cons q before =>
        obtain ⟨rfl, rfl⟩ := List.cons.inj heq
        exact Or.inr ⟨before, exit, name, after, rfl, hexit, hnext, hnone⟩
  · rintro (⟨⟨name, hexit⟩, hnext, hnone⟩ | ⟨before, exit, name, after, rfl, hrest⟩)
    · exact ⟨[], p, name, rest, rfl, hexit, hnext, hnone⟩
    · exact ⟨p :: before, exit, name, after, rfl, hrest⟩

/-- The error, if there is one, is that of an exit that is not called. -/
theorem exists_uncalled_of_exitError? {length : Nat} {ps : List Placed} {e : Error}
    (h : exitError? length ps = some e) :
    ∃ following, Uncalled ps following ∧ e = uncalledError length following := by
  fun_induction exitError? length ps with
  | case1 => cases h
  | case2 p name hexit =>
      refine ⟨none, uncalled_cons_iff.mpr (Or.inl ⟨⟨name, hexit⟩, rfl, ?_⟩), ?_⟩
      · exact fun q hq => absurd hq (Option.not_mem_none q)
      · exact (Option.some.inj h).symm
  | case3 p name q rest hexit hopens ih =>
      obtain ⟨following, huncalled, he⟩ := ih h
      exact ⟨following, uncalled_cons_iff.mpr (Or.inr huncalled), he⟩
  | case4 p name q rest hexit hopens =>
      refine ⟨some q, uncalled_cons_iff.mpr (Or.inl ⟨⟨name, hexit⟩, rfl, ?_⟩), ?_⟩
      · rintro _ ⟨⟩
        exact hopens
      · exact (Option.some.inj h).symm
  | case5 p rest _ _ ih =>
      obtain ⟨following, huncalled, he⟩ := ih h
      exact ⟨following, uncalled_cons_iff.mpr (Or.inr huncalled), he⟩

theorem called_map_lexeme_iff {ps : List Placed} :
    Lexeme.Called (ps.map Placed.lexeme) ↔ ∀ following, ¬ Uncalled ps following := by
  induction ps with
  | nil => exact iff_of_true trivial not_uncalled_nil
  | cons p rest ih =>
      rw [List.map_cons, Lexeme.Called, ih, List.head?_map]
      refine ⟨?_, ?_⟩
      · rintro ⟨hcalled, hrest⟩ following huncalled
        rcases uncalled_cons_iff.mp huncalled with ⟨⟨name, hexit⟩, rfl, hnone⟩ | huncalled
        · obtain ⟨l, hl, hopens⟩ := hcalled name hexit
          obtain ⟨q, hq, rfl⟩ := Option.map_eq_some_iff.mp hl
          exact hnone q hq hopens
        · exact hrest following huncalled
      · intro hnone
        refine ⟨fun name hexit => ?_, fun following huncalled => ?_⟩
        · by_contra hcalled
          refine hnone rest.head? (uncalled_cons_iff.mpr (Or.inl ⟨⟨name, hexit⟩, rfl, ?_⟩))
          intro q hq hopens
          exact hcalled ⟨q.lexeme, Option.map_eq_some_iff.mpr ⟨q, hq, rfl⟩, hopens⟩
        · exact hnone following (uncalled_cons_iff.mpr (Or.inr huncalled))


/-! ### The errors of a source -/

theorem parse_eq_error_iff {source : String} {errors : List Error} :
    parse source = .error errors ↔ errors ≠ [] ∧
      errors = strays source ++ (exitError? source.utf8ByteSize (goodPieces source)).toList := by
  have hsize := String.utf8ByteSize_ofList source.toList
  rw [String.ofList_toList, ← byteLength_eq_utf8Len] at hsize
  rw [hsize, strays, ← strayErrors_eq]
  unfold parse goodPieces pieces
  dsimp only
  split
  next hempty =>
    rw [List.isEmpty_iff.mp hempty]
    exact iff_of_false (fun h => nomatch h) fun h => h.1 h.2
  next hempty =>
    refine ⟨?_, ?_⟩
    · rintro ⟨⟩
      exact ⟨fun hnil => hempty (List.isEmpty_iff.mpr hnil), rfl⟩
    · rintro ⟨_, rfl⟩
      rfl

theorem strays_eq_nil_iff {source : String} :
    strays source = [] ↔ ∀ p ∈ pieces source, ¬ p.lexeme.isStray := by
  rw [strays, List.map_eq_nil_iff, List.filter_eq_nil_iff]

theorem exists_parse_eq_error_iff (source : String) :
    (∃ errors, parse source = .error errors) ↔
      (∃ p ∈ pieces source, p.lexeme.isStray) ∨
        ∃ following, Uncalled (goodPieces source) following := by
  simp only [parse_eq_error_iff, exists_eq_right]
  rw [ne_eq, List.append_eq_nil_iff, Option.toList_eq_nil_iff, strays_eq_nil_iff,
    exitError?_eq_none_iff, called_map_lexeme_iff, not_and_or]
  push Not
  rfl

/-- The pieces of a template tile it between boundaries of characters, and the errors of a template that is
refused are its stray pieces in order, and after them at most one exit that is not called. It is refused
exactly if there is one of these. -/
theorem parse_errors_tile (source : String) :
    (Tiles 0 (pieces source) source.utf8ByteSize ∧
      ∀ p ∈ pieces source, StandsIn source p ∧ (p.lexeme.isStray → IsUnmatched p.lexeme.chars)) ∧
    ((strays source).Pairwise fun e e' => e.stop ≤ e'.start) ∧
    (∀ errors, parse source = .error errors → errors ≠ [] ∧
      ((errors = strays source ∧ ∀ following, ¬ Uncalled (goodPieces source) following) ∨
        ∃ following, Uncalled (goodPieces source) following ∧
          errors = strays source ++ [uncalledError source.utf8ByteSize following])) ∧
    ((∃ errors, parse source = .error errors) ↔
      (∃ p ∈ pieces source, p.lexeme.isStray) ∨
        ∃ following, Uncalled (goodPieces source) following) := by
  refine ⟨⟨tiles_pieces source, fun p hp => ?_⟩, pairwise_strays source, ?_,
    exists_parse_eq_error_iff source⟩
  · exact ⟨standsIn_of_mem_pieces hp, isUnmatched_of_mem_pieces hp⟩
  · intro errors herrors
    obtain ⟨hne, rfl⟩ := parse_eq_error_iff.mp herrors
    refine ⟨hne, ?_⟩
    rcases hcall : exitError? source.utf8ByteSize (goodPieces source) with _ | e
    · left
      rw [exitError?_eq_none_iff, called_map_lexeme_iff] at hcall
      exact ⟨List.append_nil _, hcall⟩
    · right
      obtain ⟨following, huncalled, rfl⟩ := exists_uncalled_of_exitError? hcall
      exact ⟨following, huncalled, rfl⟩

/-- A stray sign stands between an exit and its call, and another exit is not called. -/
def punctured : String := "é@r$(ü) @s"

theorem parse_punctured_errors_tile :
    parse punctured = .error [⟨4, 5, .stray ['$']⟩, ⟨12, 12, .exitNotCalled none⟩] ∧
      strays punctured = [⟨4, 5, .stray ['$']⟩] ∧
      ∃ following, Uncalled (goodPieces punctured) following ∧
        uncalledError punctured.utf8ByteSize following = ⟨12, 12, .exitNotCalled none⟩ := by
  have herrors : parse punctured = .error [⟨4, 5, .stray ['$']⟩, ⟨12, 12, .exitNotCalled none⟩] := by
    decide +kernel
  have hstrays : strays punctured = [⟨4, 5, .stray ['$']⟩] := by
    decide +kernel
  obtain ⟨_, hcases⟩ := (parse_errors_tile punctured).2.2.1 _ herrors
  rw [hstrays] at hcases
  rcases hcases with ⟨heq, _⟩ | ⟨following, huncalled, heq⟩
  · simp at heq
  · have hlast := List.singleton_inj.mp (List.cons.inj heq).2
    exact ⟨herrors, hstrays, following, huncalled, hlast.symm⟩

end ProcFlow.Template
