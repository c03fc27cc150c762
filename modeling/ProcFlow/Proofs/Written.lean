import Mathlib.Data.List.TakeWhile
import ProcFlow.Json.Document
import ProcFlow.Json.Node
/-!
# Written documents as they are read

A document that is written in either form and read again gives the node that stands for it: strings come
back as the literals of their characters, numbers as the numerals of their digits, and every list and
object is closed. This is shown first for the text and its tokens, where the blanks of the indented form
vanish, and then for the tokens and the node. A number ends only where the text goes on with something
else, so what follows a value has to start with a mark or a line end; in a document it always does.
-/

namespace ProcFlow.Json

/-! ### Strings -/

namespace Literal

/-- The piece in which a character is written. -/
def pieceOf (c : Char) : Piece :=
  if c.toNat < 0x20 ∧ c ∉ ['\n', '\r', '\t', '\x08', '\x0c'] then .unit c.toNat else .char c

/-- The literal of a text, as it is written. -/
def ofString (s : String) : Literal := ⟨s.toList.map pieceOf, none⟩

theorem scan_quote (rest : List Char) : scan ('"' :: rest) = (⟨[], none⟩, rest) := by
  rw [scan.eq_def]
  rfl

theorem scan_escape {e c : Char} (he : e ≠ 'u') (hc : escaped? e = some c) (rest : List Char) :
    scan ('\\' :: e :: rest) = addPiece (.char c) (scan rest) := by
  rw [scan.eq_def]
  simp [he, hc]

theorem scan_unit {h₁ h₂ h₃ h₄ : Char} {n : Nat} (hn : unit? h₁ h₂ h₃ h₄ = some n)
    (rest : List Char) :
    scan ('\\' :: 'u' :: h₁ :: h₂ :: h₃ :: h₄ :: rest) = addPiece (.unit n) (scan rest) := by
  rw [scan.eq_def]
  simp [hn]

theorem scan_plain {c : Char} (hquote : c ≠ '"') (hslash : c ≠ '\\') (hplain : ¬ c.toNat < 0x20)
    (rest : List Char) : scan (c :: rest) = addPiece (.char c) (scan rest) := by
  rw [scan.eq_def]
  simp only [if_neg hquote, if_neg hslash, if_neg hplain]

theorem hexValue?_digitChar : ∀ k < 16, hexValue? (Nat.digitChar k) = some k := by decide

theorem unit?_hexDigit {n : Nat} (h : n < 0x20) :
    unit? '0' '0' (hexDigit (n / 16)) (hexDigit n) = some n := by
  have hhigh := hexValue?_digitChar (n / 16 % 16) (by omega)
  have hlow := hexValue?_digitChar (n % 16) (by omega)
  have hzero : hexValue? '0' = some 0 := by decide
  simp only [unit?, hexDigit, hhigh, hlow, hzero, Option.some.injEq]
  omega

theorem scan_escapeChar (c : Char) (rest : List Char) :
    scan (escapeChar c ++ rest) = addPiece (pieceOf c) (scan rest) := by
  unfold escapeChar
  split
  -- The quote, the backslash and the five control characters that have letters of their own.
  iterate 7
    · exact scan_escape (by decide) rfl rest
  · next hquote hslash hn hr ht hb hf =>
    split
    · next hcontrol =>
      have hunit : pieceOf c = .unit c.toNat := by
        rw [pieceOf, if_pos]
        simp only [List.mem_cons, List.not_mem_nil, or_false, not_or]
        exact ⟨hcontrol, hn, hr, ht, hb, hf⟩
      rw [hunit]
      exact scan_unit (unit?_hexDigit hcontrol) rest
    · next hplain =>
      have hchar : pieceOf c = .char c := by
        rw [pieceOf, if_neg]
        exact fun hcontrol => hplain hcontrol.1
      rw [hchar]
      exact scan_plain hquote hslash hplain rest

theorem scan_flatMap_escapeChar (cs rest : List Char) :
    scan (cs.flatMap escapeChar ++ '"' :: rest) = (⟨cs.map pieceOf, none⟩, rest) := by
  induction cs with
  | nil => exact scan_quote rest
  | cons c cs ih =>
      rw [List.flatMap_cons, List.append_assoc, scan_escapeChar, ih]
      rfl

theorem characters_pieceOf (c : Char) (rest : List Piece) :
    characters none (pieceOf c :: rest) = (characters none rest).map (c :: ·) := by
  rw [pieceOf]
  split
  · next hunit =>
    have hlow : isLow c.toNat = false := by
      simp [isLow]
      omega
    have hhigh : isHigh c.toNat = false := by
      simp [isHigh]
      omega
    rw [characters.eq_def]
    simp only [hlow, hhigh, Char.ofNat_toNat, Bool.false_eq_true, if_false]
    rfl
  · rw [characters]
    rfl

theorem text_ofString (s : String) : (ofString s).text = .ok s := by
  have hchars : ∀ cs : List Char, characters none (cs.map pieceOf) = .ok cs := by
    intro cs
    induction cs with
    | nil => rfl
    | cons c cs ih =>
        rw [List.map_cons, characters_pieceOf, ih]
        rfl
  rw [text, ofString, hchars]
  exact congrArg Except.ok String.ofList_toList

end Literal


/-! ### Numbers -/

/-- What follows a value in a document: nothing, a mark or a line end. -/
def Delimited (rest : List Char) : Prop := ∀ c ∈ rest.head?, c ∈ [',', ']', '\x7d', '\n']

namespace Numeral

/-- The numeral of a number, as it is written. -/
def ofNat (n : Nat) : Numeral := ⟨false, Nat.toDigits 10 n, none, none⟩

theorem isDigit_of_mem {n : Nat} {c : Char} (h : c ∈ Nat.toDigits 10 n) : c.isDigit = true :=
  Nat.isDigit_of_mem_toDigits (by decide) (by decide) h

theorem exists_toDigits_eq_cons (n : Nat) :
    ∃ c front, Nat.toDigits 10 n = c :: front ∧ c.isDigit = true := by
  obtain ⟨c, front, hfront⟩ := List.exists_cons_of_ne_nil (Nat.toDigits_ne_nil (n := n) (b := 10))
  exact ⟨c, front, hfront, isDigit_of_mem (n := n) (hfront ▸ List.mem_cons_self)⟩

/-- Only the number zero starts with a zero. -/
theorem eq_zero_of_toDigits {n : Nat} {tail : List Char} (h : Nat.toDigits 10 n = '0' :: tail) :
    n = 0 := by
  induction n using Nat.strong_induction_on generalizing tail with
  | _ n ih =>
      by_cases hlt : n < 10
      · rw [Nat.toDigits_of_lt_base hlt] at h
        have hdigit : ∀ k < 10, Nat.digitChar k = '0' → k = 0 := by decide
        exact hdigit n hlt (List.cons.inj h).1
      · -- Without its last digit the number still starts with a zero.
        rw [Nat.toDigits_of_base_le (by decide) (by omega)] at h
        obtain ⟨c, front, hfront, _⟩ := exists_toDigits_eq_cons (n / 10)
        rw [hfront, List.cons_append] at h
        obtain ⟨rfl, _⟩ := List.cons.inj h
        have := ih (n / 10) (by omega) hfront
        omega

theorem takeWhile_isDigit {rest : List Char} (hrest : Delimited rest) :
    rest.takeWhile Char.isDigit = [] ∧ rest.dropWhile Char.isDigit = rest := by
  cases rest with
  | nil => exact ⟨rfl, rfl⟩
  | cons c tail =>
      have hmark : ∀ d ∈ [',', ']', '\x7d', '\n'], d.isDigit = false := by simp
      have hc := hmark c (hrest c rfl)
      simp [hc]

theorem digits_toDigits (n : Nat) {rest : List Char} (hrest : Delimited rest) :
    digits (Nat.toDigits 10 n ++ rest) = .ok (Nat.toDigits 10 n, rest) := by
  obtain ⟨htake, hdrop⟩ := takeWhile_isDigit hrest
  rw [digits, List.takeWhile_append_of_pos fun _ => isDigit_of_mem,
    List.dropWhile_append_of_pos fun _ => isDigit_of_mem, htake, hdrop, List.append_nil]
  split
  · next hnil => exact absurd hnil Nat.toDigits_ne_nil
  · rfl

theorem wholeDigits_toDigits (n : Nat) {rest : List Char} (hrest : Delimited rest) :
    wholeDigits (Nat.toDigits 10 n ++ rest) = .ok (Nat.toDigits 10 n, rest) := by
  rw [wholeDigits, digits_toDigits n hrest]
  simp only [bind, Except.bind]
  split
  · next hzero =>
    obtain rfl := eq_zero_of_toDigits hzero
    cases hzero
  · rfl

/-- Neither a fraction nor an exponent comes after a number. -/
theorem fractionDigits_delimited {rest : List Char} (hrest : Delimited rest) :
    fractionDigits rest = .ok (none, rest) := by
  unfold fractionDigits
  split
  · next tail => exact absurd (hrest '.' rfl) (by decide)
  · rfl

theorem exponentDigits_delimited {rest : List Char} (hrest : Delimited rest) :
    exponentDigits rest = .ok (none, rest) := by
  unfold exponentDigits
  split
  · next c tail =>
    have hmark : ∀ d ∈ [',', ']', '\x7d', '\n'], ¬ (d = 'e' ∨ d = 'E') := by simp
    rw [if_neg (hmark c (hrest c rfl))]
    rfl
  · rfl

theorem scan_toDigits (n : Nat) {rest : List Char} (hrest : Delimited rest) :
    scan (Nat.toDigits 10 n ++ rest) = .ok (ofNat n, rest) := by
  have hsign : ∀ tail, Nat.toDigits 10 n ++ rest = '-' :: tail → False := by
    intro tail hminus
    obtain ⟨c, front, hfront, hdigit⟩ := exists_toDigits_eq_cons n
    rw [hfront, List.cons_append] at hminus
    obtain ⟨rfl, _⟩ := List.cons.inj hminus
    cases hdigit
  rw [scan]
  · simp only [wholeDigits_toDigits n hrest, fractionDigits_delimited hrest,
      exponentDigits_delimited hrest, bind, Except.bind, pure, Except.pure, ofNat]
  · exact hsign

theorem append64_eq {ds : List Char} {m : Nat} (h : Nat.ofDigitChars 10 ds m < UInt64.size) :
    append64 m ds = (Nat.ofDigitChars 10 ds m, []) := by
  induction ds generalizing m with
  | nil => rfl
  | cons c ds ih =>
      have hnext : m * 10 + digitValue c = 10 * m + (c.toNat - '0'.toNat) := by
        rw [Nat.mul_comm, digitValue]
      have hgrow : ∀ (l : List Char) (k : Nat), k ≤ Nat.ofDigitChars 10 l k := by
        intro l
        induction l with
        | nil => exact fun k => Nat.le_refl k
        | cons d l ihl =>
            intro k
            rw [Nat.ofDigitChars_cons]
            have := ihl (10 * k + (d.toNat - '0'.toNat))
            omega
      rw [Nat.ofDigitChars_cons] at h
      have hsmall := Nat.lt_of_le_of_lt (hgrow ds _) h
      rw [append64, hnext, if_pos hsmall, ih h, Nat.ofDigitChars_cons]

/-- A numeral gives back the number that it was written for. -/
theorem value_ofNat {n : Nat} (h : n < UInt64.size) : (ofNat n).value = .ok (.natural n) := by
  have happend : append64 0 (Nat.toDigits 10 n) = (n, []) := by
    rw [append64_eq] <;> rw [Nat.ofDigitChars_ten_toDigits]
    exact h
  simp [value, ofNat, happend]

end Numeral


/-! ### The tokens of a document -/

namespace Token

theorem scan_blank {c : Char} (h : isBlank c = true) (rest : List Char) : scan (c :: rest) = scan rest := by
  rw [scan, if_pos h]

theorem scan_next {c : Char} (h : isBlank c = false) (rest : List Char) :
    scan (c :: rest) = (next c rest).1 :: scan (next c rest).2 := by
  rw [scan, if_neg (by rw [h]; exact Bool.false_ne_true)]

theorem scan_mark {c : Char} {t : Token} (hblank : isBlank c = false)
    (hnext : ∀ rest, next c rest = (t, rest)) (rest : List Char) :
    scan (c :: rest) = t :: scan rest := by
  rw [scan_next hblank, hnext]

@[simp] theorem scan_openBracket (rest : List Char) : scan ('[' :: rest) = openBracket :: scan rest :=
  scan_mark rfl (fun _ => rfl) rest

@[simp] theorem scan_closeBracket (rest : List Char) :
    scan (']' :: rest) = closeBracket :: scan rest :=
  scan_mark rfl (fun _ => rfl) rest

@[simp] theorem scan_openBrace (rest : List Char) : scan ('\x7b' :: rest) = openBrace :: scan rest :=
  scan_mark rfl (fun _ => rfl) rest

@[simp] theorem scan_closeBrace (rest : List Char) : scan ('\x7d' :: rest) = closeBrace :: scan rest :=
  scan_mark rfl (fun _ => rfl) rest

@[simp] theorem scan_comma (rest : List Char) : scan (',' :: rest) = comma :: scan rest :=
  scan_mark rfl (fun _ => rfl) rest

@[simp] theorem scan_colon (rest : List Char) : scan (':' :: rest) = colon :: scan rest :=
  scan_mark rfl (fun _ => rfl) rest

@[simp] theorem scan_space (rest : List Char) : scan (' ' :: rest) = scan rest := scan_blank rfl rest

@[simp] theorem scan_newLine (depth : Nat) (rest : List Char) :
    scan (Document.newLine depth ++ rest) = scan rest := by
  rw [Document.newLine, List.cons_append, scan_blank rfl]
  induction 2 * depth with
  | zero => rfl
  | succ n ih => rw [List.replicate_succ, List.cons_append, scan_blank rfl, ih]

@[simp] theorem scan_quoteChars (s : String) (rest : List Char) :
    scan (quoteChars s.toList ++ rest) = string (.ofString s) :: scan rest := by
  have htext : quoteChars s.toList ++ rest = '"' :: (s.toList.flatMap escapeChar ++ '"' :: rest) := by
    simp [quoteChars]
  rw [htext, scan_next rfl]
  simp only [next, Literal.scan_flatMap_escapeChar, Literal.ofString]

theorem next_digit {c : Char} (hc : c.isDigit = true) {n : Numeral} {rest after : List Char}
    (hscan : Numeral.scan (c :: rest) = .ok (n, after)) : next c rest = (number n, after) := by
  unfold next
  split
  iterate 10
    · cases hc
  · rw [if_pos (Or.inr hc), hscan]

theorem scan_toDigits (n : Nat) {rest : List Char} (hrest : Delimited rest) :
    scan (Nat.toDigits 10 n ++ rest) = number (.ofNat n) :: scan rest := by
  have hscan := Numeral.scan_toDigits n hrest
  obtain ⟨c, front, hfront, hc⟩ := Numeral.exists_toDigits_eq_cons n
  have hblank : isBlank c = false := by
    by_contra hblank
    simp only [isBlank, Bool.not_eq_false, Bool.or_eq_true, beq_iff_eq] at hblank
    rcases hblank with ((rfl | rfl) | rfl) | rfl <;> cases hc
  rw [hfront, List.cons_append] at hscan ⊢
  rw [scan_next hblank, next_digit hc hscan]

end Token

namespace Document

mutual

/-- The tokens of a document. -/
def tokens : Document → List Token
  | string s => [.string (.ofString s)]
  | number n => [.number (.ofNat n)]
  | list items => .openBracket :: itemTokens items ++ [.closeBracket]
  | object members => .openBrace :: memberTokens members ++ [.closeBrace]

def itemTokens : List Document → List Token
  | [] => []
  | [d] => tokens d
  | d :: rest => tokens d ++ .comma :: itemTokens rest

def memberTokens : List (String × Document) → List Token
  | [] => []
  | [(key, d)] => .string (.ofString key) :: .colon :: tokens d
  | (key, d) :: rest => .string (.ofString key) :: .colon :: tokens d ++ .comma :: memberTokens rest

end

theorem delimited_nil : Delimited [] := fun _ hc => absurd hc (by simp)

theorem delimited_cons {c : Char} (h : c ∈ [',', ']', '\x7d', '\n']) (rest : List Char) :
    Delimited (c :: rest) := fun d hd => by
  obtain rfl := Option.some.inj hd
  exact h

theorem delimited_newLine (depth : Nat) (rest : List Char) : Delimited (newLine depth ++ rest) :=
  delimited_cons (by decide) _

mutual

theorem scan_compactChars (d : Document) {rest : List Char} (hrest : Delimited rest) :
    Token.scan (d.compactChars ++ rest) = d.tokens ++ Token.scan rest := by
  cases d with
  | string s => simp [compactChars, tokens]
  | number n => simp [compactChars, tokens, Token.scan_toDigits n hrest]
  | list items =>
      have hitems := scan_compactItems items (delimited_cons (c := ']') (by decide) rest)
      simp [compactChars, tokens, hitems]
  | object members =>
      have hmembers := scan_compactMembers members (delimited_cons (c := '\x7d') (by decide) rest)
      simp [compactChars, tokens, hmembers]

theorem scan_compactItems (items : List Document) {rest : List Char} (hrest : Delimited rest) :
    Token.scan (compactItems items ++ rest) = itemTokens items ++ Token.scan rest := by
  match items with
  | [] => rfl
  | [d] => exact scan_compactChars d hrest
  | d :: second :: others =>
      have hothers := scan_compactItems (second :: others) hrest
      have hfirst := scan_compactChars d
        (delimited_cons (c := ',') (by decide) (compactItems (second :: others) ++ rest))
      simp [compactItems, itemTokens, hfirst, hothers]

theorem scan_compactMembers (members : List (String × Document)) {rest : List Char}
    (hrest : Delimited rest) :
    Token.scan (compactMembers members ++ rest) = memberTokens members ++ Token.scan rest := by
  match members with
  | [] => rfl
  | [(key, d)] => simp [compactMembers, memberTokens, scan_compactChars d hrest]
  | (key, d) :: second :: others =>
      have hothers := scan_compactMembers (second :: others) hrest
      have hfirst := scan_compactChars d
        (delimited_cons (c := ',') (by decide) (compactMembers (second :: others) ++ rest))
      simp [compactMembers, memberTokens, hfirst, hothers]

end

mutual

theorem scan_prettyChars (depth : Nat) (d : Document) {rest : List Char} (hrest : Delimited rest) :
    Token.scan (d.prettyChars depth ++ rest) = d.tokens ++ Token.scan rest := by
  match d with
  | string s => simp [prettyChars, tokens]
  | number n => simp [prettyChars, tokens, Token.scan_toDigits n hrest]
  | list [] => simp [prettyChars, tokens, itemTokens]
  | object [] => simp [prettyChars, tokens, memberTokens]
  | list (d :: others) =>
      have hitems := scan_prettyItems (depth + 1) (d :: others)
        (delimited_newLine depth (']' :: rest))
      simp [prettyChars, tokens, hitems]
  | object (m :: others) =>
      have hmembers := scan_prettyMembers (depth + 1) (m :: others)
        (delimited_newLine depth ('\x7d' :: rest))
      simp [prettyChars, tokens, hmembers]

theorem scan_prettyItems (depth : Nat) (items : List Document) {rest : List Char}
    (hrest : Delimited rest) :
    Token.scan (prettyItems depth items ++ rest) = itemTokens items ++ Token.scan rest := by
  match items with
  | [] => rfl
  | [d] => simp [prettyItems, itemTokens, scan_prettyChars depth d hrest]
  | d :: second :: others =>
      have hothers := scan_prettyItems depth (second :: others) hrest
      have hfirst := scan_prettyChars depth d
        (delimited_cons (c := ',') (by decide) (prettyItems depth (second :: others) ++ rest))
      simp [prettyItems, itemTokens, hfirst, hothers]

theorem scan_prettyMembers (depth : Nat) (members : List (String × Document)) {rest : List Char}
    (hrest : Delimited rest) :
    Token.scan (prettyMembers depth members ++ rest) = memberTokens members ++ Token.scan rest := by
  match members with
  | [] => rfl
  | [(key, d)] => simp [prettyMembers, memberTokens, scan_prettyChars depth d hrest]
  | (key, d) :: second :: others =>
      have hothers := scan_prettyMembers depth (second :: others) hrest
      have hfirst := scan_prettyChars depth d
        (delimited_cons (c := ',') (by decide) (prettyMembers depth (second :: others) ++ rest))
      simp [prettyMembers, memberTokens, hfirst, hothers]

end


/-! ### The node of a document -/

mutual

/-- The node that stands for a document. -/
def node : Document → Node
  | string s => .string (.ofString s)
  | number n => .number (.ofNat n)
  | list items => .list (itemNodes items) .closed
  | object members => .object (memberNodes members) .closed

def itemNodes : List Document → List Node
  | [] => []
  | d :: rest => node d :: itemNodes rest

def memberNodes : List (String × Document) → List (Literal × Node)
  | [] => []
  | (key, d) :: rest => (.ofString key, node d) :: memberNodes rest

end

theorem itemNodes_eq_map (items : List Document) : itemNodes items = items.map node := by
  induction items with
  | nil => rfl
  | cons d rest ih => rw [itemNodes, ih, List.map_cons]

theorem memberNodes_eq_map (members : List (String × Document)) :
    memberNodes members = members.map fun m => (.ofString m.1, m.2.node) := by
  induction members with
  | nil => rfl
  | cons m rest ih => rw [memberNodes, ih, List.map_cons]

/-- No document starts by closing a list. -/
theorem tokens_eq_cons (d : Document) : ∃ t rest, d.tokens = t :: rest ∧ t ≠ .closeBracket := by
  cases d with
  | string s => exact ⟨_, [], rfl, by simp⟩
  | number n => exact ⟨_, [], rfl, by simp⟩
  | list items => exact ⟨.openBracket, itemTokens items ++ [.closeBracket], by simp [tokens], by simp⟩
  | object members =>
      exact ⟨.openBrace, memberTokens members ++ [.closeBrace], by simp [tokens], by simp⟩

theorem itemTokens_eq_cons (d : Document) (others : List Document) :
    ∃ t rest, itemTokens (d :: others) = t :: rest ∧ t ≠ .closeBracket := by
  obtain ⟨t, rest, htokens, ht⟩ := d.tokens_eq_cons
  cases others with
  | nil => exact ⟨t, rest, by rw [itemTokens, htokens], ht⟩
  | cons second others =>
      refine ⟨t, rest ++ .comma :: itemTokens (second :: others), ?_, ht⟩
      simp [itemTokens, htokens]

open Node (value after colon firstKey nextKey)

theorem value_openBracket (frames : List Node.Frame) {tokens : List Token} {t : Token}
    {rest : List Token} (htokens : tokens = t :: rest) (ht : t ≠ .closeBracket) :
    value frames (.openBracket :: tokens) = value (.list [] :: frames) tokens := by
  subst htokens
  rw [value]
  exact ht

theorem after_comma (frames : List Node.Frame) (items : List Node) (v : Node) {tokens : List Token}
    {t : Token} {rest : List Token} (htokens : tokens = t :: rest) (ht : t ≠ .closeBracket) :
    after (.list items :: frames) v (.comma :: tokens) = value (.list (v :: items) :: frames) tokens := by
  subst htokens
  rw [after]
  exact ht

theorem firstKey_memberTokens (frames : List Node.Frame) (m : String × Document)
    (others : List (String × Document)) (rest : List Token) :
    firstKey frames (memberTokens (m :: others) ++ rest)
      = nextKey frames [] (memberTokens (m :: others) ++ rest) := by
  cases others with
  | nil => rw [memberTokens, List.cons_append, firstKey, nextKey]
  | cons second others =>
      simp only [memberTokens, List.cons_append, firstKey, nextKey]

-- Parts that have been read stand newest first, as they do on the stack of what is open.
mutual

theorem value_tokens (d : Document) (frames : List Node.Frame) (rest : List Token) :
    value frames (d.tokens ++ rest) = after frames d.node rest := by
  match d with
  | string s => rw [tokens, List.singleton_append, value, node]
  | number n => rw [tokens, List.singleton_append, value, node]
  | list [] => rfl
  | object [] => rfl
  | list (d :: others) =>
      obtain ⟨t, tail, htokens, ht⟩ := itemTokens_eq_cons d others
      have hitems := value_itemTokens (d :: others) (List.cons_ne_nil d others) [] frames rest
      rw [tokens, List.cons_append, List.cons_append, List.append_assoc, List.singleton_append,
        value_openBracket frames (by rw [htokens, List.cons_append]) ht, hitems, node,
        List.reverse_nil, List.nil_append]
  | object (m :: others) =>
      have hmembers := nextKey_memberTokens (m :: others) (List.cons_ne_nil m others) [] frames rest
      rw [tokens, List.cons_append, List.cons_append, List.append_assoc, List.singleton_append, value,
        firstKey_memberTokens, hmembers, node, List.reverse_nil, List.nil_append]

theorem value_itemTokens (items : List Document) (hne : items ≠ []) (read : List Node)
    (frames : List Node.Frame) (rest : List Token) :
    value (.list read :: frames) (itemTokens items ++ .closeBracket :: rest)
      = after frames (.list (read.reverse ++ itemNodes items) .closed) rest := by
  match items with
  | [] => exact absurd rfl hne
  | [d] => rw [itemTokens, value_tokens d, after, itemNodes, itemNodes, List.reverse_cons]
  | d :: second :: others =>
      obtain ⟨t, tail, htokens, ht⟩ := itemTokens_eq_cons second others
      have hothers := value_itemTokens (second :: others) (List.cons_ne_nil second others)
        (d.node :: read) frames rest
      simp only [itemTokens, List.append_assoc, List.cons_append]
      rw [value_tokens d, after_comma frames read d.node (by rw [htokens, List.cons_append]) ht,
        hothers]
      simp only [itemNodes, List.reverse_cons, List.append_assoc, List.singleton_append]

theorem nextKey_memberTokens (members : List (String × Document)) (hne : members ≠ [])
    (read : List (Literal × Node)) (frames : List Node.Frame) (rest : List Token) :
    nextKey frames read (memberTokens members ++ .closeBrace :: rest)
      = after frames (.object (read.reverse ++ memberNodes members) .closed) rest := by
  match members with
  | [] => exact absurd rfl hne
  | [(key, d)] =>
      rw [memberTokens, List.cons_append, List.cons_append, nextKey, colon, value_tokens d, after,
        memberNodes, memberNodes, List.reverse_cons]
  | (key, d) :: second :: others =>
      have hothers := nextKey_memberTokens (second :: others) (List.cons_ne_nil second others)
        ((.ofString key, d.node) :: read) frames rest
      simp only [memberTokens, List.append_assoc, List.cons_append]
      rw [nextKey, colon, value_tokens d, after, hothers]
      simp only [memberNodes, List.reverse_cons, List.append_assoc, List.singleton_append]

end

theorem ofText_compact (d : Document) : Node.ofText d.compact = (d.node, []) := by
  have hscan := scan_compactChars d delimited_nil
  rw [List.append_nil] at hscan
  rw [Node.ofText, compact, String.toList_ofList, hscan, value_tokens, Token.scan, after]

theorem ofText_pretty (d : Document) : Node.ofText d.pretty = (d.node, []) := by
  have hscan := scan_prettyChars 0 d delimited_nil
  rw [List.append_nil] at hscan
  rw [Node.ofText, pretty, String.toList_ofList, hscan, value_tokens, Token.scan, after]

end Document

end ProcFlow.Json
