import ProcFlow.Text.Bytes
import ProcFlow.Text.Quoted
/-!
# Lexemes of code templates

A template is code with holes. A dollar sign starts a hole for an input, `$name` or `${name}`; an at
sign starts an exit, `@name`; each sign stands for itself when it is doubled. Everything between is
text. The lexemes of a source, the stray ones included, spell it out again from left to right, so
their places follow from their lengths.
-/

namespace ProcFlow.Template

open Text (byteLength)

inductive Lexeme where
  | dollarSign
  | atSign
  /-- `$name`, or `${name}` when in braces. -/
  | input (name : List Char) (braced : Bool)
  | exit (name : List Char)
  | text (run : List Char)
  /-- A sign that starts nothing, with the opened name that lacks its closing brace. -/
  | stray (chars : List Char)
  deriving DecidableEq, Repr

namespace Lexeme

def chars : Lexeme → List Char
  | dollarSign => ['$', '$']
  | atSign => ['@', '@']
  | input name true => '$' :: '\x7b' :: name ++ ['\x7d']
  | input name false => '$' :: name
  | exit name => '@' :: name
  | text run => run
  | stray chars => chars

/-- The lexeme in messages. Both spellings of an input look the same, and text stands in quotes. -/
def describe : Lexeme → String
  | dollarSign => "$$"
  | atSign => "@@"
  | input name _ => String.ofList ('$' :: name)
  | exit name => String.ofList ('@' :: name)
  | text run => Text.quoted (String.ofList run)
  | stray chars => Text.quoted (String.ofList chars)

def isStray : Lexeme → Bool
  | stray _ => true
  | _ => false


/-! ### Scanning -/

def isNameStart (c : Char) : Bool := c.isAlpha || c == '_'

def isNamePart (c : Char) : Bool := c.isAlphanum || c == '_'

def isPlain (c : Char) : Bool := c != '$' && c != '@'

def name? : List Char → Option (List Char × List Char)
  | [] => none
  | c :: rest =>
    if isNameStart c then some (c :: rest.takeWhile isNamePart, rest.dropWhile isNamePart) else none

def afterDollar (rest : List Char) : Lexeme × List Char :=
  match rest with
  | '$' :: rest => (dollarSign, rest)
  | '\x7b' :: inner =>
    match name? inner with
    | some (name, '\x7d' :: rest) => (input name true, rest)
    | some (name, rest) => (stray ('$' :: '\x7b' :: name), rest)
    | none => (stray ['$'], rest)
  | rest =>
    match name? rest with
    | some (name, rest) => (input name false, rest)
    | none => (stray ['$'], rest)

def afterAt (rest : List Char) : Lexeme × List Char :=
  match rest with
  | '@' :: rest => (atSign, rest)
  | rest =>
    match name? rest with
    | some (name, rest) => (exit name, rest)
    | none => (stray ['@'], rest)

def next (c : Char) (rest : List Char) : Lexeme × List Char :=
  if c = '$' then afterDollar rest
  else if c = '@' then afterAt rest
  else (text (c :: rest.takeWhile isPlain), rest.dropWhile isPlain)

theorem name?_append {s name rest : List Char} (h : name? s = some (name, rest)) :
    name ++ rest = s := by
  cases s with
  | nil => simp [name?] at h
  | cons c r =>
    simp only [name?] at h
    split at h
    · simp only [Option.some.injEq, Prod.mk.injEq] at h
      obtain ⟨rfl, rfl⟩ := h
      simp
    · simp at h

theorem afterDollar_append (rest : List Char) :
    (afterDollar rest).1.chars ++ (afterDollar rest).2 = '$' :: rest := by
  unfold afterDollar
  split
  · rfl
  · split
    · next h => simp [chars, ← name?_append h]
    · next h => simp [chars, ← name?_append h]
    · rfl
  · split
    · next h => simp [chars, ← name?_append h]
    · rfl

theorem afterAt_append (rest : List Char) :
    (afterAt rest).1.chars ++ (afterAt rest).2 = '@' :: rest := by
  unfold afterAt
  split
  · rfl
  · split
    · next h => simp [chars, ← name?_append h]
    · rfl

theorem next_append (c : Char) (rest : List Char) :
    (next c rest).1.chars ++ (next c rest).2 = c :: rest := by
  unfold next
  split
  · next h => rw [h, afterDollar_append]
  · split
    · next h => rw [h, afterAt_append]
    · simp [chars]

theorem chars_next_ne_nil (c : Char) (rest : List Char) : (next c rest).1.chars ≠ [] := by
  simp only [next, afterDollar, afterAt]
  repeat' split
  all_goals simp [chars]

theorem length_next_lt (c : Char) (rest : List Char) :
    (next c rest).2.length < (c :: rest).length := by
  have h := congrArg List.length (next_append c rest)
  have hpos := List.length_pos_iff.2 (chars_next_ne_nil c rest)
  simp only [List.length_append] at h
  omega

def scan : List Char → List Lexeme
  | [] => []
  | c :: rest => (next c rest).1 :: scan (next c rest).2
termination_by s => s.length
decreasing_by exact length_next_lt c rest

theorem flatMap_chars_scan (s : List Char) : (scan s).flatMap chars = s := by
  fun_induction scan s with
  | case1 => rfl
  | case2 c rest ih => rw [List.flatMap_cons, ih, next_append]

end Lexeme


/-! ### Places -/

/-- A lexeme with the byte at which it starts. -/
structure Placed where
  start : Nat
  lexeme : Lexeme
  deriving DecidableEq, Repr

def Placed.stop (p : Placed) : Nat := p.start + byteLength p.lexeme.chars

/-- Lexemes with their places, the first one starting at a given byte. -/
def place : Nat → List Lexeme → List Placed
  | _, [] => []
  | start, l :: rest => ⟨start, l⟩ :: place (start + byteLength l.chars) rest

end ProcFlow.Template
