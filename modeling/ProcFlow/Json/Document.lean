import ProcFlow.Json.Quote
/-!
# Writing JSON

A document is a JSON value to be written. The compact form has no blanks; the indented form puts each
part on a line of its own, two blanks deeper than what it is part of, and keeps an empty list or object
together.
-/

namespace ProcFlow.Json

inductive Document where
  | string (s : String)
  | number (n : Nat)
  | list (items : List Document)
  | object (members : List (String × Document))

namespace Document

/-! ### The compact form -/

mutual

def compactChars : Document → List Char
  | string s => quoteChars s.toList
  | number n => Nat.toDigits 10 n
  | list items => '[' :: compactItems items ++ [']']
  | object members => '\x7b' :: compactMembers members ++ ['\x7d']

def compactItems : List Document → List Char
  | [] => []
  | [d] => compactChars d
  | d :: rest => compactChars d ++ ',' :: compactItems rest

def compactMembers : List (String × Document) → List Char
  | [] => []
  | [(key, d)] => quoteChars key.toList ++ ':' :: compactChars d
  | (key, d) :: rest => quoteChars key.toList ++ ':' :: compactChars d ++ ',' :: compactMembers rest

end

def compact (d : Document) : String := String.ofList d.compactChars


/-! ### The indented form -/

def newLine (depth : Nat) : List Char := '\n' :: List.replicate (2 * depth) ' '

mutual

def prettyChars (depth : Nat) : Document → List Char
  | string s => quoteChars s.toList
  | number n => Nat.toDigits 10 n
  | list [] => ['[', ']']
  | list items => '[' :: prettyItems (depth + 1) items ++ newLine depth ++ [']']
  | object [] => ['\x7b', '\x7d']
  | object members => '\x7b' :: prettyMembers (depth + 1) members ++ newLine depth ++ ['\x7d']

def prettyItems (depth : Nat) : List Document → List Char
  | [] => []
  | [d] => newLine depth ++ prettyChars depth d
  | d :: rest => newLine depth ++ prettyChars depth d ++ ',' :: prettyItems depth rest

def prettyMembers (depth : Nat) : List (String × Document) → List Char
  | [] => []
  | [(key, d)] => newLine depth ++ quoteChars key.toList ++ ':' :: ' ' :: prettyChars depth d
  | (key, d) :: rest =>
    newLine depth ++ quoteChars key.toList ++ ':' :: ' ' :: prettyChars depth d
      ++ ',' :: prettyMembers depth rest

end

def pretty (d : Document) : String := String.ofList (d.prettyChars 0)

end Document

end ProcFlow.Json
