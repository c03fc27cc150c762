import ProcFlow.Text.Invisible
/-!
# Quoted text in messages

Messages show a piece of user text between double quotes. Quotes and backslashes are escaped, the
usual control characters have their letter, and any other character that does not show is written by
its code point. A single quote needs no escape inside double quotes.
-/

namespace ProcFlow.Text

def hex (n : Nat) : List Char := Nat.toDigits 16 n

def quotedChar (c : Char) : List Char :=
  match c with
  | '\x00' => ['\\', '0']
  | '\t' => ['\\', 't']
  | '\r' => ['\\', 'r']
  | '\n' => ['\\', 'n']
  | '"' => ['\\', '"']
  | '\\' => ['\\', '\\']
  | c => if isInvisible c then ['\\', 'u', '\x7b'] ++ hex c.toNat ++ ['\x7d'] else [c]

def quoted (s : String) : String :=
  String.ofList ('"' :: s.toList.flatMap quotedChar ++ ['"'])

end ProcFlow.Text
