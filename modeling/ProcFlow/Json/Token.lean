import ProcFlow.Json.Literal
import ProcFlow.Json.Numeral
/-!
# JSON tokens

The text is cut into tokens before anything is asked of it. A token that cannot be read is kept as what
it is, because only its place decides which fault is reported; nothing is read after it. Between tokens
stand blanks, tabs and line ends.
-/

namespace ProcFlow.Json

inductive Token where
  | openBrace
  | closeBrace
  | openBracket
  | closeBracket
  | comma
  | colon
  | null
  | bool (b : Bool)
  | number (n : Numeral)
  | string (l : Literal)
  | badNumber (f : Numeral.Flaw)
  /-- The start of `null`, `true` or `false` that does not go on as it should; `cut` says that the text
  ends in it. -/
  | badWord (cut : Bool)
  | stray
  deriving DecidableEq, Repr

namespace Token

def isBlank (c : Char) : Bool := c == ' ' || c == '\n' || c == '\t' || c == '\r'

/-- What follows a word whose letters are `expected`, or whether the text ended in it. -/
def afterWord : List Char → List Char → Except Bool (List Char)
  | [], rest => .ok rest
  | _ :: _, [] => .error true
  | e :: expected, c :: rest => if c = e then afterWord expected rest else .error false

def next (c : Char) (rest : List Char) : Token × List Char :=
  let word := fun (expected : String) (token : Token) =>
    match afterWord expected.toList rest with
    | .ok rest => (token, rest)
    | .error cut => (badWord cut, [])
  match c with
  | '\x7b' => (openBrace, rest)
  | '\x7d' => (closeBrace, rest)
  | '[' => (openBracket, rest)
  | ']' => (closeBracket, rest)
  | ',' => (comma, rest)
  | ':' => (colon, rest)
  | '"' => (string (Literal.scan rest).1, (Literal.scan rest).2)
  | 'n' => word "ull" null
  | 't' => word "rue" (bool true)
  | 'f' => word "alse" (bool false)
  | c =>
    if c = '-' ∨ c.isDigit then
      match Numeral.scan (c :: rest) with
      | .ok (n, rest) => (number n, rest)
      | .error f => (badNumber f, [])
    else (stray, [])

theorem length_afterWord_le {expected s rest : List Char} (h : afterWord expected s = .ok rest) :
    rest.length ≤ s.length := by
  fun_induction afterWord expected s with
  | case1 s =>
    simp only [Except.ok.injEq] at h
    exact Nat.le_of_eq (congrArg List.length h.symm)
  | case2 => simp at h
  | case3 expected c rest ih =>
    have := ih h
    simp only [List.length_cons]
    omega
  | case4 => simp at h

theorem length_next_le (c : Char) (rest : List Char) : (next c rest).2.length ≤ rest.length := by
  unfold next
  split <;> try exact Nat.le_refl _
  · exact Literal.length_scan_le rest
  iterate 3
    · simp only []
      split
      · next h => exact length_afterWord_le h
      · exact Nat.zero_le _
  · split
    · split
      · next h =>
        have := Numeral.length_scan_lt h
        simp only [List.length_cons] at this
        simp only []
        omega
      · exact Nat.zero_le _
    · exact Nat.zero_le _

def scan : List Char → List Token
  | [] => []
  | c :: rest =>
    if isBlank c then scan rest
    else (next c rest).1 :: scan (next c rest).2
termination_by s => s.length
decreasing_by
  · simp
  · have := length_next_le c rest
    simp only [List.length_cons]
    omega

end Token

end ProcFlow.Json
