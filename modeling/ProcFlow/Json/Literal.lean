import ProcFlow.Json.Fault
import ProcFlow.Text.Bytes
/-!
# JSON string literals

A literal is kept as the pieces it is written in: characters, and the 16-bit units of `\u` escapes. Two
questions are asked of it. Its *form* is right when every escape is complete; its *text* exists when,
besides, the units that are halves of a character come in pairs. Both are asked from left to right, so
the first fault is the one reported.
-/

namespace ProcFlow.Json

namespace Literal

inductive Piece where
  /-- A character, written as itself or by a one-letter escape. -/
  | char (c : Char)
  | unit (n : Nat)
  deriving DecidableEq, Repr

inductive Flaw where
  | ended
  | control
  | badEscape
  | badUnit
  deriving DecidableEq, Repr

def Flaw.fault : Flaw → Fault
  | ended => .endInString
  | control => .controlCharacter
  | badEscape => .invalidEscape
  | badUnit => .invalidEscape

end Literal

/-- A string literal up to its closing quote, or up to its first flaw. -/
structure Literal where
  pieces : List Literal.Piece
  flaw : Option Literal.Flaw
  deriving DecidableEq, Repr

namespace Literal

def escaped? (c : Char) : Option Char :=
  match c with
  | '"' => some '"'
  | '\\' => some '\\'
  | '/' => some '/'
  | 'b' => some '\x08'
  | 'f' => some '\x0c'
  | 'n' => some '\n'
  | 'r' => some '\r'
  | 't' => some '\t'
  | _ => none

def hexValue? (c : Char) : Option Nat :=
  if c.isDigit then some (c.toNat - '0'.toNat)
  else if 'a' ≤ c ∧ c ≤ 'f' then some (c.toNat - 'a'.toNat + 10)
  else if 'A' ≤ c ∧ c ≤ 'F' then some (c.toNat - 'A'.toNat + 10)
  else none

def unit? (a b c d : Char) : Option Nat :=
  match hexValue? a, hexValue? b, hexValue? c, hexValue? d with
  | some a, some b, some c, some d => some (((a * 16 + b) * 16 + c) * 16 + d)
  | _, _, _, _ => none

/-- The flaw of an escape that the end of the text may cut off: four bytes would be needed. -/
def cutUnit (rest : List Char) : Flaw :=
  if Text.byteLength rest < 4 then .ended else .badUnit

def addPiece (p : Piece) (r : Literal × List Char) : Literal × List Char :=
  (⟨p :: r.1.pieces, r.1.flaw⟩, r.2)

def broken (f : Flaw) : Literal × List Char := (⟨[], some f⟩, [])

/-- The literal whose opening quote has been read, and what follows it. Nothing is read after a
flaw. -/
def scan : List Char → Literal × List Char
  | [] => broken .ended
  | c :: rest =>
    if c = '"' then (⟨[], none⟩, rest)
    else if c = '\\' then
      match rest with
      | [] => broken .ended
      | e :: rest =>
        if e = 'u' then
          match rest with
          | h₁ :: h₂ :: h₃ :: h₄ :: rest =>
            match unit? h₁ h₂ h₃ h₄ with
            | some n => addPiece (.unit n) (scan rest)
            | none => broken .badUnit
          | rest => broken (cutUnit rest)
        else
          match escaped? e with
          | some c => addPiece (.char c) (scan rest)
          | none => broken .badEscape
    else if c.toNat < 0x20 then broken .control
    else addPiece (.char c) (scan rest)

theorem length_scan_le (s : List Char) : (scan s).2.length ≤ s.length := by
  fun_induction scan s <;> simp only [broken, addPiece, List.length_cons, List.length_nil] at * <;>
    omega


/-! ### Form and text -/

def form (l : Literal) : Except Fault Unit :=
  match l.flaw with
  | none => .ok ()
  | some f => .error f.fault

/-- Whether a unit is the first half of a character. -/
def isHigh (n : Nat) : Bool := 0xD800 ≤ n && n ≤ 0xDBFF

def isLow (n : Nat) : Bool := 0xDC00 ≤ n && n ≤ 0xDFFF

def ofHalves (high low : Nat) : Char :=
  Char.ofNat ((high - 0xD800) * 0x400 + (low - 0xDC00) + 0x10000)

def halfFault : Option Flaw → Fault
  | some .ended => .endInString
  | some .badUnit => .invalidEscape
  | _ => .unfinishedSurrogate

def characters (flaw : Option Flaw) : List Piece → Except Fault (List Char)
  | [] =>
    match flaw with
    | none => .ok []
    | some f => .error f.fault
  | .char c :: rest => do return c :: (← characters flaw rest)
  | .unit n :: rest =>
    if isLow n then .error .loneSurrogate
    else if isHigh n then
      match rest with
      | [] => .error (halfFault flaw)
      | .char _ :: _ => .error .unfinishedSurrogate
      | .unit m :: rest =>
        if isLow m then do return ofHalves n m :: (← characters flaw rest)
        else .error .loneSurrogate
    else do return Char.ofNat n :: (← characters flaw rest)

def text (l : Literal) : Except Fault String :=
  (characters l.flaw l.pieces).map String.ofList

end Literal

end ProcFlow.Json
