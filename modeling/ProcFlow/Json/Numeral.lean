import ProcFlow.Decimal.Shortest
import ProcFlow.Json.Fault
/-!
# JSON numerals

A numeral is kept as it is spelled: its sign, the digits before and after the point, and the exponent.
Its value is a 64-bit integer when it has neither fraction nor exponent and fits; otherwise it is a
floating-point number, found from the digits that fit into 64 bits and one power of ten.
-/

namespace ProcFlow.Json

structure Numeral where
  negative : Bool
  whole : List Char
  /-- The digits after the point, if there is one. -/
  fraction : Option (List Char)
  /-- The exponent, if there is one: whether it is negative, and its digits. -/
  exponent : Option (Bool × List Char)
  deriving DecidableEq, Repr

namespace Numeral

inductive Flaw where
  | truncated
  | malformed
  deriving DecidableEq, Repr

def missingDigit : List Char → Flaw
  | [] => .truncated
  | _ :: _ => .malformed

/-- The digits at the front of a text, one at least. -/
def digits (s : List Char) : Except Flaw (List Char × List Char) :=
  match s.takeWhile Char.isDigit with
  | [] => .error (missingDigit s)
  | ds => .ok (ds, s.dropWhile Char.isDigit)

/-- The digits before the point. A zero stands alone. -/
def wholeDigits (s : List Char) : Except Flaw (List Char × List Char) := do
  let (ds, rest) ← digits s
  match ds with
  | '0' :: _ :: _ => .error .malformed
  | _ => return (ds, rest)

def fractionDigits : List Char → Except Flaw (Option (List Char) × List Char)
  | '.' :: rest => do
    let (ds, rest) ← digits rest
    return (some ds, rest)
  | rest => return (none, rest)

def exponentDigits (s : List Char) : Except Flaw (Option (Bool × List Char) × List Char) :=
  let signed := fun (rest : List Char) =>
    match rest with
    | '-' :: rest => (true, rest)
    | '+' :: rest => (false, rest)
    | rest => (false, rest)
  match s with
  | c :: rest =>
    if c = 'e' ∨ c = 'E' then do
      let (negative, rest) := signed rest
      let (ds, rest) ← digits rest
      return (some (negative, ds), rest)
    else return (none, s)
  | [] => return (none, [])

def scan (s : List Char) : Except Flaw (Numeral × List Char) := do
  let (negative, s) := match s with
    | '-' :: rest => (true, rest)
    | s => (false, s)
  let (whole, s) ← wholeDigits s
  let (fraction, s) ← fractionDigits s
  let (exponent, s) ← exponentDigits s
  return (⟨negative, whole, fraction, exponent⟩, s)

theorem length_digits_lt {s ds rest : List Char} (h : digits s = .ok (ds, rest)) :
    rest.length < s.length := by
  simp only [digits] at h
  split at h
  · simp at h
  · next hne =>
    simp only [Except.ok.injEq, Prod.mk.injEq] at h
    obtain ⟨_, rfl⟩ := h
    have hsplit := congrArg List.length (List.takeWhile_append_dropWhile (p := Char.isDigit) (l := s))
    have hpos : 0 < (s.takeWhile Char.isDigit).length := List.length_pos_iff.2 hne
    rw [List.length_append] at hsplit
    omega

theorem length_wholeDigits_lt {s ds rest : List Char} (h : wholeDigits s = .ok (ds, rest)) :
    rest.length < s.length := by
  simp only [wholeDigits, bind, Except.bind] at h
  split at h
  · simp at h
  · next hd =>
    split at h
    · simp at h
    · simp only [pure, Except.pure, Except.ok.injEq] at h
      exact length_digits_lt (hd.trans (congrArg Except.ok h))

theorem length_fractionDigits_le {s rest : List Char} {ds : Option (List Char)}
    (h : fractionDigits s = .ok (ds, rest)) : rest.length ≤ s.length := by
  unfold fractionDigits at h
  split at h
  · simp only [bind, Except.bind] at h
    split at h
    · simp at h
    · next hd =>
      simp only [pure, Except.pure, Except.ok.injEq, Prod.mk.injEq] at h
      have := length_digits_lt hd
      simp only [List.length_cons, ← h.2]
      omega
  · simp only [pure, Except.pure, Except.ok.injEq, Prod.mk.injEq] at h
    simp [h.2]

theorem length_exponentDigits_le {s rest : List Char} {ds : Option (Bool × List Char)}
    (h : exponentDigits s = .ok (ds, rest)) : rest.length ≤ s.length := by
  unfold exponentDigits at h
  split at h
  · next c t =>
    split at h
    · simp only [bind, Except.bind] at h
      split at h
      · simp at h
      · next hd =>
        simp only [pure, Except.pure, Except.ok.injEq, Prod.mk.injEq] at h
        have hlt := length_digits_lt hd
        rw [← h.2]
        split at hlt <;> simp only [List.length_cons] at hlt ⊢ <;> omega
    · simp only [pure, Except.pure, Except.ok.injEq, Prod.mk.injEq] at h
      simp [← h.2]
  · simp only [pure, Except.pure, Except.ok.injEq, Prod.mk.injEq] at h
    simp [← h.2]

theorem length_scan_lt {s rest : List Char} {n : Numeral} (h : scan s = .ok (n, rest)) :
    rest.length < s.length := by
  simp only [scan, bind, Except.bind] at h
  split at h
  · simp at h
  · next hw =>
    split at h
    · simp at h
    · next hf =>
      split at h
      · simp at h
      · next he =>
        simp only [pure, Except.pure, Except.ok.injEq, Prod.mk.injEq] at h
        have h1 := length_wholeDigits_lt hw
        have h2 := length_fractionDigits_le hf
        have h3 := length_exponentDigits_le he
        rw [← h.2]
        split at h1 <;> simp only [List.length_cons] at h1 ⊢ <;> omega


/-! ### The value of a numeral -/

def digitValue (c : Char) : Nat := c.toNat - '0'.toNat

/-- Appends digits to a number while it stays below 2^64; what no longer fits is left over. -/
def append64 (n : Nat) : List Char → Nat × List Char
  | [] => (n, [])
  | c :: rest =>
    if n * 10 + digitValue c < UInt64.size then append64 (n * 10 + digitValue c) rest else (n, c :: rest)

def natOf (ds : List Char) : Nat := ds.foldl (fun n c => n * 10 + digitValue c) 0

def powerOfTen (e : Nat) : Float := Float.ofScientific 1 false e

/-- Divides by a power of ten. The largest power that a floating-point number holds is taken out first
as often as needed. -/
def shrink (x : Float) (e : Nat) : Float :=
  if e ≤ 308 then x / powerOfTen e
  else if x == 0 then x
  else shrink (x / powerOfTen 308) (e - 308)
termination_by e

/-- Multiplies by a power of ten; a result that is too large is refused. -/
def scale (x : Float) (e : Int) : Except Fault Float :=
  if e < 0 then .ok (shrink x e.natAbs)
  else if e ≤ 308 then
    let y := x * powerOfTen e.natAbs
    if y.isInf then .error .numberOutOfRange else .ok y
  else if x == 0 then .ok x
  else .error .numberOutOfRange

end Numeral

inductive Number where
  | natural (n : Nat)
  | negative (n : Nat)
  | float (x : Float)

/-- Floating-point numbers in messages: in full from 0.00001 up to 10^16, else with a signed exponent. -/
def numberStyle : Decimal.Style := ⟨-5, 15⟩

def Number.found : Number → Found
  | natural n => .integer n
  | negative n => .integer (-n)
  | float x => .decimal (numberStyle.writeFloat x)

namespace Numeral

/-- The value of a numeral; only an overflow is a fault. -/
def value (n : Numeral) : Except Fault Number :=
  let (whole, excess) := append64 0 n.whole
  let (significand, dropped) := append64 whole (n.fraction.getD [])
  let point : Int := (excess.length : Int) - (((n.fraction.getD []).length - dropped.length : Nat) : Int)
  let signed := fun (x : Float) => Number.float (if n.negative then -x else x)
  match n.fraction, n.exponent, excess with
  | none, none, [] =>
    if !n.negative then .ok (.natural whole)
    else if 0 < whole ∧ whole ≤ 1 <<< 63 then .ok (.negative whole)
    else .ok (signed whole.toUInt64.toFloat)
  | _, none, _ => (scale significand.toUInt64.toFloat point).map signed
  | _, some (down, ds), _ =>
    let e := natOf ds
    if e < 1 <<< 31 then
      (scale significand.toUInt64.toFloat (if down then point - e else point + e)).map signed
    else if significand = 0 ∨ down then .ok (signed 0)
    else .error .numberOutOfRange

end Numeral

end ProcFlow.Json
