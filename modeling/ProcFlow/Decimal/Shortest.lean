/-!
# The shortest decimal of a binary fraction

A finite floating-point number is m · 2^q. Every real number close enough to it rounds to it, and among
the decimals that do, the shortest is its text. For one digit, two digits and so on, the two neighbours
of the number on that decimal grid are tried in exact arithmetic: if any decimal of that length rounds
to the number, one of the two does. Of two hits the nearer wins, and the even one of two equally near.
-/

namespace ProcFlow.Decimal

/-- A decimal number: `digits` · 10^`exponent`. -/
structure Scaled where
  digits : Nat
  exponent : Int
  deriving DecidableEq, Repr

/-- A positive binary fraction: `significand` · 2^`exponent`. `isPower` says that the neighbour below
is only half as far as the one above. -/
structure Binary where
  significand : Nat
  exponent : Int
  isPower : Bool
  deriving DecidableEq, Repr

def Binary.ofBits (bits : UInt64) : Binary :=
  let mantissa : Nat := bits.toNat % (1 <<< 52)
  let biased : Nat := (bits.toNat >>> 52) % (1 <<< 11)
  if biased = 0 then ⟨mantissa, -1074, false⟩
  else ⟨(1 <<< 52) + mantissa, (biased : Int) - 1075, mantissa = 0 && biased != 1⟩

/-- The power of ten that a fraction below one has to be multiplied by to reach one. -/
def liftToOne (num den : Nat) : Nat → Nat
  | 0 => 0
  | fuel + 1 => if den ≤ num then 0 else 1 + liftToOne (num * 10) den fuel

/-- The largest `e` with 10^e ≤ num / den. -/
def magnitude (num den : Nat) : Int :=
  if den ≤ num then ((Nat.toDigits 10 (num / den)).length : Int) - 1
  else -(liftToOne num den 400 : Int)

/-- A quarter of the last binary place is the unit in which the number, `4 · significand`, and the ends
of its interval are whole. This is that unit over 10^k, as a fraction. -/
def unitOver (b : Binary) (k : Int) : Nat × Nat :=
  (Nat.pow 10 (-k).toNat <<< (b.exponent - 2).toNat, Nat.pow 10 k.toNat <<< (2 - b.exponent).toNat)

/-- Whether `digits` on the grid whose unit is `num / den` of a quarter place rounds to the number. -/
def roundsTo (b : Binary) (num den digits : Nat) : Bool :=
  let low := (4 * b.significand - if b.isPower then 1 else 2) * num
  let high := (4 * b.significand + 2) * num
  let here := digits * den
  if b.significand % 2 = 0 then low ≤ here && here ≤ high else low < here && here < high

/-- The decimal with `n` digits at most that rounds to the number and is nearest to it. -/
def onGrid? (b : Binary) (top : Int) (n : Nat) : Option Scaled :=
  let k := top - ((n : Int) - 1)
  let (num, den) := unitOver b k
  let value := 4 * b.significand * num
  let below := value / den
  let above := below + 1
  let pick := fun d => some (⟨d, k⟩ : Scaled)
  match roundsTo b num den below, roundsTo b num den above with
  | true, true =>
    let down := value - below * den
    let up := above * den - value
    if down < up then pick below
    else if up < down then pick above
    else if below % 2 = 0 then pick below
    else pick above
  | true, false => pick below
  | false, true => pick above
  | false, false => none

def shortest (b : Binary) : Scaled :=
  let (num, den) := unitOver b 0
  let top := magnitude (4 * b.significand * num) den
  ((List.range 18).findSome? fun n => onGrid? b top (n + 1)).getD ⟨0, 0⟩

def Scaled.trim (s : Scaled) : Nat → Scaled
  | 0 => s
  | fuel + 1 =>
    if s.digits ≠ 0 ∧ s.digits % 10 = 0 then Scaled.trim ⟨s.digits / 10, s.exponent + 1⟩ fuel else s


/-! ### Writing a decimal -/

structure Style where
  /-- The least power of ten of a leading digit that is still written out in full. -/
  leastFull : Int
  /-- The greatest power of ten of a leading digit that is still written out in full. -/
  greatestFull : Int

/-- An exponent, which always shows its sign. -/
def exponentText (e : Int) : List Char :=
  (if e < 0 then '-' else '+') :: Nat.toDigits 10 e.natAbs

/-- A decimal as text. A number written out in full always shows a point. -/
def Style.write (n : Style) (s : Scaled) : List Char :=
  let s := s.trim 400
  let ds := Nat.toDigits 10 s.digits
  let point := (ds.length : Int) + s.exponent
  if n.leastFull ≤ point - 1 ∧ point - 1 ≤ n.greatestFull then
    if 0 ≤ s.exponent then ds ++ List.replicate s.exponent.toNat '0' ++ ['.', '0']
    else if 0 < point then ds.take point.toNat ++ '.' :: ds.drop point.toNat
    else '0' :: '.' :: List.replicate (-point).toNat '0' ++ ds
  else
    let mantissa := match ds with
      | [] => []
      | [d] => [d]
      | d :: rest => d :: '.' :: rest
    mantissa ++ 'e' :: exponentText (point - 1)

def Style.writeFloat (n : Style) (x : Float) : String :=
  let bits := x.toBits
  let digits :=
    if bits.toNat % (1 <<< 63) = 0 then ['0', '.', '0'] else n.write (shortest (Binary.ofBits bits))
  String.ofList (if bits.toNat >>> 63 = 1 then '-' :: digits else digits)

end ProcFlow.Decimal
