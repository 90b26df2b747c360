import PassTuner.Number.Literal

/-!
# Reading decimals by scaling

The numbers of JSON are read in three roundings and not in one. The digits, as many as 64 bits hold,
become a double; a power of ten becomes another; the product or the quotient of the two is the
number that is read. It need not be the double nearest to the decimal. All three are computed
exactly before they are rounded, as quotients of naturals.
-/

namespace PassTuner

/-- The number `significand * 2 ^ exponent`. -/
structure Dyadic where
  significand : Nat
  exponent : Int
  deriving DecidableEq, Repr

namespace Dyadic

def num (x : Dyadic) : Nat := x.significand * Nat.pow 2 x.exponent.toNat

def den (x : Dyadic) : Nat := Nat.pow 2 (-x.exponent).toNat

/-- The double nearest to a quotient; there is none past the largest. -/
def nearest? (num den : Nat) : Option Dyadic :=
  match BinaryFormat.double.decode (BinaryFormat.double.nearestRatio num den) with
  | .finite _ significand exponent => some ⟨significand, exponent⟩
  | _ => none

def times? (x y : Dyadic) : Option Dyadic := nearest? (x.num * y.num) (x.den * y.den)

def over? (x y : Dyadic) : Option Dyadic := nearest? (x.num * y.den) (x.den * y.num)

def powerOfTen? (n : Nat) : Option Dyadic := nearest? (Nat.pow 10 n) 1

/-- The largest exponent of a power of ten that is a double. -/
def lastPower : Nat := 308

/-- The number over so many of the largest powers of ten, unless it has become zero before. -/
def shrink? : Nat → Dyadic → Option Dyadic
  | 0, x => some x
  | times + 1, x =>
    if x.significand = 0 then some x else do shrink? times (← x.over? (← powerOfTen? lastPower))

/-- The double that is read for `digits * 10 ^ exponent`. -/
def scaled? (digits : Nat) (exponent : Int) : Option Dyadic := do
  let x ← nearest? digits 1
  if (lastPower : Int) < exponent then
    if x.significand = 0 then some x else none
  else if 0 ≤ exponent then
    x.times? (← powerOfTen? exponent.toNat)
  else
    let places := (-exponent).toNat
    let before := (places - 1) / lastPower
    (← shrink? before x).over? (← powerOfTen? (places - lastPower * before))

/-- The bits of the number in a format that is nearest to it, or to its negation. -/
def bits (f : BinaryFormat) (negative : Bool) (x : Dyadic) : Nat :=
  (if negative then f.signBit else 0) + f.nearestRatio x.num x.den

end Dyadic

namespace Numeral

/-- A number with digits put behind it for as long as 64 bits hold it, and how many were left. -/
def gather (n : Nat) : List Char → Nat × Nat
  | [] => (n, 0)
  | c :: rest =>
    let next := 10 * n + digitValue c
    if next < Nat.pow 2 64 then gather next rest else (n, rest.length + 1)

/-- The double without its sign that is read for a numeral. Digits before the point that are left
count for its size, those behind it do not. -/
def scaled? (n : Numeral) : Option Dyadic :=
  let (whole, left) := gather 0 n.whole
  let (digits, ignored) := gather whole n.fraction
  Dyadic.scaled? digits (n.exponent + left - (n.fraction.length - ignored : Nat))

end Numeral

end PassTuner
