/-!
# Binary floating-point formats

What the bits of an interchange format stand for, and which bits stand for the number nearest to a
given quotient. Everything is exact arithmetic on natural numbers, so both directions can be
reasoned about although the operations of the machine types cannot.
-/

namespace PassTuner

/-- An interchange format: bits of the significand (the hidden one counted) and of the exponent. -/
structure BinaryFormat where
  precision : Nat
  exponentBits : Nat
  deriving DecidableEq, Repr

/-- What a bit pattern stands for. A finite number is `significand * 2 ^ exponent`. -/
inductive Datum where
  | notANumber
  | infinite (negative : Bool)
  | finite (negative : Bool) (significand : Nat) (exponent : Int)
  deriving DecidableEq, Repr

namespace BinaryFormat

def double : BinaryFormat := ⟨53, 11⟩

def single : BinaryFormat := ⟨24, 8⟩

/-- Exponent of the unit of the subnormal numbers. -/
def minExponent (f : BinaryFormat) : Int :=
  3 - Nat.pow 2 (f.exponentBits - 1) - f.precision

/-- Weight of the lowest bit of the exponent field. -/
def hiddenBit (f : BinaryFormat) : Nat := Nat.pow 2 (f.precision - 1)

/-- The bits of positive infinity. -/
def infinityBits (f : BinaryFormat) : Nat := (Nat.pow 2 f.exponentBits - 1) * f.hiddenBit

def signBit (f : BinaryFormat) : Nat := Nat.pow 2 f.exponentBits * f.hiddenBit

def decode (f : BinaryFormat) (bits : Nat) : Datum :=
  let negative := decide (f.signBit ≤ bits)
  let magnitude := bits % f.signBit
  if f.infinityBits < magnitude then .notANumber
  else if magnitude = f.infinityBits then .infinite negative
  else
    let field := magnitude / f.hiddenBit
    let fraction := magnitude % f.hiddenBit
    if field = 0 then .finite negative fraction f.minExponent
    else .finite negative (f.hiddenBit + fraction) (f.minExponent + (field - 1 : Nat))

/-- The quotient to the nearest natural number, a half to the even neighbour. -/
def roundDiv (num den : Nat) : Nat :=
  let q := num / den
  let twice := 2 * (num % den)
  if twice < den then q else if den < twice then q + 1 else q + q % 2

/-- The larger exponent `e` of the two near the size of the quotient with `2 ^ e ≤ num / den`. -/
def ratioLog (num den : Nat) : Int :=
  let e : Int := (num.log2 : Int) - den.log2
  let fits := if 0 ≤ e then den * Nat.pow 2 e.toNat ≤ num else den ≤ num * Nat.pow 2 (-e).toNat
  if fits then e else e - 1

/-- The bits of the number nearest to `num / den`, a half to the even neighbour; past the largest
finite number that is infinity. -/
def nearestRatio (f : BinaryFormat) (num den : Nat) : Nat :=
  if num = 0 then 0
  else
    let unit := max (ratioLog num den - (f.precision - 1 : Nat)) f.minExponent
    let significand :=
      if 0 ≤ unit then roundDiv num (den * Nat.pow 2 unit.toNat)
      else roundDiv (num * Nat.pow 2 (-unit).toNat) den
    let bits := (unit - f.minExponent).toNat * f.hiddenBit + significand
    min bits f.infinityBits

/-- The bits of the number nearest to `digits * 10 ^ exponent`. Exponents so far out that the answer
is zero or infinity are settled before any power is computed. -/
def nearestDecimal (f : BinaryFormat) (digits : Nat) (exponent : Int) : Nat :=
  if digits = 0 then 0
  else
    let bound : Int := Nat.pow 2 f.exponentBits
    let size : Int := exponent + (digits.log2 * 30103 / 100000 : Nat)
    if bound < size then f.infinityBits
    else if size < -bound then 0
    else if 0 ≤ exponent then f.nearestRatio (digits * Nat.pow 10 exponent.toNat) 1
    else f.nearestRatio digits (Nat.pow 10 (-exponent).toNat)

end BinaryFormat

/-- The double nearest to a decimal number. -/
def nearestFloat (negative : Bool) (digits : Nat) (exponent : Int) : Float :=
  let bits := BinaryFormat.double.nearestDecimal digits exponent
  Float.ofBits (UInt64.ofNat (if negative then BinaryFormat.double.signBit + bits else bits))

end PassTuner
