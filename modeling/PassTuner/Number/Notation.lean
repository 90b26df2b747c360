import PassTuner.Number.Shortest

/-!
# How a decimal is written

One record says everything about a written form: for which sizes it is positional, whether a whole
number keeps a point, and how ties between two shortest decimals go. Three such records are in use.
-/

namespace PassTuner

/-- The decisions of a written form. A number is written positionally when the exponent of its first
digit lies in `positional`, and as `d.ddde±x` otherwise. -/
structure Notation where
  /-- Exponents of the first digit for which the form is positional: from, and below. -/
  positional : Option (Int × Int)
  /-- Whether a whole positional number ends in `.0`. -/
  wholePoint : Bool
  tie : Tie

namespace Notation

/-- Numbers in messages: always positional, whole numbers without a point. -/
def message : Notation := ⟨none, false, .up⟩

/-- Doubles in JSON: positional from `0.00001` to below `10 ^ 16`. -/
def jsonDouble : Notation := ⟨some (-5, 16), true, .toEven⟩

/-- Single-precision numbers in JSON: positional from `0.000001` to below `10 ^ 13`. -/
def jsonSingle : Notation := ⟨some (-6, 13), true, .toEven⟩

def digitsOf (n : Nat) : List Char := (Nat.repr n).toList

def zeros (n : Nat) : List Char := List.replicate n '0'

/-- A decimal number without an exponent mark. -/
def positionalForm (wholePoint : Bool) (d : Decimal) : List Char :=
  let digits := digitsOf d.digits
  if 0 ≤ d.exponent then
    digits ++ (if d.digits = 0 then [] else zeros d.exponent.toNat) ++
      (if wholePoint then ['.', '0'] else [])
  else
    let places := (-d.exponent).toNat
    let padded := zeros (places + 1 - digits.length) ++ digits
    padded.take (padded.length - places) ++ '.' :: padded.drop (padded.length - places)

/-- One digit, the others behind a point, and the exponent of the first digit with its sign. -/
def exponentForm (d : Decimal) : List Char :=
  let digits := digitsOf d.digits
  let exponent := d.exponent + (digits.length - 1 : Nat)
  digits.take 1 ++ (if digits.length = 1 then [] else '.' :: digits.drop 1) ++
    'e' :: (if exponent < 0 then '-' else '+') :: digitsOf exponent.natAbs

def isPositional (n : Notation) (d : Decimal) : Bool :=
  match n.positional with
  | none => true
  | some (low, high) =>
    let first := d.exponent + ((digitsOf d.digits).length - 1 : Nat)
    d.digits == 0 || (low ≤ first && first < high)

/-- The written form of `significand * 2 ^ exponent`. -/
def render (n : Notation) (f : BinaryFormat) (negative : Bool) (significand : Nat)
    (exponent : Int) : List Char :=
  let d := f.shortest n.tie significand exponent
  (if negative then ['-'] else []) ++
    if n.isPositional d then positionalForm n.wholePoint d else exponentForm d

end Notation

/-- A double as messages show it. -/
def floatText (x : Float) : String :=
  match BinaryFormat.double.decode x.toBits.toNat with
  | .notANumber => "NaN"
  | .infinite negative => if negative then "-inf" else "inf"
  | .finite negative m e => String.ofList (Notation.message.render .double negative m e)

/-- A double as a JSON number; there is none for infinities and for what is not a number. -/
def doubleLiteral? (x : Float) : Option String :=
  match BinaryFormat.double.decode x.toBits.toNat with
  | .finite negative m e => some (String.ofList (Notation.jsonDouble.render .double negative m e))
  | _ => none

/-- A single-precision number as a JSON number. -/
def singleLiteral? (x : Float32) : Option String :=
  match BinaryFormat.single.decode x.toBits.toNat with
  | .finite negative m e => some (String.ofList (Notation.jsonSingle.render .single negative m e))
  | _ => none

end PassTuner
