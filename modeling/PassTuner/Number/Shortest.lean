import PassTuner.Number.Binary

/-!
# Shortest decimals

The decimal with the fewest digits that reads back as a given binary number, and of those the
nearest one. A number reads back exactly on the interval around it whose ends lie half way to its
neighbours; the ends belong to it when its significand is even. If a point of the grid `10 ^ k * ℕ`
lies in the interval, one of the two grid points next to the number does, so two candidates a grid
are enough.
-/

namespace PassTuner

/-- The decimal number `digits * 10 ^ exponent`. -/
structure Decimal where
  digits : Nat
  exponent : Int
  deriving DecidableEq, Repr

/-- Which of two equally near decimals of one length is chosen. -/
inductive Tie where
  | toEven
  | up
  deriving DecidableEq, Repr

namespace Shortest

/-- `n * 2 ^ e * 10 ^ k`, as a pair of naturals to be read as a quotient. -/
def scaled (n : Nat) (e k : Int) : Nat × Nat :=
  (n * Nat.pow 2 e.toNat * Nat.pow 10 k.toNat, Nat.pow 2 (-e).toNat * Nat.pow 10 (-k).toNat)

/-- The interval of the numbers that round to `middle`, all three in quarters of a unit of the last
place, together with that unit's exponent less two. -/
structure Interval where
  low : Nat
  middle : Nat
  high : Nat
  exponent : Int
  closed : Bool
  deriving Repr

/-- A power of two has its lower neighbour half as far away, unless that is subnormal. -/
def interval (f : BinaryFormat) (significand : Nat) (exponent : Int) : Interval :=
  let narrow := significand == f.hiddenBit && f.minExponent < exponent
  { low := 4 * significand - (if narrow then 1 else 2)
    middle := 4 * significand
    high := 4 * significand + 2
    exponent := exponent - 2
    closed := significand % 2 == 0 }

/-- Whether `c * 10 ^ k` lies in the interval. -/
def Interval.holds (i : Interval) (c : Nat) (k : Int) : Bool :=
  let (point, den) := scaled c (-i.exponent) k
  let low := i.low * den
  let high := i.high * den
  if i.closed then low ≤ point && point ≤ high else low < point && point < high

/-- The nearer of the two points of the grid `10 ^ k` next to the middle, if one is in the interval.
-/
def Interval.onGrid? (i : Interval) (tie : Tie) (k : Int) : Option Nat :=
  let (num, den) := scaled i.middle i.exponent (-k)
  let c := num / den
  match i.holds c k && c != 0, i.holds (c + 1) k with
  | false, false => none
  | true, false => some c
  | false, true => some (c + 1)
  | true, true =>
    let twice := 2 * (num % den)
    if twice < den then some c
    else if den < twice then some (c + 1)
    else match tie with
      | .toEven => some (c + c % 2)
      | .up => some (c + 1)

/-- The least exponent `e` near the estimate with `middle < 10 ^ e`. -/
def Interval.magnitude (i : Interval) : Int :=
  let estimate : Int := ((i.middle.log2 : Int) + i.exponent) * 30103 / 100000 - 1
  estimate + ((List.range 4).filter fun (n : Nat) =>
    let (num, den) := scaled i.middle i.exponent (-(estimate + n))
    decide (den ≤ num)).length

/-- A decimal without trailing zeros in its digits; the fuel is a bound on their number. -/
def stripZeros : Nat → Decimal → Decimal
  | 0, d => d
  | fuel + 1, d =>
    if d.digits ≠ 0 ∧ d.digits % 10 = 0 then stripZeros fuel ⟨d.digits / 10, d.exponent + 1⟩ else d

end Shortest

/-- The shortest decimal that reads back as `significand * 2 ^ exponent`; of several the nearest. -/
def BinaryFormat.shortest (f : BinaryFormat) (tie : Tie) (significand : Nat) (exponent : Int) :
    Decimal :=
  if significand = 0 then ⟨0, 0⟩
  else
    let i := Shortest.interval f significand exponent
    let top := i.magnitude
    let found := (List.range 17).findSome? fun n =>
      let exponent := top - (n + 1 : Nat)
      (i.onGrid? tie exponent).map fun c => Shortest.stripZeros 17 ⟨c, exponent⟩
    found.getD ⟨0, 0⟩

end PassTuner
