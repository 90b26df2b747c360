import PassTuner.Json.Value

/-!
# Observations

What a measurement says about a variant: a row of integer features, 64 bits each. The row's length
must be the same for all programs of a training run, because it is the input width of the network.
-/

namespace PassTuner

/-- The integer features of a measurement. -/
abbrev Observation := List Int

namespace Observation

/-- One feature on a logarithmic scale, its sign kept. -/
def squash (x : Int) : Float32 :=
  let magnitude := Float.log (1 + Float.ofNat x.natAbs)
  (if x < 0 then -magnitude else magnitude).toFloat32

/-- What the network sees of an observation. -/
def inputs (o : Observation) : List Float32 := o.map squash

@[simp] theorem inputs_length (o : Observation) : o.inputs.length = o.length := by simp [inputs]

/-- An integer clamped to 64 bits. -/
def clamp (n : Int) : Int := max Int64.minValue.toInt (min n Int64.maxValue.toInt)

/-- The whole part of a number as a feature: toward zero, and clamped to 64 bits. What is not a
number counts as zero. -/
def feature (x : Float) : Int :=
  match BinaryFormat.double.decode x.toBits.toNat with
  | .notANumber => 0
  | .infinite negative => if negative then Int64.minValue.toInt else Int64.maxValue.toInt
  | .finite negative significand exponent =>
    let whole : Nat :=
      significand * Nat.pow 2 exponent.toNat / Nat.pow 2 (-exponent).toNat
    clamp (if negative then -whole else whole)

def toJson (o : Observation) : Json := .array (o.map Json.ofInt)

def ofJson? : Json → Option Observation :=
  Json.list? (Json.int? Int64.minValue.toInt Int64.maxValue.toInt)

end Observation

end PassTuner
