import PassTuner.Number.Notation

/-!
# Costs

A cost is a time, so it has to be finite and positive. The reward of a change is the logarithm of
the quotient of the costs, as a difference of logarithms: exchanging the costs then changes its sign
and nothing else.
-/

namespace PassTuner

/-- Two costs of which one is none. -/
structure InvalidCost where
  before : Float
  after : Float

def InvalidCost.message (e : InvalidCost) : String :=
  s!"invalid execution cost: before={floatText e.before}, after={floatText e.after}"

namespace Cost

def isValid (cost : Float) : Bool := cost.isFinite && 0 < cost

/-- A comparison of two costs, if both are costs. -/
def compare (f : Float → Float → Float) (before after : Float) : Except InvalidCost Float :=
  if isValid before && isValid after then .ok (f before after) else .error ⟨before, after⟩

/-- Positive when the cost went down. -/
def reward : Float → Float → Except InvalidCost Float :=
  compare fun before after => before.log - after.log

/-- How many times faster. -/
def speedup : Float → Float → Except InvalidCost Float :=
  compare fun before after => before / after

end Cost

end PassTuner
