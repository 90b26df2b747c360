/-!
# Approximators

What training needs to know of a function from inputs to one score an action. An approximator says
itself where it is defined: `predict?` and `fit?` answer nothing outside their domain.
-/

namespace PassTuner

/-- A regression target: the score of one action for an input. -/
structure FitSample where
  input : List Float32
  action : Nat
  target : Float32

class Approximator (Q : Type) where
  inputDim : Q → Nat
  outputDim : Q → Nat
  /-- A score for every action. -/
  predict? : Q → List Float32 → Option (List Float32)
  /-- One optimizer step on a batch, each gradient element clamped; also the loss before it. -/
  fit? : Q → List FitSample → (gradClip : Float32) → Option (Float32 × Q)
  /-- All parameters in a fixed order. -/
  parameters : Q → List Float32
  setTraining : Bool → Q → Q
  isTraining : Q → Bool

/-- Scores that do not depend on the input, and the last batch they were to be fitted to. -/
structure ConstantScores where
  inputDim : Nat
  scores : List Float32
  lastBatch : List FitSample := []
  training : Bool := true

instance : Approximator ConstantScores where
  inputDim q := q.inputDim
  outputDim q := q.scores.length
  predict? q _ := some q.scores
  fit? q batch _ := some (Float32.ofNat batch.length, { q with lastBatch := batch })
  parameters q := q.scores
  setTraining training q := { q with training }
  isTraining q := q.training

/-- An approximator of one of two kinds. -/
instance [Approximator Q] [Approximator R] : Approximator (Q ⊕ R) where
  inputDim := Sum.elim Approximator.inputDim Approximator.inputDim
  outputDim := Sum.elim Approximator.outputDim Approximator.outputDim
  predict? := Sum.elim Approximator.predict? Approximator.predict?
  fit?
    | .inl q, batch, clip => (Approximator.fit? q batch clip).map fun (loss, q) => (loss, .inl q)
    | .inr q, batch, clip => (Approximator.fit? q batch clip).map fun (loss, q) => (loss, .inr q)
  parameters := Sum.elim Approximator.parameters Approximator.parameters
  setTraining training :=
    Sum.map (Approximator.setTraining training) (Approximator.setTraining training)
  isTraining := Sum.elim Approximator.isTraining Approximator.isTraining

end PassTuner
