import PassTuner.Training.Approximator
import PassTuner.Catalog.Basic

/-!
# Exploring and exploiting

With probability epsilon an action is chosen at random, else the one with the best score. Every
selection, of either kind, takes something off epsilon until it is at its floor.
-/

namespace PassTuner

/-- The best position so far, and the scores from position `i` on. -/
def argmaxFrom (best : Option (Nat × Float32)) (i : Nat) : List Float32 → Option (Nat × Float32)
  | [] => best
  | s :: rest =>
    let keeps := s.isNaN || best.any fun (_, b) => s ≤ b
    argmaxFrom (if keeps then best else some (i, s)) (i + 1) rest

/-- The position of the largest score; the first of equal ones, and none that is not a number. -/
def argmax (scores : List Float32) : Option Nat := (argmaxFrom none 0 scores).map (·.1)

/-- The exploration schedule. -/
structure Exploration where
  epsilon : Float
  floor : Float
  decay : Float

namespace Exploration

/-- The schedule after one more selection. -/
def decayOnce (e : Exploration) : Exploration :=
  if e.floor < e.epsilon then
    let next := e.epsilon - e.decay
    { e with epsilon := if next < e.floor || next.isNaN then e.floor else next }
  else e

end Exploration

/-- A schedule with the random numbers it draws on. -/
structure Explorer where
  schedule : Exploration
  rng : Rng

namespace Explorer

/-- An action for an input; none if the approximator has no scores for it. -/
def select? [Approximator Q] (x : Explorer) (q : Q) (catalog : Catalog) (input : List Float32) :
    Option (ActionId × Explorer) :=
  let chance := x.rng.unit
  let random (r : Rng) : ActionId × Explorer :=
    let drawn := catalog.sample r
    (drawn.1, ⟨x.schedule.decayOnce, drawn.2⟩)
  if chance.1 < x.schedule.epsilon then some (random chance.2)
  else
    (Approximator.predict? q input).map fun scores =>
      match argmax scores with
      | some i => (UInt16.ofNat i, ⟨x.schedule.decayOnce, chance.2⟩)
      | none => random chance.2

end Explorer

end PassTuner
