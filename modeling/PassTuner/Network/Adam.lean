import PassTuner.Network.Gradient

/-!
# The optimizer

Adam: every parameter moves against the moving average of its gradient, divided by the root of the
moving average of its square. Both averages start at zero, which is made up for by a correction that
depends on the number of steps. The step counter has 32 bits, and a step that would overflow it is
not defined.
-/

namespace PassTuner

namespace Adam

def momentDecay : Float32 := 0.9

def squareDecay : Float32 := 0.999

def smallest : Float32 := 1e-8

/-- Powers by repeated squaring, lowest bit first. -/
def powNat (result base : Float32) (exponent : Nat) : Float32 :=
  let result := if exponent % 2 = 1 then result * base else result
  if h : exponent / 2 = 0 then result else powNat result (base * base) (exponent / 2)
termination_by exponent
decreasing_by omega

def pow (base : Float32) (exponent : Int) : Float32 :=
  let p := powNat 1 base exponent.natAbs
  if exponent < 0 then 1 / p else p

/-- The exponent of a correction: the step counter read as a signed word. -/
def exponent (steps : UInt32) : Int := steps.toInt32.toInt

/-- What one step has for all parameters. -/
structure Step where
  learningRate : Float32
  momentCorrection : Float32
  squareCorrection : Float32

def Step.ofCount (learningRate : Float32) (steps : UInt32) : Step :=
  ⟨learningRate, 1 - pow momentDecay (exponent steps), 1 - pow squareDecay (exponent steps)⟩

def Step.apply (s : Step) (p : Parameter) (g : Float32) : Parameter :=
  let moment := momentDecay * p.moment + (1 - momentDecay) * g
  let square := squareDecay * p.square + (1 - squareDecay) * g * g
  let direction := s.learningRate * (moment / s.momentCorrection)
  let size := (square / s.squareCorrection).sqrt + smallest
  { value := p.value - direction / size, moment, square }

def Step.applyLayer (s : Step) (l : Layer) (grads : List NeuronGradient) : Layer :=
  { l with neurons := List.zipWith (fun n g =>
      ⟨List.zipWith s.apply n.weights g.weights, s.apply n.bias g.bias⟩) l.neurons grads }

end Adam

namespace Network

/-- The network after one optimizer step. -/
def adamStep? (n : Network) (grads : Gradient) : Option Network :=
  if n.steps.toNat + 1 = UInt32.size then none
  else
    let step := Adam.Step.ofCount n.learningRate (n.steps + 1)
    some { n with layers := List.zipWith step.applyLayer n.layers grads, steps := n.steps + 1 }

/-- One optimizer step on a batch and the loss before it; an empty batch changes nothing. -/
def fit? (n : Network) (batch : List FitSample) (gradClip : Float32) : Option (Float32 × Network) :=
  if batch.isEmpty then some (0, n)
  else do
    let (loss, grads) ← Gradient.ofBatch? n.layers batch
    let n ← n.adamStep? (← Gradient.clamp? gradClip grads)
    return (loss, n)

instance : Approximator Network where
  inputDim := inputs
  outputDim := outputs
  predict? := predict?
  fit? := fit?
  parameters := parameters
  setTraining training n := { n with training }
  isTraining := training

end Network

end PassTuner
