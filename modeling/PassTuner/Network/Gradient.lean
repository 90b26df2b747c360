import PassTuner.Network.Basic

/-!
# Gradients

The gradient of the mean squared error over a batch. A sample goes forward through the layers and
its error comes back through them; every neuron's gradient is its signal times its inputs, and its
weights hand the signal on to the layer before. Contributions are added up sample by sample.
-/

namespace PassTuner

structure NeuronGradient where
  weights : List Float32
  bias : Float32

/-- Gradients of the neurons of each layer. -/
abbrev Gradient := List (List NeuronGradient)

namespace Gradient

def zero (layers : List Layer) : Gradient :=
  layers.map fun l => l.neurons.map fun n => ⟨n.weights.map fun _ => 0, 0⟩

/-- A row with a multiple of another added to as much of it as the other is long. -/
def addScaled (g : Float32) : List Float32 → List Float32 → List Float32
  | w :: ws, x :: xs => (w + g * x) :: addScaled g ws xs
  | ws, _ => ws

@[simp] theorem length_addScaled (g : Float32) (ws xs : List Float32) :
    (addScaled g ws xs).length = ws.length := by
  fun_induction addScaled g ws xs <;> simp_all

/-- The gradients of a layer with one sample's signals added. -/
def addSignals (input signals : List Float32) (grads : List NeuronGradient) : List NeuronGradient :=
  List.zipWith (fun n g => ⟨addScaled g n.weights input, n.bias + g⟩) grads signals

/-- What a layer hands on of its signals, one number an input. -/
def handOn (l : Layer) (signals : List Float32) : List Float32 :=
  (l.neurons.zip signals).foldl (fun sums (n, g) => addScaled g sums (n.weights.map (·.value)))
    (List.replicate l.inputs 0)

/-- How far one sample's score is off, scaled, and the signal at the output: nothing but the score
of the sample's action counts. -/
def outputSignal? (sample : FitSample) (scale : Float32) (output : List Float32) :
    Option (Float32 × List Float32) :=
  (output[sample.action]?).map fun score =>
    let error := score - sample.target
    let silent : List Float32 := output.map fun _ => 0
    (error * error * scale, silent.set sample.action (2 * error * scale))

/-- One sample through layers that follow one another: its share of the loss, the gradients with its
contributions, and the signal at the input. -/
def addSample? (sample : FitSample) (scale : Float32) :
    List Layer → Gradient → List Float32 → Option (Float32 × Gradient × List Float32)
  | l :: layers, grads :: rest, input => do
    let z := l.affine input
    let (loss, rest, signal) ← addSample? sample scale layers rest (z.map rectify)
    let signals := List.zipWith (fun d z => d * rectifySlope z) signal z
    return (loss, addSignals input signals grads :: rest, handOn l signals)
  | _, grads, output => do
    let (loss, signal) ← outputSignal? sample scale output
    return (loss, grads, signal)

/-- Loss and gradient over a batch. -/
def ofBatch? (layers : List Layer) (batch : List FitSample) : Option (Float32 × Gradient) :=
  let scale : Float32 := 1 / Float32.ofNat batch.length
  batch.foldlM (fun (loss, grads) sample => do
      let (more, grads, _) ← addSample? sample scale layers grads sample.input
      return (loss + more, grads))
    (0, zero layers)

def clampElement (limit g : Float32) : Float32 :=
  if g < -limit then -limit else if limit < g then limit else g

/-- Every element clamped, which needs a limit that is a number and not negative. -/
def clamp? (limit : Float32) (grads : Gradient) : Option Gradient :=
  if -limit ≤ limit then
    some (grads.map fun layer => layer.map fun n =>
      ⟨n.weights.map (clampElement limit), clampElement limit n.bias⟩)
  else none

end Gradient

end PassTuner
