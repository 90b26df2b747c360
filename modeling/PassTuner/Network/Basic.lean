import PassTuner.Training.Approximator
import PassTuner.Random.Draw

/-!
# Dense networks

Layers of neurons with leaky rectifiers, in single precision. Every parameter carries the two
moments that the optimizer keeps for it. A layer is well formed when every neuron has a weight for
every input; a network is when its layers have given widths.
-/

namespace PassTuner

/-- A parameter with its moving averages of gradient and squared gradient. -/
structure Parameter where
  value : Float32
  moment : Float32 := 0
  square : Float32 := 0

structure Neuron where
  weights : List Parameter
  bias : Parameter

structure Layer where
  inputs : Nat
  neurons : List Neuron

structure Network where
  layers : List Layer
  learningRate : Float32
  /-- Optimizer steps so far. -/
  steps : UInt32
  training : Bool

/-- Below zero, how much of a signal gets through. -/
def leak : Float32 := 0.01

def rectify (x : Float32) : Float32 := if 0 < x then x else leak * x

def rectifySlope (x : Float32) : Float32 := if 0 < x then 1 else leak

namespace Neuron

/-- The weighted sum of an input and the bias. The products are summed from the left, starting at
negative zero; inputs without a weight are passed over, and so are weights without an input. -/
def affine (n : Neuron) (input : List Float32) : Float32 :=
  n.bias.value + (List.zipWith (fun p x => p.value * x) n.weights input).foldl (· + ·) (-0.0)

end Neuron

namespace Layer

def outputs (l : Layer) : Nat := l.neurons.length

def affine (l : Layer) (input : List Float32) : List Float32 := l.neurons.map (·.affine input)

/-- Whether the layer has these widths, every neuron having a weight for every input. -/
def HasWidths (l : Layer) (inputs outputs : Nat) : Prop :=
  l.inputs = inputs ∧ l.neurons.length = outputs ∧ ∀ n ∈ l.neurons, n.weights.length = inputs

/-- A row cut into rows of one width, as many as there are biases, each with its bias. -/
def neuronsOf (width : Nat) : List Parameter → List Parameter → List Neuron
  | _, [] => []
  | weights, bias :: biases =>
    ⟨weights.take width, bias⟩ :: neuronsOf width (weights.drop width) biases

theorem length_neuronsOf (width : Nat) (weights biases : List Parameter) :
    (neuronsOf width weights biases).length = biases.length := by
  induction biases generalizing weights with
  | nil => simp [neuronsOf]
  | cons b biases ih => simp [neuronsOf, ih]

theorem length_weights_neuronsOf {width : Nat} {weights biases : List Parameter}
    (h : width * biases.length ≤ weights.length) :
    ∀ n ∈ neuronsOf width weights biases, n.weights.length = width := by
  induction biases generalizing weights with
  | nil => simp [neuronsOf]
  | cons b biases ih =>
    rw [List.length_cons, Nat.mul_succ] at h
    intro n hn
    rw [neuronsOf, List.mem_cons] at hn
    rcases hn with rfl | hn
    · simp only [List.length_take]; omega
    · exact ih (by simp only [List.length_drop]; omega) n hn

/-- A layer with random parameters, weights before biases. -/
def random (inputs outputs : Nat) (r : Rng) : Layer × Rng :=
  let bound : Float32 := 1 / (Float32.ofNat (max inputs 1)).sqrt
  let weights := r.symmetrics bound (inputs * outputs)
  let biases := weights.2.symmetrics bound outputs
  let fresh (value : Float32) : Parameter := { value }
  (⟨inputs, neuronsOf inputs (weights.1.map fresh) (biases.1.map fresh)⟩, biases.2)

theorem hasWidths_random (inputs outputs : Nat) (r : Rng) :
    (random inputs outputs r).1.HasWidths inputs outputs := by
  refine ⟨rfl, ?_, ?_⟩
  · simp [random, length_neuronsOf]
  · exact length_weights_neuronsOf (by simp)

/-- The values of the weights, neuron by neuron, and then of the biases. -/
def values (l : Layer) : List Float32 :=
  (l.neurons.flatMap fun n => n.weights.map (·.value)) ++ l.neurons.map (·.bias.value)

end Layer

namespace Network

/-- Widths from the input to the output: the hidden ones are a half and a quarter of the input's,
but never zero. -/
def sizes (inputs outputs : Nat) : List Nat :=
  [inputs, max (inputs / 2) 1, max (inputs / 4) 1, outputs]

/-- Layers with random parameters between widths that follow one another. -/
def randomLayers : List Nat → Rng → List Layer
  | inputs :: outputs :: rest, r =>
    let made := Layer.random inputs outputs r
    made.1 :: randomLayers (outputs :: rest) made.2
  | _, _ => []

/-- A new network; the same seed gives the same parameters. -/
def new (inputs outputs : Nat) (learningRate : Float32) (seed : UInt64) : Network where
  layers := randomLayers (sizes inputs outputs) (.ofSeed seed)
  learningRate := learningRate
  steps := 0
  training := true

def inputs (n : Network) : Nat := (n.layers.head?.map (·.inputs)).getD 0

def outputs (n : Network) : Nat := (n.layers.getLast?.map Layer.outputs).getD 0

/-- Whether layers have widths that follow one another. -/
def LayersHaveSizes : List Layer → List Nat → Prop
  | l :: layers, inputs :: outputs :: rest =>
    l.HasWidths inputs outputs ∧ LayersHaveSizes layers (outputs :: rest)
  | [], [_] => True
  | _, _ => False

/-- Whether a network has the layers of a network between two widths. -/
def HasShape (n : Network) (inputs outputs : Nat) : Prop :=
  LayersHaveSizes n.layers (sizes inputs outputs)

theorem hasShape_new (inputs outputs : Nat) (learningRate : Float32) (seed : UInt64) :
    (new inputs outputs learningRate seed).HasShape inputs outputs := by
  simp [HasShape, new, sizes, randomLayers, LayersHaveSizes, Layer.hasWidths_random]

/-- What comes out of a row of layers. -/
def forward : List Layer → List Float32 → List Float32
  | [], input => input
  | l :: layers, input => forward layers ((l.affine input).map rectify)

/-- The scores for an input, which must have the width of the network. -/
def predict? (n : Network) (input : List Float32) : Option (List Float32) :=
  if input.length = n.inputs then some (forward n.layers input) else none

def parameters (n : Network) : List Float32 := n.layers.flatMap Layer.values

end Network

end PassTuner
