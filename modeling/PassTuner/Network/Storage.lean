import PassTuner.Network.Adam
import PassTuner.Training.Error
import PassTuner.Json.Record
import PassTuner.Json.Writer

/-!
# Keeping a network in a file

A network's file holds everything but its mode, so that a saved network can be trained further; its
name says its widths. A file whose rows do not have the lengths that the widths ask for is refused.
-/

namespace PassTuner

/-- A layer as its file has it: the neurons' rows one behind the other. -/
structure LayerRows where
  inputs : Nat
  outputs : Nat
  weights : List Float32
  bias : List Float32
  weightMoments : List Float32
  weightSquares : List Float32
  biasMoments : List Float32
  biasSquares : List Float32

namespace LayerRows

def ofLayer (l : Layer) : LayerRows where
  inputs := l.inputs
  outputs := l.outputs
  weights := l.neurons.flatMap fun n => n.weights.map (·.value)
  bias := l.neurons.map (·.bias.value)
  weightMoments := l.neurons.flatMap fun n => n.weights.map (·.moment)
  weightSquares := l.neurons.flatMap fun n => n.weights.map (·.square)
  biasMoments := l.neurons.map (·.bias.moment)
  biasSquares := l.neurons.map (·.bias.square)

/-- Whether the rows are those of a layer with the given widths. -/
def fits (r : LayerRows) (inputs outputs : Nat) : Bool :=
  r.inputs == inputs && r.outputs == outputs && r.weights.length == inputs * outputs &&
    r.bias.length == outputs && r.weightMoments.length == r.weights.length &&
    r.weightSquares.length == r.weights.length && r.biasMoments.length == r.bias.length &&
    r.biasSquares.length == r.bias.length

/-- Parameters out of their three rows. -/
def parameters (values moments squares : List Float32) : List Parameter :=
  List.zipWith (fun value (moment, square) => ⟨value, moment, square⟩) values (moments.zip squares)

def toLayer (r : LayerRows) : Layer where
  inputs := r.inputs
  neurons := Layer.neuronsOf r.inputs (parameters r.weights r.weightMoments r.weightSquares)
    (parameters r.bias r.biasMoments r.biasSquares)

def row (xs : List Float32) : Json := .array (xs.map Json.ofFloat32)

def toJson (r : LayerRows) : Json :=
  .ofFields [("inputs", .ofNat r.inputs), ("outputs", .ofNat r.outputs), ("weights", row r.weights),
    ("bias", row r.bias), ("m_weights", row r.weightMoments), ("v_weights", row r.weightSquares),
    ("m_bias", row r.biasMoments), ("v_bias", row r.biasSquares)]

def ofJson? (j : Json) : Option LayerRows := do
  let r ←
    j.record? ["inputs", "outputs", "weights", "bias", "m_weights", "v_weights", "m_bias", "v_bias"]
  let readRow (name : String) := r.required name (Json.list? Json.float32?)
  return {
    inputs := ← r.required "inputs" (Json.nat? 64)
    outputs := ← r.required "outputs" (Json.nat? 64)
    weights := ← readRow "weights"
    bias := ← readRow "bias"
    weightMoments := ← readRow "m_weights"
    weightSquares := ← readRow "v_weights"
    biasMoments := ← readRow "m_bias"
    biasSquares := ← readRow "v_bias" }

end LayerRows

namespace Network

def toJson (n : Network) : Json :=
  .ofFields [("layers", .array (n.layers.map fun l => (LayerRows.ofLayer l).toJson)),
    ("learning_rate", .ofFloat32 n.learningRate), ("steps", .ofNat n.steps.toNat)]

/-- What a file says of a network. -/
structure Stored where
  layers : List LayerRows
  learningRate : Float32
  steps : UInt32

def storedOfJson? (j : Json) : Option Stored := do
  let r ← j.record? ["layers", "learning_rate", "steps"]
  return {
    layers := ← r.required "layers" (Json.list? LayerRows.ofJson?)
    learningRate := ← r.required "learning_rate" Json.float32?
    steps := UInt32.ofNat (← r.required "steps" (Json.nat? 32)) }

/-- Whether rows are those of layers with widths that follow one another. -/
def rowsFit : List LayerRows → List Nat → Bool
  | r :: rows, inputs :: outputs :: rest => r.fits inputs outputs && rowsFit rows (outputs :: rest)
  | [], [_] => true
  | _, _ => false

def Stored.toNetwork (s : Stored) : Network where
  layers := s.layers.map LayerRows.toLayer
  learningRate := s.learningRate
  steps := s.steps
  training := true

def path (directory : String) (inputs outputs : Nat) : String :=
  Path.join directory s!"{inputs}_{outputs}.model.json"

/-- Writes a network to its file, in a directory that is made if need be, and answers the path. -/
def save (n : Network) (directory : String) : EStateM TrainingError Disk String := do
  let path := path directory n.inputs n.outputs
  match (← get).makeDirectories directory with
  | .error e => throw (.model path (.disk e))
  | .ok d =>
    set d
    match d.writeText path n.toJson.compact with
    | .error e => throw (.model path (.disk e))
    | .ok d =>
      set d
      return path

/-- The network in the file for two widths. -/
def load (d : Disk) (directory : String) (inputs outputs : Nat) : Except TrainingError Network :=
  let path := path directory inputs outputs
  match d.readText path with
  | .error e => .error (.model path (.disk e))
  | .ok text =>
    match Json.parseAs storedOfJson? text with
    | .error e => .error (.model path (.malformed e))
    | .ok stored =>
      if rowsFit stored.layers (sizes inputs outputs) then .ok stored.toNetwork
      else .error (.model path (.shape (sizes inputs outputs)))

end Network

end PassTuner
