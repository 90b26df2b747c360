import Mathlib.Data.List.Forall2
import PassTuner.Proofs.Network.Rows

/-!
# A network computed position by position

The same network on its rows alone: every weight is found by its position in its layer's row, every
trace and gradient by the position of its layer, and a position or a part of a row that is not there
stops the computation. Main statement: on rows of the right lengths nothing is ever missing, and
what comes out is what the layers give.
-/

namespace PassTuner

/-- Why a computation by position stops. -/
inductive Fault where
  /-- A place, or a part of a row, that is not there. -/
  | range
  /-- An input of another width than the network's. -/
  | width
  /-- A limit for gradients that is negative or not a number. -/
  | limit
  /-- A step more than the counter can count. -/
  | counter
  deriving DecidableEq, Repr

namespace Row

variable {α β : Type}

def at? (xs : List α) (i : Nat) : Except Fault α :=
  match xs[i]? with
  | some x => .ok x
  | none => .error .range

def put (xs : List α) (i : Nat) (x : α) : Except Fault (List α) :=
  if i < xs.length then .ok (xs.set i x) else .error .range

/-- The part of a row between two positions. -/
def slice (xs : List α) (first last : Nat) : Except Fault (List α) :=
  if first ≤ last ∧ last ≤ xs.length then .ok ((xs.drop first).take (last - first))
  else .error .range

/-- A row with a part of it written over, from some position on. -/
def splice (xs : List α) (first : Nat) (part : List α) : List α :=
  xs.take first ++ part ++ xs.drop (first + part.length)

end Row

open Row

/-! ## The computation -/

/-- The gradient of a layer, in rows. -/
structure GradientRows where
  weights : List Float32
  bias : List Float32

namespace GradientRows

def zero (r : LayerRows) : GradientRows :=
  ⟨List.replicate r.weights.length 0, List.replicate r.bias.length 0⟩

def clamp (limit : Float32) (g : GradientRows) : GradientRows :=
  ⟨g.weights.map (Gradient.clampElement limit), g.bias.map (Gradient.clampElement limit)⟩

end GradientRows

namespace LayerRows

/-- The weights of a neuron. -/
def weightsOf (r : LayerRows) (o : Nat) : Except Fault (List Float32) :=
  slice r.weights (o * r.inputs) ((o + 1) * r.inputs)

/-- The weighted sum of an input and a neuron's bias. -/
def sumOf (r : LayerRows) (input : List Float32) (bias : Float32 × Nat) : Except Fault Float32 := do
  let row ← r.weightsOf bias.2
  return bias.1 + (List.zipWith (· * ·) row input).foldl (· + ·) (-0.0)

def affine (r : LayerRows) (input : List Float32) : Except Fault (List Float32) :=
  r.bias.zipIdx.mapM (r.sumOf input)

/-- A gradient with one signal times the input added, at one neuron. -/
def addSignal (r : LayerRows) (input : List Float32) (grads : GradientRows)
    (signal : Float32 × Nat) :
    Except Fault GradientRows := do
  let bias ← put grads.bias signal.2 ((← at? grads.bias signal.2) + signal.1)
  let row ← slice grads.weights (signal.2 * r.inputs) ((signal.2 + 1) * r.inputs)
  return ⟨splice grads.weights (signal.2 * r.inputs) (Gradient.addScaled signal.1 row input), bias⟩

def addSignals (r : LayerRows) (input signals : List Float32) (grads : GradientRows) :
    Except Fault GradientRows :=
  signals.zipIdx.foldlM (r.addSignal input) grads

/-- What one neuron hands on of its signal, added to what the others did. -/
def handOnSignal (r : LayerRows) (sums : List Float32) (signal : Float32 × Nat) :
    Except Fault (List Float32) := do
  return Gradient.addScaled signal.1 sums (← r.weightsOf signal.2)

def handOn (r : LayerRows) (signals : List Float32) : Except Fault (List Float32) :=
  signals.zipIdx.foldlM r.handOnSignal (List.replicate r.inputs 0)

end LayerRows

/-- What is kept of a way forward: what went into each layer, what it made of it before it was
rectified, and what came out in the end. -/
structure Trace where
  inputs : List (List Float32)
  sums : List (List Float32)
  output : List Float32

namespace Network.Stored

/-- A layer further. -/
def pass (t : Trace) (r : LayerRows) : Except Fault Trace := do
  let z ← r.affine t.output
  return ⟨t.inputs ++ [t.output], t.sums ++ [z], z.map rectify⟩

def forward (rows : List LayerRows) (input : List Float32) : Except Fault Trace :=
  rows.foldlM pass ⟨[], [], input⟩

/-- A layer back: its gradient with a sample's contributions, and the signal for the layer before,
if there is one. -/
def passBack (t : Trace) (state : List GradientRows × List Float32) (layer : LayerRows × Nat) :
    Except Fault (List GradientRows × List Float32) := do
  let (grads, signal) := state
  let (r, l) := layer
  let signals := List.zipWith (fun d z => d * rectifySlope z) signal (← at? t.sums l)
  let input ← at? t.inputs l
  let grads ← put grads l (← r.addSignals input signals (← at? grads l))
  let signal ← if 0 < l then r.handOn signals else pure signal
  return (grads, signal)

/-- One sample there and back. -/
def addSample (rows : List LayerRows) (scale : Float32) (state : Float32 × List GradientRows)
    (sample : FitSample) : Except Fault (Float32 × List GradientRows) := do
  let (loss, grads) := state
  let t ← forward rows sample.input
  let error := (← at? t.output sample.action) - sample.target
  let signal ← put (t.output.map fun _ => 0) sample.action (2 * error * scale)
  let (grads, _) ← rows.zipIdx.reverse.foldlM (passBack t) (grads, signal)
  return (loss + error * error * scale, grads)

def backward (rows : List LayerRows) (batch : List FitSample) (limit : Float32) :
    Except Fault (Float32 × List GradientRows) := do
  let scale : Float32 := 1 / Float32.ofNat batch.length
  let (loss, grads) ← batch.foldlM (addSample rows scale) (0, rows.map .zero)
  if -limit ≤ limit then return (loss, grads.map (.clamp limit))
  else .error .limit

end Network.Stored

namespace Adam.Step

/-- Values, moments and squares after one of them was updated. -/
def applyAt (s : Step) (grads : List Float32)
    (rows : List Float32 × List Float32 × List Float32) (i : Nat) :
    Except Fault (List Float32 × List Float32 × List Float32) := do
  let (values, moments, squares) := rows
  let p := s.apply ⟨← at? values i, ← at? moments i, ← at? squares i⟩ (← at? grads i)
  return (← put values i p.value, ← put moments i p.moment, ← put squares i p.square)

def applyAll (s : Step) (values moments squares grads : List Float32) :
    Except Fault (List Float32 × List Float32 × List Float32) :=
  (List.range values.length).foldlM (s.applyAt grads) (values, moments, squares)

def applyRows (s : Step) (r : LayerRows) (g : GradientRows) : Except Fault LayerRows := do
  let (weights, weightMoments, weightSquares) ←
    s.applyAll r.weights r.weightMoments r.weightSquares g.weights
  let (bias, biasMoments, biasSquares) ← s.applyAll r.bias r.biasMoments r.biasSquares g.bias
  return { r with weights, weightMoments, weightSquares, bias, biasMoments, biasSquares }

/-- Layers and gradients go together as far as there are both. -/
def applyLayers (s : Step) : List LayerRows → List GradientRows → Except Fault (List LayerRows)
  | r :: rows, g :: grads => do return (← s.applyRows r g) :: (← s.applyLayers rows grads)
  | rows, _ => return rows

end Adam.Step

namespace Network.Stored

def inputs (s : Stored) : Nat := (s.layers.head?.map (·.inputs)).getD 0

def outputs (s : Stored) : Nat := (s.layers.getLast?.map (·.outputs)).getD 0

def predict (s : Stored) (input : List Float32) : Except Fault (List Float32) := do
  if input.length = s.inputs then return (← forward s.layers input).output
  else .error .width

def adamStep (s : Stored) (grads : List GradientRows) : Except Fault Stored := do
  if s.steps.toNat + 1 = UInt32.size then .error .counter
  else
    let step := Adam.Step.ofCount s.learningRate (s.steps + 1)
    return { s with layers := ← step.applyLayers s.layers grads, steps := s.steps + 1 }

def fit (s : Stored) (batch : List FitSample) (limit : Float32) :
    Except Fault (Float32 × Stored) := do
  if batch.isEmpty then return (0, s)
  else
    let (loss, grads) ← backward s.layers batch limit
    return (loss, ← s.adamStep grads)

end Network.Stored

/-! ## Positions that are there -/

namespace Row

variable {α β : Type}

theorem at?_append_cons {xs : List α} {i : Nat} (h : i = xs.length) (x : α) (ys : List α) :
    at? (xs ++ x :: ys) i = .ok x := by
  simp [at?, h]

theorem put_append_cons {xs : List α} {i : Nat} (h : i = xs.length) (x y : α) (ys : List α) :
    put (xs ++ x :: ys) i y = .ok (xs ++ y :: ys) := by
  simp [put, h]

theorem slice_append (xs part ys : List α) :
    slice (xs ++ part ++ ys) xs.length (xs.length + part.length) = .ok part := by
  rw [slice, if_pos ⟨Nat.le_add_right .., by simp⟩, List.append_assoc, List.drop_left,
    Nat.add_sub_cancel_left, List.take_left]

theorem splice_append {part part' : List α} (xs ys : List α) (h : part'.length = part.length) :
    splice (xs ++ part ++ ys) xs.length part' = xs ++ part' ++ ys := by
  rw [splice, h, ← List.length_append, List.drop_left, List.append_assoc xs part, List.take_left]

/-- With parts of one width, the parts before some part make up as many times the width. -/
theorem length_flatMap_of_width {f : β → List α} {width : Nat} {xs : List β}
    (h : ∀ x ∈ xs, (f x).length = width) : (xs.flatMap f).length = xs.length * width := by
  rw [List.length_flatMap, List.map_congr_left h, List.map_const', List.sum_replicate_nat]

section Parts

variable {f : β → List α} {width : Nat} {xs ys : List β} {x : β}
  (h : ∀ y ∈ xs ++ x :: ys, (f y).length = width)

include h

theorem length_parts : (xs.flatMap f).length = xs.length * width ∧ (f x).length = width := by
  obtain ⟨before, part⟩ := List.forall_mem_append.1 h
  exact ⟨length_flatMap_of_width before, (List.forall_mem_cons.1 part).1⟩

theorem slice_flatMap : slice ((xs ++ x :: ys).flatMap f) (xs.length * width)
    ((xs.length + 1) * width) = .ok (f x) := by
  obtain ⟨before, part⟩ := length_parts h
  have hslice := slice_append (xs.flatMap f) (f x) (ys.flatMap f)
  rw [before, part, ← Nat.succ_mul] at hslice
  rw [List.flatMap_append, List.flatMap_cons, ← List.append_assoc]
  exact hslice

theorem splice_flatMap {x' : β} (h' : (f x').length = width) :
    splice ((xs ++ x :: ys).flatMap f) (xs.length * width) (f x') = (xs ++ x' :: ys).flatMap f := by
  obtain ⟨before, part⟩ := length_parts h
  have hsplice := splice_append (xs.flatMap f) (ys.flatMap f) (h'.trans part.symm)
  rw [before] at hsplice
  rw [List.flatMap_append, List.flatMap_cons, List.flatMap_append, List.flatMap_cons,
    ← List.append_assoc, ← List.append_assoc]
  exact hsplice

end Parts

end Row

/-! ## A layer -/

/-- The rows of gradients of a layer's neurons. -/
def GradientRows.ofNeurons (grads : List NeuronGradient) : GradientRows :=
  ⟨grads.flatMap (·.weights), grads.map (·.bias)⟩

namespace LayerRows

variable {l : Layer} (widths : ∀ n ∈ l.neurons, n.weights.length = l.inputs)

section Neurons

variable {before after : List Neuron} {n : Neuron}

include widths

theorem weightsOf_ofLayer (h : l.neurons = before ++ n :: after) :
    (ofLayer l).weightsOf before.length = .ok (n.weights.map (·.value)) := by
  change slice (l.neurons.flatMap fun n => n.weights.map (·.value)) (before.length * l.inputs)
    ((before.length + 1) * l.inputs) = _
  rw [h] at widths ⊢
  refine slice_flatMap (f := fun n : Neuron => n.weights.map (·.value)) fun n' hn' => ?_
  rw [List.length_map, widths n' hn']

theorem affine_from (input : List Float32) (h : l.neurons = before ++ after) :
    ((after.map (·.bias.value)).zipIdx before.length).mapM ((ofLayer l).sumOf input) =
      .ok (after.map (·.affine input)) := by
  induction after generalizing before with
  | nil => rfl
  | cons n after ih =>
    have sum : (ofLayer l).sumOf input (n.bias.value, before.length) = .ok (n.affine input) := by
      rw [sumOf, weightsOf_ofLayer widths h, Neuron.affine, ← List.zipWith_map_left]
      rfl
    have others := ih (h.trans (List.append_cons ..))
    rw [List.length_append, List.length_singleton] at others
    rw [List.map_cons, List.zipIdx_cons, List.mapM_cons, sum, others]
    rfl

theorem affine_ofLayer (input : List Float32) :
    (ofLayer l).affine input = .ok (l.affine input) :=
  affine_from widths input (List.nil_append l.neurons).symm

theorem handOn_from (signals : List Float32) (h : l.neurons = before ++ after)
    (few : signals.length ≤ after.length) (sums : List Float32) :
    (signals.zipIdx before.length).foldlM (ofLayer l).handOnSignal sums =
      .ok ((after.zip signals).foldl
        (fun sums (n, g) => Gradient.addScaled g sums (n.weights.map (·.value))) sums) := by
  induction after generalizing before signals sums with
  | nil =>
    rw [List.length_eq_zero_iff.1 (Nat.le_zero.1 few)]
    rfl
  | cons n after ih =>
    cases signals with
    | nil => rfl
    | cons g signals =>
      have others := ih signals (h.trans (List.append_cons ..)) (Nat.le_of_succ_le_succ few)
        (Gradient.addScaled g sums (n.weights.map (·.value)))
      rw [List.length_append, List.length_singleton] at others
      rw [List.zipIdx_cons, List.foldlM_cons, handOnSignal, weightsOf_ofLayer widths h]
      exact others

theorem handOn_ofLayer {signals : List Float32} (few : signals.length ≤ l.neurons.length) :
    (ofLayer l).handOn signals = .ok (Gradient.handOn l signals) :=
  handOn_from widths signals (List.nil_append l.neurons).symm few _

end Neurons

section Gradients

variable {r : LayerRows} {before after : List NeuronGradient}

theorem addSignal_ofNeurons {n : NeuronGradient}
    (widths : ∀ n' ∈ before ++ n :: after, n'.weights.length = r.inputs) (input : List Float32)
    (g : Float32) : r.addSignal input (.ofNeurons (before ++ n :: after)) (g, before.length) =
      .ok (.ofNeurons (before ++ ⟨Gradient.addScaled g n.weights input, n.bias + g⟩ :: after)) := by
  let n' : NeuronGradient := ⟨Gradient.addScaled g n.weights input, n.bias + g⟩
  have place : before.length = (before.map (·.bias)).length := (List.length_map _).symm
  have width : n'.weights.length = r.inputs :=
    (Gradient.length_addScaled ..).trans
      (widths n (List.mem_append_right _ (List.mem_cons_self ..)))
  have part := slice_flatMap (f := NeuronGradient.weights) widths
  have whole := splice_flatMap (f := NeuronGradient.weights) widths width
  simp only [addSignal, GradientRows.ofNeurons, List.map_append, List.map_cons]
  rw [at?_append_cons place, part]
  simp only [bind, Except.bind, put_append_cons place, pure, Except.pure]
  rw [whole]

theorem addSignals_from {signals : List Float32} (input : List Float32)
    (widths : ∀ n ∈ before ++ after, n.weights.length = r.inputs)
    (count : after.length = signals.length) :
    (signals.zipIdx before.length).foldlM (r.addSignal input) (.ofNeurons (before ++ after)) =
      .ok (.ofNeurons (before ++ Gradient.addSignals input signals after)) := by
  induction after generalizing before signals with
  | nil =>
    rw [List.length_eq_zero_iff.1 count.symm]
    rfl
  | cons n after ih =>
    cases signals with
    | nil => cases count
    | cons g signals =>
      let n' : NeuronGradient := ⟨Gradient.addScaled g n.weights input, n.bias + g⟩
      have same : n'.weights.length = n.weights.length := Gradient.length_addScaled ..
      have widths' : ∀ m ∈ (before ++ [n']) ++ after, m.weights.length = r.inputs := by
        simp only [List.forall_mem_append, List.forall_mem_cons] at widths ⊢
        exact ⟨⟨widths.1, same.trans widths.2.1, nofun⟩, widths.2.2⟩
      have others := ih widths' (Nat.succ.inj count)
      rw [List.length_append, List.length_singleton] at others
      rw [List.zipIdx_cons, List.foldlM_cons, addSignal_ofNeurons widths]
      rw [List.append_assoc, List.append_assoc] at others
      exact others

end Gradients

theorem addSignals_ofNeurons {r : LayerRows} {grads : List NeuronGradient} {signals : List Float32}
    (input : List Float32) (widths : ∀ n ∈ grads, n.weights.length = r.inputs)
    (count : grads.length = signals.length) :
    r.addSignals input signals (.ofNeurons grads) =
      .ok (.ofNeurons (Gradient.addSignals input signals grads)) :=
  @addSignals_from r [] grads signals input widths count

end LayerRows

/-! ## Layers that follow one another -/

namespace Network

/-- What goes into each layer. -/
def inputsOf : List Layer → List Float32 → List (List Float32)
  | [], _ => []
  | l :: layers, input => input :: inputsOf layers ((l.affine input).map rectify)

/-- What each layer makes of it, before it is rectified. -/
def sumsOf : List Layer → List Float32 → List (List Float32)
  | [], _ => []
  | l :: layers, input => l.affine input :: sumsOf layers ((l.affine input).map rectify)

/-- Whether gradients have a row for every neuron, and in it a place for every weight. -/
def Fits : List Layer → Gradient → Prop :=
  List.Forall₂ fun l grads =>
    grads.length = l.neurons.length ∧ ∀ n ∈ grads, n.weights.length = l.inputs

theorem fits_zero {layers : List Layer} {sizes : List Nat} (h : LayersHaveSizes layers sizes) :
    Fits layers (Gradient.zero layers) := by
  fun_induction LayersHaveSizes layers sizes with
  | case1 l layers inputs outputs rest ih =>
    obtain ⟨hinputs, -, widths⟩ := h.1
    refine .cons ⟨List.length_map _, ?_⟩ (ih h.2)
    intro n hn
    obtain ⟨n', hn', rfl⟩ := List.mem_map.1 hn
    exact (List.length_map _).trans ((widths n' hn').trans hinputs.symm)
  | case2 => exact .nil
  | case3 => exact h.elim

theorem length_forward {layers : List Layer} {sizes : List Nat} (h : LayersHaveSizes layers sizes)
    {input : List Float32} (width : layers = [] → sizes.head? = some input.length) :
    sizes.getLast? = some (forward layers input).length := by
  fun_induction LayersHaveSizes layers sizes generalizing input with
  | case1 l layers inputs outputs rest ih =>
    rw [List.getLast?_cons_cons, forward]
    exact ih h.2 fun _ => by rw [List.length_map, Layer.affine, List.length_map, h.1.2.1]; rfl
  | case2 => exact width rfl
  | case3 => exact h.elim

theorem length_addSignals {input signals : List Float32} {grads : List NeuronGradient}
    (count : signals.length = grads.length) :
    (Gradient.addSignals input signals grads).length = grads.length := by
  rw [Gradient.addSignals, List.length_zipWith, count, Nat.min_self]

theorem widths_addSignals {input signals : List Float32} {grads : List NeuronGradient} {width : Nat}
    (widths : ∀ n ∈ grads, n.weights.length = width) :
    ∀ n ∈ Gradient.addSignals input signals grads, n.weights.length = width := by
  intro n hn
  obtain ⟨i, hi, rfl⟩ := List.mem_iff_getElem.1 hn
  simp only [Gradient.addSignals, List.getElem_zipWith, Gradient.length_addScaled]
  exact widths _ (List.getElem_mem _)

theorem length_handOn (l : Layer) (signals : List Float32) :
    (Gradient.handOn l signals).length = l.inputs := by
  have all (pairs : List (Neuron × Float32)) : ∀ sums : List Float32,
      (pairs.foldl (fun sums (n, g) => Gradient.addScaled g sums (n.weights.map (·.value)))
        sums).length = sums.length := by
    induction pairs with
    | nil => exact fun _ => rfl
    | cons pair pairs ih => exact fun sums => (ih _).trans (Gradient.length_addScaled ..)
  rw [Gradient.handOn, all, List.length_replicate]

variable {layers : List Layer} {sizes : List Nat} {grads : Gradient} {input : List Float32}
  {sample : FitSample} {scale : Float32}

/-- A sample whose action has a score comes through, with a signal for every input. -/
theorem addSample?_some (h : LayersHaveSizes layers sizes) (fits : Fits layers grads)
    (width : layers = [] → sizes.head? = some input.length)
    (action : sample.action < (forward layers input).length) (scale : Float32) :
    ∃ loss grads' signal,
      Gradient.addSample? sample scale layers grads input = some (loss, grads', signal) ∧
      (∃ top, Gradient.outputSignal? sample scale (forward layers input) = some (loss, top)) ∧
      Fits layers grads' ∧ sizes.head? = some signal.length := by
  fun_induction LayersHaveSizes layers sizes generalizing grads input with
  | case1 l layers inputs outputs rest ih =>
    obtain ⟨⟨hinputs, houtputs, widths⟩, following⟩ := h
    cases fits with
    | cons first others =>
      have count : (l.affine input).length = outputs := (List.length_map _).trans houtputs
      have width' : layers = [] →
          (outputs :: rest).head? = some ((l.affine input).map rectify).length := fun _ => by
        rw [List.length_map, count]
        rfl
      obtain ⟨loss, grads', signal, hsome, htop, fits', hsignal⟩ :=
        ih following others width' action
      have signals : (List.zipWith (fun d z => d * rectifySlope z) signal (l.affine input)).length =
          outputs := by
        rw [List.length_zipWith, count, ← Option.some.inj hsignal, Nat.min_self]
      refine ⟨loss, _, _, by simp only [Gradient.addSample?, hsome]; rfl,
        htop, .cons ⟨?_, ?_⟩ fits', ?_⟩
      · rw [length_addSignals (by rw [signals, first.1, houtputs]), first.1]
      · exact widths_addSignals first.2
      · rw [length_handOn, hinputs]
        rfl
  | case2 inputs =>
    cases fits
    have score : input[sample.action]? = some input[sample.action] :=
      List.getElem?_eq_getElem action
    refine ⟨_, [], _, by simp only [Gradient.addSample?, Gradient.outputSignal?, score]; rfl,
      ⟨_, by rw [forward, Gradient.outputSignal?, score]; rfl⟩, .nil, ?_⟩
    rw [List.length_set, List.length_map]
    exact width rfl
  | case3 => exact h.elim

/-! ## There and back by position -/

namespace Stored

theorem foldlM_pass (h : LayersHaveSizes layers sizes) (t : Trace) :
    (layers.map LayerRows.ofLayer).foldlM pass t = .ok ⟨t.inputs ++ inputsOf layers t.output,
      t.sums ++ sumsOf layers t.output, Network.forward layers t.output⟩ := by
  fun_induction LayersHaveSizes layers sizes generalizing t with
  | case1 l layers inputs outputs rest ih =>
    have others := ih h.2
      ⟨t.inputs ++ [t.output], t.sums ++ [l.affine t.output], (l.affine t.output).map rectify⟩
    have widths : ∀ n ∈ l.neurons, n.weights.length = l.inputs := fun n hn => by
      rw [h.1.2.2 n hn, h.1.1]
    rw [List.map_cons, List.foldlM_cons, pass, LayerRows.affine_ofLayer widths]
    simp only [List.append_assoc] at others
    exact others
  | case2 =>
    rw [inputsOf, sumsOf, List.append_nil, List.append_nil]
    rfl
  | case3 => exact h.elim

theorem forward_ofLayer (h : LayersHaveSizes layers sizes) (input : List Float32) :
    forward (layers.map .ofLayer) input =
      .ok ⟨inputsOf layers input, sumsOf layers input, Network.forward layers input⟩ :=
  foldlM_pass h ⟨[], [], input⟩

theorem action_lt_of_outputSignal? {output : List Float32} {loss : Float32} {signal : List Float32}
    (h : Gradient.outputSignal? sample scale output = some (loss, signal)) :
    sample.action < output.length := by
  obtain ⟨_, score, -⟩ := Option.map_eq_some_iff.1 h
  exact (List.getElem?_eq_some_iff.1 score).1

/-- One layer back, at its position. -/
theorem passBack_ofLayer {l : Layer} (widths : ∀ n ∈ l.neurons, n.weights.length = l.inputs)
    {g : List NeuronGradient}
    (fits : g.length = l.neurons.length ∧ ∀ n ∈ g, n.weights.length = l.inputs)
    {signal signals : List Float32} (count : signals.length = l.neurons.length)
    (hsignals : List.zipWith (fun d z => d * rectifySlope z) signal (l.affine input) = signals)
    {t : Trace} {inputs sums inputs' sums' : List (List Float32)} {before after : List GradientRows}
    (hinputs : t.inputs = inputs ++ input :: inputs')
    (hsums : t.sums = sums ++ l.affine input :: sums')
    (places : inputs.length = before.length ∧ sums.length = before.length) :
    passBack t (before ++ .ofNeurons g :: after, signal) (.ofLayer l, before.length) =
      .ok (before ++ .ofNeurons (Gradient.addSignals input signals g) :: after,
        if 0 < before.length then Gradient.handOn l signals else signal) := by
  have added :=
    LayerRows.addSignals_ofNeurons (r := .ofLayer l) input fits.2 (fits.1.trans count.symm)
  have handed := LayerRows.handOn_ofLayer widths (Nat.le_of_eq count)
  simp only [passBack, hinputs, hsums, at?_append_cons places.1.symm, at?_append_cons places.2.symm,
    at?_append_cons rfl, put_append_cons rfl, bind, Except.bind, hsignals, added, handed, pure,
    Except.pure]
  split <;> rfl

/-- Where there are no layers left, the signal is that of the output. -/
theorem addSample?_nil (sample : FitSample) (scale : Float32) (input : List Float32) :
    Gradient.addSample? sample scale [] [] input =
      (Gradient.outputSignal? sample scale input).map fun out => (out.1, [], out.2) := by
  rw [Gradient.addSample?]
  · cases Gradient.outputSignal? sample scale input <;> rfl
  · intro l layers g gs h
    cases h

/-- The layers from some position on, on the way back. The signal that comes out is of use only if
there is a layer before them. -/
theorem foldlM_passBack (h : LayersHaveSizes layers sizes) (fits : Fits layers grads)
    (width : layers = [] → sizes.head? = some input.length) {loss : Float32} {grads' : Gradient}
    {top signal : List Float32}
    (htop : Gradient.outputSignal? sample scale (Network.forward layers input) = some (loss, top))
    (some : Gradient.addSample? sample scale layers grads input = some (loss, grads', signal))
    {t : Trace} {inputs sums : List (List Float32)} {before : List GradientRows}
    (hinputs : t.inputs = inputs ++ inputsOf layers input)
    (hsums : t.sums = sums ++ sumsOf layers input)
    (places : inputs.length = before.length ∧ sums.length = before.length) :
    ∃ out, ((layers.map LayerRows.ofLayer).zipIdx before.length).reverse.foldlM (passBack t)
        (before ++ grads.map .ofNeurons, top) = .ok (before ++ grads'.map .ofNeurons, out) ∧
      (0 < before.length → out = signal) := by
  fun_induction LayersHaveSizes layers sizes generalizing grads input grads' signal inputs
    sums before with
  | case1 l layers i o rest ih =>
    obtain ⟨⟨hi, ho, widths⟩, following⟩ := h
    cases fits with
    | @cons _ g _ gs first others =>
      let next := (l.affine input).map rectify
      have count : (l.affine input).length = o := (List.length_map _).trans ho
      have width' : layers = [] → (o :: rest).head? = Option.some next.length := fun _ => by
        rw [List.length_map, count]
        rfl
      have action := action_lt_of_outputSignal? htop
      obtain ⟨loss', gs', signal', hsome, -, -, hsignal⟩ :=
        addSample?_some following others width' action scale
      rw [Gradient.addSample?, hsome] at some
      cases some
      have hinputs' : t.inputs = (inputs ++ [input]) ++ inputsOf layers next := by
        rw [hinputs, inputsOf, List.append_cons]
      have hsums' : t.sums = (sums ++ [l.affine input]) ++ sumsOf layers next := by
        rw [hsums, sumsOf, List.append_cons]
      have places' : (inputs ++ [input]).length = (before ++ [GradientRows.ofNeurons g]).length ∧
          (sums ++ [l.affine input]).length = (before ++ [GradientRows.ofNeurons g]).length := by
        simp only [List.length_append, List.length_singleton, places, and_self]
      obtain ⟨out, back, hout⟩ := ih following others width' htop hsome hinputs' hsums' places'
      have hsignals :
        (List.zipWith (fun d z => d * rectifySlope z) signal' (l.affine input)).length =
          l.neurons.length := by
        rw [List.length_zipWith, count, ← Option.some.inj hsignal, Nat.min_self, ho]
      have step : passBack t (before ++ .ofNeurons g :: gs'.map .ofNeurons, signal')
          (.ofLayer l, before.length) = _ :=
        passBack_ofLayer (fun n hn => by rw [widths n hn, hi]) first hsignals rfl hinputs
          hsums places
      rw [hout (by simp), List.length_append, List.length_singleton] at back
      have all :
        (((l :: layers).map LayerRows.ofLayer).zipIdx before.length).reverse.foldlM (passBack t)
          (before ++ (g :: gs).map .ofNeurons, top) =
          passBack t (before ++ .ofNeurons g :: gs'.map .ofNeurons, signal')
            (.ofLayer l, before.length) := by
        simp only [List.append_assoc, List.singleton_append] at back
        rw [List.map_cons, List.map_cons, List.zipIdx_cons, List.reverse_cons,
          List.foldlM_append, back]
        exact bind_pure (m := Except Fault) _
      exact ⟨_, all.trans step, fun some => if_pos some⟩
  | case2 i =>
    cases fits
    rw [Network.forward] at htop
    rw [addSample?_nil, htop] at some
    cases some
    exact ⟨top, rfl, fun _ => rfl⟩
  | case3 => exact h.elim

/-- A sample there and back, by position and by layers. -/
theorem addSample_ofLayer (h : LayersHaveSizes layers sizes) (fits : Fits layers grads)
    (width : layers = [] → sizes.head? = some sample.input.length)
    (action : sample.action < (Network.forward layers sample.input).length) (loss : Float32) :
    ∃ more grads' signal, Gradient.addSample? sample scale layers grads sample.input =
        some (more, grads', signal) ∧ Fits layers grads' ∧
      addSample (layers.map .ofLayer) scale (loss, grads.map .ofNeurons) sample =
        .ok (loss + more, grads'.map .ofNeurons) := by
  obtain ⟨more, grads', signal, hsome, ⟨top, htop⟩, fits', -⟩ :=
    addSample?_some h fits width action scale
  obtain ⟨t, ht⟩ : ∃ t : Trace, t = ⟨inputsOf layers sample.input, sumsOf layers sample.input,
    Network.forward layers sample.input⟩ := ⟨_, rfl⟩
  have hinputs : t.inputs = [] ++ inputsOf layers sample.input := by rw [ht, List.nil_append]
  have hsums : t.sums = [] ++ sumsOf layers sample.input := by rw [ht, List.nil_append]
  have start : ([] : List (List Float32)).length = ([] : List GradientRows).length := rfl
  obtain ⟨out, back, -⟩ := foldlM_passBack h fits width htop hsome hinputs hsums ⟨start, start⟩
  change (((layers.map LayerRows.ofLayer).zipIdx).reverse.foldlM (passBack t)
    (grads.map .ofNeurons, _) : Except Fault _) = .ok (grads'.map .ofNeurons, out) at back
  refine ⟨more, grads', signal, hsome, fits', ?_⟩
  obtain ⟨score, hscore, hpair⟩ := Option.map_eq_some_iff.1 htop
  cases hpair
  have place : at? (Network.forward layers sample.input) sample.action = .ok score := by
    rw [at?, hscore]
  have signal (x : Float32) : put ((Network.forward layers sample.input).map fun _ => (0 : Float32))
      sample.action x = .ok (((Network.forward layers sample.input).map fun _ => 0).set
        sample.action x) := if_pos (by rw [List.length_map]; exact action)
  rw [ht] at back
  simp only [addSample, forward_ofLayer h, bind, Except.bind, place, signal, back]
  rfl

theorem zero_ofLayer (l : Layer) : GradientRows.zero (.ofLayer l) =
    .ofNeurons (l.neurons.map fun n => ⟨n.weights.map fun _ => 0, 0⟩) := by
  simp only [GradientRows.zero, GradientRows.ofNeurons, LayerRows.ofLayer, ← List.map_const',
    List.map_flatMap, List.map_map, List.flatMap_map]
  rfl

/-- A batch by position and by layers. -/
theorem foldlM_addSample {inputs outputs : Nat} {layers : List Layer}
    (h : LayersHaveSizes layers (Network.sizes inputs outputs)) (fits : Fits layers grads)
    {batch : List FitSample} (actions : ∀ x ∈ batch, x.action < outputs) (loss : Float32) :
    ∃ loss' grads', batch.foldlM (fun (loss, grads) sample => do
        let (more, grads, _) ← Gradient.addSample? sample scale layers grads sample.input
        return (loss + more, grads)) (loss, grads) = some (loss', grads') ∧ Fits layers grads' ∧
      batch.foldlM (addSample (layers.map .ofLayer) scale) (loss, grads.map .ofNeurons) =
        .ok (loss', grads'.map .ofNeurons) := by
  induction batch generalizing loss grads with
  | nil => exact ⟨loss, grads, rfl, fits, rfl⟩
  | cons sample batch ih =>
    obtain ⟨action, others⟩ := List.forall_mem_cons.1 actions
    have some : layers = [] → False := by
      rintro rfl
      exact h
    have out : _ = Option.some (Network.forward layers sample.input).length :=
      length_forward h fun none => (some none).elim
    have range : sample.action < (Network.forward layers sample.input).length := by
      rw [← Option.some.inj out]
      exact action
    obtain ⟨more, grads', signal, hsome, fits', hadd⟩ : ∃ more grads' signal,
        Gradient.addSample? sample scale layers grads sample.input =
          Option.some (more, grads', signal) ∧
        Fits layers grads' ∧
          addSample (layers.map .ofLayer) scale (loss, grads.map .ofNeurons) sample =
          .ok (loss + more, grads'.map .ofNeurons) :=
      addSample_ofLayer h fits (fun none => (some none).elim) range loss
    obtain ⟨loss', grads'', hfold, fits'', hrows⟩ := ih fits' others (loss + more)
    refine ⟨loss', grads'', ?_, fits'', ?_⟩
    · simp only [List.foldlM_cons, hsome]
      exact hfold
    · rw [List.foldlM_cons, hadd]
      exact hrows

theorem fits_clamp (fits : Fits layers grads) (limit : Float32) :
    Fits layers (grads.map fun layer => layer.map fun n =>
      ⟨n.weights.map (Gradient.clampElement limit), Gradient.clampElement limit n.bias⟩) := by
  refine List.forall₂_map_right_iff.2 (fits.imp fun l g hg => ⟨(List.length_map _).trans hg.1, ?_⟩)
  intro n hn
  obtain ⟨n', hn', rfl⟩ := List.mem_map.1 hn
  exact (List.length_map _).trans (hg.2 n' hn')

theorem clamp_ofNeurons (limit : Float32) (grads : List NeuronGradient) :
    (GradientRows.ofNeurons grads).clamp limit = .ofNeurons (grads.map fun n =>
      ⟨n.weights.map (Gradient.clampElement limit), Gradient.clampElement limit n.bias⟩) := by
  simp only [GradientRows.ofNeurons, GradientRows.clamp, List.map_flatMap, List.flatMap_map,
    List.map_map]
  rfl

/-- The gradient of a batch by position and by layers. -/
theorem backward_ofLayer {inputs outputs : Nat} {layers : List Layer}
    (h : LayersHaveSizes layers (Network.sizes inputs outputs)) {batch : List FitSample}
    (actions : ∀ x ∈ batch, x.action < outputs) (limit : Float32) :
    ∃ loss grads, Gradient.ofBatch? layers batch = some (loss, grads) ∧
      if -limit ≤ limit then ∃ clamped, Gradient.clamp? limit grads = some clamped ∧
        Fits layers clamped ∧
        backward (layers.map .ofLayer) batch limit = .ok (loss, clamped.map .ofNeurons)
      else Gradient.clamp? limit grads = none ∧
        backward (layers.map .ofLayer) batch limit = .error .limit := by
  have fold (scale : Float32) : ∃ loss grads, batch.foldlM (fun (loss, grads) sample => do
        let (more, grads, _) ← Gradient.addSample? sample scale layers grads sample.input
        return (loss + more, grads)) (0, Gradient.zero layers) = some (loss, grads) ∧
      Fits layers grads ∧ batch.foldlM (addSample (layers.map .ofLayer) scale)
        (0, (Gradient.zero layers).map .ofNeurons) = .ok (loss, grads.map .ofNeurons) :=
    foldlM_addSample h (fits_zero h) actions 0
  obtain ⟨loss, grads, hfold, fits, hrows⟩ := fold (1 / Float32.ofNat batch.length)
  have zero : (layers.map LayerRows.ofLayer).map GradientRows.zero =
      (Gradient.zero layers).map .ofNeurons := by
    rw [List.map_map, Gradient.zero, List.map_map]
    exact List.map_congr_left fun l _ => zero_ofLayer l
  refine ⟨loss, grads, hfold, ?_⟩
  simp only [backward, zero, hrows, Gradient.clamp?]
  split
  · refine ⟨_, rfl, fits_clamp fits limit, ?_⟩
    have clamped : (grads.map .ofNeurons).map (GradientRows.clamp limit) = (grads.map fun layer =>
        layer.map fun n => (⟨n.weights.map (Gradient.clampElement limit),
          Gradient.clampElement limit n.bias⟩ : NeuronGradient)).map .ofNeurons := by
      rw [List.map_map, List.map_map]
      exact List.map_congr_left fun g _ => clamp_ofNeurons limit g
    rw [← clamped]
    rfl
  · exact ⟨rfl, rfl⟩

end Stored

end Network

/-! ## The optimizer -/

namespace Adam.Step

/-- The three rows of some parameters. -/
def rowsOf (ps : List Parameter) : List Float32 × List Float32 × List Float32 :=
  (ps.map (·.value), ps.map (·.moment), ps.map (·.square))

variable (s : Step)

theorem applyAt_rowsOf {before after : List Parameter} {p : Parameter} {grads grads' : List Float32}
    {g : Float32} (place : before.length = grads.length) :
    s.applyAt (grads ++ g :: grads') (rowsOf (before ++ p :: after)) before.length =
      .ok (rowsOf (before ++ s.apply p g :: after)) := by
  have row (f : Parameter → Float32) : before.length = (before.map f).length :=
    (List.length_map _).symm
  simp only [applyAt, rowsOf, List.map_append, List.map_cons, at?_append_cons place,
    at?_append_cons (row _), put_append_cons (row _), bind, Except.bind]
  rfl

theorem applyAll_from {before after : List Parameter} {grads grads' : List Float32}
    (place : before.length = grads.length) (count : after.length = grads'.length) :
    (List.range' before.length after.length).foldlM (s.applyAt (grads ++ grads'))
      (rowsOf (before ++ after)) = .ok (rowsOf (before ++ List.zipWith s.apply after grads')) := by
  induction after generalizing before grads grads' with
  | nil =>
    rw [List.length_eq_zero_iff.1 count.symm]
    rfl
  | cons p after ih =>
    cases grads' with
    | nil => cases count
    | cons g grads' =>
      have place' : (before ++ [s.apply p g]).length = (grads ++ [g]).length := by
        rw [List.length_append, List.length_append, place]
        rfl
      have others := ih place' (Nat.succ.inj count)
      simp only [List.append_assoc, List.singleton_append, List.length_append,
        List.length_singleton] at others
      rw [List.length_cons, List.range'_succ, List.foldlM_cons, applyAt_rowsOf s place]
      exact others

theorem applyAll_rowsOf {ps : List Parameter} {grads : List Float32}
    (count : ps.length = grads.length) :
    s.applyAll (ps.map (·.value)) (ps.map (·.moment)) (ps.map (·.square)) grads =
      .ok (rowsOf (List.zipWith s.apply ps grads)) := by
  rw [applyAll, List.length_map, List.range_eq_range']
  exact @applyAll_from s [] ps [] grads rfl count

theorem zipWith_flatMap {neurons : List Neuron} {grads : List NeuronGradient} {width : Nat}
    (widths : ∀ n ∈ neurons, n.weights.length = width)
    (widths' : ∀ n ∈ grads, n.weights.length = width)
    (count : grads.length = neurons.length) :
    List.zipWith s.apply (neurons.flatMap (·.weights)) (grads.flatMap (·.weights)) =
      (List.zipWith (fun n g => (⟨List.zipWith s.apply n.weights g.weights, s.apply n.bias g.bias⟩ :
        Neuron)) neurons grads).flatMap (·.weights) := by
  induction neurons generalizing grads with
  | nil => rfl
  | cons n neurons ih =>
    cases grads with
    | nil => cases count
    | cons g grads =>
      obtain ⟨width, widths⟩ := List.forall_mem_cons.1 widths
      obtain ⟨width', widths'⟩ := List.forall_mem_cons.1 widths'
      rw [List.flatMap_cons, List.flatMap_cons, List.zipWith_append (width.trans width'.symm),
        ih widths widths' (Nat.succ.inj count)]
      rfl

theorem applyRows_ofLayer {l : Layer} {grads : List NeuronGradient}
    (widths : ∀ n ∈ l.neurons, n.weights.length = l.inputs)
    (fits : grads.length = l.neurons.length ∧ ∀ n ∈ grads, n.weights.length = l.inputs) :
    s.applyRows (.ofLayer l) (.ofNeurons grads) = .ok (.ofLayer (s.applyLayer l grads)) ∧
      (s.applyLayer l grads).HasWidths l.inputs l.neurons.length := by
  have places : (l.neurons.flatMap (·.weights)).length = (grads.flatMap (·.weights)).length := by
    rw [length_flatMap_of_width widths, length_flatMap_of_width fits.2, fits.1]
  have biases : (l.neurons.map (·.bias)).length = (grads.map (·.bias)).length := by
    rw [List.length_map, List.length_map, fits.1]
  have biasOf : (s.applyLayer l grads).neurons.map (·.bias) =
      List.zipWith s.apply (l.neurons.map (·.bias)) (grads.map (·.bias)) := by
    rw [applyLayer, List.map_zipWith, List.zipWith_map]
  have count : (s.applyLayer l grads).neurons.length = l.neurons.length := by
    rw [applyLayer, List.length_zipWith, fits.1, Nat.min_self]
  constructor
  · rw [LayerRows.ofLayer_eq, LayerRows.ofLayer_eq, biasOf, count]
    simp only [applyRows, GradientRows.ofNeurons, applyAll_rowsOf s places,
      applyAll_rowsOf s biases, zipWith_flatMap s widths fits.2 fits.1, bind, Except.bind, rowsOf]
    rfl
  · refine ⟨rfl, ?_, ?_⟩
    · exact count
    · intro n hn
      obtain ⟨i, hi, rfl⟩ := List.mem_iff_getElem.1 hn
      simp only [applyLayer, List.getElem_zipWith, List.length_zipWith]
      rw [widths _ (List.getElem_mem _), fits.2 _ (List.getElem_mem _), Nat.min_self]

theorem applyLayers_ofLayer {layers : List Layer} {sizes : List Nat} {grads : Gradient}
    (h : Network.LayersHaveSizes layers sizes) (fits : Network.Fits layers grads) :
    s.applyLayers (layers.map .ofLayer) (grads.map .ofNeurons) =
      .ok ((List.zipWith s.applyLayer layers grads).map .ofLayer) ∧
    Network.LayersHaveSizes (List.zipWith s.applyLayer layers grads) sizes := by
  fun_induction Network.LayersHaveSizes layers sizes generalizing grads with
  | case1 l layers inputs outputs rest ih =>
    obtain ⟨⟨hinputs, houtputs, widths⟩, following⟩ := h
    cases fits with
    | @cons _ g _ gs first others =>
      obtain ⟨rows, widths'⟩ :=
        applyRows_ofLayer s (fun n hn => (widths n hn).trans hinputs.symm) first
      obtain ⟨restRows, following'⟩ := ih following others
      rw [hinputs, houtputs] at widths'
      refine ⟨?_, widths', following'⟩
      rw [List.map_cons, List.map_cons, applyLayers, rows, restRows]
      rfl
  | case2 =>
    cases fits
    exact ⟨rfl, trivial⟩
  | case3 => exact h.elim

end Adam.Step

/-! ## The network -/

namespace Network

variable {s : Stored} {n : Network} {inputs outputs : Nat}

theorem HasShape.widths (h : n.HasShape inputs outputs) :
    n.inputs = inputs ∧ n.outputs = outputs := by
  obtain ⟨layers, rate, steps, training⟩ := n
  match layers, h with
  | [_, _, _], ⟨first, _, last, _⟩ => exact ⟨first.1, last.2.1⟩

theorem Stored.Shaped.widths (h : s.Shaped inputs outputs) :
    s.inputs = inputs ∧ s.outputs = outputs := by
  obtain ⟨rows, rate, steps⟩ := s
  match rows, h with
  | [_, _, _], ⟨first, _, last, _⟩ => exact ⟨first.inputs, last.outputs⟩

/-- The scores for an input are as many as the actions, whichever way they are computed. -/
theorem HasShape.predict (h : n.HasShape inputs outputs) {input : List Float32}
    (width : input.length = inputs) : ∃ scores, n.predict? input = some scores ∧
      scores.length = outputs ∧ n.toStored.predict input = .ok scores := by
  have shaped := h.shaped.widths.1
  have out : _ = some (Network.forward n.layers input).length := length_forward h fun none => by
    rw [HasShape, none] at h
    exact h.elim
  refine ⟨Network.forward n.layers input, if_pos (width.trans h.widths.1.symm),
    (Option.some.inj out).symm, ?_⟩
  rw [Stored.predict, if_pos (width.trans shaped.symm), toStored, Stored.forward_ofLayer h]
  rfl

theorem HasShape.adamStep (h : n.HasShape inputs outputs) {grads : Gradient}
    (fits : Fits n.layers grads) :
    if n.steps.toNat + 1 = UInt32.size then
      n.adamStep? grads = none ∧ n.toStored.adamStep (grads.map .ofNeurons) = .error .counter
    else ∃ n', n.adamStep? grads = some n' ∧ n'.HasShape inputs outputs ∧ n'.training = n.training ∧
      n.toStored.adamStep (grads.map .ofNeurons) = .ok n'.toStored := by
  split
  · rename_i last
    exact ⟨if_pos last, if_pos last⟩
  · rename_i more
    obtain ⟨layers, shape⟩ :=
      (Adam.Step.ofCount n.learningRate (n.steps + 1)).applyLayers_ofLayer h fits
    refine ⟨_, if_neg more, shape, rfl, ?_⟩
    rw [Stored.adamStep, if_neg (show ¬n.toStored.steps.toNat + 1 = UInt32.size from more)]
    simp only [toStored, layers]
    rfl

/-- One optimizer step by position and by layers. A batch whose actions have scores is stopped by
its limit or by the counter, and by nothing else. -/
theorem HasShape.fit (h : n.HasShape inputs outputs) {batch : List FitSample}
    (actions : ∀ x ∈ batch, x.action < outputs) (limit : Float32) :
    (∃ loss n', n.fit? batch limit = some (loss, n') ∧ n'.HasShape inputs outputs ∧
      n'.training = n.training ∧ n.toStored.fit batch limit = .ok (loss, n'.toStored)) ∨
    n.fit? batch limit = none ∧ batch ≠ [] ∧
      (¬-limit ≤ limit ∧ n.toStored.fit batch limit = .error .limit ∨
        n.steps.toNat + 1 = UInt32.size ∧ n.toStored.fit batch limit = .error .counter) := by
  by_cases some : batch = []
  · rw [some]
    exact .inl ⟨0, n, rfl, h, rfl, rfl⟩
  have hempty : ¬batch.isEmpty = true := fun none => some (List.isEmpty_iff.1 none)
  obtain ⟨loss, grads, hbatch, hrows⟩ := Stored.backward_ofLayer h actions limit
  have model : n.fit? batch limit = (do
      let n ← n.adamStep? (← Gradient.clamp? limit grads)
      return (loss, n)) := by rw [fit?, if_neg hempty, hbatch]; rfl
  have rows : n.toStored.fit batch limit = (do
      let (loss, grads) ← Stored.backward (n.layers.map .ofLayer) batch limit
      return (loss, ← n.toStored.adamStep grads)) := if_neg hempty
  rw [model, rows]
  by_cases hlimit : -limit ≤ limit
  · rw [if_pos hlimit] at hrows
    obtain ⟨clamped, hclamp, fits, back⟩ := hrows
    have step := h.adamStep fits
    rw [hclamp, back]
    split at step
    · rename_i last
      refine .inr ⟨?_, some, .inr ⟨last, ?_⟩⟩
      · simp only [Option.bind_eq_bind, Option.bind_some, step.1, Option.bind_none]
      · simp only [bind, Except.bind, step.2]
    · obtain ⟨n', hstep, shape, mode, stepped⟩ := step
      refine .inl ⟨loss, n', ?_, shape, mode, ?_⟩
      · simp only [Option.bind_eq_bind, Option.bind_some, hstep]
        rfl
      · simp only [bind, Except.bind, stepped]
        rfl
  · rw [if_neg hlimit] at hrows
    rw [hrows.1, hrows.2]
    exact .inr ⟨rfl, some, .inl ⟨hlimit, rfl⟩⟩

end Network

end PassTuner
