import PassTuner.Network.Storage

/-!
# Layers and rows

A layer is kept in six rows of numbers, the neurons one behind the other. Rows of the right lengths
and layers of the right widths are the same thing, seen in two ways.
-/

namespace PassTuner

/-! ## A layer cut into neurons and joined again -/

namespace Layer

variable {width : Nat}

theorem neuronsOf_of_widths {neurons : List Neuron} (h : ∀ n ∈ neurons, n.weights.length = width) :
    neuronsOf width (neurons.flatMap (·.weights)) (neurons.map (·.bias)) = neurons := by
  induction neurons with
  | nil => rfl
  | cons n neurons ih =>
    obtain ⟨first, others⟩ := List.forall_mem_cons.1 h
    rw [List.flatMap_cons, List.map_cons, neuronsOf, List.take_left' first, List.drop_left' first,
      ih others]

theorem bias_neuronsOf (weights biases : List Parameter) :
    (neuronsOf width weights biases).map (·.bias) = biases := by
  induction biases generalizing weights with
  | nil => rfl
  | cons b biases ih => rw [neuronsOf, List.map_cons, ih]

theorem weights_neuronsOf {weights biases : List Parameter}
    (h : weights.length = width * biases.length) :
    (neuronsOf width weights biases).flatMap (·.weights) = weights := by
  induction biases generalizing weights with
  | nil => exact (List.length_eq_zero_iff.1 h).symm
  | cons b biases ih =>
    rw [List.length_cons, Nat.mul_succ] at h
    rw [neuronsOf, List.flatMap_cons, ih (by rw [List.length_drop, h, Nat.add_sub_cancel]),
      List.take_append_drop]

theorem length_flatMap_weights {neurons : List Neuron}
    (h : ∀ n ∈ neurons, n.weights.length = width) :
    (neurons.flatMap (·.weights)).length = width * neurons.length := by
  rw [List.length_flatMap, List.map_congr_left h, List.map_const', List.sum_replicate_nat,
    Nat.mul_comm]

end Layer

namespace LayerRows

/-! ## The three rows of some parameters -/

theorem parameters_of_rows (ps : List Parameter) :
    parameters (ps.map (·.value)) (ps.map (·.moment)) (ps.map (·.square)) = ps := by
  induction ps with
  | nil => rfl
  | cons p ps ih =>
    unfold parameters at ih ⊢
    rw [List.map_cons, List.map_cons, List.map_cons, List.zip_cons_cons, List.zipWith_cons_cons, ih]

/-- Three rows of one length are those of some parameters. -/
theorem exists_parameters : ∀ {values moments squares : List Float32},
    moments.length = values.length → squares.length = values.length →
    ∃ ps : List Parameter, values = ps.map (·.value) ∧ moments = ps.map (·.moment) ∧
      squares = ps.map (·.square)
  | [], [], [], _, _ => ⟨[], rfl, rfl, rfl⟩
  | value :: values, moment :: moments, square :: squares, hm, hs => by
    obtain ⟨ps, hvalues, hmoments, hsquares⟩ :=
      exists_parameters (Nat.succ.inj hm) (Nat.succ.inj hs)
    exact ⟨⟨value, moment, square⟩ :: ps, by rw [hvalues]; rfl, by rw [hmoments]; rfl,
      by rw [hsquares]; rfl⟩

/-- Every row of a layer is a part of all its weights, or of all its biases. -/
theorem ofLayer_eq (l : Layer) :
    let weights := l.neurons.flatMap (·.weights)
    let biases := l.neurons.map (·.bias)
    ofLayer l = ⟨l.inputs, l.neurons.length, weights.map (·.value), biases.map (·.value),
      weights.map (·.moment), weights.map (·.square), biases.map (·.moment),
        biases.map (·.square)⟩ := by
  simp only [List.map_flatMap, List.map_map]
  rfl

/-! ## Rows of the right lengths -/

/-- All of a layer's rows have the lengths that its widths ask for. -/
structure Shaped (r : LayerRows) (width height : Nat) : Prop where
  inputs : r.inputs = width
  outputs : r.outputs = height
  weights : r.weights.length = width * height
  bias : r.bias.length = height
  weightMoments : r.weightMoments.length = width * height
  weightSquares : r.weightSquares.length = width * height
  biasMoments : r.biasMoments.length = height
  biasSquares : r.biasSquares.length = height

variable {r : LayerRows} {l : Layer} {inputs outputs : Nat}

theorem shaped_of_fits (h : r.fits inputs outputs = true) : r.Shaped inputs outputs := by
  simp only [fits, Bool.and_eq_true, beq_iff_eq] at h
  obtain ⟨⟨⟨⟨⟨⟨⟨hinputs, houtputs⟩, weights⟩, bias⟩, moments⟩, squares⟩, biasMoments⟩,
    biasSquares⟩ := h
  exact ⟨hinputs, houtputs, weights, bias, moments.trans weights, squares.trans weights,
    biasMoments.trans bias, biasSquares.trans bias⟩

theorem shaped_ofLayer (h : l.HasWidths inputs outputs) : (ofLayer l).Shaped inputs outputs := by
  obtain ⟨hinputs, houtputs, widths⟩ := h
  have weights (f : Parameter → Float32) :
      (l.neurons.flatMap fun n => n.weights.map f).length = inputs * outputs := by
    rw [← List.map_flatMap, List.length_map, Layer.length_flatMap_weights widths, houtputs]
  have bias (f : Neuron → Float32) : (l.neurons.map f).length = outputs := by
    rw [List.length_map, houtputs]
  exact ⟨hinputs, houtputs, weights _, bias _, weights _, weights _, bias _, bias _⟩

theorem fits_ofLayer (h : l.HasWidths inputs outputs) : (ofLayer l).fits inputs outputs = true := by
  have shaped := shaped_ofLayer h
  simp only [fits, Bool.and_eq_true, beq_iff_eq]
  exact ⟨⟨⟨⟨⟨⟨⟨shaped.inputs, shaped.outputs⟩, shaped.weights⟩, shaped.bias⟩,
    shaped.weightMoments.trans shaped.weights.symm⟩,
      shaped.weightSquares.trans shaped.weights.symm⟩,
    shaped.biasMoments.trans shaped.bias.symm⟩, shaped.biasSquares.trans shaped.bias.symm⟩

theorem toLayer_ofLayer (h : l.HasWidths inputs outputs) : (ofLayer l).toLayer = l := by
  obtain ⟨hinputs, -, widths⟩ := h
  rw [ofLayer_eq, toLayer]
  simp only [parameters_of_rows]
  rw [Layer.neuronsOf_of_widths fun n hn => (widths n hn).trans hinputs.symm]

/-- Rows of the right lengths are those of a layer, of the one that they are read as. -/
theorem Shaped.ofLayer_toLayer (h : r.Shaped inputs outputs) :
    ofLayer r.toLayer = r ∧ r.toLayer.HasWidths inputs outputs := by
  obtain ⟨hinputs, houtputs, hweights, hbias, hmoments, hsquares, hbiasMoments, hbiasSquares⟩ := h
  obtain ⟨i, o, ws, bs, wms, wss, bms, bss⟩ := r
  obtain rfl : i = inputs := hinputs
  obtain rfl : o = outputs := houtputs
  obtain ⟨weights, rfl, rfl, rfl⟩ :=
    exists_parameters (hmoments.trans hweights.symm) (hsquares.trans hweights.symm)
  obtain ⟨biases, rfl, rfl, rfl⟩ :=
    exists_parameters (hbiasMoments.trans hbias.symm) (hbiasSquares.trans hbias.symm)
  rw [List.length_map] at hweights hbias
  have layer : toLayer ⟨i, o, weights.map (·.value), biases.map (·.value), weights.map (·.moment),
      weights.map (·.square), biases.map (·.moment), biases.map (·.square)⟩ =
      ⟨i, Layer.neuronsOf i weights biases⟩ := by
    rw [toLayer, parameters_of_rows, parameters_of_rows]
  have count := Layer.length_neuronsOf i weights biases
  have cut : weights.length = i * biases.length := by rw [hweights, hbias]
  rw [layer]
  refine ⟨?_, rfl, count.trans hbias, Layer.length_weights_neuronsOf (Nat.le_of_eq cut.symm)⟩
  rw [ofLayer_eq, Layer.weights_neuronsOf cut, Layer.bias_neuronsOf, count, hbias]

end LayerRows

/-! ## Networks in rows -/

namespace Network

/-- Whether the rows are those of layers with widths that follow one another. -/
def RowsHaveSizes : List LayerRows → List Nat → Prop
  | r :: rows, inputs :: outputs :: rest =>
    r.Shaped inputs outputs ∧ RowsHaveSizes rows (outputs :: rest)
  | [], [_] => True
  | _, _ => False

/-- Whether the rows of a network are those of a network between two widths. -/
def Stored.Shaped (s : Stored) (inputs outputs : Nat) : Prop :=
  RowsHaveSizes s.layers (sizes inputs outputs)

/-- What the file of a network says. -/
def toStored (n : Network) : Stored := ⟨n.layers.map .ofLayer, n.learningRate, n.steps⟩

theorem rowsHaveSizes_of_rowsFit {rows : List LayerRows} {sizes : List Nat}
    (h : rowsFit rows sizes = true) : RowsHaveSizes rows sizes := by
  fun_induction rowsFit rows sizes with
  | case1 r rows inputs outputs rest ih =>
    obtain ⟨fits, others⟩ := Bool.and_eq_true_iff.1 h
    exact ⟨LayerRows.shaped_of_fits fits, ih others⟩
  | case2 => trivial
  | case3 => cases h

theorem rowsFit_of_layers {layers : List Layer} {sizes : List Nat}
    (h : LayersHaveSizes layers sizes) : rowsFit (layers.map .ofLayer) sizes = true := by
  fun_induction LayersHaveSizes layers sizes with
  | case1 l layers inputs outputs rest ih =>
    exact Bool.and_eq_true_iff.2 ⟨LayerRows.fits_ofLayer h.1, ih h.2⟩
  | case2 => rfl
  | case3 => exact h.elim

theorem layers_of_rowsHaveSizes {rows : List LayerRows} {sizes : List Nat}
    (h : RowsHaveSizes rows sizes) :
    (rows.map LayerRows.toLayer).map .ofLayer = rows ∧
      LayersHaveSizes (rows.map LayerRows.toLayer) sizes := by
  fun_induction RowsHaveSizes rows sizes with
  | case1 r rows inputs outputs rest ih =>
    obtain ⟨row, widths⟩ := h.1.ofLayer_toLayer
    obtain ⟨others, sizes⟩ := ih h.2
    exact ⟨by rw [List.map_cons, List.map_cons, row, others], widths, sizes⟩
  | case2 => exact ⟨rfl, trivial⟩
  | case3 => exact h.elim

theorem toLayer_of_layersHaveSizes {layers : List Layer} {sizes : List Nat}
    (h : LayersHaveSizes layers sizes) :
    (layers.map LayerRows.ofLayer).map LayerRows.toLayer = layers := by
  fun_induction LayersHaveSizes layers sizes with
  | case1 l layers inputs outputs rest ih =>
    rw [List.map_cons, List.map_cons, LayerRows.toLayer_ofLayer h.1, ih h.2]
  | case2 => rfl
  | case3 => exact h.elim

variable {s : Stored} {n : Network} {inputs outputs : Nat}

theorem Stored.Shaped.toStored_toNetwork (h : s.Shaped inputs outputs) :
    s.toNetwork.toStored = s ∧ s.toNetwork.HasShape inputs outputs := by
  obtain ⟨layers, shape⟩ := layers_of_rowsHaveSizes h
  exact ⟨by rw [toStored, toNetwork, layers], shape⟩

theorem HasShape.toNetwork_toStored (h : n.HasShape inputs outputs) :
    n.toStored.toNetwork = { n with training := true } := by
  rw [toStored, Stored.toNetwork, toLayer_of_layersHaveSizes h]

theorem HasShape.shaped (h : n.HasShape inputs outputs) : n.toStored.Shaped inputs outputs :=
  rowsHaveSizes_of_rowsFit (rowsFit_of_layers h)

end Network

end PassTuner
