import PassTuner.Proofs.Disk.Changes
import PassTuner.Proofs.Disk.Checking
import PassTuner.Proofs.Json.Numbers
import PassTuner.Proofs.Network.Counter

/-!
# Saved networks

What is written of a network is read back row by row and field by field, as long as its numbers are
finite: JSON has no others, `null` is written for them, and that is not read as a number. Main
statement: a network that is new or was loaded, and was fitted and given learning rates in any
order, is loaded as it was from the file that it is saved to, just if all its numbers are finite.
-/

namespace PassTuner

theorem ite_some_bind {α β : Type} {c : Prop} [Decidable c] {a : α} {f : α → Option β} :
    (if c then some a else none).bind f = if c then f a else none := by
  split_ifs <;> rfl

/-! ## Finite networks -/

/-- Whether value and moments are finite. -/
def Parameter.isFinite (p : Parameter) : Bool :=
  p.value.isFinite && p.moment.isFinite && p.square.isFinite

def Layer.isFinite (l : Layer) : Bool :=
  l.neurons.all fun n => n.weights.all (·.isFinite) && n.bias.isFinite

/-- Whether all of a network's numbers are finite. -/
def Network.isFinite (n : Network) : Bool := n.layers.all (·.isFinite) && n.learningRate.isFinite

/-! ## Rows as JSON -/

namespace LayerRows

theorem proper_row (xs : List Float32) : (row xs).Proper := by
  refine .array fun j hj => ?_
  obtain ⟨x, -, rfl⟩ := List.mem_map.1 hj
  exact Json.proper_ofFloat32 x

theorem list?_row (xs : List Float32) :
    Json.list? Json.float32? (row xs) = if xs.all (·.isFinite) then some xs else none := by
  have read : Json.list? Json.float32? (row xs) =
      if xs.all (·.isFinite) then some (xs.map id) else none :=
    Json.list?_map fun x _ => Json.float32?_ofFloat32 x
  rw [read, List.map_id]

variable {r : LayerRows} {l : Layer}

/-- Whether all rows have finite numbers only. -/
def isFinite (r : LayerRows) : Bool :=
  [r.weights, r.bias, r.weightMoments, r.weightSquares, r.biasMoments, r.biasSquares].all
    (·.all (·.isFinite))

theorem isFinite_ofLayer (l : Layer) : (ofLayer l).isFinite = l.isFinite := by
  rw [ofLayer_eq, Bool.eq_iff_iff]
  simp only [isFinite, Layer.isFinite, Parameter.isFinite, List.all_cons,
    List.all_nil, List.all_map,
    List.all_flatMap, List.all_eq_true, Bool.and_eq_true, Function.comp_apply]
  grind

theorem proper_toJson (r : LayerRows) : r.toJson.Proper := by
  refine Json.proper_ofFields ?_
  simp [Json.proper_ofNat, proper_row]

/-- Rows are read back, if their numbers are finite and the widths fit a machine word. -/
theorem ofJson?_toJson (inputs : r.inputs < 2 ^ 64) (outputs : r.outputs < 2 ^ 64) :
    ofJson? r.toJson = if r.isFinite then some r else none := by
  have fields := Json.record?_ofFields [("inputs", .ofNat r.inputs), ("outputs", .ofNat r.outputs),
    ("weights", row r.weights), ("bias", row r.bias), ("m_weights", row r.weightMoments),
    ("v_weights", row r.weightSquares), ("m_bias", row r.biasMoments),
      ("v_bias", row r.biasSquares)]
    (by simp)
  simp only [List.map_cons, List.map_nil] at fields
  rw [ofJson?, toJson, fields]
  simp [Json.Record.required, List.lookup_cons, Json.nat?_ofNat inputs, Json.nat?_ofNat outputs,
    list?_row, isFinite, ite_some_bind, ite_and]

end LayerRows

namespace Network

variable {n m : Network} {inputs outputs : ℕ}

theorem proper_toJson (n : Network) : n.toJson.Proper := by
  have layers : Json.Proper (.array (n.layers.map fun l => (LayerRows.ofLayer l).toJson)) := by
    refine .array fun j hj => ?_
    obtain ⟨l, -, rfl⟩ := List.mem_map.1 hj
    exact LayerRows.proper_toJson _
  refine Json.proper_ofFields ?_
  simp [layers, Json.proper_ofFloat32, Json.proper_ofNat]

/-- What is written of a network with finite numbers is read back; no other is read. -/
theorem storedOfJson?_toJson
    (small : ∀ l ∈ n.layers, l.inputs < 2 ^ 64 ∧ l.neurons.length < 2 ^ 64) :
    storedOfJson? n.toJson = if n.isFinite then some n.toStored else none := by
  have layers : Json.list? LayerRows.ofJson?
      (.array (n.layers.map fun l => (LayerRows.ofLayer l).toJson)) =
        if n.layers.all (·.isFinite) then some (n.layers.map .ofLayer) else none := by
    refine Json.list?_map fun l hl => ?_
    rw [LayerRows.ofJson?_toJson (small l hl).1 (small l hl).2, LayerRows.isFinite_ofLayer]
  have fields := Json.record?_ofFields
    [("layers", .array (n.layers.map fun l => (LayerRows.ofLayer l).toJson)),
      ("learning_rate", .ofFloat32 n.learningRate), ("steps", .ofNat n.steps.toNat)] (by simp)
  simp only [List.map_cons, List.map_nil] at fields
  rw [storedOfJson?, toJson, fields]
  simp [Json.Record.required, List.lookup_cons, layers, Json.float32?_ofFloat32,
    Json.nat?_ofNat n.steps.toNat_lt, isFinite, toStored, ite_some_bind, ite_and]

/-! ## Fits that are defined -/

section Samples

variable {layers : List Layer} {sizes : List ℕ} {grads grads' : Gradient} {input : List Float32}
  {sample : FitSample} {scale loss : Float32} {signal : List Float32}

/-- The way through the layers ends at a score for the sample's action. -/
theorem action_lt_of_addSample? (h : LayersHaveSizes layers sizes) (fits : Fits layers grads)
    (some : Gradient.addSample? sample scale layers grads input = some (loss, grads', signal)) :
    sample.action < (forward layers input).length := by
  fun_induction LayersHaveSizes layers sizes generalizing grads grads' input loss signal with
  | case1 l layers inputs outputs rest ih =>
    cases fits with
    | cons first others =>
      simp only [Gradient.addSample?, Option.bind_eq_bind, Option.bind_eq_some_iff] at some
      obtain ⟨⟨_, _, _⟩, deeper, _⟩ := some
      exact ih h.2 others deeper
  | case2 inputs =>
    cases fits
    rw [Stored.addSample?_nil] at some
    obtain ⟨⟨_, _⟩, top, -⟩ := Option.map_eq_some_iff.1 some
    exact Stored.action_lt_of_outputSignal? top
  | case3 => exact h.elim

/-- A batch whose fit is defined asks for actions that are there. By induction on the batch: what
one sample leaves of the gradient is of the right lengths for the next. -/
theorem actions_lt_of_foldlM {layers : List Layer}
    (h : LayersHaveSizes layers (Network.sizes inputs outputs))
    {batch : List FitSample} (fits : Fits layers grads)
    {start : Float32} (some : batch.foldlM (fun (loss, grads) sample => do
        let (more, grads, _) ← Gradient.addSample? sample scale layers grads sample.input
        return (loss + more, grads)) (start, grads) = some (loss, grads')) :
    ∀ x ∈ batch, x.action < outputs := by
  have layered : layers ≠ [] := by
    rintro rfl
    exact h
  induction batch generalizing start grads with
  | nil => exact fun _ => nofun
  | cons sample batch ih =>
    simp only [List.foldlM_cons, Option.bind_eq_bind, Option.bind_eq_some_iff, Option.pure_def,
      Option.some.injEq] at some
    obtain ⟨_, ⟨⟨more, grads'', signal⟩, added, rfl⟩, rest⟩ := some
    have action := action_lt_of_addSample? h fits added
    have out : _ = Option.some (forward layers sample.input).length :=
      length_forward h fun none => (layered none).elim
    obtain ⟨_, _, _, added', -, fits', -⟩ :=
      addSample?_some h fits (fun none => (layered none).elim) action scale
    rw [added] at added'
    cases added'
    refine List.forall_mem_cons.2 ⟨?_, ih fits' rest⟩
    rw [← Option.some.inj out] at action
    exact action

end Samples

theorem actions_lt_of_fit? (h : n.HasShape inputs outputs) {batch : List FitSample}
    {limit loss : Float32} (fitted : n.fit? batch limit = some (loss, m)) :
    ∀ x ∈ batch, x.action < outputs := by
  by_cases none : batch = []
  · rw [none]
    exact fun _ => nofun
  rw [fit?, if_neg (by simpa using none)] at fitted
  simp only [Option.bind_eq_bind, Option.bind_eq_some_iff] at fitted
  obtain ⟨⟨_, _⟩, batched, -⟩ := fitted
  exact actions_lt_of_foldlM h (fits_zero h) batched

/-- A fit that is defined keeps the shape and the mode. -/
theorem HasShape.of_fit? (h : n.HasShape inputs outputs) {batch : List FitSample}
    {limit loss : Float32} (fitted : n.fit? batch limit = some (loss, m)) :
    m.HasShape inputs outputs ∧ m.training = n.training := by
  obtain ⟨_, _, fitted', shape, mode, -⟩ | ⟨none, -⟩ := h.fit (actions_lt_of_fit? h fitted) limit
  · rw [fitted] at fitted'
    cases fitted'
    exact ⟨shape, mode⟩
  · rw [fitted] at none
    cases none

/-! ## Saving and loading -/

/-- A network that is new or was loaded, and was fitted and given learning rates in any order. -/
inductive Reached (inputs outputs : ℕ) : Network → Prop
  | obtained {n : Network} : Obtained inputs outputs n → Reached inputs outputs n
  | fitted {n m : Network} {batch : List FitSample} {limit loss : Float32} :
    Reached inputs outputs n → n.fit? batch limit = some (loss, m) → Reached inputs outputs m
  | rated {n : Network} (learningRate : Float32) :
    Reached inputs outputs n → Reached inputs outputs { n with learningRate }

/-- By induction on what was done with the network. -/
theorem Reached.hasShape (h : Reached inputs outputs n) :
    n.HasShape inputs outputs ∧ n.training = true := by
  induction h with
  | obtained h =>
    refine ⟨h.hasShape, ?_⟩
    cases h with
    | new => rfl
    | loaded d directory h =>
      obtain ⟨_, _, -, -, rfl, -⟩ := stored_of_load h
      rfl
  | fitted _ fitted ih =>
    obtain ⟨shape, mode⟩ := ih.1.of_fit? fitted
    exact ⟨shape, mode.trans ih.2⟩
  | rated _ _ ih => exact ih

theorem widths_lt {layers : List Layer} {sizes : List ℕ}
    (h : LayersHaveSizes layers sizes) {bound : ℕ}
    (small : ∀ width ∈ sizes, width < bound) :
    ∀ l ∈ layers, l.inputs < bound ∧ l.neurons.length < bound := by
  fun_induction LayersHaveSizes layers sizes with
  | case1 l layers inputs outputs rest ih =>
    obtain ⟨⟨hinputs, houtputs, -⟩, following⟩ := h
    refine List.forall_mem_cons.2 ⟨⟨?_, ?_⟩, ih following fun width hw => small width (.tail _ hw)⟩
    · exact hinputs ▸ small _ (by simp)
    · exact houtputs ▸ small _ (by simp)
  | case2 => exact List.forall_mem_nil _
  | case3 => exact h.elim

theorem save_eq (n : Network) (directory : String) (d : Disk) :
    n.save directory d =
      let file := path directory n.inputs n.outputs
      match d.makeDirectories directory with
      | .error e => .error (.model file (.disk e)) d
      | .ok made =>
        match made.writeText file n.toJson.compact with
        | .error e => .error (.model file (.disk e)) made
        | .ok written => .ok file written := by
  simp only [save, bind, EStateM.bind, get, getThe, MonadStateOf.get, EStateM.get]
  cases d.makeDirectories directory with
  | error e => rfl
  | ok made =>
    simp only [set]
    cases made.writeText (path directory n.inputs n.outputs) n.toJson.compact <;> rfl

/-- The text of a network that was saved is read from its path. -/
theorem of_save {directory saved : String} {d d' : Disk} (h : n.save directory d = .ok saved d') :
    saved = path directory n.inputs n.outputs ∧ d'.readText saved = .ok n.toJson.compact := by
  rw [save_eq] at h
  dsimp only at h
  split at h
  · cases h
  split at h
  · cases h
  rename_i written
  cases h
  exact ⟨rfl, Disk.readText_of_writeText written⟩

/-- What is loaded where the text of a network is. -/
theorem load_of_text {directory : String} {d : Disk} (shape : n.HasShape inputs outputs)
    (trained : n.training = true) (hinputs : inputs < 2 ^ 64) (houtputs : outputs < 2 ^ 64)
    (text : d.readText (path directory inputs outputs) = .ok n.toJson.compact) :
    if n.isFinite then load d directory inputs outputs = .ok n
    else ∃ e, load d directory inputs outputs =
      .error (.model (path directory inputs outputs) (.malformed e)) := by
  have small : ∀ width ∈ sizes inputs outputs, width < 2 ^ 64 := by
    simp only [sizes, List.forall_mem_cons]
    exact ⟨hinputs, by omega, by omega, houtputs, List.forall_mem_nil _⟩
  have stored := storedOfJson?_toJson (widths_lt shape small)
  have same : n.toStored.toNetwork = n := by
    rw [shape.toNetwork_toStored, ← trained]
  simp only [load, text, Json.parseAs, Json.parse_compact n.proper_toJson, bind,
    Except.bind, stored]
  split_ifs with finite
  · have fits : rowsFit n.toStored.layers (sizes inputs outputs) = true := rowsFit_of_layers shape
    simp only [pure, Except.pure, fits, if_true, same]
  · exact ⟨_, rfl⟩

/-- **Saved networks.** A network that is new or was loaded, and was fitted and given learning rates
in any order, is loaded as it was from the file that it was saved to, with all its parameters, their
moments, its step counter and its learning rate, if all these are finite. If one is not, the file
was written all the same, and is not read. -/
theorem saved_networks_resume (hn : Reached inputs outputs n) (hinputs : inputs < 2 ^ 64)
    (houtputs : outputs < 2 ^ 64) {directory saved : String} {d d' : Disk}
    (h : n.save directory d = .ok saved d') :
    (n.inputs = inputs ∧ n.outputs = outputs) ∧
    (n.isFinite = true → load d' directory n.inputs n.outputs = .ok n) ∧
    (n.isFinite = false →
      ∃ e, load d' directory n.inputs n.outputs = .error (.model saved (.malformed e))) := by
  obtain ⟨shape, trained⟩ := hn.hasShape
  obtain ⟨rfl, text⟩ := of_save h
  obtain ⟨hin, hout⟩ := shape.widths
  rw [hin, hout] at text ⊢
  have loaded := load_of_text shape trained hinputs houtputs text
  refine ⟨⟨rfl, rfl⟩, fun finite => ?_, fun infinite => ?_⟩
  · rw [if_pos finite] at loaded
    exact loaded
  · rw [if_neg (by simp [infinite])] at loaded
    exact loaded

/-! A new network with one neuron a layer, fitted once and saved to an empty directory: to a score
that it can come near to, and to one so far away that the averages of the squared gradients are
infinite. -/

def bareDisk : Disk := ⟨[(["model"], .directory)], []⟩

theorem exists_save_bareDisk (hn : n.HasShape 1 1) :
    ∃ saved d', n.save "model" bareDisk = .ok saved d' := by
  obtain ⟨hin, hout⟩ := hn.widths
  have made : bareDisk.makeDirectories "model" = .ok bareDisk := by decide +kernel
  have leads : bareDisk.Leads (path "model" 1 1) ["1_1.model.json", "model"] :=
    Disk.leads_of_leadsTo (by decide +kernel)
  have saved : n.save "model" bareDisk = .ok (path "model" 1 1)
      (bareDisk.put ["1_1.model.json", "model"] (.file n.toJson.compact.toUTF8)) := by
    rw [save_eq, hin, hout]
    simp only [made, Disk.writeText, leads.write]
  exact ⟨_, _, saved⟩

/-- The first network fitted to a score, with a limit for the gradients. -/
def fittedOnce (target limit : Float32) : Option (Float32 × Network) :=
  (new 1 1 0.01 1).fit? [⟨[1], 0, target⟩] limit

theorem reached_of_fittedOnce {target limit loss : Float32}
    (h : fittedOnce target limit = some (loss, n)) :
    Reached 1 1 n :=
  .fitted (.obtained (.new 0.01 1)) h

theorem saved_networks_resume_fitted : ∃ loss n saved d', fittedOnce 3 1 = some (loss, n) ∧
    n.save "model" bareDisk = .ok saved d' ∧ load d' "model" n.inputs n.outputs = .ok n := by
  have fitted : (fittedOnce 3 1).map (·.2.isFinite) = some true := by decide +kernel
  obtain ⟨⟨loss, n⟩, hfit, finite⟩ := Option.map_eq_some_iff.1 fitted
  have reached := reached_of_fittedOnce hfit
  obtain ⟨saved, d', hsave⟩ := exists_save_bareDisk reached.hasShape.1
  obtain ⟨-, loaded, -⟩ := saved_networks_resume reached (by decide) (by decide) hsave
  exact ⟨loss, n, saved, d', hfit, hsave, loaded finite⟩

/-- Nothing keeps a network from being saved that cannot be loaded. -/
theorem saved_network_may_be_lost : ¬∀ (inputs outputs : ℕ) (n : Network) (directory saved : String)
    (d d' : Disk), Reached inputs outputs n → n.save directory d = .ok saved d' →
      load d' directory n.inputs n.outputs = .ok n := by
  intro h
  have fitted : (fittedOnce 1e30 1e30).map (·.2.isFinite) = some false := by decide +kernel
  obtain ⟨⟨loss, n⟩, hfit, infinite⟩ := Option.map_eq_some_iff.1 fitted
  have reached := reached_of_fittedOnce hfit
  obtain ⟨shape, trained⟩ := reached.hasShape
  obtain ⟨saved, d', hsave⟩ := exists_save_bareDisk shape
  have loaded := h 1 1 n "model" saved bareDisk d' reached hsave
  obtain ⟨rfl, text⟩ := of_save hsave
  rw [shape.widths.1, shape.widths.2] at loaded text
  have lost := load_of_text shape trained (by decide) (by decide) text
  simp only [infinite, Bool.false_eq_true, if_false, loaded] at lost
  obtain ⟨e, lost⟩ := lost
  cases lost

end Network

end PassTuner
