import PassTuner.Proofs.Network.Positions

/-!
# Loaded networks

What is read from a network's file is checked once, when it is read. Main statement: rows that pass
the check can be used. Every position that the network's computations ask for is there, before and
after any number of optimizer steps.
-/

namespace PassTuner.Network

/-- What can be done with the rows of a network between two widths, by position and by layers. -/
structure Stored.Usable (s : Stored) (width actions : Nat) : Prop where
  inputs : s.inputs = width
  outputs : s.outputs = actions
  /-- An input of the network's width gets a score for every action. -/
  predict : ∀ input : List Float32, input.length = width → ∃ scores,
    s.predict input = .ok scores ∧ scores.length = actions ∧
      s.toNetwork.predict? input = some scores
  /-- A batch of such actions is fitted to, with inputs of any width, unless its limit cannot be
  used or there are no more steps to count. -/
  fit : ∀ (batch : List FitSample) (limit : Float32), (∀ x ∈ batch, x.action < actions) →
    (∃ loss s', s.fit batch limit = .ok (loss, s') ∧ s'.Shaped width actions ∧
      s.toNetwork.fit? batch limit = some (loss, s'.toNetwork)) ∨
    s.fit batch limit = .error .limit ∧ batch ≠ [] ∧ ¬-limit ≤ limit ∨
    s.fit batch limit = .error .counter ∧ batch ≠ [] ∧ s.steps.toNat + 1 = UInt32.size

variable {s : Stored} {n : Network} {inputs outputs : Nat}

theorem Stored.Shaped.usable (h : s.Shaped inputs outputs) : s.Usable inputs outputs := by
  obtain ⟨rows, shape⟩ := h.toStored_toNetwork
  refine ⟨h.widths.1, h.widths.2, fun input width => ?_, fun batch limit actions => ?_⟩
  · obtain ⟨scores, model, count, positions⟩ := shape.predict width
    rw [rows] at positions
    exact ⟨scores, positions, count, model⟩
  · obtain ⟨loss, n', model, shape', mode, positions⟩ | ⟨-, some, stopped⟩ :=
      shape.fit actions limit
    · rw [rows] at positions
      refine .inl ⟨loss, n'.toStored, positions, shape'.shaped, ?_⟩
      have same : { n' with training := true } = n' := by
        obtain ⟨_, _, _, training⟩ := n'
        exact congrArg _ mode.symm
      rw [shape'.toNetwork_toStored, same, model]
    · rw [rows] at stopped
      obtain ⟨limit, hfit⟩ | ⟨last, hfit⟩ := stopped
      · exact .inr (.inl ⟨hfit, some, limit⟩)
      · exact .inr (.inr ⟨hfit, some, last⟩)

/-- What a network's file must say for the network to be loaded. -/
theorem stored_of_load {d : Disk} {directory : String}
    (h : load d directory inputs outputs = .ok n) :
    ∃ text s, d.readText (path directory inputs outputs) = .ok text ∧
      Json.parseAs storedOfJson? text = .ok s ∧ s.toNetwork = n ∧ s.Shaped inputs outputs := by
  simp only [load] at h
  split at h
  · cases h
  rename_i text htext
  split at h
  · cases h
  rename_i s hs
  split at h
  · rename_i fits
    cases h
    exact ⟨text, s, htext, hs, rfl, rowsHaveSizes_of_rowsFit fits⟩
  · cases h

/-- **Loaded networks are usable.** A network that is loaded has the widths it is loaded for, and
every row of every layer the length that they ask for. So has a new network, and so it stays with
every optimizer step; and with such rows no score, gradient or step is ever stopped for want of a
position. -/
theorem loaded_networks_are_usable (inputs outputs : Nat) :
    (∀ (d : Disk) (directory : String) (n : Network), load d directory inputs outputs = .ok n →
      n.inputs = inputs ∧ n.outputs = outputs ∧ ∃ text s,
        d.readText (path directory inputs outputs) = .ok text ∧
        Json.parseAs storedOfJson? text = .ok s ∧ s.toNetwork = n ∧ s.Shaped inputs outputs) ∧
    (∀ (learningRate : Float32) (seed : UInt64),
      (new inputs outputs learningRate seed).toStored.Shaped inputs outputs) ∧
    ∀ s : Stored, s.Shaped inputs outputs → s.Usable inputs outputs := by
  refine ⟨fun d directory n h => ?_, fun rate seed => (hasShape_new ..).shaped, fun s h => h.usable⟩
  obtain ⟨text, s, htext, hs, rfl, shaped⟩ := stored_of_load h
  obtain ⟨hinputs, houtputs⟩ := shaped.toStored_toNetwork.2.widths
  exact ⟨hinputs, houtputs, text, s, htext, hs, rfl, shaped⟩

/-! A network with one neuron a layer, whose file has no names. -/

def smallText : String :=
  "[[[1,1,[1],[1],[0],[0],[0],[0]],[1,1,[1],[1],[0],[0],[0],[0]],[1,1,[1],[1],[0],[0],[0],[0]]],1,7]"

def smallDisk : Disk :=
  ⟨[(["model"], .directory), (["1_1.model.json", "model"], .file smallText.toUTF8)], []⟩

theorem loads_smallDisk : (load smallDisk "model" 1 1).toOption.map (·.steps.toNat) = some 7 := by
  decide +kernel

theorem loaded_networks_are_usable_small : ∃ (n : Network) (s : Stored),
    load smallDisk "model" 1 1 = .ok n ∧ n.inputs = 1 ∧ n.outputs = 1 ∧ s.toNetwork = n ∧
    (∃ scores, s.predict [1] = .ok scores ∧ scores.length = 1) ∧
    s.fit [⟨[1, 1], 0, 3⟩] 1 ≠ .error .range := by
  obtain ⟨loaded, -, usable⟩ := loaded_networks_are_usable 1 1
  cases hload : load smallDisk "model" 1 1 with
  | error e =>
    have hsome := loads_smallDisk
    rw [hload] at hsome
    cases hsome
  | ok n =>
    obtain ⟨hinputs, houtputs, _, s, -, -, hs, shaped⟩ := loaded _ _ _ hload
    obtain ⟨scores, hscores, count, -⟩ := (usable s shaped).predict [1] rfl
    refine ⟨n, s, rfl, hinputs, houtputs, hs, ⟨scores, hscores, count⟩, ?_⟩
    obtain ⟨loss, s', hfit, -⟩ | ⟨hfit, -⟩ | ⟨hfit, -⟩ :=
      (usable s shaped).fit [⟨[1, 1], 0, 3⟩] 1 (by decide)
      <;> rw [hfit] <;> exact nofun

end PassTuner.Network
