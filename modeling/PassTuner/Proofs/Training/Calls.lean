import PassTuner.Training.Run
import PassTuner.Proofs.Training.Buffer

/-!
# Calls of a trainer

A trainer that was set up is used by calls: single episodes, whole runs, gradient steps and
evaluations, in any order and with tools that may be others every time. Here is what settings are
accepted, what a gradient step does, what is known of a trainer that was just set up, and what a
call leaves behind when it fails.
-/

theorem Except.of_bind_ok {ε α β : Type} {x : Except ε α} {f : α → Except ε β} {c : β}
    (h : x >>= f = .ok c) : ∃ a, x = .ok a ∧ f a = .ok c := by
  cases x with
  | error e => cases h
  | ok a => exact ⟨a, rfl, h⟩

theorem Except.of_map_ok {ε α β : Type} {x : Except ε α} {f : α → β} {b : β}
    (h : x.map f = .ok b) : ∃ a, x = .ok a ∧ f a = b := by
  cases x with
  | error e => cases h
  | ok a => cases h; exact ⟨a, rfl, rfl⟩

namespace PassTuner

/-! ## Settings -/

namespace TrainingSettings

variable {s : TrainingSettings}

/-- What is checked of settings. -/
structure Valid (s : TrainingSettings) : Prop where
  bufferCapacity : 0 < s.bufferCapacity
  batchSize : 0 < s.batchSize
  room : s.batchSize < s.bufferCapacity
  maxSteps : 0 < s.maxSteps
  updateInterval : 0 < s.updateInterval
  syncInterval : 0 < s.syncInterval
  evalInterval : 0 < s.evalInterval
  rolloutWorkers : 0 < s.rolloutWorkers
  gamma : 0 ≤ s.gamma ∧ s.gamma ≤ 1
  epsilon : 0 ≤ s.epsilon ∧ s.epsilon ≤ 1
  epsilonFloor : 0 ≤ s.epsilonFloor ∧ s.epsilonFloor ≤ s.epsilon
  epsilonDecay : 0 ≤ s.epsilonDecay ∧ s.epsilonDecay.isFinite
  holdoutFraction : 0 ≤ s.holdoutFraction ∧ s.holdoutFraction < 1
  learningRate : 0 < s.learningRate ∧ s.learningRate.isFinite
  gradClip : 0 < s.gradClip

theorem of_require {field : String} {fault : SettingFault} {holds : Bool}
    (h : require field fault holds = .ok ()) : holds = true := by
  unfold require at h
  split at h
  · assumption
  · cases h

theorem valid_of_validate (h : s.validate = .ok ()) : s.Valid := by
  unfold validate at h
  obtain ⟨_, hcapacity, h⟩ := Except.of_bind_ok h
  obtain ⟨_, hbatch, h⟩ := Except.of_bind_ok h
  dsimp only at h
  split at h
  · cases h
  rename_i hroom
  obtain ⟨_, hsteps, h⟩ := Except.of_bind_ok h
  obtain ⟨_, hupdate, h⟩ := Except.of_bind_ok h
  obtain ⟨_, hsync, h⟩ := Except.of_bind_ok h
  obtain ⟨_, heval, h⟩ := Except.of_bind_ok h
  obtain ⟨_, hworkers, h⟩ := Except.of_bind_ok h
  obtain ⟨_, hgamma, h⟩ := Except.of_bind_ok h
  obtain ⟨_, hepsilon, h⟩ := Except.of_bind_ok h
  obtain ⟨_, hfloor, h⟩ := Except.of_bind_ok h
  obtain ⟨_, hdecay, h⟩ := Except.of_bind_ok h
  obtain ⟨_, hfraction, h⟩ := Except.of_bind_ok h
  obtain ⟨_, hrate, hclip⟩ := Except.of_bind_ok h
  exact
    { bufferCapacity := by simpa using of_require hcapacity
      batchSize := by simpa using of_require hbatch
      room := Nat.not_le.1 hroom
      maxSteps := by simpa using of_require hsteps
      updateInterval := by simpa using of_require hupdate
      syncInterval := by simpa using of_require hsync
      evalInterval := by simpa using of_require heval
      rolloutWorkers := by simpa using of_require hworkers
      gamma := by simpa using of_require hgamma
      epsilon := by simpa using of_require hepsilon
      epsilonFloor := by simpa using of_require hfloor
      epsilonDecay := by simpa using of_require hdecay
      holdoutFraction := by simpa using of_require hfraction
      learningRate := by simpa using of_require hrate
      gradClip := by simpa using of_require hclip }

end TrainingSettings

variable {σ Q α β : Type}

namespace Trainer

variable {t t' : Trainer Q} {loss? : Option Float32}

/-! ## Picking programs -/

theorem of_pick {i : Nat} (h : t.pick = .ok (i, t')) : ∃ rng, t' = { t with rng } := by
  unfold pick at h
  split at h <;> cases h
  exact ⟨_, rfl⟩

theorem of_pickSome {workers : Nat} {jobs : List (Nat × UInt64)}
    (h : t.pickSome workers = .ok (jobs, t')) : ∃ rng, t' = { t with rng } := by
  unfold pickSome at h
  split at h <;> cases h
  exact ⟨_, rfl⟩

/-! ## Gradient steps -/

/-- There is enough in the buffer for a gradient step. -/
def Ready (t : Trainer Q) : Prop :=
  t.buffer.isEmpty = false ∧ t.settings.learnStarts ≤ t.buffer.length

/-- The trainer after a gradient step, whose number says whether the target is copied. -/
def stepped (t : Trainer Q) (buffer : Replay) (rng : Rng) (online : Q) (loss : Float32) :
    Trainer Q :=
  { t with
    buffer, rng, online
    gradientSteps := t.gradientSteps + 1
    losses := t.losses ++ [loss]
    target := if (t.gradientSteps + 1) % t.settings.syncInterval = 0 then online else t.target }

variable [Approximator Q]

/-- What a call for a gradient step answers, and the trainer after it. -/
inductive Learns (t : Trainer Q) : Option Float32 → Trainer Q → Prop where
  | few (unready : ¬t.Ready) : Learns t none t
  | blank {buffer : Replay} {rng : Rng} (ready : t.Ready)
    (sampled : t.buffer.sample t.settings.batchSize t.rng = .ok ([], buffer, rng)) :
    Learns t none { t with buffer, rng }
  | step {batch : List Transition} {buffer : Replay} {rng : Rng} {samples : List FitSample}
    {loss : Float32} {online : Q} (ready : t.Ready)
    (sampled : t.buffer.sample t.settings.batchSize t.rng = .ok (batch, buffer, rng))
    (taken : batch ≠ [])
    (aims : batch.mapM (fitSample? t.target t.settings.gamma.toFloat32) = some samples)
    (fit : Approximator.fit? t.online samples t.settings.gradClip = some (loss, online)) :
    Learns t (some loss) (t.stepped buffer rng online loss)

theorem learns_of_ok (h : t.learned = .ok (loss?, t')) : t.Learns loss? t' := by
  unfold learned at h
  split at h
  · rename_i hfew
    cases h
    refine .few fun ⟨hsome, henough⟩ => ?_
    rw [hsome, Bool.false_or, decide_eq_true_eq] at hfew
    omega
  rename_i henough
  simp only [Bool.or_eq_true, decide_eq_true_eq, not_or, Bool.not_eq_true, Nat.not_lt] at henough
  have ready : t.Ready := henough
  split at h
  · cases h
  rename_i batch buffer rng sampled
  dsimp only at h
  split at h
  · rename_i hnone
    rw [List.isEmpty_iff] at hnone
    rw [hnone] at sampled
    cases h
    exact .blank ready sampled
  rename_i hsome
  obtain ⟨⟨loss, t₁⟩, hfitted, h⟩ := Except.of_map_ok h
  cases h
  unfold fitted at hfitted
  split at hfitted
  · cases hfitted
  rename_i samples aims
  split at hfitted
  · cases hfitted
  rename_i online fit
  have hstep := Learns.step ready sampled (by simpa using hsome) aims fit
  cases hfitted
  unfold stepped at hstep
  dsimp only
  split at hstep <;> rename_i hdue
  · rwa [if_pos hdue]
  · rwa [if_neg hdue]

end Trainer

variable [Approximator Q]

namespace Trainer

variable {settings : TrainingSettings} {catalog : Catalog} {programs holdout : List Program}
  {q : Q} {rng : Rng} {t : Trainer Q}

/-! ## A new trainer -/

/-- A trainer that was set up, with a split that was given or with a random one. -/
inductive Built (settings : TrainingSettings) (catalog : Catalog) (programs : List Program)
    (q : Q) : Trainer Q → Prop where
  | split {training holdout : List Program} {t : Trainer Q} : programs = training ++ holdout →
      withSplit settings catalog training holdout q = .ok t → Built settings catalog programs q t
  | random {t : Trainer Q} : Trainer.new settings catalog programs q = .ok t →
      Built settings catalog programs q t

/-- What a trainer is like that was just set up for an approximator. -/
structure Starts (settings : TrainingSettings) (catalog : Catalog) (q : Q) (t : Trainer Q) :
    Prop where
  valid : settings.validate = .ok ()
  online : t.online = Approximator.setTraining true q
  target : t.target = Approximator.setTraining true q
  buffer : t.buffer = .new settings.bufferCapacity settings.sampling
  programs : 0 < t.programs.length
  outputs : Approximator.outputDim q = catalog.size
  settings : t.settings = settings
  catalog : t.catalog = catalog

theorem starts_of_ofParts (hv : settings.validate = .ok ())
    (h : ofParts settings catalog programs holdout q rng = .ok t) :
    Starts settings catalog q t ∧ t.programs = programs ∧ t.holdout = holdout := by
  simp only [ofParts, bind, Except.bind, pure, Except.pure, throw, throwThe,
    MonadExceptOf.throw] at h
  split at h
  · cases h
  rename_i hne
  split at h
  · cases h
  split at h
  · cases h
  rename_i hout
  split at h
  · cases h
  cases h
  refine ⟨⟨hv, rfl, rfl, rfl, ?_, not_not.1 hout, rfl, rfl⟩, rfl, rfl⟩
  exact List.length_pos_iff.2 (by simpa using hne)

theorem mem_drawHoldout {n : Nat} (h : n ≤ programs.length) (r : Rng) :
    ∀ p ∈ (drawHoldout n programs h r).1 ++ (drawHoldout n programs h r).2.1, p ∈ programs := by
  induction n generalizing programs r with
  | zero => exact fun _ hp => hp
  | succ n ih =>
    intro p hp
    simp only [drawHoldout, List.append_assoc, List.mem_append, Option.mem_toList] at hp
    rcases hp with hp | hp
    · exact List.mem_of_getElem? hp
    · exact (subperm_swapRemove _ _).subset (ih _ _ p (List.mem_append.2 hp))

/-- A trainer that was set up is as it should be, and has no programs but those it was given. -/
theorem Built.starts (h : Built settings catalog programs q t) :
    Starts settings catalog q t ∧ ∀ p ∈ t.programs ++ t.holdout, p ∈ programs := by
  cases h with
  | split hp h =>
    obtain ⟨⟨⟩, hv, h⟩ := Except.of_bind_ok h
    obtain ⟨hs, ht, hh⟩ := starts_of_ofParts hv h
    rw [ht, hh, hp]
    exact ⟨hs, fun _ hp => hp⟩
  | random h =>
    obtain ⟨⟨⟩, hv, h⟩ := Except.of_bind_ok h
    dsimp only at h
    split at h
    · rename_i hcount
      obtain ⟨hs, ht, hh⟩ := starts_of_ofParts hv h
      rw [ht, hh]
      refine ⟨hs, fun p hp => mem_drawHoldout hcount (.ofSeed settings.seed) p ?_⟩
      exact List.mem_append.2 (List.mem_append.1 hp).symm
    · cases h

theorem Built.outputs (h : Built settings catalog programs q t) :
    Approximator.outputDim q = catalog.size := h.starts.1.outputs

end Trainer

namespace Training

/-- What a trainer can be asked to do. -/
inductive Call where
  | runEpisode
  | train
  | learn
  | evaluate
  deriving DecidableEq, Repr

/-- Makes a call, whatever it answers. -/
def perform (tc : Toolchain σ) : Call → Training σ Q Unit
  | .runEpisode => do let _ ← runEpisode tc
  | .train => do let _ ← train tc
  | .learn => do let _ ← learn
  | .evaluate => do let _ ← evaluate tc

/-- The lab after work, however it ended. -/
def after (work : Training σ Q α) (l : Lab σ Q) : Lab σ Q :=
  match work l with
  | .ok _ l => l
  | .error _ l => l

end Training

end PassTuner
