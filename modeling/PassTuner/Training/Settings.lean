import PassTuner.Training.Replay

/-!
# Settings of a training run

Whatever a settings file leaves out keeps its standard value. `validate` reports the first value
that no run can work with.
-/

namespace PassTuner

structure TrainingSettings where
  seed : UInt64 := 0
  /-- Episodes after which training is over. -/
  maxEpisodes : Nat := 100000
  /-- Steps of an episode. -/
  maxSteps : Nat := 30
  bufferCapacity : Nat := 1000
  batchSize : Nat := 128
  sampling : SamplingPolicy := .retain
  /-- The discount of what comes after a step. -/
  gamma : Float := 0.9
  learningRate : Float32 := 0.01
  /-- What every element of a gradient is clamped to. -/
  gradClip : Float32 := 1
  /-- The probability of exploring at the start. -/
  epsilon : Float := 0.9
  epsilonFloor : Float := 0.01
  /-- What a selection takes off epsilon. -/
  epsilonDecay : Float := 0.00001
  /-- Episodes between two gradient steps. -/
  updateInterval : Nat := 1
  /-- Transitions that must be there before the first gradient step. -/
  learnStarts : Nat := 1
  /-- Gradient steps between two copies of the online network. -/
  syncInterval : Nat := 100
  /-- Episodes between two evaluations. -/
  evalInterval : Nat := 1000
  /-- The share of the programs that is kept for evaluation. -/
  holdoutFraction : Float := 0.2
  /-- Episodes of a round. -/
  rolloutWorkers : Nat := 1

namespace TrainingSettings

/-- A condition on the value of a field. -/
def require (field : String) (fault : SettingFault) (holds : Bool) : Except TrainingError Unit :=
  if holds then .ok () else .error (.invalidSetting field fault)

def validate (s : TrainingSettings) : Except TrainingError Unit := do
  require "buffer_capacity" .notPositive (0 < s.bufferCapacity)
  require "batch_size" .notPositive (0 < s.batchSize)
  if s.bufferCapacity ≤ s.batchSize then throw (.batchTooLarge s.batchSize s.bufferCapacity)
  require "max_steps" .notPositive (0 < s.maxSteps)
  require "update_interval" .notPositive (0 < s.updateInterval)
  require "sync_interval" .notPositive (0 < s.syncInterval)
  require "eval_interval" .notPositive (0 < s.evalInterval)
  require "rollout_workers" .notPositive (0 < s.rolloutWorkers)
  require "gamma" .outsideUnit (0 ≤ s.gamma && s.gamma ≤ 1)
  require "epsilon" .outsideUnit (0 ≤ s.epsilon && s.epsilon ≤ 1)
  require "epsilon_floor" .aboveEpsilon (0 ≤ s.epsilonFloor && s.epsilonFloor ≤ s.epsilon)
  require "epsilon_decay" .negative (0 ≤ s.epsilonDecay && s.epsilonDecay.isFinite)
  require "holdout_fraction" .notBelowOne (0 ≤ s.holdoutFraction && s.holdoutFraction < 1)
  require "learning_rate" .notPositive (0 < s.learningRate && s.learningRate.isFinite)
  require "grad_clip" .notPositive (0 < s.gradClip)

def toJson (s : TrainingSettings) : Json :=
  .ofFields [("seed", .ofNat s.seed.toNat), ("max_episodes", .ofNat s.maxEpisodes),
    ("max_steps", .ofNat s.maxSteps), ("buffer_capacity", .ofNat s.bufferCapacity),
    ("batch_size", .ofNat s.batchSize), ("sampling", s.sampling.toJson),
    ("gamma", .ofFloat s.gamma), ("learning_rate", .ofFloat32 s.learningRate),
    ("grad_clip", .ofFloat32 s.gradClip), ("epsilon", .ofFloat s.epsilon),
    ("epsilon_floor", .ofFloat s.epsilonFloor),
    ("epsilon_decay", .ofFloat s.epsilonDecay), ("update_interval", .ofNat s.updateInterval),
    ("learn_starts", .ofNat s.learnStarts), ("sync_interval", .ofNat s.syncInterval),
    ("eval_interval", .ofNat s.evalInterval), ("holdout_fraction", .ofFloat s.holdoutFraction),
    ("rollout_workers", .ofNat s.rolloutWorkers)]

def fieldNames : List String :=
  ["seed", "max_episodes", "max_steps", "buffer_capacity", "batch_size", "sampling", "gamma",
    "learning_rate", "grad_clip", "epsilon", "epsilon_floor", "epsilon_decay", "update_interval",
    "learn_starts", "sync_interval", "eval_interval", "holdout_fraction", "rollout_workers"]

def ofJson? (j : Json) : Option TrainingSettings := do
  let r ← j.record? fieldNames
  let s : TrainingSettings := {}
  let count (name : String) (default : Nat) := r.withDefault name default (Json.nat? 64)
  let real (name : String) (default : Float) := r.withDefault name default Json.float?
  let single (name : String) (default : Float32) := r.withDefault name default Json.float32?
  return {
    seed := UInt64.ofNat (← count "seed" s.seed.toNat)
    maxEpisodes := ← count "max_episodes" s.maxEpisodes
    maxSteps := ← count "max_steps" s.maxSteps
    bufferCapacity := ← count "buffer_capacity" s.bufferCapacity
    batchSize := ← count "batch_size" s.batchSize
    sampling := ← r.withDefault "sampling" s.sampling SamplingPolicy.ofJson?
    gamma := ← real "gamma" s.gamma
    learningRate := ← single "learning_rate" s.learningRate
    gradClip := ← single "grad_clip" s.gradClip
    epsilon := ← real "epsilon" s.epsilon
    epsilonFloor := ← real "epsilon_floor" s.epsilonFloor
    epsilonDecay := ← real "epsilon_decay" s.epsilonDecay
    updateInterval := ← count "update_interval" s.updateInterval
    learnStarts := ← count "learn_starts" s.learnStarts
    syncInterval := ← count "sync_interval" s.syncInterval
    evalInterval := ← count "eval_interval" s.evalInterval
    holdoutFraction := ← real "holdout_fraction" s.holdoutFraction
    rolloutWorkers := ← count "rollout_workers" s.rolloutWorkers }

end TrainingSettings

end PassTuner
