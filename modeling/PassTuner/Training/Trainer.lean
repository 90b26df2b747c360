import PassTuner.Training.Rollout
import PassTuner.Training.Settings

/-!
# The trainer

A trainer owns its programs, the online approximator and its older copy, the target, the exploration
schedule and the replay buffer. It is set up with programs to train on and programs held out for
evaluation, which may be a random split.
-/

namespace PassTuner

/-- How the greedy policy did on one program. -/
structure ProgramResult where
  program : String
  /-- Base cost over final cost; one if no step succeeded. -/
  speedup : Float
  steps : Nat
  /-- The flags that were applied, in order. -/
  flags : List String
  firstStepFailed : Bool

/-- One evaluation on the programs held out. -/
structure Evaluation where
  /-- Episodes done at the time. -/
  episode : Nat
  meanSpeedup : Float
  programs : List ProgramResult

structure TrainingReport where
  episodes : Nat
  gradientSteps : Nat
  finalEpsilon : Float
  losses : List Float32
  evaluations : List Evaluation

structure Trainer (Q : Type) where
  settings : TrainingSettings
  catalog : Catalog
  programs : List Program
  holdout : List Program
  online : Q
  target : Q
  schedule : Exploration
  buffer : Replay
  rng : Rng
  episodes : Nat := 0
  gradientSteps : Nat := 0
  losses : List Float32 := []
  evaluations : List Evaluation := []

namespace Trainer

/-- The first program that was measured with another number of features than the approximator takes.
-/
def checkDims (expected : Nat) : List Program → Except TrainingError Unit
  | [] => .ok ()
  | p :: rest =>
    match p.state? with
    | some o =>
      if o.length ≠ expected then .error (.dimensionMismatch expected o.length p.name)
      else checkDims expected rest
    | none => checkDims expected rest

/-- A trainer whose settings are known to be valid. -/
def ofParts [Approximator Q] (settings : TrainingSettings) (catalog : Catalog)
    (programs holdout : List Program) (online : Q) (rng : Rng) :
    Except TrainingError (Trainer Q) := do
  let inputs := Approximator.inputDim online
  let outputs := Approximator.outputDim online
  if programs.isEmpty then throw .noPrograms
  if inputs = 0 then throw (.invalidSetting "approximator" .noFeatures)
  if outputs ≠ catalog.size then
    throw (.invalidSetting "approximator" (.outputs outputs catalog.size))
  checkDims inputs (programs ++ holdout)
  let online := Approximator.setTraining true online
  return {
    settings, catalog, programs, holdout, online, rng
    target := online
    schedule := ⟨settings.epsilon, settings.epsilonFloor, settings.epsilonDecay⟩
    buffer := .new settings.bufferCapacity settings.sampling }

/-- A trainer for a given split. -/
def withSplit [Approximator Q] (settings : TrainingSettings) (catalog : Catalog)
    (programs holdout : List Program) (online : Q) : Except TrainingError (Trainer Q) := do
  settings.validate
  ofParts settings catalog programs holdout online (.ofSeed settings.seed)

/-- So many programs drawn out of a list, and the others. -/
def drawHoldout : (n : Nat) → (programs : List Program) → n ≤ programs.length → Rng →
    List Program × List Program × Rng
  | 0, programs, _, r => ([], programs, r)
  | n + 1, programs, h, r =>
    let drawn := r.below programs.length (by omega)
    let more := drawHoldout n (swapRemove programs drawn.1) (by rw [length_swapRemove]; omega)
      drawn.2
    ((programs[drawn.1]?).toList ++ more.1, more.2)

/-- How many of `n` programs a share is; the conversion rounds down. -/
def holdoutCount (n : Nat) (fraction : Float) : Nat :=
  (Float.ofNat n * fraction).toUInt64.toNat

/-- A trainer for a random split. -/
def new [Approximator Q] (settings : TrainingSettings) (catalog : Catalog) (programs : List Program)
    (online : Q) : Except TrainingError (Trainer Q) := do
  settings.validate
  let count := holdoutCount programs.length settings.holdoutFraction
  if h : count ≤ programs.length then
    let (holdout, programs, rng) := drawHoldout count programs h (.ofSeed settings.seed)
    ofParts settings catalog programs holdout online rng
  else throw .outsideDomain

/-- Everything that was measured so far. -/
def report (t : Trainer Q) : TrainingReport where
  episodes := t.episodes
  gradientSteps := t.gradientSteps
  finalEpsilon := t.schedule.epsilon
  losses := t.losses
  evaluations := t.evaluations

/-- Copies the online approximator into the target. -/
def sync (t : Trainer Q) : Trainer Q := { t with target := t.online }

/-- The target of a transition: its reward and the discounted best score at its end. -/
def fitSample? [Approximator Q] (target : Q) (gamma : Float32) (x : Transition) :
    Option FitSample :=
  (Approximator.predict? target x.next.inputs).map fun scores =>
    let best := ((argmax scores).bind (scores[·]?)).getD 0
    { input := x.state.inputs, action := x.action.toNat,
      target := x.reward.toFloat32 + gamma * best }

/-- The trainer after a gradient step on transitions taken from its buffer. -/
def fitted [Approximator Q] (t : Trainer Q) (batch : List Transition) :
    Except TrainingError (Float32 × Trainer Q) :=
  match batch.mapM (fitSample? t.target t.settings.gamma.toFloat32) with
  | none => .error .outsideDomain
  | some samples =>
    match Approximator.fit? t.online samples t.settings.gradClip with
    | none => .error .outsideDomain
    | some (loss, online) =>
      let t := { t with online, gradientSteps := t.gradientSteps + 1, losses := t.losses ++ [loss] }
      .ok (loss, if t.gradientSteps % t.settings.syncInterval = 0 then t.sync else t)

/-- One gradient step on a sample of the buffer, unless it holds too little. -/
def learned [Approximator Q] (t : Trainer Q) : Except TrainingError (Option Float32 × Trainer Q) :=
  if t.buffer.isEmpty || t.buffer.length < t.settings.learnStarts then .ok (none, t)
  else
    match t.buffer.sample t.settings.batchSize t.rng with
    | .error e => .error e
    | .ok (batch, buffer, rng) =>
      let t := { t with buffer, rng }
      if batch.isEmpty then .ok (none, t)
      else (t.fitted batch).map fun (loss, t) => (some loss, t)

/-! ## Choosing programs -/

/-- The position of a uniformly chosen program. -/
def pick (t : Trainer Q) : Except TrainingError (Nat × Trainer Q) :=
  if h : 0 < t.programs.length then
    let drawn := t.rng.below t.programs.length h
    .ok (drawn.1, { t with rng := drawn.2 })
  else .error .outsideDomain

/-- The positions of so many distinct programs, each with a seed. -/
def pickSome (workers : Nat) (t : Trainer Q) :
    Except TrainingError (List (Nat × UInt64) × Trainer Q) :=
  if h : workers ≤ t.programs.length then
    let picked := t.rng.subset t.programs.length workers h
    let seeds := picked.2.seeds workers
    .ok (picked.1.zip seeds.1, { t with rng := seeds.2 })
  else .error .outsideDomain

end Trainer

end PassTuner
