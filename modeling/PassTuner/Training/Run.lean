import PassTuner.Training.Trainer

/-!
# Training

Episodes are rolled out one at a time, or several a round on distinct programs. After every episode
the network learns, and is evaluated, when its interval says so. Evaluation acts greedily on the
programs held out; schedule and mode are as before when it is over, also when it failed.
-/

namespace PassTuner

/-- A trainer and the world its programs are in. -/
structure Lab (σ Q : Type) where
  world : World σ
  trainer : Trainer Q

abbrev Training (σ Q : Type) (α : Type) := EStateM TrainingError (Lab σ Q) α

namespace Training

def trainer : Training σ Q (Trainer Q) := do return (← get).trainer

def modifyTrainer (f : Trainer Q → Trainer Q) : Training σ Q Unit :=
  modify fun l => { l with trainer := f l.trainer }

/-- What a trainer does by itself. -/
def ofTrainer (f : Trainer Q → Except TrainingError (α × Trainer Q)) : Training σ Q α := fun l =>
  match f l.trainer with
  | .ok (a, trainer) => .ok a { l with trainer }
  | .error e => .error e l

/-- Where a program of the trainer is. -/
inductive Role where
  | trained
  | heldOut
  deriving DecidableEq, Repr

def programsOf (t : Trainer Q) : Role → List Program
  | .trained => t.programs
  | .heldOut => t.holdout

def setProgram (t : Trainer Q) (role : Role) (i : Nat) (p : Program) : Trainer Q :=
  match role with
  | .trained => { t with programs := t.programs.set i p }
  | .heldOut => { t with holdout := t.holdout.set i p }

/-- Rolls out one of the programs, led by random numbers of its own and the trainer's schedule, and
answers those numbers' generator too. -/
def rollout [Approximator Q] (tc : Toolchain σ) (role : Role) (i : Nat) (rng : Rng) :
    Training σ Q (Except TrainingError Rollout × Rng) := fun l =>
  match (programsOf l.trainer role)[i]? with
  | none => .error .noPrograms l
  | some p =>
    let t := l.trainer
    let trail : Trail σ := ⟨⟨l.world, p⟩, ⟨t.schedule, rng⟩⟩
    let back (result : Except TrainingError Rollout) (trail : Trail σ) :
        EStateM.Result TrainingError (Lab σ Q) (Except TrainingError Rollout × Rng) :=
      let t := setProgram t role i trail.bench.program
      .ok (result, trail.explorer.rng)
        ⟨trail.bench.world, { t with schedule := trail.explorer.schedule }⟩
    match Walk.rollout tc t.catalog t.online t.settings.maxSteps trail with
    | .ok r trail => back (.ok r) trail
    | .error e trail => back (.error e) trail

/-- Rolls out one of the programs with the trainer's own random numbers. -/
def rolloutNext [Approximator Q] (tc : Toolchain σ) (role : Role) (i : Nat) :
    Training σ Q Rollout := do
  let (result, rng) ← rollout tc role i (← trainer).rng
  modifyTrainer fun t => { t with rng }
  match result with
  | .ok r => return r
  | .error e => throw e

/-- One gradient step. -/
def learn [Approximator Q] : Training σ Q (Option Float32) := ofTrainer Trainer.learned

/-! ## Evaluation -/

/-- The result of a greedy rollout. -/
def resultOf (catalog : Catalog) (p : Program) (baseCost : Option Float) (r : Rollout) :
    Except TrainingError ProgramResult :=
  let firstStepFailed := r.episode.isEmpty
  let speedup : Float :=
    match baseCost, r.finalCost with
    | some base, some last =>
      if firstStepFailed then 1
      else match Cost.speedup base last with
        | .ok x => x
        | .error _ => 1
    | _, _ => 1
  match catalog.describeAll r.episode.actions with
  | .error e => .error (.environment (.variant e))
  | .ok flags =>
    .ok { program := p.name, speedup, steps := r.episode.length, flags, firstStepFailed }

/-- Greedy rollouts of so many held-out programs, from one of them on. -/
def evaluateFrom [Approximator Q] (tc : Toolchain σ) : Nat → Nat → Training σ Q (List ProgramResult)
  | 0, _ => return []
  | n + 1, i => do
    match (← trainer).holdout[i]? with
    | none => return []
    | some p =>
      let baseCost := p.baseCost?
      let r ← rolloutNext tc .heldOut i
      match resultOf (← trainer).catalog p baseCost r with
      | .error e => throw e
      | .ok result => return result :: (← evaluateFrom tc n (i + 1))

/-- The mean of speedups, summed from the left starting at negative zero; one if there are none. -/
def meanSpeedup (results : List ProgramResult) : Float :=
  if results.isEmpty then 1
  else results.foldl (fun sum r => sum + r.speedup) (-0.0) / Float.ofNat results.length

def evaluateHoldout [Approximator Q] (tc : Toolchain σ) : Training σ Q Evaluation := do
  let t ← trainer
  let programs ← evaluateFrom tc t.holdout.length 0
  return { episode := t.episodes, meanSpeedup := meanSpeedup programs, programs }

/-- The trainer with exploration switched off. -/
def greedily [Approximator Q] (t : Trainer Q) : Trainer Q :=
  { t with
    schedule := { t.schedule with epsilon := 0 }
    online := Approximator.setTraining false t.online }

/-- A trainer with epsilon and mode as another has them. -/
def restored [Approximator Q] (before t : Trainer Q) : Trainer Q :=
  { t with
    schedule := { t.schedule with epsilon := before.schedule.epsilon }
    online := Approximator.setTraining (Approximator.isTraining before.online) t.online }

/-- Runs the greedy policy on every held-out program. -/
def evaluate [Approximator Q] (tc : Toolchain σ) : Training σ Q Evaluation := fun l =>
  match evaluateHoldout tc { l with trainer := greedily l.trainer } with
  | .ok e after => .ok e { after with trainer := restored l.trainer after.trainer }
  | .error e after => .error e { after with trainer := restored l.trainer after.trainer }

/-! ## Episodes -/

/-- Counts an episode, and learns and evaluates if it is time. -/
def finishEpisode [Approximator Q] (tc : Toolchain σ) : Training σ Q Unit := do
  modifyTrainer fun t => { t with episodes := t.episodes + 1 }
  let t ← trainer
  if t.episodes % t.settings.updateInterval = 0 then
    let _ ← learn
  let t ← trainer
  if !t.holdout.isEmpty && t.episodes % t.settings.evalInterval = 0 then
    let evaluation ← evaluate tc
    modifyTrainer fun t => { t with evaluations := t.evaluations ++ [evaluation] }

/-- One episode on a uniformly chosen program; answers the number of its transitions. -/
def runEpisode [Approximator Q] (tc : Toolchain σ) : Training σ Q Nat := do
  let i ← ofTrainer Trainer.pick
  let r ← rolloutNext tc .trained i
  modifyTrainer fun t =>
    let (buffer, rng) := t.buffer.push r.episode t.rng
    { t with buffer, rng }
  finishEpisode tc
  return r.episode.length

/-- Rolls out a program with a seed of its own and takes in what it gathered; answers how that
ended.
-/
def runJob [Approximator Q] (tc : Toolchain σ) (i : Nat) (seed : UInt64) :
    Training σ Q (Except TrainingError Unit) := do
  let (result, rng) ← rollout tc .trained i (.ofSeed seed)
  match result with
  | .error e => return .error e
  | .ok r =>
    modifyTrainer fun t => { t with buffer := (t.buffer.push r.episode rng).1 }
    return .ok ()

/-- Rolls out programs in turn, each with its seed. -/
def runJobs [Approximator Q] (tc : Toolchain σ) :
    List (Nat × UInt64) → Training σ Q (List (Except TrainingError Unit))
  | [] => return []
  | (i, seed) :: rest => do
    let result ← runJob tc i seed
    return result :: (← runJobs tc rest)

/-- Finishes the episodes of a round in turn, up to the first that failed. -/
def finishJobs [Approximator Q] (tc : Toolchain σ) :
    List (Except TrainingError Unit) → Training σ Q Unit
  | [] => return ()
  | .error e :: _ => throw e
  | .ok () :: rest => do
    finishEpisode tc
    finishJobs tc rest

/-- A round of episodes on distinct programs. -/
def runRound [Approximator Q] (tc : Toolchain σ) (workers : Nat) : Training σ Q Unit := do
  finishJobs tc (← runJobs tc (← ofTrainer (Trainer.pickSome workers)))

/-- Episodes of the next round. -/
def roundSize (t : Trainer Q) : Nat :=
  min (min t.settings.rolloutWorkers t.programs.length) (t.settings.maxEpisodes - t.episodes)

/-- Trains until enough episodes are done; every turn does one at least, so the fuel that is needed
is their number. -/
def trainFor [Approximator Q] (tc : Toolchain σ) : Nat → Training σ Q Unit
  | 0 => return ()
  | turns + 1 => do
    let t ← trainer
    if t.episodes < t.settings.maxEpisodes then
      if 1 < roundSize t then runRound tc (roundSize t)
      else
        let _ ← runEpisode tc
      trainFor tc turns

/-- Trains to the end. -/
def train [Approximator Q] (tc : Toolchain σ) : Training σ Q TrainingReport := do
  trainFor tc (← trainer).settings.maxEpisodes
  return (← trainer).report

end Training

end PassTuner
