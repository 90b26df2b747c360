import PassTuner.Training.Greedy
import PassTuner.Training.Error
import PassTuner.Program.Step
import PassTuner.Variant.Episode

/-!
# Rollouts

A rollout walks a program from where it is, one selected action after another, and resets it
afterwards whatever happened. A step failure ends the walk and keeps what it gathered; any other
error is reported, but not before the reset.
-/

namespace PassTuner

/-- A program on its world, with an explorer to lead it. -/
structure Trail (σ : Type) where
  bench : Bench σ
  explorer : Explorer

abbrev Walk (σ : Type) (α : Type) := EStateM TrainingError (Trail σ) α

/-- What a walk gathered, and the cost of the variant it ended at, read before the reset. -/
structure Rollout where
  episode : Episode
  finalCost : Option Float

namespace Walk

/-- Work on the program, whose step failures are answered and whose other errors are passed on. -/
def attempt (work : Work σ α) : Walk σ (Except EnvironmentError α) := fun t =>
  match work t.bench with
  | .ok a bench => .ok (.ok a) { t with bench }
  | .error e bench =>
    if e.isStepFailure then .ok (.error e) { t with bench }
    else .error (.environment e) { t with bench }

def program : Walk σ Program := do return (← get).bench.program

/-- An action selected for an observation. -/
def select [Approximator Q] (q : Q) (catalog : Catalog) (o : Observation) :
    Walk σ ActionId := fun t =>
  match t.explorer.select? q catalog o.inputs with
  | none => .error .outsideDomain t
  | some (action, explorer) => .ok action { t with explorer }

def checkDim (o : Observation) (expected : Nat) (program : String) : Walk σ Unit := do
  if o.length ≠ expected then throw (.dimensionMismatch expected o.length program)

/-- Up to so many further steps from an observation. -/
def steps [Approximator Q] (tc : Toolchain σ) (catalog : Catalog) (q : Q) :
    Nat → Observation → Episode → Walk σ Episode
  | 0, _, episode => return episode
  | n + 1, o, episode => do
    let action ← select q catalog o
    match ← attempt (Program.step tc catalog action) with
    | .error _ => return episode
    | .ok reward =>
      let p ← program
      match p.state? with
      | none => return episode
      | some next =>
        checkDim next (Approximator.inputDim q) p.name
        steps tc catalog q n next (episode.record action reward next)

/-- The observation to start from, measured if there is none; nothing if that fails. -/
def observe (tc : Toolchain σ) : Walk σ (Option Observation) := do
  match (← program).state? with
  | some o => return some o
  | none =>
    match ← attempt (Program.measure tc) with
    | .ok m => return some m.state
    | .error _ => return none

/-- A walk of at most so many steps. -/
def run [Approximator Q] (tc : Toolchain σ) (catalog : Catalog) (q : Q) (maxSteps : Nat) :
    Walk σ Episode := do
  match ← observe tc with
  | none => return Episode.start []
  | some o =>
    checkDim o (Approximator.inputDim q) (← program).name
    steps tc catalog q maxSteps o (Episode.start o)

/-- A walk and the reset after it. -/
def rollout [Approximator Q] (tc : Toolchain σ) (catalog : Catalog) (q : Q) (maxSteps : Nat) :
    Walk σ Rollout := fun t =>
  let finish (walked : Except TrainingError Episode) (t : Trail σ) : EStateM.Result _ _ Rollout :=
    let finalCost := t.bench.program.cost?
    match attempt (Program.reset tc) t, walked with
    | .ok _ t, .ok episode => .ok { episode, finalCost } t
    | .error e t, .ok _ => .error e t
    | .ok _ t, .error e => .error e t
    | .error _ t, .error e => .error e t
  match run tc catalog q maxSteps t with
  | .ok episode t => finish (.ok episode) t
  | .error e t => finish (.error e) t

end Walk

end PassTuner
