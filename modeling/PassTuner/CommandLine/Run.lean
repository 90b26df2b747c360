import PassTuner.CommandLine.Request
import PassTuner.CommandLine.Settings
import PassTuner.Json.Writer
import PassTuner.Network.Storage
import PassTuner.Program.Pool
import PassTuner.Tool.Command
import PassTuner.Training.Report
import PassTuner.Training.Run

/-!
# Running a request

A run ends in an exit code, what it printed and what it complained of. A failure that the operating
system is the cause of has a code of its own. Main statement: a run whose arguments are refused
leaves the world as it was.
-/

namespace PassTuner.CommandLine

/-- How a run ended. -/
structure Outcome where
  code : Nat
  output : String := ""
  errors : String := ""
  deriving DecidableEq, Repr

/-- A run on a world whose tools are commands. -/
abbrev Run (α : Type) := EStateM Outcome (World Unit) α

namespace Outcome

def done (output : String) : Outcome := { code := 0, output }

/-- An outcome with a complaint and nothing printed. -/
def failed (code : Nat) (complaint : String) : Outcome := { code, errors := complaint ++ "\n" }

def usage : String :=
  "\n".intercalate
    ["Usage: passtuner [-c CONFIG] [--catalog CATALOG] COMMAND", "", "Commands:",
      "  train [-s DIR] [-w DIR] [-m DIR] [--resume] [-e N] [--seed N] [--workers N]", "  flags",
      "  measure SOURCE [-w DIR]", ""]

def ofRefusal : Refusal → Outcome
  | .help => done usage
  | .misuse => { code := 2, errors := usage }

/-- Whether the operating system is the cause of an error. -/
def isSystemFailure : EnvironmentError → Bool
  | .file .. => true
  | .tool _ => true
  | _ => false

def ofEnvironmentError (context : String) (e : EnvironmentError) : Outcome :=
  if isSystemFailure e then failed 3 s!"I/O error: {context}: {e.message}"
  else failed 1 s!"Error: {context}: {e.message}"

def ofTrainingError : TrainingError → Outcome
  | .environment e => ofEnvironmentError "training aborted" e
  | .model path fault => failed 3 s!"I/O error: {(TrainingError.model path fault).message}"
  | .outsideDomain => failed 101 TrainingError.outsideDomain.message
  | e => failed 1 s!"Training error: {e.message}"

end Outcome

namespace Run

/-- A part of a run in the environment, with what it was for. -/
def inEnvironment (context : String) (act : Environment Unit α) : Run α := fun w =>
  match act w with
  | .ok a w => .ok a w
  | .error e w => .error (.ofEnvironmentError context e) w

def ofTraining : Except TrainingError α → Run α
  | .ok a => pure a
  | .error e => throw (.ofTrainingError e)

/-- The settings of a file, or the standard ones. -/
def settings (path : Option String) : Run RunSettings := do
  match path with
  | none => return {}
  | some path =>
    match (← get).disk.readText path with
    | .error e => throw (.failed 3 s!"Error: failed to read config '{path}': {e.message}")
    | .ok text =>
      match Json.parseAs RunSettings.ofJson? text with
      | .error e => throw (.failed 1 s!"Error: invalid config '{path}': {e.message}")
      | .ok settings => return settings

/-- The catalog in a file, or the one that the tools report. -/
def catalog (s : RunSettings) (path : String) : Run Catalog :=
  inEnvironment "failed to load action catalog"
    (Catalog.loadOrDiscover path s.tools.toolchain s.listing)

/-- The lines of a catalog, each action's number in four places. -/
def catalogText (c : Catalog) : String :=
  String.join (c.entries.map fun (id, flag) =>
    let number := toString id.toNat
    String.ofList (List.replicate (4 - number.length) ' ') ++ s!"{number}  {flag}\n")

def flags (s : RunSettings) (catalogPath : String) : Run Outcome := do
  return .done (catalogText (← catalog s catalogPath))

def measurementJson (p : Program) : Json :=
  .ofFields [("cost", .ofOption Json.ofFloat p.baseCost?), ("program", .ofText p.name),
    ("state", .ofOption Observation.toJson p.state?)]

def measure (s : RunSettings) (source : String) : Run Outcome := do
  let p ←
    inEnvironment "failed to measure program" (Program.open s.tools.toolchain s.environment source)
  return .done ((measurementJson p).compact ++ "\n")

/-- The settings with what a request says otherwise. -/
def overridden (s : RunSettings) (r : TrainRequest) : RunSettings :=
  let train := s.train
  { s.withWorkDir r.workDir with
    train := { train with
      maxEpisodes := r.episodes.getD train.maxEpisodes
      seed := (r.seed.map UInt64.ofNat).getD train.seed
      rolloutWorkers := r.workers.getD train.rolloutWorkers } }

/-- The network that training starts with. A saved one learns at the rate of the settings. -/
def startNetwork (s : RunSettings) (r : TrainRequest) (inputs outputs : Nat) : Run Network := do
  if r.resume then
    let saved ← ofTraining (Network.load (← get).disk r.modelDir inputs outputs)
    return { saved with learningRate := s.train.learningRate }
  else return .new inputs outputs s.train.learningRate s.train.seed

/-- Trains and answers the report and the network. -/
def trained (tc : Toolchain Unit) (trainer : Trainer Network) :
    Run (TrainingReport × Network) := fun w =>
  match Training.train tc ⟨w, trainer⟩ with
  | .ok report lab => .ok (report, lab.trainer.online) lab.world
  | .error e lab => .error (.ofTrainingError e) lab.world

def save (n : Network) (directory : String) : Run Unit := fun w =>
  match n.save directory w.disk with
  | .ok _ disk => .ok () { w with disk }
  | .error e disk => .error (.ofTrainingError e) { w with disk }

def train (s : RunSettings) (catalogPath : String) (r : TrainRequest) : Run Outcome := do
  match s.train.validate with
  | .error e => throw (.failed 1 s!"Error: {e.message}")
  | .ok () => pure ()
  let tc : Toolchain Unit := s.tools.toolchain
  let c ← catalog s catalogPath
  let programs ←
    inEnvironment "failed to open programs" (Program.openAll tc s.environment r.sourceDir)
  match programs.head?.bind Program.state? with
  | none => throw (.failed 1 s!"Error: no usable .ll programs in '{r.sourceDir}'")
  | some [] =>
    throw (.failed 1 s!"Error: the measurement record of '{r.sourceDir}' has no state features")
  | some state =>
    let network ← startNetwork s r state.length c.size
    let trainer ← ofTraining (Trainer.new s.train c programs network)
    let (report, network) ← trained tc trainer
    save network r.modelDir
    return .done (report.toJson.indented ++ "\n")

def perform (invocation : Invocation) : Run Outcome := do
  let s ← settings invocation.settings
  match invocation.request with
  | .train r => train (overridden s r) invocation.catalog r
  | .flags => flags s invocation.catalog
  | .measure source workDir => measure (s.withWorkDir workDir) source

end Run

/-- Runs the program with some arguments; relative paths start from the disk's home. -/
def run (arguments : List String) (w : World Unit) : Outcome × World Unit :=
  match Invocation.ofArguments arguments with
  | .error refusal => (.ofRefusal refusal, w)
  | .ok invocation =>
    match Run.perform invocation w with
    | .ok outcome w => (outcome, w)
    | .error outcome w => (outcome, w)

end PassTuner.CommandLine
