import PassTuner.Program.Step

/-!
# Opening programs

A program is opened by building and measuring its base. Opening a directory opens every source in
it, in the order of their names, and leaves out those whose base cannot be built or measured.
-/

namespace PassTuner

namespace Program

/-- A program as it is before anything was done about it. -/
def fresh (name source : String) (cache : Cache) (settings : EnvironmentSettings) : Program where
  name := name
  source := source
  cache := cache
  settings := settings
  lineage := .base
  stage := .unbuilt
  base := none
  current := none
  stats := {}

/-- Work on a new program, which is answered when the work succeeds. -/
def starting (p : Program) (work : Work σ α) : Environment σ Program := fun w =>
  match work ⟨w, p⟩ with
  | .ok _ b => .ok b.program b.world
  | .error e b => .error e b.world

/-- Opens a source. -/
def «open» (tc : Toolchain σ) (settings : EnvironmentSettings) (source : String) :
    Environment σ Program := do
  if Path.extension? source ≠ some "ll" then throw (.invalidSource source .extension)
  if !(← get).disk.isFile source then throw (.invalidSource source .missing)
  match Path.stem? source with
  | none => throw (.invalidSource source .nameless)
  | some name =>
    let cache ← Cache.open (Path.join settings.workDir name) name source
    starting (fresh name source cache settings) do
      build tc
      let _ ← measure tc

/-- Opens sources in turn, past those whose base fails. -/
def openEach (tc : Toolchain σ) (settings : EnvironmentSettings) :
    List String → Environment σ (List Program)
  | [] => return []
  | source :: rest => fun w =>
    match Program.open tc settings source w with
    | .ok p w => (do return p :: (← openEach tc settings rest) : Environment σ (List Program)) w
    | .error e w => if e.isStepFailure then openEach tc settings rest w else .error e w

/-- The sources directly in a directory, in order. -/
def sources (d : Disk) (directory : String) : Except DiskError (List String) :=
  match d.list directory with
  | .error e => .error e
  | .ok names => .ok ((names.map (Path.join directory)).filter fun path =>
    d.isFile path && Path.extension? path == some "ll")

/-- Opens the sources of a directory. -/
def openAll (tc : Toolchain σ) (settings : EnvironmentSettings) (directory : String) :
    Environment σ (List Program) := do
  match sources (← get).disk directory with
  | .error e => throw (.file directory e)
  | .ok paths => openEach tc settings paths

end Program

end PassTuner
