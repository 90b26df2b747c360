import PassTuner.Cache.Basic
import PassTuner.Catalog.Basic

/-!
# A program and its lineage

A program has one current variant, its lineage, which is unbuilt, built or measured. Operations on
it act on a bench: the program together with the world. What an operation changed stays changed when
it fails.
-/

namespace PassTuner

/-- Settings that all programs of a run share. -/
structure EnvironmentSettings where
  /-- The directory in which every program gets one for its variants. -/
  workDir : String
  /-- Seconds after which a reset measures the base again; never, if not given. -/
  baseMaxAge : Option Nat
  deriving DecidableEq, Repr

namespace EnvironmentSettings

def standard : EnvironmentSettings := ⟨"./build/", none⟩

def toJson (s : EnvironmentSettings) : Json :=
  .ofFields
    [("work_dir", .ofText s.workDir), ("base_max_age_secs", .ofOption Json.ofNat s.baseMaxAge)]

def ofJson? (j : Json) : Option EnvironmentSettings := do
  let r ← j.record? ["work_dir", "base_max_age_secs"]
  return {
    workDir := ← r.withDefault "work_dir" standard.workDir Json.text?
    baseMaxAge :=
      ← r.withDefault "base_max_age_secs" standard.baseMaxAge (Json.option? (Json.nat? 64)) }

end EnvironmentSettings

inductive Stage where
  | unbuilt
  | built
  | measured
  deriving DecidableEq, Repr

/-- One run under the profiler. -/
structure Measurement where
  state : Observation
  cost : Float
  /-- The clock at its end. -/
  takenAt : Nat

/-- How often tools were called for a program, and how often that was not needed. -/
structure ProgramStats where
  transforms : Nat := 0
  builds : Nat := 0
  measurements : Nat := 0
  transientRetries : Nat := 0
  cacheHits : Nat := 0
  deriving DecidableEq, Repr

structure Program where
  name : String
  source : String
  cache : Cache
  settings : EnvironmentSettings
  lineage : Variant
  stage : Stage
  /-- The last measurement of the base. -/
  base : Option Measurement
  /-- The measurement of the lineage. -/
  current : Option Measurement
  stats : ProgramStats

namespace Program

def state? (p : Program) : Option Observation := p.current.map (·.state)

def cost? (p : Program) : Option Float := p.current.map (·.cost)

def baseCost? (p : Program) : Option Float := p.base.map (·.cost)

/-- The cost of the lineage, if it is measured. -/
def measuredCost? (p : Program) : Option Float := if p.stage = .measured then p.cost? else none

end Program

/-- A program on the world it is worked on in. -/
structure Bench (σ : Type) where
  world : World σ
  program : Program

/-- An action on a program that may fail. -/
abbrev Work (σ : Type) (α : Type) := EStateM EnvironmentError (Bench σ) α

namespace Work

/-- An operation of a tool, as a part of work on a program. -/
def ofTool (t : Tool σ α) : Work σ α := fun b =>
  match t b.world with
  | .ok a world => .ok a { b with world }
  | .error e world => .error (.tool e) { b with world }

def ofExcept : Except EnvironmentError α → Work σ α
  | .ok a => pure a
  | .error e => throw e

/-- An operation of a tool that has to succeed. -/
def demand (t : Tool σ ToolOutput) (refusal : ToolOutput → EnvironmentError) : Work σ Unit := do
  let output ← ofTool t
  if !output.succeeded then throw (refusal output)

def program : Work σ Program := do return (← get).program

def disk : Work σ Disk := do return (← get).world.disk

def modifyProgram (f : Program → Program) : Work σ Unit :=
  modify fun b => { b with program := f b.program }

def modifyDisk (f : Disk → Disk) : Work σ Unit :=
  modify fun b => { b with world := { b.world with disk := f b.world.disk } }

def count (f : ProgramStats → ProgramStats) : Work σ Unit :=
  modifyProgram fun p => { p with stats := f p.stats }

/-- Work with a change of the disk at its end, however it ends. -/
def cleaning (f : Disk → Disk) (work : Work σ α) : Work σ α := fun b =>
  let clean (b : Bench σ) := { b with world := { b.world with disk := f b.world.disk } }
  match work b with
  | .ok a b => .ok a (clean b)
  | .error e b => .error e (clean b)

/-- Reads the clock, which never shows the same time twice. -/
def now : Work σ Nat := modifyGet fun b =>
  (b.world.clock, { b with world := { b.world with clock := b.world.clock + 1 } })

def sleep (milliseconds : Nat) : Work σ Unit :=
  modify fun b =>
    { b with world := { b.world with clock := b.world.clock + 1000000 * milliseconds } }

end Work

end PassTuner
