import PassTuner.Program.Build

/-!
# Measuring variants

A measurement that fails transiently is repeated until it ends in some other way. How often is
bounded by the toolchain's patience, past which the measurement counts as stalled; no run that
settles within it depends on it.
-/

namespace PassTuner.Program

/-- Runs the profiler until its output is not a transient failure; also answers how often it had to
be repeated. -/
def settle (tc : Toolchain σ) (v : Variant) (executable : String) :
    Nat → Nat → Work σ (ToolOutput × Nat)
  | 0, _ => do throw (.stalled (← Work.program).name v)
  | patience + 1, retries => do
    let output ← Work.ofTool (tc.measure executable)
    if tc.transient.isTransient output then
      Work.sleep tc.transient.retryDelay
      settle tc v executable patience (retries + 1)
    else return (output, retries)

/-- What the output of the profiler says. -/
def readMeasurement (tc : Toolchain σ) (output : ToolOutput) :
    Except MeasurementFault MeasurementRecord :=
  if output.succeeded then
    match MeasurementRecord.ofOutput tc.marker output with
    | .ok record => .ok record
    | .error e => .error (.record e)
  else .error (.failed output)

/-- Measures a variant. -/
def runMeasurement (tc : Toolchain σ) (v : Variant) (executable : String) : Work σ Measurement := do
  let (output, retries) ← settle tc v executable tc.patience 0
  let record := readMeasurement tc output
  let takenAt ← Work.now
  Work.count fun s => { s with
    measurements := s.measurements + retries + 1
    transientRetries := s.transientRetries + retries }
  match record with
  | .ok record => return { state := record.state, cost := record.cost, takenAt }
  | .error fault => throw (.measurementFailed (← Work.program).name v fault)

/-- Measures the lineage, which is built first if need be. -/
def measure (tc : Toolchain σ) : Work σ Measurement := do
  build tc
  let p ← Work.program
  let m ← runMeasurement tc p.lineage (p.cache.artifacts p.lineage).executable
  Work.modifyProgram fun p => { p with
    base := if p.lineage.isBase then some m else p.base
    current := some m
    stage := .measured }
  return m

end PassTuner.Program
