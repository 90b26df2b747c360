import PassTuner.Program.Measure

/-!
# Steps and resets

A step applies one action to the lineage, and is rewarded for the cost it saves; if it fails,
lineage and measurement stay as they were. A reset goes back to the base and keeps all variants in
the cache.
-/

namespace PassTuner.Program

/-- What the lineage costs; it is measured first if it is not measured yet. -/
def standingCost (tc : Toolchain σ) : Work σ Float := do
  match (← Work.program).measuredCost? with
  | some cost => return cost
  | none => return (← measure tc).cost

/-- Builds and measures the lineage with one action more, and moves there if that is rewarded. -/
def advance (tc : Toolchain σ) (action : ActionId) (flag : String) (before : Float) :
    Work σ Float := do
  let p ← Work.program
  match p.lineage.extend? action with
  | .error e => throw (.variant e)
  | .ok v =>
    let a ← ensureBuilt tc v (some flag)
    let m ← runMeasurement tc v a.executable
    match Cost.reward before m.cost with
    | .error _ => throw (.invalidCost p.name v before m.cost)
    | .ok reward =>
      Work.modifyProgram fun p => { p with lineage := v, current := some m, stage := .measured }
      return reward

/-- Applies an action. -/
def step (tc : Toolchain σ) (catalog : Catalog) (action : ActionId) : Work σ Float := do
  match catalog.describe action with
  | .error e => throw (.variant e)
  | .ok flag => advance tc action flag (← standingCost tc)

/-- Whether the base need not be measured again at a time of the clock. -/
def baseIsFresh (p : Program) (now : Nat) : Bool :=
  match p.base, p.settings.baseMaxAge with
  | some _, none => true
  | some m, some seconds => now - m.takenAt ≤ 1000000000 * seconds
  | none, _ => false

/-- Goes back to the base, which is measured again only if its measurement is missing or too old. -/
def reset (tc : Toolchain σ) : Work σ Unit := do
  Work.modifyProgram fun p => { p with lineage := .base }
  let now ← Work.now
  if baseIsFresh (← Work.program) now then
    Work.modifyProgram fun p => { p with current := p.base, stage := .measured }
  else
    Work.modifyProgram fun p => { p with current := none, stage := .unbuilt }
    let _ ← measure tc

end PassTuner.Program
