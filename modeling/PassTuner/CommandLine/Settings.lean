import PassTuner.Catalog.Listing
import PassTuner.Program.Basic
import PassTuner.Tool.Settings
import PassTuner.Training.Settings

/-!
# Settings of a run

One file has a section for each part of a run, and may leave out any of them.
-/

namespace PassTuner

structure RunSettings where
  train : TrainingSettings := {}
  environment : EnvironmentSettings := .standard
  tools : ToolSettings := .standard
  listing : ListingRules := .standard

namespace RunSettings

def ofJson? (j : Json) : Option RunSettings := do
  let r ← j.record? ["train", "env", "toolchain", "discovery"]
  let s : RunSettings := {}
  return {
    train := ← r.withDefault "train" s.train TrainingSettings.ofJson?
    environment := ← r.withDefault "env" s.environment EnvironmentSettings.ofJson?
    tools := ← r.withDefault "toolchain" s.tools ToolSettings.ofJson?
    listing := ← r.withDefault "discovery" s.listing ListingRules.ofJson? }

/-- The settings with another directory for variants, if one is given. -/
def withWorkDir (s : RunSettings) (workDir : Option String) : RunSettings :=
  match workDir with
  | some workDir => { s with environment := { s.environment with workDir } }
  | none => s

end RunSettings

end PassTuner
