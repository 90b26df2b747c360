import PassTuner.Environment.Error

/-!
# What can go wrong in training
-/

namespace PassTuner

/-- What is wrong with a value of the settings. -/
inductive SettingFault where
  | notPositive
  | negative
  | outsideUnit
  | aboveEpsilon
  | notBelowOne
  | noFeatures
  | outputs (count actions : Nat)
  deriving DecidableEq, Repr

/-- What is wrong with a network's file. -/
inductive ModelFault where
  | disk (cause : DiskError)
  | malformed (cause : Json.Error)
  | shape (sizes : List Nat)
  deriving DecidableEq, Repr

inductive TrainingError where
  | batchTooLarge (batchSize capacity : Nat)
  | invalidSetting (field : String) (fault : SettingFault)
  | dimensionMismatch (expected actual : Nat) (program : String)
  | noPrograms
  | model (path : String) (fault : ModelFault)
  | environment (cause : EnvironmentError)
  /-- An approximator was asked for what it is not defined for, or something was to be chosen among
  nothing. -/
  | outsideDomain

def SettingFault.message : SettingFault → String
  | .notPositive => "must be positive"
  | .negative => "must be non-negative"
  | .outsideUnit => "must lie in [0, 1]"
  | .aboveEpsilon => "must lie in [0, epsilon]"
  | .notBelowOne => "must lie in [0, 1)"
  | .noFeatures => "programs must report at least one state feature"
  | .outputs count actions => s!"{count} outputs for a catalog of {actions} actions"

def ModelFault.message : ModelFault → String
  | .disk cause => cause.message
  | .malformed cause => cause.message
  | .shape sizes =>
    let row := ", ".intercalate (sizes.map Nat.repr)
    s!"stored network does not have layers [{row}]"

namespace TrainingError

def message : TrainingError → String
  | batchTooLarge batchSize capacity =>
    s!"batch size {batchSize} must be smaller than buffer capacity {capacity}"
  | invalidSetting field fault => s!"invalid configuration: {field}: {fault.message}"
  | dimensionMismatch expected actual program =>
    s!"state dimension mismatch: expected {expected}, got {actual} ({program})"
  | noPrograms => "no training programs available"
  | model path fault => s!"model I/O failed at {path}: {fault.message}"
  | environment cause => cause.message
  | outsideDomain => "used outside its domain"

/-- Whether the error ends an episode and no more. -/
def isStepFailure : TrainingError → Bool
  | environment cause => cause.isStepFailure
  | _ => false

end TrainingError

end PassTuner
