import PassTuner.Variant.Key
import PassTuner.Variant.Cost
import PassTuner.Measurement.Record
import PassTuner.Tool.Toolchain
import PassTuner.Json.Reader

/-!
# What can go wrong in the environment

A step failure says that one attempt at one variant went wrong: the episode ends and the run carries
on. Every other error means that the environment cannot be used, and aborts the run.
-/

namespace PassTuner

/-- Why a source cannot be opened. -/
inductive SourceFault where
  | extension
  | missing
  | nameless
  | unreadable (cause : DiskError)
  deriving DecidableEq, Repr

/-- What is wrong with a file of a cache. -/
inductive CacheFault where
  | unreadable (cause : DiskError)
  | malformed (cause : Json.Error)
  | altered
  | codeMissing
  deriving DecidableEq, Repr

/-- What is wrong with a catalog's file. -/
inductive CatalogFault where
  | unreadable (cause : DiskError)
  | malformed (cause : Json.Error)
  | empty
  | tooMany (size : Nat)
  deriving DecidableEq, Repr

/-- Why no passes were found. -/
inductive DiscoveryFault where
  | noHeader (text : String)
  | failed (output : ToolOutput)
  deriving DecidableEq, Repr

inductive MeasurementFault where
  | failed (output : ToolOutput)
  | record (cause : RecordError)
  deriving DecidableEq, Repr

inductive EnvironmentError where
  | transformFailed (program : String) (variant : Variant) (flag : String) (output : ToolOutput)
  | buildFailed (program : String) (variant : Variant) (output : ToolOutput)
  | measurementFailed (program : String) (variant : Variant) (fault : MeasurementFault)
  | invalidCost (program : String) (variant : Variant) (before after : Float)
  | invalidSource (path : String) (fault : SourceFault)
  | cacheCorrupted (path : String) (fault : CacheFault)
  | catalogCorrupted (path : String) (fault : CatalogFault)
  | emptyCatalog
  | variant (cause : VariantError)
  | tool (cause : ToolError)
  | discovery (fault : DiscoveryFault)
  | file (path : String) (cause : DiskError)
  /-- A measurement that was still failing transiently after the last attempt. -/
  | stalled (program : String) (variant : Variant)

def SourceFault.message : SourceFault → String
  | .extension => "expected a .ll file"
  | .missing => "no such file"
  | .nameless => "file name is not valid UTF-8"
  | .unreadable cause => cause.message

def CacheFault.message : CacheFault → String
  | .unreadable cause => cause.message
  | .malformed cause => cause.message
  | .altered => "digest mismatch"
  | .codeMissing => "variant IR missing"

def CatalogFault.message : CatalogFault → String
  | .unreadable cause => cause.message
  | .malformed cause => cause.message
  | .empty => "action catalog is empty"
  | .tooMany size => (VariantError.tooManyActions size).message

def DiscoveryFault.message : DiscoveryFault → String
  | .noHeader text => s!"pass discovery failed: section header '{text}' not found"
  | .failed output => s!"pass discovery failed: {output.failure}"

def MeasurementFault.message : MeasurementFault → String
  | .failed output => output.failure
  | .record cause => cause.message

namespace EnvironmentError

def message : EnvironmentError → String
  | transformFailed program v flag output =>
    s!"transform {flag} failed for {program} at {v.label}: {output.failure}"
  | buildFailed program v output => s!"build failed for {program} at {v.label}: {output.failure}"
  | measurementFailed program v fault =>
    s!"measurement failed for {program} at {v.label}: {fault.message}"
  | invalidCost program v before after =>
    let costs := s!"before={floatText before}, after={floatText after}"
    s!"invalid cost for {program} at {v.label}: {costs}"
  | invalidSource path fault => s!"invalid source {path}: {fault.message}"
  | cacheCorrupted path fault => s!"variant cache corrupted at {path}: {fault.message}"
  | catalogCorrupted path fault => s!"action catalog corrupted at {path}: {fault.message}"
  | emptyCatalog => "action catalog is empty"
  | variant cause => cause.message
  | tool cause => cause.message
  | discovery fault => fault.message
  | file path cause => s!"I/O error on {path}: {cause.message}"
  | stalled program v => s!"measurement of {program} at {v.label} never settled"

/-- Whether the error ends an episode and no more. -/
def isStepFailure : EnvironmentError → Bool
  | transformFailed .. | buildFailed .. | measurementFailed .. | invalidCost .. => true
  | _ => false

end EnvironmentError

/-- An action on a world that may fail. -/
abbrev Environment (σ : Type) (α : Type) := EStateM EnvironmentError (World σ) α

namespace Environment

/-- An operation of a tool, as a part of a larger action. -/
def ofTool (t : Tool σ α) : Environment σ α := fun w =>
  match t w with
  | .ok a w => .ok a w
  | .error e w => .error (.tool e) w

def ofExcept : Except EnvironmentError α → Environment σ α
  | .ok a => pure a
  | .error e => throw e

/-- A change of the disk whose failure is reported for a path. -/
def changing (path : String) (f : Disk → Except DiskError Disk) : Environment σ Unit := fun w =>
  match f w.disk with
  | .ok disk => .ok () { w with disk }
  | .error e => .error (.file path e) w

end Environment

end PassTuner
