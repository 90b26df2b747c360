import PassTuner.Text.Blank
import PassTuner.Text.Search
import PassTuner.Number.Literal
import PassTuner.Tool.Output
import PassTuner.Variant.Observation

/-!
# Measurement records

The profiler prints a row of numbers between two copies of a marker, so that it can be told from
what the measured program prints. All but the last two are features; the last two are seconds and
add up to the cost. The second marker may be missing: the record then runs to the end.
-/

namespace PassTuner

/-- A measurement as its record gives it. -/
structure MeasurementRecord where
  state : Observation
  cost : Float

inductive RecordFault where
  | tooFew (count : Nat)
  | state (field : String)
  | cost (field : String)
  deriving DecidableEq, Repr

def RecordFault.message : RecordFault → String
  | .tooFew count => s!"expected at least 2 fields, found {count}"
  | .state field => s!"non-numeric state field '{field}'"
  | .cost field => s!"non-numeric cost field '{field}'"

inductive RecordError where
  | missingMarker (marker : String)
  | malformed (record : String) (fault : RecordFault)
  deriving DecidableEq, Repr

namespace MeasurementRecord

/-- The text between the first marker and the next. -/
def framed? (marker text : List Char) : Option (List Char) := (Text.splitOn marker text)[1]?

/-- The numbers of a row of fields, or the first field that is none. -/
def numbers : List (List Char) → Except (List Char) (List Float)
  | [] => .ok []
  | field :: rest =>
    match parseFloat? field with
    | none => .error field
    | some x => (numbers rest).map (x :: ·)

def ofFields (fields : List (List Char)) : Except RecordFault MeasurementRecord :=
  if fields.length < 2 then .error (.tooFew fields.length)
  else
    match numbers (fields.take (fields.length - 2)) with
    | .error field => .error (.state (String.ofList field))
    | .ok features =>
      match numbers (fields.drop (fields.length - 2)) with
      | .error field => .error (.cost (String.ofList field))
      | .ok seconds => .ok ⟨features.map Observation.feature, seconds.foldl (· + ·) 0⟩

/-- The record in a text. -/
def ofText (marker text : String) : Except RecordError MeasurementRecord :=
  match framed? marker.toList text.toList with
  | none => .error (.missingMarker marker)
  | some body =>
    match ofFields (Text.fields body) with
    | .ok record => .ok record
    | .error fault => .error (.malformed (String.ofList (Text.trim body)) fault)

/-- The record a run printed: on its output if the marker is there, else on its error stream. -/
def ofOutput (marker : String) (o : ToolOutput) : Except RecordError MeasurementRecord :=
  if Text.contains marker.toList o.stdout.toList then ofText marker o.stdout
  else if Text.contains marker.toList o.stderr.toList then ofText marker o.stderr
  else .error (.missingMarker marker)

end MeasurementRecord

def RecordError.message : RecordError → String
  | .missingMarker marker => s!"measurement output has no '{marker}' record"
  | .malformed record fault => s!"malformed measurement record '{record}': {fault.message}"

end PassTuner
