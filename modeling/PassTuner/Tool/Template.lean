import PassTuner.Text.Search
import PassTuner.Json.Record

/-!
# Command templates

A command line with places for the input, the output and the pass flag. An argument that is a
placeholder becomes the value bound to it. In a longer argument the bindings are worked off one
after another, so a later one also finds its placeholder in what an earlier one put in.
-/

namespace PassTuner

/-- A program and its arguments, with placeholders. -/
structure CommandTemplate where
  program : String
  args : List String
  deriving DecidableEq, Repr

/-- A placeholder and what it stands for. -/
abbrev Binding := String × String

namespace CommandTemplate

def input : String := "\x7binput\x7d"

def output : String := "\x7boutput\x7d"

def flag : String := "\x7bflag\x7d"

/-- One binding worked into a text. -/
def substitute (text : List Char) (b : Binding) : List Char :=
  if Text.contains b.1.toList text then Text.replace b.1.toList b.2.toList text else text

def renderArg (bindings : List Binding) (arg : String) : String :=
  match bindings.lookup arg with
  | some value => value
  | none => String.ofList (bindings.foldl substitute arg.toList)

def render (t : CommandTemplate) (bindings : List Binding) : List String :=
  t.args.map (renderArg bindings)

def toJson (t : CommandTemplate) : Json :=
  .ofFields [("program", .ofText t.program), ("args", .array (t.args.map Json.ofText))]

def ofJson? (j : Json) : Option CommandTemplate := do
  let r ← j.record? ["program", "args"]
  return {
    program := ← r.required "program" Json.text?
    args := ← r.required "args" (Json.list? Json.text?) }

end CommandTemplate

end PassTuner
