import PassTuner.Tool.Output
import PassTuner.Tool.Template

/-!
# Settings of a toolchain

A command line for each operation and the policy for transient failures. Whatever a settings file
leaves out keeps its standard value.
-/

namespace PassTuner

namespace TransientPolicy

def toJson (p : TransientPolicy) : Json :=
  .ofFields [("exit_code", .ofOption Json.ofInt p.exitCode),
    ("stderr_marker", .ofOption Json.ofText p.stderrMarker),
    ("retry_delay_ms", .ofNat p.retryDelay)]

def ofJson? (j : Json) : Option TransientPolicy := do
  let r ← j.record? ["exit_code", "stderr_marker", "retry_delay_ms"]
  return {
    exitCode := ← r.nullable "exit_code" (Json.int? Int32.minValue.toInt Int32.maxValue.toInt)
    stderrMarker := ← r.nullable "stderr_marker" Json.text?
    retryDelay := ← r.required "retry_delay_ms" (Json.nat? 64) }

end TransientPolicy

structure ToolSettings where
  compile : CommandTemplate
  link : CommandTemplate
  transform : CommandTemplate
  measure : CommandTemplate
  describe : CommandTemplate
  transient : TransientPolicy
  deriving DecidableEq, Repr

namespace ToolSettings

open CommandTemplate in
def standard : ToolSettings where
  compile := ⟨"llc", ["--filetype=obj", input, "-o", output]⟩
  link := ⟨"clang++", [input, "-o", output]⟩
  transform := ⟨"opt", ["-S", flag, input, "-o", output]⟩
  measure := ⟨"/usr/bin/time",
    ["--format", "SYMVEC%D %F %I %K %M %O %R %W %X %Z %c %p %r %s %t %w %S %USYMVEC", input]⟩
  describe := ⟨"opt", ["-h"]⟩
  transient := .standard

def toJson (s : ToolSettings) : Json :=
  .ofFields [("compile", s.compile.toJson), ("link", s.link.toJson),
    ("transform", s.transform.toJson), ("measure", s.measure.toJson),
    ("describe", s.describe.toJson), ("transient", s.transient.toJson)]

def ofJson? (j : Json) : Option ToolSettings := do
  let r ← j.record? ["compile", "link", "transform", "measure", "describe", "transient"]
  return {
    compile := ← r.withDefault "compile" standard.compile CommandTemplate.ofJson?
    link := ← r.withDefault "link" standard.link CommandTemplate.ofJson?
    transform := ← r.withDefault "transform" standard.transform CommandTemplate.ofJson?
    measure := ← r.withDefault "measure" standard.measure CommandTemplate.ofJson?
    describe := ← r.withDefault "describe" standard.describe CommandTemplate.ofJson?
    transient := ← r.withDefault "transient" standard.transient TransientPolicy.ofJson? }

end ToolSettings

end PassTuner
