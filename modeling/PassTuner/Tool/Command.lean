import PassTuner.Shell.Run
import PassTuner.Text.Utf8
import PassTuner.Tool.Settings
import PassTuner.Tool.Toolchain

/-!
# A toolchain of commands

Every operation is a command line of the settings with its placeholders filled in. What the command
prints is read as text; bytes that are none become replacement characters.
-/

namespace PassTuner

namespace Tool

/-- Calls a program and waits for its end. -/
def call (program : String) (arguments : List String) : Tool σ ToolOutput := fun w =>
  match Shell.invoke w.disk w.clock program arguments with
  | .ok e =>
    .ok ⟨e.status.map Int.ofNat, Text.ofBytesLossy e.output, Text.ofBytesLossy e.errors⟩
      { w with disk := e.disk, clock := e.clock }
  | .error cause => .error (.spawn program cause) w

/-- Calls what a template says under some bindings. -/
def fill (t : CommandTemplate) (bindings : List Binding) : Tool σ ToolOutput :=
  call t.program (t.render bindings)

end Tool

open CommandTemplate in
def ToolSettings.toolchain (s : ToolSettings) : Toolchain σ where
  compile ir object := Tool.fill s.compile [(input, ir), (output, object)]
  link object executable := Tool.fill s.link [(input, object), (output, executable)]
  transform flag code result :=
    Tool.fill s.transform [(CommandTemplate.flag, flag), (input, code), (output, result)]
  measure executable := Tool.fill s.measure [(input, executable)]
  describe := Tool.fill s.describe []
  transient := s.transient

end PassTuner
