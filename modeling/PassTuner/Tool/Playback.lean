import PassTuner.Tool.Toolchain

/-!
# A toolchain that plays back outputs

Every operation answers from a row of prepared replies, the last of which repeats; without any, it
succeeds and prints nothing. Where the reply is a success, transforming copies its input with a line
about the pass added, and compiling and linking copy it as it is.
-/

namespace PassTuner

inductive Reply where
  | output (o : ToolOutput)
  | spawnFailure (program : String)

structure Playback where
  describe : List Reply := []
  transform : List Reply := []
  compile : List Reply := []
  link : List Reply := []
  measure : List Reply := []
  transient : TransientPolicy
  marker : String

namespace Playback

/-- The reply to a call, counted from zero. -/
def replyAt (replies : List Reply) (n : Nat) : Reply :=
  (replies[min n (replies.length - 1)]?).getD (.output (.ok ""))

/-- Counts the call, gives its reply, and does the work of a tool that succeeded. -/
def answer (replies : List Reply) (calls : Calls → Nat) (count : Calls → Calls)
    (work : Tool Calls Unit) : Tool Calls ToolOutput := do
  let n := calls (← get).tools
  modify fun w => { w with tools := count w.tools }
  match replyAt replies n with
  | .spawnFailure program => throw (.spawn program .notFound)
  | .output o =>
    if o.succeeded then work
    return o

def copy (input output : String) (more : ByteArray) : Tool σ Unit := do
  Tool.write output ((← Tool.read input) ++ more)

def toolchain (p : Playback) : Toolchain Calls where
  compile ir object :=
    answer p.compile Calls.compiles (fun c => { c with compiles := c.compiles + 1 })
      (copy ir object .empty)
  link object executable :=
    answer p.link Calls.links (fun c => { c with links := c.links + 1 })
      (copy object executable .empty)
  transform flag input output :=
    answer p.transform Calls.transforms (fun c => { c with transforms := c.transforms + 1 })
      (copy input output s!"; applied {flag}\n".toUTF8)
  measure _ :=
    answer p.measure Calls.measures (fun c => { c with measures := c.measures + 1 }) (pure ())
  describe :=
    answer p.describe Calls.describes (fun c => { c with describes := c.describes + 1 }) (pure ())
  transient := p.transient
  marker := p.marker

end Playback

end PassTuner
