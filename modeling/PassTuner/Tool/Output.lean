import PassTuner.Text.Blank
import PassTuner.Text.Search

/-!
# What a tool run leaves behind

A run that ended is described by its exit status and what it printed; a status other than zero is an
output like any other. Some failures of a measurement say nothing about the program under test, only
that the machine was busy: a transient policy tells them by their status or by a text on the error
stream, and a run that succeeded is never one of them.
-/

namespace PassTuner

structure ToolOutput where
  /-- The exit status; there is none after a death by signal. -/
  status : Option Int
  stdout : String
  stderr : String
  deriving DecidableEq, Repr

namespace ToolOutput

def exited (status : Int) (stdout stderr : String) : ToolOutput := ⟨some status, stdout, stderr⟩

def ok (stdout : String) : ToolOutput := exited 0 stdout ""

def succeeded (o : ToolOutput) : Bool := o.status == some 0

/-- The failure in a few words: the status and, if there is one, what the error stream says. -/
def failure (o : ToolOutput) : String :=
  let status := match o.status with
    | some code => s!"exit status {code}"
    | none => "terminated by signal"
  let detail := String.ofList (Text.trim o.stderr.toList)
  if detail.isEmpty then status else s!"{status}: {detail}"

end ToolOutput

/-- Which failed measurements are repeated instead of reported. -/
structure TransientPolicy where
  exitCode : Option Int
  stderrMarker : Option String
  /-- Milliseconds between two attempts. -/
  retryDelay : Nat
  deriving DecidableEq, Repr

namespace TransientPolicy

/-- The status and the words of a machine that is out of memory. -/
def standard : TransientPolicy := ⟨some 12, some "Cannot allocate memory", 100⟩

def isTransient (p : TransientPolicy) (o : ToolOutput) : Bool :=
  !o.succeeded &&
    ((p.exitCode.isSome && o.status == p.exitCode) ||
      p.stderrMarker.any fun marker => Text.contains marker.toList o.stderr.toList)

theorem isTransient_of_succeeded (p : TransientPolicy) {o : ToolOutput} (h : o.succeeded) :
    p.isTransient o = false := by simp [isTransient, h]

end TransientPolicy

end PassTuner
