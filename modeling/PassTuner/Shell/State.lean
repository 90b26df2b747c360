import PassTuner.Shell.Programs

/-!
# The state of a shell

What commands act on: the disk and the clock, variables and arguments, the status of the last
command, the input that is left, and where each descriptor leads. Captured text lies in numbered
buffers, the first two of which are the output and the error text of the whole script.
-/

namespace PassTuner.Shell

/-- Where printed text goes. -/
inductive Sink where
  | buffer (n : Nat)
  | file (path : String)
  | nowhere
  deriving DecidableEq, Repr

structure State where
  disk : Disk
  clock : Nat
  name : Bytes
  arguments : List Bytes
  assigned : List (Bytes × Bytes) := []
  /-- The names of the variables that a shell of its own takes over. -/
  exported : List Bytes := []
  status : Nat := 0
  /-- The status of the last command whose output became part of a word. -/
  substituted : Nat := 0
  input : Bytes := []
  sinks : List (Nat × Sink) := [(1, .buffer 0), (2, .buffer 1)]
  buffers : List Bytes := [[], []]

/-- What ends a command before its end. -/
inductive Stop where
  | exit
  | killed (signal : Nat)
  | leave (loops : Nat)
  | again (loops : Nat)
  | exhausted
  deriving DecidableEq, Repr

/-- An act of a shell. -/
abbrev Act (α : Type) := EStateM Stop State α

namespace State

def sink (s : State) (descriptor : Nat) : Sink := (s.sinks.lookup descriptor).getD .nowhere

def redirect (s : State) (descriptor : Nat) (target : Sink) : State :=
  { s with sinks := (descriptor, target) :: s.sinks.filter (·.1 ≠ descriptor) }

/-- The state with text added where a descriptor leads. -/
def emit (s : State) (descriptor : Nat) (text : Bytes) : State :=
  match s.sink descriptor with
  | .nowhere => s
  | .buffer n => { s with buffers := s.buffers.modify n (· ++ text) }
  | .file path =>
    let before := (s.disk.read path).toOption.getD .empty
    { s with disk := (s.disk.write path (before ++ toByteArray text)).toOption.getD s.disk }

/-- The state with a complaint of the shell itself about a line of the script. -/
def complain (s : State) (line : Nat) (message : String) : State :=
  s.emit 2 (s.name ++ s!": {line}: {message}\n".toList)

def setVariable (s : State) (name value : Bytes) : State :=
  { s with assigned := (name, value) :: s.assigned.filter (·.1 ≠ name) }

/-- The variables that a shell of its own starts with. -/
def inherited (s : State) : List (Bytes × Bytes) :=
  s.assigned.filter fun entry => s.exported.contains entry.1

/-- The number that a script knows its own process by. -/
def ownProcess : Bytes := "1000".toList

/-- The value of a parameter; none if it is not set. -/
def parameter? (s : State) (name : Bytes) : Option Bytes :=
  match name with
  | ['#'] => some (toString s.arguments.length).toList
  | ['?'] => some (toString s.status).toList
  | ['$'] => some ownProcess
  | ['-'] => some []
  | ['!'] => none
  | name =>
    if name.all Char.isDigit then
      match Printing.natural name with
      | 0 => some s.name
      | n + 1 => s.arguments[n]?
    else s.assigned.lookup name

/-- The state behind a part that ran on its own: only what it printed, waited and did to files
stays. -/
def outside (inner before : State) : State :=
  { before with
    disk := inner.disk, clock := inner.clock, status := inner.status, input := inner.input
    buffers := inner.buffers }

/-- Runs a program on the state. -/
def call (s : State) (program : Program) (words : List Bytes) : State :=
  let e := program words { disk := s.disk, input := s.input }
  let s :=
    { s with disk := e.disk, input := e.input, status := e.status, clock := s.clock + e.pause }
  e.prints.foldl (fun s (descriptor, text) => s.emit descriptor text) s

end State

namespace Act

/-- Runs an act on its own, as a process would: an exit ends only it. -/
def separate (act : Act Unit) : Act Unit := do
  let before ← get
  try act catch
    | .exit => pure ()
    | .leave _ => pure ()
    | .again _ => pure ()
    | stop => throw stop
  modify (State.outside · before)

/-- The text that an act prints. -/
def captured (act : Act Unit) : Act Bytes := do
  let before ← get
  let n := before.buffers.length
  set { before.redirect 1 (.buffer n) with buffers := before.buffers ++ [[]] }
  act
  let after ← get
  set { after with buffers := after.buffers.take n, sinks := before.sinks }
  return after.buffers[n]?.getD []

/-- An act, and what is put back behind it whichever way it ends. -/
def bracket (act : Act Unit) (putBack : State → State) : Act Unit := do
  try act catch stop =>
    modify putBack
    throw stop
  modify putBack

end Act

end PassTuner.Shell
