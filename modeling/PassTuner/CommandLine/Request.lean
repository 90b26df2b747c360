import PassTuner.CommandLine.Options

/-!
# Requests

What a user can ask for: training on a directory of programs, the catalog, or a measurement of one
program. Two options stand in front of a command or behind it; given in both places, the one behind
the command counts.
-/

namespace PassTuner.CommandLine

structure TrainRequest where
  sourceDir : String := "src_ir"
  workDir : Option String := none
  modelDir : String := "."
  /-- Whether to go on with a saved network. -/
  resume : Bool := false
  episodes : Option Nat := none
  seed : Option Nat := none
  workers : Option Nat := none
  deriving DecidableEq, Repr

inductive Request where
  | train (options : TrainRequest)
  | flags
  | measure (source : String) (workDir : Option String)
  deriving DecidableEq, Repr

structure Invocation where
  settings : Option String := none
  catalog : String := "flags.json"
  request : Request
  deriving DecidableEq, Repr

namespace Invocation

def isPath (text : String) : Bool := !text.isEmpty

/-- A count in decimal digits, perhaps behind a plus sign, that fits into 64 bits. -/
def count? (text : String) : Option Nat :=
  let digits := match text.toList with
    | '+' :: digits => digits
    | digits => digits
  if digits ≠ [] ∧ digits.all Char.isDigit then
    let n := digits.foldl (fun n c => 10 * n + (c.toNat - '0'.toNat)) 0
    if n < UInt64.size then some n else none
  else none

def isCount (text : String) : Bool := (count? text).isSome

def sharedRules : List OptionRule :=
  [{ name := "config", letter := some 'c', accepts := some isPath },
    { name := "catalog", accepts := some isPath }]

def workDirRule : OptionRule := { name := "work-dir", letter := some 'w', accepts := some isPath }

def trainRules : List OptionRule :=
  sharedRules ++
    [{ name := "src-dir", letter := some 's', accepts := some isPath }, workDirRule,
      { name := "model-dir", letter := some 'm', accepts := some isPath },
      { name := "resume", accepts := none },
      { name := "episodes", letter := some 'e', accepts := some isCount },
      { name := "seed", accepts := some isCount }, { name := "workers", accepts := some isCount }]

/-- What each command reads. -/
def commands : List (String × Grammar) :=
  [("train", ⟨trainRules, some []⟩), ("flags", ⟨sharedRules, some []⟩),
    ("measure", ⟨sharedRules ++ [workDirRule], some [isPath]⟩)]

def trainRequest (w : Words) : TrainRequest :=
  let defaults : TrainRequest := {}
  { sourceDir := (w.get? "src-dir").getD defaults.sourceDir
    workDir := w.get? "work-dir"
    modelDir := (w.get? "model-dir").getD defaults.modelDir
    resume := w.has "resume"
    episodes := (w.get? "episodes").bind count?
    seed := (w.get? "seed").bind count?
    workers := (w.get? "workers").bind count? }

def requestOf (command : String) (w : Words) : Except Refusal Request :=
  match command, w.operands with
  | "train", [] => .ok (.train (trainRequest w))
  | "flags", [] => .ok .flags
  | "measure", [source] => .ok (.measure source (w.get? "work-dir"))
  | _, _ => .error .misuse

/-- The invocation that arguments spell. -/
def ofArguments (arguments : List String) : Except Refusal Invocation := do
  let front ← Words.read ⟨sharedRules, none⟩ {} arguments
  match front.operands with
  | [] => throw .misuse
  | command :: rest =>
    if command = "help" then
      let known := rest.all fun topic => topic = "help" ∨ (commands.lookup topic).isSome
      throw (if rest.length ≤ 1 ∧ known then .help else .misuse)
    match commands.lookup command with
    | none => throw .misuse
    | some grammar =>
      let behind ← Words.read grammar {} rest
      let shared (name : String) : Option String :=
        (behind.get? name).orElse fun _ => front.get? name
      let request ← requestOf command behind
      let defaults : Invocation := { request }
      return {
        settings := shared "config", catalog := (shared "catalog").getD defaults.catalog, request }

end Invocation

end PassTuner.CommandLine
