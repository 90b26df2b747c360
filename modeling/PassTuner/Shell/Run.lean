import PassTuner.Shell.Reader
import PassTuner.Shell.State

/-!
# Running commands

Words are expanded to chunks, chunks split to fields, and the first field names what is called. The
fuel bounds how deep commands nest and how often loops turn; a script that uses it up never ends, as
far as its caller can tell.
-/

namespace PassTuner.Shell

/-- A part of an expanded word. -/
inductive Chunk where
  /-- Text that stays together; a quoted text makes a field also when it is empty. -/
  | whole (quoted : Bool) (text : Bytes)
  /-- Text that is split at blanks. -/
  | loose (text : Bytes)
  /-- The border between two arguments. -/
  | border
  /-- What all arguments become when there are none. -/
  | nothing
  deriving DecidableEq, Repr

namespace Chunk

def text : Chunk → Bytes
  | whole _ text => text
  | loose text => text
  | border => [' ']
  | nothing => []

def join (chunks : List Chunk) : Bytes := chunks.flatMap text

/-- The characters of a pattern, each with whether it stands for itself. -/
def glob (chunks : List Chunk) : List (Char × Bool) :=
  chunks.flatMap fun
    | whole quoted text => text.map (·, quoted)
    | other => other.text.map (·, false)

/-- The fields that are complete, backwards, and the one that is not. -/
abbrev Fields := List Bytes × Option Bytes

def finish : Fields → Fields
  | (done, some field) => (field :: done, none)
  | (done, none) => (done, none)

def extend (text : Bytes) : Fields → Fields
  | (done, field) => (done, some (field.getD [] ++ text))

def addLoose (fields : Fields) (c : Char) : Fields :=
  if c = ' ' ∨ c = '\t' ∨ c = '\n' then finish fields else extend [c] fields

def add (fields : Fields) : Chunk → Fields
  | whole _ text => extend text fields
  | loose text => text.foldl addLoose fields
  | border => finish fields
  | nothing => fields

/-- The fields of an expanded word. -/
def split (chunks : List Chunk) : List Bytes :=
  if chunks.contains nothing && (join chunks).isEmpty then []
  else (finish (chunks.foldl add ([], none))).1.reverse

end Chunk

/-- A text without the line ends at its end. -/
def trimLineEnds (text : Bytes) : Bytes := (text.reverse.dropWhile (· == '\n')).reverse

/-- What is left of a text without a part at its end that a pattern accepts. -/
def withoutEnd (longest : Bool) (p : Pattern) (text : Bytes) : Bytes :=
  let lengths := List.range (text.length + 1)
  let kept := (if longest then lengths else lengths.reverse).find? fun n => p.accepts (text.drop n)
  text.take (kept.getD text.length)

/-- What is left of a text without a part at its start that a pattern accepts. -/
def withoutStart (longest : Bool) (p : Pattern) (text : Bytes) : Bytes :=
  let lengths := List.range (text.length + 1)
  let dropped :=
    (if longest then lengths.reverse else lengths).find? fun n => p.accepts (text.take n)
  text.drop (dropped.getD 0)

namespace Act

def setStatus (status : Nat) : Act Unit := modify fun s => { s with status }

/-- Ends the script after a complaint. -/
def abort (line : Nat) (message : String) : Act α := do
  modify fun s => { s.complain line message with status := 2 }
  throw .exit

def exitStatus (word : Bytes) : Option Nat :=
  if word ≠ [] ∧ word.all Char.isDigit then some (Printing.natural word % 256) else none

def signal? (name : Bytes) : Option Nat :=
  match String.ofList name with
  | "HUP" => some 1
  | "INT" => some 2
  | "QUIT" => some 3
  | "ABRT" => some 6
  | "KILL" => some 9
  | "USR1" => some 10
  | "SEGV" => some 11
  | "USR2" => some 12
  | "PIPE" => some 13
  | "ALRM" => some 14
  | "TERM" => some 15
  | _ => if name ≠ [] ∧ name.all Char.isDigit then some (Printing.natural name) else none

/-- Sends a signal to processes, of which only the own one is known. -/
def kill (line : Nat) (words : List Bytes) : Act Unit := do
  let (signal, processes) := match words with
    | ['-', 's'] :: name :: rest => (signal? name, rest)
    | ('-' :: c :: name) :: rest => (signal? (c :: name), rest)
    | rest => (some 15, rest)
  match signal with
  | none => abort line "kill: Illegal option"
  | some signal =>
    if processes.contains State.ownProcess then
      if signal = 0 then setStatus 0 else throw (.killed signal)
    else
      modify fun s => { s.complain line "kill: No such process" with status := 1 }

/-- Answers a condition. -/
def test (line : Nat) (name : String) (words : List Bytes) : Act Unit := do
  match Condition.holds (← get).disk words with
  | .ok value => setStatus (if value then 0 else 1)
  | .error message => modify fun s => { s.complain line s!"{name}: {message}" with status := 2 }

/-- Reads a line of the input into variables, the last of which takes all that is left. -/
def readLine (names : List Bytes) : Act Unit := do
  let names := names.filter (· ≠ ['-', 'r'])
  let input := (← get).input
  let line := input.takeWhile (· ≠ '\n')
  let rest := input.drop line.length
  let isBlank (c : Char) : Bool := c == ' ' || c == '\t'
  let trimmed (text : Bytes) : Bytes := ((text.dropWhile isBlank).reverse.dropWhile isBlank).reverse
  let last := names.length - 1
  let assign (state : State × Bytes) (entry : Bytes × Nat) : State × Bytes :=
    let text := state.2.dropWhile isBlank
    let value := if entry.2 = last then trimmed text else text.takeWhile fun c => !isBlank c
    (state.1.setVariable entry.1 value, text.drop value.length)
  modify fun s => (names.zipIdx.foldl assign ({ s with input := rest.drop 1 }, line)).1
  setStatus (if rest.isEmpty then 1 else 0)

/-- Leads a descriptor to a target; false if that is impossible. -/
def redirect (line descriptor : Nat) (kind : RedirectKind) (target : Bytes) : Act Bool := do
  let s ← get
  let path := pathOf target
  let refuse (verb : String) (missing : String) (cause : DiskError) : Act Bool := do
    let reason := if cause = .notFound ∨ cause = .notDirectory then missing else cause.reason
    set (s.complain line s!"cannot {verb} {path}: {reason}")
    return false
  let open? (truncated : Bool) : Act Bool := do
    let sink? : Option Sink := match path with
      | "/dev/null" => some .nowhere
      | "/dev/stdout" => some (s.sink 1)
      | "/dev/stderr" => some (s.sink 2)
      | _ => none
    match sink? with
    | some sink =>
      set (s.redirect descriptor sink)
      return true
    | none =>
      if !truncated && s.disk.isFile path then
        set (s.redirect descriptor (.file path))
        return true
      match s.disk.write path .empty with
      | .ok disk =>
        set { s.redirect descriptor (.file path) with disk }
        return true
      | .error cause => refuse "create" "Directory nonexistent" cause
  match kind with
  | .input =>
    if path = "/dev/null" then
      set { s with input := [] }
      return true
    match s.disk.node? path with
    | .ok (.file content) =>
      set { s with input := ofByteArray content }
      return true
    | .ok .directory =>
      set { s with input := [] }
      return true
    | .error cause => refuse "open" "No such file" cause
  | .output => open? true
  | .append => open? false
  | .duplicate =>
    if target = ['-'] then set (s.redirect descriptor .nowhere)
    else if descriptor ≠ 0 then set (s.redirect descriptor (s.sink (Printing.natural target)))
    return true

/-- The words of a call of the shell: its script, its name and its arguments. -/
def scriptOf (s : State) (words : List Bytes) : Except String (Bytes × Bytes × List Bytes) :=
  match words with
  | ['-', 'c'] :: [] => .error "-c requires an argument"
  | ['-', 'c'] :: script :: rest => .ok (script, rest.headD "sh".toList, rest.drop 1)
  | [] => .ok (s.input, "sh".toList, [])
  | file :: rest =>
    match s.disk.read (pathOf file) with
    | .ok content => .ok (ofByteArray content, file, rest)
    | .error _ => .error s!"cannot open {pathOf file}: No such file"

mutual

def expand : Nat → Word → Act (List Chunk)
  | 0, _ => throw .exhausted
  | fuel + 1, word => do return (← word.mapM (expandPiece fuel)).flatten

/-- The text of a word that is not split. -/
def expandText : Nat → Word → Act Bytes
  | 0, _ => throw .exhausted
  | fuel + 1, word => do return Chunk.join (← expand fuel word)

def expandPiece : Nat → Piece → Act (List Chunk)
  | 0, _ => throw .exhausted
  | fuel + 1, piece => do
    let one (inQuotes : Bool) (text : Bytes) : List Chunk :=
      [if inQuotes then .whole true text else .loose text]
    match piece with
    | .bare text => return [.whole false text]
    | .quoted text => return [.whole true text]
    | .substitution inQuotes body =>
      let text ← captured (separate (run fuel body))
      modify fun s => { s with substituted := s.status }
      return one inQuotes (trimLineEnds text)
    | .arithmetic inQuotes expression =>
      let text ← expandText fuel expression
      let s ← get
      match Arithmetic.expression? text with
      | none => abort 1 s!"arithmetic expression: expecting primary: \"{String.ofList text}\""
      | some e =>
        match Arithmetic.eval s.parameter? e with
        | .ok n => return one inQuotes (toString n).toList
        | .error .divisionByZero =>
          abort 1 s!"arithmetic expression: division by zero: \"{String.ofList text}\""
        | .error (.notNumber value) => abort 1 s!"Illegal number: {String.ofList value}"
    | .parameter inQuotes name use =>
      let s ← get
      if name = ['@'] ∨ name = ['*'] then
        if name = ['*'] ∧ inQuotes then return [.whole true (List.intercalate [' '] s.arguments)]
        else if s.arguments = [] then return [.nothing]
        else return (s.arguments.map (one inQuotes)).intersperse [.border] |>.flatten
      else
        let value := s.parameter? name
        let counts (emptyToo : Bool) : Bool := value.any fun text => !(emptyToo && text.isEmpty)
        match use with
        | .value => return one inQuotes (value.getD [])
        | .length => return one inQuotes (toString (value.getD []).length).toList
        | .orElse emptyToo word =>
          if counts emptyToo then return one inQuotes (value.getD []) else expand fuel word
        | .orAssign emptyToo word =>
          if counts emptyToo then return one inQuotes (value.getD [])
          else
            let text ← expandText fuel word
            modify (·.setVariable name text)
            return one inQuotes text
        | .ifSet emptyToo word =>
          if counts emptyToo then expand fuel word else return one inQuotes []
        | .dropEnd longest word =>
          let p := Pattern.ofGlob (Chunk.glob (← expand fuel word))
          return one inQuotes (withoutEnd longest p (value.getD []))
        | .dropStart longest word =>
          let p := Pattern.ofGlob (Chunk.glob (← expand fuel word))
          return one inQuotes (withoutStart longest p (value.getD []))

/-- Runs an act with redirections, which hold only for it. -/
def redirected : Nat → Nat → List Redirect → Act Unit → Act Unit
  | 0, _, _, _ => throw .exhausted
  | fuel + 1, line, redirects, act => do
    let before ← get
    let readsFile := redirects.any fun | .mk _ kind _ => kind == .input
    let possible ← redirects.foldlM
      (fun possible redirect => do
        if !possible then return false
        match redirect with
        | .mk descriptor kind target =>
          Act.redirect line descriptor kind (← expandText fuel target))
      true
    bracket (if possible then act else setStatus 2) fun s =>
      { s with sinks := before.sinks, input := if readsFile then before.input else s.input }

def run : Nat → Command → Act Unit
  | 0, _ => throw .exhausted
  | fuel + 1, command => do
    match command with
    | .sequence [] => setStatus 0
    | .sequence commands => commands.forM (run fuel)
    | .both first second =>
      run fuel first
      if (← get).status = 0 then run fuel second
    | .either first second =>
      run fuel first
      if (← get).status ≠ 0 then run fuel second
    | .negation command =>
      run fuel command
      modify fun s => { s with status := if s.status = 0 then 1 else 0 }
    | .pipeline commands =>
      let before ← get
      for stage in commands.dropLast do
        let text ← captured (separate (run fuel stage))
        modify fun s => { s with input := text }
      match commands.getLast? with
      | some last => separate (run fuel last)
      | none => pure ()
      modify fun s => { s with input := before.input }
    | .subshell body => separate (run fuel body)
    | .conditional test thenBody elseBody =>
      run fuel test
      if (← get).status = 0 then run fuel thenBody
      else
        setStatus 0
        run fuel elseBody
    | .loop whileTrue test body =>
      setStatus 0
      repeated fuel whileTrue test body 0
    | .iteration name words body =>
      let fields ← match words with
        | none => pure (← get).arguments
        | some words => do pure ((← words.mapM (expand fuel)).flatMap Chunk.split)
      setStatus 0
      forEach fuel name fields body
    | .selection subject arms =>
      let text ← expandText fuel subject
      setStatus 0
      let arm ← arms.findM? fun (patterns, _) => patterns.anyM fun word => do
        return (Pattern.ofGlob (Chunk.glob (← expand fuel word))).accepts text
      match arm with
      | some (_, body) => run fuel body
      | none => pure ()
    | .redirected line body redirects => redirected fuel line redirects (run fuel body)
    | .simple line assignments words redirects =>
      modify fun s => { s with substituted := 0 }
      let fields := (← words.mapM (expand fuel)).flatMap Chunk.split
      let assign : Act Unit := assignments.forM fun (name, value) => do
        let text ← expandText fuel value
        modify (·.setVariable name text)
      match fields with
      | [] =>
        redirected fuel line redirects (setStatus 0)
        if (← get).status = 0 then
          assign
          modify fun s => { s with status := s.substituted }
      | name :: words =>
        let before ← get
        redirected fuel line redirects do
          if assignments.isEmpty then call fuel line name words
          else
            assign
            modify fun s => { s with exported := assignments.map Prod.fst ++ s.exported }
            bracket (call fuel line name words) fun s =>
              { s with assigned := before.assigned, exported := before.exported }

/-- Turns of a loop, with the status of the last one. -/
def repeated : Nat → Bool → Command → Command → Nat → Act Unit
  | 0, _, _, _, _ => throw .exhausted
  | fuel + 1, whileTrue, test, body, last => do
    run fuel test
    if ((← get).status = 0) = whileTrue then
      let goesOn ← try
          run fuel body
          pure true
        catch
          | .leave n => if n ≤ 1 then pure false else throw (.leave (n - 1))
          | .again n => if n ≤ 1 then pure true else throw (.again (n - 1))
          | stop => throw stop
      if goesOn then repeated fuel whileTrue test body (← get).status
    else setStatus last

/-- A body once for each value of a variable. -/
def forEach : Nat → Bytes → List Bytes → Command → Act Unit
  | 0, _, _, _ => throw .exhausted
  | _ + 1, _, [], _ => pure ()
  | fuel + 1, name, value :: rest, body => do
    modify (·.setVariable name value)
    let goesOn ← try
        run fuel body
        pure true
      catch
        | .leave n => if n ≤ 1 then pure false else throw (.leave (n - 1))
        | .again n => if n ≤ 1 then pure true else throw (.again (n - 1))
        | stop => throw stop
    if goesOn then forEach fuel name rest body

/-- Calls what a name stands for. -/
def call : Nat → Nat → Bytes → List Bytes → Act Unit
  | 0, _, _, _ => throw .exhausted
  | fuel + 1, line, name, words => do
    match String.ofList name with
    | ":" => setStatus 0
    | "echo" => modify (·.call (fun words e => e.print (Printing.echo words)) words)
    | "printf" =>
      let printed := Printing.formatted words
      let status := if printed.errors.isEmpty then 0 else 1
      modify fun s => { s.emit 1 printed.text with status }
      modify fun s => printed.errors.foldl (fun s error => s.complain line s!"printf: {error}") s
    | "test" => test line "test" words
    | "[" =>
      if words.getLast? = some [']'] then test line "[" words.dropLast
      else modify fun s => { s.complain line "[: missing ]" with status := 2 }
    | "exit" =>
      match words with
      | [] => throw .exit
      | word :: _ =>
        match exitStatus word with
        | some status =>
          setStatus status
          throw .exit
        | none => abort line s!"exit: Illegal number: {String.ofList word}"
    | "kill" => kill line words
    | "break" => throw (.leave ((words.head?.bind exitStatus).getD 1))
    | "continue" => throw (.again ((words.head?.bind exitStatus).getD 1))
    | "shift" =>
      let n := (words.head?.bind exitStatus).getD 1
      if n ≤ (← get).arguments.length then
        modify fun s => { s with arguments := s.arguments.drop n, status := 0 }
      else abort line "shift: can't shift that many"
    | "set" =>
      match words with
      | ['-', '-'] :: arguments => modify fun s => { s with arguments, status := 0 }
      | _ => setStatus 0
    | "export" =>
      for word in words do
        let name := word.takeWhile (· ≠ '=')
        if word.contains '=' then modify (·.setVariable name (word.drop (name.length + 1)))
        modify fun s => { s with exported := name :: s.exported }
      setStatus 0
    | "unset" =>
      modify fun s => { s with
        assigned := s.assigned.filter fun entry => !words.contains entry.1
        status := 0 }
    | "read" => readLine words
    | "eval" =>
      match Reader.script? (List.intercalate [' '] words) with
      | some command => run fuel command
      | none => abort line "Syntax error"
    | "exec" =>
      match words with
      | [] => setStatus 0
      | name :: words =>
        call fuel line name words
        throw .exit
    | "sh" => shell fuel words
    | "/bin/sh" => shell fuel words
    | command =>
      let path := (["/bin/", "/usr/bin/"].filter (·.toList.isPrefixOf name)).foldl
        (fun text directory => String.ofList (text.toList.drop directory.length)) command
      match Program.external? path with
      | some program => modify (·.call program words)
      | none =>
        let disk := (← get).disk
        if command.toList.contains '/' && (disk.isFile command || disk.isDirectory command) then
          modify fun s => { s.complain line s!"{command}: Permission denied" with status := 126 }
        else modify fun s => { s.complain line s!"{command}: not found" with status := 127 }

/-- Runs a script in a shell of its own. -/
def shell : Nat → List Bytes → Act Unit
  | 0, _ => throw .exhausted
  | fuel + 1, words => do
    let before ← get
    match scriptOf before words with
    | .error message =>
      let complained := { before with name := "sh".toList }.complain 0 message
      set { complained with name := before.name, status := 2 }
    | .ok (script, name, arguments) =>
      let body : Act Unit := do
        modify fun s => { s with name, arguments, assigned := s.inherited, status := 0 }
        match Reader.script? script with
        | some command => run fuel command
        | none => abort 1 "Syntax error"
      try separate body catch
        | .killed signal => modify fun s => { s.outside before with status := 128 + signal }
        | stop => throw stop

end

end Act

/-- How a program that was called from outside ended. -/
structure Ending where
  disk : Disk
  clock : Nat
  output : ByteArray
  errors : ByteArray
  /-- The exit status; there is none after a death by signal. -/
  status : Option Nat

/-- Turns and nestings that a script may take. -/
def depth : Nat := 100000

/-- Calls a program with no input. It is searched among the programs that are known. -/
def invoke (disk : Disk) (clock : Nat) (program : String) (arguments : List String) :
    Except DiskError Ending :=
  let words := arguments.map bytesOf
  let start : State := { disk, clock, name := program.toList, arguments := [] }
  let ending (s : State) (status : Option Nat) : Ending :=
    ⟨s.disk, s.clock, toByteArray (s.buffers[0]?.getD []), toByteArray (s.buffers[1]?.getD []),
      status⟩
  let name := match program with
    | "/bin/sh" => "sh"
    | "/usr/bin/sh" => "sh"
    | name => name
  if name = "sh" then
    let body : Act Unit := do
      match Act.scriptOf (← get) words with
      | .error message => set { (← get).complain 0 message with status := 2 }
      | .ok (script, name, arguments) =>
        modify fun s => { s with name, arguments }
        match Reader.script? script with
        | some command => Act.run depth command
        | none => Act.abort 1 "Syntax error"
    match EStateM.run body start with
    | .ok _ s => .ok (ending s (some s.status))
    | .error .exit s => .ok (ending s (some s.status))
    | .error (.leave _) s => .ok (ending s (some s.status))
    | .error (.again _) s => .ok (ending s (some s.status))
    | .error (.killed _) s => .ok (ending s none)
    | .error .exhausted s => .ok (ending s none)
  else match Program.external? name with
    | some program =>
      let s := start.call program words
      .ok (ending s (some s.status))
    | none =>
      if name.toList.contains '/' ∧ (disk.isFile name ∨ disk.isDirectory name) then .error .denied
      else .error .notFound

end PassTuner.Shell
