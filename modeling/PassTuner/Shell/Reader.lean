import PassTuner.Shell.Syntax

/-!
# Reading commands

A reader from bytes to commands. Every function takes what is left of the script and gives back what
is left after it; the fuel bounds their nesting and is set by the length of the script.
-/

namespace PassTuner.Shell.Reader

def isNameStart (c : Char) : Bool := c.isAlpha || c == '_'

def isNameChar (c : Char) : Bool := c.isAlphanum || c == '_'

def isDelimiter (c : Char) : Bool :=
  c == ' ' || c == '\t' || c == '\n' || c == '|' || c == '&' || c == ';' || c == '<' || c == '>' ||
    c == '(' || c == ')'

/-- Skips blanks and a comment up to the end of its line. -/
def skipBlanks : Bytes → Bytes
  | ' ' :: rest => skipBlanks rest
  | '\t' :: rest => skipBlanks rest
  | '\\' :: '\n' :: rest => skipBlanks rest
  | '#' :: rest => rest.dropWhile (· ≠ '\n')
  | rest => rest

/-- Skips blanks, comments and empty lines. -/
def skipLines : Nat → Bytes → Bytes
  | 0, rest => rest
  | fuel + 1, rest =>
    match skipBlanks rest with
    | '\n' :: rest => skipLines fuel rest
    | rest => rest

/-- The bare word at the front, if it stands alone there. -/
def frontWord (rest : Bytes) : Bytes := rest.takeWhile fun c => !isDelimiter c

def reserved : List Bytes :=
  ["then", "else", "elif", "fi", "do", "done", "esac", "\x7d"].map String.toList

/-- Whether a list of commands ends here. -/
def endsList (rest : Bytes) : Bool :=
  match rest with
  | [] => true
  | ')' :: _ => true
  | ';' :: ';' :: _ => true
  | _ => reserved.contains (frontWord rest)

/-- The rest behind a word that must stand at the front. -/
def expect (fuel : Nat) (word : String) (rest : Bytes) : Option Bytes :=
  let rest := skipLines fuel rest
  if frontWord rest = word.toList then some (rest.drop word.length) else none

def isSpecial (c : Char) : Bool :=
  c == '@' || c == '*' || c == '#' || c == '?' || c == '$' || c == '!' || c == '-'

/-- A parameter's name: an identifier, digits, or one special character. -/
def parameterName (braced : Bool) : Bytes → Option (Bytes × Bytes)
  | [] => none
  | c :: rest =>
    if isNameStart c then
      some (c :: rest.takeWhile isNameChar, rest.dropWhile isNameChar)
    else if c.isDigit then
      if braced then some (c :: rest.takeWhile Char.isDigit, rest.dropWhile Char.isDigit)
      else some ([c], rest)
    else if isSpecial c then some ([c], rest)
    else none

/-- The text up to a closing quote. -/
def until? (close : Char) : Bytes → Option (Bytes × Bytes)
  | [] => none
  | c :: rest =>
    if c = close then some ([], rest) else (until? close rest).map fun (t, r) => (c :: t, r)

/-- A backquoted command up to its end, with one level of backslashes removed. -/
def backquoted? : Bytes → Option (Bytes × Bytes)
  | [] => none
  | '`' :: rest => some ([], rest)
  | '\\' :: c :: rest =>
    (backquoted? rest).map fun (t, r) =>
      (if c = '`' ∨ c = '\\' ∨ c = '$' then c :: t else '\\' :: c :: t, r)
  | c :: rest => (backquoted? rest).map fun (t, r) => (c :: t, r)

/-- Puts a bare character in front of a word. -/
def consBare (c : Char) : Word → Word
  | .bare text :: rest => .bare (c :: text) :: rest
  | rest => .bare [c] :: rest

def consQuoted (c : Char) : Word → Word
  | .quoted text :: rest => .quoted (c :: text) :: rest
  | rest => .quoted [c] :: rest

/-- The descriptor and kind of a redirection at the front. -/
def redirectFront (rest : Bytes) : Option (Nat × RedirectKind × Bytes) :=
  let digits := rest.takeWhile Char.isDigit
  let number (default : Nat) :=
    if digits = [] then default else digits.foldl (fun n c => 10 * n + (c.toNat - 48)) 0
  match rest.dropWhile Char.isDigit with
  | '>' :: '>' :: rest => some (number 1, .append, rest)
  | '>' :: '&' :: rest => some (number 1, .duplicate, rest)
  | '>' :: '|' :: rest => some (number 1, .output, rest)
  | '>' :: rest => some (number 1, .output, rest)
  | '<' :: '<' :: _ => none
  | '<' :: '&' :: rest => some (number 0, .duplicate, rest)
  | '<' :: rest => some (number 0, .input, rest)
  | _ => none

/-- The name of an assignment at the front. -/
def assignmentFront (rest : Bytes) : Option (Bytes × Bytes) :=
  let name := rest.takeWhile isNameChar
  match rest.dropWhile isNameChar with
  | '=' :: after => if name.head?.any isNameStart then some (name, after) else none
  | _ => none

/-- The line on which the rest of a script begins. -/
def lineOf (lines : Nat) (rest : Bytes) : Nat := lines - rest.count '\n'

variable (lines : Nat)

mutual

/-- A word up to a delimiter. -/
def word : Nat → Bytes → Option (Word × Bytes)
  | 0, _ => none
  | fuel + 1, rest =>
    match rest with
    | [] => some ([], [])
    | '\\' :: '\n' :: rest => word fuel rest
    | '\\' :: c :: rest => (word fuel rest).map fun (w, r) => (.quoted [c] :: w, r)
    | '\'' :: rest => do
      let (text, rest) ← until? '\'' rest
      let (w, rest) ← word fuel rest
      return (.quoted text :: w, rest)
    | '"' :: rest => do
      let (inner, rest) ← quotedText fuel rest
      let (w, rest) ← word fuel rest
      return (.quoted [] :: inner ++ w, rest)
    | '$' :: rest => do
      let (piece, rest) ← dollar fuel false rest
      let (w, rest) ← word fuel rest
      return (piece :: w, rest)
    | '`' :: rest => do
      let (text, rest) ← backquoted? rest
      let (body, _) ← list fuel text
      let (w, rest) ← word fuel rest
      return (.substitution false body :: w, rest)
    | c :: tail =>
      if isDelimiter c then some ([], rest)
      else (word fuel tail).map fun (w, r) => (consBare c w, r)

/-- Text in double quotes, up to the closing one. -/
def quotedText : Nat → Bytes → Option (Word × Bytes)
  | 0, _ => none
  | fuel + 1, rest =>
    match rest with
    | [] => none
    | '"' :: rest => some ([], rest)
    | '\\' :: '\n' :: rest => quotedText fuel rest
    | '\\' :: c :: rest =>
      if c = '$' ∨ c = '`' ∨ c = '"' ∨ c = '\\' then
        (quotedText fuel rest).map fun (w, r) => (consQuoted c w, r)
      else (quotedText fuel rest).map fun (w, r) => (consQuoted '\\' (consQuoted c w), r)
    | '$' :: rest => do
      let (piece, rest) ← dollar fuel true rest
      let (w, rest) ← quotedText fuel rest
      return (piece :: w, rest)
    | '`' :: rest => do
      let (text, rest) ← backquoted? rest
      let (body, _) ← list fuel text
      let (w, rest) ← quotedText fuel rest
      return (.substitution true body :: w, rest)
    | c :: rest => (quotedText fuel rest).map fun (w, r) => (consQuoted c w, r)

/-- What follows a dollar sign. -/
def dollar : Nat → Bool → Bytes → Option (Piece × Bytes)
  | 0, _, _ => none
  | fuel + 1, inQuotes, rest =>
    match rest with
    | '(' :: '(' :: rest => do
      let (expression, rest) ← arithmetic fuel 0 rest
      return (.arithmetic inQuotes expression, rest)
    | '(' :: rest => do
      let (body, rest) ← list fuel rest
      match skipLines fuel rest with
      | ')' :: rest => return (.substitution inQuotes body, rest)
      | _ => none
    | '{' :: '#' :: rest =>
      match parameterName true rest with
      | some (name, '}' :: rest) => some (.parameter inQuotes name .length, rest)
      | _ =>
        match rest with
        | '}' :: rest => some (.parameter inQuotes ['#'] .value, rest)
        | _ => none
    | '{' :: rest => do
      let (name, rest) ← parameterName true rest
      let (use, rest) ← parameterUse fuel inQuotes rest
      return (.parameter inQuotes name use, rest)
    | rest =>
      match parameterName false rest with
      | some (name, rest) => some (.parameter inQuotes name .value, rest)
      | none => some (if inQuotes then .quoted ['$'] else .bare ['$'], rest)

/-- What stands between a parameter's name and the closing brace. -/
def parameterUse : Nat → Bool → Bytes → Option (ParameterUse × Bytes)
  | 0, _, _ => none
  | fuel + 1, inQuotes, rest =>
    let worded (use : Word → ParameterUse) (rest : Bytes) : Option (ParameterUse × Bytes) :=
      (bracedWord fuel inQuotes rest).map fun (w, r) => (use w, r)
    match rest with
    | '}' :: rest => some (.value, rest)
    | ':' :: '-' :: rest => worded (.orElse true) rest
    | '-' :: rest => worded (.orElse false) rest
    | ':' :: '=' :: rest => worded (.orAssign true) rest
    | '=' :: rest => worded (.orAssign false) rest
    | ':' :: '+' :: rest => worded (.ifSet true) rest
    | '+' :: rest => worded (.ifSet false) rest
    | '%' :: '%' :: rest => worded (.dropEnd true) rest
    | '%' :: rest => worded (.dropEnd false) rest
    | '#' :: '#' :: rest => worded (.dropStart true) rest
    | '#' :: rest => worded (.dropStart false) rest
    | _ => none

/-- A word in braces, up to the closing one. -/
def bracedWord : Nat → Bool → Bytes → Option (Word × Bytes)
  | 0, _, _ => none
  | fuel + 1, inQuotes, rest =>
    match rest with
    | [] => none
    | '}' :: rest => some ([], rest)
    | '\\' :: c :: rest => (bracedWord fuel inQuotes rest).map fun (w, r) => (.quoted [c] :: w, r)
    | '\'' :: tail =>
      if inQuotes then (bracedWord fuel inQuotes tail).map fun (w, r) => (consQuoted '\'' w, r)
      else do
        let (text, rest) ← until? '\'' tail
        let (w, rest) ← bracedWord fuel inQuotes rest
        return (.quoted text :: w, rest)
    | '"' :: rest => do
      let (inner, rest) ← quotedText fuel rest
      let (w, rest) ← bracedWord fuel inQuotes rest
      return (.quoted [] :: inner ++ w, rest)
    | '$' :: rest => do
      let (piece, rest) ← dollar fuel inQuotes rest
      let (w, rest) ← bracedWord fuel inQuotes rest
      return (piece :: w, rest)
    | c :: rest =>
      (bracedWord fuel inQuotes rest).map fun (w, r) =>
        (if inQuotes then consQuoted c w else consBare c w, r)

/-- An arithmetic expression with so many open parentheses, up to the two closing ones. -/
def arithmetic : Nat → Nat → Bytes → Option (Word × Bytes)
  | 0, _, _ => none
  | fuel + 1, depth, rest =>
    match rest with
    | [] => none
    | ')' :: ')' :: tail =>
      match depth with
      | 0 => some ([], tail)
      | depth + 1 => (arithmetic fuel depth (')' :: tail)).map fun (w, r) => (consQuoted ')' w, r)
    | ')' :: tail =>
      match depth with
      | 0 => none
      | depth + 1 => (arithmetic fuel depth tail).map fun (w, r) => (consQuoted ')' w, r)
    | '(' :: tail => (arithmetic fuel (depth + 1) tail).map fun (w, r) => (consQuoted '(' w, r)
    | '$' :: tail => do
      let (piece, rest) ← dollar fuel true tail
      let (w, rest) ← arithmetic fuel depth rest
      return (piece :: w, rest)
    | c :: tail => (arithmetic fuel depth tail).map fun (w, r) => (consQuoted c w, r)

/-- A list of commands, up to where it ends. -/
def list : Nat → Bytes → Option (Command × Bytes)
  | 0, _ => none
  | fuel + 1, rest => do
    let rest := skipLines fuel rest
    if endsList rest then return (.sequence [], rest)
    let (first, rest) ← andOr fuel rest
    match skipBlanks rest with
    | ';' :: ';' :: more => return (first, ';' :: ';' :: more)
    | ';' :: rest => more fuel first rest
    | '&' :: rest => more fuel first rest
    | '\n' :: rest => more fuel first rest
    | rest => return (first, rest)

/-- The rest of a list behind its first command. -/
def more : Nat → Command → Bytes → Option (Command × Bytes)
  | 0, _, _ => none
  | fuel + 1, first, rest => do
    let (others, rest) ← list fuel rest
    match others with
    | .sequence commands => return (.sequence (first :: commands), rest)
    | other => return (.sequence [first, other], rest)

/-- Pipelines joined by `&&` and `||`. -/
def andOr : Nat → Bytes → Option (Command × Bytes)
  | 0, _ => none
  | fuel + 1, rest => do
    let (first, rest) ← pipeline fuel rest
    joined fuel first rest

/-- What is joined to a command from the left. -/
def joined : Nat → Command → Bytes → Option (Command × Bytes)
  | 0, _, _ => none
  | fuel + 1, first, rest =>
    match skipBlanks rest with
    | '&' :: '&' :: rest => do
      let (second, rest) ← pipeline fuel (skipLines fuel rest)
      joined fuel (.both first second) rest
    | '|' :: '|' :: rest => do
      let (second, rest) ← pipeline fuel (skipLines fuel rest)
      joined fuel (.either first second) rest
    | rest => some (first, rest)

def pipeline : Nat → Bytes → Option (Command × Bytes)
  | 0, _ => none
  | fuel + 1, rest => do
    let rest := skipBlanks rest
    if frontWord rest = ['!'] then
      let (command, rest) ← pipeline fuel (rest.drop 1)
      return (.negation command, rest)
    let (first, rest) ← command fuel rest
    let (others, rest) ← stages fuel rest
    return (if others.isEmpty then first else .pipeline (first :: others), rest)

/-- The further commands of a pipeline. -/
def stages : Nat → Bytes → Option (List Command × Bytes)
  | 0, _ => none
  | fuel + 1, rest =>
    match skipBlanks rest with
    | '|' :: '|' :: more => some ([], '|' :: '|' :: more)
    | '|' :: rest => do
      let (next, rest) ← command fuel (skipLines fuel rest)
      let (others, rest) ← stages fuel rest
      return (next :: others, rest)
    | rest => some ([], rest)

def command : Nat → Bytes → Option (Command × Bytes)
  | 0, _ => none
  | fuel + 1, rest => do
    let rest := skipBlanks rest
    let line := lineOf lines rest
    let compound (body : Command) (rest : Bytes) : Option (Command × Bytes) := do
      let (redirects, rest) ← redirects fuel rest
      return (if redirects.isEmpty then body else .redirected line body redirects, rest)
    match rest with
    | '(' :: rest =>
      let (body, rest) ← list fuel rest
      match skipLines fuel rest with
      | ')' :: rest => compound (.subshell body) rest
      | _ => none
    | rest =>
      match String.ofList (frontWord rest) with
      | "\x7b" =>
        let (body, rest) ← list fuel (rest.drop 1)
        let rest ← expect fuel "\x7d" rest
        compound body rest
      | "if" =>
        let (body, rest) ← branches fuel (rest.drop 2)
        compound body rest
      | "while" =>
        let (test, rest) ← list fuel (rest.drop 5)
        let (body, rest) ← doGroup fuel rest
        compound (.loop true test body) rest
      | "until" =>
        let (test, rest) ← list fuel (rest.drop 5)
        let (body, rest) ← doGroup fuel rest
        compound (.loop false test body) rest
      | "for" =>
        let rest := skipBlanks (rest.drop 3)
        let name := rest.takeWhile isNameChar
        if name = [] then none
        let rest := skipLines fuel (rest.drop name.length)
        if frontWord rest = ['i', 'n'] then
          let (words, rest) ← words fuel (rest.drop 2)
          let rest := match rest with
            | ';' :: rest => rest
            | rest => rest
          let (body, rest) ← doGroup fuel rest
          compound (.iteration name (some words) body) rest
        else
          let rest := match rest with
            | ';' :: rest => rest
            | rest => rest
          let (body, rest) ← doGroup fuel rest
          compound (.iteration name none body) rest
      | "case" =>
        let (subject, rest) ← word fuel (skipBlanks (rest.drop 4))
        let rest ← expect fuel "in" rest
        let (arms, rest) ← arms fuel rest
        compound (.selection subject arms) rest
      | _ => simple fuel line [] [] [] rest

/-- The part of a conditional behind `if` or `elif`, up to its end. -/
def branches : Nat → Bytes → Option (Command × Bytes)
  | 0, _ => none
  | fuel + 1, rest => do
    let (test, rest) ← list fuel rest
    let rest ← expect fuel "then" rest
    let (body, rest) ← list fuel rest
    let rest := skipLines fuel rest
    match String.ofList (frontWord rest) with
    | "fi" => return (.conditional test body .nothing, rest.drop 2)
    | "else" =>
      let (otherwise, rest) ← list fuel (rest.drop 4)
      let rest ← expect fuel "fi" rest
      return (.conditional test body otherwise, rest)
    | "elif" =>
      let (otherwise, rest) ← branches fuel (rest.drop 4)
      return (.conditional test body otherwise, rest)
    | _ => none

def doGroup : Nat → Bytes → Option (Command × Bytes)
  | 0, _ => none
  | fuel + 1, rest => do
    let rest ← expect fuel "do" rest
    let (body, rest) ← list fuel rest
    let rest ← expect fuel "done" rest
    return (body, rest)

/-- Words up to the end of the command. -/
def words : Nat → Bytes → Option (List Word × Bytes)
  | 0, _ => none
  | fuel + 1, rest =>
    match skipBlanks rest with
    | [] => some ([], [])
    | c :: tail =>
      if isDelimiter c then some ([], c :: tail)
      else do
        let (w, rest) ← word fuel (c :: tail)
        let (ws, rest) ← words fuel rest
        return (w :: ws, rest)

/-- The arms of a selection, up to its end. -/
def arms : Nat → Bytes → Option (List (List Word × Command) × Bytes)
  | 0, _ => none
  | fuel + 1, rest => do
    let rest := skipLines fuel rest
    if frontWord rest = "esac".toList then return ([], rest.drop 4)
    let rest := match rest with
      | '(' :: rest => rest
      | rest => rest
    let (patterns, rest) ← patterns fuel rest
    let (body, rest) ← list fuel rest
    match skipLines fuel rest with
    | ';' :: ';' :: rest =>
      let (others, rest) ← arms fuel rest
      return ((patterns, body) :: others, rest)
    | rest =>
      let rest ← expect fuel "esac" rest
      return ([(patterns, body)], rest)

/-- Patterns separated by bars, up to the closing parenthesis. -/
def patterns : Nat → Bytes → Option (List Word × Bytes)
  | 0, _ => none
  | fuel + 1, rest => do
    let (w, rest) ← word fuel (skipBlanks rest)
    match skipBlanks rest with
    | ')' :: rest => return ([w], rest)
    | '|' :: rest =>
      let (ws, rest) ← patterns fuel rest
      return (w :: ws, rest)
    | _ => none

def redirects : Nat → Bytes → Option (List Redirect × Bytes)
  | 0, _ => none
  | fuel + 1, rest =>
    match redirectFront (skipBlanks rest) with
    | none => some ([], rest)
    | some (descriptor, kind, rest) => do
      let (target, rest) ← word fuel (skipBlanks rest)
      let (others, rest) ← redirects fuel rest
      return (.mk descriptor kind target :: others, rest)

/-- A simple command, its parts so far in reverse. -/
def simple :
    Nat → Nat → List (Bytes × Word) → List Word → List Redirect → Bytes → Option (Command × Bytes)
  | 0, _, _, _, _, _ => none
  | fuel + 1, line, assignments, words, redirects, rest =>
    match skipBlanks rest with
    | [] => some (.simple line assignments.reverse words.reverse redirects.reverse, [])
    | c :: tail =>
      match redirectFront (c :: tail) with
      | some (descriptor, kind, rest) => do
        let (target, rest) ← word fuel (skipBlanks rest)
        if target.isEmpty then none
        simple fuel line assignments words (.mk descriptor kind target :: redirects) rest
      | none =>
        if isDelimiter c then
          if words.isEmpty && assignments.isEmpty && redirects.isEmpty then none
          else some (.simple line assignments.reverse words.reverse redirects.reverse, c :: tail)
        else
          match if words.isEmpty then assignmentFront (c :: tail) else none with
          | some (name, rest) => do
            let (value, rest) ← word fuel rest
            simple fuel line ((name, value) :: assignments) words redirects rest
          | none => do
            let (w, rest) ← word fuel (c :: tail)
            simple fuel line assignments (w :: words) redirects rest

end

/-- The command that a whole script is. -/
def script? (text : Bytes) : Option Command :=
  let lines := 1 + text.count '\n'
  let fuel := 8 * text.length + 64
  match list lines fuel text with
  | some (command, rest) => if skipLines fuel rest = [] then some command else none
  | none => none

end PassTuner.Shell.Reader
