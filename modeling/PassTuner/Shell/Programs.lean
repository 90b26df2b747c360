import PassTuner.Shell.Condition
import PassTuner.Shell.Pattern
import PassTuner.Shell.Printing

/-!
# Programs

The programs that commands call by name, each as a function from its words, what it reads from its
input and the disk to what it leaves behind. A program that cannot do a part of its work says so on
the error stream, goes on with the rest and ends in a status other than zero.
-/

namespace PassTuner.Shell

/-- What a program leaves behind. -/
structure Effect where
  disk : Disk
  /-- What it left unread of its input. -/
  input : Bytes
  /-- Its output and error text in order, each with the descriptor. -/
  prints : List (Nat × Bytes) := []
  status : Nat := 0
  /-- Nanoseconds that it waited. -/
  pause : Nat := 0

namespace Effect

def print (e : Effect) (text : Bytes) : Effect := { e with prints := e.prints ++ [(1, text)] }

/-- The effect with a complaint and a status. -/
def fail (e : Effect) (status : Nat) (message : Bytes) : Effect :=
  { e with prints := e.prints ++ [(2, message ++ ['\n'])], status }

end Effect

/-- A program. -/
abbrev Program := List Bytes → Effect → Effect

namespace Program

/-- A name in quotes. -/
def quoted (name : Bytes) : Bytes :=
  if name.contains '\'' then '"' :: name ++ ['"'] else '\'' :: name ++ ['\'']

/-- A name, in quotes if it holds a character that needs them. -/
def shown (name : Bytes) : Bytes :=
  let isPlain (c : Char) :=
    c.isAlphanum || "_-./+,:@%^\x7b\x7d]".toList.contains c || decide (128 ≤ c.toNat)
  if name ≠ [] ∧ name.all isPlain then name else quoted name

/-- Options, which start with a dash, and the words behind them. Each letter counts by itself. -/
def options : List Bytes → List Char × List Bytes
  | ['-', '-'] :: rest => ([], rest)
  | ('-' :: c :: letters) :: rest =>
    let (more, words) := options rest
    (c :: letters ++ more, words)
  | word :: rest =>
    let (more, words) := options rest
    (more, word :: words)
  | [] => ([], [])

/-- The content that a word names: a file, or the rest of the input. -/
def content (e : Effect) (word : Bytes) : Except DiskError (Bytes × Effect) :=
  if word = ['-'] then .ok (e.input, { e with input := [] })
  else match e.disk.read (pathOf word) with
    | .ok bytes => .ok (ofByteArray bytes, e)
    | .error cause => .error cause

/-- The complaint of a program about a file. -/
def about (program : String) (file : Bytes) (cause : DiskError) : Bytes :=
  program.toList ++ ": ".toList ++ shown file ++ ": ".toList ++ cause.reason.toList

def cat : Program := fun words e =>
  let (_, files) := options words
  (if files.isEmpty then [['-']] else files).foldl
    (fun e file =>
      match content e file with
      | .ok (text, e) => e.print text
      | .error cause => e.fail 1 (about "cat" file cause))
    e

/-- Where a copy of a file goes: into a directory under its own name, or to the path itself. -/
def copyTarget (disk : Disk) (source target : String) : String :=
  if disk.isDirectory target then Path.join target ((Path.fileName? source).getD "") else target

def cp : Program := fun words e =>
  let hint := "\nTry 'cp --help' for more information."
  let copy (source target : Bytes) : Effect :=
    match e.disk.node? (pathOf source) with
    | .error cause =>
      e.fail 1 ("cp: cannot stat ".toList ++ quoted source ++ (": " ++ cause.reason).toList)
    | .ok .directory =>
      e.fail 1 ("cp: -r not specified; omitting directory ".toList ++ quoted source)
    | .ok (.file bytes) =>
      let path := copyTarget e.disk (pathOf source) (pathOf target)
      match e.disk.locate (pathOf source), e.disk.locate path with
      | .ok (.present p _), .ok (.present q _) =>
        if p = q then
          e.fail 1 ("cp: ".toList ++ quoted source ++ " and ".toList ++ quoted (bytesOf path) ++
            " are the same file".toList)
        else match e.disk.write path bytes with
          | .ok disk => { e with disk }
          | .error cause =>
            e.fail 1 ("cp: cannot create regular file ".toList ++ quoted (bytesOf path) ++
              (": " ++ cause.reason).toList)
      | _, _ =>
        match e.disk.write path bytes with
        | .ok disk => { e with disk }
        | .error cause =>
          let cause := if cause = .isDirectory then .notDirectory else cause
          e.fail 1 ("cp: cannot create regular file ".toList ++ quoted (bytesOf path) ++
            (": " ++ cause.reason).toList)
  match (options words).2 with
  | [] => e.fail 1 ("cp: missing file operand" ++ hint).toList
  | [source] =>
    e.fail 1
      ("cp: missing destination file operand after ".toList ++ quoted source ++ hint.toList)
  | [source, target] => copy source target
  | files =>
    e.fail 1 ("cp: target ".toList ++ quoted (files.getLastD []) ++ ": Not a directory".toList)

/-- The lines of a text; the last one may lack its end. -/
def linesOf : Bytes → List Bytes
  | [] => []
  | c :: rest =>
    if c = '\n' then [] :: linesOf rest
    else match rest with
      | [] => [[c]]
      | _ =>
        match linesOf rest with
        | line :: more => (c :: line) :: more
        | [] => [[c]]

/-- What a line search was asked for. -/
structure Search where
  letters : List Char
  expressions : List Bytes
  files : List Bytes

namespace Search

/-- Options that take the next word, or the rest of their own, and all others. -/
def ofWords : List Bytes → Search
  | [] => ⟨[], [], []⟩
  | ['-', '-'] :: rest => ⟨[], [], rest⟩
  | ['-', 'e'] :: expression :: rest =>
    let s := ofWords rest
    { s with expressions := expression :: s.expressions }
  | ('-' :: c :: letters) :: rest =>
    let s := ofWords rest
    { s with letters := c :: letters ++ s.letters }
  | word :: rest =>
    let s := ofWords rest
    { s with files := word :: s.files }

def has (s : Search) (letter : Char) : Bool := s.letters.contains letter

/-- The search with its first plain word as the expression, unless it has one. -/
def complete? (s : Search) : Option Search :=
  match s.expressions, s.files with
  | [], expression :: files =>
    some { s with expressions := if expression = [] then [[]] else linesOf expression, files }
  | [], [] => none
  | _, _ => some s

def pattern? (s : Search) (expression : Bytes) : Option Pattern :=
  let expression := if s.has 'i' then expression.map Char.toLower else expression
  if s.has 'F' then some (Pattern.ofText expression)
  else Pattern.ofExpression? (s.has 'E') expression

def selects (s : Search) (patterns : List Pattern) (line : Bytes) : Bool :=
  let line := if s.has 'i' then line.map Char.toLower else line
  (patterns.any fun p => if s.has 'x' then p.isLine line else p.occursIn line) != s.has 'v'

end Search

def grep : Program := fun words e =>
  let usage := "Usage: grep [OPTION]... PATTERNS [FILE]...\nTry 'grep --help' for more information."
  match (Search.ofWords words).complete? with
  | none => e.fail 2 usage.toList
  | some s =>
    match s.expressions.mapM s.pattern? with
    | none => e.fail 2 "grep: Invalid regular expression".toList
    | some patterns =>
      let files := if s.files.isEmpty then [['-']] else s.files
      let named := (files.length > 1 || s.has 'H') && !s.has 'h'
      let search (state : Effect × Bool) (file : Bytes) : Effect × Bool :=
        match content state.1 file with
        | .error cause =>
          let message := "grep: ".toList ++ file ++ (": " ++ cause.reason).toList
          let e := { state.1 with status := 2 }
          (if s.has 's' then e else e.fail 2 message, state.2)
        | .ok (text, e) =>
          let shown := if file = ['-'] then "(standard input)".toList else file
          let front := if named then shown ++ [':'] else []
          let found := (linesOf text).zipIdx.filter fun (line, _) => s.selects patterns line
          let printed :=
            if s.has 'q' then []
            else if s.has 'c' then front ++ (toString found.length).toList ++ ['\n']
            else if s.has 'l' then if found.isEmpty then [] else file ++ ['\n']
            else found.flatMap fun (line, n) =>
              let number := if s.has 'n' then (toString (n + 1)).toList ++ [':'] else []
              front ++ number ++ line ++ ['\n']
          (if printed = [] then e else e.print printed, state.2 || !found.isEmpty)
      let (e, found) := files.foldl search (e, false)
      if e.status ≠ 0 && !(s.has 'q' && found) then e
      else { e with status := if found then 0 else 1 }

/-- Lines, words, characters and bytes of a text. -/
def counts (text : Bytes) : List Nat :=
  let isSpace (c : Char) :=
    c == ' ' || c == '\n' || c == '\t' || c == '\r' || c == '\x0b' || c == '\x0c'
  let count : Nat × Bool → Char → Nat × Bool
    | (n, inside), c => if isSpace c then (n, false) else (if inside then n else n + 1, true)
  [text.count '\n', (text.foldl count (0, false)).1,
    text.countP fun c => c.toNat < 128 || 192 ≤ c.toNat, text.length]

def wc : Program := fun words e =>
  let (letters, files) := options words
  let wanted := if letters.isEmpty then [true, true, false, true]
    else ['l', 'w', 'm', 'c'].map letters.contains
  let chosen (numbers : List Nat) : List Nat := ((numbers.zip wanted).filter Prod.snd).map Prod.fst
  let read (state : Effect × List (Bytes × List Nat)) (file : Bytes) :
      Effect × List (Bytes × List Nat) :=
    match content state.1 file with
    | .ok (text, e) => (e, state.2 ++ [(file, counts text)])
    | .error cause => (state.1.fail 1 (about "wc" file cause), state.2)
  let (e, rows) := (if files.isEmpty then [['-']] else files).foldl read (e, [])
  let total := rows.foldl (fun sums row => sums.zipWith (· + ·) row.2) [0, 0, 0, 0]
  let width :=
    if files.length ≤ 1 && (wanted.countP id) = 1 then 1 else (toString (total.getLastD 0)).length
  let line (name : Bytes) (numbers : List Nat) : Bytes :=
    let columns := (chosen numbers).map fun n =>
      Printing.pad false false width (toString n).toList
    List.intercalate [' '] columns ++ (if name = [] then [] else ' ' :: name) ++ ['\n']
  let e := rows.foldl (fun e row => e.print (line (if files.isEmpty then [] else row.1) row.2)) e
  if files.length > 1 then e.print (line "total".toList total) else e

def rm : Program := fun words e =>
  let (letters, files) := options words
  files.foldl
    (fun e file =>
      let refuse (cause : DiskError) : Effect :=
        e.fail 1 ("rm: cannot remove ".toList ++ quoted file ++ (": " ++ cause.reason).toList)
      match e.disk.node? (pathOf file) with
      | .ok .directory =>
        if letters.contains 'r' then { e with disk := e.disk.remove (pathOf file) }
        else refuse .isDirectory
      | .ok (.file _) => { e with disk := e.disk.remove (pathOf file) }
      | .error cause => if letters.contains 'f' then e else refuse cause)
    e

def mkdir : Program := fun words e =>
  let (letters, files) := options words
  files.foldl
    (fun e file =>
      let made := if letters.contains 'p' then e.disk.makeDirectories (pathOf file)
        else e.disk.makeDirectory (pathOf file)
      match made with
      | .ok disk => { e with disk }
      | .error cause =>
        e.fail 1 ("mkdir: cannot create directory ".toList ++ quoted file ++
          (": " ++ cause.reason).toList))
    e

def touch : Program := fun words e =>
  (options words).2.foldl
    (fun e file =>
      match e.disk.node? (pathOf file) with
      | .ok _ => e
      | .error _ =>
        match e.disk.write (pathOf file) .empty with
        | .ok disk => { e with disk }
        | .error cause =>
          e.fail 1 ("touch: cannot touch ".toList ++ quoted file ++ (": " ++ cause.reason).toList))
    e

/-- Waits for seconds, which may have decimals. -/
def sleep : Program := fun words e =>
  let nanoseconds (word : Bytes) : Nat :=
    let fraction := ((word.dropWhile (· ≠ '.')).drop 1 ++ List.replicate 9 '0').take 9
    Printing.natural (word.takeWhile Char.isDigit) * 1000000000 + Printing.natural fraction
  { e with pause := words.foldl (fun total word => total + nanoseconds word) e.pause }

/-- Prints its words; escapes stay as they are. -/
def echo : Program := fun words e =>
  match words with
  | ['-', 'n'] :: words => e.print (List.intercalate [' '] words)
  | words => e.print (List.intercalate [' '] words ++ ['\n'])

def printf : Program := fun words e =>
  let printed := Printing.formatted words
  let e := if printed.text = [] then e else e.print printed.text
  printed.errors.foldl (fun e error => e.fail 1 ("printf: " ++ error).toList) e

/-- The programs that stand in files of their own, by name. -/
def external? (name : String) : Option Program :=
  match name with
  | "cat" => some cat
  | "cp" => some cp
  | "echo" => some echo
  | "false" => some fun _ e => { e with status := 1 }
  | "grep" => some grep
  | "mkdir" => some mkdir
  | "printf" => some printf
  | "rm" => some rm
  | "sleep" => some sleep
  | "touch" => some touch
  | "true" => some fun _ e => e
  | "wc" => some wc
  | _ => none

end Program

end PassTuner.Shell
