/-!
# Paths as text

Paths stay as they were written, because messages show them so. Joining, taking apart and finding
the parent follow the components of a path: repeated slashes count for one, and a dot that is not in
front for nothing.
-/

namespace PassTuner.Path

/-- The two paths one behind the other; an absolute one stands for itself. -/
def join (base path : String) : String :=
  match path.toList with
  | '/' :: _ => path
  | chars =>
    let front := base.toList
    String.ofList
      (if front = [] ∨ front.getLast? = some '/' then front ++ chars else front ++ '/' :: chars)

/-- The pieces between slashes, empty ones included. -/
def pieces : List Char → List (List Char)
  | [] => [[]]
  | c :: rest =>
    if c = '/' then [] :: pieces rest
    else match pieces rest with
      | [] => [[c]]
      | piece :: more => (c :: piece) :: more

/-- The pieces that are not empty. -/
def names (path : String) : List String :=
  ((pieces path.toList).filter (· ≠ [])).map String.ofList

def isAbsolute (path : String) : Bool := path.toList.head? == some '/'

/-- Whether the path ends in a slash, so that it can only name a directory. -/
def endsInSlash (path : String) : Bool := path.toList.getLast? == some '/'

/-- The last component, if it is a name. -/
def fileName? (path : String) : Option String :=
  let all := names path
  let kept :=
    if isAbsolute path then all.filter (· ≠ ".") else all.take 1 ++ (all.drop 1).filter (· ≠ ".")
  match kept.getLast? with
  | some name => if name = "." ∨ name = ".." then none else some name
  | none => none

/-- A file name cut at its last dot: what stands before, and what behind. A name without a dot, or
with one in front only, is not cut. -/
def cutName (name : String) : String × Option String :=
  let chars := name.toList
  let tail := (chars.reverse.takeWhile (· ≠ '.')).reverse
  let stem := chars.take (chars.length - tail.length - 1)
  if tail.length = chars.length ∨ stem = [] then (name, none)
  else (String.ofList stem, some (String.ofList tail))

def stem? (path : String) : Option String := (fileName? path).map fun name => (cutName name).1

def extension? (path : String) : Option String := (fileName? path).bind fun name => (cutName name).2

/-- A reversed path without the slashes and dots at its end. -/
def trimReversed : List Char → List Char
  | '/' :: c :: rest => trimReversed (c :: rest)
  | '.' :: '/' :: c :: rest => trimReversed (c :: rest)
  | ['.', '/'] => ['/']
  | other => other

/-- The path of the directory that holds what a path names; none for a root or an empty path. -/
def parent? (path : String) : Option String :=
  match trimReversed path.toList.reverse with
  | [] => none
  | ['/'] => none
  | trimmed => some (String.ofList (trimReversed (trimmed.dropWhile (· ≠ '/'))).reverse)

end PassTuner.Path
