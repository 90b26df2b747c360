import PassTuner.Disk.Access
import PassTuner.Shell.Arithmetic

/-!
# Conditions

The expressions of `test`: a row of words is read as comparisons of texts, of integers and questions
about files, joined by negation, `-a` and `-o`. What is left over behind an expression is an error
that names the last word of it.
-/

namespace PassTuner.Shell

/-- The path that a row of bytes spells. -/
def pathOf (bytes : Bytes) : String := (String.fromUTF8? (toByteArray bytes)).getD "\x00"

namespace Condition

/-- An answer, the last word that was used, and the words behind it. -/
abbrev Answer := Except String (Bool × Bytes × List Bytes)

def integer (word : Bytes) : Except String Int :=
  let digits (text : Bytes) : Option Int :=
    if text ≠ [] ∧ text.all Char.isDigit then (String.ofList text).toInt? else none
  let trimmed := (word.dropWhile (· == ' ')).reverse.dropWhile (· == ' ') |>.reverse
  let value := match trimmed with
    | '-' :: rest => (digits rest).map (- ·)
    | '+' :: rest => digits rest
    | text => digits text
  match value with
  | some n => .ok n
  | none => .error s!"Illegal number: {String.ofList word}"

def compareIntegers (holds : Int → Int → Bool) (a b : Bytes) : Except String Bool := do
  return holds (← integer a) (← integer b)

def binary? (op : Bytes) : Option (Bytes → Bytes → Except String Bool) :=
  match String.ofList op with
  | "=" => some fun a b => .ok (a == b)
  | "==" => some fun a b => .ok (a == b)
  | "!=" => some fun a b => .ok (a != b)
  | "-eq" => some (compareIntegers (· == ·))
  | "-ne" => some (compareIntegers (· != ·))
  | "-lt" => some (compareIntegers fun a b => decide (a < b))
  | "-le" => some (compareIntegers fun a b => decide (a ≤ b))
  | "-gt" => some (compareIntegers fun a b => decide (a > b))
  | "-ge" => some (compareIntegers fun a b => decide (a ≥ b))
  | _ => none

def fileSize (disk : Disk) (path : Bytes) : Nat :=
  match disk.read (pathOf path) with
  | .ok content => content.size
  | .error _ => 0

def isPresent (disk : Disk) (path : Bytes) : Bool :=
  disk.isFile (pathOf path) || disk.isDirectory (pathOf path)

def unary? (disk : Disk) (op : Bytes) : Option (Bytes → Bool) :=
  match String.ofList op with
  | "-z" => some fun a => a.isEmpty
  | "-n" => some fun a => !a.isEmpty
  | "-e" => some (isPresent disk)
  | "-r" => some (isPresent disk)
  | "-w" => some (isPresent disk)
  | "-f" => some fun a => disk.isFile (pathOf a)
  | "-d" => some fun a => disk.isDirectory (pathOf a)
  | "-x" => some fun a => disk.isDirectory (pathOf a)
  | "-s" => some fun a => decide (0 < fileSize disk a) || disk.isDirectory (pathOf a)
  | _ => none

mutual

/-- Expressions joined by `-o`. -/
def disjunction (disk : Disk) : Nat → List Bytes → Answer
  | 0, _ => .error "too deep"
  | fuel + 1, words => do
    let (a, last, rest) ← conjunction disk fuel words
    match rest with
    | ['-', 'o'] :: rest =>
      let (b, last, rest) ← disjunction disk fuel rest
      return (a || b, last, rest)
    | rest => return (a, last, rest)

/-- Expressions joined by `-a`. -/
def conjunction (disk : Disk) : Nat → List Bytes → Answer
  | 0, _ => .error "too deep"
  | fuel + 1, words => do
    let (a, last, rest) ← primary disk fuel words
    match rest with
    | ['-', 'a'] :: rest =>
      let (b, last, rest) ← conjunction disk fuel rest
      return (a && b, last, rest)
    | rest => return (a, last, rest)

def primary (disk : Disk) : Nat → List Bytes → Answer
  | 0, _ => .error "too deep"
  | fuel + 1, words => do
    match words with
    | [] => return (false, [], [])
    | [a] => return (!a.isEmpty, a, [])
    | a :: b :: rest =>
      match binary? b, rest with
      | some holds, c :: rest => return (← holds a c, c, rest)
      | _, _ =>
        if a = ['!'] then
          let (value, last, rest) ← primary disk fuel (b :: rest)
          return (!value, last, rest)
        else if a = ['('] then
          let (value, last, rest) ← disjunction disk fuel (b :: rest)
          match rest with
          | [')'] :: rest => return (value, [')'], rest)
          | _ => throw s!"{String.ofList last}: closing paren expected"
        else match unary? disk a with
          | some holds => return (holds b, b, rest)
          | none => return (!a.isEmpty, a, b :: rest)

end

/-- The truth of a row of words. -/
def holds (disk : Disk) (words : List Bytes) : Except String Bool := do
  let (value, last, rest) ← disjunction disk (4 * words.length + 4) words
  if rest.isEmpty then return value else throw s!"{String.ofList last}: unexpected operator"

end Condition

end PassTuner.Shell
