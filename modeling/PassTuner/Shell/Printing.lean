import PassTuner.Shell.Arithmetic

/-!
# Printing

What `echo` and `printf` print. Both read escapes: `echo` in its words, `printf` in its format,
which is used again as long as there are words left for it.
-/

namespace PassTuner.Shell.Printing

/-- A byte written behind a backslash: by its letter, or in up to three octal digits. -/
def letter? : Char → Option Char
  | 'a' => some '\x07'
  | 'b' => some '\x08'
  | 'e' => some '\x1b'
  | 'f' => some '\x0c'
  | 'n' => some '\n'
  | 'r' => some '\r'
  | 't' => some '\t'
  | 'v' => some '\x0b'
  | '\\' => some '\\'
  | _ => none

def isOctal (c : Char) : Bool := decide ('0' ≤ c) && decide (c ≤ '7')

def octalByte (digits : Bytes) : Char :=
  Char.ofNat (digits.foldl (fun n c => 8 * n + (c.toNat - '0'.toNat)) 0 % 256)

/-- Text with its escapes worked out, and whether `\c` ended it. With `zeroFirst` an octal byte
starts with a zero that is not one of its three digits. -/
def unescape (zeroFirst : Bool) : List Char → Bytes × Bool
  | [] => ([], false)
  | '\\' :: c :: rest =>
    let digits := (c :: rest).takeWhile isOctal
    if c = 'c' then ([], true)
    else if zeroFirst && c = '0' then
      let digits := (rest.takeWhile isOctal).take 3
      let (text, ended) := unescape zeroFirst (rest.drop digits.length)
      (octalByte digits :: text, ended)
    else if digits ≠ [] then
      let (text, ended) := unescape zeroFirst ((c :: rest).drop (min 3 (max 1 digits.length)))
      (octalByte (digits.take 3) :: text, ended)
    else
      let (text, ended) := unescape zeroFirst rest
      match letter? c with
      | some byte => (byte :: text, ended)
      | none => ('\\' :: c :: text, ended)
  | c :: rest =>
    let (text, ended) := unescape zeroFirst rest
    (c :: text, ended)
termination_by text => text.length
decreasing_by all_goals simp_wf <;> omega

def echo (words : List Bytes) : Bytes :=
  let (newline, words) := match words with
    | ['-', 'n'] :: rest => (false, rest)
    | words => (true, words)
  let (text, ended) := unescape true (List.intercalate [' '] words)
  if newline && !ended then text ++ ['\n'] else text

/-- A piece of a format. -/
inductive Directive where
  | text (bytes : Bytes)
  | conversion (leftAligned zeroPadded : Bool) (width : Nat) (precision : Option Nat) (kind : Char)
  deriving Repr

def natural (digits : List Char) : Nat := digits.foldl (fun n c => 10 * n + (c.toNat - '0'.toNat)) 0

/-- A conversion behind its percent sign, and what follows it. -/
def conversion? (text : List Char) : Option (Directive × List Char) :=
  let isFlag (c : Char) := c == '-' || c == '0' || c == '+' || c == ' ' || c == '#'
  let flags := text.takeWhile isFlag
  let rest := text.dropWhile isFlag
  let width := natural (rest.takeWhile Char.isDigit)
  let (precision, rest) := match rest.dropWhile Char.isDigit with
    | '.' :: rest => (some (natural (rest.takeWhile Char.isDigit)), rest.dropWhile Char.isDigit)
    | rest => (none, rest)
  match rest with
  | kind :: rest =>
    some (.conversion (flags.contains '-') (flags.contains '0') width precision kind, rest)
  | [] => none

/-- The pieces of a format, at most as many as the fuel; none if it is malformed. -/
def directives : Nat → List Char → Option (List Directive)
  | _, [] => some []
  | 0, _ :: _ => none
  | fuel + 1, '%' :: '%' :: rest => (directives fuel rest).map (.text ['%'] :: ·)
  | fuel + 1, '%' :: rest => do
    let (piece, rest) ← conversion? rest
    return piece :: (← directives fuel rest)
  | fuel + 1, c :: rest => (directives fuel rest).map (.text [c] :: ·)

def pad (leftAligned zeroPadded : Bool) (width : Nat) (text : Bytes) : Bytes :=
  if leftAligned then text ++ List.replicate (width - text.length) ' '
  else match zeroPadded, text with
    | true, '-' :: digits => '-' :: List.replicate (width - text.length) '0' ++ digits
    | true, digits => List.replicate (width - text.length) '0' ++ digits
    | false, text => List.replicate (width - text.length) ' ' ++ text

/-- What a format prints so far, with what was wrong. -/
structure Printed where
  text : Bytes := []
  ended : Bool := false
  errors : List String := []

def number (word : Bytes) : Int × Option String :=
  match word with
  | '\'' :: c :: _ => (c.toNat, none)
  | '"' :: c :: _ => (c.toNat, none)
  | word =>
    match Arithmetic.valueOf word with
    | .ok n => if word = [] then (0, none) else (n, none)
    | .error _ => (0, some s!"{String.ofList word}: expected numeric value")

/-- One conversion of a word. -/
def convert (leftAligned zeroPadded : Bool) (width : Nat) (precision : Option Nat) (kind : Char)
    (word : Bytes) : Printed :=
  let numeral (print : Int → Bytes) : Printed :=
    let (n, error) := number word
    let digits := print n
    let digits := pad false true (precision.getD 0) digits
    { text := pad leftAligned zeroPadded width digits, errors := error.toList }
  let unsigned (n : Int) : Nat := (Int64.ofInt n).toUInt64.toNat
  match kind with
  | 's' => { text := pad leftAligned false width (word.take (precision.getD word.length)) }
  | 'c' => { text := pad leftAligned false width (word.take 1) }
  | 'b' =>
    let (text, ended) := unescape true word
    { text := pad leftAligned false width text, ended }
  | 'd' => numeral fun n => (toString n).toList
  | 'i' => numeral fun n => (toString n).toList
  | 'u' => numeral fun n => (toString (unsigned n)).toList
  | 'x' => numeral fun n => Nat.toDigits 16 (unsigned n)
  | 'X' => numeral fun n => (Nat.toDigits 16 (unsigned n)).map Char.toUpper
  | 'o' => numeral fun n => Nat.toDigits 8 (unsigned n)
  | kind => { ended := true, errors := [s!"%{String.singleton kind}: invalid directive"] }

/-- One pass through a format, and the words left over. -/
def once : List Directive → List Bytes → Printed → Printed × List Bytes
  | [], words, printed => (printed, words)
  | .text bytes :: more, words, printed =>
    once more words { printed with text := printed.text ++ bytes }
  | .conversion left zero width precision kind :: more, words, printed =>
    let piece := convert left zero width precision kind (words.headD [])
    let printed := ⟨printed.text ++ piece.text, piece.ended, printed.errors ++ piece.errors⟩
    if piece.ended then (printed, []) else once more words.tail printed

/-- Passes through a format until no words are left. -/
def repeatedly (format : List Directive) : Nat → List Bytes → Printed → Printed
  | 0, _, printed => printed
  | fuel + 1, words, printed =>
    let (printed, rest) := once format words printed
    if rest.isEmpty || rest.length = words.length then printed
    else repeatedly format fuel rest printed

/-- What `printf` prints for its words, the format first. -/
def formatted (words : List Bytes) : Printed :=
  match words with
  | [] => { errors := ["usage: printf format [arg ...]"] }
  | format :: words =>
    let (text, ended) := unescape false format
    match directives text.length text with
    | some format =>
      let printed := repeatedly format (words.length + 1) words {}
      { printed with ended := printed.ended || ended }
    | none => { errors := ["missing format character"] }

end PassTuner.Shell.Printing
