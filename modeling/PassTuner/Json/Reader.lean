import PassTuner.Json.Value

/-!
# Reading JSON

The strict grammar: blanks are the four of the standard, nothing may follow the value, and a string
holds no bare control character. Nesting may be as deep as the text is long.
-/

namespace PassTuner.Json

/-- Where a text stopped being the JSON that was asked for, counted from one. -/
structure Error where
  line : Nat
  column : Nat
  deriving DecidableEq, Repr

def Error.message (e : Error) : String :=
  s!"unexpected content at line {e.line} column {e.column}"

namespace Reader

/-- What was read and the rest, or the rest at which reading stopped. -/
abbrev Result (α : Type) := Except (List Char) (α × List Char)

def skipBlanks (text : List Char) : List Char :=
  text.dropWhile fun c => c = ' ' ∨ c = '\n' ∨ c = '\t' ∨ c = '\r'

/-- The characters up to the closing quote, escapes checked but kept; `done` is reversed. -/
def quoted (done : List Char) : List Char → Result (List Char)
  | [] => .error []
  | '"' :: rest => .ok (done.reverse, rest)
  | '\\' :: 'u' :: a :: b :: c :: d :: rest =>
    if (codeUnit? a b c d).isSome then quoted (d :: c :: b :: a :: 'u' :: '\\' :: done) rest
    else .error (a :: b :: c :: d :: rest)
  | '\\' :: c :: rest =>
    if (shortEscape? c).isSome then quoted (c :: '\\' :: done) rest else .error (c :: rest)
  | c :: rest => if c.toNat < 0x20 then .error (c :: rest) else quoted (c :: done) rest

/-- A word that must stand at the front. -/
def word (expected : List Char) (value : Json) (text : List Char) : Result Json :=
  if expected.isPrefixOf text then .ok (value, text.drop expected.length) else .error text

/-- Characters of number literals. None of them may follow a literal, so the longest run of them is
the only candidate. -/
def isNumberChar (c : Char) : Bool :=
  c.isDigit || c == '-' || c == '+' || c == '.' || c == 'e' || c == 'E'

mutual

/-- A value at the front of a text without blanks before it. -/
def value : Nat → List Char → Result Json
  | 0, text => .error text
  | fuel + 1, text =>
    match text with
    | [] => .error []
    | '"' :: rest => (quoted [] rest).map fun (s, rest) => (.string s, rest)
    | '[' :: rest =>
      match skipBlanks rest with
      | ']' :: rest => .ok (.array [], rest)
      | rest => items fuel [] rest
    | '{' :: rest =>
      match skipBlanks rest with
      | '}' :: rest => .ok (.object [], rest)
      | rest => members fuel [] rest
    | 't' :: _ => word ['t', 'r', 'u', 'e'] (.boolean true) text
    | 'f' :: _ => word ['f', 'a', 'l', 's', 'e'] (.boolean false) text
    | 'n' :: _ => word ['n', 'u', 'l', 'l'] .null text
    | _ =>
      let (literal, rest) := (text.takeWhile isNumberChar, text.dropWhile isNumberChar)
      match Numeral.strict? literal with
      | some (_, []) => .ok (.number literal, rest)
      | _ => .error text

/-- The items of an array from one of them on; `done` is reversed. -/
def items (fuel : Nat) (done : List Json) (text : List Char) : Result Json :=
  match fuel with
  | 0 => .error text
  | fuel + 1 =>
    match value fuel text with
    | .error rest => .error rest
    | .ok (item, rest) =>
      match skipBlanks rest with
      | ',' :: rest => items fuel (item :: done) (skipBlanks rest)
      | ']' :: rest => .ok (.array (item :: done).reverse, rest)
      | rest => .error rest

/-- The members of an object from one of them on; `done` is reversed. -/
def members (fuel : Nat) (done : List (List Char × Json)) (text : List Char) : Result Json :=
  match fuel with
  | 0 => .error text
  | fuel + 1 =>
    match text with
    | '"' :: rest =>
      match quoted [] rest with
      | .error rest => .error rest
      | .ok (name, rest) =>
        match skipBlanks rest with
        | ':' :: rest =>
          match value fuel (skipBlanks rest) with
          | .error rest => .error rest
          | .ok (item, rest) =>
            match skipBlanks rest with
            | ',' :: rest => members fuel ((name, item) :: done) (skipBlanks rest)
            | '}' :: rest => .ok (.object ((name, item) :: done).reverse, rest)
            | rest => .error rest
        | rest => .error rest
    | rest => .error rest

end

/-- The position behind a stretch of text. -/
def positionAfter (passed : List Char) : Error :=
  passed.foldl (fun e c => if c = '\n' then ⟨e.line + 1, 0⟩ else ⟨e.line, e.column + 1⟩) ⟨1, 0⟩

end Reader

/-- The JSON value a text is. -/
def parse (text : String) : Except Error Json :=
  let chars := text.toList
  let failAt (rest : List Char) := Reader.positionAfter (chars.take (chars.length - rest.length))
  match Reader.value (chars.length + 1) (Reader.skipBlanks chars) with
  | .error rest => .error (failAt rest)
  | .ok (value, rest) =>
    match Reader.skipBlanks rest with
    | [] => .ok value
    | rest => .error (failAt rest)

/-- The value of a type that a JSON text stands for. -/
def parseAs (read : Json → Option α) (text : String) : Except Error α := do
  match read (← parse text) with
  | some a => return a
  | none => throw (Reader.positionAfter text.toList)

end PassTuner.Json
