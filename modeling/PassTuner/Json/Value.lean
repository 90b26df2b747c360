import PassTuner.Number.Notation
import PassTuner.Number.Scaling

/-!
# JSON as syntax

A JSON text is kept as it was written: numbers by their literals and strings by the characters
between their quotes, escapes included. So a text is accepted or refused by its syntax alone, and
what a literal means is settled where a value of a type is asked for. Main statement: a string that
`escape` has written is read back by `unescape?`.
-/

namespace PassTuner

/-- A JSON value as it is written. -/
inductive Json where
  | null
  | boolean (value : Bool)
  /-- The literal, sign included. -/
  | number (literal : List Char)
  /-- The characters between the quotes. -/
  | string (quoted : List Char)
  | array (items : List Json)
  | object (members : List (List Char × Json))
  deriving Repr, Inhabited

namespace Json

/-! ## Strings -/

def hexDigit (n : Nat) : Char := if n < 10 then Char.ofNat (48 + n) else Char.ofNat (87 + n)

def hexValue? (c : Char) : Option Nat :=
  if c.isDigit then some (c.toNat - 48)
  else if 'a' ≤ c ∧ c ≤ 'f' then some (c.toNat - 87)
  else if 'A' ≤ c ∧ c ≤ 'F' then some (c.toNat - 55)
  else none

/-- How one character is written inside quotes: quote, backslash and the control characters are
escaped, everything else stands for itself. -/
def escapeChar (c : Char) : List Char :=
  if c = '"' then ['\\', '"']
  else if c = '\\' then ['\\', '\\']
  else if c = '\x08' then ['\\', 'b']
  else if c = '\x0c' then ['\\', 'f']
  else if c = '\n' then ['\\', 'n']
  else if c = '\r' then ['\\', 'r']
  else if c = '\t' then ['\\', 't']
  else if c.toNat < 0x20 then
    ['\\', 'u', '0', '0', hexDigit (c.toNat / 16), hexDigit (c.toNat % 16)]
  else [c]

def escape (text : List Char) : List Char := text.flatMap escapeChar

/-- The code unit that four hexadecimal digits stand for. -/
def codeUnit? (a b c d : Char) : Option Nat := do
  return (((← hexValue? a) * 16 + (← hexValue? b)) * 16 + (← hexValue? c)) * 16 + (← hexValue? d)

/-- The character of an escape with one letter. -/
def shortEscape? (c : Char) : Option Char :=
  if c = '"' ∨ c = '\\' ∨ c = '/' then some c
  else if c = 'b' then some '\x08'
  else if c = 'f' then some '\x0c'
  else if c = 'n' then some '\n'
  else if c = 'r' then some '\r'
  else if c = 't' then some '\t'
  else none

/-- The text that the characters between two quotes stand for. There is none when a code unit of a
surrogate pair stands alone. -/
def unescape? : List Char → Option (List Char)
  | [] => some []
  | '\\' :: 'u' :: a :: b :: c :: d :: rest => do
    let unit ← codeUnit? a b c d
    if 0xD800 ≤ unit && unit < 0xDC00 then
      match rest with
      | '\\' :: 'u' :: a :: b :: c :: d :: rest =>
        let low ← codeUnit? a b c d
        if 0xDC00 ≤ low && low < 0xE000 then
          let code := 0x10000 + (unit - 0xD800) * 0x400 + (low - 0xDC00)
          return Char.ofNat code :: (← unescape? rest)
        else none
      | _ => none
    else if 0xDC00 ≤ unit && unit < 0xE000 then none
    else return Char.ofNat unit :: (← unescape? rest)
  | '\\' :: c :: rest => do return (← shortEscape? c) :: (← unescape? rest)
  | c :: rest => do return c :: (← unescape? rest)

theorem codeUnit?_control {n : Nat} (h : n < 0x20) :
    codeUnit? '0' '0' (hexDigit (n / 16)) (hexDigit (n % 16)) = some n :=
  (by decide : ∀ n < 0x20, codeUnit? '0' '0' (hexDigit (n / 16)) (hexDigit (n % 16)) = some n) n h

theorem unescape?_plain {c : Char} (h : c ≠ '\\') (rest : List Char) :
    unescape? (c :: rest) = (unescape? rest).map (c :: ·) := by
  rw [unescape?]
  · cases unescape? rest <;> rfl
  · simp_all
  · simp_all

theorem unescape?_control {c : Char} (h : c.toNat < 0x20) (rest : List Char) :
    unescape? ('\\' :: 'u' :: '0' :: '0' :: hexDigit (c.toNat / 16) :: hexDigit (c.toNat % 16) ::
      rest) = (unescape? rest).map (c :: ·) := by
  have low : ¬0xD800 ≤ c.toNat := by omega
  have high : ¬0xDC00 ≤ c.toNat := by omega
  rw [unescape?, codeUnit?_control h]
  cases unescape? rest <;> simp [low, high]

theorem unescape?_escapeChar (c : Char) (rest : List Char) :
    unescape? (escapeChar c ++ rest) = (unescape? rest).map (c :: ·) := by
  by_cases backslash : c = '\\'
  · subst backslash
    cases h : unescape? rest <;> simp [escapeChar, unescape?, shortEscape?, h]
  unfold escapeChar
  iterate 6
    split
    · subst c
      cases h : unescape? rest <;> simp [unescape?, shortEscape?, h]
  split
  · rename_i h
    exact unescape?_control h rest
  · exact unescape?_plain backslash rest

theorem unescape?_escape (text : List Char) : unescape? (escape text) = some text := by
  induction text with
  | nil => rfl
  | cons c rest ih => simp_all [escape, unescape?_escapeChar]

/-! ## Building values -/

def ofText (text : String) : Json := .string (escape text.toList)

def ofNat (n : Nat) : Json := .number (Notation.digitsOf n)

def ofInt (n : Int) : Json :=
  .number (if n < 0 then '-' :: Notation.digitsOf n.natAbs else Notation.digitsOf n.natAbs)

/-- A number that JSON cannot write is written as `null`. -/
def ofFloat (x : Float) : Json :=
  match doubleLiteral? x with
  | some literal => .number literal.toList
  | none => .null

def ofFloat32 (x : Float32) : Json :=
  match singleLiteral? x with
  | some literal => .number literal.toList
  | none => .null

def ofOption (write : α → Json) : Option α → Json
  | none => .null
  | some a => write a

/-- An object with the given names, in that order. -/
def ofFields (members : List (String × Json)) : Json :=
  .object (members.map fun (name, value) => (escape name.toList, value))

/-! ## Reading values -/

def text? : Json → Option String
  | .string quoted => (unescape? quoted).map String.ofList
  | _ => none

def bool? : Json → Option Bool
  | .boolean b => some b
  | _ => none

def numeral? : Json → Option Numeral
  | .number literal => (Numeral.strict? literal).map (·.1)
  | _ => none

/-- An integer within bounds, written without point and exponent. -/
def int? (low high : Int) (j : Json) : Option Int := do
  let n ← (← j.numeral?).int?
  if low ≤ n ∧ n ≤ high then some n else none

def nat? (bits : Nat) (j : Json) : Option Nat := (j.int? 0 (Nat.pow 2 bits - 1 : Nat)).map Int.toNat

/-- A number of a size that a double can hold. -/
def float? (j : Json) : Option Float := do
  let n ← j.numeral?
  let x ← n.scaled?
  return Float.ofBits (.ofNat (x.bits .double n.negative))

/-- Such a number rounded once more, which may leave the range. -/
def float32? (j : Json) : Option Float32 := do
  let n ← j.numeral?
  let x ← n.scaled?
  return Float32.ofBits (.ofNat (x.bits .single n.negative))

def list? (read : Json → Option α) : Json → Option (List α)
  | .array items => items.mapM read
  | _ => none

/-- A value that may be `null`. -/
def option? (read : Json → Option α) : Json → Option (Option α)
  | .null => some none
  | j => (read j).map some

end Json

end PassTuner
