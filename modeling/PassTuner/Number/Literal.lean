import PassTuner.Number.Binary

/-!
# Reading decimal numbers

Two grammars share one reading of digits, point and exponent. The free grammar has an optional sign,
lets either side of the point be empty (not both) and knows `inf`, `infinity` and `nan` in any case.
The strict one is that of JSON numbers. The value of a numeral is the double nearest to it.
-/

namespace PassTuner

/-- Sign, digits and exponent of a decimal numeral, and how it was spelled. -/
structure Numeral where
  negative : Bool
  whole : List Char
  fraction : List Char
  exponent : Int
  /-- Whether it had neither point nor exponent. -/
  isWhole : Bool
  deriving Repr

namespace Numeral

def digitValue (c : Char) : Nat := c.toNat - 48

/-- The number a row of digits stands for. -/
def ofDigits (digits : List Char) : Nat := digits.foldl (fun n c => 10 * n + digitValue c) 0

/-- Digits at the front, and what follows them. -/
def spanDigits (text : List Char) : List Char × List Char :=
  (text.takeWhile Char.isDigit, text.dropWhile Char.isDigit)

/-- An exponent at the front, which must have digits if its mark is there. The flag says whether it
was there. -/
def spanExponent? : List Char → Option (Int × Bool × List Char)
  | [] => some (0, false, [])
  | c :: rest =>
    if c = 'e' ∨ c = 'E' then
      let (negative, rest) := match rest with
        | '-' :: r => (true, r)
        | '+' :: r => (false, r)
        | r => (false, r)
      match spanDigits rest with
      | ([], _) => none
      | (digits, rest) =>
        let n : Int := ofDigits digits
        some (if negative then -n else n, true, rest)
    else some (0, false, c :: rest)

def value (n : Numeral) : Float :=
  nearestFloat n.negative (ofDigits (n.whole ++ n.fraction)) (n.exponent - n.fraction.length)

/-- The integer a numeral without point and exponent stands for; a negative zero is none. -/
def int? (n : Numeral) : Option Int :=
  if n.isWhole then
    let magnitude := ofDigits n.whole
    if n.negative then if magnitude = 0 then none else some (-magnitude) else some magnitude
  else none

/-- An unsigned numeral of the free grammar. -/
def free? (negative : Bool) (text : List Char) : Option Numeral :=
  let (whole, rest) := spanDigits text
  let (fraction, pointed, rest) := match rest with
    | '.' :: r => ((spanDigits r).1, true, (spanDigits r).2)
    | r => ([], false, r)
  if whole = [] ∧ fraction = [] then none
  else match spanExponent? rest with
    | some (exponent, marked, []) => some ⟨negative, whole, fraction, exponent, !pointed && !marked⟩
    | _ => none

/-- A JSON number at the front of a text: no sign but `-`, no superfluous zero in front, digits on
both sides of a point. -/
def strict? (text : List Char) : Option (Numeral × List Char) :=
  let (negative, text) := match text with
    | '-' :: r => (true, r)
    | r => (false, r)
  match spanDigits text with
  | ([], _) => none
  | (whole, rest) =>
    if whole.head? = some '0' ∧ whole.length ≠ 1 then none
    else
      let fraction? := match rest with
        | '.' :: r =>
          if (spanDigits r).1 = [] then none else some ((spanDigits r).1, true, (spanDigits r).2)
        | r => some ([], false, r)
      match fraction? with
      | none => none
      | some (fraction, pointed, rest) =>
        match spanExponent? rest with
        | none => none
        | some (exponent, marked, rest) =>
          some (⟨negative, whole, fraction, exponent, !pointed && !marked⟩, rest)

end Numeral

def infinity : Float := Float.ofBits 0x7FF0000000000000

def notANumber : Float := Float.ofBits 0x7FF8000000000000

/-- A double in the free grammar. -/
def parseFloat? (text : List Char) : Option Float :=
  let (negative, body) := match text with
    | '-' :: r => (true, r)
    | '+' :: r => (false, r)
    | r => (false, r)
  let word := body.map Char.toLower
  if word = ['i', 'n', 'f'] ∨ word = ['i', 'n', 'f', 'i', 'n', 'i', 't', 'y'] then
    some (if negative then -infinity else infinity)
  else if word = ['n', 'a', 'n'] then some notANumber
  else (Numeral.free? negative body).map Numeral.value

end PassTuner
