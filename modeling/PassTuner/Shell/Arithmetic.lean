import PassTuner.Shell.Syntax

/-!
# Arithmetic

Expressions over integers of 64 bits with the operators of C, without assignment. A name stands for
the number that its variable holds, or for zero.
-/

namespace PassTuner.Shell.Arithmetic

inductive Operator where
  | or | and | bitOr | bitXor | bitAnd | equal | unequal | less | atMost | greater | atLeast
  | shiftLeft | shiftRight | plus | minus | times | over | modulo
  deriving DecidableEq, Repr

inductive Expression where
  | literal (n : Int)
  | name (text : Bytes)
  | negated (e : Expression)
  | complement (e : Expression)
  | opposite (e : Expression)
  | binary (op : Operator) (first second : Expression)
  | choice (test yes no : Expression)
  deriving Repr

/-- What keeps an expression from having a value. -/
inductive Fault where
  | divisionByZero
  | notNumber (text : Bytes)
  deriving DecidableEq, Repr

/-- The operators of two operands with their spelling and rank; a longer spelling comes first. -/
def operators : List (String × Operator × Nat) :=
  [("||", .or, 1), ("&&", .and, 2), ("==", .equal, 6), ("!=", .unequal, 6), ("<<", .shiftLeft, 8),
    (">>", .shiftRight, 8), ("<=", .atMost, 7), (">=", .atLeast, 7), ("<", .less, 7),
    (">", .greater, 7), ("|", .bitOr, 3), ("^", .bitXor, 4), ("&", .bitAnd, 5), ("+", .plus, 9),
    ("-", .minus, 9), ("*", .times, 10), ("/", .over, 10), ("%", .modulo, 10)]

def skipBlanks (text : Bytes) : Bytes := text.dropWhile fun c => c == ' ' || c == '\t' || c == '\n'

def operatorFront? (text : Bytes) : Option (Operator × Nat × Bytes) :=
  operators.findSome? fun (spelling, op, rank) =>
    if spelling.toList.isPrefixOf text then some (op, rank, text.drop spelling.length) else none

def digitValue (c : Char) : Nat :=
  if c.isDigit then c.toNat - '0'.toNat else c.toLower.toNat - 'a'.toNat + 10

/-- A number in decimal, octal or hexadecimal digits. -/
def number? (text : Bytes) : Option Int :=
  let value (base : Nat) (digits : Bytes) : Option Int :=
    if digits ≠ [] ∧ digits.all fun c => c.isAlphanum && digitValue c < base then
      some (digits.foldl (fun n c => n * base + digitValue c) 0 : Nat)
    else none
  match text with
  | '0' :: 'x' :: digits => value 16 digits
  | '0' :: 'X' :: digits => value 16 digits
  | '0' :: c :: digits => value 8 (c :: digits)
  | digits => value 10 digits

mutual

/-- An operand and the operators of at least a rank behind it. -/
def ranked : Nat → Nat → Bytes → Option (Expression × Bytes)
  | 0, _, _ => none
  | fuel + 1, rank, text => do
    let (first, rest) ← operand fuel (skipBlanks text)
    joined fuel rank first rest

/-- What is joined to an expression from the left by operators of at least a rank. -/
def joined : Nat → Nat → Expression → Bytes → Option (Expression × Bytes)
  | 0, _, _, _ => none
  | fuel + 1, least, first, text =>
    match operatorFront? (skipBlanks text) with
    | some (op, rank, rest) =>
      if rank < least then some (first, text)
      else do
        let (second, rest) ← ranked fuel (rank + 1) rest
        joined fuel least (.binary op first second) rest
    | none =>
      match skipBlanks text with
      | '?' :: rest =>
        if least > 0 then some (first, text)
        else do
          let (yes, rest) ← ranked fuel 0 rest
          match skipBlanks rest with
          | ':' :: rest =>
            let (no, rest) ← ranked fuel 0 rest
            return (.choice first yes no, rest)
          | _ => none
      | _ => some (first, text)

def operand : Nat → Bytes → Option (Expression × Bytes)
  | 0, _ => none
  | fuel + 1, text =>
    match text with
    | '(' :: rest => do
      let (e, rest) ← ranked fuel 0 rest
      match skipBlanks rest with
      | ')' :: rest => return (e, rest)
      | _ => none
    | '-' :: rest => (operand fuel (skipBlanks rest)).map fun (e, r) => (.opposite e, r)
    | '+' :: rest => operand fuel (skipBlanks rest)
    | '!' :: rest => (operand fuel (skipBlanks rest)).map fun (e, r) => (.negated e, r)
    | '~' :: rest => (operand fuel (skipBlanks rest)).map fun (e, r) => (.complement e, r)
    | text =>
      let front := text.takeWhile fun c => c.isAlphanum || c == '_'
      let rest := text.drop front.length
      match front with
      | [] => none
      | c :: _ =>
        if c.isDigit then (number? front).map fun n => (.literal n, rest)
        else some (.name front, rest)

end

def expression? (text : Bytes) : Option Expression :=
  match ranked (4 * text.length + 8) 0 text with
  | some (e, rest) => if skipBlanks rest = [] then some e else none
  | none => none

/-- The number with the same low 64 bits. -/
def wrap (n : Int) : Int := (Int64.ofInt n).toInt

def truth (b : Bool) : Int := if b then 1 else 0

def operate (op : Operator) (a b : Int) : Except Fault Int :=
  let x := Int64.ofInt a
  let y := Int64.ofInt b
  match op with
  | .or => .ok (truth (a ≠ 0 || b ≠ 0))
  | .and => .ok (truth (a ≠ 0 && b ≠ 0))
  | .bitOr => .ok (x ||| y).toInt
  | .bitXor => .ok (x ^^^ y).toInt
  | .bitAnd => .ok (x &&& y).toInt
  | .equal => .ok (truth (a == b))
  | .unequal => .ok (truth (a != b))
  | .less => .ok (truth (decide (a < b)))
  | .atMost => .ok (truth (decide (a ≤ b)))
  | .greater => .ok (truth (decide (a > b)))
  | .atLeast => .ok (truth (decide (a ≥ b)))
  | .shiftLeft => .ok (x <<< y).toInt
  | .shiftRight => .ok (x >>> y).toInt
  | .plus => .ok (wrap (a + b))
  | .minus => .ok (wrap (a - b))
  | .times => .ok (wrap (a * b))
  | .over => if b = 0 then .error .divisionByZero else .ok (wrap (a.tdiv b))
  | .modulo => if b = 0 then .error .divisionByZero else .ok (wrap (a.tmod b))

/-- The number that a variable's text stands for. -/
def valueOf (text : Bytes) : Except Fault Int :=
  match skipBlanks text with
  | [] => .ok 0
  | '-' :: digits =>
    match number? digits with
    | some n => .ok (wrap (-n))
    | none => .error (.notNumber text)
  | digits =>
    match number? digits with
    | some n => .ok (wrap n)
    | none => .error (.notNumber text)

/-- The value of an expression; a part that does not count is not worked out. -/
def eval (lookup : Bytes → Option Bytes) : Expression → Except Fault Int
  | .literal n => .ok (wrap n)
  | .name text => valueOf ((lookup text).getD [])
  | .negated e => do return truth ((← eval lookup e) == 0)
  | .complement e => do return wrap (-(← eval lookup e) - 1)
  | .opposite e => do return wrap (-(← eval lookup e))
  | .choice test yes no => do
    if (← eval lookup test) ≠ 0 then eval lookup yes else eval lookup no
  | .binary .or a b => do
    if (← eval lookup a) ≠ 0 then return 1
    return truth ((← eval lookup b) != 0)
  | .binary .and a b => do
    if (← eval lookup a) = 0 then return 0
    return truth ((← eval lookup b) != 0)
  | .binary op a b => do operate op (← eval lookup a) (← eval lookup b)

end PassTuner.Shell.Arithmetic
