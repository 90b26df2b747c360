/-!
# Options

An option has a long name and may have a letter. It is a switch, or it takes a value, which stands
in the same word behind an equals sign or the letter, or else is the next word unless that looks
like an option. Behind two dashes every word is an operand. Words are read from the left, and the
first that is wrong or asks for help decides. Main statement: an option that was taken has not been
given before.
-/

namespace PassTuner.CommandLine

structure OptionRule where
  name : String
  letter : Option Char := none
  /-- What its values must satisfy; a switch has none. -/
  accepts : Option (String → Bool)

/-- What words may be read. -/
structure Grammar where
  rules : List OptionRule
  /-- What the operands must satisfy, in order. If this is not given, the first operand ends the
  reading. -/
  operands : Option (List (String → Bool))

/-- Why words are not an invocation. -/
inductive Refusal where
  | help
  | misuse
  deriving DecidableEq, Repr

/-- What words say: options with their values, in order, and the operands. -/
structure Words where
  values : List (String × String) := []
  operands : List String := []
  deriving DecidableEq, Repr

/-- How a single word looks. -/
inductive Form where
  | operand
  | border
  | long (name : String) (attached : Option String)
  | short (letter : Char) (attached : Option String)
  deriving DecidableEq, Repr

namespace Form

def ofWord (word : String) : Form :=
  match word.toList with
  | ['-', '-'] => border
  | '-' :: '-' :: text =>
    let name := String.ofList (text.takeWhile (· ≠ '='))
    match text.dropWhile (· ≠ '=') with
    | [] => long name none
    | _ :: value => long name (some (String.ofList value))
  | ['-', letter] => short letter none
  | '-' :: letter :: '=' :: value => short letter (some (String.ofList value))
  | '-' :: letter :: value => short letter (some (String.ofList value))
  | _ => operand

/-- Whether a word can be the value of the option in front of it. -/
def isValue (word : String) : Bool := ofWord word == operand

def asksForHelp : Form → Bool
  | long name attached => name == "help" && attached.isNone
  | short letter _ => letter == 'h'
  | _ => false

/-- The rule that a word is about. -/
def rule? (rules : List OptionRule) : Form → Option OptionRule
  | long name _ => rules.find? (·.name == name)
  | short letter _ => rules.find? (·.letter == some letter)
  | _ => none

def attached? : Form → Option String
  | long _ attached => attached
  | short _ attached => attached
  | _ => none

end Form

namespace Words

def get? (w : Words) (name : String) : Option String := w.values.lookup name

def has (w : Words) (name : String) : Bool := (w.get? name).isSome

/-- The words with one more option. -/
def put (w : Words) (rule : OptionRule) (value : String) : Except Refusal Words :=
  if w.has rule.name then .error .misuse
  else if (rule.accepts.getD fun _ => true) value then
    .ok { w with values := w.values ++ [(rule.name, value)] }
  else .error .misuse

/-- The words with one more operand. -/
def push (w : Words) (accepts : List (String → Bool)) (word : String) : Except Refusal Words :=
  match accepts[w.operands.length]? with
  | some accepts =>
    if accepts word then .ok { w with operands := w.operands ++ [word] } else .error .misuse
  | none => .error .misuse

/-- Adds words to those read before. -/
def read (g : Grammar) (w : Words) : List String → Except Refusal Words
  | [] => .ok w
  | word :: rest => do
    let form := Form.ofWord word
    match form, g.operands with
    | .border, some accepts => rest.foldlM (push · accepts) w
    | .border, none => throw .misuse
    | .operand, some accepts => read g (← w.push accepts word) rest
    | .operand, none => return { w with operands := word :: rest }
    | form, _ =>
      if form.asksForHelp then throw .help
      match form.rule? g.rules with
      | none => throw .misuse
      | some rule =>
        match rule.accepts, form.attached?, rest with
        | none, none, rest => read g (← w.put rule "") rest
        | none, some _, _ => throw .misuse
        | some _, some value, rest => read g (← w.put rule value) rest
        | some _, none, [] => throw .misuse
        | some _, none, value :: rest =>
          if Form.isValue value then read g (← w.put rule value) rest else throw .misuse

end Words

end PassTuner.CommandLine
