/-!
# Commands of a shell

The syntax of the command language in which tools are written when no program is at hand: simple
commands with assignments and redirections, lists, pipelines and the compound commands, and words
with quotes and the three expansions. Text is handled byte by byte; a byte is the character with its
code.
-/

namespace PassTuner.Shell

/-- A row of bytes, each as the character with its code. -/
abbrev Bytes := List Char

def bytesOf (text : String) : Bytes := text.toUTF8.toList.map fun b => Char.ofNat b.toNat

def toByteArray (bytes : Bytes) : ByteArray := ⟨(bytes.map fun c => UInt8.ofNat c.toNat).toArray⟩

def ofByteArray (content : ByteArray) : Bytes := content.toList.map fun b => Char.ofNat b.toNat

inductive RedirectKind where
  | input
  | output
  | append
  | duplicate
  deriving DecidableEq, Repr

mutual

/-- A part of a word. -/
inductive Piece where
  | bare (text : Bytes)
  | quoted (text : Bytes)
  | parameter (inQuotes : Bool) (name : Bytes) (use : ParameterUse)
  | substitution (inQuotes : Bool) (body : Command)
  | arithmetic (inQuotes : Bool) (expression : List Piece)

/-- What is made of a parameter's value. With `emptyToo`, an empty value counts as unset. -/
inductive ParameterUse where
  | value
  | length
  | orElse (emptyToo : Bool) (word : List Piece)
  | orAssign (emptyToo : Bool) (word : List Piece)
  | ifSet (emptyToo : Bool) (word : List Piece)
  | dropEnd (longest : Bool) (pattern : List Piece)
  | dropStart (longest : Bool) (pattern : List Piece)

inductive Redirect where
  | mk (descriptor : Nat) (kind : RedirectKind) (target : List Piece)

inductive Command where
  | simple (line : Nat) (assignments : List (Bytes × List Piece)) (words : List (List Piece))
      (redirects : List Redirect)
  | sequence (commands : List Command)
  | both (first second : Command)
  | either (first second : Command)
  | negation (command : Command)
  | pipeline (commands : List Command)
  | subshell (body : Command)
  | conditional (test thenBody elseBody : Command)
  | loop (whileTrue : Bool) (test body : Command)
  | iteration (name : Bytes) (words : Option (List (List Piece))) (body : Command)
  | selection (subject : List Piece) (arms : List (List (List Piece) × Command))
  | redirected (line : Nat) (body : Command) (redirects : List Redirect)

end

abbrev Word := List Piece

def Command.nothing : Command := .sequence []

end PassTuner.Shell
