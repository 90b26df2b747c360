import PassTuner.Json.Value

/-!
# Writing JSON

The compact form has no blanks; the indented one puts every item and member on a line of its own,
two spaces deeper than its container, and writes an empty container without a break.
-/

namespace PassTuner.Json

def quote (quoted : List Char) : List Char := '"' :: quoted ++ ['"']

def scalar : Json → List Char
  | .boolean true => ['t', 'r', 'u', 'e']
  | .boolean false => ['f', 'a', 'l', 's', 'e']
  | .number literal => literal
  | .string quoted => quote quoted
  | _ => ['n', 'u', 'l', 'l']

/-- The parts joined by a separator. -/
def joined (separator : List Char) (parts : List (List Char)) : List Char :=
  (parts.intersperse separator).flatten

mutual

def compactChars : Json → List Char
  | .array items => '[' :: joined [','] (compactItems items) ++ [']']
  | .object members => '{' :: joined [','] (compactMembers members) ++ ['}']
  | other => scalar other

def compactItems : List Json → List (List Char)
  | [] => []
  | item :: rest => compactChars item :: compactItems rest

def compactMembers : List (List Char × Json) → List (List Char)
  | [] => []
  | (name, item) :: rest => (quote name ++ ':' :: compactChars item) :: compactMembers rest

end

def newline (depth : Nat) : List Char := '\n' :: List.replicate (2 * depth) ' '

/-- A container's parts, each on a line of its own. -/
def block (opening closing : Char) (depth : Nat) (parts : List (List Char)) : List Char :=
  if parts.isEmpty then [opening, closing]
  else opening :: newline (depth + 1) ++ joined (',' :: newline (depth + 1)) parts ++
    newline depth ++ [closing]

mutual

def indentedChars (depth : Nat) : Json → List Char
  | .array items => block '[' ']' depth (indentedItems (depth + 1) items)
  | .object members => block '\x7b' '\x7d' depth (indentedMembers (depth + 1) members)
  | other => scalar other

def indentedItems (depth : Nat) : List Json → List (List Char)
  | [] => []
  | item :: rest => indentedChars depth item :: indentedItems depth rest

def indentedMembers (depth : Nat) : List (List Char × Json) → List (List Char)
  | [] => []
  | (name, item) :: rest =>
    (quote name ++ ':' :: ' ' :: indentedChars depth item) :: indentedMembers depth rest

end

def compact (j : Json) : String := String.ofList j.compactChars

def indented (j : Json) : String := String.ofList (j.indentedChars 0)

end PassTuner.Json
