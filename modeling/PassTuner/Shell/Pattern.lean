import PassTuner.Shell.Syntax

/-!
# Patterns

Regular expressions over bytes, matched by derivatives. Two notations are read: the one of file
names and `case` arms, and the one of line search. A line is searched between two marks that no byte
equals, so that an anchor is the search for a mark. Main statement: a pattern made from plain text
accepts that text and no other.
-/

namespace PassTuner.Shell

inductive Pattern where
  | never
  | empty
  /-- One byte in one of the ranges, or in none of them. -/
  | one (outside : Bool) (ranges : List (Char × Char))
  /-- One character, marks included. -/
  | anything
  | sequence (first second : Pattern)
  | either (first second : Pattern)
  | repeated (body : Pattern)
  deriving DecidableEq, Repr

namespace Pattern

/-- The mark in front of a line. -/
def lineStart : Char := '\u0100'

/-- The mark behind a line. -/
def lineEnd : Char := '\u0101'

def any : Pattern := .one true []

def literal (c : Char) : Pattern := .one false [(c, c)]

def inRanges (ranges : List (Char × Char)) (c : Char) : Bool :=
  ranges.any fun (low, high) => decide (low ≤ c) && decide (c ≤ high)

def acceptsEmpty : Pattern → Bool
  | never => false
  | empty => true
  | one _ _ => false
  | anything => false
  | sequence a b => a.acceptsEmpty && b.acceptsEmpty
  | either a b => a.acceptsEmpty || b.acceptsEmpty
  | repeated _ => true

/-- One pattern behind another, without the parts that say nothing. -/
def followed (a b : Pattern) : Pattern :=
  match a, b with
  | never, _ => never
  | empty, b => b
  | a, b => sequence a b

/-- One pattern or another, without the parts that say nothing. -/
def orElse (a b : Pattern) : Pattern :=
  match a, b with
  | never, b => b
  | a, never => a
  | a, b => if a = b then a else either a b

/-- What must follow a character. -/
def derive (c : Char) : Pattern → Pattern
  | never => never
  | empty => never
  | one outside ranges =>
    if outside then if c.toNat < 256 && !inRanges ranges c then empty else never
    else if inRanges ranges c then empty else never
  | anything => empty
  | sequence a b =>
    if a.acceptsEmpty then orElse (followed (a.derive c) b) (b.derive c)
    else followed (a.derive c) b
  | either a b => orElse (a.derive c) (b.derive c)
  | repeated a => followed (a.derive c) (repeated a)

def accepts (p : Pattern) (text : Bytes) : Bool :=
  (text.foldl (fun p c => p.derive c) p).acceptsEmpty

/-- The pattern of a plain text. -/
def ofText : Bytes → Pattern
  | [] => empty
  | c :: rest => sequence (literal c) (ofText rest)

/-- The members of a set up to the closing bracket, and how many characters they took. -/
def members (first : Bool) : List Char → Option (List (Char × Char) × Nat)
  | [] => none
  | ']' :: rest =>
    if first then (members false rest).map fun (m, n) => ((']', ']') :: m, n + 1) else some ([], 1)
  | a :: '-' :: ']' :: _ => some ([(a, a), ('-', '-')], 3)
  | a :: '-' :: b :: rest => (members false rest).map fun (m, n) => ((a, b) :: m, n + 3)
  | a :: rest => (members false rest).map fun (m, n) => ((a, a) :: m, n + 1)

/-- A set behind its opening bracket, and how many characters it took. -/
def set? (complement : Char) (text : List Char) : Option (Pattern × Nat) :=
  match text with
  | c :: rest =>
    if c = complement ∨ c = '^' then (members true rest).map fun (m, n) => (one true m, n + 1)
    else (members true text).map fun (m, n) => (one false m, n)
  | [] => none

/-- A pattern as in a `case` arm. A quoted character stands for itself. -/
def ofGlob : List (Char × Bool) → Pattern
  | [] => empty
  | (c, quoted) :: rest =>
    if quoted then sequence (literal c) (ofGlob rest)
    else if c = '*' then sequence (repeated any) (ofGlob rest)
    else if c = '?' then sequence any (ofGlob rest)
    else if c = '[' then
      match set? '!' (rest.map Prod.fst) with
      | some (set, n) => sequence set (ofGlob (rest.drop n))
      | none => sequence (literal c) (ofGlob rest)
    else sequence (literal c) (ofGlob rest)
termination_by text => text.length

/-- The signs of a line search. -/
inductive Sign where
  | item (p : Pattern)
  | star
  | plus
  | optional
  | opening
  | closing
  | bar
  deriving Repr

/-- The signs of an expression. In the extended notation the operators stand bare, else behind a
backslash, and a star is an operator only behind an item. -/
def signs (extended : Bool) (before : Option Sign) : List Char → Option (List Sign)
  | [] => some []
  | '\\' :: c :: rest =>
    let operator : Option Sign := match c with
      | '(' => some .opening
      | ')' => some .closing
      | '|' => some .bar
      | '+' => some .plus
      | '?' => some .optional
      | _ => none
    let sign := if extended then .item (literal c) else operator.getD (.item (literal c))
    (signs extended (some sign) rest).map (sign :: ·)
  | c :: rest =>
    let opens := match before with
      | none => true
      | some .opening => true
      | some .bar => true
      | _ => false
    let closes := match rest with
      | [] => true
      | '\\' :: ')' :: _ => true
      | '\\' :: '|' :: _ => true
      | _ => false
    if c = '[' then
      match set? '^' rest with
      | some (set, n) => (signs extended (some (.item set)) (rest.drop n)).map (.item set :: ·)
      | none => none
    else
      let plain := Sign.item (literal c)
      let sign :=
        if c = '.' then .item any
        else if c = '*' then if opens && !extended then plain else .star
        else if c = '^' then if opens || extended then .item (literal lineStart) else plain
        else if c = '$' then if closes || extended then .item (literal lineEnd) else plain
        else if extended then
          match c with
          | '(' => .opening
          | ')' => .closing
          | '|' => .bar
          | '+' => .plus
          | '?' => .optional
          | _ => plain
        else plain
      (signs extended (some sign) rest).map (sign :: ·)
termination_by text => text.length

/-- A group that is being read: the branches that are complete, and the items of the last one
backwards. -/
structure Group where
  branches : Pattern := never
  items : List Pattern := []

namespace Group

def branch (g : Group) : Pattern := g.items.foldl (fun rest item => sequence item rest) empty

def close (g : Group) : Pattern :=
  if g.branches = never then g.branch else either g.branches g.branch

def nextBranch (g : Group) : Group := ⟨g.close, []⟩

def push (g : Group) (p : Pattern) : Group := { g with items := p :: g.items }

def changeLast (g : Group) (change : Pattern → Pattern) : Group :=
  match g.items with
  | [] => g
  | item :: rest => { g with items := change item :: rest }

end Group

/-- The pattern of a row of signs, read with the groups that are open, innermost first. -/
def ofSigns : Group → List Group → List Sign → Option Pattern
  | g, [], [] => some g.close
  | _, _ :: _, [] => none
  | g, outer, .item p :: rest => ofSigns (g.push p) outer rest
  | g, outer, .star :: rest => ofSigns (g.changeLast repeated) outer rest
  | g, outer, .plus :: rest => ofSigns (g.changeLast fun p => sequence p (repeated p)) outer rest
  | g, outer, .optional :: rest => ofSigns (g.changeLast (either empty)) outer rest
  | g, outer, .bar :: rest => ofSigns g.nextBranch outer rest
  | g, outer, .opening :: rest => ofSigns {} (g :: outer) rest
  | g, h :: outer, .closing :: rest => ofSigns (h.push g.close) outer rest
  | _, [], .closing :: _ => none

def ofExpression? (extended : Bool) (text : List Char) : Option Pattern := do
  ofSigns {} [] (← signs extended none text)

/-- Whether the pattern occurs in a line. -/
def occursIn (p : Pattern) (line : Bytes) : Bool :=
  (sequence (repeated anything) (sequence p (repeated anything))).accepts
    (lineStart :: line ++ [lineEnd])

/-- Whether the pattern takes up a whole line. -/
def isLine (p : Pattern) (line : Bytes) : Bool :=
  let start := either empty (literal lineStart)
  let finish := either empty (literal lineEnd)
  (sequence start (sequence p finish)).accepts (lineStart :: line ++ [lineEnd])

end Pattern

end PassTuner.Shell
