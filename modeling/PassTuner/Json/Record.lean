import PassTuner.Json.Value

/-!
# Values with named fields

A value with named fields may be written as an object, or as an array of its fields in order. In an
object, names that are not fields are passed over and a field may stand only once; an array may not
be longer than the fields. What is missing is settled field by field.
-/

namespace PassTuner.Json

/-- The fields that were there. -/
structure Record where
  fields : List (String × Json)
  /-- Whether they came in an object, each under its name. -/
  named : Bool

/-- The members of an object that are fields, unless one stands twice or a name is not a text. -/
def fieldsOf (names : List String) : List (List Char × Json) → Option (List (String × Json))
  | [] => some []
  | (quoted, value) :: rest => do
    let name := String.ofList (← unescape? quoted)
    let others ← fieldsOf names rest
    if name ∉ names then return others
    else if (others.lookup name).isSome then none
    else return (name, value) :: others

def record? (names : List String) : Json → Option Record
  | .object members => (fieldsOf names members).map (⟨·, true⟩)
  | .array items => if items.length ≤ names.length then some ⟨names.zip items, false⟩ else none
  | _ => none

namespace Record

/-- A field that must be there. -/
def required (r : Record) (name : String) (read : Json → Option α) : Option α :=
  (r.fields.lookup name).bind read

/-- A field that may be missing. -/
def withDefault (r : Record) (name : String) (default : α) (read : Json → Option α) : Option α :=
  match r.fields.lookup name with
  | none => some default
  | some value => read value

/-- A field that may be `null`, and may be missing if the others are named. -/
def nullable (r : Record) (name : String) (read : Json → Option α) : Option (Option α) :=
  match r.fields.lookup name with
  | none => if r.named then some none else none
  | some value => value.option? read

end Record

/-- The member of an object with a name; the last one, if it stands more than once. -/
def member? (name : String) : Json → Option Json
  | .object members =>
    (members.reverse.find? fun (quoted, _) => unescape? quoted == some name.toList).map (·.2)
  | _ => none

end PassTuner.Json
