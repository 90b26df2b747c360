import PassTuner.Text.Blank

/-!
# Variants of a program

A variant is the sequence of actions that made it out of a base program. Its code has two characters
an action, digits of base 36, so codes need no separators and keep apart on file systems that ignore
case. File names are derived from the code. Main statement: a variant is read back from its code.
-/

namespace PassTuner

/-- Position of a pass in the catalog. -/
abbrev ActionId := UInt16

/-- Actions that a code can tell apart. -/
def maxActions : Nat := 1296

/-- A sequence of encodable actions, oldest first; the empty one is the base program. -/
structure Variant where
  actions : List ActionId
  encodable : ∀ a ∈ actions, a.toNat < maxActions
  deriving DecidableEq, Repr

/-- Why a text is no code. -/
inductive CodeFault where
  | length
  | character
  deriving DecidableEq, Repr

inductive VariantError where
  | outOfRange (id : ActionId) (size : Nat)
  | invalidCode (code : String) (fault : CodeFault)
  | tooManyActions (size : Nat)
  deriving DecidableEq, Repr

def CodeFault.message : CodeFault → String
  | .length => "length is not a multiple of the code width"
  | .character => "character outside [0-9a-z]"

def VariantError.message : VariantError → String
  | .outOfRange id size => s!"action out of range: ActionId({id.toNat}) with catalog size {size}"
  | .invalidCode code fault => s!"invalid variant encoding '{code}': {fault.message}"
  | .tooManyActions size =>
    s!"action space of {size} actions exceeds the encodable maximum of {maxActions}"

namespace Variant

theorem ext {v w : Variant} (h : v.actions = w.actions) : v = w := by
  cases v; cases w; simp_all

def base : Variant := ⟨[], by simp⟩

def isBase (v : Variant) : Bool := v.actions.isEmpty

def length (v : Variant) : Nat := v.actions.length

/-- One more action. -/
def extend (v : Variant) (a : ActionId) (h : a.toNat < maxActions) : Variant :=
  ⟨v.actions ++ [a], by
    intro b hb
    rcases List.mem_append.1 hb with hb | hb
    · exact v.encodable b hb
    · rw [List.mem_singleton.1 hb]; exact h⟩

/-- One more action, unless no code can hold it. -/
def extend? (v : Variant) (a : ActionId) : Except VariantError Variant :=
  if h : a.toNat < maxActions then .ok (v.extend a h) else .error (.outOfRange a maxActions)

/-- The variant of an action sequence. -/
def ofActions? (actions : List ActionId) : Except VariantError Variant :=
  actions.foldlM extend? base

/-! ## Codes -/

/-- The digit of base 36 with a value. -/
def digit (n : Nat) : Char := if n < 10 then Char.ofNat (48 + n) else Char.ofNat (87 + n)

def digitValue? (c : Char) : Option Nat :=
  if c.isDigit then some (c.toNat - 48)
  else if 'a' ≤ c ∧ c ≤ 'z' then some (c.toNat - 87)
  else none

def encodeAction (a : ActionId) : List Char := [digit (a.toNat / 36), digit (a.toNat % 36)]

def code (v : Variant) : List Char := v.actions.flatMap encodeAction

def encode (v : Variant) : String := String.ofList v.code

/-- The value of a code of one action, which is always encodable. -/
def actionOf? (high low : Char) : Option { a : ActionId // a.toNat < maxActions } := do
  let n := (← digitValue? high) * 36 + (← digitValue? low)
  if h : (UInt16.ofNat n).toNat < maxActions then return ⟨UInt16.ofNat n, h⟩ else none

/-- The variant with a code, its characters taken in pairs. -/
def ofCode? : List Char → Option Variant
  | [] => some base
  | [_] => none
  | high :: low :: rest => do
    let a ← actionOf? high low
    let v ← ofCode? rest
    return ⟨a.1 :: v.actions, by
      intro b hb
      rcases List.mem_cons.1 hb with rfl | hb
      · exact a.2
      · exact v.encodable b hb⟩

/-- The variant with a code. An odd number of bytes is reported before any character. -/
def decode (code : String) : Except VariantError Variant :=
  if code.utf8ByteSize % 2 ≠ 0 then .error (.invalidCode code .length)
  else match ofCode? code.toList with
    | some v => .ok v
    | none => .error (.invalidCode code .character)

theorem digitValue?_digit {n : Nat} (h : n < 36) : digitValue? (digit n) = some n :=
  (by decide : ∀ n < 36, digitValue? (digit n) = some n) n h

theorem utf8Size_digit {n : Nat} (h : n < 36) : (digit n).utf8Size = 1 :=
  (by decide : ∀ n < 36, (digit n).utf8Size = 1) n h

theorem actionOf?_encode {a : ActionId} (h : a.toNat < maxActions) :
    actionOf? (digit (a.toNat / 36)) (digit (a.toNat % 36)) = some ⟨a, h⟩ := by
  have hn : a.toNat / 36 * 36 + a.toNat % 36 = a.toNat := by omega
  have high : a.toNat / 36 < 36 := by unfold maxActions at h; omega
  have low : a.toNat % 36 < 36 := Nat.mod_lt _ (by decide)
  simp only [actionOf?, digitValue?_digit high, digitValue?_digit low, Option.bind_eq_bind,
    Option.bind_some, hn, UInt16.ofNat_toNat, dif_pos h]
  rfl

theorem ofCode?_code (v : Variant) : ofCode? v.code = some v := by
  obtain ⟨actions, encodable⟩ := v
  induction actions with
  | nil => rfl
  | cons a rest ih =>
    have ha : a.toNat < maxActions := encodable a (by simp)
    have h := ih fun b hb => encodable b (by simp [hb])
    simp only [code] at h
    simp [code, encodeAction, ofCode?, actionOf?_encode ha, h]

theorem utf8ByteSize_encode (v : Variant) : v.encode.utf8ByteSize = 2 * v.length := by
  obtain ⟨actions, encodable⟩ := v
  induction actions with
  | nil => rfl
  | cons a rest ih =>
    have h := ih fun b hb => encodable b (by simp [hb])
    have ha : a.toNat < maxActions := encodable a (by simp)
    have high : a.toNat / 36 < 36 := by unfold maxActions at ha; omega
    have low : a.toNat % 36 < 36 := Nat.mod_lt _ (by decide)
    simp only [encode, code, length, List.flatMap_cons, encodeAction, List.cons_append,
      List.nil_append, String.ofList_cons, String.utf8ByteSize_append,
      String.utf8ByteSize_singleton, utf8Size_digit high, utf8Size_digit low,
      List.length_cons] at h ⊢
    omega

theorem decode_encode (v : Variant) : decode v.encode = .ok v := by
  have h : v.encode.utf8ByteSize % 2 = 0 := by rw [utf8ByteSize_encode]; omega
  rw [decode, if_neg (not_not_intro h)]
  simp [encode, ofCode?_code]

/-- How messages name a variant. -/
def label (v : Variant) : String := if v.isBase then "base" else v.encode

/-! ## File names -/

/-- The file of the variant's code for a program's stem; the base has the source itself. -/
def irName? (v : Variant) (stem : String) : Option String :=
  if v.isBase then none else some s!"{stem}_opt_{v.encode}.ll"

def executableName (v : Variant) (stem : String) : String :=
  if v.isBase then stem else s!"{stem}_opt_{v.encode}"

end Variant

end PassTuner
