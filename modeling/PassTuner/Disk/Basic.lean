import PassTuner.Disk.Path

/-!
# Files and directories

A disk is a table from places to files and directories. A place is the row of names from the root,
innermost first, so the directory that holds it is its tail. Main statements: what was put at a
place is found there, and putting or erasing changes nothing elsewhere.
-/

namespace PassTuner

inductive Node where
  | file (content : ByteArray)
  | directory

/-- Names from the innermost outward; the empty place is the root. -/
abbrev Place := List String

/-- The operating system's answers to an impossible request. -/
inductive DiskError where
  | notFound
  | denied
  | exists
  | notDirectory
  | isDirectory
  | nameTooLong
  | notText
  | invalidPath
  deriving DecidableEq, Repr

namespace DiskError

def reason : DiskError → String
  | .notFound => "No such file or directory"
  | .denied => "Permission denied"
  | .exists => "File exists"
  | .notDirectory => "Not a directory"
  | .isDirectory => "Is a directory"
  | .nameTooLong => "File name too long"
  | .notText => "stream did not contain valid UTF-8"
  | .invalidPath => "file name contained an unexpected NUL byte"

/-- The system's number for an error; content and names that are wrong in themselves have none. -/
def code? : DiskError → Option Nat
  | .notFound => some 2
  | .denied => some 13
  | .exists => some 17
  | .notDirectory => some 20
  | .isDirectory => some 21
  | .nameTooLong => some 36
  | .notText => none
  | .invalidPath => none

def message (e : DiskError) : String :=
  match e.code? with
  | some code => s!"{e.reason} (os error {code})"
  | none => e.reason

end DiskError

/-- All files and directories but the root, and the directory that relative paths start from. -/
structure Disk where
  nodes : List (Place × Node)
  home : Place

namespace Disk

def get? (d : Disk) (p : Place) : Option Node :=
  if p = [] then some .directory else d.nodes.lookup p

/-- The table with an entry replaced or, if there was none, added at the end. -/
def putNode (p : Place) (n : Node) : List (Place × Node) → List (Place × Node)
  | [] => [(p, n)]
  | (q, m) :: rest => if q = p then (p, n) :: rest else (q, m) :: putNode p n rest

def put (d : Disk) (p : Place) (n : Node) : Disk := { d with nodes := putNode p n d.nodes }

/-- Removes a place and everything in it. -/
def erase (d : Disk) (p : Place) : Disk :=
  { d with nodes := d.nodes.filter fun (q, _) => !p.isSuffixOf q }

/-- The names in a directory, in order. -/
def children (d : Disk) (p : Place) : List String :=
  (d.nodes.filterMap fun (q, _) =>
    match q with
    | name :: dir => if dir = p then some name else none
    | [] => none).mergeSort fun a b => decide (a ≤ b)

theorem lookup_putNode (p q : Place) (n : Node) (nodes : List (Place × Node)) :
    (putNode p n nodes).lookup q = if q = p then some n else nodes.lookup q := by
  induction nodes with
  | nil =>
    by_cases h : q = p
    · simp [putNode, h]
    · simp [putNode, List.lookup_cons, h, beq_false_of_ne h]
  | cons entry rest ih =>
    obtain ⟨r, m⟩ := entry
    by_cases hr : r = p
    · subst hr
      by_cases h : q = r
      · simp [putNode, h]
      · simp [putNode, List.lookup_cons, h, beq_false_of_ne h]
    · by_cases h : q = r
      · subst h
        simp [putNode, hr]
      · simp [putNode, List.lookup_cons, hr, ih, beq_false_of_ne h]

@[simp] theorem get?_put_same (d : Disk) {p : Place} (hp : p ≠ []) (n : Node) :
    (d.put p n).get? p = some n := by simp [get?, put, hp, lookup_putNode]

@[simp] theorem get?_put_other (d : Disk) {p q : Place} (h : q ≠ p) (n : Node) :
    (d.put p n).get? q = d.get? q := by simp [get?, put, h, lookup_putNode]

theorem lookup_filter_pos {nodes : List (Place × Node)} (keep : Place → Bool) {q : Place}
    (h : keep q) : (nodes.filter fun entry => keep entry.1).lookup q = nodes.lookup q := by
  induction nodes with
  | nil => rfl
  | cons entry rest ih =>
    obtain ⟨r, m⟩ := entry
    by_cases hr : q = r
    · subst hr; simp [h]
    · by_cases hk : keep r <;> simp [hk, List.lookup_cons, beq_false_of_ne hr, ih]

theorem lookup_filter_neg {nodes : List (Place × Node)} (keep : Place → Bool) {q : Place}
    (h : keep q = false) : (nodes.filter fun entry => keep entry.1).lookup q = none := by
  induction nodes with
  | nil => rfl
  | cons entry rest ih =>
    obtain ⟨r, m⟩ := entry
    by_cases hr : q = r
    · subst hr; simp [h, ih]
    · by_cases hk : keep r <;> simp [hk, List.lookup_cons, beq_false_of_ne hr, ih]

theorem get?_erase_inside (d : Disk) {p q : Place} (h : p <:+ q) (hq : q ≠ []) :
    (d.erase p).get? q = none := by
  have hk : (!p.isSuffixOf q) = false := by simpa using h
  simp only [get?, erase, if_neg hq]
  exact lookup_filter_neg (!p.isSuffixOf ·) hk

theorem get?_erase_other (d : Disk) {p q : Place} (h : ¬ p <:+ q) :
    (d.erase p).get? q = d.get? q := by
  have hk : (!p.isSuffixOf q) = true := by
    rw [Bool.not_eq_true', ← Bool.not_eq_true, List.isSuffixOf_iff_suffix]
    exact h
  simp only [get?, erase]
  rw [lookup_filter_pos (!p.isSuffixOf ·) hk]

end Disk

end PassTuner
