import PassTuner.Json.Record
import PassTuner.Json.Writer
import PassTuner.Variant.Key

/-!
# Manifests

The record of what a cache holds: the digest of the source, and for each variant, by its code, the
digests of its two artifacts. Entries are kept in the order of their codes.
-/

namespace PassTuner

/-- The digests of a variant's code and executable. -/
structure Digests where
  ir : String
  executable : String
  deriving DecidableEq, Repr

structure Manifest where
  sourceDigest : String
  entries : List (String × Digests)
  deriving DecidableEq, Repr

namespace Manifest

def empty (sourceDigest : String) : Manifest := ⟨sourceDigest, []⟩

/-- The entries with one put at its place in the order, instead of an older one. -/
def insertEntry (code : String) (digests : Digests) :
    List (String × Digests) → List (String × Digests)
  | [] => [(code, digests)]
  | (other, d) :: rest =>
    if code = other then (code, digests) :: rest
    else if code < other then (code, digests) :: (other, d) :: rest
    else (other, d) :: insertEntry code digests rest

def insert (m : Manifest) (code : String) (digests : Digests) : Manifest :=
  { m with entries := insertEntry code digests m.entries }

def get? (m : Manifest) (code : String) : Option Digests := m.entries.lookup code

def size (m : Manifest) : Nat := m.entries.length

@[simp] theorem get?_insert_same (m : Manifest) (code : String) (d : Digests) :
    (m.insert code d).get? code = some d := by
  unfold insert get?
  dsimp only
  induction m.entries with
  | nil => simp [insertEntry]
  | cons entry rest ih =>
    obtain ⟨other, e⟩ := entry
    rw [insertEntry]
    split
    · simp
    · rename_i h
      split
      · simp
      · simp [beq_false_of_ne h, List.lookup_cons, ih]

@[simp] theorem get?_insert_other (m : Manifest) {code other : String} (h : other ≠ code)
    (d : Digests) : (m.insert code d).get? other = m.get? other := by
  unfold insert get?
  dsimp only
  induction m.entries with
  | nil => simp [insertEntry, h]
  | cons entry rest ih =>
    obtain ⟨code', e⟩ := entry
    rw [insertEntry]
    split
    · rename_i hc
      subst hc
      simp [List.lookup_cons, beq_false_of_ne h]
    · split
      · simp [List.lookup_cons, beq_false_of_ne h]
      · simp [List.lookup_cons, ih]

def digestsJson (d : Digests) : Json :=
  .ofFields [("ir", .ofText d.ir), ("executable", .ofText d.executable)]

def digestsOfJson? (j : Json) : Option Digests := do
  let r ← j.record? ["ir", "executable"]
  return { ir := ← r.required "ir" Json.text?, executable := ← r.required "executable" Json.text? }

/-- The members of an object as entries; of those with one code the last one counts. -/
def entriesOfJson? : Json → Option (List (String × Digests))
  | .object members => members.foldlM (fun entries (quoted, value) => do
      let code ← Json.unescape? quoted
      return insertEntry (String.ofList code) (← digestsOfJson? value) entries) []
  | _ => none

def toJson (m : Manifest) : Json :=
  .ofFields [("source_digest", .ofText m.sourceDigest),
    ("entries", .ofFields (m.entries.map fun (code, d) => (code, digestsJson d)))]

def ofJson? (j : Json) : Option Manifest := do
  let r ← j.record? ["source_digest", "entries"]
  return {
    sourceDigest := ← r.required "source_digest" Json.text?
    entries := ← r.required "entries" entriesOfJson? }

end Manifest

end PassTuner
