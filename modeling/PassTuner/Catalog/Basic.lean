import PassTuner.Catalog.Listing
import PassTuner.Json.Writer
import PassTuner.Environment.Error
import PassTuner.Random.Draw

/-!
# The catalog of actions

The ordered vocabulary of pass flags. An action's id is the position of its flag; a flag stands only
once, and there are never more flags than codes. The vocabulary is found once in the optimizer's
help text and then kept in a file, so that ids mean the same in every later run.
-/

namespace PassTuner

/-- The flags without repetitions, each where it stands first. -/
def distinct : List String → List String
  | [] => []
  | flag :: rest => flag :: (distinct rest).filter (· ≠ flag)

theorem mem_distinct {flag : String} {flags : List String} :
    flag ∈ distinct flags ↔ flag ∈ flags := by
  induction flags with
  | nil => simp [distinct]
  | cons f rest ih => by_cases h : flag = f <;> simp [distinct, h, ih]

theorem nodup_distinct (flags : List String) : (distinct flags).Nodup := by
  induction flags with
  | nil => exact List.nodup_nil
  | cons f rest ih =>
    rw [distinct, List.nodup_cons]
    exact ⟨by simp, ih.filter _⟩

theorem distinct_of_nodup {flags : List String} (h : flags.Nodup) : distinct flags = flags := by
  induction flags with
  | nil => rfl
  | cons f rest ih =>
    rw [List.nodup_cons] at h
    rw [distinct, ih h.2, List.filter_eq_self.2]
    intro g hg
    simp only [decide_eq_true_eq]
    rintro rfl
    exact h.1 hg

structure Catalog where
  flags : List String
  nodup : flags.Nodup
  nonempty : flags ≠ []
  encodable : flags.length ≤ maxActions

namespace Catalog

/-- The catalog of a row of flags, of which repetitions are dropped. -/
def ofFlags (flags : List String) : Except EnvironmentError Catalog :=
  if hne : distinct flags = [] then .error .emptyCatalog
  else if hle : (distinct flags).length ≤ maxActions then
    .ok ⟨distinct flags, nodup_distinct flags, hne, hle⟩
  else .error (.variant (.tooManyActions (distinct flags).length))

def size (c : Catalog) : Nat := c.flags.length

theorem size_pos (c : Catalog) : 0 < c.size := List.length_pos_iff.2 c.nonempty

/-- The flag of an action. -/
def describe (c : Catalog) (a : ActionId) : Except VariantError String :=
  match c.flags[a.toNat]? with
  | some flag => .ok flag
  | none => .error (.outOfRange a c.size)

/-- The flags of actions, or the error of the first that has none. -/
def describeAll (c : Catalog) (actions : List ActionId) : Except VariantError (List String) :=
  actions.mapM c.describe

/-- A uniformly chosen action. -/
def sample (c : Catalog) (r : Rng) : ActionId × Rng :=
  let drawn := r.below c.size c.size_pos
  (UInt16.ofNat drawn.1, drawn.2)

def idOf? (c : Catalog) (flag : String) : Option ActionId :=
  (c.flags.idxOf? flag).map UInt16.ofNat

/-- The actions and their flags, in order. -/
def entries (c : Catalog) : List (ActionId × String) :=
  c.flags.mapIdx fun i flag => (UInt16.ofNat i, flag)

def toJson (c : Catalog) : Json := .array (c.flags.map Json.ofText)

/-! ## Finding and keeping the vocabulary -/

def discover (tc : Toolchain σ) (rules : ListingRules) : Environment σ Catalog := do
  let output ← Environment.ofTool tc.describe
  if !output.succeeded then throw (.discovery (.failed output))
  match rules.flags? output.stdout with
  | none => throw (.discovery (.noHeader rules.sectionHeader))
  | some flags => Environment.ofExcept (ofFlags flags)

/-- What a catalog's file holds; nothing if there is no file. -/
def ofDisk? (d : Disk) (path : String) : Except EnvironmentError (Option Catalog) :=
  let corrupted (fault : CatalogFault) :=
    Except.error (EnvironmentError.catalogCorrupted path fault)
  match d.readText path with
  | .error .notFound => .ok none
  | .error e => corrupted (.unreadable e)
  | .ok text =>
    match Json.parseAs (Json.list? Json.text?) text with
    | .error e => corrupted (.malformed e)
    | .ok flags =>
      match ofFlags flags with
      | .ok c => .ok (some c)
      | .error (.variant (.tooManyActions size)) => corrupted (.tooMany size)
      | .error _ => corrupted .empty

def load (path : String) : Environment σ (Option Catalog) := do
  Environment.ofExcept (ofDisk? (← get).disk path)

/-- Writes the catalog to a file, in a directory that is made if need be. -/
def save (c : Catalog) (path : String) : Environment σ Unit := do
  match Path.parent? path with
  | none => pure ()
  | some parent => if parent ≠ "" then Environment.changing parent (·.makeDirectories parent)
  Environment.changing path (·.writeText path c.toJson.indented)

/-- The catalog of a file or, if there is none, the one that is discovered and then kept there. -/
def loadOrDiscover (path : String) (tc : Toolchain σ) (rules : ListingRules) :
    Environment σ Catalog := do
  match ← load path with
  | some c => return c
  | none =>
    let c ← discover tc rules
    c.save path
    return c

end Catalog

end PassTuner
