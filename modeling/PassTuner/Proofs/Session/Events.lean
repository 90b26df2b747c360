import PassTuner.Program.Pool
import PassTuner.Proofs.Cache.Layout

/-!
# Sessions

A session is a world with at most one open program. Its events are the operations on the program,
closing it and opening it again, and whatever others do to its files in between. What an event comes
to is an answer, and the state that is reported after it.
-/

namespace PassTuner

/-- A file of a site. The source is the code of the base. -/
inductive SiteFile where
  | code (v : Variant)
  | executable (v : Variant)
  | manifest
  deriving DecidableEq

namespace Site

def path (s : Site) : SiteFile → String
  | .code v => (s.artifacts v).ir
  | .executable v => (s.artifacts v).executable
  | .manifest => s.manifestPath

def placeOf (s : Site) : SiteFile → Place
  | .code v => s.codePlace v
  | .executable v => s.executablePlace v
  | .manifest => s.manifestPlace

/-- The disk after somebody wrote a file, or took it away. What cannot be done is not done. -/
def edit (s : Site) (file : SiteFile) (content : Option ByteArray) (d : Disk) : Disk :=
  match content with
  | none => d.remove (s.path file)
  | some content =>
    match d.write (s.path file) content with
    | .ok d => d
    | .error _ => d

variable {s : Site} {d : Disk} {v : Variant} {file : SiteFile} {content : Option ByteArray}

theorem owns_placeOf (s : Site) (file : SiteFile) : s.Owns (s.placeOf file) := by
  cases file with
  | code v => exact .code v
  | executable v => exact .executable v
  | manifest => exact .manifest

theorem leads_or_error {base name : String} {place : Place}
    (hb : d.locate base = .ok (.present place .directory)) (hn : Path.Plain name)
    (apart : d.get? (name :: place) ≠ some .directory) :
    d.Leads (Path.join base name) (name :: place) ∨
      ∃ e, d.locate (Path.join base name) = .error e := by
  by_cases hshort : Short base name
  · exact .inl (Disk.leads_join hb hn hshort.shortPath hshort.shortName apart)
  · have hl := Disk.locate_join hb hn
    rw [short_iff, not_not] at hshort
    rw [if_pos hshort] at hl
    exact .inr ⟨_, hl⟩

/-- The path of a file leads to its place, or nowhere. -/
theorem Laid.leads_path_or_error (hs : s.Clear) (h : s.Laid d) (file : SiteFile) :
    d.Leads (s.path file) (s.placeOf file) ∨ ∃ e, d.locate (s.path file) = .error e := by
  cases file with
  | code v =>
    cases hname : v.irName? s.stem with
    | none =>
      obtain rfl := eq_base_of_irName? hname
      exact .inl h.source
    | some name =>
      obtain ⟨hpath, hplace⟩ := ir_of_some hname
      have apart := h.code v
      simp only [path, placeOf]
      rw [hplace] at apart ⊢
      rw [hpath]
      exact leads_or_error h.directory (Site.plain_code hs.stem hname) apart
  | executable v =>
    exact leads_or_error h.directory (Site.plain_executable hs.stem v) (h.executable v)
  | manifest => exact .inl h.manifest

theorem edit_of_error {e : DiskError} (h : d.locate (s.path file) = .error e)
    (content : Option ByteArray) : s.edit file content d = d := by
  cases content with
  | none => simp [edit, Disk.remove, h]
  | some content => simp [edit, Disk.write, h]

/-- An edit changes its file at most. -/
theorem Laid.changedOnly_edit (hs : s.Clear) (h : s.Laid d) (file : SiteFile)
    (content : Option ByteArray) :
    Disk.ChangedOnly (· = s.placeOf file) d (s.edit file content d) := by
  rcases h.leads_path_or_error hs file with hl | ⟨e, he⟩
  · cases content with
    | none => exact hl.changedOnly_remove h.tree
    | some content =>
      simp only [edit, hl.write]
      exact Disk.changedOnly_put hl.apart content
  · rw [edit_of_error he]
    exact Disk.ChangedOnly.refl _ _

theorem placeOf_ne_manifestPlace (hs : s.Clear) (h : file ≠ .manifest) :
    s.placeOf file ≠ s.manifestPlace := by
  cases file with
  | code v => exact hs.codePlace_ne_manifestPlace v
  | executable v => exact hs.executablePlace_ne_manifestPlace v
  | manifest => exact absurd rfl h

theorem origin_ne_placeOf (hs : s.Clear) (h : file ≠ .code .base) : s.origin ≠ s.placeOf file := by
  change s.codePlace .base ≠ s.placeOf file
  cases file with
  | code v => exact fun hp => h (congrArg _ (hs.codePlace_injective hp).symm)
  | executable v => exact hs.codePlace_ne_executablePlace .base v
  | manifest => exact hs.codePlace_ne_manifestPlace .base

theorem On.edit (hs : s.Clear) (h : s.On d) (file : SiteFile) (content : Option ByteArray) :
    s.On (s.edit file content d) := by
  refine h.of_changedOnly hs (h.changedOnly_edit hs file content) ?_
  rintro p rfl
  exact s.owns_placeOf file

/-- Taking a file away leaves nothing in its place, or everything as it was. -/
theorem Laid.get?_edit_none (hs : s.Clear) (h : s.Laid d) (file : SiteFile) (p : Place) :
    (s.edit file none d).get? p = d.get? p ∨ (s.edit file none d).get? p = none := by
  have hchanged := h.changedOnly_edit hs file none
  by_cases hp : p = s.placeOf file
  · subst hp
    rcases h.leads_path_or_error hs file with hl | ⟨e, he⟩
    · cases hg : d.get? (s.placeOf file) with
      | none =>
        refine .inl ?_
        rw [Site.edit, hl.remove_of_none hg, hg]
      | some node =>
        cases node with
        | directory => exact absurd hg hl.apart
        | file content =>
          refine .inr ?_
          rw [Site.edit, hl.remove_of_file hg]
          exact Disk.get?_erase_inside d (List.suffix_refl _) hl.ne_root
    · rw [edit_of_error he]
      exact .inl rfl
  · exact .inl (hchanged.same p hp)

end Site

/-! ## Events -/

/-- What can happen in a session. -/
inductive Event where
  /-- Opens the program, also when one is open that is closed by it. -/
  | «open» (baseMaxAge : Option Nat)
  | build
  | measure
  | reset
  | step (catalog : Catalog) (action : ActionId)
  /-- Somebody else writes a file of the program, or takes it away. -/
  | edit (file : SiteFile) (content : Option ByteArray)

/-- Nobody but the program touches the manifest. -/
def Event.SparesManifest : Event → Prop
  | .edit file _ => file ≠ .manifest
  | _ => True

/-- Nobody but the program touches any file. -/
def Event.SparesFiles : Event → Prop
  | .edit _ _ => False
  | _ => True

/-- Steps take their actions from one catalog. -/
def Event.Uses (catalog : Catalog) : Event → Prop
  | .step used _ => used = catalog
  | _ => True

/-- What an operation answers. -/
inductive Answer where
  | silent
  | done
  | reward (amount : Float)
  | failed (error : EnvironmentError)

structure Session (σ : Type) where
  world : World σ
  program : Option Program

/-- What can be seen after an event. -/
structure Report where
  answer : Answer
  lineage : Option Variant
  state : Option Observation
  cost : Option Float
  baseCost : Option Float

namespace Session

variable {σ : Type}

/-- Works on the program, if one is open. -/
def operate (work : Work σ Answer) (x : Session σ) : Answer × Session σ :=
  match x.program with
  | none => (.silent, x)
  | some p =>
    match work ⟨x.world, p⟩ with
    | .ok answer b => (answer, ⟨b.world, some b.program⟩)
    | .error e b => (.failed e, ⟨b.world, some b.program⟩)

/-- An event of a session that keeps its variants under a directory. -/
def perform (tc : Toolchain σ) (workDir : String) (s : Site) :
    Event → Session σ → Answer × Session σ
  | .open baseMaxAge, x =>
    match Program.open tc ⟨workDir, baseMaxAge⟩ s.source x.world with
    | .ok p w => (.done, ⟨w, some p⟩)
    | .error e w => (.failed e, ⟨w, none⟩)
  | .build, x => x.operate (Program.build tc >>= fun _ => pure .done)
  | .measure, x => x.operate (Program.measure tc >>= fun _ => pure .done)
  | .reset, x => x.operate (Program.reset tc >>= fun _ => pure .done)
  | .step catalog action, x =>
    x.operate (Program.step tc catalog action >>= fun reward => pure (.reward reward))
  | .edit file content, x =>
    (.silent, { x with world := { x.world with disk := s.edit file content x.world.disk } })

def report (answer : Answer) (x : Session σ) : Report where
  answer := answer
  lineage := x.program.map (·.lineage)
  state := x.program.bind (·.state?)
  cost := x.program.bind (·.cost?)
  baseCost := x.program.bind (·.baseCost?)

/-- The session after events. -/
def run (tc : Toolchain σ) (workDir : String) (s : Site) : List Event → Session σ → Session σ
  | [], x => x
  | event :: events, x => run tc workDir s events (perform tc workDir s event x).2

/-- What is reported after each of some events. -/
def reports (tc : Toolchain σ) (workDir : String) (s : Site) :
    List Event → Session σ → List Report
  | [], _ => []
  | event :: events, x =>
    let (answer, y) := perform tc workDir s event x
    report answer y :: reports tc workDir s events y

/-- The variant that an event tries, and the flag that its catalog tries it with. -/
def trial? : Event → Session σ → Option (Variant × String)
  | .step catalog action, x => do
    let p ← x.program
    let flag ← (catalog.describe action).toOption
    let v ← (p.lineage.extend? action).toOption
    return (v, flag)
  | _, _ => none

/-- All that is tried in a run. -/
def trials (tc : Toolchain σ) (workDir : String) (s : Site) :
    List Event → Session σ → List (Variant × String)
  | [], _ => []
  | event :: events, x =>
    (trial? event x).toList ++ trials tc workDir s events (perform tc workDir s event x).2

/-- Something holds of every event of a run and the session it happens in. -/
def Along (tc : Toolchain σ) (workDir : String) (s : Site) (P : Event → Session σ → Prop) :
    List Event → Session σ → Prop
  | [], _ => True
  | event :: events, x => P event x ∧ Along tc workDir s P events (perform tc workDir s event x).2

/-- Something holds of a session and stays true after every event of a run. -/
def Throughout (tc : Toolchain σ) (workDir : String) (s : Site) (P : Session σ → Prop) :
    List Event → Session σ → Prop
  | [], x => P x
  | event :: events, x => P x ∧ Throughout tc workDir s P events (perform tc workDir s event x).2

theorem trial?_step {x : Session σ} {p : Program} {catalog : Catalog} {action : ActionId}
    {flag : String} {v : Variant} (hp : x.program = some p)
    (hf : catalog.describe action = .ok flag) (hv : p.lineage.extend? action = .ok v) :
    trial? (.step catalog action) x = some (v, flag) := by
  simp [trial?, hp, hf, hv, Except.toOption]

theorem trials_append (tc : Toolchain σ) (workDir : String) (s : Site) (events more : List Event)
    (x : Session σ) : trials tc workDir s (events ++ more) x =
      trials tc workDir s events x ++ trials tc workDir s more (run tc workDir s events x) := by
  induction events generalizing x with
  | nil => rfl
  | cons event events ih => simp [trials, run, ih]

theorem run_append (tc : Toolchain σ) (workDir : String) (s : Site) (events more : List Event)
    (x : Session σ) :
    run tc workDir s (events ++ more) x = run tc workDir s more (run tc workDir s events x) := by
  induction events generalizing x with
  | nil => rfl
  | cons event events ih => exact ih _

theorem reports_append (tc : Toolchain σ) (workDir : String) (s : Site) (events more : List Event)
    (x : Session σ) : reports tc workDir s (events ++ more) x =
      reports tc workDir s events x ++ reports tc workDir s more (run tc workDir s events x) := by
  induction events generalizing x with
  | nil => rfl
  | cons event events ih => simp only [List.cons_append, reports, run, ih]

theorem Throughout.last {tc : Toolchain σ} {workDir : String} {s : Site} {P : Session σ → Prop}
    {events : List Event} {x : Session σ} (h : Throughout tc workDir s P events x) :
    P (run tc workDir s events x) := by
  induction events generalizing x with
  | nil => exact h
  | cons _ _ ih => exact ih h.2

theorem Throughout.head {tc : Toolchain σ} {workDir : String} {s : Site} {P : Session σ → Prop}
    {events : List Event} {x : Session σ} (h : Throughout tc workDir s P events x) : P x := by
  cases events with
  | nil => exact h
  | cons _ _ => exact h.1

end Session

end PassTuner
