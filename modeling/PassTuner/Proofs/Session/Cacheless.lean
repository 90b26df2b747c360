import PassTuner.Proofs.Program.Measuring
import PassTuner.Proofs.Session.Events
import PassTuner.Proofs.Tool.Pure

/-!
# An environment without a cache

A cacheless environment has no files. It keeps the code of the variant it is at, and makes every
further variant of that code by what deterministic tools make of their inputs. Its events are those
of a session, and so are its reports.
-/

namespace PassTuner

namespace Conduct

variable {C : Conduct} {source c : ByteArray} {flags : List String} {flag : String}

/-- Code made with one flag more is made of code made without it. -/
theorem Derived.of_concat (h : C.Derived source (flags ++ [flag]) c) :
    ∃ c₀, C.Derived source flags c₀ ∧ C.transform flag c₀ (.ok c) := by
  generalize hflags : flags ++ [flag] = flags' at h
  cases h with
  | base => simp at hflags
  | step hd hmade =>
    obtain ⟨rfl, heq⟩ := List.append_inj' hflags rfl
    cases heq
    exact ⟨_, hd, hmade⟩

end Conduct

namespace PureTools

variable {σ : Type}

/-- The executable of a variant whose code is given. -/
def executable (T : PureTools) (name : String) (v : Variant) (code : ByteArray) :
    Except EnvironmentError ByteArray :=
  match T.assemble code with
  | .ok executable => .ok executable
  | .error failure => .error (failure.report (.buildFailed name v))

/-- The code and the executable of a variant: with a flag, of code that it has still to be made of,
and without one of its own. -/
def build (T : PureTools) (name : String) (v : Variant) :
    Option String → ByteArray → Except EnvironmentError (ByteArray × ByteArray)
  | none, code =>
    match T.executable name v code with
    | .ok executable => .ok (code, executable)
    | .error e => .error e
  | some flag, code =>
    match T.transform flag code with
    | .error failure => .error (failure.report (.transformFailed name v flag))
    | .ok made =>
      match T.executable name v made with
      | .ok executable => .ok (made, executable)
      | .error e => .error e

/-- What the measurement of a variant's executable says. One that is transient is so every time,
until no patience is left. -/
def reading (T : PureTools) (tc : Toolchain σ) (name : String) (v : Variant)
    (executable : ByteArray) : Except EnvironmentError MeasurementRecord :=
  if tc.patience = 0 then .error (.stalled name v)
  else
    match T.measure executable with
    | .error cause => .error (.tool cause)
    | .ok output =>
      if tc.transient.isTransient output then .error (.stalled name v)
      else
        match Program.readMeasurement tc output with
        | .ok record => .ok record
        | .error fault => .error (.measurementFailed name v fault)

end PureTools

/-- A variant, its code, and what was measured of it and of the base. -/
structure Cacheless where
  lineage : Variant
  code : ByteArray
  current : MeasurementRecord
  base : MeasurementRecord

namespace Cacheless

variable {σ : Type}

def «open» (T : PureTools) (tc : Toolchain σ) (name : String) (source : ByteArray) :
    Except EnvironmentError Cacheless :=
  match T.build name .base none source with
  | .error e => .error e
  | .ok (code, executable) =>
    match T.reading tc name .base executable with
    | .error e => .error e
    | .ok record => .ok ⟨.base, code, record, record⟩

def reset (source : ByteArray) (r : Cacheless) : Cacheless :=
  { r with lineage := .base, code := source, current := r.base }

/-- Makes the variant with one action more, and moves there if that is rewarded. -/
def advance (T : PureTools) (tc : Toolchain σ) (name flag : String) (v : Variant) (r : Cacheless) :
    Except EnvironmentError (Float × Cacheless) :=
  match T.build name v (some flag) r.code with
  | .error e => .error e
  | .ok (code, executable) =>
    match T.reading tc name v executable with
    | .error e => .error e
    | .ok record =>
      match Cost.reward r.current.cost record.cost with
      | .error _ => .error (.invalidCost name v r.current.cost record.cost)
      | .ok reward => .ok (reward, { r with lineage := v, code, current := record })

def step (T : PureTools) (tc : Toolchain σ) (name : String) (catalog : Catalog) (action : ActionId)
    (r : Cacheless) : Except EnvironmentError (Float × Cacheless) :=
  match catalog.describe action with
  | .error fault => .error (.variant fault)
  | .ok flag =>
    match r.lineage.extend? action with
    | .error fault => .error (.variant fault)
    | .ok v => r.advance T tc name flag v

/-- An event of an environment that is open or not. There are no files that could be edited, and
what is open is built and measured already. -/
def perform (T : PureTools) (tc : Toolchain σ) (name : String) (source : ByteArray) :
    Event → Option Cacheless → Answer × Option Cacheless
  | .open _, _ =>
    match Cacheless.open T tc name source with
    | .ok r => (.done, some r)
    | .error e => (.failed e, none)
  | .edit _ _, r => (.silent, r)
  | _, none => (.silent, none)
  | .build, some r => (.done, some r)
  | .measure, some r => (.done, some r)
  | .reset, some r => (.done, some (r.reset source))
  | .step catalog action, some r =>
    match r.step T tc name catalog action with
    | .ok (reward, r') => (.reward reward, some r')
    | .error e => (.failed e, some r)

def report (answer : Answer) (r : Option Cacheless) : Report where
  answer := answer
  lineage := r.map (·.lineage)
  state := r.map (·.current.state)
  cost := r.map (·.current.cost)
  baseCost := r.map (·.base.cost)

/-- What is reported after each of some events. -/
def reports (T : PureTools) (tc : Toolchain σ) (name : String) (source : ByteArray) :
    List Event → Option Cacheless → List Report
  | [], _ => []
  | event :: events, r =>
    let (answer, r') := perform T tc name source event r
    report answer r' :: reports T tc name source events r'

end Cacheless

namespace PureTools

variable {T : PureTools} {σ : Type} {tc : Toolchain σ} {name : String} {v : Variant}
  {code made x : ByteArray} {flag : String} {failure : CallFailure}

theorem build_none_ok (h : T.assemble code = .ok x) : T.build name v none code = .ok (code, x) := by
  simp only [build, executable, h]

theorem build_none_error (h : T.assemble code = .error failure) :
    T.build name v none code = .error (failure.report (.buildFailed name v)) := by
  simp only [build, executable, h]

theorem build_some_ok (hmade : T.transform flag code = .ok made) (h : T.assemble made = .ok x) :
    T.build name v (some flag) code = .ok (made, x) := by
  simp only [build, executable, hmade, h]

theorem build_some_untransformed (h : T.transform flag code = .error failure) :
    T.build name v (some flag) code = .error (failure.report (.transformFailed name v flag)) := by
  simp only [build, h]

theorem build_some_unassembled (hmade : T.transform flag code = .ok made)
    (h : T.assemble made = .error failure) :
    T.build name v (some flag) code = .error (failure.report (.buildFailed name v)) := by
  simp only [build, executable, hmade, h]

theorem of_build_none (h : T.build name v none code = .ok (made, x)) :
    made = code ∧ T.assemble code = .ok x := by
  unfold build executable at h
  cases hassemble : T.assemble code with
  | error failure => simp [hassemble] at h
  | ok executable =>
    simp only [hassemble] at h
    cases h
    exact ⟨rfl, rfl⟩

theorem of_build_some (h : T.build name v (some flag) code = .ok (made, x)) :
    T.transform flag code = .ok made ∧ T.assemble made = .ok x := by
  unfold build executable at h
  cases htransform : T.transform flag code with
  | error failure => simp [htransform] at h
  | ok made' =>
    cases hassemble : T.assemble made' with
    | error failure => simp [htransform, hassemble] at h
    | ok executable =>
      simp only [htransform, hassemble] at h
      cases h
      exact ⟨rfl, hassemble⟩

end PureTools

namespace Program

variable {σ : Type} {T : PureTools} {tc : Toolchain σ} {b b' : Bench σ} {v : Variant}
  {path : String} {x : ByteArray} {e : EnvironmentError}

/-- A measurement that succeeds is what the executable's reading says. -/
theorem reading_of_runMeasurement_ok (watches : Tool.Watches T.conduct.measure tc.measure)
    (hread : b.world.disk.read path = .ok x) {a : Measurement}
    (h : runMeasurement tc v path b = .ok a b') :
    T.reading tc b.program.name v x = .ok ⟨a.state, a.cost⟩ := by
  obtain ⟨_, _, o, record, htransient, hrecord, hstate, hcost, hpatience, hanswer⟩ :=
    runMeasurement_ok watches h
  have hmeasure : T.measure x = .ok o := (hanswer x hread).symm
  simp [PureTools.reading, hpatience, hmeasure, htransient, hrecord, hstate, hcost]

theorem reading_of_runMeasurement_error (watches : Tool.Watches T.conduct.measure tc.measure)
    (hread : b.world.disk.read path = .ok x) (h : runMeasurement tc v path b = .error e b') :
    T.reading tc b.program.name v x = .error e := by
  obtain ⟨_, _, hfails⟩ := runMeasurement_error watches h
  rcases hfails x hread with ⟨rfl, hzero | ⟨o, hmeasure, htransient⟩⟩ |
    ⟨cause, rfl, hmeasure, hpatience⟩ | ⟨o, fault, hmeasure, htransient, hrecord, hpatience, rfl⟩
  · simp [PureTools.reading, hzero]
  · have hmeasure : T.measure x = .ok o := hmeasure.symm
    simp [PureTools.reading, hmeasure, htransient]
  · have hmeasure : T.measure x = .error cause := hmeasure.symm
    simp [PureTools.reading, hmeasure, hpatience]
  · have hmeasure : T.measure x = .ok o := hmeasure.symm
    simp [PureTools.reading, hmeasure, hpatience, htransient, hrecord]

end Program

end PassTuner
