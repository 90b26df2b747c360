import PassTuner.Proofs.Cache.Checking
import PassTuner.Proofs.Program.Opening
import PassTuner.Proofs.Session.Events

/-!
# Invariants of sessions

An invariant of sessions has two parts: one about the manifest, the lineage and the disk while a
program is open, one about the disk alone while none is. Opening leads from the second to the first.
It holds along a run if the steps and the edits of the run do no harm to it.
-/

namespace PassTuner.Session

open Program (Holds Lasting Opens Tries Finds)

variable {σ : Type} {s : Site} {tc : Toolchain σ} {workDir : String} {C : Conduct}
  {D : Disk → Prop} {I : Manifest → Variant → Disk → Prop} {x : Session σ} {event : Event}
  {events : List Event}

/-- What is needed of the two parts of an invariant. -/
structure Invariant (C : Conduct) (s : Site) (D : Disk → Prop)
    (I : Manifest → Variant → Disk → Prop) : Prop extends Opens C s D I, Lasting C s I where
  home : ∀ {m u d}, I m u d → I m .base d

/-- An invariant holds of a session. -/
def Keeps (s : Site) (D : Disk → Prop) (I : Manifest → Variant → Disk → Prop) (x : Session σ) :
    Prop :=
  match x.program with
  | some p => Holds s I ⟨x.world, p⟩
  | none => s.On x.world.disk ∧ D x.world.disk

/-- What steps and edits must not do. -/
def Harmless (C : Conduct) (s : Site) (tc : Toolchain σ) (D : Disk → Prop)
    (I : Manifest → Variant → Disk → Prop) : Event → Session σ → Prop
  | .step catalog action, x => ∀ p, x.program = some p → ∀ flag cost b,
    catalog.describe action = .ok flag → Program.standingCost tc ⟨x.world, p⟩ = .ok cost b →
    Holds s I b → Tries tc C s I action flag b
  | .edit file content, _ =>
    (∀ m u d, s.On d → I m u d → I m u (s.edit file content d)) ∧
      ∀ d, s.On d → D d → D (s.edit file content d)
  | _, _ => True

theorem Keeps.on (h : Keeps s D I x) : s.On x.world.disk := by
  unfold Keeps at h
  split at h
  · exact h.on
  · exact h.1

theorem Keeps.of_some {p : Program} (h : Keeps s D I x) (hp : x.program = some p) :
    Holds s I ⟨x.world, p⟩ := by
  unfold Keeps at h
  rwa [hp] at h

theorem Keeps.disk (h : Keeps s D I x) (hI : Invariant C s D I) : D x.world.disk := by
  unfold Keeps at h
  split at h
  · obtain ⟨m, _, hm⟩ := h.state
    exact hI.stop hm
  · exact h.2

theorem operate_of_none {work : Work σ Answer} (h : x.program = none) :
    x.operate work = (.silent, x) := by
  simp only [operate, h]

/-- Work on an open program leaves the session with what the work leaves. -/
theorem operate_of_some {p : Program} {work : Work σ α} {answer : α → Answer}
    (h : x.program = some p) :
    (x.operate (work >>= fun a => pure (answer a))).2 =
      ⟨(work.after ⟨x.world, p⟩).world, some (work.after ⟨x.world, p⟩).program⟩ := by
  simp only [operate, h]
  cases hw : work ⟨x.world, p⟩ with
  | ok a b => rw [EStateM.bind_of_ok hw, Work.after_of_ok hw]; rfl
  | error e b => rw [EStateM.bind_of_error hw, Work.after_of_error hw]

theorem keeps_operate {work : Work σ α} {answer : α → Answer} (h : Keeps s D I x)
    (hwork : ∀ p, x.program = some p → Holds s I (work.after ⟨x.world, p⟩)) :
    Keeps s D I (x.operate (work >>= fun a => pure (answer a))).2 := by
  cases hp : x.program with
  | none => rwa [operate_of_none hp]
  | some p =>
    rw [operate_of_some hp]
    exact hwork p hp

theorem keeps_open (hs : s.Named) (tidy : tc.Tidy C) (hI : Invariant C s D I) {age : Option Nat}
    {d : Disk} {c : ByteArray} (hx : Finds s ⟨workDir, age⟩ x.world d c) (hD : D d) :
    Keeps s D I (perform tc workDir s (.open age) x).2 := by
  simp only [perform]
  cases ho : Program.open tc ⟨workDir, age⟩ s.source x.world with
  | ok p w => exact Program.holds_open_ok hs tidy hI.toOpens hI.quiet hx hD ho
  | error e w => exact Program.holds_open_error hs tidy hI.toOpens hI.quiet hx hD ho

/-- A world where the program of a site was never opened: there is a source, and a directory, or
one can be made, without a manifest. -/
structure Unopened (s : Site) (workDir : String) (w : World σ) (d : Disk) (source : ByteArray) :
    Prop extends s.Named where
  directory : Path.join workDir s.stem = s.directory
  file : w.disk.isFile s.source
  made : w.disk.makeDirectories s.directory = .ok d
  on : s.On d
  source : d.get? s.origin = some (.file source)
  blank : d.get? s.manifestPlace = none

theorem Unopened.finds {w : World σ} {d : Disk} {source : ByteArray}
    (h : Unopened s workDir w d source) (age : Option Nat) :
    Finds s ⟨workDir, age⟩ w d source :=
  ⟨h.directory, h.file, h.made, h.on, h.source⟩

theorem Unopened.of_disk {τ : Type} {w : World σ} {w' : World τ} {d : Disk} {source : ByteArray}
    (h : Unopened s workDir w d source) (same : w'.disk = w.disk) :
    Unopened s workDir w' d source :=
  ⟨h.toNamed, h.directory, same ▸ h.file, same ▸ h.made, h.on, h.source, h.blank⟩

/-- A site of which there is nothing but the source yet. -/
def soloSite : Site where
  directory := "build/bench"
  stem := "bench"
  source := "bench.ll"
  place := ["bench", "build"]
  origin := ["bench.ll"]
  scratch := ".obj0"

/-- The first flag, tried on the base. -/
def soloVariant : Variant := ⟨[0], by simp [maxActions]⟩

def soloSource : ByteArray := "; cost 10.0\n".toUTF8

def soloWorld : World Unit := ⟨⟨[(["bench.ll"], .file soloSource)], []⟩, 0, ()⟩

def soloDisk : Disk where
  nodes := [(["bench.ll"], .file soloSource), (["build"], .directory),
    (["bench", "build"], .directory)]
  home := []

theorem unopened_solo : Unopened soloSite "build" soloWorld soloDisk soloSource where
  extension := by decide +kernel
  stem := by decide +kernel
  here := by decide
  up := by decide
  manifest := by decide
  directory := by decide +kernel
  file := by decide +kernel
  made := by decide +kernel
  on := Site.on_of_isOn (by decide +kernel)
  source := by decide +kernel
  blank := by decide +kernel

/-- Opening again, when the source may be gone. -/
theorem keeps_reopen (hs : s.Named) (tidy : tc.Tidy C) (hI : Invariant C s D I) {age : Option Nat}
    (directory : Path.join workDir s.stem = s.directory) (h : Keeps s D I x) :
    Keeps s D I (perform tc workDir s (.open age) x).2 := by
  cases hfile : x.world.disk.isFile s.source with
  | true =>
    obtain ⟨c, hc⟩ := h.on.source.isFile_iff.1 hfile
    have made := Disk.makeDirectories_of_directory h.on.directory
    exact keeps_open hs tidy hI ⟨directory, hfile, made, h.on, hc⟩ (h.disk hI)
  | false =>
    have hmissing : Program.open tc ⟨workDir, age⟩ s.source x.world =
        .error (.invalidSource s.source .missing) x.world := Program.open_of_missing hs hfile
    simp only [perform, hmissing]
    exact ⟨h.on, h.disk hI⟩

theorem keeps_perform (hs : s.Named) (tidy : tc.Tidy C) (hI : Invariant C s D I)
    (directory : Path.join workDir s.stem = s.directory) (h : Keeps s D I x)
    (hevent : Harmless C s tc D I event x) : Keeps s D I (perform tc workDir s event x).2 := by
  have clear := hs.clear h.on
  cases event with
  | «open» age => exact keeps_reopen hs tidy hI directory h
  | build =>
    exact keeps_operate h fun p hp => Program.holds_build clear tidy hI.toLasting (h.of_some hp)
  | measure =>
    exact keeps_operate h fun p hp => Program.holds_measure clear tidy hI.toLasting (h.of_some hp)
  | reset =>
    exact keeps_operate h fun p hp =>
      Program.holds_reset clear tidy hI.toLasting hI.home (h.of_some hp)
  | step catalog action =>
    refine keeps_operate h fun p hp => ?_
    have hb := h.of_some hp
    refine Program.holds_step clear tidy hI.toLasting (fun flag cost b₁ hd hc => ?_) hb
    exact hevent p hp flag cost b₁ hd hc
      (Program.holds_standingCost clear tidy hI.toLasting.settling hb hc)
  | edit file content =>
    have on := h.on.edit clear file content
    unfold Keeps at h ⊢
    simp only [perform]
    split
    · rename_i p hp
      simp only [hp] at h
      obtain ⟨m, hp, hm⟩ := h.state
      exact ⟨on, h.home, m, hp, hevent.1 _ _ _ h.on hm⟩
    · rename_i hp
      simp only [hp] at h
      exact ⟨on, hevent.2 _ h.1 h.2⟩

/-- An invariant that no event of a run harms holds after the run. -/
theorem keeps_run (hs : s.Named) (tidy : tc.Tidy C) (hI : Invariant C s D I)
    (directory : Path.join workDir s.stem = s.directory) (h : Keeps s D I x)
    (hevents : Along tc workDir s (Harmless C s tc D I) events x) :
    Throughout tc workDir s (Keeps s D I) events x := by
  induction events generalizing x with
  | nil => exact h
  | cons event events ih =>
    exact ⟨h, ih (keeps_perform hs tidy hI directory h hevents.1) hevents.2⟩

end PassTuner.Session
