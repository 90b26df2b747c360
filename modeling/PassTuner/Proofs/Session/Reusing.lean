import Mathlib
import PassTuner.Proofs.Program.Stocking
import PassTuner.Proofs.Session.Invariants
import PassTuner.Proofs.Tool.Pure

/-!
# Variants that are built once

In a session that others leave alone, a variant that a program has asked for with success stays in
stock: whatever happens then, also when the step fails in which it was asked for, when programs are
closed and opened again, and when other variants are built or fail to be built, all look-ups of the
variant hit, and no tool is called for it any more. Nothing is assumed of the tools but that they
write their own outputs only, and nothing of the manifest that the first program finds.
-/

namespace PassTuner.Session

open Program (Finds Enduring enduring_stocked)

variable {σ : Type}

/-- A program asks for a variant in an event and has it, whatever the event comes to after that. The
bench is the one on which it has it. -/
inductive Obtains (tc : Toolchain σ) (workDir : String) (s : Site) :
    Event → Session σ → Variant → Bench σ → Prop where
  | base {x : Session σ} {age : Option Nat} {cache : Cache} {w : World σ} {a : Artifacts}
      {b : Bench σ} :
      Cache.open (Path.join workDir s.stem) s.stem s.source x.world = .ok cache w →
      Program.ensureBuilt tc .base none
        ⟨w, Program.fresh s.stem s.source cache ⟨workDir, age⟩⟩ = .ok a b →
      Obtains tc workDir s (.open age) x .base b
  | step {x : Session σ} {p : Program} {catalog : Catalog} {action : ActionId} {flag : String}
      {cost : Float} {v : Variant} {a : Artifacts} {b b' : Bench σ} :
      x.program = some p → catalog.describe action = .ok flag →
      Program.standingCost tc ⟨x.world, p⟩ = .ok cost b →
      b.program.lineage.extend? action = .ok v →
      Program.ensureBuilt tc v (some flag) b = .ok a b' →
      Obtains tc workDir s (.step catalog action) x v b'

/-- A program that is open has its base. -/
theorem exists_obtains_of_done {tc : Toolchain σ} {workDir : String} {s : Site} {x : Session σ}
    {age : Option Nat} (named : s.Named) (h : (perform tc workDir s (.open age) x).1 = .done) :
    ∃ b, Obtains tc workDir s (.open age) x .base b := by
  cases hopen : Program.open tc ⟨workDir, age⟩ s.source x.world with
  | error e w =>
    simp only [perform, hopen] at h
    cases h
  | ok p w =>
    obtain ⟨extension, file, -⟩ := Program.valid_of_open_ok hopen
    rw [Program.open_of_valid tc _ extension file named.stem] at hopen
    obtain ⟨cache, w₁, hcache, hstart⟩ := EStateM.of_bind_ok hopen
    unfold Program.starting at hstart
    split at hstart
    · rename_i b hb
      obtain ⟨_, b₁, hbuild, -⟩ := EStateM.of_bind_ok hb
      rw [Program.build_of_unbuilt tc rfl] at hbuild
      obtain ⟨a, b₂, hensure, -⟩ := EStateM.of_bind_ok hbuild
      exact ⟨b₂, .base hcache hensure⟩
    · cases hstart

/-- So does a step that is rewarded have its variant. -/
theorem exists_obtains_of_reward {tc : Toolchain σ} {workDir : String} {s : Site} {x : Session σ}
    {catalog : Catalog} {action : ActionId} {amount : Float}
    (h : (perform tc workDir s (.step catalog action) x).1 = .reward amount) :
    ∃ v b, Obtains tc workDir s (.step catalog action) x v b := by
  cases hp : x.program with
  | none =>
    rw [perform, operate_of_none hp] at h
    cases h
  | some p =>
    simp only [perform, operate, hp] at h
    cases hstep : Program.step tc catalog action ⟨x.world, p⟩ with
    | error e b =>
      rw [EStateM.bind_of_error hstep] at h
      cases h
    | ok reward b =>
      cases hd : catalog.describe action with
      | error fault =>
        rw [Program.step_of_unknown tc hd] at hstep
        cases hstep
      | ok flag =>
        rw [Program.step_of_known tc hd] at hstep
        obtain ⟨cost, b₁, hcost, hadvance⟩ := EStateM.of_bind_ok hstep
        obtain ⟨v, a, b₂, _, _, hv, hensure, -⟩ := Program.of_advance_ok hadvance
        exact ⟨v, b₂, .step hp hd hcost hv hensure⟩

/-- Others leave the files of a site alone, and the ways to them, and use the tools for other
things. -/
structure Spares (s : Site) (w w' : World (Logged σ)) : Prop where
  before : s.On w.disk
  after : s.On w'.disk
  files : ∀ p, s.Owns p → w'.disk.get? p = w.disk.get? p
  calls : ToolCall.Added (fun call => ∀ v, ¬call.For s v) w.tools.log w'.tools.log

/-- Something happens in a session, or elsewhere. -/
inductive Turn (tc : Toolchain σ) (workDir : String) (s : Site) :
    Session (Logged σ) → Session (Logged σ) → Prop where
  | event {x : Session (Logged σ)} (event : Event) (spares : event.SparesFiles) :
      Turn tc workDir s x (perform tc.logged workDir s event x).2
  | elsewhere {x : Session (Logged σ)} {w : World (Logged σ)} (spares : Spares s x.world w) :
      Turn tc workDir s x { x with world := w }

/-- What a session may have become after a while. -/
abbrev Becomes (tc : Toolchain σ) (workDir : String) (s : Site) :
    Session (Logged σ) → Session (Logged σ) → Prop :=
  Relation.ReflTransGen (Turn tc workDir s)

/-- Whoever looks a variant up finds it: a program that is opened now, the program that is open, and
a step of that program when it comes to it. -/
structure Hits (tc : Toolchain σ) (s : Site) (v : Variant) (x : Session σ) : Prop where
  opening : s.lookUp x.world.disk v = .ok (some (s.artifacts v))
  asking : ∀ p, x.program = some p →
    p.cache.lookup x.world.disk v = .ok (some (s.artifacts v))
  stepping : ∀ p cost b, x.program = some p → Program.standingCost tc ⟨x.world, p⟩ = .ok cost b →
    b.program.cache.lookup b.world.disk v = .ok (some (s.artifacts v))

variable {s : Site} {tc : Toolchain σ} {workDir : String} {source : ByteArray}
  {K : Variant → Prop} {log : List ToolCall} {x y z : Session (Logged σ)} {event : Event}
  {v : Variant} {b : Bench (Logged σ)} {w : World (Logged σ)} {d : Disk}

/-- The variants are in stock, for the open program if there is one. -/
structure Stocked (s : Site) (source : ByteArray) (K : Variant → Prop) (log : List ToolCall)
    (x : Session (Logged σ)) : Prop where
  world : x.world.Stocked s source K log
  program : ∀ p, x.program = some p → Bench.Stocked s source K log ⟨x.world, p⟩

theorem stocked_of_bench (h : b.Stocked s source K log) :
    Stocked s source K log ⟨b.world, some b.program⟩ := by
  refine ⟨h.toStocked, fun p hp => ?_⟩
  cases hp
  exact h

theorem Stocked.hits (h : Stocked s source (· = v) log x) (confined : tc.Confined)
    (named : s.Named) : Hits tc.logged s v x := by
  have kept : Enduring tc.logged (Bench.Stocked s source (· = v) log) :=
    enduring_stocked (named.clear h.world.on) confined
  refine ⟨h.world.hits v rfl, fun p hp => ?_, fun p cost b hp hcost => ?_⟩
  · rw [(h.program p hp).lookup_eq]
    exact h.world.hits v rfl
  · have hb := kept.standingCost.of_ok (h.program p hp) hcost
    rw [hb.lookup_eq]
    exact hb.hits v rfl

theorem becomes_run (events : List Event) (spares : ∀ event ∈ events, event.SparesFiles)
    (x : Session (Logged σ)) : Becomes tc workDir s x (run tc.logged workDir s events x) := by
  induction events generalizing x with
  | nil => exact .refl
  | cons event events ih =>
    exact (Relation.ReflTransGen.single (.event event (spares event List.mem_cons_self))).trans
      (ih (fun other hother => spares other (List.mem_cons_of_mem _ hother)) _)

/-! ## Working on a program -/

theorem stocked_operate {α : Type} {work : Work (Logged σ) α} {answer : α → Answer}
    (h : Stocked s source K log x) (kept : PassTuner.Keeps (Bench.Stocked s source K log) work) :
    Stocked s source K log (x.operate (work >>= fun a => pure (answer a))).2 := by
  cases hp : x.program with
  | none =>
    rw [operate_of_none hp]
    exact h
  | some p =>
    rw [operate_of_some hp]
    exact stocked_of_bench (Work.after_of_keeps kept (h.program p hp))

/-! ## Opening a program -/

/-- A program can be opened, and has the variants in stock when it is. -/
def Opens (s : Site) (workDir : String) (source : ByteArray) (K : Variant → Prop)
    (log : List ToolCall) (w : World (Logged σ)) : Prop :=
  ∃ d, Finds s ⟨workDir, none⟩ w d source ∧
    World.Stocked s source K log { w with disk := d }

theorem opens_of_stocked (directory : Path.join workDir s.stem = s.directory)
    (h : w.Stocked s source K log) : Opens s workDir source K log w :=
  ⟨w.disk, ⟨directory, h.on.source.isFile_iff.2 ⟨source, h.origin⟩,
    Disk.makeDirectories_of_directory h.on.directory, h.on, h.origin⟩, h⟩

/-- What holds after the base was measured holds of the session. -/
theorem stocked_of_measure {age : Option Nat} {m : Manifest} (named : s.Named)
    (finds : Finds s ⟨workDir, age⟩ x.world d source)
    (hm : Cache.currentManifest d s.directory (Digest.ofBytes source) = .ok m)
    (h : Bench.Stocked s source K log ((Program.measure tc.logged).after
      ⟨{ x.world with disk := d }, Program.fresh s.stem s.source (s.cache m) ⟨workDir, age⟩⟩)) :
    Stocked s source K log (perform tc.logged workDir s (.open age) x).2 := by
  have hopen := Program.open_of_finds named finds tc.logged
  simp only [hm] at hopen
  simp only [perform, hopen]
  cases hstart : Program.starting (Program.fresh s.stem s.source (s.cache m) ⟨workDir, age⟩)
      (Program.measure tc.logged >>= fun _ => pure ()) { x.world with disk := d } with
  | ok p w =>
    obtain ⟨a, b, hmeasure, rfl⟩ := Program.starting_ok hstart
    rw [Work.after_of_ok hmeasure] at h
    exact stocked_of_bench h
  | error e w =>
    obtain ⟨b, hmeasure, rfl⟩ := Program.starting_error hstart
    rw [Work.after_of_error hmeasure] at h
    exact ⟨h.toStocked, fun p hp => by cases hp⟩

theorem stocked_open (named : s.Named) (confined : tc.Confined)
    (h : Opens s workDir source K log x.world) (age : Option Nat) :
    Stocked s source K log (perform tc.logged workDir s (.open age) x).2 := by
  obtain ⟨d, finds, hd⟩ := h
  have finds' : Finds s ⟨workDir, age⟩ x.world d source :=
    ⟨finds.directory, finds.file, finds.made, finds.on, finds.source⟩
  cases hm : Cache.currentManifest d s.directory (Digest.ofBytes source) with
  | error e =>
    have hopen := Program.open_of_finds named finds' tc.logged
    simp only [hm] at hopen
    simp only [perform, hopen]
    exact ⟨hd, fun p hp => by cases hp⟩
  | ok m =>
    have kept : Enduring tc.logged (Bench.Stocked s source K log) :=
      enduring_stocked (named.clear finds.on) confined
    exact stocked_of_measure named finds' hm
      (Work.after_of_keeps kept.measure ⟨hd, m, ⟨rfl, rfl⟩, hm⟩)

/-! ## What happens in a session -/

theorem Spares.stocked (hs : s.Clear) (h : Spares s x.world w)
    (hx : Stocked s source K log x) : Stocked s source K log { x with world := w } := by
  have hw := hx.world.move hs h.after h.files (h.calls.mono fun call hcall k _ => hcall k)
  refine ⟨hw, fun p hp => ⟨hw, ?_⟩⟩
  obtain ⟨m, hat, hm⟩ := (hx.program p hp).manifest
  refine ⟨m, hat, ?_⟩
  have hfile := h.files _ .manifest
  exact (Site.currentManifest_of_files hx.world.on.toLaid h.after.toLaid hfile _).trans hm

/-- What is in stock stays in stock. -/
theorem Stocked.turn (named : s.Named) (confined : tc.Confined)
    (directory : Path.join workDir s.stem = s.directory) (h : Stocked s source K log x)
    (turn : Turn tc workDir s x y) : Stocked s source K log y := by
  have kept : Enduring tc.logged (Bench.Stocked s source K log) :=
    enduring_stocked (named.clear h.world.on) confined
  cases turn with
  | elsewhere spares => exact spares.stocked (named.clear h.world.on) h
  | event event spares =>
    cases event with
    | «open» age => exact stocked_open named confined (opens_of_stocked directory h.world) age
    | build => exact stocked_operate h kept.build
    | measure => exact stocked_operate h kept.measure
    | reset => exact stocked_operate h kept.reset
    | step catalog action => exact stocked_operate h (kept.step catalog action)
    | edit file content => exact spares.elim

theorem Stocked.becomes (named : s.Named) (confined : tc.Confined)
    (directory : Path.join workDir s.stem = s.directory) (h : Stocked s source K log x)
    (becomes : Becomes tc workDir s x y) : Stocked s source K log y := by
  induction becomes with
  | refl => exact h
  | tail _ turn ih => exact ih.turn named confined directory turn

/-- A session in which nothing was opened yet, or one with nothing in stock. -/
def Starts (s : Site) (workDir : String) (source : ByteArray) (log : List ToolCall)
    (x : Session (Logged σ)) : Prop :=
  x.program = none ∧ Opens s workDir source (fun _ => False) log x.world ∨
    Stocked s source (fun _ => False) log x

theorem Starts.opens (directory : Path.join workDir s.stem = s.directory)
    (h : Starts s workDir source log x) :
    Opens s workDir source (fun _ => False) log x.world := by
  rcases h with ⟨_, h⟩ | h
  · exact h
  · exact opens_of_stocked directory h.world

theorem Starts.turn (named : s.Named) (confined : tc.Confined)
    (directory : Path.join workDir s.stem = s.directory) (h : Starts s workDir source log x)
    (turn : Turn tc workDir s x y) : Starts s workDir source log y := by
  rcases h with ⟨hp, hopens⟩ | h
  · cases turn with
    | event event spares =>
      cases event with
      | «open» age => exact .inr (stocked_open named confined hopens age)
      | edit file content => exact spares.elim
      | _ =>
        simp only [perform, operate_of_none hp]
        exact .inl ⟨hp, hopens⟩
    | elsewhere spares =>
      obtain ⟨d, finds, hd⟩ := hopens
      -- there is a directory already, so none is made
      have hmade := finds.made
      rw [Disk.makeDirectories_of_directory spares.before.directory] at hmade
      cases hmade
      refine .inr (spares.stocked (named.clear spares.before) ⟨hd, fun p hsome => ?_⟩)
      rw [hp] at hsome
      cases hsome
  · exact .inr (h.turn named confined directory turn)

theorem Starts.becomes (named : s.Named) (confined : tc.Confined)
    (directory : Path.join workDir s.stem = s.directory) (h : Starts s workDir source log x)
    (becomes : Becomes tc workDir s x y) : Starts s workDir source log y := by
  induction becomes with
  | refl => exact h
  | tail _ turn ih => exact ih.turn named confined directory turn

/-- What was asked for with success is in stock after the event, and no tool was called for it
since. -/
theorem Starts.obtains (named : s.Named) (confined : tc.Confined)
    (directory : Path.join workDir s.stem = s.directory) (h : Starts s workDir source log x)
    (obtains : Obtains tc.logged workDir s event x v b) :
    Stocked s source (· = v) b.world.tools.log (perform tc.logged workDir s event x).2 := by
  cases obtains with
  | @base _ age cache w a _ opening asked =>
    obtain ⟨d, finds, hd⟩ := h.opens directory
    have clear := named.clear finds.on
    have hopen := Program.cacheOpen_of_read (w := x.world) s.stem finds.made
      (finds.on.source.read_of_file finds.source)
    rw [directory, hopen] at opening
    cases hm : Cache.currentManifest d s.directory (Digest.ofBytes source) with
    | error e => simp [hm] at opening
    | ok m =>
      simp only [hm] at opening
      cases opening
      have hb₀ : Bench.Stocked s source (fun _ => False) log ⟨{ x.world with disk := d },
          Program.fresh s.stem s.source (s.cache m) ⟨workDir, age⟩⟩ := ⟨hd, m, ⟨rfl, rfl⟩, hm⟩
      have unflagged : (none : Option String).isSome → Variant.base ≠ .base := nofun
      have hb := (Program.yields_ensureBuilt clear confined hb₀ unflagged).of_ok asked
      have kept : Enduring tc.logged (Bench.Stocked s source (· = .base) b.world.tools.log) :=
        enduring_stocked clear confined
      exact stocked_of_measure named
        ⟨finds.directory, finds.file, finds.made, finds.on, finds.source⟩ hm
        (kept.after_measure rfl asked (hb.1.restock hb.2))
  | @step _ p catalog action flag cost _ a b₁ _ hp hd ready hv asked =>
    have hx : Stocked s source (fun _ => False) log x := by
      rcases h with ⟨hnone, _⟩ | h
      · rw [hp] at hnone
        cases hnone
      · exact h
    have clear := named.clear hx.world.on
    have kept : Enduring tc.logged (Bench.Stocked s source (fun _ => False) log) :=
      enduring_stocked clear confined
    have hb₁ := kept.standingCost.of_ok (hx.program p hp) ready
    have hb := (Program.yields_ensureBuilt clear confined hb₁
      fun _ => Variant.ne_base_of_extend? hv).of_ok asked
    have kept' : Enduring tc.logged (Bench.Stocked s source (· = v) b.world.tools.log) :=
      enduring_stocked clear confined
    have hstep := kept'.after_step hd ready hv asked (hb.1.restock hb.2)
    simp only [perform]
    rw [operate_of_some hp]
    exact stocked_of_bench hstep

/-- Each variant is built once. When a program has asked for one with success, in a step or as the
base when it was opened, the variant is found by whoever looks it up from then on, and no tool is
called for it again. -/
theorem variants_built_once (named : s.Named) (confined : tc.Confined)
    (finds : Finds s ⟨workDir, none⟩ w d source)
    (before : Becomes tc workDir s ⟨w, none⟩ x)
    (obtains : Obtains tc.logged workDir s event x v b)
    (after : Becomes tc workDir s (perform tc.logged workDir s event x).2 z) :
    Hits tc.logged s v z ∧
      ToolCall.Added (fun call => ¬call.For s v) b.world.tools.log z.world.tools.log := by
  have start : Starts s workDir source w.tools.log ⟨w, none⟩ :=
    .inl ⟨rfl, d, finds, ⟨finds.on, finds.source, nofun, .refl _ _⟩⟩
  have obtained := (start.becomes named confined finds.directory before).obtains named confined
    finds.directory obtains
  have stocked := obtained.becomes named confined finds.directory after
  exact ⟨stocked.hits confined named, stocked.world.calls.mono fun call hcall => hcall v rfl⟩

/-! A variant that cannot be measured, so that every step that leads to it fails. -/

/-- Tools that make every program into one that breaks under the profiler. -/
def breaking : PureTools where
  transform _ _ := .ok "broken\n".toUTF8
  compile := .ok
  link := .ok
  measure x := .ok (if x = soloSource then .ok "SYMVEC1 5.0 0SYMVEC" else .exited 1 "" "")

abbrev breakingTools : Toolchain (Logged Unit) := breaking.toolchain.logged

def freshWorld : World (Logged Unit) := ⟨soloWorld.disk, 0, ⟨(), []⟩⟩

theorem finds_fresh : Finds soloSite ⟨"build", none⟩ freshWorld soloDisk soloSource where
  directory := unopened_solo.directory
  file := unopened_solo.file
  made := unopened_solo.made
  on := unopened_solo.on
  source := unopened_solo.source

/-- The session with the program open. -/
def openedSolo : Session (Logged Unit) :=
  run breakingTools "build" soloSite [.open none] ⟨freshWorld, none⟩

/-- The session after a step to the variant. -/
def brokenSolo : Session (Logged Unit) :=
  (perform breakingTools "build" soloSite (.step Program.soloCatalog 0) openedSolo).2

/-- The same step again, and then the program is opened again. -/
def retried : List Event := [.step Program.soloCatalog 0, .open none]

def isFailed : Answer → Bool
  | .failed _ => true
  | _ => false

theorem isFailed_openedSolo : isFailed (perform breakingTools "build" soloSite
    (.step Program.soloCatalog 0) openedSolo).1 = true := by decide +kernel

/-- Whether the first step of a program gets as far as to have its variant. -/
def hasVariant (p : Program) : Bool :=
  p.lineage == .base && match p.measuredCost?, Program.ensureBuilt breakingTools soloVariant
      (some "--a") ⟨openedSolo.world, p⟩ with
    | some _, .ok _ _ => true
    | _, _ => false

theorem hasVariant_openedSolo : openedSolo.program.any hasVariant = true := by decide +kernel

theorem obtains_openedSolo : ∃ b, Obtains breakingTools "build" soloSite
    (.step Program.soloCatalog 0) openedSolo soloVariant b := by
  obtain ⟨p, hp, hv⟩ := (Option.any_eq_true ..).1 hasVariant_openedSolo
  unfold hasVariant at hv
  rw [Bool.and_eq_true, beq_iff_eq] at hv
  obtain ⟨hlineage, hv⟩ := hv
  split at hv
  · rename_i cost a b hcost hensure
    have hstep : p.lineage.extend? 0 = .ok soloVariant := by
      rw [hlineage]
      rfl
    exact ⟨b, .step hp rfl (Program.standingCost_of_measured _ hcost) hstep hensure⟩
  · cases hv

/-- The step fails, but its variant was built for good. -/
theorem variants_built_once_unmeasured :
    isFailed (perform breakingTools "build" soloSite (.step Program.soloCatalog 0) openedSolo).1 ∧
    ∃ b,
      Obtains breakingTools "build" soloSite
        (.step Program.soloCatalog 0) openedSolo soloVariant b ∧
      Hits breakingTools soloSite soloVariant
        (run breakingTools "build" soloSite retried brokenSolo) ∧
      ToolCall.Added (fun call => ¬call.For soloSite soloVariant) b.world.tools.log
        (run breakingTools "build" soloSite retried brokenSolo).world.tools.log := by
  obtain ⟨b, hb⟩ := obtains_openedSolo
  have before : Becomes breaking.toolchain "build" soloSite ⟨freshWorld, none⟩ openedSolo :=
    becomes_run [.open none] (by simp [Event.SparesFiles]) _
  have after : Becomes breaking.toolchain "build" soloSite brokenSolo
      (run breakingTools "build" soloSite retried brokenSolo) :=
    becomes_run retried (by simp [retried, Event.SparesFiles]) brokenSolo
  exact ⟨isFailed_openedSolo, b, hb, variants_built_once unopened_solo.toNamed
    breaking.tidy.confined finds_fresh before hb after⟩

end PassTuner.Session
