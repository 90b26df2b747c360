import PassTuner.Proofs.Number.Zeros
import PassTuner.Proofs.Session.Reported
import PassTuner.Proofs.Tool.Simulated

/-!
# What programs come to in a simulation

With a simulated toolchain all that passes do to a program can be told from their names. Main
statement: through any sessions, the files of the lineage are the closed source with a line for
every pass behind it, and the measurement of the lineage shows one feature more for every pass, the
length of the text, and the cost of the base times the factors of the passes, in order. The catalogs
of the steps have to agree on the passes that were tried.
-/

namespace PassTuner

theorem of_toOption {ε α : Type} {r : Except ε α} {a : α} (h : r.toOption = some a) :
    r = .ok a := by
  cases r with
  | error e => cases h
  | ok a => cases h; rfl

/-- Trials of steps that take their actions from one catalog agree with it. -/
theorem agrees_of_uses {σ : Type} {tc : Toolchain σ} {workDir : String} {s : Site}
    {catalog : Catalog} {events : List Event} {x : Session σ}
    (uses : ∀ event ∈ events, event.Uses catalog) :
    Agrees catalog (Session.trials tc workDir s events x) := by
  induction events generalizing x with
  | nil => exact fun _ _ _ _ => nofun
  | cons event events ih =>
    obtain ⟨first, others⟩ := List.forall_mem_cons.1 uses
    intro u v action flag mem hv
    rcases List.mem_append.1 mem with now | later
    · cases event with
      | step used tried =>
        obtain rfl : used = catalog := first
        simp only [Session.trial?, Option.mem_toList] at now
        obtain ⟨p, _, now⟩ := Option.bind_eq_some_iff.1 now
        obtain ⟨flag', described, now⟩ := Option.bind_eq_some_iff.1 now
        obtain ⟨v', extended, now⟩ := Option.bind_eq_some_iff.1 now
        cases now
        have extended : p.lineage.extend? tried = .ok v := of_toOption extended
        have ends :=
          (Variant.actions_of_extend? hv).symm.trans (Variant.actions_of_extend? extended)
        obtain rfl : action = tried := (List.append_inj' ends rfl).2 |> List.singleton_inj.1
        exact of_toOption described
      | _ => cases now
    · exact ih others u v action flag later hv

namespace Simulation

variable {S : Simulation} {H : Variant → String → Prop} {text : String} {flags : List String}
  {v : Variant} {a : Measurement}

/-- The feature that is read of a count: the count itself, as far as a double holds it. -/
def told (count : ℕ) : ℤ := Observation.feature (nearestFloat false count 0)

theorem told_of_small {count : ℕ} (small : count < 2 ^ 53) : told count = count :=
  Observation.feature_nat small

/-- What a measurement says of a text. -/
def Tells (S : Simulation) (text : String) (a : Measurement) : Prop :=
  a.state = [told (appliedLines text.toList).length, told text.utf8ByteSize] ∧
  ∃ cost, S.cost text.toList = .ok cost ∧ a.cost = 0 + cost + 0

theorem tells_of_reported (h : Reported S.toolchain S.conduct H text.toUTF8 v a) :
    ∃ flags, Tried H v flags ∧ S.Tells (passed text flags) a := by
  obtain ⟨flags, c, e, o, record, htried, hderived, hassembled, hanswer, hrecord,
    hstate, hcost⟩ := h
  have succeeded : o.succeeded := by
    unfold Program.readMeasurement at hrecord
    split at hrecord
    · assumption
    · cases hrecord
  obtain ⟨text', hcontent, rfl⟩ := hanswer o rfl succeeded
  rw [assembled_copy hassembled, derived_passed hderived] at hcontent
  obtain rfl := String.toByteArray_inj.1 hcontent
  obtain ⟨cost, known, state, paid⟩ := read_measurement hrecord
  exact ⟨flags, htried, hstate.trans state, cost, known, hcost.trans paid⟩

theorem length_le_utf8ByteSize (characters : List Char) :
    characters.length ≤ (String.ofList characters).utf8ByteSize := by
  induction characters with
  | nil => exact Nat.zero_le _
  | cons c rest ih =>
    rw [String.ofList_cons, String.utf8ByteSize_append, String.utf8ByteSize_singleton,
      List.length_cons]
    have := c.utf8Size_pos
    omega

/-- There are no more lines of passes than bytes. -/
theorem length_appliedLines_le (text : String) :
    (appliedLines text.toList).length ≤ text.utf8ByteSize := by
  have bytes := length_le_utf8ByteSize text.toList
  rw [String.ofList_toList] at bytes
  calc (appliedLines text.toList).length
      ≤ (Text.lines text.toList).length := List.length_filterMap_le _ _
    _ ≤ text.toList.length := Text.length_lines_le _
    _ ≤ text.utf8ByteSize := bytes

/-- Passes multiply a cost that is none by factors to one that is none either. -/
theorem Tells.cost_passed {base current valid : Measurement} (named : ∀ flag ∈ flags, Named flag)
    (bare : text.toList.getLast? ≠ some '\r') (before : S.Tells text base)
    (after : S.Tells (passed text flags) current) (paid : S.Tells (passed text flags) valid)
    (hvalid : Cost.isValid valid.cost) :
    current.cost = flags.foldl (fun cost flag => cost * S.passFactor text flag) base.cost := by
  obtain ⟨_, cost, known, hbase⟩ := before
  obtain ⟨_, cost₁, known₁, hcurrent⟩ := after
  obtain ⟨_, cost₂, known₂, hpaid⟩ := paid
  have product := Simulation.cost_passed named bare known
  rw [product] at known₁ known₂
  cases known₁
  cases known₂
  rw [hpaid] at hvalid
  obtain ⟨full, exact⟩ := Doubles.of_isValid_add_zeros hvalid
  have solid : ¬Doubles.Void cost := fun void => full (void.foldl (S.passFactor text) flags)
  rw [hcurrent, exact, hbase, Doubles.add_zeros solid]

theorem le_closed (text : String) : text.utf8ByteSize ≤ (closed text).utf8ByteSize := by
  rw [closed]
  split
  · exact le_rfl
  · rw [String.utf8ByteSize_append]
    exact Nat.le_add_right _ _

theorem passed_of_ne_nil (text : String) (passes : flags ≠ []) :
    passed text flags = closed text ++ passLines flags := by
  cases flags with
  | nil => exact absurd rfl passes
  | cons flag flags => exact passed_cons text flag flags

/-- Passes only make a text longer. -/
theorem utf8ByteSize_le_passed (text : String) (passes : flags ≠ []) :
    text.utf8ByteSize ≤ (passed text flags).utf8ByteSize := by
  rw [passed_of_ne_nil text passes, String.utf8ByteSize_append]
  exact (le_closed text).trans (Nat.le_add_right _ _)

/-- A text that passes were applied to has a byte at least for each of their lines. -/
theorem count_le_passed (named : ∀ flag ∈ flags, Named flag)
    (bare : text.toList.getLast? ≠ some '\r') :
    (appliedLines text.toList).length + flags.length ≤ (passed text flags).utf8ByteSize := by
  have count := length_appliedLines_le (passed text flags)
  rwa [appliedLines_passed named bare, List.length_append] at count

variable {s : Site} {workDir : String} {w w' : World Nat} {d : Disk} {age : Option Nat}
  {events : List Event} {p : Program} {catalog : Catalog}

/-- The files of a lineage are the source with a line for every pass, and its measurement shows the
number of passes, the length of the text, and the cost times the factors. Both counts are told as
doubles have them, which is exactly below 2 ^ 53. -/
theorem passes_show (h : Session.Unopened s workDir w d text.toUTF8)
    (bare : text.toList.getLast? ≠ some '\r') (spare : ∀ event ∈ events, event.SparesFiles)
    (hrun : Session.run S.toolchain workDir s (.open age :: events) ⟨w, none⟩ = ⟨w', some p⟩)
    (agrees : Agrees catalog
      (Session.trials S.toolchain workDir s (.open age :: events) ⟨w, none⟩))
    (hflags : catalog.describeAll p.lineage.actions = .ok flags) (passes : flags ≠ [])
    (named : ∀ flag ∈ flags, Named flag) :
    let made := closed text ++ passLines flags
    let files := p.cache.artifacts p.lineage
    w'.disk.read files.ir = .ok made.toUTF8 ∧ w'.disk.read files.executable = .ok made.toUTF8 ∧
    ∃ (base current : Measurement) (count : ℕ), p.base = some base ∧ p.current = some current ∧
      current.cost = flags.foldl (fun cost flag => cost * S.passFactor text flag) base.cost ∧
      base.state = [told count, told text.utf8ByteSize] ∧
      current.state = [told (count + flags.length), told made.utf8ByteSize] ∧
      (made.utf8ByteSize < 2 ^ 53 → base.state = [(count : ℤ), (text.utf8ByteSize : ℤ)] ∧
        current.state = [(count + flags.length : ℤ), (made.utf8ByteSize : ℤ)]) := by
  intro made files
  let H : Variant → String → Prop := fun v flag =>
    (v, flag) ∈ Session.trials S.toolchain workDir s (.open age :: events) ⟨w, none⟩
  have hmade : passed text flags = made := passed_of_ne_nil text passes
  -- Whatever the lineage was tried with are the flags of the catalog.
  have same {flags' : List String} (tried : Tried H p.lineage flags') : flags' = flags :=
    Except.ok.inj ((tried.describeAll agrees).symm.trans hflags)
  have same_base {flags' : List String} (tried : Tried H .base flags') : flags' = [] :=
    Except.ok.inj ((tried.describeAll agrees).symm.trans catalog.describeAll_base)
  have away : p.lineage ≠ .base := by
    intro home
    rw [home, catalog.describeAll_base] at hflags
    exact passes (Except.ok.inj hflags).symm
  have kept := keeps_sessions (H := H) h S.tidy age spare fun _ _ tried => tried
  have supported : Supported (Reported S.toolchain S.conduct H text.toUTF8) p :=
    supported_of_sessions h S.tidy age spare (fun _ _ tried => tried) (by rw [hrun])
  rw [hrun] at kept
  have holds := kept.of_some rfl
  obtain ⟨m, hat, settled⟩ := holds.state
  obtain ⟨_, c, e, triedFiles, derived, assembled, hc, he⟩ :=
    settled.kept.reads (h.toNamed.clear holds.on) holds.on settled.lineage
  obtain ⟨base, hbase, ofBase⟩ := supported.base
  obtain ⟨measured, valid, ofValid, hvalid⟩ := supported.paid away
  obtain ⟨current, hcurrent⟩ := Option.isSome_iff_exists.1 measured
  obtain ⟨_, triedBase, tellsBase⟩ := tells_of_reported ofBase
  obtain ⟨_, triedCurrent, tellsCurrent⟩ := tells_of_reported (supported.current _ hcurrent)
  obtain ⟨_, triedValid, tellsValid⟩ := tells_of_reported ofValid
  cases same triedFiles
  cases same_base triedBase
  change S.Tells text base at tellsBase
  cases same triedCurrent
  cases same triedValid
  have hcode : c = made.toUTF8 := (derived_passed derived).trans (congrArg _ hmade)
  have hcopy : e = made.toUTF8 := (assembled_copy assembled).trans hcode
  have hfiles : files = s.artifacts p.lineage := by
    change p.cache.artifacts p.lineage = _
    rw [hat.cache, Site.artifacts_cache]
  have hstate : current.state =
      [told ((appliedLines text.toList).length + flags.length), told made.utf8ByteSize] := by
    rw [tellsCurrent.1, appliedLines_passed named bare, List.length_append, hmade]
  refine ⟨?_, ?_, base, current, (appliedLines text.toList).length, hbase, hcurrent,
    tellsBase.cost_passed named bare tellsCurrent tellsValid hvalid, tellsBase.1, hstate,
    fun small => ?_⟩
  · rw [hfiles, ← hcode]
    exact hc
  · rw [hfiles, ← hcopy]
    exact he
  · have shorter : text.utf8ByteSize ≤ made.utf8ByteSize :=
      hmade ▸ utf8ByteSize_le_passed text passes
    have lines : (appliedLines text.toList).length + flags.length ≤ made.utf8ByteSize :=
      hmade ▸ count_le_passed named bare
    have exactly (n : ℕ) (le : n ≤ made.utf8ByteSize) : told n = n :=
      told_of_small (le.trans_lt small)
    rw [tellsBase.1, hstate, exactly _ ((Nat.le_add_right _ _).trans lines), exactly _ shorter,
      exactly _ lines, exactly _ le_rfl, Nat.cast_add]
    exact ⟨rfl, rfl⟩

end Simulation

/-! ## Opening again -/

namespace Session

variable {σ : Type} {tc : Toolchain σ} {C : Conduct} {s : Site} {workDir : String} {w : World σ}
  {d : Disk} {source : ByteArray} {events : List Event} {b b' : Bench σ}

/-- The program of a session after it was opened once more with the cache that it had. -/
def reopened? (tc : Toolchain σ) (workDir : String) (s : Site) (x : Session σ) :
    Option (Bench σ) := do
  let lender ← x.program
  match Program.starting (Program.fresh s.stem s.source lender.cache ⟨workDir, none⟩)
    (Program.measure tc >>= fun _ => pure ()) x.world with
  | .error _ _ => none
  | .ok p w => some ⟨w, p⟩

theorem run_of_reopened? (h : Unopened s workDir w d source) (tidy : tc.Tidy C) (age : Option Nat)
    (spare : ∀ event ∈ events, event.SparesFiles)
    (hb : reopened? tc workDir s (run tc workDir s (.open age :: events) ⟨w, none⟩) = some b) :
    run tc workDir s (.open age :: (events ++ [.open none])) ⟨w, none⟩ =
      ⟨b.world, some b.program⟩ := by
  obtain ⟨lender, hlender, hb⟩ := Option.bind_eq_some_iff.1 hb
  split at hb
  · cases hb
  · rename_i hstart
    cases hb
    exact run_reopened h tidy age none spare hlender hstart

theorem perform_step_of_ok {catalog : Catalog} {action : ActionId} {reward : Float}
    (h : Program.step tc catalog action b = .ok reward b') :
    (perform tc workDir s (.step catalog action) ⟨b.world, some b.program⟩).2 =
      ⟨b'.world, some b'.program⟩ := by
  simp only [perform]
  rw [operate_of_some rfl, Work.after_of_ok h]

end Session

namespace Simulation

/-! A cache that was made with one catalog, and a session that goes on with another. -/

/-- Two passes that make programs cheaper. -/
def speeding : Simulation := ⟨[], [("--a", 0.5), ("--b", 0.25)], [], []⟩

def speedingWorld : World Nat := ⟨Session.soloWorld.disk, 0, 0⟩

theorem unopened_speeding : Session.Unopened Session.soloSite "build" speedingWorld
    Session.soloDisk "; cost 10.0\n".toUTF8 :=
  Session.unopened_solo.of_disk rfl

/-- A session with the first catalog. -/
def sped : Session Nat :=
  Session.run speeding.toolchain "build" Session.soloSite (.open none :: lent) ⟨speedingWorld, none⟩

/-- Whether the code of the only action has the line of the first catalog's pass, also after a step
with the second catalog. -/
def keepsFirstPass (x : Session Nat) : Bool :=
  x.program.any (fun p => decide (p.lineage.actions = [0])) &&
    (Session.reopened? speeding.toolchain "build" Session.soloSite x).any fun b =>
      match Program.step speeding.toolchain secondCatalog 0 b with
      | .ok _ b => decide (b.program.lineage.actions = [0]) &&
          b.world.disk.read (b.program.cache.artifacts b.program.lineage).ir ==
            .ok "; cost 10.0\n; applied --a\n".toUTF8
      | .error _ _ => false

theorem keepsFirstPass_sped : keepsFirstPass sped = true := by decide +kernel

theorem exists_sped : ∃ (w : World Nat) (p : Program),
    Session.run speeding.toolchain "build" Session.soloSite (.open none :: lent)
      ⟨speedingWorld, none⟩ = ⟨w, some p⟩ ∧ p.lineage.actions = [0] := by
  have first := (Bool.and_eq_true ..).mp keepsFirstPass_sped |>.1
  obtain ⟨p, hp, lineage⟩ := (Option.any_eq_true ..).1 first
  unfold sped at hp
  generalize Session.run speeding.toolchain "build" Session.soloSite (.open none :: lent)
    ⟨speedingWorld, none⟩ = x at hp
  obtain ⟨w, _⟩ := x
  cases hp
  exact ⟨w, p, rfl, of_decide_eq_true lineage⟩

theorem passes_show_sped : ∃ (w : World Nat) (p : Program) (base current : Measurement),
    Session.run speeding.toolchain "build" Session.soloSite (.open none :: lent)
      ⟨speedingWorld, none⟩ = ⟨w, some p⟩ ∧ p.base = some base ∧ p.current = some current ∧
    current.cost = base.cost * speeding.passFactor "; cost 10.0\n" "--a" ∧
    w.disk.read (p.cache.artifacts p.lineage).executable =
      .ok "; cost 10.0\n; applied --a\n".toUTF8 := by
  obtain ⟨w, p, hrun, lineage⟩ := exists_sped
  have described : Program.soloCatalog.describeAll p.lineage.actions = .ok ["--a"] := by
    rw [lineage]
    decide
  have named : ∀ flag ∈ ["--a"], Named flag := by
    intro flag hflag
    rw [List.mem_singleton.1 hflag]
    exact Text.word_of_all (by decide) (by decide)
  have spare : ∀ event ∈ lent, event.SparesFiles := by simp [lent, Event.SparesFiles]
  have uses : ∀ event ∈ .open none :: lent, event.Uses Program.soloCatalog := by
    simp [lent, Event.Uses]
  obtain ⟨-, executable, base, current, -, hbase, hcurrent, cost, -⟩ := passes_show
    unopened_speeding (by decide) spare hrun (agrees_of_uses uses) described
    (List.cons_ne_nil _ _) named
  exact ⟨w, p, base, current, hrun, hbase, hcurrent, cost, executable⟩

/-- A session that uses one catalog, but finds a cache that was made with another, need not show the
passes of its catalog. -/
theorem passes_may_show_others : ¬∀ (S : Simulation) (s : Site) (workDir text : String)
    (w w' : World Nat) (d : Disk) (age again : Option Nat) (earlier later : List Event)
    (p : Program) (catalog : Catalog) (flags : List String),
    Session.Unopened s workDir w d text.toUTF8 → text.toList.getLast? ≠ some '\r' →
    (∀ event ∈ earlier ++ later, event.SparesFiles) → (∀ event ∈ later, event.Uses catalog) →
    Session.run S.toolchain workDir s (.open age :: (earlier ++ .open again :: later)) ⟨w, none⟩ =
      ⟨w', some p⟩ →
    catalog.describeAll p.lineage.actions = .ok flags → flags ≠ [] →
    (∀ flag ∈ flags, Named flag) →
    w'.disk.read (p.cache.artifacts p.lineage).ir =
      .ok (closed text ++ passLines flags).toUTF8 := by
  intro h
  have first := keepsFirstPass_sped
  unfold keepsFirstPass at first
  obtain ⟨-, reopened⟩ := (Bool.and_eq_true ..).mp first
  obtain ⟨b, hb, stepped⟩ := (Option.any_eq_true ..).1 reopened
  split at stepped
  case h_2 => cases stepped
  rename_i reward b' hstep
  obtain ⟨lineage, code⟩ := (Bool.and_eq_true ..).mp stepped
  have lineage : b'.program.lineage.actions = [0] := of_decide_eq_true lineage
  have spare : ∀ event ∈ lent, event.SparesFiles := by simp [lent, Event.SparesFiles]
  have hrun : Session.run speeding.toolchain "build" Session.soloSite
      (.open none :: (lent ++ .open none :: [.step secondCatalog 0])) ⟨speedingWorld, none⟩ =
        ⟨b'.world, some b'.program⟩ := by
    have split : .open none :: (lent ++ .open none :: [.step secondCatalog 0]) =
        (.open none :: (lent ++ [.open none])) ++ [.step secondCatalog 0] := rfl
    rw [split, Session.run_append,
      Session.run_of_reopened? unopened_speeding speeding.tidy none spare hb]
    exact Session.perform_step_of_ok hstep
  have described : secondCatalog.describeAll b'.program.lineage.actions = .ok ["--b"] := by
    rw [lineage]
    decide
  have named : ∀ flag ∈ ["--b"], Named flag := by
    intro flag hflag
    rw [List.mem_singleton.1 hflag]
    exact Text.word_of_all (by decide) (by decide)
  have claimed := h speeding Session.soloSite "build" "; cost 10.0\n" speedingWorld b'.world
    Session.soloDisk none none lent [.step secondCatalog 0] b'.program secondCatalog ["--b"]
    unopened_speeding (by decide) (by simp [lent, Event.SparesFiles]) (by simp [Event.Uses]) hrun
    described (List.cons_ne_nil _ _) named
  rw [eq_of_beq code] at claimed
  exact absurd (Except.ok.inj claimed) (by decide)

end Simulation

end PassTuner
