import PassTuner.Proofs.Session.Invariants
import PassTuner.Proofs.Tool.Pure

/-!
# Which flags a variant was made with

The manifest knows variants by the ids of their actions, and what an id means is up to the catalog
of a step. The flags of an entry are those of the steps that first tried it and its ancestors, each
by the catalog it had. Main statement: after any sessions on an unchanged source, a step that
succeeds has measured an executable that was made with flags of such steps. If all catalogs agree on
the ids that were tried, these are the flags of any of them.
-/

namespace PassTuner

open Site (Rule Follows)

/-- A variant was tried with a flag after all its ancestors were tried with theirs. -/
inductive Tried (H : Variant → String → Prop) : Variant → List String → Prop where
  | base : Tried H .base []
  | step {u v : Variant} {action : ActionId} {flags : List String} {flag : String} :
      Tried H u flags → u.extend? action = .ok v → H v flag → Tried H v (flags ++ [flag])

/-- Digests of a variant whose files are there, and were made with flags that were tried. -/
def Attested (H : Variant → String → Prop) (C : Conduct) (s : Site) (source : ByteArray) : Rule :=
  fun _ v digests d => ∃ flags c x, Tried H v flags ∧ C.Derived source flags c ∧
    C.Assembled c x ∧ digests = ⟨Digest.ofBytes c, Digest.ofBytes x⟩ ∧
    d.get? (s.codePlace v) = some (.file c) ∧ d.get? (s.executablePlace v) = some (.file x) ∧
    s.Nameable v

/-- The manifest is what is in its file, and all its entries are attested. -/
structure Kept (H : Variant → String → Prop) (C : Conduct) (s : Site) (source : ByteArray)
    (m : Manifest) (d : Disk) : Prop where
  manifest : Follows (Attested H C s source) m d
  digest : m.sourceDigest = Digest.ofBytes source
  file : d.get? s.manifestPlace = some (Site.manifestFile m) ∨
    d.get? s.manifestPlace = none ∧ m = .empty (Digest.ofBytes source)
  source : d.get? s.origin = some (.file source)

/-- A variant has an entry. -/
def Entered (m : Manifest) (v : Variant) : Prop := ∃ digests, m.get? v.encode = some digests

/-- The lineage is the base or was entered. -/
def Grounded (m : Manifest) (u : Variant) : Prop :=
  u = .base ∨ ∃ digests, m.get? u.encode = some digests

/-- What is kept for an open program, whose base and lineage were entered. -/
structure Settled (H : Variant → String → Prop) (C : Conduct) (s : Site) (source : ByteArray)
    (m : Manifest) (u : Variant) (d : Disk) : Prop where
  kept : Kept H C s source m d
  base : Entered m .base
  lineage : Entered m u

variable {σ : Type} {s : Site} {tc : Toolchain σ} {workDir : String} {C : Conduct}
  {H : Variant → String → Prop} {source : ByteArray} {m m' : Manifest} {u v : Variant}
  {d d' : Disk} {c x : ByteArray} {flag : Option String}

/-- An attested entry is a hit. -/
theorem Kept.lookup (hs : s.Clear) (on : s.On d) (h : Kept H C s source m d) {digests : Digests}
    (hget : m.get? v.encode = some digests) :
    (s.cache m).lookup d v = .ok (some (s.artifacts v)) := by
  obtain ⟨flags, c, x, _, _, _, rfl, hc, hx, hname⟩ := h.manifest.entry hget
  exact Site.lookup_of_reads ((on.leads_code hs hname).read_of_file hc)
    ((on.leads_executable hs hname).read_of_file hx) hget

/-- What an entry is about can be read. -/
theorem Kept.reads (hs : s.Clear) (on : s.On d) (h : Kept H C s source m d)
    (entered : Entered m v) :
    ∃ flags c x, Tried H v flags ∧ C.Derived source flags c ∧ C.Assembled c x ∧
      d.read (s.artifacts v).ir = .ok c ∧ d.read (s.artifacts v).executable = .ok x := by
  obtain ⟨digests, hget⟩ := entered
  obtain ⟨flags, c, x, htried, hderived, hassembled, _, hc, hx, hname⟩ := h.manifest.entry hget
  exact ⟨flags, c, x, htried, hderived, hassembled, (on.leads_code hs hname).read_of_file hc,
    (on.leads_executable hs hname).read_of_file hx⟩

/-- Files of a variant that has no entry may change. -/
theorem Kept.follows_of_changed (hs : s.Clear) (h : Kept H C s source m d)
    (missing : m.get? v.encode = none)
    (hc : Disk.ChangedOnly (fun p => s.Touched v flag p ∨ p = s.manifestPlace) d d') :
    Follows (Attested H C s source) m d' := by
  refine h.manifest.mono ?_
  rintro w digests hget ⟨flags, c, x, htried, hderived, hassembled, heq, hcode, hexecutable, hname⟩
  have hne : w ≠ v := by
    rintro rfl
    rw [missing] at hget
    cases hget
  obtain ⟨hsameCode, hsameExecutable⟩ := Site.files_of_others hs hne hc
  exact ⟨flags, c, x, htried, hderived, hassembled, heq, hsameCode.trans hcode,
    hsameExecutable.trans hexecutable, hname⟩

/-- The code of the lineage was made with flags that were tried. -/
theorem Kept.lineage (h : Kept H C s source m d) (hu : Grounded m u)
    (hc : d.get? (s.codePlace u) = some (.file c)) :
    ∃ flags, Tried H u flags ∧ C.Derived source flags c := by
  rcases hu with rfl | ⟨digests, hget⟩
  · have hsource : d.get? (s.codePlace .base) = some (.file source) := h.source
    rw [hc] at hsource
    cases hsource
    exact ⟨[], .base, .base⟩
  · obtain ⟨flags, c', x, htried, hderived, _, _, hc', _, _⟩ := h.manifest.entry hget
    rw [hc] at hc'
    cases hc'
    exact ⟨flags, htried, hderived⟩

/-- Asking for a variant keeps the manifest and enters what was asked for with success. -/
theorem Kept.ensures (hs : s.Clear) (on : s.On d) (h : Kept H C s source m d)
    (hu : Grounded m u) (hv : flag = none ∧ v = .base ∨
      ∃ action f, flag = some f ∧ u.extend? action = .ok v ∧ H v f)
    {r : Except EnvironmentError Unit} (hensures : s.Ensures C u v flag m d r m' d') :
    Kept H C s source m' d' ∧ (r = .ok () → Entered m' v) ∧
      ∀ w, Entered m w → Entered m' w := by
  have away : flag.isSome → v ≠ .base := by
    rcases hv with ⟨rfl, _⟩ | ⟨action, f, rfl, hextend, _⟩
    · exact nofun
    · exact fun _ => Variant.ne_base_of_extend? hextend
  have missing (hlookup : (s.cache m).lookup d v = .ok none) : m.get? v.encode = none := by
    cases hget : m.get? v.encode with
    | none => rfl
    | some digests =>
      rw [h.lookup hs on hget] at hlookup
      cases hlookup
  cases hensures with
  | hit hlookup =>
    obtain ⟨_, _, _, _, hget⟩ := Site.reads_of_lookup hlookup
    exact ⟨h, fun _ => ⟨_, hget⟩, fun _ hw => hw⟩
  | corrupted _ => exact ⟨h, nofun, fun _ hw => hw⟩
  | failed hlookup hc _ =>
    have hchanged := hc.mono (Q := fun p => s.Touched v flag p ∨ p = s.manifestPlace)
      fun p hp => .inl hp
    refine ⟨⟨h.follows_of_changed hs (missing hlookup) hchanged, h.digest, ?_,
      (Site.origin_of_changed hs away hchanged).trans h.source⟩, nofun, fun _ hw => hw⟩
    rw [hc.same _ fun hp => hp.ne_manifestPlace hs rfl]
    exact h.file
  | @built c x _ hlookup hcoded hmade hc hx hfile hname hchanged =>
    have htried : ∃ flags, Tried H v flags ∧ C.Derived source flags c := by
      rcases hv with ⟨rfl, rfl⟩ | ⟨action, f, rfl, hextend, hH⟩
      · exact h.lineage (.inl rfl) hcoded
      · obtain ⟨c₀, hc₀, htransform⟩ := hcoded
        obtain ⟨flags, htried, hderived⟩ := h.lineage hu hc₀
        exact ⟨flags ++ [f], htried.step hextend hH, hderived.step htransform⟩
    obtain ⟨flags, htried, hderived⟩ := htried
    have hfollows := h.follows_of_changed hs (missing hlookup) hchanged
    refine ⟨⟨hfollows.enter ⟨flags, c, x, htried, hderived, hmade, rfl, hc, hx, hname⟩, h.digest,
      .inl hfile, (Site.origin_of_changed hs away hchanged).trans h.source⟩,
      fun _ => ⟨_, Site.get?_entered_self m v c x⟩, ?_⟩
    rintro w ⟨digests, hget⟩
    by_cases hwv : w = v
    · subst hwv
      exact ⟨_, Site.get?_entered_self m w c x⟩
    · exact ⟨digests, by rwa [Site.get?_entered_other m hwv]⟩

theorem Kept.same (h : Kept H C s source m d) (hsame : Disk.Same d d') :
    Kept H C s source m d' := by
  refine ⟨h.manifest.mono ?_, h.digest, by simpa only [hsame.get?] using h.file,
    (hsame.get? _).trans h.source⟩
  rintro v digests _ ⟨flags, c, x, htried, hderived, hassembled, heq, hc, hx, hname⟩
  exact ⟨flags, c, x, htried, hderived, hassembled, heq, (hsame.get? _).trans hc,
    (hsame.get? _).trans hx, hname⟩

/-- A program is opened with the manifest that is kept. -/
theorem Kept.currentManifest (on : s.On d) (h : Kept H C s source m d) :
    Cache.currentManifest d s.directory (Digest.ofBytes source) = .ok m :=
  Site.Standing.currentManifest on.toLaid ⟨h.manifest, h.digest, h.file, h.source⟩

/-- What is kept stays kept, apart from steps. -/
theorem invariant_kept (hs : s.Named) (H : Variant → String → Prop) (C : Conduct)
    (source : ByteArray) :
    Session.Invariant C s (fun d => ∃ m, Kept H C s source m d) (Settled H C s source) where
  start := by
    rintro d c m r m' d' on ⟨m₀, h⟩ hsource hcurrent hensures
    have heq := hsource.symm.trans h.source
    cases heq
    rw [h.currentManifest on] at hcurrent
    cases hcurrent
    obtain ⟨hkept, hentered, _⟩ :=
      h.ensures (hs.clear on) on (.inl rfl) (.inl ⟨rfl, rfl⟩) hensures
    exact ⟨⟨m', hkept⟩, fun done => ⟨hkept, hentered done, hentered done⟩⟩
  stop h := ⟨_, h.kept⟩
  quiet h hsame := ⟨h.kept.same hsame, h.base, h.lineage⟩
  base on h hensures := by
    obtain ⟨hkept, _, stays⟩ :=
      h.kept.ensures (hs.clear on) on (.inl rfl) (.inl ⟨rfl, rfl⟩) hensures
    exact ⟨hkept, stays _ h.base, stays _ h.base⟩
  home h := ⟨h.kept, h.base, h.base⟩

/-! ## Steps -/

variable {b b' : Bench σ} {action : ActionId} {f : String}

theorem Settled.tries (hs : s.Clear) (on : s.On b.world.disk)
    (hH : ∀ v, b.program.lineage.extend? action = .ok v → H v f) :
    Program.Tries tc C s (Settled H C s source) action f b where
  built := by
    intro m v a b' m' _ h hv _ hensures
    obtain ⟨hkept, hentered, stays⟩ :=
      h.kept.ensures hs on (.inr h.lineage) (.inr ⟨action, f, rfl, hv, hH v hv⟩) hensures
    exact ⟨⟨hkept, stays _ h.base, stays _ h.lineage⟩, hkept, stays _ h.base, hentered rfl⟩
  failed := by
    intro m v e d _ h hv hensures
    obtain ⟨hkept, _, stays⟩ :=
      h.kept.ensures hs on (.inr h.lineage) (.inr ⟨action, f, rfl, hv, hH v hv⟩) hensures
    exact ⟨hkept, stays _ h.base, stays _ h.lineage⟩

/-- What was measured of a program, and how that came out. -/
structure Measures (tc : Toolchain σ) (C : Conduct) (b : Bench σ) (executable : ByteArray) :
    Prop where
  read : b.world.disk.read (b.program.cache.artifacts b.program.lineage).executable =
    .ok executable
  outcome : ∃ o record, C.measure executable (.ok o) ∧
    Program.readMeasurement tc o = .ok record ∧ b.program.state? = some record.state ∧
    b.program.cost? = some record.cost

/-- An advance that succeeds measures an executable that was made with flags that were tried. -/
theorem Kept.measures_of_advance (hs : s.Clear) (tidy : tc.Tidy C)
    (h : Program.Holds s (Settled H C s source) b)
    (hH : ∀ v, b.program.lineage.extend? action = .ok v → H v f) {before reward : Float}
    (ha : Program.advance tc action f before b = .ok reward b') :
    ∃ flags c e, Tried H b'.program.lineage flags ∧ C.Derived source flags c ∧
      C.Assembled c e ∧ Measures tc C b' e := by
  obtain ⟨v, a, b₁, a', b₂, hv, hensure, hrun, _, rfl⟩ := Program.of_advance_ok ha
  obtain ⟨m, hat, hm⟩ := h.state
  obtain ⟨rfl, m', hat', hensures⟩ := Program.ensureBuilt_ok hs tidy hat h.on hensure
  have on' := hensures.on hs h.on
  obtain ⟨hkept, hentered, _⟩ :=
    hm.kept.ensures hs h.on (.inr hm.lineage) (.inr ⟨action, f, rfl, hv, hH v hv⟩) hensures
  obtain ⟨flags, c, e, htried, hderived, hassembled, _, hread⟩ :=
    hkept.reads hs on' (hentered rfl)
  obtain ⟨hcache, hsame, o, record, _, hrecord, hstate, hcost, _, hanswer⟩ :=
    Program.runMeasurement_ok tidy.measure hrun
  refine ⟨flags, c, e, htried, hderived, hassembled, ?_, o, record, hanswer e hread,
    hrecord, ?_, ?_⟩
  · change b₂.world.disk.read (b₂.program.cache.artifacts v).executable = _
    rw [hcache, hat'.cache, hsame.read]
    exact hread
  · exact congrArg some hstate
  · exact congrArg some hcost

/-! ## Sessions -/

variable {x : Session σ} {event : Event} {events : List Event} {catalog : Catalog}

/-- Steps do no harm to what is kept if what they try counts as tried. -/
theorem harmless_of_trial (hs : s.Named) (spares : event.SparesFiles)
    (hH : ∀ v flag, Session.trial? event x = some (v, flag) → H v flag) :
    Session.Harmless C s tc (fun d => ∃ m, Kept H C s source m d)
      (Settled H C s source) event x := by
  cases event with
  | step catalog action =>
    intro p hp flag cost b hd hready h
    refine Settled.tries (hs.clear h.on) h.on fun v hv => hH v flag ?_
    rw [Program.lineage_of_standingCost hready] at hv
    exact Session.trial?_step hp hd hv
  | edit file content => exact spares.elim
  | _ => trivial

theorem along_harmless (hs : s.Named) (spare : ∀ event ∈ events, event.SparesFiles)
    (hH : ∀ v flag, (v, flag) ∈ Session.trials tc workDir s events x → H v flag) :
    Session.Along tc workDir s (Session.Harmless C s tc (fun d => ∃ m, Kept H C s source m d)
      (Settled H C s source)) events x := by
  induction events generalizing x with
  | nil => trivial
  | cons event events ih =>
    refine ⟨harmless_of_trial hs (spare event List.mem_cons_self) fun v flag ht => hH v flag ?_,
      ih (fun other hother => spare other (List.mem_cons_of_mem _ hother)) fun v flag ht =>
        hH v flag ?_⟩
    · exact List.mem_append_left _ (by rw [ht]; exact List.mem_singleton_self _)
    · exact List.mem_append_right _ ht

theorem kept_of_unopened {w : World σ} (h : Session.Unopened s workDir w d source)
    (H : Variant → String → Prop) (C : Conduct) :
    Kept H C s source (.empty (Digest.ofBytes source)) d :=
  ⟨Site.follows_empty _ _ _, rfl, .inr ⟨h.blank, rfl⟩, h.source⟩

/-- What is kept is kept by sessions from the first one on. -/
theorem keeps_sessions {w : World σ} (h : Session.Unopened s workDir w d source)
    (tidy : tc.Tidy C) (age : Option Nat) (spare : ∀ event ∈ events, event.SparesFiles)
    (hH : ∀ v flag, (v, flag) ∈ Session.trials tc workDir s (.open age :: events) ⟨w, none⟩ →
      H v flag) :
    Session.Keeps s (fun d => ∃ m, Kept H C s source m d)
      (Settled H C s source)
      (Session.run tc workDir s (.open age :: events) ⟨w, none⟩) := by
  have hI := invariant_kept h.toNamed H C source
  have hopened := Session.keeps_open (x := ⟨w, none⟩) h.toNamed tidy hI (h.finds age)
    ⟨_, kept_of_unopened h H C⟩
  exact (Session.keeps_run h.toNamed tidy hI h.directory hopened
    (along_harmless h.toNamed spare hH)).last

/-- A program that is opened again finds the cache that it had. -/
theorem open_of_kept (hs : s.Named) (directory : Path.join workDir s.stem = s.directory)
    {w : World σ} {p : Program} (h : Session.Keeps s (fun d => ∃ m, Kept H C s source m d)
      (Settled H C s source) ⟨w, some p⟩)
    (tc : Toolchain σ) (age : Option Nat) :
    Program.open tc ⟨workDir, age⟩ s.source w =
      Program.starting (Program.fresh s.stem s.source p.cache ⟨workDir, age⟩)
        (Program.measure tc >>= fun _ => pure ()) w := by
  obtain ⟨m, hat, ⟨hm, _, _⟩⟩ := (h.of_some rfl).state
  have file := h.on.source.isFile_iff.2 ⟨source, hm.source⟩
  have made := Disk.makeDirectories_of_directory h.on.directory
  have finds : Program.Finds s ⟨workDir, age⟩ w w.disk source :=
    ⟨directory, file, made, h.on, hm.source⟩
  have hopen := Program.open_of_finds hs finds tc
  rw [hm.currentManifest h.on] at hopen
  rw [hopen, hat.cache]

/-- A session whose program is opened once more goes on with what the program had. -/
theorem run_reopened {w w' : World σ} {lender p : Program}
    (h : Session.Unopened s workDir w d source) (tidy : tc.Tidy C) (age age' : Option Nat)
    (spare : ∀ event ∈ events, event.SparesFiles)
    (hlender : (Session.run tc workDir s (.open age :: events) ⟨w, none⟩).program = some lender)
    (hstart : Program.starting (Program.fresh s.stem s.source lender.cache ⟨workDir, age'⟩)
      (Program.measure tc >>= fun _ => pure ())
      (Session.run tc workDir s (.open age :: events) ⟨w, none⟩).world = .ok p w') :
    Session.run tc workDir s (.open age :: (events ++ [.open age'])) ⟨w, none⟩ = ⟨w', some p⟩ := by
  have hkeeps := keeps_sessions (H := fun _ _ => True) h tidy age spare fun _ _ _ => trivial
  rw [← List.cons_append, Session.run_append]
  generalize Session.run tc workDir s (.open age :: events) ⟨w, none⟩ = x at *
  obtain ⟨wx, px⟩ := x
  cases hlender
  have hopen := open_of_kept h.toNamed h.directory hkeeps tc age'
  simp only [Session.run, Session.perform, hopen, hstart]

/-- A catalog describes the last action of everything that was tried by the flag it was tried
with. -/
def Agrees (catalog : Catalog) (tried : List (Variant × String)) : Prop :=
  ∀ (u v : Variant) (action : ActionId) (flag : String), (v, flag) ∈ tried →
    u.extend? action = .ok v → catalog.describe action = .ok flag

theorem Tried.describeAll {tried : List (Variant × String)} {flags : List String}
    (h : Tried (fun v flag => (v, flag) ∈ tried) v flags) (agrees : Agrees catalog tried) :
    catalog.describeAll v.actions = .ok flags := by
  induction h with
  | base => exact catalog.describeAll_base
  | step _ hv hmem ih => exact Catalog.describeAll_extend hv ih (agrees _ _ _ _ hmem hv)

/-- The executable that a step of any session measures was made with flags that steps of the
sessions tried its variant and its ancestors with. These are the flags of the catalog in use if it
agrees with what was tried. -/
theorem measured_executable_made_with_tried_flags {w w' : World σ} {p : Program}
    (h : Session.Unopened s workDir w d source) (tidy : tc.Tidy C) (age : Option Nat)
    (spare : ∀ event ∈ events, event.SparesFiles)
    (hrun : Session.run tc workDir s (.open age :: events) ⟨w, none⟩ = ⟨w', some p⟩)
    {reward : Float} (hstep : Program.step tc catalog action ⟨w', p⟩ = .ok reward b') :
    let tried := Session.trials tc workDir s (.open age :: events ++ [.step catalog action])
      ⟨w, none⟩
    ∃ flags c e, Tried (fun v flag => (v, flag) ∈ tried) b'.program.lineage flags ∧
      C.Derived source flags c ∧ C.Assembled c e ∧ Measures tc C b' e ∧
      (Agrees catalog tried → catalog.describeAll b'.program.lineage.actions = .ok flags) := by
  intro tried
  have hI := invariant_kept h.toNamed (fun v flag => (v, flag) ∈ tried) C source
  have hsplit : tried = Session.trials tc workDir s (.open age :: events) ⟨w, none⟩ ++
      Session.trials tc workDir s [.step catalog action] ⟨w', some p⟩ := by
    rw [← hrun]
    exact Session.trials_append tc workDir s (.open age :: events) [.step catalog action] ⟨w, none⟩
  have hkeeps := keeps_sessions (H := fun v flag => (v, flag) ∈ tried) h tidy age spare
    fun v flag ht => by
      rw [hsplit]
      exact List.mem_append_left _ ht
  rw [hrun] at hkeeps
  have hb := hkeeps.of_some rfl
  have clear := h.toNamed.clear hb.on
  cases hd : catalog.describe action with
  | error fault =>
    rw [Program.step_of_unknown tc hd] at hstep
    cases hstep
  | ok flag =>
    rw [Program.step_of_known tc hd] at hstep
    obtain ⟨cost, b₁, hready, hadvance⟩ := EStateM.of_bind_ok hstep
    have h₁ := Program.holds_standingCost clear tidy hI.toLasting.settling hb hready
    obtain ⟨flags, c, e, htried, hderived, hassembled, hmeasures⟩ :=
      Kept.measures_of_advance clear tidy h₁ (fun v hv => by
        rw [Program.lineage_of_standingCost hready] at hv
        rw [hsplit]
        refine List.mem_append_right _ (List.mem_append_left _ ?_)
        rw [Session.trial?_step rfl hd hv]
        exact List.mem_singleton_self _) hadvance
    exact ⟨flags, c, e, htried, hderived, hassembled, hmeasures, htried.describeAll⟩

/-! After a session with one catalog a step with another one hits what the first one made. -/

/-- Tools that write the flag behind what they read. -/
def appending : PureTools where
  transform flag code := .ok (code ++ flag.toUTF8)
  compile := .ok
  link := .ok
  measure _ := .ok (.ok "SYMVEC1 5.0 0SYMVEC")

def secondCatalog : Catalog := ⟨["--b"], by decide, by decide, by decide⟩

def lent : List Event := [.step Program.soloCatalog 0]

/-- A session with the first catalog. -/
def lending : Session Unit :=
  Session.run appending.toolchain "build" Session.soloSite (.open none :: lent)
    ⟨Session.soloWorld, none⟩

/-- A step with the second catalog after the program of a session was opened again. -/
def borrow (x : Session Unit) : Option (Bench Unit × Float × Bench Unit) := do
  let lender ← x.program
  match Program.starting
    (Program.fresh Session.soloSite.stem Session.soloSite.source lender.cache ⟨"build", none⟩)
    (Program.measure appending.toolchain >>= fun _ => pure ()) x.world with
  | .error _ _ => none
  | .ok p w =>
    match Program.step appending.toolchain secondCatalog 0 ⟨w, p⟩ with
    | .error _ _ => none
    | .ok reward b => some (⟨w, p⟩, reward, b)

/-- Whether the executable of the first action is what the first catalog's flag makes. -/
def isBorrowed (b : Bench Unit) : Bool :=
  decide (b.program.lineage.actions = [0]) &&
    b.world.disk.read (b.program.cache.artifacts b.program.lineage).executable ==
      .ok (Session.soloSource ++ "--a".toUTF8)

theorem isBorrowed_borrow_lending :
    (borrow lending).any (fun (_, _, b) => isBorrowed b) = true := by decide +kernel

theorem of_borrow {x : Session Unit} {b₀ b : Bench Unit} {reward : Float}
    (h : borrow x = some (b₀, reward, b)) : ∃ lender, x.program = some lender ∧
      Program.starting
        (Program.fresh Session.soloSite.stem Session.soloSite.source lender.cache ⟨"build", none⟩)
        (Program.measure appending.toolchain >>= fun _ => pure ()) x.world =
          .ok b₀.program b₀.world ∧
      Program.step appending.toolchain secondCatalog 0 b₀ = .ok reward b := by
  obtain ⟨lender, hlender, h⟩ := Option.bind_eq_some_iff.1 h
  split at h
  · cases h
  rename_i p w hstart
  split at h
  · cases h
  rename_i hstep
  cases h
  exact ⟨lender, hlender, hstart, hstep⟩

theorem sparesFiles_lent : ∀ event ∈ lent ++ [.open none], event.SparesFiles := by
  simp [lent, Event.SparesFiles]

theorem exists_borrowed : ∃ (w : World Unit) (p : Program) (reward : Float) (b : Bench Unit),
    Session.run appending.toolchain "build" Session.soloSite (.open none :: (lent ++ [.open none]))
      ⟨Session.soloWorld, none⟩ = ⟨w, some p⟩ ∧
    Program.step appending.toolchain secondCatalog 0 ⟨w, p⟩ = .ok reward b ∧
    isBorrowed b = true := by
  obtain ⟨⟨b₀, reward, b⟩, hborrow, hb⟩ := (Option.any_eq_true ..).1 isBorrowed_borrow_lending
  obtain ⟨lender, hlender, hstart, hstep⟩ := of_borrow hborrow
  have spare : ∀ event ∈ lent, event.SparesFiles := fun event hevent =>
    sparesFiles_lent event (List.mem_append_left _ hevent)
  unfold lending at hlender hstart
  exact ⟨b₀.world, b₀.program, reward, b,
    run_reopened Session.unopened_solo appending.tidy none none spare hlender hstart, hstep, hb⟩

/-- Without regard to what was tried before, a step with deterministic tools need not measure what
the flags of its catalog make. -/
theorem measured_executable_may_ignore_catalog : ¬∀ (T : PureTools) (s : Site) (workDir : String)
    (w w' : World Unit) (d : Disk) (source : ByteArray) (age : Option Nat) (events : List Event)
    (p : Program) (catalog : Catalog) (action : ActionId) (reward : Float) (b : Bench Unit),
    Session.Unopened s workDir w d source → (∀ event ∈ events, event.SparesFiles) →
    Session.run T.toolchain workDir s (.open age :: events) ⟨w, none⟩ = ⟨w', some p⟩ →
    Program.step T.toolchain catalog action ⟨w', p⟩ = .ok reward b →
    ∃ flags c e, catalog.describeAll b.program.lineage.actions = .ok flags ∧
      T.conduct.Derived source flags c ∧ T.conduct.Assembled c e ∧
      b.world.disk.read (b.program.cache.artifacts b.program.lineage).executable = .ok e := by
  intro h
  obtain ⟨w, p, reward, b, hrun, hstep, hb⟩ := exists_borrowed
  obtain ⟨flags, c, e, hflags, hderived, hassembled, hread⟩ := h appending _ _ _ _ _ _ _ _ p _ _
    reward b Session.unopened_solo sparesFiles_lent hrun hstep
  simp only [isBorrowed, Bool.and_eq_true, decide_eq_true_eq, beq_iff_eq] at hb
  have hnamed : secondCatalog.describeAll [0] = .ok ["--b"] := by decide
  rw [hb.1, hnamed] at hflags
  cases hflags
  obtain rfl := PureTools.derived_unique hderived (Conduct.Derived.base.step rfl)
  obtain rfl : Session.soloSource ++ "--b".toUTF8 = e :=
    Except.ok.inj (PureTools.assembled_iff.1 hassembled)
  rw [hb.2] at hread
  exact absurd (Except.ok.inj hread) (by decide)

theorem measured_executable_made_with_tried_flags_borrowed :
    let tried := Session.trials appending.toolchain "build" Session.soloSite
      (.open none :: (lent ++ [.open none]) ++ [.step secondCatalog 0]) ⟨Session.soloWorld, none⟩
    ∃ (w : World Unit) (p : Program) (reward : Float) (b : Bench Unit),
      Session.run appending.toolchain "build" Session.soloSite
        (.open none :: (lent ++ [.open none])) ⟨Session.soloWorld, none⟩ = ⟨w, some p⟩ ∧
      Program.step appending.toolchain secondCatalog 0 ⟨w, p⟩ = .ok reward b ∧
      ∃ flags c e, Tried (fun v flag => (v, flag) ∈ tried) b.program.lineage flags ∧
        appending.conduct.Derived Session.soloSource flags c ∧ appending.conduct.Assembled c e ∧
        Measures appending.toolchain appending.conduct b e ∧
        (Agrees secondCatalog tried →
          secondCatalog.describeAll b.program.lineage.actions = .ok flags) := by
  obtain ⟨w, p, reward, b, hrun, hstep, _⟩ := exists_borrowed
  exact ⟨w, p, reward, b, hrun, hstep, measured_executable_made_with_tried_flags
    Session.unopened_solo appending.tidy none sparesFiles_lent hrun hstep⟩

end PassTuner
