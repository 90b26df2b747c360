import PassTuner.Proofs.Cache.Records
import PassTuner.Proofs.Program.Preserving

/-!
# What opening comes to

A program is opened at a site whose directory can be made. Its base is asked for with the manifest
that was found there, and then measured.
-/

namespace PassTuner.Program

variable {σ : Type} {s : Site} {w w' : World σ} {d : Disk} {c : ByteArray} {tc : Toolchain σ}
  {C : Conduct} {settings : EnvironmentSettings} {e : EnvironmentError} {p : Program}

/-- Building before measuring makes no difference, because measuring builds. -/
theorem build_measure (tc : Toolchain σ) : (build tc >>= fun _ => measure tc) = measure tc := by
  funext b
  cases hb : build tc b with
  | error e b₁ => rw [measure_eq, EStateM.bind_of_error hb, EStateM.bind_of_error hb]
  | ok _ b₁ =>
    have built : b₁.program.stage ≠ .unbuilt := by
      by_cases hs : b.program.stage = .unbuilt
      · rw [build_of_unbuilt tc hs] at hb
        obtain ⟨a, b₂, _, hb⟩ := EStateM.of_bind_ok hb
        cases hb
        exact nofun
      · rw [build_of_built tc hs] at hb
        cases hb
        exact hs
    rw [EStateM.bind_of_ok hb, measure_eq, EStateM.bind_of_ok hb,
      EStateM.bind_of_ok (build_of_built tc built)]

theorem open_of_missing (hs : s.Named) (missing : w.disk.isFile s.source = false) :
    Program.open tc settings s.source w = .error (.invalidSource s.source .missing) w := by
  rw [open_eq, if_pos hs.extension, if_neg (by simp [missing])]

/-- A site where a program finds what it works with, in a directory that is made if need be. -/
structure Finds (s : Site) (settings : EnvironmentSettings) (w : World σ) (d : Disk)
    (c : ByteArray) : Prop where
  directory : Path.join settings.workDir s.stem = s.directory
  file : w.disk.isFile s.source
  made : w.disk.makeDirectories s.directory = .ok d
  on : s.On d
  source : d.get? s.origin = some (.file c)

/-- What opening a cache comes to. -/
theorem cacheOpen_eq (directory stem source : String) (w : World σ) :
    (Cache.open directory stem source : Environment σ Cache) w =
      match w.disk.makeDirectories directory with
      | .error e => .error (.file directory e) w
      | .ok d =>
        match Cache.digestFile d source with
        | .error e => .error (.invalidSource source (.unreadable e)) { w with disk := d }
        | .ok digest =>
          match Cache.currentManifest d directory digest with
          | .error e => .error e { w with disk := d }
          | .ok m => .ok ⟨directory, stem, source, m⟩ { w with disk := d } := by
  unfold Cache.open
  cases made : w.disk.makeDirectories directory with
  | error e =>
    have changed : (Environment.changing directory (·.makeDirectories directory) :
        Environment σ Unit) w = .error (.file directory e) w := by
      simp only [Environment.changing, made]
    rw [EStateM.bind_of_error changed]
  | ok d =>
    have changed : (Environment.changing directory (·.makeDirectories directory) :
        Environment σ Unit) w = .ok () { w with disk := d } := by
      simp only [Environment.changing, made]
    have seen : (get : Environment σ (World σ)) { w with disk := d } =
        .ok { w with disk := d } { w with disk := d } := rfl
    rw [EStateM.bind_of_ok changed, EStateM.bind_of_ok seen]
    dsimp only
    cases Cache.digestFile d source with
    | error e => rfl
    | ok digest =>
      dsimp only
      cases Cache.currentManifest d directory digest <;> rfl

/-- A cache is opened with the manifest that is found in its directory. -/
theorem cacheOpen_of_read {directory source : String} (stem : String)
    (made : w.disk.makeDirectories directory = .ok d) (read : d.read source = .ok c) :
    (Cache.open directory stem source : Environment σ Cache) w =
      match Cache.currentManifest d directory (Digest.ofBytes c) with
      | .error e => .error e { w with disk := d }
      | .ok m => .ok ⟨directory, stem, source, m⟩ { w with disk := d } := by
  have digest : Cache.digestFile d source = .ok (Digest.ofBytes c) := by
    simp [Cache.digestFile, read, Except.map]
  simp only [cacheOpen_eq, made, digest]

/-- A cache that was opened has what was read in its directory and of its source. -/
theorem of_cacheOpen_ok {directory stem source : String} {k : Cache}
    (h : Cache.open directory stem source w = .ok k w') :
    ∃ d c m, w.disk.makeDirectories directory = .ok d ∧ d.read source = .ok c ∧
      Cache.currentManifest d directory (Digest.ofBytes c) = .ok m ∧
      k = ⟨directory, stem, source, m⟩ ∧ w' = { w with disk := d } := by
  rw [cacheOpen_eq] at h
  split at h
  · cases h
  rename_i d made
  cases read : d.read source with
  | error e =>
    simp only [Cache.digestFile, read, Except.map] at h
    cases h
  | ok c =>
    simp only [Cache.digestFile, read, Except.map] at h
    split at h
    · cases h
    · rename_i m current
      cases h
      exact ⟨d, c, m, made, read, current, rfl, rfl⟩

theorem open_of_finds (hs : s.Named) (h : Finds s settings w d c) (tc : Toolchain σ) :
    Program.open tc settings s.source w =
      match Cache.currentManifest d s.directory (Digest.ofBytes c) with
      | .error e => .error e { w with disk := d }
      | .ok m => starting (fresh s.stem s.source (s.cache m) settings)
          (measure tc >>= fun _ => pure ()) { w with disk := d } := by
  have hopen := cacheOpen_of_read (w := w) s.stem h.made (h.on.source.read_of_file h.source)
  have hbuild : (build tc >>= fun _ => measure tc >>= fun _ => pure () : Work σ Unit) =
      measure tc >>= fun _ => pure () := by
    conv_rhs => rw [← build_measure tc]
    exact (bind_assoc _ _ _).symm
  rw [open_of_valid tc settings hs.extension h.file hs.stem, h.directory, hbuild]
  cases hm : Cache.currentManifest d s.directory (Digest.ofBytes c) with
  | error e =>
    rw [hm] at hopen
    exact EStateM.bind_of_error hopen _
  | ok m =>
    rw [hm] at hopen
    exact EStateM.bind_of_ok hopen _

theorem starting_ok {q : Program} (h : starting q (measure tc >>= fun _ => pure ()) w = .ok p w') :
    ∃ a b, measure tc ⟨w, q⟩ = .ok a b ∧ b = ⟨w', p⟩ := by
  unfold starting at h
  split at h
  · rename_i b hb
    obtain ⟨a, b₁, hm, hb⟩ := EStateM.of_bind_ok hb
    cases hb
    cases h
    exact ⟨a, _, hm, rfl⟩
  · cases h

theorem starting_error {q : Program}
    (h : starting q (measure tc >>= fun _ => pure ()) w = .error e w') :
    ∃ b, measure tc ⟨w, q⟩ = .error e b ∧ b.world = w' := by
  unfold starting at h
  split at h
  · cases h
  · rename_i b hb
    cases h
    rcases EStateM.of_bind_error hb with hm | ⟨a, b₁, _, hb⟩
    · exact ⟨b, hm, rfl⟩
    · cases hb

/-! ## What opening sets up -/

/-- What asking for the base has to come to when a program is opened, where nothing is known of
anything but the disk. -/
structure Opens (C : Conduct) (s : Site) (D : Disk → Prop)
    (I : Manifest → Variant → Disk → Prop) : Prop where
  start : ∀ {d c m r m' d'}, s.On d → D d → d.get? s.origin = some (.file c) →
    Cache.currentManifest d s.directory (Digest.ofBytes c) = .ok m →
    s.Ensures C .base .base none m d r m' d' → D d' ∧ (r = .ok () → I m' .base d')
  stop : ∀ {m u d}, I m u d → D d

variable {D : Disk → Prop} {I : Manifest → Variant → Disk → Prop}

/-- What holds once the base of a program that is opened was built. -/
theorem holds_build_opened (hs : s.Named) (tidy : tc.Tidy C) (opens : Opens C s D I)
    (h : Finds s settings w d c) (hD : D d) {m : Manifest} {b : Bench σ}
    (hm : Cache.currentManifest d s.directory (Digest.ofBytes c) = .ok m)
    (hb : build tc ⟨{ w with disk := d }, fresh s.stem s.source (s.cache m) settings⟩ = .ok () b) :
    b.program.lineage = .base ∧ Holds s I b := by
  have clear := hs.clear h.on
  obtain ⟨hlineage, _, m', hp', hensures⟩ :=
    of_build_ok (m := m) clear tidy ⟨rfl, rfl⟩ h.on rfl rfl hb
  refine ⟨hlineage, hensures.on clear h.on, fun _ => hlineage, m', hp', ?_⟩
  rw [hlineage]
  exact (opens.start h.on hD h.source hm hensures).2 rfl

theorem holds_open_ok (hs : s.Named) (tidy : tc.Tidy C) (opens : Opens C s D I)
    (quiet : ∀ {m u d d'}, I m u d → Disk.Same d d' → I m u d') (h : Finds s settings w d c)
    (hD : D d) (ho : Program.open tc settings s.source w = .ok p w') : Holds s I ⟨w', p⟩ := by
  rw [open_of_finds hs h] at ho
  cases hm : Cache.currentManifest d s.directory (Digest.ofBytes c) with
  | error e => simp [hm] at ho
  | ok m =>
    simp only [hm] at ho
    obtain ⟨a, b, hmeasure, rfl⟩ := starting_ok ho
    obtain ⟨b₁, b₂, hb, hrun, heq⟩ := of_measure_ok hmeasure
    have h₁ := (holds_build_opened hs tidy opens h hD hm hb).2
    obtain ⟨hcache, hsame, _⟩ := runMeasurement_ok tidy.measure hrun
    have h₂ := h₁.of_same (hs.clear h.on) ((alike_runMeasurement tc _ _).of_ok hrun) hcache hsame
      quiet
    obtain ⟨m₂, hp₂, hm₂⟩ := h₂.state
    rw [heq]
    exact ⟨h₂.on, fun hbad => (by cases hbad), m₂, ⟨hp₂.cache, hp₂.name⟩, hm₂⟩

theorem holds_open_error (hs : s.Named) (tidy : tc.Tidy C) (opens : Opens C s D I)
    (quiet : ∀ {m u d d'}, I m u d → Disk.Same d d' → I m u d') (h : Finds s settings w d c)
    (hD : D d) (ho : Program.open tc settings s.source w = .error e w') :
    s.On w'.disk ∧ D w'.disk := by
  have clear := hs.clear h.on
  rw [open_of_finds hs h] at ho
  cases hm : Cache.currentManifest d s.directory (Digest.ofBytes c) with
  | error e =>
    simp only [hm] at ho
    cases ho
    exact ⟨h.on, hD⟩
  | ok m =>
    simp only [hm] at ho
    obtain ⟨b, hmeasure, rfl⟩ := starting_error ho
    rcases of_measure_error hmeasure with hb | ⟨b₁, hb, hrun⟩
    · obtain ⟨_, _, hensures⟩ := of_build_error (m := m) clear tidy ⟨rfl, rfl⟩ h.on rfl rfl hb
      exact ⟨hensures.on clear h.on, (opens.start h.on hD h.source hm hensures).1⟩
    · obtain ⟨_, _, m', _, hensures⟩ :=
        of_build_ok (m := m) clear tidy ⟨rfl, rfl⟩ h.on rfl rfl hb
      obtain ⟨_, hsame, _⟩ := runMeasurement_error tidy.measure hrun
      refine ⟨(hensures.on clear h.on).of_changedOnly clear hsame nofun, ?_⟩
      exact opens.stop (quiet ((opens.start h.on hD h.source hm hensures).2 rfl) hsame)

end PassTuner.Program
