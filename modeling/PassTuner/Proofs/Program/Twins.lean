import PassTuner.Proofs.Program.Accord

/-!
# Work on twins

Deterministic tools are in accord with themselves in any two worlds that share the files that are
used. So every operation on twins in such worlds answers the same or fails for the same reason, and
leaves twins in worlds that share these files.
-/

namespace PassTuner

open EStateM (InStep inStep_pure inStep_throw)

variable {σ α : Type}

/-- The paths that work on a program goes by. -/
inductive Cache.Uses (k : Cache) (name : String) : String → Prop where
  | code (v : Variant) : Uses k name (k.artifacts v).ir
  | executable (v : Variant) : Uses k name (k.artifacts v).executable
  | manifest : Uses k name (manifestPath k.directory)
  | scratch (n : Nat) : Uses k name (Path.join k.directory (Disk.numbered ".obj" n))
  | object (n : Nat) :
    Uses k name (Path.join (Path.join k.directory (Disk.numbered ".obj" n)) s!"{name}.o")

namespace Program

/-- What work on a program uses is in common, also the time if measurements age. -/
structure Within (c : Common σ) (p : Program) : Prop where
  paths : ∀ path, p.cache.Uses p.name path → c.Covers path
  age : p.settings.baseMaxAge.isSome → c.lag.isSome

/-- A program that is still the one it was, whatever was entered into its cache. -/
structure Remains (p₀ p : Program) : Prop where
  name : p.name = p₀.name
  settings : p.settings = p₀.settings
  cache : ∃ m, p.cache = { p₀.cache with manifest := m }

variable {p₀ p q : Program} {lag : Option Int} {c : Common σ}

theorem Remains.refl (p : Program) : Remains p p := ⟨rfl, rfl, p.cache.manifest, rfl⟩

theorem Remains.artifacts (h : Remains p₀ p) (v : Variant) :
    p.cache.artifacts v = p₀.cache.artifacts v := by
  obtain ⟨m, hm⟩ := h.cache
  rw [hm]
  rfl

theorem Remains.directory (h : Remains p₀ p) : p.cache.directory = p₀.cache.directory := by
  obtain ⟨m, hm⟩ := h.cache
  rw [hm]

theorem Remains.moved (h : Remains p₀ p) (stays : p.Moved q) : Remains p₀ q := by
  obtain ⟨m, hm⟩ := h.cache
  exact ⟨stays.name.trans h.name, stays.settings.trans h.settings, m, stays.cache.trans hm⟩

theorem Within.of_remains (hw : p₀.Within c) (h : Remains p₀ p) : p.Within c := by
  refine ⟨fun path huses => ?_, fun hage => hw.age (by rwa [← h.settings])⟩
  obtain ⟨m, hm⟩ := h.cache
  rw [hm, h.name] at huses
  refine hw.paths path ?_
  cases huses with
  | code v => exact .code v
  | executable v => exact .executable v
  | manifest => exact .manifest
  | scratch n => exact .scratch n
  | object n => exact .object n

/-- Work on a program uses nothing but its source and what is in its directory. -/
theorem Within.of_encloses (directory : c.Encloses p.cache.directory)
    (source : c.Covers p.cache.source) (stem : Path.Plain p.cache.stem) (name : Path.Plain p.name)
    (age : p.settings.baseMaxAge.isSome → c.lag.isSome) : p.Within c := by
  refine ⟨fun path huses => ?_, age⟩
  cases huses with
  | code v =>
    cases hfile : v.irName? p.cache.stem with
    | none =>
      have hpath : (p.cache.artifacts v).ir = p.cache.source := by
        simp only [Cache.artifacts, hfile]
      rwa [hpath]
    | some file =>
      have hpath : (p.cache.artifacts v).ir = Path.join p.cache.directory file := by
        simp only [Cache.artifacts, hfile]
      rw [hpath]
      exact (directory.join (Site.plain_code stem hfile)).covers
  | executable v => exact (directory.join (Site.plain_executable stem v)).covers
  | manifest => exact (directory.join Site.plain_manifest).covers
  | scratch n => exact (directory.join (Site.plain_numbered n)).covers
  | object n =>
      exact ((directory.join (Site.plain_numbered n)).join (Site.plain_object name)).covers

end Program

/-- Benches with twins of a program on them, in worlds that share something. -/
structure Bench.Twins (c : Common σ) (p₀ : Program) (b b' : Bench σ) : Prop where
  worlds : World.Share c b.world b'.world
  programs : Program.Twins c.lag b.program b'.program
  remains : p₀.Remains b.program

/-! ## Single pieces of work -/

namespace Work

variable {β γ : Type} {c : Common σ} {p₀ : Program} {A : α → β → Prop}

theorem inStep_program : InStep (Bench.Twins c p₀)
    (fun p q => Program.Twins c.lag p q ∧ p₀.Remains p) (program : Work σ Program) program :=
  fun _ _ h => .ok ⟨h.programs, h.remains⟩ h

theorem inStep_disk : InStep (Bench.Twins c p₀) (Disk.Agree c.toRegion) (disk : Work σ Disk) disk :=
  fun _ _ h => .ok h.worlds.disk h

theorem inStep_modifyProgram {f g : Program → Program}
    (h : ∀ p q, Program.Twins c.lag p q → p₀.Remains p →
      Program.Twins c.lag (f p) (g q) ∧ p₀.Remains (f p)) :
    InStep (Bench.Twins c p₀) Eq (modifyProgram f : Work σ Unit) (modifyProgram g) := by
  intro b b' hb
  obtain ⟨htwins, hremains⟩ := h _ _ hb.programs hb.remains
  exact .ok rfl ⟨hb.worlds, htwins, hremains⟩

/-- What is counted does not matter. -/
theorem inStep_count (f g : ProgramStats → ProgramStats) :
    InStep (Bench.Twins c p₀) Eq (count f : Work σ Unit) (count g) :=
  inStep_modifyProgram fun _ _ h hr =>
    ⟨⟨h.name, h.source, h.cache, h.settings, h.lineage, h.stage, h.base, h.current⟩,
      hr.name, hr.settings, hr.cache⟩

theorem inStep_modifyDisk {f g : Disk → Disk}
    (h : ∀ d d', Disk.Agree c.toRegion d d' → Disk.Agree c.toRegion (f d) (g d')) :
    InStep (Bench.Twins c p₀) Eq (modifyDisk f : Work σ Unit) (modifyDisk g) :=
  fun _ _ hb => .ok rfl ⟨hb.worlds.rewritten (h _ _ hb.worlds.disk), hb.programs, hb.remains⟩

theorem inStep_now : InStep (Bench.Twins c p₀) (Lags c.lag) (now : Work σ Nat) now :=
  fun _ _ hb => .ok hb.worlds.clock ⟨hb.worlds.later 1, hb.programs, hb.remains⟩

theorem inStep_sleep (n : Nat) :
    InStep (Bench.Twins c p₀) Eq (sleep n : Work σ Unit) (sleep n) :=
  fun _ _ hb => .ok rfl ⟨hb.worlds.later (1000000 * n), hb.programs, hb.remains⟩

theorem inStep_ofTool {t t' : Tool σ α} (h : InStep (World.Share c) Eq t t') :
    InStep (Bench.Twins c p₀) Eq (ofTool t) (ofTool t') := by
  intro b b' hb
  have ht := h _ _ hb.worlds
  unfold ofTool
  generalize t b.world = r, t' b'.world = r' at ht
  cases ht with
  | ok answers worlds => exact .ok answers ⟨worlds, hb.programs, hb.remains⟩
  | error e worlds => exact .error _ ⟨worlds, hb.programs, hb.remains⟩

theorem inStep_demand {t t' : Tool σ ToolOutput} (h : InStep (World.Share c) Eq t t')
    (refusal : ToolOutput → EnvironmentError) :
    InStep (Bench.Twins c p₀) Eq (demand t refusal) (demand t' refusal) := by
  refine (inStep_ofTool h).bind fun output _ heq => ?_
  subst heq
  split
  · exact inStep_throw _
  · exact inStep_pure rfl

theorem inStep_cleaning {f : Disk → Disk} {work work' : Work σ α}
    (hf : ∀ d d', Disk.Agree c.toRegion d d' → Disk.Agree c.toRegion (f d) (f d'))
    (h : InStep (Bench.Twins c p₀) Eq work work') :
    InStep (Bench.Twins c p₀) Eq (cleaning f work) (cleaning f work') := by
  intro b b' hb
  have hw := h b b' hb
  unfold cleaning
  generalize work b = r, work' b' = r' at hw
  have clean {b b' : Bench σ} (hb : Bench.Twins c p₀ b b') : Bench.Twins c p₀
      { b with world := { b.world with disk := f b.world.disk } }
      { b' with world := { b'.world with disk := f b'.world.disk } } :=
    ⟨hb.worlds.rewritten (hf _ _ hb.worlds.disk), hb.programs, hb.remains⟩
  cases hw with
  | ok answers benches => exact .ok answers (clean benches)
  | error e benches => exact .error e (clean benches)

end Work

/-! ## Names of scratch directories -/

namespace Path

theorem exists_front_join (base : String) {name : String} (hn : Plain name) :
    ∃ front, (join base name).toList = front ++ name.toList := by
  by_cases hb : base = ""
  · exact ⟨[], by rw [hb, join_empty]; rfl⟩
  · rw [toList_join hb hn.slash]
    split
    · exact ⟨base.toList, rfl⟩
    · exact ⟨base.toList ++ ['/'], by simp⟩

/-- A path with a numbered name at its end has nothing behind it to be taken off. -/
theorem trimReversed_numbered (directory : String) (n : Nat) :
    String.ofList (trimReversed
        (join directory (Disk.numbered ".obj" n)).toList.reverse).reverse =
      join directory (Disk.numbered ".obj" n) := by
  have htext : (Disk.numbered ".obj" n).toList = ['.', 'o', 'b', 'j'] ++ Nat.toDigits 10 n := by
    simp [Disk.numbered, toString, String.toList_append]
  obtain ⟨digits, c, hdigits⟩ : ∃ digits c, Nat.toDigits 10 n = digits ++ [c] :=
    ⟨_, _, (List.dropLast_append_getLast Nat.toDigits_ne_nil).symm⟩
  have hc : c.isDigit := Nat.isDigit_of_mem_toDigits (by decide) (by decide)
    (hdigits ▸ List.mem_append_right _ (List.mem_singleton_self c))
  obtain ⟨front, hfront⟩ := exists_front_join directory (Site.plain_numbered n)
  have hreverse : (join directory (Disk.numbered ".obj" n)).toList.reverse =
      c :: (front ++ ['.', 'o', 'b', 'j'] ++ digits).reverse := by
    simp [hfront, htext, hdigits]
  rw [hreverse]
  have htrim : trimReversed (c :: (front ++ ['.', 'o', 'b', 'j'] ++ digits).reverse) =
      c :: (front ++ ['.', 'o', 'b', 'j'] ++ digits).reverse := by
    unfold trimReversed
    split <;> simp_all
  rw [htrim, ← hreverse, List.reverse_reverse, String.ofList_toList]

end Path

/-! ## The cache -/

namespace Cache

variable {r : Disk.Region} {d d' : Disk} {k : Cache} {name : String}

theorem lookup_agree (h : Disk.Agree r d d') (hc : ∀ path, k.Uses name path → r.Covers path)
    (v : Variant) : k.lookup d' v = k.lookup d v := by
  simp only [lookup, verify, h.read (hc _ (.code v)), h.read (hc _ (.executable v))]

theorem enter_agree (h : Disk.Agree r d d') (hc : ∀ path, k.Uses name path → r.Covers path)
    (v : Variant) : k.enter d' v = k.enter d v := by
  simp only [enter, digestFile, h.read (hc _ (.code v)), h.read (hc _ (.executable v))]

theorem of_enter {k' : Cache} {v : Variant} (h : k.enter d v = .ok k') :
    ∃ m, k' = { k with manifest := m } := by
  unfold enter at h
  dsimp only at h
  split at h
  · cases h
  · split at h
    · cases h
    · cases h
      exact ⟨_, rfl⟩

theorem save_agree (h : Disk.Agree r d d') (hc : r.Covers (manifestPath k.directory)) :
    Except.Matched (Disk.Agree r) (k.save d) (k.save d') := by
  have hwrite := h.write hc k.manifest.toJson.indented.toUTF8
  unfold save Disk.writeText
  dsimp only
  generalize d.write (manifestPath k.directory) k.manifest.toJson.indented.toUTF8 = x,
    d'.write (manifestPath k.directory) k.manifest.toJson.indented.toUTF8 = x' at hwrite ⊢
  cases hwrite with
  | ok disks => exact .ok disks
  | error e => exact .error _

end Cache

namespace Program

variable {c : Common σ} {p₀ : Program} {tc : Toolchain σ}

theorem inStep_recordVariant (hw : p₀.Within c) (v : Variant) :
    InStep (Bench.Twins c p₀) Eq (recordVariant v : Work σ Unit) (recordVariant v) := by
  intro b b' hb
  have htwins := hb.programs
  have hpaths := (hw.of_remains hb.remains).paths
  have henter := Cache.enter_agree hb.worlds.disk hpaths v
  unfold recordVariant Cache.record
  rw [htwins.cache, henter]
  cases hentered : b.program.cache.enter b.world.disk v with
  | error e =>
    refine .error e ⟨hb.worlds, ?_, hb.remains⟩
    exact ⟨htwins.name, htwins.source, rfl, htwins.settings, htwins.lineage, htwins.stage,
      htwins.base, htwins.current⟩
  | ok k =>
    obtain ⟨m, rfl⟩ := Cache.of_enter hentered
    have hremains :
        p₀.Remains { b.program with cache := { b.program.cache with manifest := m } } := by
      obtain ⟨m₀, hm₀⟩ := hb.remains.cache
      exact ⟨hb.remains.name, hb.remains.settings, m, by rw [hm₀]⟩
    have hprograms : Program.Twins c.lag
        { b.program with cache := { b.program.cache with manifest := m } }
        { b'.program with cache := { b.program.cache with manifest := m } } :=
      ⟨htwins.name, htwins.source, rfl, htwins.settings, htwins.lineage, htwins.stage, htwins.base,
        htwins.current⟩
    have hsave := Cache.save_agree (k := { b.program.cache with manifest := m }) hb.worlds.disk
      (hpaths _ .manifest)
    dsimp only
    generalize Cache.save { b.program.cache with manifest := m } b.world.disk = x,
      Cache.save { b.program.cache with manifest := m } b'.world.disk = x' at hsave ⊢
    cases hsave with
    | ok disks => exact .ok rfl ⟨hb.worlds.rewritten disks, hprograms, hremains⟩
    | error e => exact .error e ⟨hb.worlds, hprograms, hremains⟩

theorem inStep_transformInto (hw : p₀.Within c) (ht : tc.Deterministic c) (v : Variant)
    (flag : String) :
    InStep (Bench.Twins c p₀) Eq (transformInto tc v flag) (transformInto tc v flag) := by
  refine Work.inStep_program.bind fun p q ⟨htwins, hremains⟩ => ?_
  have hpaths := (hw.of_remains hremains).paths
  rw [htwins.cache, htwins.lineage, htwins.name]
  refine (Work.inStep_count _ _).bind fun _ _ _ => Work.inStep_demand (ht.transform _ _ _ ?_) _
  simp [hpaths _ (.code _)]

theorem inStep_assemble (hw : p₀.Within c) (ht : tc.Deterministic c) (v : Variant) {object : String}
    (hobject : c.Covers object) :
    InStep (Bench.Twins c p₀) Eq (assemble tc v object) (assemble tc v object) := by
  refine Work.inStep_program.bind fun p q ⟨htwins, hremains⟩ => ?_
  have hpaths := (hw.of_remains hremains).paths
  dsimp only
  rw [htwins.cache, htwins.name]
  refine (Work.inStep_count _ _).bind fun _ _ _ => ?_
  refine (Work.inStep_demand (ht.compile _ _ ?_) _).bind fun _ _ _ => ?_
  · simp [hpaths _ (.code v), hobject]
  refine (Work.inStep_demand (ht.link _ _ ?_) _).bind fun _ _ _ => ?_
  · simp [hpaths _ (.executable v), hobject]
  exact inStep_recordVariant hw v

theorem inStep_withScratch {work : String → Work σ α} (hw : p₀.Within c)
    (h : ∀ n, InStep (Bench.Twins c p₀) Eq
      (work (Path.join p₀.cache.directory (Disk.numbered ".obj" n)))
      (work (Path.join p₀.cache.directory (Disk.numbered ".obj" n)))) :
    InStep (Bench.Twins c p₀) Eq (withScratch work) (withScratch work) := by
  refine Work.inStep_program.bind fun p q ⟨htwins, hremains⟩ =>
    Work.inStep_disk.bind fun d d' hd => ?_
  dsimp only
  have hscratch (n : Nat) : c.Covers (Path.join p₀.cache.directory (Disk.numbered ".obj" n)) :=
    hw.paths _ (.scratch n)
  have hname : d'.freeName p₀.cache.directory ".obj" p.name =
      d.freeName p₀.cache.directory ".obj" p.name := hd.freeName Site.plain_numbered hscratch
  obtain ⟨n, hn, _⟩ := Disk.freeName_eq d p₀.cache.directory Site.plain_numbered p.name
  rw [htwins.cache, htwins.name, hremains.directory, hname, hn]
  have hmade := hd.makeDirectory (hscratch n) (by rw [Path.trimReversed_numbered]; exact hscratch n)
  generalize d.makeDirectory _ = r, d'.makeDirectory _ = r' at hmade
  cases hmade with
  | error e => exact inStep_throw _
  | ok disks =>
    refine (Work.inStep_modifyDisk fun _ _ _ => disks).bind fun _ _ _ => ?_
    exact Work.inStep_cleaning (fun _ _ hdisks => hdisks.remove (hscratch n)) (h n)

theorem inStep_assembleAside (hw : p₀.Within c) (ht : tc.Deterministic c) (v : Variant) :
    InStep (Bench.Twins c p₀) Eq (assembleAside tc v p₀.name) (assembleAside tc v p₀.name) :=
  inStep_withScratch hw fun n => inStep_assemble hw ht v (hw.paths _ (.object n))

theorem inStep_settle (ht : tc.Deterministic c) (v : Variant) {executable : String}
    (hexecutable : c.Covers executable) (patience retries : Nat) :
    InStep (Bench.Twins c p₀) Eq (settle tc v executable patience retries)
      (settle tc v executable patience retries) := by
  induction patience generalizing retries with
  | zero =>
    refine Work.inStep_program.bind fun p q ⟨htwins, _⟩ => ?_
    rw [htwins.name]
    exact inStep_throw _
  | succ patience ih =>
    refine (Work.inStep_ofTool (ht.measure executable ?_)).bind fun output _ heq => ?_
    · simpa using hexecutable
    subst heq
    split
    · exact (Work.inStep_sleep _).bind fun _ _ _ => ih (retries + 1)
    · exact inStep_pure rfl

theorem inStep_runMeasurement (ht : tc.Deterministic c) (v : Variant) {executable : String}
    (hexecutable : c.Covers executable) :
    InStep (Bench.Twins c p₀) (Measurement.Twins c.lag) (runMeasurement tc v executable)
      (runMeasurement tc v executable) := by
  refine (inStep_settle ht v hexecutable _ _).bind fun settled _ heq => ?_
  subst heq
  refine Work.inStep_now.bind fun takenAt takenAt' htimes => ?_
  refine (Work.inStep_count _ _).bind fun _ _ _ => ?_
  split
  · exact inStep_pure ⟨rfl, rfl, htimes⟩
  · refine Work.inStep_program.bind fun p q ⟨htwins, _⟩ => ?_
    rw [htwins.name]
    exact inStep_throw _

/-! ## Operations -/

/-- Deterministic tools are in accord with themselves. -/
theorem accord (hw : p₀.Within c) (ht : tc.Deterministic c) :
    Accord (fun _ => False) c.lag (Bench.Twins c p₀) tc tc where
  twins hb := hb.programs
  moved hb stays _ twins := ⟨hb.worlds, twins, hb.remains.moved stays⟩
  hit hb := by
    have h := hb.programs
    exact ⟨hb.worlds, ⟨h.name, h.source, h.cache, h.settings, h.lineage, h.stage, h.base,
      h.current⟩, hb.remains.name, hb.remains.settings, hb.remains.cache⟩
  later hb := ⟨hb.worlds.later 1, hb.programs, hb.remains⟩
  fresh hb := hb.programs.baseIsFresh (hw.of_remains hb.remains).age hb.worlds.clock
  lookup hb v := Cache.lookup_agree hb.worlds.disk (hw.of_remains hb.remains).paths v
  isFile hb v := hb.worlds.disk.isFile ((hw.of_remains hb.remains).paths _ (.code v))
  transforming v flag := (inStep_transformInto hw ht v flag).tracks
  assembling hb v := by
    rw [hb.remains.name]
    exact (inStep_assembleAside hw ht v).tracks
  measuring hb u v :=
    (inStep_runMeasurement ht u ((hw.of_remains hb.remains).paths _ (.executable v))).tracks

theorem inStep_measure (hw : p₀.Within c) (ht : tc.Deterministic c) :
    InStep (Bench.Twins c p₀) (Measurement.Twins c.lag) (measure tc) (measure tc) :=
  (accord hw ht).tracks_measure.inStep

theorem inStep_step (hw : p₀.Within c) (ht : tc.Deterministic c) (catalog : Catalog)
    (action : ActionId) :
    InStep (Bench.Twins c p₀) Eq (step tc catalog action) (step tc catalog action) :=
  ((accord hw ht).tracks_step catalog action).inStep

theorem inStep_reset (hw : p₀.Within c) (ht : tc.Deterministic c) :
    InStep (Bench.Twins c p₀) Eq (reset tc) (reset tc) := (accord hw ht).tracks_reset.inStep

end Program

end PassTuner
