import PassTuner.Program.Build
import PassTuner.Proofs.Cache.Scratch
import PassTuner.Proofs.Tool.Conduct

/-!
# What building does to a site

Building a variant changes files of that variant only, until it succeeds: then the manifest has the
digests of what was built and is on the disk. What was built keeps to the conduct of the tools, and
so does every failure, as long as the names of the variant's files are short enough.
-/

namespace PassTuner

namespace Site

/-- The files of a variant. -/
def FilesOf (s : Site) (v : Variant) (p : Place) : Prop :=
  p = s.codePlace v ∨ p = s.executablePlace v

theorem FilesOf.owns {s : Site} {v : Variant} {p : Place} (h : s.FilesOf v p) : s.Owns p := by
  rcases h with rfl | rfl
  · exact .code v
  · exact .executable v

/-- A manifest with one more variant. -/
def entered (m : Manifest) (v : Variant) (code executable : ByteArray) : Manifest :=
  m.insert v.encode ⟨Digest.ofBytes code, Digest.ofBytes executable⟩

/-- The file of a manifest. -/
def manifestFile (m : Manifest) : Node := .file m.toJson.indented.toUTF8

end Site

namespace Program

variable {σ : Type} {s : Site} {m : Manifest} {v : Variant} {c x : ByteArray} {b b' : Bench σ}
  {e : EnvironmentError} {tc : Toolchain σ} {C : Conduct}

/-- A program that works at a site. -/
structure At (s : Site) (m : Manifest) (p : Program) : Prop where
  cache : p.cache = s.cache m
  name : p.name = s.stem

/-- A variant was built and entered. -/
structure Enters (s : Site) (m : Manifest) (v : Variant) (c x : ByteArray) (b : Bench σ) :
    Prop where
  cache : b.program.cache = s.cache (Site.entered m v c x)
  code : b.world.disk.get? (s.codePlace v) = some (.file c)
  executable : b.world.disk.get? (s.executablePlace v) = some (.file x)
  manifest : b.world.disk.get? s.manifestPlace = some (Site.manifestFile (Site.entered m v c x))
  nameable : s.Nameable v

theorem recordVariant_of_files (hs : s.Clear) (hp : At s m b.program) (hd : s.Laid b.world.disk)
    (hir : b.world.disk.Leads (s.artifacts v).ir (s.codePlace v))
    (hc : b.world.disk.get? (s.codePlace v) = some (.file c))
    (hexe : b.world.disk.Leads (s.artifacts v).executable (s.executablePlace v))
    (hx : b.world.disk.get? (s.executablePlace v) = some (.file x)) :
    ∃ b', recordVariant v b = .ok () b' ∧ Enters s m v c x b' ∧
      Disk.ChangedOnly (· = s.manifestPlace) b.world.disk b'.world.disk := by
  have hrc := hir.read_of_file hc
  have hrx := hexe.read_of_file hx
  have hdc : Cache.digestFile b.world.disk (s.artifacts v).ir = .ok (Digest.ofBytes c) := by
    simp [Cache.digestFile, hrc, Except.map]
  have hdx : Cache.digestFile b.world.disk (s.artifacts v).executable = .ok (Digest.ofBytes x) := by
    simp [Cache.digestFile, hrx, Except.map]
  have henter : (s.cache m).enter b.world.disk v = .ok (s.cache (Site.entered m v c x)) := by
    simp only [Cache.enter, Site.artifacts_cache, hdc, hdx]
    rfl
  have hsave : (s.cache (Site.entered m v c x)).save b.world.disk =
      .ok (b.world.disk.put s.manifestPlace (Site.manifestFile (Site.entered m v c x))) := by
    have hw := hd.manifest.write (Site.entered m v c x).toJson.indented.toUTF8
    rw [Site.manifestPath] at hw
    simp only [Cache.save, Disk.writeText, Site.cache, hw]
    rfl
  have hchanged := Disk.changedOnly_put hd.manifest.apart
    (Site.entered m v c x).toJson.indented.toUTF8
  let saved := b.world.disk.put s.manifestPlace (Site.manifestFile (Site.entered m v c x))
  refine ⟨⟨{ b.world with disk := saved },
    { b.program with cache := s.cache (Site.entered m v c x) }⟩, ?_, ⟨rfl, ?_, ?_, ?_,
    hd.nameable hs hir hexe⟩, hchanged⟩
  · simp only [recordVariant, hp.cache, Cache.record, henter, hsave, saved]
  · rw [← hc]
    exact hchanged.same _ (hs.codePlace_ne_manifestPlace v)
  · rw [← hx]
    exact hchanged.same _ (hs.executablePlace_ne_manifestPlace v)
  · exact Disk.get?_put_same _ (List.cons_ne_nil _ _) _

/-! ## Assembling -/

theorem assemble_eq (tc : Toolchain σ) (v : Variant) (object : String) (b : Bench σ) :
    assemble tc v object b =
      (Work.demand (tc.compile (b.program.cache.artifacts v).ir object)
          (.buildFailed b.program.name v) >>= fun _ =>
        Work.demand (tc.link object (b.program.cache.artifacts v).executable)
          (.buildFailed b.program.name v) >>= fun _ => recordVariant v)
        { b with program :=
          { b.program with stats :=
            { b.program.stats with builds := b.program.stats.builds + 1 } } } :=
  rfl

/-- What assembling changes on the disk. -/
def Assembling (s : Site) (v : Variant) (p : Place) : Prop :=
  p = s.objectPlace ∨ p = s.executablePlace v

theorem Assembling.parent {d : Disk} {p : Place} (hd : s.Scratched d)
    (hp : Assembling s v p ∨ p = s.manifestPlace) : d.get? p.tail = some .directory := by
  rcases hp with (rfl | rfl) | rfl
  · exact hd.scratch_directory
  · exact hd.place
  · exact hd.place

/-- The code of a variant was compiled. -/
structure Compiled (C : Conduct) (s : Site) (v : Variant) (c object : ByteArray) (b b₁ : Bench σ) :
    Prop where
  program : b₁.program = b.program
  code : b.world.disk.get? (s.codePlace v) = some (.file c)
  leads : b₁.world.disk.Leads (s.artifacts v).ir (s.codePlace v)
  kept : b₁.world.disk.get? (s.codePlace v) = some (.file c)
  reads : b₁.world.disk.read s.objectPath = .ok object
  made : C.compile c (.ok object)
  scratched : s.Scratched b₁.world.disk
  changed : Disk.ChangedOnly (· = s.objectPlace) b.world.disk b₁.world.disk

theorem compiled_of_ok (hs : s.Clear) (tidy : tc.Tidy C)
    {refusal : ToolOutput → EnvironmentError}
    (h : Work.demand (tc.compile (s.artifacts v).ir s.objectPath) refusal b = .ok () b')
    (hd : s.Scratched b.world.disk) :
    ∃ c object, Compiled C s v c object b b' := by
  obtain ⟨hprogram, hc, c, q, object, hread, hq, hobject, hmade⟩ := Work.demand_ok tidy.compile h
  obtain rfl := hd.eq_objectPlace hs hq
  have hchanged := hc.mono fun p hp => hd.eq_objectPlace hs hp
  have hir := hd.leads_code_of_read hs hread
  have hcode := hir.of_read hread
  have hsame := hchanged.same _ (hd.ne_objectPlace (.code v))
  refine ⟨c, object, hprogram, hcode, hc.leads hir, by rw [hsame, hcode],
    (hc.leads hq).read_of_file hobject, hmade, hd.of_changedOnly hchanged fun p hp => ?_, hchanged⟩
  rw [hp]
  exact hd.scratch_directory

/-- The object of a variant was linked. -/
structure Linked (C : Conduct) (s : Site) (v : Variant) (c object x : ByteArray) (b b₁ : Bench σ) :
    Prop where
  program : b₁.program = b.program
  code : b₁.world.disk.get? (s.codePlace v) = some (.file c)
  executable : b₁.world.disk.get? (s.executablePlace v) = some (.file x)
  leadsCode : b₁.world.disk.Leads (s.artifacts v).ir (s.codePlace v)
  leads : b₁.world.disk.Leads (s.artifacts v).executable (s.executablePlace v)
  made : C.link object (.ok x)
  scratched : s.Scratched b₁.world.disk
  changed : Disk.ChangedOnly (· = s.executablePlace v) b.world.disk b₁.world.disk

theorem Compiled.linked_of_ok {object : ByteArray} {b₀ : Bench σ}
    (hcompiled : Compiled C s v c object b₀ b) (hs : s.Clear) (tidy : tc.Tidy C)
    {refusal : ToolOutput → EnvironmentError}
    (h : Work.demand (tc.link s.objectPath (s.artifacts v).executable) refusal b = .ok () b') :
    ∃ x, Linked C s v c object x b b' := by
  have hd := hcompiled.scratched
  obtain ⟨hprogram, hc, object', q, x, hread, hq, hx, hlinked⟩ := Work.demand_ok tidy.link h
  obtain rfl := hd.eq_executablePlace hs hq
  rw [hcompiled.reads] at hread
  cases hread
  have hchanged := hc.mono fun p hp => hd.eq_executablePlace hs hp
  have hsame := hchanged.same _ (hs.codePlace_ne_executablePlace v v)
  refine ⟨x, hprogram, by rw [hsame, hcompiled.kept], hx, hc.leads hcompiled.leads, hc.leads hq,
    hlinked, hd.of_changedOnly hchanged fun p hp => ?_, hchanged⟩
  rw [hp]
  exact hd.place

theorem assemble_ok (hs : s.Clear) (tidy : tc.Tidy C) (hp : At s m b.program)
    (hd : s.Scratched b.world.disk) (h : assemble tc v s.objectPath b = .ok () b') :
    ∃ c x, C.Assembled c x ∧ b.world.disk.get? (s.codePlace v) = some (.file c) ∧
      Enters s m v c x b' ∧ Disk.ChangedOnly
        (fun p => Assembling s v p ∨ p = s.manifestPlace) b.world.disk b'.world.disk := by
  rw [assemble_eq, hp.cache, Site.artifacts_cache] at h
  obtain ⟨_, b₁, hcompile, h⟩ := EStateM.of_bind_ok h
  obtain ⟨c, object, h₁⟩ := compiled_of_ok hs tidy hcompile hd
  obtain ⟨_, b₂, hlink, h⟩ := EStateM.of_bind_ok h
  obtain ⟨x, h₂⟩ := h₁.linked_of_ok hs tidy hlink
  have hp₂ : At s m b₂.program := by
    rw [h₂.program, h₁.program]
    exact ⟨hp.cache, hp.name⟩
  obtain ⟨b₃, hrecord, henters, hrecorded⟩ := recordVariant_of_files hs hp₂ h₂.scratched.toLaid
    h₂.leadsCode h₂.code h₂.leads h₂.executable
  rw [hrecord] at h
  cases h
  refine ⟨c, x, ⟨object, h₁.made, h₂.made⟩, h₁.code, henters, ?_⟩
  refine ((h₁.changed.mono ?_).trans (h₂.changed.mono ?_)).trans (hrecorded.mono ?_)
  · rintro p rfl
    exact .inl (.inl rfl)
  · rintro p rfl
    exact .inl (.inr rfl)
  · rintro p rfl
    exact .inr rfl

/-- The bench once a build is counted. -/
def counting (b : Bench σ) : Bench σ :=
  { b with program :=
    { b.program with stats := { b.program.stats with builds := b.program.stats.builds + 1 } } }

/-- Assembling fails where a tool fails: what the tools have written can be entered. -/
theorem of_assemble_error (hs : s.Clear) (tidy : tc.Tidy C) (hp : At s m b.program)
    (hd : s.Scratched b.world.disk) (h : assemble tc v s.objectPath b = .error e b') :
    Work.demand (tc.compile (s.artifacts v).ir s.objectPath) (.buildFailed s.stem v)
        (counting b) = .error e b' ∨
      ∃ c object b₁, Compiled C s v c object (counting b) b₁ ∧
        Work.demand (tc.link s.objectPath (s.artifacts v).executable) (.buildFailed s.stem v) b₁ =
          .error e b' := by
  rw [assemble_eq, hp.cache, hp.name, Site.artifacts_cache] at h
  rcases EStateM.of_bind_error h with hcompile | ⟨_, b₁, hcompile, h⟩
  · exact .inl hcompile
  obtain ⟨c, object, h₁⟩ := compiled_of_ok hs tidy hcompile hd
  rcases EStateM.of_bind_error h with hlink | ⟨_, b₂, hlink, h⟩
  · exact .inr ⟨c, object, b₁, h₁, hlink⟩
  obtain ⟨x, h₂⟩ := h₁.linked_of_ok hs tidy hlink
  have hp₂ : At s m b₂.program := by
    rw [h₂.program, h₁.program]
    exact ⟨hp.cache, hp.name⟩
  obtain ⟨b₃, hrecord, _, _⟩ := recordVariant_of_files hs hp₂ h₂.scratched.toLaid
    h₂.leadsCode h₂.code h₂.leads h₂.executable
  rw [hrecord] at h
  cases h

theorem assemble_error (hs : s.Clear) (tidy : tc.Tidy C) (hp : At s m b.program)
    (hd : s.Scratched b.world.disk) (h : assemble tc v s.objectPath b = .error e b') :
    b'.program.cache = b.program.cache ∧
    Disk.ChangedOnly (Assembling s v) b.world.disk b'.world.disk ∧
    ∀ c, b.world.disk.read (s.artifacts v).ir = .ok c → s.Fits v →
      b.world.disk.get? s.objectPlace ≠ some .directory →
      ∃ failure, C.Unassembled c failure ∧ e = failure.report (.buildFailed s.stem v) := by
  rcases of_assemble_error hs tidy hp hd h with hcompile | ⟨c, object, b₁, h₁, hlink⟩
  · obtain ⟨hprogram, hc, hfails⟩ := Work.demand_error tidy.compile hcompile
    refine ⟨by rw [hprogram]; rfl, hc.mono fun p hp => ?_, fun c hread hfits hapart => ?_⟩
    · exact .inl (hd.eq_objectPlace hs hp)
    · obtain ⟨failure, hf, he⟩ := hfails c _ hread (hd.leads_object hs hfits.object hapart)
      exact ⟨failure, .inl hf, he⟩
  · have hcompiled := h₁.changed.mono (Q := Assembling s v) (by
      rintro p rfl
      exact .inl rfl)
    obtain ⟨hprogram, hc, hfails⟩ := Work.demand_error tidy.link hlink
    refine ⟨by rw [hprogram, h₁.program]; rfl, hcompiled.trans (hc.mono fun p hp => ?_), ?_⟩
    · exact .inr (h₁.scratched.eq_executablePlace hs hp)
    · intro c' hread hfits _
      have hcode : b.world.disk.get? (s.codePlace v) = some (.file c) := h₁.code
      rw [(hd.leads_code_of_read hs hread).of_read hread] at hcode
      cases hcode
      obtain ⟨failure, hf, he⟩ :=
        hfails object _ h₁.reads (h₁.scratched.leads_executable hs hfits.toNameable)
      exact ⟨failure, .inr ⟨object, h₁.made, hf⟩, he⟩

/-! ## Working in a scratch directory -/

/-- The bench with another disk. -/
def withDisk (b : Bench σ) (d : Disk) : Bench σ := { b with world := { b.world with disk := d } }

theorem withScratch_eq {α : Type} (work : String → Work σ α) (hp : At s m b.program)
    (hd : s.On b.world.disk) :
    withScratch work b = match b.world.disk.makeDirectory s.scratchPath with
      | .error e => .error (.file s.directory e) b
      | .ok made => Work.cleaning (·.remove s.scratchPath) (work s.scratchPath)
          (withDisk b made) := by
  have hpath : Path.join b.program.cache.directory
      (b.world.disk.freeName b.program.cache.directory ".obj" b.program.name) = s.scratchPath := by
    rw [hp.cache, hp.name]
    exact congrArg (Path.join s.directory) hd.scratch
  have hdirectory : b.program.cache.directory = s.directory := by rw [hp.cache]; rfl
  have hprogram : (Work.program : Work σ Program) b = .ok b.program b := rfl
  have hdisk : (Work.disk : Work σ Disk) b = .ok b.world.disk b := rfl
  unfold withScratch
  rw [EStateM.bind_of_ok hprogram, EStateM.bind_of_ok hdisk, hpath, hdirectory]
  cases b.world.disk.makeDirectory s.scratchPath <;> rfl

theorem cleaning_eq {α : Type} (f : Disk → Disk) (work : Work σ α) (b : Bench σ) :
    Work.cleaning f work b = match work b with
      | .ok a b => .ok a (withDisk b (f b.world.disk))
      | .error e b => .error e (withDisk b (f b.world.disk)) := rfl

/-- Taking the scratch directory away leaves what was entered. -/
theorem Enters.erase (hd : s.Scratched b.world.disk) (h : Enters s m v c x b) :
    Enters s m v c x (withDisk b (b.world.disk.erase s.scratchPlace)) := by
  have kept (p : Place) (hp : s.Owns p) :
      (b.world.disk.erase s.scratchPlace).get? p = b.world.disk.get? p :=
    Disk.get?_erase_other _ (hd.outside p hp)
  exact ⟨h.cache, (kept _ (.code v)).trans h.code, (kept _ (.executable v)).trans h.executable,
    (kept _ .manifest).trans h.manifest, h.nameable⟩

/-- Assembling a variant by way of an object in a scratch directory. -/
def assembleAside (tc : Toolchain σ) (v : Variant) (name : String) : Work σ Unit :=
  withScratch fun scratch => assemble tc v (Path.join scratch s!"{name}.o")

theorem assembleAside_ok (hs : s.Clear) (tidy : tc.Tidy C) (hp : At s m b.program)
    (hd : s.On b.world.disk) (h : assembleAside tc v s.stem b = .ok () b') :
    ∃ c x, C.Assembled c x ∧ b.world.disk.get? (s.codePlace v) = some (.file c) ∧
      Enters s m v c x b' ∧ Disk.ChangedOnly
        (fun p => p = s.executablePlace v ∨ p = s.manifestPlace) b.world.disk b'.world.disk := by
  rw [assembleAside, withScratch_eq _ hp hd] at h
  by_cases hshort : Site.Short s.directory s.scratch
  · rw [hd.makeDirectory_short hs hshort] at h
    have hscratched := hd.scratched hs hshort
    let b₀ := withDisk b (b.world.disk.put s.scratchPlace .directory)
    change Work.cleaning _ (assemble tc v s.objectPath) b₀ = _ at h
    rw [cleaning_eq] at h
    cases hassemble : assemble tc v s.objectPath b₀ with
    | error e b₁ =>
      rw [hassemble] at h
      cases h
    | ok _ b₁ =>
      obtain ⟨c, x, hmade, hcode, henters, hchanged⟩ := assemble_ok (b := b₀) hs tidy hp hscratched
        hassemble
      have hd₁ : s.Scratched b₁.world.disk :=
        hscratched.of_changedOnly hchanged fun p hp => Assembling.parent hscratched hp
      rw [hassemble] at h
      dsimp only at h
      rw [hd₁.remove_scratch] at h
      cases h
      have hkept := Disk.get?_put_other b.world.disk (hs.owns_ne_scratchPlace (.code v)) .directory
      refine ⟨c, x, hmade, hkept ▸ hcode, henters.erase hd₁, ?_⟩
      refine Disk.changedOnly_scratch hd.tree (hd.vacant_scratch hs hshort) (hchanged.mono ?_)
      rintro p ((rfl | hp) | hp)
      · exact .inr (List.suffix_cons _ _)
      · exact .inl (.inl hp)
      · exact .inl (.inr hp)
  · rw [hd.makeDirectory_long hs hshort] at h
    cases h

theorem assembleAside_error (hs : s.Clear) (tidy : tc.Tidy C) (hp : At s m b.program)
    (hd : s.On b.world.disk) (h : assembleAside tc v s.stem b = .error e b') :
    b'.program.cache = b.program.cache ∧
    Disk.ChangedOnly (· = s.executablePlace v) b.world.disk b'.world.disk ∧
    ∀ c, b.world.disk.get? (s.codePlace v) = some (.file c) → s.Fits v →
      ∃ failure, C.Unassembled c failure ∧ e = failure.report (.buildFailed s.stem v) := by
  rw [assembleAside, withScratch_eq _ hp hd] at h
  by_cases hshort : Site.Short s.directory s.scratch
  · rw [hd.makeDirectory_short hs hshort] at h
    have hscratched := hd.scratched hs hshort
    let b₀ := withDisk b (b.world.disk.put s.scratchPlace .directory)
    change Work.cleaning _ (assemble tc v s.objectPath) b₀ = _ at h
    rw [cleaning_eq] at h
    cases hassemble : assemble tc v s.objectPath b₀ with
    | ok _ b₁ =>
      rw [hassemble] at h
      cases h
    | error e b₁ =>
      obtain ⟨hcache, hchanged, hfails⟩ := assemble_error (b := b₀) hs tidy hp hscratched hassemble
      have hd₁ : s.Scratched b₁.world.disk :=
        hscratched.of_changedOnly hchanged fun p hp => Assembling.parent hscratched (.inl hp)
      rw [hassemble] at h
      dsimp only at h
      rw [hd₁.remove_scratch] at h
      cases h
      refine ⟨hcache, ?_, fun c hcode hfits => hfails c ?_ hfits ?_⟩
      · refine Disk.changedOnly_scratch hd.tree (hd.vacant_scratch hs hshort) (hchanged.mono ?_)
        rintro p (rfl | hp)
        · exact .inr (List.suffix_cons _ _)
        · exact .inl hp
      · refine (hscratched.leads_code hs hfits.toNameable).read_of_file ?_
        rw [← hcode]
        exact Disk.get?_put_other _ (hs.owns_ne_scratchPlace (.code v)) _
      · have hne : s.objectPlace ≠ s.scratchPlace := by
          intro heq
          have hlength := congrArg List.length heq
          simp [Site.objectPlace] at hlength
        have hvacant : b.world.disk.get? s.objectPlace = none :=
          hd.tree.inside (by simp [hd.vacant_scratch hs hshort]) (List.suffix_cons _ _) hne
        change (b.world.disk.put s.scratchPlace .directory).get? s.objectPlace ≠ _
        rw [Disk.get?_put_other _ hne, hvacant]
        exact nofun
  · rw [hd.makeDirectory_long hs hshort] at h
    cases h
    exact ⟨rfl, Disk.ChangedOnly.refl _ _, fun c _ hfits => absurd hfits.scratch hshort⟩

/-! ## Transforming -/

theorem transformInto_eq (tc : Toolchain σ) (v : Variant) (flag : String) (b : Bench σ) :
    transformInto tc v flag b =
      Work.demand (tc.transform flag (b.program.cache.artifacts b.program.lineage).ir
          (b.program.cache.artifacts v).ir) (.transformFailed b.program.name v flag)
        { b with program := { b.program with
          stats := { b.program.stats with transforms := b.program.stats.transforms + 1 } } } :=
  rfl

theorem transformInto_ok (hs : s.Clear) (tidy : tc.Tidy C) (hp : At s m b.program)
    (hd : s.On b.world.disk) {flag : String} (h : transformInto tc v flag b = .ok () b') :
    At s m b'.program ∧ Disk.ChangedOnly (· = s.codePlace v) b.world.disk b'.world.disk ∧
    ∃ c₀ c, b.world.disk.get? (s.codePlace b.program.lineage) = some (.file c₀) ∧
      b'.world.disk.get? (s.codePlace v) = some (.file c) ∧ C.transform flag c₀ (.ok c) := by
  rw [transformInto_eq, hp.cache, Site.artifacts_cache, Site.artifacts_cache] at h
  obtain ⟨hprogram, hc, c₀, q, c, hread, hq, hcode, hmade⟩ := Work.demand_ok (tidy.transform flag) h
  obtain rfl := hd.eq_codePlace hs hq
  refine ⟨?_, hc.mono fun p hp => hd.eq_codePlace hs hp, c₀, c,
    (hd.leads_code_of_read hs hread).of_read hread, hcode, hmade⟩
  rw [hprogram]
  exact ⟨hp.cache, hp.name⟩

theorem transformInto_error (hs : s.Clear) (tidy : tc.Tidy C) (hp : At s m b.program)
    (hd : s.On b.world.disk) {flag : String} (h : transformInto tc v flag b = .error e b') :
    b'.program.cache = b.program.cache ∧
    Disk.ChangedOnly (· = s.codePlace v) b.world.disk b'.world.disk ∧
    ∀ c₀, b.world.disk.get? (s.codePlace b.program.lineage) = some (.file c₀) →
      s.Fits b.program.lineage → s.Fits v → ∃ failure, C.transform flag c₀ (.error failure) ∧
        e = failure.report (.transformFailed s.stem v flag) := by
  rw [transformInto_eq, hp.cache, hp.name, Site.artifacts_cache, Site.artifacts_cache] at h
  obtain ⟨hprogram, hc, hfails⟩ := Work.demand_error (tidy.transform flag) h
  refine ⟨by rw [hprogram], hc.mono fun p hp => hd.eq_codePlace hs hp, ?_⟩
  intro c₀ hcode hlineage hfits
  exact hfails c₀ _ ((hd.leads_code hs hlineage.toNameable).read_of_file hcode)
    (hd.leads_code hs hfits.toNameable)

/-! ## Rebuilding -/

theorem rebuild_some (tc : Toolchain σ) (v : Variant) (flag : String) (b : Bench σ) :
    rebuild tc v (some flag) b = (transformInto tc v flag >>= fun _ =>
      assembleAside tc v b.program.name >>= fun _ => pure (b.program.cache.artifacts v)) b := rfl

theorem rebuild_none (tc : Toolchain σ) (v : Variant) (b : Bench σ) :
    rebuild tc v none b =
      if b.world.disk.isFile (b.program.cache.artifacts v).ir then
        (assembleAside tc v b.program.name >>= fun _ => pure (b.program.cache.artifacts v)) b
      else .error (.cacheCorrupted (b.program.cache.artifacts v).ir .codeMissing) b := by
  change (if (!b.world.disk.isFile (b.program.cache.artifacts v).ir) = true then _ else _ :
    Work σ Artifacts) b = _
  cases b.world.disk.isFile (b.program.cache.artifacts v).ir <;> rfl

end Program

end PassTuner
