import PassTuner.Proofs.Cache.Site

/-!
# Sites that stay as they are

Everything stays where a site says while files of the site come and go. Its paths lead to its places
and nowhere else, and they do lead there as long as names and paths are short enough for the system.
-/

namespace PassTuner.Site

variable {s : Site} {d d' : Disk} {v w : Variant} {p : Place} {P : Place → Prop}

/-- The places of a site where files come and go. -/
inductive Owns (s : Site) : Place → Prop where
  | code (v : Variant) : Owns s (s.codePlace v)
  | executable (v : Variant) : Owns s (s.executablePlace v)
  | manifest : Owns s s.manifestPlace

theorem Laid.place (h : s.Laid d) : d.get? s.place = some .directory :=
  h.tree.get?_of_locate h.directory

theorem tail_codePlace (hv : v ≠ .base) : (s.codePlace v).tail = s.place := by
  obtain ⟨name, hname, _⟩ := irName?_of_ne hv s.stem
  simp [codePlace, hname]

theorem Laid.parent (h : s.Laid d) (hp : s.Owns p) : d.get? p.tail = some .directory := by
  cases hp with
  | code v =>
    by_cases hv : v = .base
    · subst hv
      exact h.source.parent h.tree
    · rw [tail_codePlace hv]
      exact h.place
  | executable v => exact h.place
  | manifest => exact h.place

theorem Laid.apart (h : s.Laid d) (hp : s.Owns p) : d.get? p ≠ some .directory := by
  cases hp with
  | code v => exact h.code v
  | executable v => exact h.executable v
  | manifest => exact h.manifest.apart

theorem Clear.owns_ne_numbered (hs : s.Clear) (hp : s.Owns p) {n : Nat}
    (hn : Disk.numbered ".obj" n ≠ s.stem) : p ≠ Disk.numbered ".obj" n :: s.place := by
  cases hp with
  | code v => exact hs.codePlace_ne_numbered v n
  | executable v => exact executablePlace_ne_numbered v hn
  | manifest => exact s.manifestPlace_ne_numbered n

theorem Laid.of_changedOnly (h : s.Laid d) (hc : Disk.ChangedOnly P d d')
    (hP : ∀ p, P p → d.get? p.tail = some .directory) : s.Laid d' where
  tree := hc.isTree h.tree hP
  directory := Disk.locate_directory hc.home (fun r hr => (hc.directories r).2 hr) h.directory
  source := hc.leads h.source
  manifest := hc.leads h.manifest
  code v := by
    rw [Ne, hc.directories]
    exact h.code v
  executable v := by
    rw [Ne, hc.directories]
    exact h.executable v

/-- Nothing that happens to files of the site moves anything. -/
theorem On.of_changedOnly (hs : s.Clear) (h : s.On d) (hc : Disk.ChangedOnly P d d')
    (hP : ∀ p, P p → s.Owns p) : s.On d' := by
  have hl := h.toLaid.of_changedOnly hc fun p hp => h.parent (hP p hp)
  refine ⟨hl, ?_⟩
  rw [← h.scratch]
  refine Disk.freeName_congr h.directory hl.directory plain_numbered fun n hn => ?_
  exact hc.same _ fun hp => hs.owns_ne_numbered (hP _ hp) hn rfl

/-! ## Paths of artifacts -/

theorem eq_base_of_irName? (h : v.irName? s.stem = none) : v = .base := by
  by_contra hne
  obtain ⟨name, heq, _⟩ := irName?_of_ne hne s.stem
  rw [h] at heq
  cases heq

theorem ir_of_some {name : String} (h : v.irName? s.stem = some name) :
    (s.artifacts v).ir = Path.join s.directory name ∧ s.codePlace v = name :: s.place := by
  simp [artifacts, Cache.artifacts, cache, codePlace, h]

theorem Laid.eq_codePlace (hs : s.Clear) (h : s.Laid d) (hl : d.Leads (s.artifacts v).ir p) :
    p = s.codePlace v := by
  cases hname : v.irName? s.stem with
  | none =>
    obtain rfl := eq_base_of_irName? hname
    exact hl.unique h.source
  | some name =>
    obtain ⟨hpath, hplace⟩ := ir_of_some hname
    rw [hpath] at hl
    rw [hplace]
    exact hl.eq_of_join h.directory (plain_code hs.stem hname)

theorem Laid.eq_executablePlace (hs : s.Clear) (h : s.Laid d)
    (hl : d.Leads (s.artifacts v).executable p) : p = s.executablePlace v :=
  hl.eq_of_join h.directory (plain_executable hs.stem v)

/-- A file that can be read by a path in a directory is there. -/
theorem leads_of_read {base name : String} {place : Place} {content : ByteArray}
    (hb : d.locate base = .ok (.present place .directory)) (hn : Path.Plain name)
    (apart : d.get? (name :: place) ≠ some .directory)
    (h : d.read (Path.join base name) = .ok content) :
    d.Leads (Path.join base name) (name :: place) := by
  refine ⟨?_, apart, Path.endsInSlash_join (Disk.followable_of_locate hb).nonempty hn⟩
  have hl := Disk.locate_join hb hn
  split at hl
  · unfold Disk.read Disk.node? at h
    rw [hl] at h
    cases h
  · exact hl

theorem Laid.leads_code_of_read (hs : s.Clear) (h : s.Laid d) {content : ByteArray}
    (hr : d.read (s.artifacts v).ir = .ok content) :
    d.Leads (s.artifacts v).ir (s.codePlace v) := by
  cases hname : v.irName? s.stem with
  | none =>
    obtain rfl := eq_base_of_irName? hname
    exact h.source
  | some name =>
    obtain ⟨hpath, hplace⟩ := ir_of_some hname
    have hapart := h.code v
    rw [hpath] at hr ⊢
    rw [hplace] at hapart ⊢
    exact leads_of_read h.directory (plain_code hs.stem hname) hapart hr

theorem Laid.leads_executable_of_read (hs : s.Clear) (h : s.Laid d) {content : ByteArray}
    (hr : d.read (s.artifacts v).executable = .ok content) :
    d.Leads (s.artifacts v).executable (s.executablePlace v) :=
  leads_of_read h.directory (plain_executable hs.stem v) (h.executable v) hr

/-! ## Names that are short enough -/

/-- A name and its path in a directory that the system can hold. -/
structure Short (directory name : String) : Prop where
  shortName : name.utf8ByteSize ≤ Disk.longestName
  shortPath : (Path.join directory name).utf8ByteSize ≤ Disk.longestPath

/-- A variant whose artifacts have short names. -/
structure Nameable (s : Site) (v : Variant) : Prop where
  code : ∀ name, v.irName? s.stem = some name → Short s.directory name
  executable : Short s.directory (v.executableName s.stem)

/-- A variant that can be built, an object of it included. -/
structure Fits (s : Site) (v : Variant) : Prop extends s.Nameable v where
  scratch : Short s.directory s.scratch
  object : Short s.scratchPath s!"{s.stem}.o"

theorem short_iff {directory name : String} : Short directory name ↔
    ¬(Disk.longestPath < (Path.join directory name).utf8ByteSize ∨
      Disk.longestName < name.utf8ByteSize) := by
  constructor
  · rintro ⟨h₁, h₂⟩
    omega
  · intro h
    exact ⟨by omega, by omega⟩

theorem short_of_leads {base name : String} {place : Place}
    (hb : d.locate base = .ok (.present place .directory)) (hn : Path.Plain name)
    (h : d.Leads (Path.join base name) p) : Short base name := by
  rw [short_iff]
  intro hlong
  have hl := h.located
  rw [Disk.locate_join hb hn, if_pos hlong] at hl
  cases hl

theorem Laid.leads_code (hs : s.Clear) (h : s.Laid d) (hf : s.Nameable v) :
    d.Leads (s.artifacts v).ir (s.codePlace v) := by
  cases hname : v.irName? s.stem with
  | none =>
    obtain rfl := eq_base_of_irName? hname
    exact h.source
  | some name =>
    obtain ⟨hpath, hplace⟩ := ir_of_some hname
    have hshort := hf.code name hname
    have hapart := h.code v
    rw [hplace] at hapart ⊢
    rw [hpath]
    exact Disk.leads_join h.directory (plain_code hs.stem hname) hshort.shortPath
      hshort.shortName hapart

theorem Laid.leads_executable (hs : s.Clear) (h : s.Laid d) (hf : s.Nameable v) :
    d.Leads (s.artifacts v).executable (s.executablePlace v) :=
  Disk.leads_join h.directory (plain_executable hs.stem v) hf.executable.shortPath
    hf.executable.shortName
    (h.executable v)

theorem Laid.nameable (hs : s.Clear) (h : s.Laid d) (hcode : d.Leads (s.artifacts v).ir p)
    {q : Place} (hexecutable : d.Leads (s.artifacts v).executable q) : s.Nameable v := by
  refine ⟨fun name hname => ?_, short_of_leads h.directory (plain_executable hs.stem v) hexecutable⟩
  rw [(ir_of_some hname).1] at hcode
  exact short_of_leads h.directory (plain_code hs.stem hname) hcode

end PassTuner.Site
