import PassTuner.Proofs.Cache.Checking
import PassTuner.Proofs.Program.Opening
import PassTuner.Proofs.Program.Recording
import PassTuner.Proofs.Session.Events

/-!
# Programs side by side

The programs that are opened from the files of one directory keep their own files in directories of
their own, named by the stems, and no two of these files are one. The exception is a source with the
stem `manifest.json`: its base executable and its manifest have the same path. Main statement:
`files_apart_iff_unreserved`.
-/

namespace PassTuner

namespace Path

variable {base name stem extension : String}

theorem fileName?_join (hn : Plain name) : fileName? (join base name) = some name := by
  unfold fileName?
  rw [names_join hn]
  cases names base with
  | nil => split <;> simp [hn.here, hn.up]
  | cons first rest => split <;> simp [hn.here, hn.up, List.getLast?_cons]

theorem cutName_of_join (hn : Plain name) (hstem : stem? (join base name) = some stem)
    (hextension : extension? (join base name) = some extension) :
    cutName name = (stem, some extension) := by
  rw [stem?, fileName?_join hn, Option.map_some] at hstem
  rw [extension?, fileName?_join hn, Option.bind_some] at hextension
  exact Prod.ext (Option.some.inj hstem) hextension

end Path

namespace Disk

variable {d : Disk} {path base name : String} {p q : Place}

/-! ## Where a joined name leads -/

theorem leads_of_read {content : ByteArray} (h : d.read path = .ok content) :
    ∃ p, d.Leads path p := by
  unfold read node? at h
  cases hl : d.locate path with
  | error e => simp [hl] at h
  | ok t =>
    rcases get?_of_follow (follow_of_locate hl) with ⟨p, rfl⟩ | ⟨p, rfl, apart⟩
    · simp [hl] at h
    · refine ⟨p, hl, apart, ?_⟩
      cases hg : d.get? p with
      | none => simp [hl, target_of_none hg] at h
      | some node =>
        cases node with
        | directory => exact absurd hg apart
        | file content' =>
          have hfollow := follow_of_locate hl
          rw [locate_of_followable (followable_of_locate hl), hfollow, target_of_some hg] at hl
          cases hslash : Path.endsInSlash path with
          | true => simp [hslash] at hl
          | false => rfl

/-- The name at the end of a path to a file stands for itself. -/
theorem Leads.plain_of_slashless (h : d.Leads (Path.join base name) p) (hne : name ≠ "")
    (hs : '/' ∉ name.toList) (hnul : '\x00' ∉ name.toList) : Path.Plain name := by
  have hfollow := follow_of_locate h.located
  rw [Path.names_join_of_slashless hne hs] at hfollow
  obtain ⟨here, up, -⟩ := follow_last hfollow h.apart
  exact ⟨hne, here, up, hs, hnul⟩

/-- What a name that is joined to a path leads to lies in the directory that the path leads to. -/
theorem of_follow_join (hn : Path.Plain name) {t : Target}
    (h : d.follow (d.start (Path.join base name)) (Path.names (Path.join base name)) = .ok t) :
    ∃ place, d.follow (d.start base) (Path.names base) = .ok (.present place .directory) ∧
      t = d.target (name :: place) := by
  rw [Path.names_join hn, start, Path.isAbsolute_join hn] at h
  obtain ⟨place, hplace⟩ := of_follow_append h
  rw [follow_append hplace, follow_plain hn] at h
  split at h
  · cases h
  · exact ⟨place, hplace, (Except.ok.inj h).symm⟩

theorem followable_of_join (hb : base ≠ "") (hn : Path.Plain name)
    (h : Followable (Path.join base name)) : Followable base := by
  obtain ⟨more, hmore⟩ : ∃ more, (Path.join base name).toList = base.toList ++ more := by
    rw [Path.toList_join hb hn.slash]
    split
    · exact ⟨_, rfl⟩
    · exact ⟨_, rfl⟩
  have htext : Path.join base name = base ++ String.ofList more := by
    rw [← String.toList_inj, hmore, String.toList_append, String.toList_ofList]
  have hsize := h.short
  rw [htext, String.utf8ByteSize_append] at hsize
  refine ⟨fun hc => h.nul ?_, hb, by omega⟩
  rw [hmore]
  exact List.mem_append_left _ hc

theorem Leads.of_join (h : d.Leads (Path.join base name) p) (hb : base ≠ "")
    (hn : Path.Plain name) :
    ∃ place, d.locate base = .ok (.present place .directory) ∧ p = name :: place := by
  obtain ⟨place, hplace, ht⟩ := of_follow_join hn (follow_of_locate h.located)
  refine ⟨place, ?_, target_inj ht⟩
  have followable := followable_of_join hb hn (followable_of_locate h.located)
  rw [locate_of_followable followable, hplace]

/-- The directory that a joined name leads to has that name. -/
theorem directory_of_join (hn : Path.Plain name)
    (h : d.locate (Path.join base name) = .ok (.present p .directory)) :
    ∃ place, d.follow (d.start base) (Path.names base) = .ok (.present place .directory) ∧
      p = name :: place := by
  obtain ⟨place, hplace, ht⟩ := of_follow_join hn (follow_of_locate h)
  refine ⟨place, hplace, ?_⟩
  unfold target at ht
  split at ht <;> cases ht
  rfl

end Disk

namespace Site

variable {s : Site} {d : Disk} {p : Place} {f g : SiteFile}

/-! ## The files of a site -/

/-- Where a program of a source works, if its directory is at some place. -/
def ofSource (settings : EnvironmentSettings) (source stem : String) (place : Place) : Site where
  directory := Path.join settings.workDir stem
  stem := stem
  source := source
  place := place
  origin := [stem ++ ".ll"]
  scratch := Disk.numbered ".obj" (if Disk.numbered ".obj" 0 = stem then 1 else 0)

theorem clear_ofSource (settings : EnvironmentSettings) (source : String) {stem : String}
    (place : Place) (hstem : Path.Plain stem) (unreserved : stem ≠ "manifest.json") :
    (ofSource settings source stem place).Clear := by
  refine ⟨hstem, unreserved, ⟨stem ++ ".ll", [], rfl, ?named⟩, _, rfl, ?scratch⟩
  case named => simp [ofSource, String.toList_append]
  case scratch =>
    simp only [ofSource]
    split
    · rename_i hzero
      rw [← hzero]
      decide
    · assumption

theorem Clear.placeOf_injective (hs : s.Clear) (h : s.placeOf f = s.placeOf g) : f = g := by
  cases f with
  | manifest =>
    exact Classical.not_not.1 fun hne => placeOf_ne_manifestPlace hs (Ne.symm hne) h.symm
  | code v =>
    cases g with
    | manifest => exact absurd h (hs.codePlace_ne_manifestPlace v)
    | code w => exact congrArg _ (hs.codePlace_injective h)
    | executable w => exact absurd h (hs.codePlace_ne_executablePlace v w)
  | executable v =>
    cases g with
    | manifest => exact absurd h (hs.executablePlace_ne_manifestPlace v)
    | code w => exact absurd h.symm (hs.codePlace_ne_executablePlace w v)
    | executable w => exact congrArg _ (executablePlace_injective h)

/-- All files of a site but the source are names in its directory, wherever that is. -/
theorem file_ofSource (settings : EnvironmentSettings) (source : String) {stem : String}
    (hstem : Path.Plain stem) (hf : f ≠ .code .base) :
    ∃ name, Path.Plain name ∧ ∀ place,
      (ofSource settings source stem place).path f =
        Path.join (Path.join settings.workDir stem) name ∧
      (ofSource settings source stem place).placeOf f = name :: place := by
  cases f with
  | manifest => exact ⟨_, plain_manifest, fun _ => ⟨rfl, rfl⟩⟩
  | executable v => exact ⟨_, plain_executable hstem v, fun _ => ⟨rfl, rfl⟩⟩
  | code v =>
    have hv : v ≠ .base := fun heq => hf (congrArg _ heq)
    obtain ⟨name, hname, -⟩ := irName?_of_ne hv stem
    exact ⟨name, plain_code hstem hname, fun place =>
      ir_of_some (s := ofSource settings source stem place) hname⟩

end Site

namespace Program

variable {σ : Type} {settings : EnvironmentSettings} {sources name stem : String}
  {p q : Program} {w w' : World σ} {tc : Toolchain σ} {f g : SiteFile} {v : Variant}

/-! ## What was opened -/

def filePath (p : Program) : SiteFile → String
  | .code v => (p.cache.artifacts v).ir
  | .executable v => (p.cache.artifacts v).executable
  | .manifest => Cache.manifestPath p.cache.directory

/-- The cache is in the same directory, for the same stem and source. -/
def Housed (p q : Program) : Prop := ∃ m, q.cache = { p.cache with manifest := m }

theorem cacheBound_housed : CacheBound Housed where
  refl p := ⟨p.cache.manifest, rfl⟩
  trans p q r := by
    rintro ⟨m, hq⟩ ⟨m', hr⟩
    exact ⟨m', by rw [hr, hq]⟩
  count p _ := ⟨p.cache.manifest, rfl⟩
  record p d v := by
    rcases p.cache.record_cases d v with ⟨e, heq⟩ |
      ⟨_, _, _, _, _, rfl, ⟨e, heq⟩ | ⟨_, _, heq⟩⟩
    all_goals
      rw [heq]
      exact ⟨_, rfl⟩
  of_cache p q _ hcache := ⟨p.cache.manifest, hcache⟩

theorem Housed.artifacts (h : Housed p q) (v : Variant) :
    q.cache.artifacts v = p.cache.artifacts v := by
  obtain ⟨m, hm⟩ := h
  rw [hm]
  rfl

/-- The executable of a variant was read at some time. -/
def Seen (v : Variant) (p : Program) : Prop :=
  ∃ (d : Disk) (content : ByteArray), d.read (p.cache.artifacts v).executable = .ok content

theorem Housed.seen (h : Housed p q) (hp : Seen v p) : Seen v q := by
  unfold Seen
  rw [h.artifacts v]
  exact hp

theorem ends_seen (tc : Toolchain σ) (v : Variant) (flag : Option String) :
    Ends (Seen v) (ensureBuilt tc v flag) := by
  refine Ends.ensureBuilt ?_ ?_ tc flag
  · exact ends_of_entered fun p d code executable _ hexecutable => ⟨d, executable, hexecutable⟩
  · intro p d a stats hlookup
    let s : Site := ⟨p.cache.directory, p.cache.stem, p.cache.source, [], [], ""⟩
    obtain ⟨_, x, _, hx, -⟩ := Site.reads_of_lookup (s := s) (m := p.cache.manifest) hlookup
    exact ⟨d, x, hx⟩

/-- Everything that a program is opened with is made out of the settings and the source, and its
base has an executable. -/
theorem of_open_ok {source : String} (h : Program.open tc settings source w = .ok p w') :
    Path.extension? source = some "ll" ∧ ∃ stem m, Path.stem? source = some stem ∧
      p.cache = ⟨Path.join settings.workDir stem, stem, source, m⟩ ∧ Seen .base p := by
  obtain ⟨extension, file, stem, hstem⟩ := valid_of_open_ok h
  refine ⟨extension, stem, p.cache.manifest, hstem, ?_⟩
  rw [open_of_valid tc settings extension file hstem] at h
  obtain ⟨cache, w₁, hcache, h⟩ := EStateM.of_bind_ok h
  obtain ⟨_, _, m, _, _, _, rfl, _⟩ := of_cacheOpen_ok hcache
  unfold starting at h
  split at h
  case h_2 => cases h
  case h_1 b hb =>
    cases h
    obtain ⟨_, b₁, hbuild, hb⟩ := EStateM.of_bind_ok hb
    obtain ⟨measurement, b₂, hmeasure, hb⟩ := EStateM.of_bind_ok hb
    cases hb
    have hbuilt := (cacheBound_housed.along_build tc).of_ok hbuild
    have hmeasured := (cacheBound_housed.along_measure tc).of_ok hmeasure
    rw [build_of_unbuilt tc rfl] at hbuild
    obtain ⟨a, b₃, hensure, hbuild⟩ := EStateM.of_bind_ok hbuild
    have hseen : Seen .base b₃.program := ends_seen tc _ none _ _ _ hensure
    cases hbuild
    obtain ⟨m', hm'⟩ := cacheBound_housed.trans _ _ _ hbuilt hmeasured
    refine ⟨?_, hmeasured.seen hseen⟩
    rw [hm']
    rfl

/-- A program that was opened from a file of a directory, in whatever world and with whatever
tools. -/
def OpenedFrom (settings : EnvironmentSettings) (sources name : String) (p : Program) : Prop :=
  Path.Plain name ∧ ∃ (σ : Type) (tc : Toolchain σ) (w w' : World σ),
    Program.open tc settings (Path.join sources name) w = .ok p w'

/-- What the name of an opened file says about the program. -/
structure HousedAs (settings : EnvironmentSettings) (sources name stem : String) (p : Program) :
    Prop where
  text : name = stem ++ ".ll"
  plain : Path.Plain stem
  site : ∀ place, ∃ m, p.cache =
    (Site.ofSource settings (Path.join sources name) stem place).cache m
  seen : Seen .base p

theorem OpenedFrom.housing (h : OpenedFrom settings sources name p) :
    ∃ stem, HousedAs settings sources name stem p := by
  obtain ⟨hn, σ, tc, w, w', h⟩ := h
  obtain ⟨hextension, stem, m, hstem, hcache, hseen⟩ := of_open_ok h
  obtain ⟨htext, hne⟩ := Path.cutName_eq (Path.cutName_of_join hn hstem hextension)
  have hname : name = stem ++ ".ll" := by
    rw [← String.toList_inj, htext, String.toList_append]
    rfl
  have hchars (c : Char) (hc : c ∈ stem.toList) : c ∈ name.toList := by
    rw [htext]
    exact List.mem_append_left _ hc
  -- A stem that does not stand for itself would make the base executable a directory.
  have hplain : Path.Plain stem := by
    obtain ⟨d, content, hread⟩ := hseen
    rw [hcache] at hread
    obtain ⟨place, hleads⟩ := Disk.leads_of_read hread
    exact hleads.plain_of_slashless hne (fun hc => hn.slash (hchars _ hc))
      (fun hc => hn.nul (hchars _ hc))
  exact ⟨stem, hname, hplain, fun place => ⟨m, hcache⟩, hseen⟩

/-- Two files are one: on some disk their paths lead to one place. -/
def Meet (p : Program) (f : SiteFile) (q : Program) (g : SiteFile) : Prop :=
  ∃ (d : Disk) (place : Place), d.Leads (p.filePath f) place ∧ d.Leads (q.filePath g) place

/-- The files that a program keeps of its own, all but the source. -/
def Own (f : SiteFile) : Prop := f ≠ .code .base

/-- A file of a program lies in the program's directory, which has the stem's name and lies where
the working directory is. -/
theorem HousedAs.leads {d : Disk} {place : Place} (h : HousedAs settings sources name stem p)
    (hf : Own f) (hl : d.Leads (p.filePath f) place) :
    ∃ work, d.follow (d.start settings.workDir) (Path.names settings.workDir) =
        .ok (.present work .directory) ∧
      d.locate p.cache.directory = .ok (.present (stem :: work) .directory) ∧
      place = (Site.ofSource settings (Path.join sources name) stem (stem :: work)).placeOf f := by
  obtain ⟨fileName, hfile, hpath⟩ :=
    Site.file_ofSource settings (Path.join sources name) h.plain hf
  obtain ⟨m, hm⟩ := h.site []
  have hdirectory : p.cache.directory = Path.join settings.workDir stem := by
    rw [hm]
    rfl
  have hjoin : p.filePath f = Path.join (Path.join settings.workDir stem) fileName := by
    rw [← (hpath []).1]
    unfold filePath
    rw [hm]
    cases f <;> rfl
  have hne : Path.join settings.workDir stem ≠ "" := by
    intro hempty
    have hnames : Path.names (Path.join settings.workDir stem) = _ := Path.names_join h.plain
    rw [hempty] at hnames
    exact List.append_ne_nil_of_right_ne_nil _ (List.cons_ne_nil _ _) hnames.symm
  rw [hjoin] at hl
  obtain ⟨directory, hlocate, rfl⟩ := hl.of_join hne hfile
  obtain ⟨work, hwork, rfl⟩ := Disk.directory_of_join h.plain hlocate
  exact ⟨work, hwork, by rw [hdirectory]; exact hlocate, (hpath _).2.symm⟩

theorem HousedAs.eq_of_meet {name' stem' : String} (hp : HousedAs settings sources name stem p)
    (hq : HousedAs settings sources name' stem' q) (unreserved : stem ≠ "manifest.json")
    (hf : Own f) (hg : Own g) (h : Meet p f q g) : name = name' ∧ f = g := by
  obtain ⟨d, place, hleads, hleads'⟩ := h
  obtain ⟨work, hwork, -, rfl⟩ := hp.leads hf hleads
  obtain ⟨work', hwork', -, hplace⟩ := hq.leads hg hleads'
  obtain rfl : work = work' := by
    rw [hwork] at hwork'
    cases hwork'
    rfl
  obtain ⟨first, -, hfirst⟩ := Site.file_ofSource settings (Path.join sources name) hp.plain hf
  obtain ⟨second, -, hsecond⟩ :=
    Site.file_ofSource settings (Path.join sources name') hq.plain hg
  obtain rfl : stem = stem' := by
    have hcons := (hfirst (stem :: work)).2.symm.trans
      (hplace.trans (hsecond (stem' :: work)).2)
    injection hcons with _ hcons
    injection hcons
  obtain rfl : name = name' := hp.text.trans hq.text.symm
  exact ⟨rfl, (Site.clear_ofSource settings _ _ hp.plain unreserved).placeOf_injective hplace⟩

theorem eq_reserved (h : stem ++ ".ll" = "manifest.json.ll") : stem = "manifest.json" := by
  have htext : (stem ++ ".ll").toList = "manifest.json".toList ++ ".ll".toList := by
    rw [h]
    decide
  rw [String.toList_append] at htext
  exact String.toList_inj.1 (List.append_cancel_right htext)

/-- The executable of the base has the name of the stem, the manifest always has the same. -/
theorem HousedAs.meet (h : HousedAs settings sources name "manifest.json" p) :
    Meet p (.executable .base) p .manifest := by
  obtain ⟨d, content, hread⟩ := h.seen
  obtain ⟨place, hleads⟩ := Disk.leads_of_read hread
  obtain ⟨m, hm⟩ := h.site []
  have hsame : (p.cache.artifacts .base).executable = p.filePath .manifest := by
    simp only [filePath, hm, Cache.artifacts, Site.cache, Site.ofSource,
      Site.executableName_base, Cache.manifestPath]
  exact ⟨d, place, hleads, hsame ▸ hleads⟩

/-- The files that programs keep, opened from the files of one directory: each lies in the directory
of its own program, which is named by the stem in the working directory. No two of them are one just
when none of the sources has the name that makes its base executable the manifest. -/
theorem files_apart_iff_unreserved {programs : List (String × Program)}
    (h : ∀ x ∈ programs, OpenedFrom settings sources x.1 x.2) :
    (∀ x ∈ programs, ∀ f, Own f → ∀ (d : Disk) (place : Place),
      d.Leads (x.2.filePath f) place → ∃ stem fileName work, x.1 = stem ++ ".ll" ∧
        x.2.cache.directory = Path.join settings.workDir stem ∧
        d.locate x.2.cache.directory = .ok (.present (stem :: work) .directory) ∧
        place = fileName :: stem :: work) ∧
    ((∀ x ∈ programs, ∀ y ∈ programs, ∀ f g, Own f → Own g → (x.1, f) ≠ (y.1, g) →
        ¬Meet x.2 f y.2 g) ↔
      ∀ x ∈ programs, x.1 ≠ "manifest.json.ll") := by
  refine ⟨?inside, ?apart, ?unreserved⟩
  case inside =>
    intro x hx f hf d place hleads
    obtain ⟨stem, hstem⟩ := (h x hx).housing
    obtain ⟨work, -, hlocate, rfl⟩ := hstem.leads hf hleads
    obtain ⟨fileName, -, hpath⟩ :=
      Site.file_ofSource settings (Path.join sources x.1) hstem.plain hf
    obtain ⟨m, hm⟩ := hstem.site []
    refine ⟨stem, fileName, work, hstem.text, ?_, hlocate, (hpath _).2⟩
    rw [hm]
    rfl
  case apart =>
    rintro apart x hx hname
    obtain ⟨stem, hstem⟩ := (h x hx).housing
    obtain rfl : stem = "manifest.json" := eq_reserved (hstem.text.symm.trans hname)
    have own : Own (.executable .base) ∧ Own .manifest := ⟨nofun, nofun⟩
    exact apart x hx x hx _ _ own.1 own.2 (fun heq => nomatch heq) hstem.meet
  case unreserved =>
    intro unreserved x hx y hy f g hf hg hne hmeet
    obtain ⟨stem, hstem⟩ := (h x hx).housing
    obtain ⟨stem', hstem'⟩ := (h y hy).housing
    have hreserved : stem ≠ "manifest.json" := by
      rintro rfl
      exact unreserved x hx hstem.text
    obtain ⟨hname, rfl⟩ := hstem.eq_of_meet hstem' hreserved hf hg hmeet
    exact hne (by rw [hname])

/-! Three sources, with tools that always succeed. -/

def sharedWorld : World Calls :=
  let source : Node := .file "; cost 10.0\n".toUTF8
  ⟨⟨[(["manifest.json.ll"], source), (["a.ll"], source), (["a.b.ll"], source)], []⟩, 0, {}⟩

/-- Whether a source can be opened. -/
def isOpened (name : String) : Bool :=
  match Program.open steady ⟨"build", none⟩ (Path.join "" name) sharedWorld with
  | .ok _ _ => true
  | .error _ _ => false

theorem exists_openedFrom (hn : Path.Plain name) (h : isOpened name) :
    ∃ p, OpenedFrom ⟨"build", none⟩ "" name p := by
  unfold isOpened at h
  split at h
  · rename_i p w ho
    exact ⟨p, hn, _, _, _, _, ho⟩
  · cases h

theorem isOpened_reserved : isOpened "manifest.json.ll" = true := by decide +kernel

/-- The manifest of a program that was opened may be its base executable. -/
theorem executable_may_be_manifest : ¬∀ (settings : EnvironmentSettings) (sources name : String)
    (p : Program), OpenedFrom settings sources name p → ∀ f g, Own f → Own g → f ≠ g →
    ¬Meet p f p g := by
  intro h
  obtain ⟨p, hp⟩ := exists_openedFrom
    ⟨by decide, by decide, by decide, by decide, by decide⟩ isOpened_reserved
  obtain ⟨stem, hstem⟩ := hp.housing
  obtain rfl : stem = "manifest.json" := eq_reserved hstem.text.symm
  exact h _ _ _ p hp (.executable .base) .manifest nofun nofun nofun hstem.meet

theorem isOpened_pair : isOpened "a.ll" = true ∧ isOpened "a.b.ll" = true := by decide +kernel

/-- The files of two programs with ordinary names are apart. -/
theorem files_apart_iff_unreserved_pair : ∃ p q : Program,
    OpenedFrom ⟨"build", none⟩ "" "a.ll" p ∧ OpenedFrom ⟨"build", none⟩ "" "a.b.ll" q ∧
    ∀ f g, Own f → Own g → ¬Meet p f q g := by
  obtain ⟨p, hp⟩ := exists_openedFrom
    ⟨by decide, by decide, by decide, by decide, by decide⟩ isOpened_pair.1
  obtain ⟨q, hq⟩ := exists_openedFrom
    ⟨by decide, by decide, by decide, by decide, by decide⟩ isOpened_pair.2
  have hall : ∀ x ∈ [("a.ll", p), ("a.b.ll", q)],
      OpenedFrom ⟨"build", none⟩ "" x.1 x.2 := by simp [hp, hq]
  have apart := (files_apart_iff_unreserved hall).2.2 (by simp)
  exact ⟨p, q, hp, hq, fun f g hf hg =>
    apart ("a.ll", p) (by simp) ("a.b.ll", q) (by simp) f g hf hg (by simp)⟩

end Program

end PassTuner
