import PassTuner.Proofs.Cache.Checking
import PassTuner.Proofs.Cache.Records
import PassTuner.Proofs.Disk.Agreement
import PassTuner.Proofs.Program.Opening
import PassTuner.Proofs.Program.Recording
import PassTuner.Proofs.Program.Separation

/-!
# What a look-up says about the artifacts

A history is a cache that was opened where there was no manifest, the disk, and for each variant the
contents that its artifacts had when it was last recorded. Files may be changed by anyone in
between. A look-up compares what is on the disk with that, the code first, and writing the manifest
for one variant is not seen by the look-ups of any other. Main statement: `lookup_is_sound`.
-/

namespace PassTuner

namespace Path

/-- The place that names lead to from a directory, whether anything is there or not. -/
def placeFrom : Place → List String → Place
  | p, [] => p
  | p, name :: rest =>
    if name = "." then placeFrom p rest
    else if name = ".." then placeFrom p.tail rest
    else placeFrom (name :: p) rest

/-- The place of a path, for a directory that relative paths start from. -/
def place (home : Place) (path : String) : Place :=
  placeFrom (if isAbsolute path then [] else home) (names path)

theorem placeFrom_append {name : String} (hn : Plain name) (p : Place) (names : List String) :
    placeFrom p (names ++ [name]) = name :: placeFrom p names := by
  induction names generalizing p with
  | nil => simp [placeFrom, hn.here, hn.up]
  | cons first rest ih =>
    rw [List.cons_append, placeFrom, placeFrom]
    split
    · exact ih p
    · split
      · exact ih p.tail
      · exact ih (first :: p)

theorem place_join {home : Place} {base name : String} (hn : Plain name) :
    place home (join base name) = name :: place home base := by
  rw [place, place, isAbsolute_join hn, names_join hn, placeFrom_append hn]

end Path

namespace Disk

variable {d d' : Disk} {path : String} {p q r : Place} {content : ByteArray}

/-! ## Directories on the way to a file -/

theorem placeFrom_of_follow {names : List String} (h : d.follow q names = .ok (d.target p))
    (apart : d.get? p ≠ some .directory) : Path.placeFrom q names = p := by
  induction names generalizing q with
  | nil =>
    have ht : Target.present q .directory = d.target p := Except.ok.inj h
    cases hp : d.get? p with
    | none =>
      rw [target_of_none hp] at ht
      cases ht
    | some node =>
      rw [target_of_some hp] at ht
      cases ht
      exact absurd hp apart
  | cons name names ih =>
    rw [follow_cons] at h
    rw [Path.placeFrom]
    by_cases hhere : name = "."
    · rw [if_pos hhere] at h ⊢
      exact ih h
    rw [if_neg hhere] at h ⊢
    by_cases hup : name = ".."
    · rw [if_pos hup] at h ⊢
      exact ih h
    rw [if_neg hup] at h ⊢
    by_cases hlong : longestName < name.utf8ByteSize
    · rw [if_pos hlong] at h
      cases h
    rw [if_neg hlong] at h
    cases hg : d.get? (name :: q) with
    | none =>
      cases names with
      | nil =>
        simp only [hg, ← target_of_none hg] at h
        exact target_inj (Except.ok.inj h)
      | cons _ _ => simp [hg] at h
    | some node =>
      cases node with
      | directory =>
        simp only [hg] at h
        exact ih h
      | file content =>
        cases names with
        | nil =>
          simp only [hg, ← target_of_some hg] at h
          exact target_inj (Except.ok.inj h)
        | cons _ _ => simp [hg] at h

theorem Leads.eq_place (h : d.Leads path p) : p = Path.place d.home path :=
  (placeFrom_of_follow (follow_of_locate h.located) h.apart).symm

/-- All places on the way to a file are directories, but for its own. -/
theorem directory_of_mem_ways {names : List String} (h : d.follow q names = .ok (d.target p))
    (hr : r ∈ ways q names) (hne : r ≠ p) :
    d.get? r = some .directory := by
  induction names generalizing q with
  | nil => exact absurd hr List.not_mem_nil
  | cons name names ih =>
    rw [follow_cons] at h
    rw [ways] at hr
    by_cases hhere : name = "."
    · rw [if_pos hhere] at h hr
      exact ih h hr
    rw [if_neg hhere] at h hr
    by_cases hup : name = ".."
    · rw [if_pos hup] at h hr
      exact ih h hr
    rw [if_neg hup] at h hr
    by_cases hlong : longestName < name.utf8ByteSize
    · rw [if_pos hlong] at h
      cases h
    rw [if_neg hlong] at h
    -- a place that is no directory is the last one
    have last (hnil : names = []) (ht : d.target (name :: q) = d.target p) :
        d.get? r = some .directory := by
      subst hnil
      rw [target_inj ht] at hr
      exact absurd (List.mem_singleton.1 hr) hne
    cases hg : d.get? (name :: q) with
    | none =>
      cases names with
      | nil =>
        simp only [hg, ← target_of_none hg] at h
        exact last rfl (Except.ok.inj h)
      | cons _ _ => simp [hg] at h
    | some node =>
      cases node with
      | directory =>
        simp only [hg] at h
        rcases List.mem_cons.1 hr with rfl | hr
        · exact hg
        · exact ih h hr
      | file content =>
        cases names with
        | nil =>
          simp only [hg, ← target_of_some hg] at h
          exact last rfl (Except.ok.inj h)
        | cons _ _ => simp [hg] at h

/-- A path's way goes by a place. -/
def PassesBy (home : Place) (path : String) (p : Place) : Prop :=
  p ∈ ways (if Path.isAbsolute path then [] else home) (Path.names path)

/-- The way to a file that was read goes by no place where another file can be. -/
theorem not_passesBy_of_read (h : d.read path = .ok content)
    (hr : d.get? r ≠ some .directory) (hne : Path.place d.home path ≠ r) :
    ¬ PassesBy d.home path r := by
  intro hpasses
  obtain ⟨p, hl⟩ := leads_of_read h
  rw [← hl.eq_place] at hne
  exact hr (directory_of_mem_ways (follow_of_locate hl.located) hpasses hne.symm)

theorem read_put (hp : ¬ PassesBy d.home path p) (node : Node) :
    (d.put p node).read path = d.read path := by
  have hfollow : (d.put p node).follow (d.start path) (Path.names path) =
      d.follow (d.start path) (Path.names path) :=
    follow_of_ways fun q hq => get?_put_other d (fun heq => hp (by rwa [← heq])) node
  have hstart : (d.put p node).start path = d.start path := rfl
  have hlocate : (d.put p node).locate path = d.locate path := by
    unfold locate
    rw [← start, ← start, hstart, hfollow]
  simp only [read, node?, hlocate]

/-- The contents of all files. -/
def contents (d : Disk) : List ByteArray :=
  d.nodes.filterMap fun (_, node) =>
    match node with
    | .file content => some content
    | .directory => none

theorem mem_contents_of_read (h : d.read path = .ok content) : content ∈ d.contents := by
  obtain ⟨p, hl⟩ := leads_of_read h
  have hp := hl.of_read h
  rw [get?, if_neg hl.ne_root] at hp
  obtain ⟨before, after, hnodes, -⟩ := List.lookup_eq_some_iff.1 hp
  exact List.mem_filterMap.2 ⟨(p, .file content), by simp [hnodes], rfl⟩

end Disk

namespace Cache

variable {σ : Type} {directory stem source path : String} {c : Cache} {d d' : Disk} {v w : Variant}

/-! ## Histories -/

/-- What the artifacts of a variant contained. -/
structure Contents where
  code : ByteArray
  executable : ByteArray

/-- The contents with which variants were recorded last. -/
abbrev Records := Variant → Option Contents

def Contents.digests (r : Contents) : Digests :=
  ⟨Digest.ofBytes r.code, Digest.ofBytes r.executable⟩

/-- The artifacts of a variant can be read, and this is in them. -/
structure Holds (c : Cache) (d : Disk) (v : Variant) (r : Contents) : Prop where
  code : d.read (c.artifacts v).ir = .ok r.code
  executable : d.read (c.artifacts v).executable = .ok r.executable

/-- A cache, the disk, and what was recorded since the cache was opened. -/
inductive History (directory stem source : String) : Cache → Disk → Records → Prop
  | opened {σ : Type} {w w' : World σ} {c : Cache}
      (opening : Cache.open directory stem source w = .ok c w')
      (fresh : w'.disk.readText (manifestPath directory) = .error .notFound) :
      History directory stem source c w'.disk fun _ => none
  | record {c : Cache} {d : Disk} {records : Records}
      (history : History directory stem source c d records) {v : Variant} {r : Contents}
      (holds : c.Holds d v r) (done : (c.record d v).1 = .ok ()) :
      History directory stem source (c.record d v).2.1 (c.record d v).2.2
        fun w => if w = v then some r else records w
  /-- Files are changed from outside in any way. -/
  | changed {c : Cache} {d d' : Disk} {records : Records}
      (history : History directory stem source c d records) (home : d'.home = d.home) :
      History directory stem source c d' records

/-- No artifact is the file of the manifest. -/
def Apart (directory stem source : String) (home : Place) : Prop :=
  ∀ v, let a := Cache.artifacts ⟨directory, stem, source, .empty ""⟩ v
    Path.place home a.ir ≠ Path.place home (manifestPath directory) ∧
      Path.place home a.executable ≠ Path.place home (manifestPath directory)

variable {records : Records} {r : Contents}

/-- The cache with a variant entered that has some contents. -/
def entered (c : Cache) (v : Variant) (r : Contents) : Cache :=
  { c with manifest := c.manifest.insert v.encode r.digests }

theorem artifacts_entered (c : Cache) (v w : Variant) (r : Contents) :
    (c.entered v r).artifacts w = c.artifacts w := rfl

theorem get?_entered (c : Cache) (v : Variant) (r : Contents) :
    (c.entered v r).manifest.get? v.encode = some r.digests :=
  Manifest.get?_insert_same _ _ _

theorem get?_entered_of_ne (c : Cache) (hw : w ≠ v) (r : Contents) :
    (c.entered v r).manifest.get? w.encode = c.manifest.get? w.encode :=
  Manifest.get?_insert_other _ (fun heq => hw (Site.encode_injective heq)) _

/-- What a successful recording did. -/
theorem of_record_ok (h : (c.record d v).1 = .ok ()) :
    ∃ r p content, c.Holds d v r ∧ d.Leads (manifestPath c.directory) p ∧
      c.record d v = (.ok (), c.entered v r, d.put p (.file content)) := by
  rcases c.record_cases d v with ⟨e, heq⟩ |
    ⟨code, executable, c', hcode, hexecutable, rfl, ⟨e, heq⟩ | ⟨d', hwrite, heq⟩⟩
  · simp [heq] at h
  · simp [heq] at h
  · obtain ⟨p, hl, rfl⟩ := Disk.leads_of_write hwrite
    exact ⟨⟨code, executable⟩, p, _, ⟨hcode, hexecutable⟩, hl, heq⟩

theorem Holds.unique {r r' : Contents} (h : c.Holds d v r) (h' : c.Holds d v r') : r = r' := by
  have hcode := Except.ok.inj (h.code.symm.trans h'.code)
  have hexecutable := Except.ok.inj (h.executable.symm.trans h'.executable)
  cases r
  cases r'
  simp_all

/-- The manifest has the digests of what was recorded, and no way to a recorded artifact goes by the
manifest's place. -/
structure Faithful (directory stem source : String) (c : Cache) (d : Disk) (records : Records) :
    Prop where
  site : c.directory = directory ∧ c.stem = stem ∧ c.source = source
  manifest : ∀ v, c.manifest.get? v.encode = (records v).map Contents.digests
  ways : Apart directory stem source d.home → ∀ v r, records v = some r →
    ¬ Disk.PassesBy d.home (c.artifacts v).ir (Path.place d.home (manifestPath directory)) ∧
    ¬ Disk.PassesBy d.home (c.artifacts v).executable (Path.place d.home (manifestPath directory))

theorem Faithful.artifacts (h : Faithful directory stem source c d records) (v : Variant) :
    c.artifacts v = Cache.artifacts ⟨directory, stem, source, .empty ""⟩ v := by
  obtain ⟨rfl, rfl, rfl⟩ := h.site
  rfl

theorem Faithful.record (h : Faithful directory stem source c d records) (holds : c.Holds d v r)
    (done : (c.record d v).1 = .ok ()) :
    Faithful directory stem source (c.record d v).2.1 (c.record d v).2.2
      fun w => if w = v then some r else records w := by
  obtain ⟨r', p, content, holds', hl, heq⟩ := of_record_ok done
  obtain rfl := holds.unique holds'
  have hplace := hl.eq_place
  rw [h.site.1] at hplace
  have hfree := hl.apart
  have home : (d.put p (.file content)).home = d.home := rfl
  simp only [heq]
  refine ⟨h.site, fun w => ?_, ?_⟩
  · by_cases hw : w = v
    · rw [if_pos hw, hw]
      exact get?_entered c v r
    · rw [if_neg hw, ← h.manifest w]
      exact get?_entered_of_ne c hw r
  · rw [home]
    intro apart w r' hr
    rw [artifacts_entered]
    by_cases hw : w = v
    · subst hw
      rw [hplace] at hfree
      have hapart := apart w
      rw [← h.artifacts w] at hapart
      exact ⟨Disk.not_passesBy_of_read holds.code hfree hapart.1,
        Disk.not_passesBy_of_read holds.executable hfree hapart.2⟩
    · rw [if_neg hw] at hr
      exact h.ways apart w r' hr

theorem History.faithful (h : History directory stem source c d records) :
    Faithful directory stem source c d records := by
  induction h with
  | opened opening fresh =>
    obtain ⟨d, content, m, -, -, hm, rfl, rfl⟩ := Program.of_cacheOpen_ok opening
    simp only [currentManifest, fresh] at hm
    obtain rfl := Except.ok.inj hm
    exact ⟨⟨rfl, rfl, rfl⟩, fun _ => rfl, fun _ _ _ hr => by cases hr⟩
  | record _ holds done ih => exact ih.record holds done
  | changed _ home ih =>
    refine ⟨ih.site, ih.manifest, ?_⟩
    rw [home]
    exact ih.ways

/-! ## Judging artifacts -/

/-- What is wrong with a file that is there and should have some content. -/
inductive Damaged (d : Disk) (path : String) (content : ByteArray) : CacheFault → Prop
  | altered {other : ByteArray} (read : d.read path = .ok other) (differs : other ≠ content) :
      Damaged d path content .altered
  | unreadable {e : DiskError} (read : d.read path = .error e) (there : e ≠ .notFound) :
      Damaged d path content (.unreadable e)

/-- An artifact is corrupted. The code is judged first. -/
inductive Corrupted (c : Cache) (d : Disk) (v : Variant) (r : Contents) : EnvironmentError → Prop
  | code {fault : CacheFault} (damaged : Damaged d (c.artifacts v).ir r.code fault) :
      Corrupted c d v r (.cacheCorrupted (c.artifacts v).ir fault)
  | executable {fault : CacheFault} (code : d.read (c.artifacts v).ir = .ok r.code)
      (damaged : Damaged d (c.artifacts v).executable r.executable fault) :
      Corrupted c d v r (.cacheCorrupted (c.artifacts v).executable fault)

/-- An artifact is absent. The code is judged first. -/
inductive Absent (c : Cache) (d : Disk) (v : Variant) (r : Contents) : Prop
  | code (missing : d.read (c.artifacts v).ir = .error .notFound)
  | executable (code : d.read (c.artifacts v).ir = .ok r.code)
      (missing : d.read (c.artifacts v).executable = .error .notFound)

variable {content : ByteArray} {fault : CacheFault} {e : EnvironmentError}

theorem verify_of_intact (h : d.read path = .ok content) :
    verify d path (Digest.ofBytes content) = .ok true := by
  simp only [verify, h, if_true]

theorem verify_of_notFound (h : d.read path = .error .notFound) (digest : String) :
    verify d path digest = .ok false := by
  simp only [verify, h]

theorem verify_of_damaged (h : Damaged d path content fault)
    (told : ∀ other ∈ d.contents, Digest.ofBytes other = Digest.ofBytes content → other = content) :
    verify d path (Digest.ofBytes content) = .error (.cacheCorrupted path fault) := by
  cases h with
  | altered read differs =>
    have hdigest := fun heq => differs (told _ (Disk.mem_contents_of_read read) heq)
    simp only [verify, read, if_neg hdigest]
  | @unreadable e read there => cases e <;> simp_all [verify]

theorem condition (d : Disk) (path : String) (content : ByteArray) :
    d.read path = .ok content ∨ d.read path = .error .notFound ∨
      ∃ fault, Damaged d path content fault := by
  cases hread : d.read path with
  | error e =>
    by_cases hmissing : e = .notFound
    · exact .inr (.inl (by rw [hmissing]))
    · exact .inr (.inr ⟨_, .unreadable hread hmissing⟩)
  | ok other =>
    by_cases hsame : other = content
    · exact .inl (by rw [hsame])
    · exact .inr (.inr ⟨_, .altered hread hsame⟩)

theorem lookup_of_get? (h : c.manifest.get? v.encode = some r.digests) :
    c.lookup d v =
      match verify d (c.artifacts v).ir (Digest.ofBytes r.code) with
      | .error e => .error e
      | .ok false => .ok none
      | .ok true =>
        match verify d (c.artifacts v).executable (Digest.ofBytes r.executable) with
        | .error e => .error e
        | .ok false => .ok none
        | .ok true => .ok (some (c.artifacts v)) := by
  simp only [lookup, h]
  rfl

theorem lookup_of_holds (h : c.manifest.get? v.encode = some r.digests) (holds : c.Holds d v r) :
    c.lookup d v = .ok (some (c.artifacts v)) := by
  simp only [lookup_of_get? h, verify_of_intact holds.code, verify_of_intact holds.executable]

theorem lookup_of_absent (h : c.manifest.get? v.encode = some r.digests) (absent : Absent c d v r) :
    c.lookup d v = .ok none := by
  cases absent with
  | code missing => simp only [lookup_of_get? h, verify_of_notFound missing]
  | executable code missing =>
    simp only [lookup_of_get? h, verify_of_intact code, verify_of_notFound missing]

/-- Contents that are met are told apart by their digests. -/
def Told (records : Records) (d : Disk) : Prop :=
  Set.InjOn Digest.ofBytes {content | content ∈ d.contents ∨
    ∃ v r, records v = some r ∧ (content = r.code ∨ content = r.executable)}

theorem told_of_nodup {contents : List ByteArray} (nodup : (contents.map Digest.ofBytes).Nodup)
    (disk : ∀ content ∈ d.contents, content ∈ contents)
    (recorded : ∀ v r, records v = some r → r.code ∈ contents ∧ r.executable ∈ contents) :
    Told records d := by
  have mem : ∀ content, (content ∈ d.contents ∨
      ∃ v r, records v = some r ∧ (content = r.code ∨ content = r.executable)) →
      content ∈ contents := by
    rintro content (h | ⟨v, r, hr, rfl | rfl⟩)
    · exact disk content h
    · exact (recorded v r hr).1
    · exact (recorded v r hr).2
  intro a ha b hb heq
  exact List.inj_on_of_nodup_map nodup (mem a ha) (mem b hb) heq

theorem lookup_of_corrupted (h : c.manifest.get? v.encode = some r.digests)
    (told : Told records d) (hr : records v = some r) (corrupted : Corrupted c d v r e) :
    c.lookup d v = .error e := by
  cases corrupted with
  | code damaged =>
    have hverify := verify_of_damaged damaged fun other hother =>
      told (.inl hother) (.inr ⟨v, r, hr, .inl rfl⟩)
    simp only [lookup_of_get? h, hverify]
  | executable code damaged =>
    have hverify := verify_of_damaged damaged fun other hother =>
      told (.inl hother) (.inr ⟨v, r, hr, .inr rfl⟩)
    simp only [lookup_of_get? h, verify_of_intact code, hverify]

theorem artifacts_condition (c : Cache) (d : Disk) (v : Variant) (r : Contents) :
    c.Holds d v r ∨ Absent c d v r ∨ ∃ e, Corrupted c d v r e := by
  rcases condition d (c.artifacts v).ir r.code with hcode | hmissing | ⟨fault, hdamaged⟩
  · rcases condition d (c.artifacts v).executable r.executable with
      hexecutable | hmissing | ⟨fault, hdamaged⟩
    · exact .inl ⟨hcode, hexecutable⟩
    · exact .inr (.inl (.executable hcode hmissing))
    · exact .inr (.inr ⟨_, .executable hcode hdamaged⟩)
  · exact .inr (.inl (.code hmissing))
  · exact .inr (.inr ⟨_, .code hdamaged⟩)

/-- Recording a variant changes the look-up of no other. -/
theorem Faithful.lookup_other (h : Faithful directory stem source c d records)
    (apart : Apart directory stem source d.home) (done : (c.record d v).1 = .ok ()) (hw : w ≠ v) :
    (c.record d v).2.1.lookup (c.record d v).2.2 w = c.lookup d w := by
  obtain ⟨r, p, content, -, hl, heq⟩ := of_record_ok done
  have hplace := hl.eq_place
  rw [h.site.1] at hplace
  rw [heq]
  cases hr : records w with
  | none =>
    have hnone : c.manifest.get? w.encode = none := by
      rw [h.manifest w, hr]
      rfl
    simp only [lookup, get?_entered_of_ne c hw, hnone]
  | some recorded =>
    obtain ⟨hcode, hexecutable⟩ := h.ways apart w recorded hr
    rw [← hplace] at hcode hexecutable
    simp only [lookup, verify, get?_entered_of_ne c hw, artifacts_entered, Disk.read_put hcode,
      Disk.read_put hexecutable]

/-! ## A cache whose artifacts are named by the source -/

theorem apart_of_clear {s : Site} (hs : s.Clear) {home : Place}
    (place : s.place = Path.place home s.directory) (origin : s.origin = Path.place home s.source) :
    Apart s.directory s.stem s.source home := by
  have manifest : Path.place home (manifestPath s.directory) = s.manifestPlace := by
    rw [manifestPath, Path.place_join Site.plain_manifest, ← place]
    rfl
  intro v
  have code : Path.place home (s.artifacts v).ir = s.codePlace v := by
    unfold Site.artifacts Cache.artifacts Site.codePlace
    dsimp only [Site.cache]
    cases hname : v.irName? s.stem with
    | none => exact origin.symm
    | some name => rw [Path.place_join (Site.plain_code hs.stem hname), ← place]
  have executable : Path.place home (s.artifacts v).executable = s.executablePlace v := by
    unfold Site.artifacts Cache.artifacts Site.executablePlace
    dsimp only [Site.cache]
    rw [Path.place_join (Site.plain_executable hs.stem v), ← place]
  rw [manifest]
  exact ⟨code ▸ hs.codePlace_ne_manifestPlace v,
    executable ▸ hs.executablePlace_ne_manifestPlace v⟩

/-- After any history, a look-up of a variant answers with its artifacts just when the variant was
recorded and both contain what they contained when it was recorded last. It reports corruption just
when a recorded artifact is altered or cannot be read, and it is a miss just when the variant was
never recorded or an artifact is absent, where the code is judged before the executable. Recording a
variant changes the look-up of no other. -/
theorem lookup_is_sound (history : History directory stem source c d records)
    (apart : Apart directory stem source d.home) (told : Told records d) (v : Variant) :
    (∀ a, c.lookup d v = .ok (some a) ↔
      a = c.artifacts v ∧ ∃ r, records v = some r ∧ c.Holds d v r) ∧
    (∀ e, c.lookup d v = .error e ↔ ∃ r, records v = some r ∧ Corrupted c d v r e) ∧
    (c.lookup d v = .ok none ↔ ∀ r, records v = some r → Absent c d v r) ∧
    ((c.record d v).1 = .ok () → ∀ w, w ≠ v →
      (c.record d v).2.1.lookup (c.record d v).2.2 w = c.lookup d w) := by
  have faithful := history.faithful
  have hget := faithful.manifest v
  cases hr : records v with
  | none =>
    have hnone : c.lookup d v = .ok none := by
      have hnone : c.manifest.get? v.encode = none := by
        rw [hget, hr]
        rfl
      simp only [lookup, hnone]
    refine ⟨fun a => ?_, fun e => ?_, ?_, fun done w hw => faithful.lookup_other apart done hw⟩
    all_goals simp [hnone]
  | some r =>
    replace hget : c.manifest.get? v.encode = some r.digests := by
      rw [hget, hr]
      rfl
    have hit := lookup_of_holds (d := d) hget
    have miss := lookup_of_absent (d := d) hget
    have corrupted (e : EnvironmentError) := lookup_of_corrupted (e := e) hget told hr
    simp only [Option.some.injEq, exists_eq_left', forall_eq']
    refine ⟨fun a => ⟨fun h => ?hits, ?_⟩, fun e => ⟨fun h => ?reports, corrupted e⟩,
      ⟨fun h => ?misses, miss⟩, fun done w hw => faithful.lookup_other apart done hw⟩
    case hits =>
      rcases c.artifacts_condition d v r with holds | absent | ⟨e, hc⟩
      · rw [hit holds] at h
        cases h
        exact ⟨rfl, holds⟩
      · rw [miss absent] at h
        cases h
      · rw [corrupted e hc] at h
        cases h
    case reports =>
      rcases c.artifacts_condition d v r with holds | absent | ⟨e, hc⟩
      · rw [hit holds] at h
        cases h
      · rw [miss absent] at h
        cases h
      · rw [corrupted e hc] at h
        cases h
        exact hc
    case misses =>
      rcases c.artifacts_condition d v r with holds | absent | ⟨e, hc⟩
      · rw [hit holds] at h
        cases h
      · exact absent
      · rw [corrupted e hc] at h
        cases h
    rintro ⟨rfl, holds⟩
    exact hit holds

def freshSource : ByteArray := "; cost 10.0\n".toUTF8

/-- A built program without a manifest. -/
def freshDisk : Disk where
  nodes := [(["bench.ll"], .file freshSource), (["build"], .directory),
    (["bench", "build"], .directory), (["bench", "bench", "build"], .file "built".toUTF8)]
  home := []

def freshCache : Cache :=
  ⟨"build/bench", "bench", "bench.ll", .empty (Digest.ofBytes freshSource)⟩

def freshContents : Contents := ⟨freshSource, "built".toUTF8⟩

/-- The base recorded for the first time. -/
def freshRecorded : Except EnvironmentError Unit × Cache × Disk := freshCache.record freshDisk .base

/-- The disk without the manifest that was written, and with another executable. -/
def freshAltered : Disk := freshDisk.put ["bench", "bench", "build"] (.file "altered".toUTF8)

def freshSite : Site where
  directory := "build/bench"
  stem := "bench"
  source := "bench.ll"
  place := ["bench", "build"]
  origin := ["bench.ll"]
  scratch := ".obj0"

theorem open_fresh : (Cache.open "build/bench" "bench" "bench.ll" : Environment Unit Cache)
    ⟨freshDisk, 0, ()⟩ = .ok freshCache ⟨freshDisk, 0, ()⟩ := by
  have made : freshDisk.makeDirectories "build/bench" = .ok freshDisk := by decide +kernel
  have read : freshDisk.read "bench.ll" = .ok freshSource := by decide +kernel
  have text : freshDisk.readText (manifestPath "build/bench") = .error .notFound := by
    decide +kernel
  have hopen := Program.cacheOpen_of_read (w := (⟨freshDisk, 0, ()⟩ : World Unit)) "bench" made read
  simp only [currentManifest, text] at hopen
  exact hopen

theorem record_fresh : freshCache.record freshDisk .base = freshRecorded := rfl

theorem freshRecorded_ok : freshRecorded.1 = .ok () := by
  have hok : freshRecorded.1.toBool := by decide +kernel
  cases hresult : freshRecorded.1 with
  | ok _ => rfl
  | error e => simp [hresult, Except.toBool] at hok

theorem history_fresh : History "build/bench" "bench" "bench.ll" freshRecorded.2.1 freshAltered
    fun w => if w = .base then some freshContents else none := by
  have opened : History "build/bench" "bench" "bench.ll" freshCache freshDisk fun _ => none :=
    .opened open_fresh (by decide +kernel)
  have holds : freshCache.Holds freshDisk .base freshContents :=
    ⟨by decide +kernel, by decide +kernel⟩
  have recorded := opened.record holds (by rw [record_fresh]; exact freshRecorded_ok)
  rw [record_fresh] at recorded
  exact recorded.changed (by decide +kernel)

/-- The base was recorded, and its executable is altered: its look-up reports that, and all other
variants are misses. -/
theorem lookup_is_sound_fresh :
    freshRecorded.2.1.lookup freshAltered .base =
        .error (.cacheCorrupted "build/bench/bench" .altered) ∧
      ∀ v, v ≠ .base → freshRecorded.2.1.lookup freshAltered v = .ok none := by
  have clear : freshSite.Clear := by
    refine ⟨⟨by decide, by decide, by decide, by decide, by decide⟩, by decide,
      ⟨_, _, rfl, by decide⟩, ⟨0, by decide, by decide⟩⟩
  have apart : Apart "build/bench" "bench" "bench.ll" freshAltered.home :=
    apart_of_clear clear (by decide) (by decide)
  have told : Told (fun w => if w = .base then some freshContents else none) freshAltered := by
    have contents : freshAltered.contents = [freshSource, "altered".toUTF8] := by decide +kernel
    have nodup : ([freshSource, "altered".toUTF8, "built".toUTF8].map Digest.ofBytes).Nodup := by
      decide +kernel
    refine told_of_nodup nodup (fun content h => ?_) fun v r hr => ?_
    · rw [contents] at h
      exact List.mem_append_left ["built".toUTF8] h
    · split at hr
      · cases hr
        exact ⟨.head _, .tail _ (.tail _ (.head _))⟩
      · cases hr
  have executable : (freshRecorded.2.1.artifacts .base).executable = "build/bench/bench" := by
    decide +kernel
  have intact :
    freshAltered.read (freshRecorded.2.1.artifacts .base).ir = .ok freshContents.code := by
    decide +kernel
  have altered : Damaged freshAltered "build/bench/bench" freshContents.executable .altered :=
    have read : freshAltered.read "build/bench/bench" = .ok "altered".toUTF8 := by decide +kernel
    .altered read (by decide +kernel)
  refine ⟨?_, fun v hv => ?_⟩
  · rw [← executable] at altered ⊢
    exact ((lookup_is_sound history_fresh apart told .base).2.1 _).2
      ⟨freshContents, if_pos rfl, .executable intact altered⟩
  · refine (lookup_is_sound history_fresh apart told v).2.2.1.2 fun r hr => ?_
    rw [if_neg hv] at hr
    cases hr

end Cache

end PassTuner
