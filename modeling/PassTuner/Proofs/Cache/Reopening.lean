import PassTuner.Proofs.Cache.Checking
import PassTuner.Proofs.Program.Opening
import PassTuner.Proofs.Program.Recording

/-!
# A cache opened once more

What a cache holds is what its manifest's file holds, even though a manifest of another source is
left in the file until a variant is recorded. `Live` describes the caches that were opened and have
recorded variants since; opening another one on the same directory, stem and source gives the same
cache. Main statement: `live_cache_is_on_disk`.
-/

namespace PassTuner

namespace Disk

variable {d d' d'' : Disk} {path : String} {p q : Place}

/-! ## Directories that were made -/

/-- Nothing has to be made for a path to be a directory: it is one, or it has no parent. -/
def Made (d : Disk) (path : String) : Prop := Path.parent? path = none ∨ d.isDirectory path

theorem isDirectory_iff :
    d.isDirectory path ↔ ∃ p, d.locate path = .ok (.present p .directory) := by
  unfold isDirectory node?
  cases hl : d.locate path with
  | error e => simp
  | ok t =>
    cases t with
    | vacant p => simp
    | present p node => cases node <;> simp

/-- A path to a free name leads to the directory that is made there. -/
theorem follow_put_of_vacant {names : List String} (h : d.follow q names = .ok (.vacant p)) :
    (d.put p .directory).follow q names = .ok (.present p .directory) := by
  have hfree : d.get? p = none := by
    rcases get?_of_follow h with ⟨r, hr⟩ | ⟨r, hr, -⟩
    · cases hr
    · unfold target at hr
      split at hr
      · cases hr
      · cases hr
        assumption
  have hne : p ≠ [] := by
    rintro rfl
    cases hfree
  have kept (r : Place) (hr : d.get? r = some .directory) :
      (d.put p .directory).get? r = some .directory := by
    rw [get?_put_other d (fun heq => by simp [heq, hfree] at hr), hr]
  induction names generalizing q with
  | nil => cases h
  | cons name names ih =>
    rw [follow_cons] at h ⊢
    by_cases hhere : name = "."
    · rw [if_pos hhere] at h ⊢
      exact ih h
    rw [if_neg hhere] at h ⊢
    by_cases hup : name = ".."
    · rw [if_pos hup] at h ⊢
      exact ih h
    rw [if_neg hup] at h ⊢
    by_cases hlong : longestName < name.utf8ByteSize
    · rw [if_pos hlong] at h
      cases h
    rw [if_neg hlong] at h ⊢
    cases hg : d.get? (name :: q) with
    | none =>
      cases names with
      | nil =>
        simp only [hg] at h
        cases h
        simp only [get?_put_same d hne]
        rfl
      | cons _ _ => simp [hg] at h
    | some node =>
      cases node with
      | file content => cases names <;> simp [hg] at h
      | directory =>
        simp only [hg] at h
        simp only [kept _ hg]
        exact ih h

theorem isDirectory_of_makeDirectory (h : d.makeDirectory path = .ok d') : d'.isDirectory path := by
  unfold makeDirectory at h
  split at h
  · split at h <;> cases h
  · cases h
  · cases h
  · rename_i p hl
    cases h
    rw [isDirectory_iff]
    refine ⟨p, ?_⟩
    have hstart : (d.put p .directory).start path = d.start path := rfl
    rw [locate_of_followable (followable_of_locate hl), hstart,
      follow_put_of_vacant (follow_of_locate hl)]

theorem isDirectory_of_makeEach {paths : List String}
    (h : d.makeEach (paths ++ [path]) = .ok d') : d'.isDirectory path := by
  induction paths generalizing d with
  | nil =>
    rw [List.nil_append, makeEach] at h
    split at h
    · rename_i d₁ hmake
      cases h
      exact isDirectory_of_makeDirectory hmake
    · split at h
      · rename_i hdir
        cases h
        exact hdir
      · cases h
  | cons first paths ih =>
    rw [List.cons_append, makeEach] at h
    split at h
    · exact ih h
    · split at h
      · exact ih h
      · cases h

theorem made_of_makeDirectories (h : d.makeDirectories path = .ok d') : d'.Made path := by
  unfold makeDirectories at h
  rw [missing] at h
  cases hparent : Path.parent? path with
  | none => exact .inl hparent
  | some parent =>
    right
    simp only [hparent] at h
    cases hmake : d.makeDirectory path with
    | ok d₁ =>
      simp only [hmake] at h
      have hlast : d.makeEach ([] ++ [path]) = .ok d' := h
      exact isDirectory_of_makeEach hlast
    | error e =>
      cases e with
      | notFound =>
        cases hmissing : d.missing path.length parent with
        | error e => simp [hmake, hmissing, Except.map] at h
        | ok paths =>
          simp only [hmake, hmissing, Except.map, List.reverse_cons] at h
          exact isDirectory_of_makeEach h
      | «exists» =>
        by_cases hdir : d.isDirectory path
        · simp only [hmake, hdir, if_true] at h
          cases h
          exact hdir
        · simp [hmake, hdir] at h
      | _ => simp [hmake] at h

theorem Made.makeDirectories (h : d.Made path) : d.makeDirectories path = .ok d := by
  rcases h with hparent | hdir
  · simp [Disk.makeDirectories, missing, hparent, makeEach]
  · obtain ⟨p, hp⟩ := isDirectory_iff.1 hdir
    exact makeDirectories_of_directory hp

theorem Made.of_isDirectory (h : d.Made path) (hd : d.isDirectory path → d'.isDirectory path) :
    d'.Made path := h.imp_right hd

theorem isDirectory_of_write {content : ByteArray} {other : String}
    (h : d.write other content = .ok d') (hd : d.isDirectory path) : d'.isDirectory path := by
  obtain ⟨p, hl, rfl⟩ := leads_of_write h
  obtain ⟨q, hq⟩ := isDirectory_iff.1 hd
  have hc := changedOnly_put hl.apart content
  exact isDirectory_iff.2 ⟨q, locate_directory hc.home (fun r hr => (hc.directories r).2 hr) hq⟩

end Disk

namespace Manifest

variable {m : Manifest} {j : Json} {text : String}

/-! ## Manifests that were read -/

theorem pairwise_of_entriesOfJson? {entries : List (String × Digests)}
    (h : entriesOfJson? j = some entries) : entries.Pairwise fun a b => a.1 < b.1 := by
  unfold entriesOfJson? at h
  split at h
  case h_2 => cases h
  case h_1 members =>
    have hstart : ([] : List (String × Digests)).Pairwise fun a b => a.1 < b.1 := List.Pairwise.nil
    generalize ([] : List (String × Digests)) = start at h hstart
    induction members generalizing start with
    | nil =>
      cases h
      exact hstart
    | cons member rest ih =>
      obtain ⟨quoted, value⟩ := member
      rw [List.foldlM_cons] at h
      simp only [Option.bind_eq_bind, Option.bind_eq_some_iff] at h
      obtain ⟨next, ⟨code, -, digests, -, hnext⟩, h⟩ := h
      cases hnext
      exact ih _ h (pairwise_insertEntry hstart _ _)

/-- Whatever order a file has its entries in, they are sorted once they are read. -/
theorem sorted_of_parseAs (h : Json.parseAs ofJson? text = .ok m) : m.Sorted := by
  obtain ⟨j, hj⟩ : ∃ j, ofJson? j = some m := by
    cases hparse : Json.parse text with
    | error e => simp [Json.parseAs, hparse, bind, Except.bind] at h
    | ok j =>
      simp only [Json.parseAs, hparse, bind, Except.bind] at h
      split at h
      · cases h
        exact ⟨j, by assumption⟩
      · cases h
  simp only [ofJson?, Option.bind_eq_bind, Option.bind_eq_some_iff, Json.Record.required] at hj
  obtain ⟨_, -, _, -, entries, ⟨_, -, hentries⟩, hm⟩ := hj
  cases hm
  exact pairwise_of_entriesOfJson? hentries

end Manifest

namespace Cache

variable {σ : Type} {w w' : World σ} {directory stem source : String} {content : ByteArray}
  {c c' : Cache} {d d' : Disk} {v : Variant} {m : Manifest} {digest : String}

/-! ## What opening reads -/

theorem sorted_of_currentManifest (h : currentManifest d directory digest = .ok m) :
    m.Sorted ∧ m.sourceDigest = digest := by
  unfold currentManifest at h
  dsimp only at h
  split at h
  · cases h
    exact ⟨Manifest.sorted_empty digest, rfl⟩
  · cases h
  · split at h
    · cases h
    · rename_i hparse
      cases h
      split
      · rename_i hdigest
        exact ⟨Manifest.sorted_of_parseAs hparse, hdigest⟩
      · exact ⟨Manifest.sorted_empty digest, rfl⟩

/-- What is read from the manifest's text is all that opening takes from its file. -/
theorem currentManifest_congr
    (h : d'.readText (manifestPath directory) = d.readText (manifestPath directory))
    (digest : String) :
    currentManifest d' directory digest = currentManifest d directory digest := by
  simp only [currentManifest, h]

/-! ## What recording leaves -/

/-- An artifact of a variant cannot be read. -/
def Unreadable (c : Cache) (d : Disk) (v : Variant) : Prop :=
  (∃ e, d.read (c.artifacts v).ir = .error e) ∨ ∃ e, d.read (c.artifacts v).executable = .error e

theorem Unreadable.false_of_reads {code executable : ByteArray} (h : c.Unreadable d v)
    (hcode : d.read (c.artifacts v).ir = .ok code)
    (hexecutable : d.read (c.artifacts v).executable = .ok executable) : False := by
  rcases h with ⟨e, he⟩ | ⟨e, he⟩
  · rw [hcode] at he
    cases he
  · rw [hexecutable] at he
    cases he

/-- A variant that cannot be read is not recorded, and nothing changes. -/
theorem record_of_unreadable (h : c.Unreadable d v) : ∃ e, c.record d v = (.error e, c, d) := by
  rcases c.record_cases d v with heq | ⟨_, _, _, hcode, hexecutable, -⟩
  · exact heq
  · exact (h.false_of_reads hcode hexecutable).elim

/-! ## Caches that are alive -/

/-- A cache and the disk since it was opened, while the source had some content. -/
inductive Live (directory stem source : String) (content : ByteArray) : Cache → Disk → Prop
  /-- There was a manifest of this source in the directory, or one of another source, or none. -/
  | opened {σ : Type} {w w' : World σ} {c : Cache}
      (opening : Cache.open directory stem source w = .ok c w')
      (read : w'.disk.read source = .ok content) : Live directory stem source content c w'.disk
  /-- A variant was recorded, or it was not because an artifact could not be read. -/
  | record {c : Cache} {d : Disk} (live : Live directory stem source content c d) (v : Variant)
      (result : (c.record d v).1 = .ok () ∨ c.Unreadable d v) :
      Live directory stem source content (c.record d v).2.1 (c.record d v).2.2
  /-- Anything may happen to other files, the source and the artifacts among them. -/
  | others {c : Cache} {d d' : Disk} (live : Live directory stem source content c d)
      (manifest : d'.readText (manifestPath directory) = d.readText (manifestPath directory))
      (made : d.isDirectory directory → d'.isDirectory directory) :
      Live directory stem source content c d'

/-- The manifest is of the content that the source was opened with, and it is what is read from the
disk for that content. -/
structure Settled (directory stem source : String) (content : ByteArray) (c : Cache) (d : Disk) :
    Prop where
  place : c.directory = directory ∧ c.stem = stem ∧ c.source = source
  made : d.Made directory
  sorted : c.manifest.Sorted
  digest : c.manifest.sourceDigest = Digest.ofBytes content
  current : currentManifest d directory (Digest.ofBytes content) = .ok c.manifest

theorem settled_of_open (h : Cache.open directory stem source w = .ok c w')
    (read : w'.disk.read source = .ok content) :
    Settled directory stem source content c w'.disk := by
  obtain ⟨d, content', m, hmade, hread, hm, rfl, rfl⟩ := Program.of_cacheOpen_ok h
  obtain rfl : content' = content := Except.ok.inj (hread.symm.trans read)
  obtain ⟨hsorted, hdigest⟩ := sorted_of_currentManifest hm
  exact ⟨⟨rfl, rfl, rfl⟩, Disk.made_of_makeDirectories hmade, hsorted, hdigest, hm⟩

/-- The manifest that was written is read back, since it is of the same source and sorted. -/
theorem Settled.record (h : Settled directory stem source content c d) (v : Variant)
    (result : (c.record d v).1 = .ok () ∨ c.Unreadable d v) :
    Settled directory stem source content (c.record d v).2.1 (c.record d v).2.2 := by
  rcases c.record_cases d v with ⟨e, heq⟩ |
    ⟨code, executable, c', hcode, hexecutable, hc', ⟨e, heq⟩ | ⟨d', hwrite, heq⟩⟩
  · rw [heq]
    exact h
  · rcases result with hok | hunreadable
    · simp [heq] at hok
    · exact (hunreadable.false_of_reads hcode hexecutable).elim
  · rw [heq]
    have hdirectory : c'.directory = directory := by rw [hc', ← h.place.1]
    have hsorted : c'.manifest.Sorted := by
      rw [hc']
      exact h.sorted.insert _ _
    have hdigest : c'.manifest.sourceDigest = Digest.ofBytes content := by
      rw [hc', ← h.digest]
      rfl
    have htext := Disk.readText_of_writeText hwrite
    rw [hdirectory] at htext
    refine ⟨by rw [hc']; exact h.place, h.made.of_isDirectory (Disk.isDirectory_of_write hwrite),
      hsorted, hdigest, ?_⟩
    simp only [currentManifest, htext, Manifest.parseAs_indented hsorted, if_pos hdigest]

theorem Settled.others (h : Settled directory stem source content c d)
    (manifest : d'.readText (manifestPath directory) = d.readText (manifestPath directory))
    (made : d.isDirectory directory → d'.isDirectory directory) :
    Settled directory stem source content c d' :=
  ⟨h.place, h.made.of_isDirectory made, h.sorted, h.digest,
    (currentManifest_congr manifest _).trans h.current⟩

theorem Live.settled (h : Live directory stem source content c d) :
    Settled directory stem source content c d := by
  induction h with
  | opened opening read => exact settled_of_open opening read
  | record _ v result ih => exact ih.record v result
  | others _ manifest made ih => exact ih.others manifest made

/-- Files in other places than the manifest's are other files. -/
theorem Live.of_changedOnly {P : Place → Prop} {p : Place}
    (h : Live directory stem source content c d) (leads : d.Leads (manifestPath directory) p)
    (changed : Disk.ChangedOnly P d d') (apart : ¬ P p) :
    Live directory stem source content c d' := by
  apply h.others
  · have hread := leads.read_congr (changed.leads leads) (changed.same p apart)
    simp only [Disk.readText, hread]
  · intro hd
    obtain ⟨q, hq⟩ := Disk.isDirectory_iff.1 hd
    exact Disk.isDirectory_iff.2 ⟨q, Disk.locate_directory changed.home
      (fun r hr => (changed.directories r).2 hr) hq⟩

/-- The manifest's file is the cache. Whatever a cache was opened on, and whichever variants were
recorded with it since or could not be recorded, another cache that is opened on the same directory,
stem and unchanged source answers all look-ups in the same way, whatever became of the artifacts.
A variant with an unreadable artifact changes neither the cache nor the disk. -/
theorem live_cache_is_on_disk {w : World σ} (h : Live directory stem source content c w.disk)
    (unchanged : w.disk.read source = .ok content) :
    (∃ reopened, (Cache.open directory stem source : Environment σ Cache) w = .ok reopened w ∧
      reopened.manifest = c.manifest ∧ reopened.size = c.size ∧
      ∀ v d, reopened.lookup d v = c.lookup d v) ∧
    ∀ v, c.Unreadable w.disk v → ∃ e, c.record w.disk v = (.error e, c, w.disk) := by
  refine ⟨?reopening, ?refusing⟩
  case reopening =>
    have hs := h.settled
    obtain ⟨rfl, rfl, rfl⟩ := hs.place
    refine ⟨c, ?_, rfl, rfl, fun _ _ => rfl⟩
    rw [Program.cacheOpen_of_read c.stem hs.made.makeDirectories unchanged, hs.current]
  case refusing => exact fun v hv => record_of_unreadable hv

def staleSource : ByteArray := "; cost 10.0\n".toUTF8

/-- A built program whose manifest was written for another source. -/
def staleDisk : Disk where
  nodes := [(["bench.ll"], .file staleSource), (["build"], .directory),
    (["bench", "build"], .directory), (["bench", "bench", "build"], .file "built".toUTF8),
    (["manifest.json", "bench", "build"],
      .file (Manifest.empty "other").toJson.indented.toUTF8)]
  home := []

def staleWorld : World Unit := ⟨staleDisk, 0, ()⟩

def staleCache : Cache :=
  ⟨"build/bench", "bench", "bench.ll", .empty (Digest.ofBytes staleSource)⟩

theorem open_stale : (Cache.open "build/bench" "bench" "bench.ll" : Environment Unit Cache)
    staleWorld = .ok staleCache staleWorld := by
  have made : staleDisk.makeDirectories "build/bench" = .ok staleDisk := by decide +kernel
  have read : staleDisk.read "bench.ll" = .ok staleSource := by decide +kernel
  have text : staleDisk.readText (manifestPath "build/bench") =
      .ok (Manifest.empty "other").toJson.indented := by decide +kernel
  have other : (Manifest.empty "other").sourceDigest ≠ Digest.ofBytes staleSource := by
    decide +kernel
  have current : currentManifest staleDisk "build/bench" (Digest.ofBytes staleSource) =
      .ok (.empty (Digest.ofBytes staleSource)) := by
    simp only [currentManifest, text]
    rw [Manifest.parseAs_indented (Manifest.sorted_empty _)]
    dsimp only
    rw [if_neg other]
  have hopen := Program.cacheOpen_of_read (w := staleWorld) "bench" made read
  rw [current] at hopen
  exact hopen

/-- The base recorded in the place of the manifest of another source. -/
def staleRecorded : Except EnvironmentError Unit × Cache × Disk := staleCache.record staleDisk .base

theorem record_stale : staleCache.record staleDisk .base = staleRecorded := rfl

theorem staleRecorded_ok : staleRecorded.1 = .ok () := by
  have hok : staleRecorded.1.toBool := by decide +kernel
  cases hresult : staleRecorded.1 with
  | ok _ => rfl
  | error e => simp [hresult, Except.toBool] at hok

/-- The disk after it, with another executable than was recorded. -/
def staleAltered : World Unit :=
  ⟨staleRecorded.2.2.put ["bench", "bench", "build"] (.file "altered".toUTF8), 0, ()⟩

theorem live_staleAltered :
    Live "build/bench" "bench" "bench.ll" staleSource staleRecorded.2.1 staleAltered.disk := by
  have first : Live "build/bench" "bench" "bench.ll" staleSource staleCache staleDisk :=
    .opened open_stale (by decide +kernel)
  have second := first.record .base (by rw [record_stale]; exact .inl staleRecorded_ok)
  rw [record_stale] at second
  have leads : staleRecorded.2.2.Leads (manifestPath "build/bench")
      ["manifest.json", "bench", "build"] := Disk.leads_of_leadsTo (by decide +kernel)
  have executable : staleRecorded.2.2.get? ["bench", "bench", "build"] ≠ some .directory := by
    decide +kernel
  exact second.of_changedOnly leads (Disk.changedOnly_put executable _) (by decide)

/-- The base is recorded in the place of the manifest of another source, and its executable is
altered. Reopened, the cache has the one variant and reports the alteration. -/
theorem live_cache_is_on_disk_altered : ∃ reopened,
    (Cache.open "build/bench" "bench" "bench.ll" : Environment Unit Cache) staleAltered =
        .ok reopened staleAltered ∧
      reopened.size = 1 ∧ (reopened.lookup staleAltered.disk .base).toBool = false := by
  have unchanged : staleAltered.disk.read "bench.ll" = .ok staleSource := by decide +kernel
  have size : staleRecorded.2.1.size = 1 := by decide +kernel
  have corrupted : (staleRecorded.2.1.lookup staleAltered.disk .base).toBool = false := by
    decide +kernel
  obtain ⟨⟨reopened, hopen, -, hsize, hlookup⟩, -⟩ :=
    live_cache_is_on_disk (w := staleAltered) live_staleAltered unchanged
  refine ⟨reopened, hopen, hsize.trans size, ?_⟩
  rw [hlookup]
  exact corrupted

end Cache

end PassTuner
