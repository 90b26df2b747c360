import PassTuner.Cache.Basic
import PassTuner.Proofs.Cache.Persistence
import PassTuner.Proofs.Disk.FileNames
import PassTuner.Proofs.Disk.FreeName

/-!
# Where a cache is

A site is the paths that a cache works with and the places that they lead to. As long as everything
is where the site says, all artifacts are at different places, and the place of an artifact says
which variant it belongs to.
-/

namespace PassTuner

structure Site where
  directory : String
  stem : String
  source : String
  /-- Where the directory is. -/
  place : Place
  /-- Where the source is. -/
  origin : Place
  /-- The name under which a scratch directory is made. -/
  scratch : String

namespace Site

variable {s : Site} {d : Disk} {v w : Variant}

def cache (s : Site) (m : Manifest) : Cache := ⟨s.directory, s.stem, s.source, m⟩

def artifacts (s : Site) (v : Variant) : Artifacts := (s.cache (.empty "")).artifacts v

theorem artifacts_cache (s : Site) (m : Manifest) (v : Variant) :
    (s.cache m).artifacts v = s.artifacts v := rfl

def codePlace (s : Site) (v : Variant) : Place :=
  match v.irName? s.stem with
  | some name => name :: s.place
  | none => s.origin

def executablePlace (s : Site) (v : Variant) : Place := v.executableName s.stem :: s.place

def manifestPath (s : Site) : String := Cache.manifestPath s.directory

def manifestPlace (s : Site) : Place := "manifest.json" :: s.place

def scratchPath (s : Site) : String := Path.join s.directory s.scratch

def scratchPlace (s : Site) : Place := s.scratch :: s.place

/-- The object that a variant is linked from. -/
def objectPath (s : Site) : String := Path.join s.scratchPath s!"{s.stem}.o"

def objectPlace (s : Site) : Place := s!"{s.stem}.o" :: s.scratchPlace

/-- A site named by its source, whose base executable is a file of its own. -/
structure Named (s : Site) : Prop where
  extension : Path.extension? s.source = some "ll"
  stem : Path.stem? s.source = some s.stem
  here : s.stem ≠ "."
  up : s.stem ≠ ".."
  manifest : s.stem ≠ "manifest.json"

/-- The paths of the site lead to its places, and its files are not directories. -/
structure Laid (s : Site) (d : Disk) : Prop where
  tree : d.IsTree
  directory : d.locate s.directory = .ok (.present s.place .directory)
  source : d.Leads s.source s.origin
  manifest : d.Leads s.manifestPath s.manifestPlace
  code : ∀ v, d.get? (s.codePlace v) ≠ some .directory
  executable : ∀ v, d.get? (s.executablePlace v) ≠ some .directory

/-- Everything is where the site says. -/
structure On (s : Site) (d : Disk) : Prop extends s.Laid d where
  scratch : d.freeName s.directory ".obj" s.stem = s.scratch

/-! ## Names -/

theorem mem_code {c : Char} (h : c ∈ v.code) : c ≠ '.' ∧ c ≠ '/' ∧ c ≠ '\x00' := by
  have digit (n : Nat) (hn : n < 36) :
      Variant.digit n ≠ '.' ∧ Variant.digit n ≠ '/' ∧ Variant.digit n ≠ '\x00' :=
    (by decide : ∀ n < 36, Variant.digit n ≠ '.' ∧ Variant.digit n ≠ '/' ∧
      Variant.digit n ≠ '\x00') n hn
  obtain ⟨a, ha, hc⟩ := List.mem_flatMap.1 h
  have hlt : a.toNat < maxActions := v.encodable a ha
  have high : a.toNat / 36 < 36 := by unfold maxActions at hlt; omega
  have low : a.toNat % 36 < 36 := Nat.mod_lt _ (by decide)
  simp only [Variant.encodeAction, List.mem_cons, List.not_mem_nil, or_false] at hc
  rcases hc with rfl | rfl
  · exact digit _ high
  · exact digit _ low

/-- The names of artifacts begin with the stem. -/
def rest (v : Variant) : List Char := ['_', 'o', 'p', 't', '_'] ++ v.code

theorem irName?_of_ne (h : v ≠ .base) (stem : String) :
    ∃ name, v.irName? stem = some name ∧
      name.toList = stem.toList ++ (rest v ++ ['.', 'l', 'l']) := by
  have hb : v.isBase = false := by
    rw [Bool.eq_false_iff]
    intro hb
    exact h (Variant.ext (List.isEmpty_iff.1 hb))
  refine ⟨_, by rw [Variant.irName?, hb]; rfl, ?_⟩
  simp [rest, toString, Variant.encode, String.toList_append]

theorem executableName_of_ne (h : v ≠ .base) (stem : String) :
    (v.executableName stem).toList = stem.toList ++ rest v := by
  have hb : v.isBase = false := by
    rw [Bool.eq_false_iff]
    intro hb
    exact h (Variant.ext (List.isEmpty_iff.1 hb))
  rw [Variant.executableName, hb]
  simp [rest, toString, Variant.encode, String.toList_append]

theorem executableName_base (stem : String) : Variant.base.executableName stem = stem := rfl

theorem rest_injective (h : rest v = rest w) : v = w := by
  have hcode : v.code = w.code := List.append_cancel_left h
  have henc := Variant.ofCode?_code v
  rw [hcode, Variant.ofCode?_code] at henc
  exact (Option.some.inj henc).symm

/-- What the names at a site give away. -/
structure Clear (s : Site) : Prop where
  stem : Path.Plain s.stem
  manifest : s.stem ≠ "manifest.json"
  origin : ∃ name parent, s.origin = name :: parent ∧
    name.toList = s.stem.toList ++ ['.', 'l', 'l']
  scratch : ∃ n, s.scratch = Disk.numbered ".obj" n ∧ s.scratch ≠ s.stem

theorem plain_numbered (n : Nat) : Path.Plain (Disk.numbered ".obj" n) := by
  have htext : (Disk.numbered ".obj" n).toList = ['.', 'o', 'b', 'j'] ++ Nat.toDigits 10 n := by
    simp [Disk.numbered, toString, String.toList_append]
  have hdigits : ∀ c ∈ Nat.toDigits 10 n, c ≠ '/' ∧ c ≠ '\x00' := by
    intro c hc
    have hdigit := Nat.isDigit_of_mem_toDigits (by decide) (by decide) hc
    constructor <;> rintro rfl <;> simp at hdigit
  have differs {other : String} (h : other.toList ≠ ['.', 'o', 'b', 'j'] ++ Nat.toDigits 10 n) :
      Disk.numbered ".obj" n ≠ other := by
    rintro rfl
    exact h htext
  refine ⟨differs (by simp), differs (by simp), differs (by simp), ?_, ?_⟩
  · rw [htext]
    intro hmem
    rcases List.mem_append.1 hmem with hmem | hmem
    · revert hmem; decide
    · exact (hdigits _ hmem).1 rfl
  · rw [htext]
    intro hmem
    rcases List.mem_append.1 hmem with hmem | hmem
    · revert hmem; decide
    · exact (hdigits _ hmem).2 rfl

theorem plain_manifest : Path.Plain "manifest.json" :=
  ⟨by decide, by decide, by decide, by decide, by decide⟩

/-- A plain name with something behind it. -/
theorem plain_append {stem name : String} {more : List Char} (hstem : Path.Plain stem)
    (htext : name.toList = stem.toList ++ more) (hmore : more ≠ [])
    (hchars : ∀ c ∈ more, c ≠ '/' ∧ c ≠ '\x00') : Path.Plain name := by
  have hne := Path.ne_nil_of_nonempty hstem.nonempty
  have hhere : stem.toList ≠ ['.'] := fun h => hstem.here (String.toList_inj.1 h)
  obtain ⟨c, rest, hc⟩ := List.exists_cons_of_ne_nil hne
  obtain ⟨e, more', rfl⟩ := List.exists_cons_of_ne_nil hmore
  have differs {other : String} (h : other.toList ≠ name.toList) : name ≠ other := by
    rintro rfl
    exact h rfl
  refine ⟨differs ?_, differs ?_, differs ?_, ?_, ?_⟩
  · simp [htext, hc]
  · simp [htext, hc]
  · intro h
    rw [htext, hc] at h
    rw [hc] at hhere
    cases rest with
    | nil =>
      simp only [List.cons_append, List.nil_append, String.reduceToList, List.cons.injEq] at h
      exact hhere (by rw [← h.1])
    | cons _ _ => simp at h
  · rw [htext]
    intro hmem
    rcases List.mem_append.1 hmem with hmem | hmem
    · exact hstem.slash hmem
    · exact (hchars _ hmem).1 rfl
  · rw [htext]
    intro hmem
    rcases List.mem_append.1 hmem with hmem | hmem
    · exact hstem.nul hmem
    · exact (hchars _ hmem).2 rfl

theorem mem_rest {c : Char} (h : c ∈ rest v) : c ≠ '.' ∧ c ≠ '/' ∧ c ≠ '\x00' := by
  rcases List.mem_append.1 h with h | h
  · exact (by simp : ∀ c ∈ ['_', 'o', 'p', 't', '_'], c ≠ '.' ∧ c ≠ '/' ∧ c ≠ '\x00') c h
  · exact mem_code h

section Plain

variable {stem : String}

theorem plain_code (hstem : Path.Plain stem) {name : String} (h : v.irName? stem = some name) :
    Path.Plain name := by
  have hv : v ≠ .base := by
    rintro rfl
    cases h
  obtain ⟨name', heq, htext⟩ := irName?_of_ne hv stem
  rw [h] at heq
  cases heq
  refine plain_append hstem htext (by simp) fun c hc => ?_
  rcases List.mem_append.1 hc with hc | hc
  · exact (mem_rest hc).2
  · exact (by simp : ∀ c ∈ ['.', 'l', 'l'], c ≠ '/' ∧ c ≠ '\x00') c hc

theorem plain_executable (hstem : Path.Plain stem) (v : Variant) :
    Path.Plain (v.executableName stem) := by
  by_cases hv : v = .base
  · rw [hv]
    exact hstem
  · exact plain_append hstem (executableName_of_ne hv stem) (by simp [rest])
      fun c hc => (mem_rest hc).2

theorem plain_object (hstem : Path.Plain stem) : Path.Plain s!"{stem}.o" := by
  have htext : (s!"{stem}.o").toList = stem.toList ++ ['.', 'o'] := by
    simp [toString, String.toList_append]
  exact plain_append hstem htext (by simp) (by simp)

end Plain

theorem Clear.plain_scratch (hs : s.Clear) : Path.Plain s.scratch := by
  obtain ⟨n, hn, _⟩ := hs.scratch
  rw [hn]
  exact plain_numbered n

theorem Named.clear (hs : s.Named) (h : s.On d) : s.Clear := by
  obtain ⟨name, hname, hstem⟩ := Option.map_eq_some_iff.1 hs.stem
  have hcut : Path.cutName name = (s.stem, some "ll") := by
    have hext := hs.extension
    rw [Path.extension?, hname, Option.bind_some] at hext
    exact Prod.ext hstem hext
  obtain ⟨htext, hne⟩ := Path.cutName_eq hcut
  obtain ⟨hmem, parent, hp⟩ := h.source.fileName hname
  obtain ⟨hslash, hchars⟩ := Path.mem_names hmem
  have hnul := (Disk.followable_of_locate h.source.located).nul
  obtain ⟨n, hn, hfree, _⟩ := Disk.freeName_eq d s.directory plain_numbered s.stem
  refine ⟨⟨hne, hs.here, hs.up, fun hc => hslash ?_, fun hc => hnul (hchars _ ?_)⟩, hs.manifest,
    ⟨name, parent, hp, htext⟩, ⟨n, h.scratch.symm.trans hn, ?_⟩⟩
  · rw [htext]
    exact List.mem_append_left _ hc
  · rw [htext]
    exact List.mem_append_left _ hc
  · rw [← h.scratch, hn]
    simp only [Disk.isFree, Bool.and_eq_true, bne_iff_ne] at hfree
    exact hfree.1

/-! ## Places -/

/-- The name of a variant's code, wherever it is. -/
theorem Clear.codePlace (hs : s.Clear) (v : Variant) : ∃ name place, s.codePlace v = name :: place ∧
    name.toList = s.stem.toList ++ ((if v = .base then [] else rest v) ++ ['.', 'l', 'l']) := by
  by_cases hv : v = .base
  · subst hv
    obtain ⟨name, parent, hp, htext⟩ := hs.origin
    exact ⟨name, parent, hp, by simpa using htext⟩
  · obtain ⟨name, hname, htext⟩ := irName?_of_ne hv s.stem
    exact ⟨name, s.place, by simp [Site.codePlace, hname], by simpa [hv] using htext⟩

theorem executablePlace_eq (s : Site) (v : Variant) :
    ∃ name, s.executablePlace v = name :: s.place ∧
      name.toList = s.stem.toList ++ (if v = .base then [] else rest v) := by
  refine ⟨_, rfl, ?_⟩
  by_cases hv : v = .base
  · simp [hv, executableName_base]
  · simpa [hv] using executableName_of_ne hv s.stem

theorem rest_inj (h : (if v = .base then [] else rest v) = if w = .base then [] else rest w) :
    v = w := by
  split at h <;> split at h
  · simp_all
  · simp [rest] at h
  · simp [rest] at h
  · exact rest_injective h

theorem Clear.codePlace_injective (hs : s.Clear) (h : s.codePlace v = s.codePlace w) : v = w := by
  obtain ⟨name, place, hp, htext⟩ := hs.codePlace v
  obtain ⟨name', place', hp', htext'⟩ := hs.codePlace w
  rw [hp, hp'] at h
  cases h
  rw [htext] at htext'
  exact rest_inj (List.append_cancel_right (List.append_cancel_left htext'))

theorem executablePlace_injective (h : s.executablePlace v = s.executablePlace w) : v = w := by
  obtain ⟨name, hp, htext⟩ := s.executablePlace_eq v
  obtain ⟨name', hp', htext'⟩ := s.executablePlace_eq w
  rw [hp, hp'] at h
  cases h
  rw [htext] at htext'
  exact rest_inj (List.append_cancel_left htext')

theorem Clear.codePlace_ne_executablePlace (hs : s.Clear) (v w : Variant) :
    s.codePlace v ≠ s.executablePlace w := by
  intro h
  obtain ⟨name, place, hp, htext⟩ := hs.codePlace v
  obtain ⟨name', hp', htext'⟩ := s.executablePlace_eq w
  rw [hp, hp'] at h
  cases h
  rw [htext] at htext'
  have hrest := List.append_cancel_left htext'
  have hdot : '.' ∈ if w = .base then [] else rest w := by
    rw [← hrest]
    simp
  split at hdot
  · cases hdot
  · exact (mem_rest hdot).1 rfl

theorem Clear.codePlace_ne_manifestPlace (hs : s.Clear) (v : Variant) :
    s.codePlace v ≠ s.manifestPlace := by
  intro h
  obtain ⟨name, place, hp, htext⟩ := hs.codePlace v
  rw [hp] at h
  cases h
  have hlast := congrArg List.getLast? htext
  simp [List.getLast?_append] at hlast

theorem Clear.executablePlace_ne_manifestPlace (hs : s.Clear) (v : Variant) :
    s.executablePlace v ≠ s.manifestPlace := by
  intro h
  obtain ⟨name, hp, htext⟩ := s.executablePlace_eq v
  rw [hp] at h
  cases h
  by_cases hv : v = .base
  · rw [if_pos hv, List.append_nil] at htext
    exact hs.manifest (String.toList_inj.1 htext.symm)
  · rw [if_neg hv] at htext
    have hmem : '_' ∈ "manifest.json".toList := by
      rw [htext]
      simp [rest]
    revert hmem
    decide

theorem underscore_not_mem_numbered (n : Nat) : '_' ∉ (Disk.numbered ".obj" n).toList := by
  intro hmem
  simp only [Disk.numbered, toString, String.toList_append, Nat.toList_repr] at hmem
  rcases List.mem_append.1 hmem with hmem | hmem
  · revert hmem
    decide
  · have hdigit := Nat.isDigit_of_mem_toDigits (by decide) (by decide) hmem
    revert hdigit
    decide

theorem executablePlace_ne_numbered (v : Variant) {n : Nat}
    (hn : Disk.numbered ".obj" n ≠ s.stem) :
    s.executablePlace v ≠ Disk.numbered ".obj" n :: s.place := by
  intro h
  obtain ⟨name, hp, htext⟩ := s.executablePlace_eq v
  rw [hp] at h
  cases h
  by_cases hv : v = .base
  · rw [if_pos hv, List.append_nil] at htext
    exact hn (String.toList_inj.1 htext)
  · rw [if_neg hv] at htext
    refine underscore_not_mem_numbered n ?_
    rw [htext]
    simp [rest]

theorem Clear.codePlace_ne_numbered (hs : s.Clear) (v : Variant) (n : Nat) :
    s.codePlace v ≠ Disk.numbered ".obj" n :: s.place := by
  intro h
  obtain ⟨name, place, hp, htext⟩ := hs.codePlace v
  rw [hp] at h
  cases h
  have hlast := congrArg List.getLast? htext
  simp only [Disk.numbered, toString, String.toList_append, Nat.toList_repr,
    List.getLast?_append] at hlast
  obtain ⟨c, hc⟩ := Option.ne_none_iff_exists'.1
    (mt List.getLast?_eq_none_iff.1 (Nat.toDigits_ne_nil (n := n) (b := 10)))
  have hdigit := Nat.isDigit_of_mem_toDigits (by decide) (by decide) (List.mem_of_getLast? hc)
  rw [hc] at hlast
  simp at hlast
  rw [hlast] at hdigit
  revert hdigit
  decide

theorem manifestPlace_ne_numbered (s : Site) (n : Nat) :
    s.manifestPlace ≠ Disk.numbered ".obj" n :: s.place := by
  intro h
  have hname : "manifest.json" = Disk.numbered ".obj" n := (List.cons.inj h).1
  have hhead := congrArg (fun text => text.toList.head?) hname
  simp [Disk.numbered, toString, String.toList_append] at hhead

end Site

end PassTuner
