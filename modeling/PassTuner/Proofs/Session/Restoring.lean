import PassTuner.Proofs.Cache.Lookups
import PassTuner.Proofs.Session.Cacheless

/-!
# Entries that can be restored

With deterministic tools and one catalog every entry of a manifest says what the flags of its
variant make of the source, and its files are as they were made, or gone. So asking for a variant at
whose parent the program is comes to the same whether the variant is a hit, was partly taken away,
or was never built: to what the tools make of the parent's code.
-/

namespace PassTuner

open Site (Rule Follows)

/-- At a place there is a file with a certain content, or none. -/
def Disk.AtMost (d : Disk) (p : Place) (content : ByteArray) : Prop :=
  ∀ found, d.get? p = some (.file found) → found = content

/-- Digests of what flags make of the source. The files that have them are there, or gone. -/
def Restorable (T : PureTools) (catalog : Catalog) (s : Site) (source : ByteArray) : Rule :=
  fun _ v digests d => ∃ flags c x, catalog.describeAll v.actions = .ok flags ∧
    T.conduct.Derived source flags c ∧ T.assemble c = .ok x ∧
    digests = ⟨Digest.ofBytes c, Digest.ofBytes x⟩ ∧ s.Nameable v ∧
    d.AtMost (s.codePlace v) c ∧ d.AtMost (s.executablePlace v) x

/-- All entries can be restored, and the manifest is what is in its file, if there is one. -/
structure Restores (T : PureTools) (catalog : Catalog) (s : Site) (source : ByteArray)
    (m : Manifest) (d : Disk) : Prop where
  manifest : Follows (Restorable T catalog s source) m d
  digest : m.sourceDigest = Digest.ofBytes source
  file : d.get? s.manifestPlace = none ∨ d.get? s.manifestPlace = some (Site.manifestFile m)
  source : d.get? s.origin = some (.file source)

/-- A variant is asked for with the code at hand that it is to be made of: as the base, or with a
flag of the catalog. -/
inductive Asks (T : PureTools) (catalog : Catalog) (s : Site) (source : ByteArray) (d : Disk) :
    Variant → Variant → Option String → ByteArray → Prop where
  | base : d.get? (s.codePlace .base) = some (.file source) →
      Asks T catalog s source d .base .base none source
  | further {u v : Variant} {action : ActionId} {flag : String} {flags : List String}
      {code : ByteArray} : u.extend? action = .ok v → catalog.describe action = .ok flag →
      catalog.describeAll u.actions = .ok flags → T.conduct.Derived source flags code →
      d.get? (s.codePlace u) = some (.file code) → s.Fits u →
      Asks T catalog s source d u v (some flag) code

/-- A variant is built: its files are what the tools make. -/
structure Built (T : PureTools) (s : Site) (v : Variant) (flag : Option String) (code : ByteArray)
    (d : Disk) (c x : ByteArray) : Prop where
  build : T.build s.stem v flag code = .ok (c, x)
  code : d.get? (s.codePlace v) = some (.file c)
  executable : d.get? (s.executablePlace v) = some (.file x)

variable {σ : Type} {s : Site} {tc : Toolchain σ} {T : PureTools} {catalog : Catalog}
  {source : ByteArray} {m m' : Manifest} {u v : Variant} {d d' : Disk} {flag : Option String}
  {code c x : ByteArray} {digests : Digests} {digest : String} {e : EnvironmentError}
  {r : Except EnvironmentError Unit}

namespace Asks

theorem away (h : Asks T catalog s source d u v flag code) : flag.isSome → v ≠ .base := by
  cases h with
  | base _ => simp
  | further hv _ _ _ _ _ => exact fun _ => Variant.ne_base_of_extend? hv

/-- What an entry says of the variant that is asked for is what the tools make of it now. -/
theorem build_of_entry (h : Asks T catalog s source d u v flag code)
    (hentry : Restorable T catalog s source digest v digests d') :
    ∃ c x, T.build s.stem v flag code = .ok (c, x) ∧
      digests = ⟨Digest.ofBytes c, Digest.ofBytes x⟩ ∧
      d'.AtMost (s.codePlace v) c ∧ d'.AtMost (s.executablePlace v) x := by
  obtain ⟨flags, c, x, hflags, hderived, hassemble, hdigests, _, hatMost⟩ := hentry
  refine ⟨c, x, ?_, hdigests, hatMost⟩
  cases h with
  | base _ =>
    rw [catalog.describeAll_base] at hflags
    cases hflags
    obtain rfl := PureTools.derived_unique hderived .base
    exact PureTools.build_none_ok hassemble
  | further hv hflag hu hcode _ _ =>
    rw [Catalog.describeAll_extend hv hu hflag] at hflags
    cases hflags
    obtain ⟨c₀, hderived₀, hmade⟩ := hderived.of_concat
    obtain rfl := PureTools.derived_unique hcode hderived₀
    have hmade : T.transform _ code = .ok c := hmade.symm
    exact PureTools.build_some_ok hmade hassemble

theorem build_of_coded (h : Asks T catalog s source d u v flag code)
    (hcoded : Site.Coded T.conduct s u v d c flag) (hmade : T.conduct.Assembled c x) :
    T.build s.stem v flag code = .ok (c, x) := by
  rw [PureTools.assembled_iff] at hmade
  cases h with
  | base hbase =>
    have heq : d.get? (s.codePlace .base) = some (.file c) := hcoded
    rw [hbase] at heq
    cases heq
    exact PureTools.build_none_ok hmade
  | further _ _ _ _ hcode _ =>
    obtain ⟨c₀, hc₀, htransform⟩ := hcoded
    rw [hcode] at hc₀
    cases hc₀
    exact PureTools.build_some_ok htransform.symm hmade

theorem build_of_failing (h : Asks T catalog s source d u v flag code) (fits : s.Fits v)
    (hfails : Site.Failing T.conduct s u v d e flag) : T.build s.stem v flag code = .error e := by
  cases h with
  | base hbase =>
    obtain ⟨failure, hf, rfl⟩ := hfails source hbase fits
    exact PureTools.build_none_error (PureTools.unassembled_iff.1 hf)
  | further _ _ _ _ hcode hu =>
    rcases hfails code hcode hu fits with ⟨failure, hf, rfl⟩ | ⟨c, failure, hmade, hf, rfl⟩
    · exact PureTools.build_some_untransformed hf.symm
    · exact PureTools.build_some_unassembled hmade.symm (PureTools.unassembled_iff.1 hf)

/-- What the tools make of the variant that is asked for is what its flags make of the source. -/
theorem derived (h : Asks T catalog s source d u v flag code)
    (hbuild : T.build s.stem v flag code = .ok (c, x)) : T.assemble c = .ok x ∧
      ∃ flags, catalog.describeAll v.actions = .ok flags ∧ T.conduct.Derived source flags c := by
  cases h with
  | base _ =>
    obtain ⟨rfl, hassemble⟩ := PureTools.of_build_none hbuild
    exact ⟨hassemble, [], catalog.describeAll_base, .base⟩
  | further hv hflag hu hcode _ _ =>
    obtain ⟨hmade, hassemble⟩ := PureTools.of_build_some hbuild
    exact ⟨hassemble, _, Catalog.describeAll_extend hv hu hflag, hcode.step hmade.symm⟩

end Asks

namespace Restores

theorem verify_of_atMost {path : String} {p : Place} (hl : d.Leads path p) (h : d.AtMost p c) :
    ∃ found, Cache.verify d path (Digest.ofBytes c) = .ok found := by
  cases hget : d.get? p with
  | none =>
    have hread := hl.read_of_none hget
    exact ⟨false, by simp only [Cache.verify, hread]⟩
  | some node =>
    cases node with
    | directory => exact absurd hget hl.apart
    | file content =>
      have hread := hl.read_of_file hget
      obtain rfl := h content hget
      exact ⟨true, by simp only [Cache.verify, hread, if_true]⟩

/-- Nothing that can be restored is taken for corrupted. -/
theorem lookup_ok (hs : s.Clear) (on : s.On d) (h : Restores T catalog s source m d) (v : Variant) :
    ∃ found, (s.cache m).lookup d v = .ok found := by
  cases hget : m.get? v.encode with
  | none => exact ⟨none, Site.lookup_of_missing hget⟩
  | some digests =>
    obtain ⟨_, c, x, _, _, _, rfl, hname, hcode, hexecutable⟩ := h.manifest.entry hget
    have hmanifest : (s.cache m).manifest.get? v.encode =
      some ⟨Digest.ofBytes c, Digest.ofBytes x⟩ := hget
    obtain ⟨coded, hcoded⟩ := verify_of_atMost (on.leads_code hs hname) hcode
    obtain ⟨linked, hlinked⟩ := verify_of_atMost (on.leads_executable hs hname) hexecutable
    simp only [Cache.lookup, hmanifest, Site.artifacts_cache, hcoded, hlinked]
    cases coded <;> cases linked <;> exact ⟨_, rfl⟩

/-- What is opened is a manifest whose entries can be restored. -/
theorem currentManifest (on : s.On d) (h : Restores T catalog s source m d) :
    ∃ m', Cache.currentManifest d s.directory (Digest.ofBytes source) = .ok m' ∧
      Restores T catalog s source m' d := by
  rcases h.file with hnone | hfile
  · exact ⟨_, Site.currentManifest_of_none on.toLaid hnone _,
      Site.follows_empty _ _ _, rfl, .inl hnone, h.source⟩
  · refine ⟨m, ?_, h⟩
    rw [Site.currentManifest_of_file on.toLaid hfile h.manifest.sorted, if_pos h.digest]

/-- Entries of other variants stay as they are. -/
theorem follows_of_changed (hs : s.Clear) (h : Restores T catalog s source m d)
    (hc : Disk.ChangedOnly (fun p => s.Touched v flag p ∨ p = s.manifestPlace) d d')
    (hv : ∀ digests, m.get? v.encode = some digests →
      Restorable T catalog s source m.sourceDigest v digests d') :
    Follows (Restorable T catalog s source) m d' := by
  refine h.manifest.mono fun w digests hget hentry => ?_
  by_cases hw : w = v
  · subst hw
    exact hv digests hget
  · obtain ⟨flags, c, x, hflags, hderived, hassemble, hdigests, hname, hcode, hexecutable⟩ := hentry
    obtain ⟨hsameCode, hsameExecutable⟩ := Site.files_of_others hs hw hc
    exact ⟨flags, c, x, hflags, hderived, hassemble, hdigests, hname,
      fun found hf => hcode found (hsameCode ▸ hf),
      fun found hf => hexecutable found (hsameExecutable ▸ hf)⟩

theorem restorable_of_built (digest : String) (asks : Asks T catalog s source d u v flag code)
    (h : Built T s v flag code d' c x) (hname : s.Nameable v) :
    Restorable T catalog s source digest v ⟨Digest.ofBytes c, Digest.ofBytes x⟩ d' := by
  obtain ⟨hassemble, flags, hflags, hderived⟩ := asks.derived h.build
  refine ⟨flags, c, x, hflags, hderived, hassemble, rfl, hname, fun found hf => ?_,
    fun found hf => ?_⟩
  · rw [h.code] at hf
    cases hf
    rfl
  · rw [h.executable] at hf
    cases hf
    rfl

/-- Asking for a variant comes to what the tools make of the code at hand. -/
theorem ensures (hs : s.Clear) (on : s.On d) (h : Restores T catalog s source m d)
    (asks : Asks T catalog s source d u v flag code) (fits : s.Fits v)
    (hensures : s.Ensures T.conduct u v flag m d r m' d') :
    Restores T catalog s source m' d' ∧ (r = .ok () → ∃ c x, Built T s v flag code d' c x) ∧
      ∀ e, r = .error e → T.build s.stem v flag code = .error e := by
  have horigin := (Site.origin_of_changed hs asks.away hensures.changedOnly).trans h.source
  cases hensures with
  | hit hlookup =>
    obtain ⟨_, c, x, hc, hx, hget⟩ := on.toLaid.of_lookup hs hlookup
    obtain ⟨_, _, hbuild, _, hcode, hexecutable⟩ := asks.build_of_entry (h.manifest.entry hget)
    obtain rfl := hcode c hc
    obtain rfl := hexecutable x hx
    exact ⟨h, fun _ => ⟨c, x, hbuild, hc, hx⟩, nofun⟩
  | corrupted hlookup =>
    obtain ⟨found, hfound⟩ := h.lookup_ok hs on v
    rw [hfound] at hlookup
    cases hlookup
  | failed hlookup hc hfails =>
    have hbuild := asks.build_of_failing fits hfails
    have missing : m.get? v.encode = none := by
      cases hget : m.get? v.encode with
      | none => rfl
      | some digests =>
        obtain ⟨c, x, hok, _⟩ := asks.build_of_entry (h.manifest.entry hget)
        rw [hok] at hbuild
        cases hbuild
    refine ⟨⟨h.follows_of_changed hs (hc.mono fun p hp => .inl hp) fun digests hget => ?_, h.digest,
      ?_, horigin⟩, nofun, fun e he => ?_⟩
    · rw [missing] at hget
      cases hget
    · rw [hc.same _ fun hp => hp.ne_manifestPlace hs rfl]
      exact h.file
    · cases he
      exact hbuild
  | @built c x _ hlookup hcoded hmade hc hx hfile hname hchanged =>
    have built : Built T s v flag code d' c x := ⟨asks.build_of_coded hcoded hmade, hc, hx⟩
    have hfollows := h.follows_of_changed hs hchanged fun digests hget => by
      obtain ⟨c', x', hbuild, rfl, _⟩ := asks.build_of_entry (h.manifest.entry hget)
      rw [built.build] at hbuild
      cases hbuild
      exact restorable_of_built _ asks built hname
    exact ⟨⟨hfollows.enter (restorable_of_built _ asks built hname), h.digest, .inr hfile, horigin⟩,
      fun _ => ⟨c, x, built⟩, nofun⟩

/-- Entries can be restored as long as nothing new appears, and the source stays. -/
theorem of_gone (h : Restores T catalog s source m d)
    (gone : ∀ p, d'.get? p = d.get? p ∨ d'.get? p = none)
    (origin : d'.get? s.origin = d.get? s.origin) : Restores T catalog s source m d' := by
  have atMost {p : Place} {content : ByteArray} (hp : d.AtMost p content) :
      d'.AtMost p content := by
    intro found hf
    rcases gone p with hsame | hnone
    · exact hp found (hsame ▸ hf)
    · rw [hnone] at hf
      cases hf
  refine ⟨h.manifest.mono fun v digests _ hentry => ?_, h.digest, ?_, origin.trans h.source⟩
  · obtain ⟨flags, c, x, hflags, hderived, hassemble, hdigests, hname, hcode, hexecutable⟩ := hentry
    exact ⟨flags, c, x, hflags, hderived, hassemble, hdigests, hname, atMost hcode,
      atMost hexecutable⟩
  · rcases gone s.manifestPlace with hsame | hnone
    · rw [hsame]
      exact h.file
    · exact .inl hnone

theorem same (h : Restores T catalog s source m d) (hsame : Disk.Same d d') :
    Restores T catalog s source m d' :=
  h.of_gone (fun p => .inl (hsame.get? p)) (hsame.get? _)

end Restores

end PassTuner
