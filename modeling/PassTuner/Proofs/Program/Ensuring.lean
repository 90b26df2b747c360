import PassTuner.Proofs.Program.Building
import PassTuner.Proofs.Program.Lifecycle

/-!
# What a look-up and a build come to

`Ensures` lists what can come of asking for a variant at a site: a hit, a report of corruption, a
build that fails, and a build that succeeds. The variant's code is made out of the lineage's with a
flag, and has to be there without one.
-/

namespace PassTuner

namespace Site

variable {s : Site} {m m' : Manifest} {u v : Variant} {flag : Option String} {d d' : Disk}
  {C : Conduct} {c x : ByteArray} {e : EnvironmentError}

/-- The files that building a variant may change. -/
def Touched (s : Site) (v : Variant) (flag : Option String) (p : Place) : Prop :=
  p = s.executablePlace v ∨ flag.isSome ∧ p = s.codePlace v

theorem Touched.filesOf {p : Place} (h : s.Touched v flag p) : s.FilesOf v p := by
  rcases h with h | ⟨_, h⟩
  · exact .inr h
  · exact .inl h

theorem Touched.ne_manifestPlace {p : Place} (h : s.Touched v flag p) (hs : s.Clear) :
    p ≠ s.manifestPlace := by
  rcases h.filesOf with rfl | rfl
  · exact hs.codePlace_ne_manifestPlace v
  · exact hs.executablePlace_ne_manifestPlace v

/-- Building a variant leaves the files of all others alone. -/
theorem files_of_others (hs : s.Clear) {w : Variant} (hw : w ≠ v)
    (hc : Disk.ChangedOnly (fun p => s.Touched v flag p ∨ p = s.manifestPlace) d d') :
    d'.get? (s.codePlace w) = d.get? (s.codePlace w) ∧
      d'.get? (s.executablePlace w) = d.get? (s.executablePlace w) := by
  constructor
  · refine hc.same _ ?_
    rintro ((hp | ⟨_, hp⟩) | hp)
    · exact hs.codePlace_ne_executablePlace w v hp
    · exact hw (hs.codePlace_injective hp)
    · exact hs.codePlace_ne_manifestPlace w hp
  · refine hc.same _ ?_
    rintro ((hp | ⟨_, hp⟩) | hp)
    · exact hw (executablePlace_injective hp)
    · exact hs.codePlace_ne_executablePlace v w hp.symm
    · exact hs.executablePlace_ne_manifestPlace w hp

/-- Building leaves the source alone, because with a flag it builds no base. -/
theorem origin_of_changed (hs : s.Clear) (away : flag.isSome → v ≠ .base)
    (hc : Disk.ChangedOnly (fun p => s.Touched v flag p ∨ p = s.manifestPlace) d d') :
    d'.get? s.origin = d.get? s.origin := by
  refine hc.same _ ?_
  change ¬((s.codePlace .base = _ ∨ flag.isSome ∧ s.codePlace .base = _) ∨ s.codePlace .base = _)
  rintro ((hp | ⟨hflag, hp⟩) | hp)
  · exact hs.codePlace_ne_executablePlace .base v hp
  · exact away hflag (hs.codePlace_injective hp).symm
  · exact hs.codePlace_ne_manifestPlace .base hp

/-- The code that a variant is built from, with or without a flag. -/
def Coded (C : Conduct) (s : Site) (u v : Variant) (d : Disk) (c : ByteArray) :
    Option String → Prop
  | some flag => ∃ c₀, d.get? (s.codePlace u) = some (.file c₀) ∧ C.transform flag c₀ (.ok c)
  | none => d.get? (s.codePlace v) = some (.file c)

/-- Why building a variant may fail where names are short enough. -/
def Failing (C : Conduct) (s : Site) (u v : Variant) (d : Disk) (e : EnvironmentError) :
    Option String → Prop
  | some flag => ∀ c₀, d.get? (s.codePlace u) = some (.file c₀) → s.Fits u → s.Fits v →
      (∃ failure, C.transform flag c₀ (.error failure) ∧
        e = failure.report (.transformFailed s.stem v flag)) ∨
      ∃ c failure, C.transform flag c₀ (.ok c) ∧ C.Unassembled c failure ∧
        e = failure.report (.buildFailed s.stem v)
  | none => ∀ c, d.get? (s.codePlace v) = some (.file c) → s.Fits v →
      ∃ failure, C.Unassembled c failure ∧ e = failure.report (.buildFailed s.stem v)

/-- What can come of asking for a variant: the answer, the manifest and the disk. -/
inductive Ensures (C : Conduct) (s : Site) (u v : Variant) (flag : Option String) (m : Manifest)
    (d : Disk) : Except EnvironmentError Unit → Manifest → Disk → Prop where
  | hit : (s.cache m).lookup d v = .ok (some (s.artifacts v)) →
      Ensures C s u v flag m d (.ok ()) m d
  | corrupted {e : EnvironmentError} : (s.cache m).lookup d v = .error e →
      Ensures C s u v flag m d (.error e) m d
  | failed {e : EnvironmentError} {d' : Disk} : (s.cache m).lookup d v = .ok none →
      Disk.ChangedOnly (s.Touched v flag) d d' → Failing C s u v d e flag →
      Ensures C s u v flag m d (.error e) m d'
  | built {c x : ByteArray} {d' : Disk} : (s.cache m).lookup d v = .ok none →
      Coded C s u v d c flag → C.Assembled c x →
      d'.get? (s.codePlace v) = some (.file c) → d'.get? (s.executablePlace v) = some (.file x) →
      d'.get? s.manifestPlace = some (manifestFile (entered m v c x)) →
      s.Nameable v →
      Disk.ChangedOnly (fun p => s.Touched v flag p ∨ p = s.manifestPlace) d d' →
      Ensures C s u v flag m d (.ok ()) (entered m v c x) d'

theorem Ensures.changedOnly {r : Except EnvironmentError Unit}
    (h : Ensures C s u v flag m d r m' d') :
    Disk.ChangedOnly (fun p => s.Touched v flag p ∨ p = s.manifestPlace) d d' := by
  cases h with
  | hit _ => exact Disk.ChangedOnly.refl _ _
  | corrupted _ => exact Disk.ChangedOnly.refl _ _
  | failed _ hc _ => exact hc.mono fun p hp => .inl hp
  | built _ _ _ _ _ _ _ hc => exact hc

/-- Building moves nothing. -/
theorem On.of_touched (hs : s.Clear) (hd : s.On d)
    (hc : Disk.ChangedOnly (fun p => s.Touched v flag p ∨ p = s.manifestPlace) d d') : s.On d' := by
  refine hd.of_changedOnly hs hc ?_
  rintro p (hp | rfl)
  · exact hp.filesOf.owns
  · exact .manifest

theorem Ensures.on {r : Except EnvironmentError Unit} (h : Ensures C s u v flag m d r m' d')
    (hs : s.Clear) (hd : s.On d) : s.On d' := hd.of_touched hs h.changedOnly

/-- A variant that was missing and is not any more was built. -/
theorem Ensures.of_missing (h : Ensures C s u v flag m d (.ok ()) m' d')
    (missing : (s.cache m).lookup d v = .ok none) :
    ∃ c x, Coded C s u v d c flag ∧ C.Assembled c x ∧ d'.get? (s.codePlace v) = some (.file c) ∧
      d'.get? (s.executablePlace v) = some (.file x) ∧ m' = entered m v c x ∧ s.Nameable v := by
  cases h with
  | hit hlookup =>
    rw [missing] at hlookup
    cases hlookup
  | @built c x _ _ hcoded hmade hc hx _ hname _ =>
    exact ⟨c, x, hcoded, hmade, hc, hx, rfl, hname⟩

/-- A variant that was asked for without success leaves the manifest's file alone. -/
theorem Ensures.manifest_of_error (h : Ensures C s u v flag m d (.error e) m' d') (hs : s.Clear) :
    d'.get? s.manifestPlace = d.get? s.manifestPlace := by
  cases h with
  | corrupted _ => rfl
  | failed _ hc _ => exact hc.same _ fun hp => hp.ne_manifestPlace hs rfl

/-! ## Looking up -/

theorem eq_artifacts_of_lookup {k : Cache} {a : Artifacts} (h : k.lookup d v = .ok (some a)) :
    a = k.artifacts v := by
  unfold Cache.lookup at h
  split at h
  · cases h
  · dsimp only at h
    split at h
    · cases h
    · cases h
    · split at h
      · cases h
      · cases h
      · cases h
        rfl

theorem verify_eq_true {path digest : String} (h : Cache.verify d path digest = .ok true) :
    ∃ content, d.read path = .ok content ∧ Digest.ofBytes content = digest := by
  unfold Cache.verify at h
  split at h
  · cases h
  · cases h
  · rename_i content hread
    split at h
    · rename_i hdigest
      exact ⟨content, hread, hdigest⟩
    · cases h

/-- A hit is about files that can be read and have the digests of the manifest. -/
theorem reads_of_lookup {a : Artifacts} (h : (s.cache m).lookup d v = .ok (some a)) :
    ∃ c x, d.read (s.artifacts v).ir = .ok c ∧ d.read (s.artifacts v).executable = .ok x ∧
      m.get? v.encode = some ⟨Digest.ofBytes c, Digest.ofBytes x⟩ := by
  unfold Cache.lookup at h
  split at h
  · cases h
  · rename_i digests hget
    dsimp only at h
    split at h
    · cases h
    · cases h
    · rename_i hcode
      split at h
      · cases h
      · cases h
      · rename_i hexecutable
        obtain ⟨c, hc, hcd⟩ := verify_eq_true hcode
        obtain ⟨x, hx, hxd⟩ := verify_eq_true hexecutable
        refine ⟨c, x, hc, hx, ?_⟩
        rw [hcd, hxd]
        exact hget

theorem Laid.of_lookup (hs : s.Clear) (hd : s.Laid d) {a : Artifacts}
    (h : (s.cache m).lookup d v = .ok (some a)) :
    d.Leads (s.artifacts v).executable (s.executablePlace v) ∧
      ∃ c x, d.get? (s.codePlace v) = some (.file c) ∧
        d.get? (s.executablePlace v) = some (.file x) ∧
        m.get? v.encode = some ⟨Digest.ofBytes c, Digest.ofBytes x⟩ := by
  obtain ⟨c, x, hc, hx, hget⟩ := reads_of_lookup h
  have hleads := hd.leads_executable_of_read hs hx
  exact ⟨hleads, c, x, (hd.leads_code_of_read hs hc).of_read hc, hleads.of_read hx, hget⟩

/-- A look-up hits where the files are there and have the digests of the manifest. -/
theorem lookup_of_reads (hc : d.read (s.artifacts v).ir = .ok c)
    (hx : d.read (s.artifacts v).executable = .ok x)
    (hget : m.get? v.encode = some ⟨Digest.ofBytes c, Digest.ofBytes x⟩) :
    (s.cache m).lookup d v = .ok (some (s.artifacts v)) := by
  have hcode : Cache.verify d (s.artifacts v).ir (Digest.ofBytes c) = .ok true := by
    simp [Cache.verify, hc]
  have hexecutable : Cache.verify d (s.artifacts v).executable (Digest.ofBytes x) = .ok true := by
    simp [Cache.verify, hx]
  have hmanifest : (s.cache m).manifest.get? v.encode =
      some ⟨Digest.ofBytes c, Digest.ofBytes x⟩ := hget
  simp only [Cache.lookup, hmanifest, artifacts_cache, hcode, hexecutable]

/-- A look-up that misses an entry did not find the code, or found it with its digest. -/
theorem eq_digest_of_lookup_none {digests : Digests} (h : (s.cache m).lookup d v = .ok none)
    (hget : m.get? v.encode = some digests) (hc : d.read (s.artifacts v).ir = .ok c) :
    Digest.ofBytes c = digests.ir := by
  have hmanifest : (s.cache m).manifest.get? v.encode = some digests := hget
  by_contra hne
  have hcode : Cache.verify d (s.artifacts v).ir digests.ir =
      .error (.cacheCorrupted (s.artifacts v).ir .altered) := by
    simp [Cache.verify, hc, hne]
  simp [Cache.lookup, hmanifest, artifacts_cache, hcode] at h

/-- A variant that was asked for with success has an executable. -/
theorem Ensures.executable (h : Ensures C s u v flag m d (.ok ()) m' d') (hs : s.Clear)
    (hd : s.On d) : d'.Leads (s.artifacts v).executable (s.executablePlace v) ∧
      ∃ c x, d'.get? (s.codePlace v) = some (.file c) ∧
        d'.get? (s.executablePlace v) = some (.file x) ∧
        m'.get? v.encode = some ⟨Digest.ofBytes c, Digest.ofBytes x⟩ := by
  have hd' := h.on hs hd
  cases h with
  | hit hlookup => exact hd.of_lookup hs hlookup
  | @built c x _ _ _ _ hc hx _ hname _ =>
    exact ⟨hd'.leads_executable hs hname, c, x, hc, hx, Manifest.get?_insert_same _ _ _⟩

end Site

namespace Program

variable {σ : Type} {s : Site} {m : Manifest} {v : Variant} {b b' : Bench σ}
  {e : EnvironmentError} {tc : Toolchain σ} {C : Conduct} {flag : Option String}

theorem At.of_alike {p q : Program} (h : At s m p) (ha : Alike p q) (hc : q.cache = p.cache) :
    At s m q := ⟨hc.trans h.cache, by rw [ha]; exact h.name⟩

theorem ensureBuilt_of (tc : Toolchain σ) (v : Variant) (flag : Option String) (b : Bench σ) :
    ensureBuilt tc v flag b = match b.program.cache.lookup b.world.disk v with
      | .error e => .error e b
      | .ok (some a) => .ok a { b with program := { b.program with
          stats := { b.program.stats with cacheHits := b.program.stats.cacheHits + 1 } } }
      | .ok none => rebuild tc v flag b := by
  change (Work.ofExcept (b.program.cache.lookup b.world.disk v) >>= _) b = _
  cases b.program.cache.lookup b.world.disk v with
  | error e => rfl
  | ok found => cases found <;> rfl

theorem ensureBuilt_eq (hp : At s m b.program) :
    ensureBuilt tc v flag b = match (s.cache m).lookup b.world.disk v with
      | .error e => .error e b
      | .ok (some a) => .ok a { b with program := { b.program with
          stats := { b.program.stats with cacheHits := b.program.stats.cacheHits + 1 } } }
      | .ok none => rebuild tc v flag b := by
  rw [ensureBuilt_of, hp.cache]

/-! ## Building what is missing -/

theorem rebuild_some_ok (hs : s.Clear) (tidy : tc.Tidy C) (hp : At s m b.program)
    (hd : s.On b.world.disk) {flag : String} {a : Artifacts}
    (hlookup : (s.cache m).lookup b.world.disk v = .ok none)
    (h : rebuild tc v (some flag) b = .ok a b') :
    a = s.artifacts v ∧ ∃ m', b'.program.cache = s.cache m' ∧ s.Ensures C b.program.lineage v
      (some flag) m b.world.disk (.ok ()) m' b'.world.disk := by
  rw [rebuild_some, hp.name] at h
  obtain ⟨_, b₁, htransform, h⟩ := EStateM.of_bind_ok h
  obtain ⟨hp₁, hc₁, c₀, c, hsource, hcode, hmade⟩ := transformInto_ok hs tidy hp hd htransform
  have hd₁ : s.On b₁.world.disk := hd.of_changedOnly hs hc₁ fun p hp => hp ▸ .code v
  obtain ⟨_, b₂, hassemble, h⟩ := EStateM.of_bind_ok h
  obtain ⟨c', x, hassembled, hcode', henters, hc₂⟩ := assembleAside_ok hs tidy hp₁ hd₁ hassemble
  rw [hcode] at hcode'
  cases hcode'
  cases h
  refine ⟨by rw [hp.cache, Site.artifacts_cache], _, henters.cache, .built hlookup
    ⟨c₀, hsource, hmade⟩ hassembled henters.code henters.executable henters.manifest
    henters.nameable ((hc₁.mono fun p hp => ?_).trans (hc₂.mono fun p hp => ?_))⟩
  · exact .inl (.inr ⟨rfl, hp⟩)
  · exact hp.imp_left .inl

theorem rebuild_some_error (hs : s.Clear) (tidy : tc.Tidy C) (hp : At s m b.program)
    (hd : s.On b.world.disk) {flag : String}
    (hlookup : (s.cache m).lookup b.world.disk v = .ok none)
    (h : rebuild tc v (some flag) b = .error e b') :
    b'.program.cache = s.cache m ∧ s.Ensures C b.program.lineage v (some flag) m b.world.disk
      (.error e) m b'.world.disk := by
  rw [rebuild_some, hp.name] at h
  rcases EStateM.of_bind_error h with htransform | ⟨_, b₁, htransform, h⟩
  · obtain ⟨hcache, hc, hfails⟩ := transformInto_error hs tidy hp hd htransform
    refine ⟨hcache.trans hp.cache, .failed hlookup (hc.mono fun p hp => .inr ⟨rfl, hp⟩) ?_⟩
    exact fun c₀ hcode hlineage hfits => .inl (hfails c₀ hcode hlineage hfits)
  obtain ⟨hp₁, hc₁, c₀, c, hsource, hcode, hmade⟩ := transformInto_ok hs tidy hp hd htransform
  have hd₁ : s.On b₁.world.disk := hd.of_changedOnly hs hc₁ fun p hp => hp ▸ .code v
  rcases EStateM.of_bind_error h with hassemble | ⟨_, b₂, _, h⟩
  · obtain ⟨hcache, hc₂, hfails⟩ := assembleAside_error hs tidy hp₁ hd₁ hassemble
    refine ⟨hcache.trans hp₁.cache, .failed hlookup
      ((hc₁.mono fun p hp => .inr ⟨rfl, hp⟩).trans (hc₂.mono fun p hp => .inl hp)) ?_⟩
    intro c₀' hsource' _ hfits
    rw [hsource] at hsource'
    cases hsource'
    obtain ⟨failure, hf, he⟩ := hfails c hcode hfits
    exact .inr ⟨c, failure, hmade, hf, he⟩
  · cases h

theorem rebuild_none_ok (hs : s.Clear) (tidy : tc.Tidy C) (hp : At s m b.program)
    (hd : s.On b.world.disk) {a : Artifacts}
    (hlookup : (s.cache m).lookup b.world.disk v = .ok none)
    (h : rebuild tc v none b = .ok a b') :
    a = s.artifacts v ∧ ∃ m', b'.program.cache = s.cache m' ∧ s.Ensures C b.program.lineage v
      none m b.world.disk (.ok ()) m' b'.world.disk := by
  rw [rebuild_none, hp.name] at h
  split at h
  · obtain ⟨_, b₁, hassemble, h⟩ := EStateM.of_bind_ok h
    obtain ⟨c, x, hassembled, hcode, henters, hc⟩ := assembleAside_ok hs tidy hp hd hassemble
    cases h
    refine ⟨by rw [hp.cache, Site.artifacts_cache], _, henters.cache, .built hlookup hcode
      hassembled henters.code henters.executable henters.manifest henters.nameable
        (hc.mono fun p hp => ?_)⟩
    exact hp.imp_left .inl
  · cases h

theorem rebuild_none_error (hs : s.Clear) (tidy : tc.Tidy C) (hp : At s m b.program)
    (hd : s.On b.world.disk) (hlookup : (s.cache m).lookup b.world.disk v = .ok none)
    (h : rebuild tc v none b = .error e b') :
    b'.program.cache = s.cache m ∧ s.Ensures C b.program.lineage v none m b.world.disk
      (.error e) m b'.world.disk := by
  rw [rebuild_none, hp.name] at h
  split at h
  · rcases EStateM.of_bind_error h with hassemble | ⟨_, b₁, _, h⟩
    · obtain ⟨hcache, hc, hfails⟩ := assembleAside_error hs tidy hp hd hassemble
      exact ⟨hcache.trans hp.cache, .failed hlookup (hc.mono fun p hp => .inl hp) hfails⟩
    · cases h
  · rename_i hmissing
    cases h
    refine ⟨hp.cache, .failed hlookup (Disk.ChangedOnly.refl _ _) fun c hcode hfits => ?_⟩
    refine absurd ((hd.leads_code hs hfits.toNameable).isFile_iff.2 ⟨c, hcode⟩) ?_
    rwa [hp.cache, Site.artifacts_cache] at hmissing

theorem ensureBuilt_ok (hs : s.Clear) (tidy : tc.Tidy C) (hp : At s m b.program)
    (hd : s.On b.world.disk) {a : Artifacts} (h : ensureBuilt tc v flag b = .ok a b') :
    a = s.artifacts v ∧ ∃ m', At s m' b'.program ∧ s.Ensures C b.program.lineage v
      flag m b.world.disk (.ok ()) m' b'.world.disk := by
  have hname : b'.program.name = s.stem := by
    rw [(alike_ensureBuilt tc v flag).of_ok h]
    exact hp.name
  rw [ensureBuilt_eq hp] at h
  cases hlookup : (s.cache m).lookup b.world.disk v with
  | error e => simp [hlookup] at h
  | ok found =>
    cases found with
    | some a' =>
      simp only [hlookup] at h
      cases h
      obtain rfl := Site.eq_artifacts_of_lookup hlookup
      exact ⟨rfl, m, ⟨hp.cache, hname⟩, .hit hlookup⟩
    | none =>
      simp only [hlookup] at h
      cases flag with
      | some flag =>
        obtain ⟨ha, m', hcache, hensures⟩ := rebuild_some_ok hs tidy hp hd hlookup h
        exact ⟨ha, m', ⟨hcache, hname⟩, hensures⟩
      | none =>
        obtain ⟨ha, m', hcache, hensures⟩ := rebuild_none_ok hs tidy hp hd hlookup h
        exact ⟨ha, m', ⟨hcache, hname⟩, hensures⟩

theorem ensureBuilt_error (hs : s.Clear) (tidy : tc.Tidy C) (hp : At s m b.program)
    (hd : s.On b.world.disk) (h : ensureBuilt tc v flag b = .error e b') :
    At s m b'.program ∧ s.Ensures C b.program.lineage v flag m b.world.disk (.error e) m
      b'.world.disk := by
  have hname : b'.program.name = s.stem := by
    rw [(alike_ensureBuilt tc v flag).of_error h]
    exact hp.name
  rw [ensureBuilt_eq hp] at h
  cases hlookup : (s.cache m).lookup b.world.disk v with
  | error e =>
    simp only [hlookup] at h
    cases h
    exact ⟨hp, .corrupted hlookup⟩
  | ok found =>
    cases found with
    | some a => simp [hlookup] at h
    | none =>
      simp only [hlookup] at h
      cases flag with
      | some flag =>
        obtain ⟨hcache, hensures⟩ := rebuild_some_error hs tidy hp hd hlookup h
        exact ⟨⟨hcache, hname⟩, hensures⟩
      | none =>
        obtain ⟨hcache, hensures⟩ := rebuild_none_error hs tidy hp hd hlookup h
        exact ⟨⟨hcache, hname⟩, hensures⟩

end Program

end PassTuner
