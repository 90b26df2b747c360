import PassTuner.Proofs.Session.Invariants
import PassTuner.Proofs.Tool.Pure

/-!
# Where the artifacts of a hit come from

The digests of an entry are genuine if they are those of what the flags of its variant make of a
source with the digest of the manifest. An edit of an artifact does not harm the entries that are
there. An entry that is not genuine is made by a step that builds its variant out of code that was
edited, for the code of the lineage is not compared with its digest before it is transformed. Main
statement: along a run with deterministic tools all hits are genuine just when no step does that.
-/

namespace PassTuner

open Site (Rule Follows Filed)

/-- Digests of what the flags of a variant make of a source with a certain digest. -/
def Genuine (C : Conduct) (catalog : Catalog) : Rule := fun digest v digests _ =>
  ∃ source flags c x, Digest.ofBytes source = digest ∧
    catalog.describeAll v.actions = .ok flags ∧ C.Derived source flags c ∧ C.Assembled c x ∧
    digests = ⟨Digest.ofBytes c, Digest.ofBytes x⟩

/-- All entries are genuine, in the program's manifest and in the file, and the base has one. -/
structure Sealed (C : Conduct) (s : Site) (catalog : Catalog) (m : Manifest) (_u : Variant)
    (d : Disk) : Prop where
  manifest : Follows (Genuine C catalog) m d
  file : Filed (Genuine C catalog) s d
  base : ∃ digests, m.get? Variant.base.encode = some digests

variable {σ : Type} {s : Site} {tc : Toolchain σ} {workDir : String} {C : Conduct} {T : PureTools}
  {catalog : Catalog} {m m' : Manifest} {u v : Variant} {d d' : Disk} {c x : ByteArray}

theorem Genuine.base (h : C.Assembled c x) : Genuine C catalog (Digest.ofBytes c) .base
    ⟨Digest.ofBytes c, Digest.ofBytes x⟩ d :=
  ⟨c, [], c, x, rfl, catalog.describeAll_base, .base, h, rfl⟩

theorem Genuine.digest_base {digests : Digests} {digest : String}
    (h : Genuine C catalog digest .base digests d) : digests.ir = digest := by
  obtain ⟨source, flags, c, x, hsource, hflags, hderived, _, rfl⟩ := h
  rw [Catalog.describeAll_base] at hflags
  generalize hempty : ([] : List String) = flags' at hflags
  cases hflags
  cases hderived with
  | base => exact hsource
  | step => simp at hempty

theorem follows_elsewhere (h : Follows (Genuine C catalog) m d) (d' : Disk) :
    Follows (Genuine C catalog) m d' := h.mono fun _ _ _ h => h

theorem filed_elsewhere (h : Filed (Genuine C catalog) s d)
    (hsame : d'.get? s.manifestPlace = d.get? s.manifestPlace) :
    Filed (Genuine C catalog) s d' := by
  rcases h with hnone | ⟨m, hfile, hm⟩
  · exact .inl (hsame.trans hnone)
  · exact .inr ⟨m, hsame.trans hfile, follows_elsewhere hm d'⟩

theorem Sealed.move (h : Sealed C s catalog m u d)
    (hsame : d'.get? s.manifestPlace = d.get? s.manifestPlace) (v : Variant) :
    Sealed C s catalog m v d' :=
  ⟨follows_elsewhere h.manifest d', filed_elsewhere h.file hsame, h.base⟩

/-- Building leaves what was entered genuine. -/
theorem Sealed.of_entered (h : Follows (Genuine C catalog) m d)
    (hentry : Genuine C catalog m.sourceDigest v ⟨Digest.ofBytes c, Digest.ofBytes x⟩ d)
    (hfile : d'.get? s.manifestPlace = some (Site.manifestFile (Site.entered m v c x)))
    (hbase : v = .base ∨ ∃ digests, m.get? Variant.base.encode = some digests) (u : Variant) :
    Sealed C s catalog (Site.entered m v c x) u d' := by
  have hm := follows_elsewhere (h.enter hentry) d'
  refine ⟨hm, .inr ⟨_, hfile, hm⟩, ?_⟩
  by_cases hv : v = .base
  · subst hv
    exact ⟨_, Site.get?_entered_self m .base c x⟩
  · rw [Site.get?_entered_other m (fun heq => hv heq.symm)]
    exact hbase.resolve_left hv

/-- A base that is built again, because its executable is gone, is built from its source. -/
theorem Sealed.ensures_base (hs : s.Clear) (on : s.On d) (h : Sealed C s catalog m .base d)
    {r : Except EnvironmentError Unit} (hensures : s.Ensures C .base .base none m d r m' d') :
    Sealed C s catalog m' .base d' := by
  cases hensures with
  | hit _ => exact h
  | corrupted _ => exact h
  | failed _ hc _ =>
    exact h.move (hc.same _ fun hp => hp.ne_manifestPlace hs rfl) _
  | @built c x _ hlookup hcoded hmade _ _ hfile _ _ =>
    obtain ⟨digests, hget⟩ := h.base
    have hsource := Site.eq_digest_of_lookup_none hlookup hget (on.source.read_of_file hcoded)
    rw [(h.manifest.entry hget).digest_base] at hsource
    refine Sealed.of_entered h.manifest ?_ hfile (.inl rfl) _
    rw [← hsource]
    exact Genuine.base hmade

theorem Sealed.opens (hs : s.Clear) (on : s.On d) (h : Filed (Genuine C catalog) s d)
    (hsource : d.get? s.origin = some (.file c))
    (hcurrent : Cache.currentManifest d s.directory (Digest.ofBytes c) = .ok m)
    {r : Except EnvironmentError Unit} (hensures : s.Ensures C .base .base none m d r m' d') :
    Filed (Genuine C catalog) s d' ∧ (r = .ok () → Sealed C s catalog m' .base d') := by
  obtain ⟨m₁, hread, hdigest, hm⟩ := h.currentManifest on.toLaid (Digest.ofBytes c)
  rw [hcurrent] at hread
  cases hread
  cases hensures with
  | hit hlookup =>
    obtain ⟨_, _, _, _, hget⟩ := Site.reads_of_lookup hlookup
    exact ⟨h, fun _ => ⟨hm, h, _, hget⟩⟩
  | corrupted _ => exact ⟨h, nofun⟩
  | failed _ hc _ =>
    exact ⟨filed_elsewhere h (hc.same _ fun hp => hp.ne_manifestPlace hs rfl), nofun⟩
  | @built c' x _ hlookup hcoded hmade _ _ hfile _ _ =>
    have hsame : c' = c := by
      have heq := hcoded.symm.trans hsource
      cases heq
      rfl
    subst hsame
    have hsealed : Sealed C s catalog (Site.entered m .base c' x) .base d' := by
      refine Sealed.of_entered hm ?_ hfile (.inl rfl) _
      rw [hdigest]
      exact Genuine.base hmade
    exact ⟨hsealed.file, fun _ => hsealed⟩

/-- What is sealed stays sealed, apart from steps. -/
theorem invariant_sealed (hs : s.Named) (C : Conduct) (catalog : Catalog) :
    Session.Invariant C s (Filed (Genuine C catalog) s) (Sealed C s catalog) where
  start on hD hsource hcurrent hensures :=
    Sealed.opens (hs.clear on) on hD hsource hcurrent hensures
  stop h := h.file
  quiet h hsame := h.move (hsame.get? _) _
  base on h hensures := h.ensures_base (hs.clear on) on hensures
  home h := h.move rfl _

/-! ## Steps that stray -/

/-- A step gets as far as to build its variant, and builds it. -/
structure Builds (tc : Toolchain σ) (catalog : Catalog) (action : ActionId) (b₀ b b' : Bench σ)
    (v : Variant) (flag : String) : Prop where
  described : catalog.describe action = .ok flag
  ready : ∃ cost, Program.standingCost tc b₀ = .ok cost b
  variant : b.program.lineage.extend? action = .ok v
  missing : b.program.cache.lookup b.world.disk v = .ok none
  built : ∃ a, Program.ensureBuilt tc v (some flag) b = .ok a b'

/-- A step strays if it builds its variant out of code on the disk that leads to artifacts which are
not genuine. -/
def Strays (T : PureTools) (catalog : Catalog) (tc : Toolchain σ) (s : Site) :
    Event → Session σ → Prop
  | .step used action, x => ∃ p b b' v flag code made executable, x.program = some p ∧
    Builds tc used action ⟨x.world, p⟩ b b' v flag ∧
    b.world.disk.get? (s.codePlace b.program.lineage) = some (.file code) ∧
    T.transform flag code = .ok made ∧ T.assemble made = .ok executable ∧
    ¬Genuine T.conduct catalog b.program.cache.manifest.sourceDigest v
      ⟨Digest.ofBytes made, Digest.ofBytes executable⟩ b.world.disk
  | _, _ => False

theorem Sealed.tries (hs : s.Clear) {b : Bench σ} {action : ActionId} {flag : String}
    (hgenuine : ∀ v a b' code made executable, b.program.lineage.extend? action = .ok v →
      b.program.cache.lookup b.world.disk v = .ok none →
      Program.ensureBuilt tc v (some flag) b = .ok a b' →
      b.world.disk.get? (s.codePlace b.program.lineage) = some (.file code) →
      C.transform flag code (.ok made) → C.Assembled made executable →
      Genuine C catalog b.program.cache.manifest.sourceDigest v
        ⟨Digest.ofBytes made, Digest.ofBytes executable⟩ b.world.disk) :
    Program.Tries tc C s (Sealed C s catalog) action flag b where
  built := by
    intro m v a b' m' hp hm hv hensure hensures
    have hcache := hp.cache
    generalize b'.world.disk = d' at hensures
    generalize hr : Except.ok () = r at hensures
    cases hensures with
    | hit _ => exact ⟨hm, hm.move rfl _⟩
    | corrupted _ => cases hr
    | failed _ _ _ => cases hr
    | @built c x _ hlookup hcoded hmade _ _ hfile _ _ =>
      obtain ⟨code, hcode, htransform⟩ := hcoded
      have hentry := hgenuine v a b' code c x hv (by rw [hcache]; exact hlookup) hensure hcode
        htransform hmade
      rw [hcache] at hentry
      exact ⟨Sealed.of_entered hm.manifest hentry hfile (.inr hm.base) _,
        Sealed.of_entered hm.manifest hentry hfile (.inr hm.base) _⟩
  failed := by
    intro m v e d hp hm hv hensures
    exact hm.move (hensures.manifest_of_error hs) _

/-! ## Hits -/

/-- Whenever a look-up of the session's program hits, the files that it hits have the digests of
what the flags of the variant make of a source with the digest of the manifest. -/
def Sound (C : Conduct) (catalog : Catalog) (x : Session σ) : Prop :=
  ∀ p d v a, x.program = some p → p.cache.lookup d v = .ok (some a) →
    ∃ c e, d.read a.ir = .ok c ∧ d.read a.executable = .ok e ∧
      Genuine C catalog p.cache.manifest.sourceDigest v ⟨Digest.ofBytes c, Digest.ofBytes e⟩ d

variable {x : Session σ} {event : Event} {events : List Event}

theorem sound_of_sealed (h : Session.Keeps s (Filed (Genuine C catalog) s) (Sealed C s catalog) x) :
    Sound C catalog x := by
  intro p d v a hp hlookup
  obtain ⟨m, hat, hm⟩ := (h.of_some hp).state
  have hcache : p.cache = s.cache m := hat.cache
  rw [hcache] at hlookup ⊢
  obtain rfl := Site.eq_artifacts_of_lookup hlookup
  obtain ⟨c, e, hc, he, hget⟩ := Site.reads_of_lookup hlookup
  exact ⟨c, e, hc, he, hm.manifest.entry hget⟩

/-- A step that strays is followed by a hit that is not genuine. -/
theorem not_sound_of_strays (hs : s.Clear) (tidy : tc.Tidy T.conduct)
    (h : Session.Keeps s (Filed (Genuine T.conduct catalog) s) (Sealed T.conduct s catalog) x)
    (hlasting : Program.Lasting T.conduct s (Sealed T.conduct s catalog))
    (hstrays : Strays T catalog tc s event x) :
    ¬Sound T.conduct catalog (Session.perform tc workDir s event x).2 := by
  intro hsound
  cases event with
  | step used action =>
    obtain ⟨p, b, b', v, flag, code, made, executable, hp, hbuilds, hcode, htransform, hassemble,
      hforged⟩ := hstrays
    obtain ⟨cost, hready⟩ := hbuilds.ready
    obtain ⟨a, hensure⟩ := hbuilds.built
    have hb := Program.holds_standingCost hs tidy hlasting.settling (h.of_some hp) hready
    obtain ⟨m, hat, _⟩ := hb.state
    obtain ⟨_, m', hat', hensures⟩ := Program.ensureBuilt_ok hs tidy hat hb.on hensure
    have missing := hbuilds.missing
    rw [hat.cache] at missing hforged
    obtain ⟨c, e, ⟨code', hcode', hmade⟩, hassembled, hc, he, rfl, hname⟩ :=
      hensures.of_missing missing
    -- the tools make of the code just what the step entered
    rw [hcode] at hcode'
    cases hcode'
    obtain rfl : made = c := Except.ok.inj (htransform.symm.trans hmade.symm)
    obtain rfl : executable = e :=
      Except.ok.inj (hassemble.symm.trans (PureTools.assembled_iff.1 hassembled))
    obtain ⟨hcache, hsame⟩ := Program.after_advance tidy.measure hbuilds.variant hensure cost
    have hafter := Work.after_bind_of_ok hready (Program.advance tc action flag)
    rw [← Program.step_of_known tc hbuilds.described] at hafter
    rw [← hafter] at hcache hsame
    have on' := (hensures.on hs hb.on).of_changedOnly hs hsame nofun
    have hread := (on'.leads_code hs hname).read_of_file ((hsame.get? _).trans hc)
    have hread' := (on'.leads_executable hs hname).read_of_file ((hsame.get? _).trans he)
    have hlookup := Site.lookup_of_reads hread hread' (Site.get?_entered_self m v made executable)
    rw [← hat'.cache, ← hcache] at hlookup
    obtain ⟨c', e', hc', he', hgenuine⟩ :=
      hsound _ _ v _ (congrArg Session.program (Session.operate_of_some hp)) hlookup
    rw [hread] at hc'
    rw [hread'] at he'
    cases hc'
    cases he'
    rw [hcache, hat'.cache] at hgenuine
    exact hforged hgenuine
  | _ => exact hstrays

/-- Only steps that stray, and edits of the manifest, do harm to what is sealed. -/
theorem harmless_of_not_strays (hs : s.Clear) (spares : event.SparesManifest)
    (h : ¬Strays T catalog tc s event x) :
    Session.Harmless T.conduct s tc (Filed (Genuine T.conduct catalog) s)
      (Sealed T.conduct s catalog) event x := by
  cases event with
  | step used action =>
    intro p hp flag cost b hd hready _
    refine Sealed.tries hs fun v a b' code made executable hv missing hensure hcode hmade
      hassembled => ?_
    by_contra hforged
    exact h ⟨p, b, b', v, flag, code, made, executable, hp,
      ⟨hd, ⟨cost, hready⟩, hv, missing, ⟨a, hensure⟩⟩, hcode, hmade.symm,
      PureTools.assembled_iff.1 hassembled, hforged⟩
  | edit file content =>
    have hne := (Site.placeOf_ne_manifestPlace hs spares).symm
    exact ⟨fun m u d on hm => hm.move ((on.changedOnly_edit hs file content).same _ hne) _,
      fun d on hd => filed_elsewhere hd ((on.changedOnly_edit hs file content).same _ hne)⟩
  | _ => trivial

theorem sound_iff_of_keeps (hs : s.Named) (tidy : tc.Tidy T.conduct)
    (directory : Path.join workDir s.stem = s.directory)
    (h : Session.Keeps s (Filed (Genuine T.conduct catalog) s) (Sealed T.conduct s catalog) x)
    (spare : ∀ event ∈ events, event.SparesManifest) :
    Session.Throughout tc workDir s (Sound T.conduct catalog) events x ↔
      Session.Along tc workDir s (fun event x => ¬Strays T catalog tc s event x) events x := by
  have hI := invariant_sealed hs T.conduct catalog
  induction events generalizing x with
  | nil => exact ⟨fun _ => trivial, fun _ => sound_of_sealed h⟩
  | cons event events ih =>
    have clear := hs.clear h.on
    have hspares := spare event List.mem_cons_self
    have ih' (hn : ¬Strays T catalog tc s event x) :=
      ih (Session.keeps_perform hs tidy hI directory h (harmless_of_not_strays clear hspares hn))
        fun other hother => spare other (List.mem_cons_of_mem _ hother)
    constructor
    · rintro ⟨_, hrest⟩
      have hn : ¬Strays T catalog tc s event x := fun hstrays =>
        not_sound_of_strays clear tidy h hI.toLasting hstrays hrest.head
      exact ⟨hn, (ih' hn).1 hrest⟩
    · rintro ⟨hn, hrest⟩
      exact ⟨sound_of_sealed h, (ih' hn).2 hrest⟩

/-- Along a run of operations, reopenings, and edits of the source and of artifacts, all hits are
genuine just when no step strays. -/
theorem hits_genuine_iff_no_step_strays {w : World σ} {source : ByteArray}
    (h : Session.Unopened s workDir w d source) (tidy : tc.Tidy T.conduct) (age : Option Nat)
    (spare : ∀ event ∈ events, event.SparesManifest) :
    Session.Throughout tc workDir s (Sound T.conduct catalog) (.open age :: events) ⟨w, none⟩ ↔
      Session.Along tc workDir s (fun event x => ¬Strays T catalog tc s event x)
        (.open age :: events) ⟨w, none⟩ := by
  have hI := invariant_sealed h.toNamed T.conduct catalog
  have hopened := Session.keeps_open (x := ⟨w, none⟩) h.toNamed tidy hI (h.finds age) (.inl h.blank)
  have hiff := sound_iff_of_keeps h.toNamed tidy h.directory hopened spare
  constructor
  · rintro ⟨_, hrest⟩
    exact ⟨not_false, hiff.1 hrest⟩
  · rintro ⟨_, hrest⟩
    refine ⟨fun p d v a hp => ?_, hiff.2 hrest⟩
    cases hp

/-! A source that is edited before a step and put back after it ends up in an entry all the same. -/

/-- Tools that write the digest of what they read. -/
def stamping : PureTools where
  transform _ code := .ok (Digest.ofBytes code).toUTF8
  compile := .ok
  link := .ok
  measure _ := .ok (.ok "SYMVEC1 5.0 0SYMVEC")

def swapped : List Event :=
  [.edit (.code .base) (some "; cost 7.0\n".toUTF8), .step Program.soloCatalog 0,
    .edit (.code .base) (some Session.soloSource), .open none]

/-- The session after the first step, with the source that is not the manifest's. -/
def misled : Session Unit :=
  Session.run stamping.toolchain "build" Session.soloSite (.open none :: swapped.take 2)
    ⟨Session.soloWorld, none⟩

/-- Whether a look-up hits code that is not made of a source with the digest of the manifest. -/
def isForged (x : Session Unit) : Bool :=
  x.program.any fun p =>
    match p.cache.lookup x.world.disk Session.soloVariant with
    | .ok (some a) => (x.world.disk.read a.ir).toOption.any fun code =>
      Digest.ofBytes code != Digest.ofBytes p.cache.manifest.sourceDigest.toUTF8
    | _ => false

theorem isForged_misled : isForged misled = true := by decide +kernel

theorem spares_swapped : ∀ event ∈ swapped, event.SparesManifest := by
  simp [swapped, Event.SparesManifest]

theorem not_sound_of_isForged {x : Session Unit} (h : isForged x = true) :
    ¬Sound stamping.conduct Program.soloCatalog x := by
  intro hsound
  unfold isForged at h
  obtain ⟨p, hp, h⟩ := (Option.any_eq_true ..).1 h
  split at h
  · rename_i a hlookup
    obtain ⟨c, e, hc, _, source, flags, _, _, hsource, hflags, hderived, _, heq⟩ :=
      hsound p _ _ _ hp hlookup
    have hnamed :
      Program.soloCatalog.describeAll Session.soloVariant.actions = .ok ["--a"] := by decide
    rw [hnamed] at hflags
    cases hflags
    have hstamp := PureTools.derived_unique hderived (Conduct.Derived.base.step rfl)
    rw [hc] at h
    have hdigest := congrArg Digests.ir heq
    dsimp only at hdigest
    simp [hdigest, hstamp, hsource, Except.toOption] at h
  · cases h

/-- With one catalog and edits of nothing but the source a hit need not be genuine. -/
theorem altered_source_can_hit : ¬∀ (T : PureTools) (catalog : Catalog) (s : Site)
    (workDir : String) (w : World Unit) (d : Disk) (source : ByteArray) (age : Option Nat)
    (events : List Event), Session.Unopened s workDir w d source →
    (∀ event ∈ events, event.SparesManifest ∧ event.Uses catalog) →
    Session.Throughout T.toolchain workDir s (Sound T.conduct catalog) (.open age :: events)
      ⟨w, none⟩ := by
  intro h
  have hsound := h stamping Program.soloCatalog Session.soloSite "build" Session.soloWorld
    Session.soloDisk Session.soloSource none swapped Session.unopened_solo
    fun event hevent => ⟨spares_swapped event hevent, by
      revert event
      simp [swapped, Event.Uses]⟩
  exact not_sound_of_isForged isForged_misled hsound.2.2.2.1

theorem hits_genuine_iff_no_step_strays_swapped :
    Session.Throughout stamping.toolchain "build" Session.soloSite
        (Sound stamping.conduct Program.soloCatalog) (.open none :: swapped)
        ⟨Session.soloWorld, none⟩ ↔
      Session.Along stamping.toolchain "build" Session.soloSite
        (fun event x => ¬Strays stamping Program.soloCatalog stamping.toolchain Session.soloSite
          event x) (.open none :: swapped) ⟨Session.soloWorld, none⟩ :=
  hits_genuine_iff_no_step_strays Session.unopened_solo stamping.tidy none spares_swapped

end PassTuner
