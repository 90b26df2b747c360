import PassTuner.Proofs.Cache.Lookups
import PassTuner.Proofs.Cache.Reopening
import PassTuner.Proofs.Program.Rebuilding

/-!
# Variants in stock

A variant is in stock if looking it up hits, for a program that is opened on the disk as it is. The
manifest of a program that was opened there is the one on the disk, so its look-ups hit as well, and
it never calls a tool for a variant in stock. Asking for another variant touches neither its entry
nor its files, whether that succeeds or not.
-/

namespace PassTuner

variable {σ τ : Type} {s : Site} {source : ByteArray} {K : Variant → Prop} {log : List ToolCall}
  {m m' : Manifest} {k v : Variant} {flag : Option String} {d d' : Disk}

namespace Site

/-- A variant that is found is still found where its entry and its files are the same. -/
theorem hit_of_files (hs : s.Clear) (hd : s.Laid d) (hd' : s.Laid d')
    (hcode : d'.get? (s.codePlace v) = d.get? (s.codePlace v))
    (hexecutable : d'.get? (s.executablePlace v) = d.get? (s.executablePlace v))
    (hget : m'.get? v.encode = m.get? v.encode) {a : Artifacts}
    (h : (s.cache m).lookup d v = .ok (some a)) :
    (s.cache m').lookup d' v = .ok (some (s.artifacts v)) := by
  obtain ⟨c, x, hc, hx, hentry⟩ := reads_of_lookup h
  have lc := hd.leads_code_of_read hs hc
  have lx := hd.leads_executable_of_read hs hx
  have hname := hd.nameable hs lc lx
  refine lookup_of_reads ?_ ?_ (hget.trans hentry)
  · rw [← hc]
    exact lc.read_congr (hd'.leads_code hs hname) hcode
  · rw [← hx]
    exact lx.read_congr (hd'.leads_executable hs hname) hexecutable

/-- The manifest that is opened depends on its file alone. -/
theorem currentManifest_of_files (hd : s.Laid d) (hd' : s.Laid d')
    (h : d'.get? s.manifestPlace = d.get? s.manifestPlace) (digest : String) :
    Cache.currentManifest d' s.directory digest = Cache.currentManifest d s.directory digest := by
  have hread := hd.manifest.read_congr hd'.manifest h
  rw [manifestPath] at hread
  exact Cache.currentManifest_congr (by simp only [Disk.readText, hread]) digest

theorem lookUp_eq (hd : s.Laid d) (hsource : d.get? s.origin = some (.file source))
    (hm : Cache.currentManifest d s.directory (Digest.ofBytes source) = .ok m) (v : Variant) :
    s.lookUp d v = (s.cache m).lookup d v := by
  simp only [lookUp, hd.source.read_of_file hsource, hm]

theorem of_lookUp_hit (hd : s.Laid d) (hsource : d.get? s.origin = some (.file source))
    {a : Artifacts} (h : s.lookUp d v = .ok (some a)) :
    ∃ m, Cache.currentManifest d s.directory (Digest.ofBytes source) = .ok m ∧
      (s.cache m).lookup d v = .ok (some a) := by
  simp only [lookUp, hd.source.read_of_file hsource] at h
  cases hm : Cache.currentManifest d s.directory (Digest.ofBytes source) with
  | error e => simp [hm] at h
  | ok m =>
    rw [hm] at h
    exact ⟨m, rfl, h⟩

end Site

/-- A call for a variant that is found is for no other variant. -/
theorem ToolCall.For.unique (hs : s.Clear) (hd : s.Laid d) {a : Artifacts}
    (h : (s.cache m).lookup d k = .ok (some a)) {call : ToolCall} (hv : call.For s v)
    (hk : call.For s k) : v = k := by
  obtain ⟨c, x, hc, hx, -⟩ := Site.reads_of_lookup h
  have lc := hd.leads_code_of_read hs hc
  have lx := hd.leads_executable_of_read hs hx
  have ofCode (heq : (s.artifacts v).ir = (s.artifacts k).ir) : v = k :=
    (hs.codePlace_injective (hd.eq_codePlace hs (heq ▸ lc))).symm
  cases call with
  | transform flag input output => exact ofCode (hv.symm.trans hk)
  | compile ir object => exact ofCode (hv.symm.trans hk)
  | link object executable =>
    have heq : (s.artifacts v).executable = (s.artifacts k).executable := hv.symm.trans hk
    exact (Site.executablePlace_injective (hd.eq_executablePlace hs (heq ▸ lx))).symm
  | measure executable => exact hv.elim
  | describe => exact hv.elim

/-! ## Stock -/

/-- Some variants are in stock, and since a point in the log no tool was called for one of them. -/
structure World.Stocked (s : Site) (source : ByteArray) (K : Variant → Prop) (log : List ToolCall)
    (w : World (Logged σ)) : Prop where
  on : s.On w.disk
  origin : w.disk.get? s.origin = some (.file source)
  hits : ∀ k, K k → s.lookUp w.disk k = .ok (some (s.artifacts k))
  calls : ToolCall.Added (fun call => ∀ k, K k → ¬call.For s k) log w.tools.log

/-- So they are for a program, whose manifest is the one on the disk. -/
structure Bench.Stocked (s : Site) (source : ByteArray) (K : Variant → Prop) (log : List ToolCall)
    (b : Bench (Logged σ)) : Prop extends World.Stocked s source K log b.world where
  manifest : ∃ m, Program.At s m b.program ∧
    Cache.currentManifest b.world.disk s.directory (Digest.ofBytes source) = .ok m

namespace World.Stocked

variable {w w' : World (Logged σ)}

/-- What is elsewhere does not matter. -/
theorem move (hs : s.Clear) (h : w.Stocked s source K log) (on : s.On w'.disk)
    (files : ∀ p, s.Owns p → w'.disk.get? p = w.disk.get? p)
    (calls : ToolCall.Added (fun call => ∀ k, K k → ¬call.For s k) w.tools.log w'.tools.log) :
    w'.Stocked s source K log := by
  have hsource := (files _ (.code .base)).trans h.origin
  refine ⟨on, hsource, fun k hk => ?_, h.calls.trans calls⟩
  obtain ⟨m, hm, hhit⟩ := Site.of_lookUp_hit h.on.toLaid h.origin (h.hits k hk)
  have hm' := (Site.currentManifest_of_files h.on.toLaid on.toLaid (files _ .manifest) _).trans hm
  rw [Site.lookUp_eq on.toLaid hsource hm']
  exact Site.hit_of_files hs h.on.toLaid on.toLaid (files _ (.code k)) (files _ (.executable k))
    rfl hhit

/-- Building a variant that is not in stock does no harm to those that are. -/
theorem building (hs : s.Clear) (h : w.Stocked s source K log) (away : flag.isSome → v ≠ .base)
    (hv : ¬K v) (hw : World.Went (fun p => s.Touched v flag p ∨ p = s.manifestPlace)
      (ToolCall.For s v) w w')
    (hm : Cache.currentManifest w.disk s.directory (Digest.ofBytes source) = .ok m)
    (hm' : Cache.currentManifest w'.disk s.directory (Digest.ofBytes source) = .ok m')
    (entries : ∀ k, k ≠ v → m'.get? k.encode = m.get? k.encode) :
    w'.Stocked s source K log := by
  have on := h.on.of_touched hs hw.changed
  have hsource := (Site.origin_of_changed hs away hw.changed).trans h.origin
  have found (k : Variant) (hk : K k) :
      (s.cache m).lookup w.disk k = .ok (some (s.artifacts k)) := by
    rw [← Site.lookUp_eq h.on.toLaid h.origin hm]
    exact h.hits k hk
  have other (k : Variant) (hk : K k) : k ≠ v := fun heq => hv (heq ▸ hk)
  refine ⟨on, hsource, fun k hk => ?_, h.calls.trans (hw.calls.mono fun call hcall k hk hfor => ?_)⟩
  · obtain ⟨hcode, hexecutable⟩ := Site.files_of_others hs (other k hk) hw.changed
    rw [Site.lookUp_eq on.toLaid hsource hm']
    exact Site.hit_of_files hs h.on.toLaid on.toLaid hcode hexecutable (entries k (other k hk))
      (found k hk)
  · exact other k hk (ToolCall.For.unique hs h.on.toLaid (found k hk) hcall hfor).symm

end World.Stocked

namespace Bench.Stocked

variable {b b' : Bench (Logged σ)}

/-- The program's look-ups are those of a program that is opened now. -/
theorem lookup_eq (h : b.Stocked s source K log) (v : Variant) :
    b.program.cache.lookup b.world.disk v = s.lookUp b.world.disk v := by
  obtain ⟨m, hp, hm⟩ := h.manifest
  rw [hp.cache, Site.lookUp_eq h.on.toLaid h.origin hm]

/-- Only name and cache of a program matter, and only disk and log of a world. -/
theorem of_same (h : b.Stocked s source K log) (hdisk : b'.world.disk = b.world.disk)
    (htools : b'.world.tools = b.world.tools) (hcache : b'.program.cache = b.program.cache)
    (hname : b'.program.name = b.program.name) : b'.Stocked s source K log := by
  obtain ⟨m, hp, hm⟩ := h.manifest
  refine ⟨⟨?_, ?_, ?_, ?_⟩, m, ⟨hcache.trans hp.cache, hname.trans hp.name⟩, ?_⟩
  · rw [hdisk]
    exact h.on
  · rw [hdisk]
    exact h.origin
  · rw [hdisk]
    exact h.hits
  · rw [htools]
    exact h.calls
  · rw [hdisk]
    exact hm

/-- A variant that is found is in stock from then on. -/
theorem restock (h : b.Stocked s source K log)
    (hv : b.program.cache.lookup b.world.disk v = .ok (some (s.artifacts v))) :
    b.Stocked s source (· = v) b.world.tools.log := by
  refine ⟨⟨h.on, h.origin, ?_, .refl _ _⟩, h.manifest⟩
  rintro k rfl
  rw [← h.lookup_eq]
  exact hv

end Bench.Stocked

namespace Program

variable {tc : Toolchain σ} {b b' : Bench (Logged σ)}

/-- Asking for a variant keeps the stock, and with success the variant is in it. -/
theorem yields_ensureBuilt (hs : s.Clear) (confined : tc.Confined) (h : b.Stocked s source K log)
    (away : flag.isSome → v ≠ .base) :
    (ensureBuilt tc.logged v flag).Yields (Bench.Stocked s source K log)
      (fun b' => b'.Stocked s source K log ∧
        b'.program.cache.lookup b'.world.disk v = .ok (some (s.artifacts v))) b := by
  obtain ⟨m, hp, hm⟩ := h.manifest
  have heq : ensureBuilt tc.logged v flag b = _ := ensureBuilt_eq hp
  cases hlookup : (s.cache m).lookup b.world.disk v with
  | error e =>
    rw [hlookup] at heq
    exact Work.yields_of_error heq h
  | ok found =>
    cases found with
    | some a =>
      rw [hlookup] at heq
      refine Work.yields_of_ok heq ⟨h.of_same rfl rfl rfl rfl, ?_⟩
      obtain rfl := Site.eq_artifacts_of_lookup hlookup
      change b.program.cache.lookup _ _ = _
      rw [hp.cache]
      exact hlookup
    | none =>
      have hv : ¬K v := by
        intro hv
        have hhit := h.hits v hv
        rw [Site.lookUp_eq h.on.toLaid h.origin hm, hlookup] at hhit
        cases hhit
      have hrebuild : ensureBuilt tc.logged v flag b = rebuild tc.logged v flag b := by
        simp only [heq, hlookup]
      refine Work.yields_of_eq hrebuild ?_
      refine (yields_rebuild hs confined hp h.on flag).mono (fun b' hfailed => ?failed)
        fun b' hbuilt => ?built
      case failed =>
        have hfile := hfailed.changed.same _ fun hp => hp.ne_manifestPlace hs rfl
        have hwent := hfailed.toWent.mono (fun p => Or.inl (b := p = s.manifestPlace))
          fun _ hcall => hcall
        have on' := h.on.of_touched hs hwent.changed
        have hm' := (Site.currentManifest_of_files h.on.toLaid on'.toLaid hfile _).trans hm
        exact ⟨h.building hs away hv hwent hm hm' fun _ _ => rfl, m, hfailed.at_site hp, hm'⟩
      case built =>
        obtain ⟨c, x, henters⟩ := hbuilt.entry
        obtain ⟨hsorted, hdigest⟩ := Cache.sorted_of_currentManifest hm
        have on' := h.on.of_touched hs hbuilt.changed
        have hm' : Cache.currentManifest b'.world.disk s.directory (Digest.ofBytes source) =
            .ok (Site.entered m v c x) := by
          rw [Site.currentManifest_of_file on'.toLaid henters.manifest (hsorted.insert _ _)]
          exact congrArg Except.ok (if_pos hdigest)
        have hstocked := h.building hs away hv hbuilt.toWent hm hm' fun k hk =>
          Site.get?_entered_other m hk c x
        refine ⟨⟨hstocked, _, ⟨henters.cache, hbuilt.name.trans hp.name⟩, hm'⟩, ?_⟩
        rw [henters.cache]
        exact Site.lookup_of_reads ((on'.leads_code hs henters.nameable).read_of_file henters.code)
          ((on'.leads_executable hs henters.nameable).read_of_file henters.executable)
          (Site.get?_entered_self m v c x)

/-! ## What operations keep -/

/-- Something that holds of benches because of the disk, the tools, and a program's name and cache,
and that measuring and asking for variants keep. -/
structure Enduring (tc : Toolchain τ) (J : Bench τ → Prop) : Prop where
  same : ∀ {b b' : Bench τ}, J b → b'.world.disk = b.world.disk → b'.world.tools = b.world.tools →
    b'.program.cache = b.program.cache → b'.program.name = b.program.name → J b'
  measured : ∀ executable, Keeps J (Work.ofTool (tc.measure executable))
  ensured : ∀ v flag, (flag.isSome → v ≠ .base) → Keeps J (ensureBuilt tc v flag)

namespace Enduring

variable {tc : Toolchain τ} {J : Bench τ → Prop} (h : Enduring tc J)
include h

theorem modify {f : Program → Program} (hcache : ∀ p, (f p).cache = p.cache)
    (hname : ∀ p, (f p).name = p.name) : Keeps J (Work.modifyProgram f : Work τ Unit) :=
  fun b hb => show J ⟨b.world, f b.program⟩ from h.same hb rfl rfl (hcache _) (hname _)

theorem settle (v : Variant) (executable : String) (patience retries : Nat) :
    Keeps J (Program.settle tc v executable patience retries) := by
  induction patience generalizing retries with
  | zero => exact fun b hb => hb
  | succ patience ih =>
    refine (h.measured executable).bind fun output => ?_
    split
    · exact Keeps.bind (fun b hb => h.same hb rfl rfl rfl rfl) fun _ => ih (retries + 1)
    · exact keeps_pure _

theorem runMeasurement (v : Variant) (executable : String) :
    Keeps J (Program.runMeasurement tc v executable) := by
  rw [runMeasurement_eq]
  refine (h.settle v executable _ _).bind fun settled => ?_
  refine Keeps.bind (fun b hb => h.same hb rfl rfl rfl rfl) fun takenAt => ?_
  refine Keeps.bind (h.modify (fun _ => rfl) fun _ => rfl) fun _ => ?_
  split
  · exact keeps_pure _
  · exact fun b hb => hb

theorem build : Keeps J (Program.build tc) := by
  intro b hb
  have marked : Keeps J (Work.modifyProgram fun p => { p with stage := .built } : Work τ Unit) :=
    h.modify (fun _ => rfl) fun _ => rfl
  by_cases hstage : b.program.stage = .unbuilt
  · rw [build_of_unbuilt tc hstage]
    exact (h.ensured b.program.lineage none nofun).bind (fun _ => marked) b hb
  · rw [build_of_built tc hstage]
    exact hb

/-- Measuring a lineage that was built. -/
theorem measuring : Keeps J (Work.program >>= fun p =>
    Program.runMeasurement tc p.lineage (p.cache.artifacts p.lineage).executable >>= fun m =>
    Work.modifyProgram (fun p => { p with
      base := if p.lineage.isBase then some m else p.base
      current := some m
      stage := .measured }) >>= fun _ => pure m : Work τ Measurement) := by
  refine Keeps.bind (fun b hb => hb) fun p => (h.runMeasurement _ _).bind fun m => ?_
  exact Keeps.bind (h.modify (fun _ => rfl) fun _ => rfl) fun _ => keeps_pure m

theorem measure : Keeps J (Program.measure tc) := by
  rw [measure_eq]
  exact h.build.bind fun _ => h.measuring

/-- What holds once the lineage was asked for holds after measuring it. -/
theorem after_measure {b b' : Bench τ} {a : Artifacts} (hstage : b.program.stage = .unbuilt)
    (asked : ensureBuilt tc b.program.lineage none b = .ok a b') (hb' : J b') :
    J ((Program.measure tc).after b) := by
  have hbuild := (build_of_unbuilt tc hstage).trans (EStateM.bind_of_ok asked _)
  rw [measure_eq, Work.after_bind_of_ok hbuild]
  exact Work.after_of_keeps h.measuring (h.same hb' rfl rfl rfl rfl)

theorem standingCost : Keeps J (Program.standingCost tc) := by
  intro b hb
  rw [standingCost_eq]
  cases b.program.measuredCost? with
  | some cost => exact hb
  | none => exact h.measure.bind (fun m => keeps_pure m.cost) b hb

/-- What an advance does once its variant is there. -/
theorem rewarded (name : String) (v : Variant) (before : Float) (a : Artifacts) :
    Keeps J (Program.runMeasurement tc v a.executable >>= fun m =>
      match Cost.reward before m.cost with
      | .error _ => throw (.invalidCost name v before m.cost)
      | .ok reward => Work.modifyProgram (fun p =>
          { p with lineage := v, current := some m, stage := .measured }) >>= fun _ =>
          pure reward : Work τ Float) := by
  refine (h.runMeasurement v a.executable).bind fun m => ?_
  cases Cost.reward before m.cost with
  | error fault => exact keeps_throw _
  | ok reward =>
    exact Keeps.bind (h.modify (fun _ => rfl) fun _ => rfl) fun _ => keeps_pure reward

theorem advance (action : ActionId) (flag : String) (before : Float) :
    Keeps J (Program.advance tc action flag before) := by
  intro b hb
  rw [advance_eq]
  cases hv : b.program.lineage.extend? action with
  | error fault => exact hb
  | ok v =>
    have away : (some flag).isSome → v ≠ .base := fun _ => Variant.ne_base_of_extend? hv
    exact (h.ensured v (some flag) away).bind (fun a => h.rewarded _ v before a) b hb

/-- What holds once the variant of a step was asked for holds after the step. -/
theorem after_step {catalog : Catalog} {action : ActionId} {flag : String} {cost : Float}
    {b b₁ b' : Bench τ} {a : Artifacts} (hd : catalog.describe action = .ok flag)
    (ready : Program.standingCost tc b = .ok cost b₁)
    (hv : b₁.program.lineage.extend? action = .ok v)
    (asked : ensureBuilt tc v (some flag) b₁ = .ok a b') (hb' : J b') :
    J ((Program.step tc catalog action).after b) := by
  have hadvance := advance_eq tc action flag cost b₁
  simp only [hv] at hadvance
  rw [step_of_known tc hd, Work.after_bind_of_ok ready, Work.after_of_eq hadvance,
    Work.after_bind_of_ok asked]
  exact Work.after_of_keeps (h.rewarded _ v cost a) hb'

theorem step (catalog : Catalog) (action : ActionId) :
    Keeps J (Program.step tc catalog action) := by
  cases hd : catalog.describe action with
  | error fault =>
    intro b hb
    rw [step_of_unknown tc hd]
    exact hb
  | ok flag =>
    rw [step_of_known tc hd]
    exact h.standingCost.bind fun cost => h.advance action flag cost

theorem reset : Keeps J (Program.reset tc) := by
  intro b hb
  cases hfresh : baseIsFresh b.program b.world.clock with
  | true =>
    rw [reset_of_fresh tc hfresh]
    exact h.same hb rfl rfl rfl rfl
  | false =>
    rw [reset_of_stale tc hfresh]
    exact h.measure.bind (fun _ => keeps_pure ()) _ (h.same hb rfl rfl rfl rfl)

end Enduring

/-- Nothing that operations do takes a variant out of stock, or calls a tool for it. -/
theorem enduring_stocked (hs : s.Clear) (confined : tc.Confined) :
    Enduring tc.logged (Bench.Stocked s source K log) where
  same := Bench.Stocked.of_same
  measured executable := by
    refine Work.keeps_ofTool fun b hb => ?_
    have hwent : World.Went (fun _ => False) (· = .measure executable) b.world
        ((tc.logged.measure executable).after b.world) :=
      World.went_logging b.world fun w hw => hw ▸ confined.measure executable w
    have on' := hb.on.of_changedOnly hs hwent.changed nofun
    have hsame (p : Place) := hwent.changed.same p nofun
    obtain ⟨m, hp, hm⟩ := hb.manifest
    refine ⟨hb.move hs on' (fun p _ => hsame p) (hwent.calls.mono ?_), m, hp, ?_⟩
    · rintro call rfl k _ hfor
      exact hfor
    · exact (Site.currentManifest_of_files hb.on.toLaid on'.toLaid (hsame _) _).trans hm
  ensured v flag away := by
    intro b hb
    have hy := yields_ensureBuilt hs confined hb away
    cases hw : ensureBuilt tc.logged v flag b with
    | ok a b' => exact (hy.of_ok hw).1
    | error e b' => exact hy.of_error hw

end Program

end PassTuner
