import PassTuner.Proofs.Program.Ensuring
import PassTuner.Proofs.Program.Recording
import PassTuner.Proofs.Tool.Logging

/-!
# What building calls and changes

Tools may do what they like as long as they write their outputs only. Building a variant calls
them for that variant and no other, it changes files of that variant and the manifest at most, and
when it succeeds the variant was entered as it is on the disk. When it fails the manifest is what it
was.
-/

namespace PassTuner

/-- A call makes the code of a variant, compiles it, or links the executable of the variant. -/
def ToolCall.For (s : Site) (v : Variant) : ToolCall → Prop
  | .transform _ _ output => output = (s.artifacts v).ir
  | .compile ir _ => ir = (s.artifacts v).ir
  | .link _ executable => executable = (s.artifacts v).executable
  | .measure _ | .describe => False

variable {σ : Type}

/-- From one bench to another the program recorded nothing. -/
structure Bench.Went (P : Place → Prop) (Q : ToolCall → Prop) (b b' : Bench (Logged σ)) : Prop
    extends World.Went P Q b.world b'.world where
  cache : b'.program.cache = b.program.cache
  name : b'.program.name = b.program.name

namespace Bench.Went

variable {P P' : Place → Prop} {Q Q' : ToolCall → Prop} {b b' b'' : Bench (Logged σ)}

theorem refl (P : Place → Prop) (Q : ToolCall → Prop) (b : Bench (Logged σ)) : b.Went P Q b :=
  ⟨World.Went.refl P Q _, rfl, rfl⟩

theorem trans (h : b.Went P Q b') (h' : b'.Went P Q b'') : b.Went P Q b'' :=
  ⟨h.toWent.trans h'.toWent, h'.cache.trans h.cache, h'.name.trans h.name⟩

theorem mono (h : b.Went P Q b') (hP : ∀ p, P p → P' p) (hQ : ∀ call, Q call → Q' call) :
    b.Went P' Q' b' := ⟨h.toWent.mono hP hQ, h.cache, h.name⟩

theorem at_site {s : Site} {m : Manifest} (h : b.Went P Q b') (hp : Program.At s m b.program) :
    Program.At s m b'.program := ⟨h.cache.trans hp.cache, h.name.trans hp.name⟩

end Bench.Went

namespace Work

variable {α β : Type} {b b' : Bench σ} {fail done fail' done' : Bench σ → Prop} {work : Work σ α}

/-- Work ends on a bench of one kind with an error, and on a bench of another with an answer. -/
structure Yields (fail done : Bench σ → Prop) (work : Work σ α) (b : Bench σ) : Prop where
  of_ok : ∀ {a b'}, work b = .ok a b' → done b'
  of_error : ∀ {e b'}, work b = .error e b' → fail b'

theorem yields_pure {a : α} (h : done b) : Yields fail done (pure a) b := by
  constructor <;> intro _ _ hw <;> cases hw
  exact h

theorem yields_of_error {e : EnvironmentError} (h : work b = .error e b') (hfail : fail b') :
    Yields fail done work b := by
  constructor <;> intro _ _ hw <;> rw [h] at hw <;> cases hw
  exact hfail

theorem yields_of_ok {a : α} (h : work b = .ok a b') (hdone : done b') :
    Yields fail done work b := by
  constructor <;> intro _ _ hw <;> rw [h] at hw <;> cases hw
  exact hdone

theorem yields_of_eq {work' : Work σ α} (h : work b = work' b') (hy : work'.Yields fail done b') :
    work.Yields fail done b :=
  ⟨fun hw => hy.of_ok (h ▸ hw), fun hw => hy.of_error (h ▸ hw)⟩

theorem Yields.mono (h : Yields fail done work b) (hfail : ∀ b', fail b' → fail' b')
    (hdone : ∀ b', done b' → done' b') : Yields fail' done' work b :=
  ⟨fun hw => hdone _ (h.of_ok hw), fun hw => hfail _ (h.of_error hw)⟩

theorem Yields.bind {next : α → Work σ β} (first : Yields fail done work b)
    (second : ∀ a b', done b' → Yields fail done' (next a) b') :
    Yields fail done' (work >>= next) b := by
  constructor
  · intro c b' hw
    obtain ⟨a, b₁, hfirst, hnext⟩ := EStateM.of_bind_ok hw
    exact (second a b₁ (first.of_ok hfirst)).of_ok hnext
  · intro e b' hw
    rcases EStateM.of_bind_error hw with hfirst | ⟨a, b₁, hfirst, hnext⟩
    · exact first.of_error hfirst
    · exact (second a b₁ (first.of_ok hfirst)).of_error hnext

theorem keeps_ofTool {J : Bench σ → Prop} {t : Tool σ α}
    (h : ∀ b, J b → J { b with world := t.after b.world }) : Keeps J (ofTool t) := by
  intro b hb
  have hafter := h b hb
  unfold Tool.after at hafter
  unfold ofTool
  cases ht : t b.world <;> simpa only [ht] using hafter

/-- A tool that has to succeed leaves the world that it left, also when it did not succeed. -/
theorem yields_demand {t : Tool σ ToolOutput} {refusal : ToolOutput → EnvironmentError}
    (h : fail { b with world := t.after b.world }) :
    (demand t refusal).Yields fail fail b := by
  unfold Tool.after at h
  have heq := demand_eq t refusal b
  cases ht : t b.world with
  | error e w =>
    rw [ht] at h heq
    exact yields_of_error heq h
  | ok o w =>
    rw [ht] at h heq
    cases hs : o.succeeded with
    | true => exact yields_of_ok (by simpa [hs] using heq) h
    | false => exact yields_of_error (by simpa [hs] using heq) h

end Work

namespace Program

variable {s : Site} {m : Manifest} {v : Variant} {tc : Toolchain σ} {b b' : Bench (Logged σ)}
  {P : Place → Prop} {refusal : ToolOutput → EnvironmentError}

/-- A confined tool is called for a variant, and changes its output at most. -/
theorem yields_call {entry : ToolCall} {call : (input output : String) → Tool σ ToolOutput}
    {input output : String} {b₀ : Bench (Logged σ)} (confined : Tool.Confined call)
    (hentry : entry.For s v) (h₀ : b₀.Went P (ToolCall.For s v) b)
    (hP : ∀ p, b.world.disk.Leads output p → P p) :
    (Work.demand (Tool.logging entry (call input output)) refusal).Yields
      (b₀.Went P (ToolCall.For s v)) (b₀.Went P (ToolCall.For s v)) b := by
  have hw : World.Went P (· = entry) b.world
      ((Tool.logging entry (call input output)).after b.world) := by
    refine World.went_logging b.world fun w hw => ?_
    have hchanged := confined input output w
    rw [hw] at hchanged
    exact hchanged.mono hP
  exact Work.yields_demand (h₀.trans
    ⟨hw.mono (fun _ hp => hp) fun _ hcall => hcall ▸ hentry, rfl, rfl⟩)

/-- The variant was entered at last, and before that nothing was recorded. -/
structure Rebuilt (s : Site) (m : Manifest) (v : Variant) (P : Place → Prop)
    (b b' : Bench (Logged σ)) : Prop
    extends World.Went (fun p => P p ∨ p = s.manifestPlace) (ToolCall.For s v) b.world
      b'.world where
  entry : ∃ c x, Enters s m v c x b'
  name : b'.program.name = b.program.name

theorem Rebuilt.after {b₀ : Bench (Logged σ)} (h : Rebuilt s m v P b b')
    (h₀ : b₀.Went P (ToolCall.For s v) b) : Rebuilt s m v P b₀ b' :=
  ⟨(h₀.toWent.mono (fun _ => .inl) fun _ hcall => hcall).trans h.toWent, h.entry,
    h.name.trans h₀.name⟩

theorem Rebuilt.mono {P' : Place → Prop} (h : Rebuilt s m v P b b') (hP : ∀ p, P p → P' p) :
    Rebuilt s m v P' b b' :=
  ⟨h.toWent.mono (fun p => Or.imp_left (hP p)) fun _ hcall => hcall, h.entry, h.name⟩

/-- Recording uses no tools. -/
theorem of_recordVariant_ok (h : recordVariant v b = .ok () b') :
    b'.world.tools = b.world.tools ∧ b'.program.name = b.program.name := by
  unfold recordVariant at h
  dsimp only at h
  split at h
  · cases h
    exact ⟨rfl, rfl⟩
  · cases h

/-- A variant is recorded just when its artifacts can be read. -/
theorem yields_recordVariant (hs : s.Clear) (hp : At s m b.program) (hd : s.Laid b.world.disk)
    (P : Place → Prop) :
    (recordVariant v).Yields (b.Went P (ToolCall.For s v)) (Rebuilt s m v P b) b := by
  rcases b.program.cache.record_cases b.world.disk v with ⟨e, heq⟩ | ⟨c, x, _, hc, hx, -⟩
  · have hrecord : recordVariant v b = .error e b := by
      unfold recordVariant
      rw [heq]
    exact Work.yields_of_error hrecord (.refl P _ b)
  · rw [hp.cache, Site.artifacts_cache] at hc hx
    have hcode := hd.leads_code_of_read hs hc
    have hexecutable := hd.leads_executable_of_read hs hx
    obtain ⟨b', hrecord, henters, hchanged⟩ := recordVariant_of_files hs hp hd hcode
      (hcode.of_read hc) hexecutable (hexecutable.of_read hx)
    obtain ⟨htools, hname⟩ := of_recordVariant_ok hrecord
    refine Work.yields_of_ok hrecord ⟨⟨hchanged.mono fun _ => .inr, ?_⟩, ⟨c, x, henters⟩, hname⟩
    rw [htools]
    exact .refl _ _

/-! ## Assembling -/

theorem scratched_of_went (h : s.Scratched b.world.disk) {Q : ToolCall → Prop}
    (hwent : b.Went (Assembling s v) Q b') : s.Scratched b'.world.disk :=
  h.of_changedOnly hwent.changed fun _ hp => Assembling.parent h (.inl hp)

theorem yields_assemble (hs : s.Clear) (confined : tc.Confined) (hp : At s m b.program)
    (hd : s.Scratched b.world.disk) :
    (assemble tc.logged v s.objectPath).Yields (b.Went (Assembling s v) (ToolCall.For s v))
      (Rebuilt s m v (Assembling s v) b) b := by
  have counted : b.Went (Assembling s v) (ToolCall.For s v) (counting b) :=
    ⟨World.Went.refl _ _ _, rfl, rfl⟩
  have compiles : ToolCall.For s v (.compile (s.artifacts v).ir s.objectPath) := rfl
  have links : ToolCall.For s v (.link s.objectPath (s.artifacts v).executable) := rfl
  refine Work.yields_of_eq (assemble_eq tc.logged v s.objectPath b) ?_
  rw [hp.cache, Site.artifacts_cache]
  refine (yields_call confined.compile compiles counted ?toObject).bind fun _ b₁ h₁ =>
    (yields_call confined.link links h₁ ?toExecutable).bind fun _ b₂ h₂ => ?recording
  case toObject => exact fun p hl => .inl (hd.eq_objectPlace hs hl)
  case toExecutable =>
    exact fun p hl => .inr ((scratched_of_went hd h₁).eq_executablePlace hs hl)
  case recording =>
    have hd₂ := scratched_of_went hd h₂
    exact (yields_recordVariant hs (h₂.at_site hp) hd₂.toLaid _).mono (fun _ => h₂.trans)
      fun _ hrebuilt => hrebuilt.after h₂

/-! ## Working in a scratch directory -/

theorem yields_cleaning {α : Type} {f : Disk → Disk} {fail done : Bench σ → Prop} {work : Work σ α}
    {b : Bench σ} (h : work.Yields (fun b' => fail (withDisk b' (f b'.world.disk)))
      (fun b' => done (withDisk b' (f b'.world.disk))) b) :
    (Work.cleaning f work).Yields fail done b := by
  have heq := cleaning_eq f work b
  cases hw : work b with
  | ok a b' =>
    rw [hw] at heq
    exact Work.yields_of_ok heq (h.of_ok hw)
  | error e b' =>
    rw [hw] at heq
    exact Work.yields_of_error heq (h.of_error hw)

/-- What was made in a scratch directory goes with it. -/
theorem went_scratch {Q : ToolCall → Prop} {P' : Place → Prop} (hd : s.On b.world.disk)
    (hvacant : b.world.disk.get? s.scratchPlace = none)
    (h : World.Went P Q (withDisk b (b.world.disk.put s.scratchPlace .directory)).world b'.world)
    (hP : ∀ p, P p → P' p ∨ s.scratchPlace <:+ p) :
    World.Went P' Q b.world (withDisk b' (b'.world.disk.erase s.scratchPlace)).world :=
  ⟨Disk.changedOnly_scratch hd.tree hvacant (h.changed.mono hP), h.calls⟩

theorem yields_assembleAside (hs : s.Clear) (confined : tc.Confined) (hp : At s m b.program)
    (hd : s.On b.world.disk) :
    (assembleAside tc.logged v s.stem).Yields (b.Went (· = s.executablePlace v) (ToolCall.For s v))
      (Rebuilt s m v (· = s.executablePlace v) b) b := by
  have heq : assembleAside tc.logged v s.stem b = _ := withScratch_eq _ hp hd
  by_cases hshort : Site.Short s.directory s.scratch
  · rw [hd.makeDirectory_short hs hshort] at heq
    have hscratched := hd.scratched hs hshort
    have hvacant := hd.vacant_scratch hs hshort
    have hinside (p : Place) (h : Assembling s v p) :
        p = s.executablePlace v ∨ s.scratchPlace <:+ p := by
      rcases h with rfl | h
      · exact .inr (List.suffix_cons _ _)
      · exact .inl h
    let b₀ := withDisk b (b.world.disk.put s.scratchPlace .directory)
    have hassemble : assembleAside tc.logged v s.stem b =
        Work.cleaning (·.remove s.scratchPath) (assemble tc.logged v s.objectPath) b₀ := heq
    refine Work.yields_of_eq hassemble (yields_cleaning
      ((yields_assemble (b := b₀) hs confined hp hscratched).mono (fun b' h => ?_) fun b' h => ?_))
    · rw [(scratched_of_went hscratched h).remove_scratch]
      exact ⟨went_scratch hd hvacant h.toWent hinside, h.cache, h.name⟩
    · have hd' : s.Scratched b'.world.disk :=
        hscratched.of_changedOnly h.changed fun p hp => Assembling.parent hscratched hp
      obtain ⟨c, x, henters⟩ := h.entry
      rw [hd'.remove_scratch]
      refine ⟨went_scratch hd hvacant h.toWent fun p hp => ?_, ⟨c, x, henters.erase hd'⟩, h.name⟩
      rcases hp with hp | hp
      · exact (hinside p hp).imp_left .inl
      · exact .inl (.inr hp)
  · rw [hd.makeDirectory_long hs hshort] at heq
    exact Work.yields_of_error heq (.refl _ _ b)

/-! ## Rebuilding -/

theorem yields_transformInto (hs : s.Clear) (confined : tc.Confined) (hp : At s m b.program)
    (hd : s.Laid b.world.disk) (flag : String) :
    (transformInto tc.logged v flag).Yields (b.Went (· = s.codePlace v) (ToolCall.For s v))
      (b.Went (· = s.codePlace v) (ToolCall.For s v)) b := by
  have makes : ToolCall.For s v (.transform flag (s.artifacts b.program.lineage).ir
    (s.artifacts v).ir) := rfl
  refine Work.yields_of_eq (transformInto_eq tc.logged v flag b) ?_
  rw [hp.cache, Site.artifacts_cache, Site.artifacts_cache]
  exact yields_call (confined.transform flag) makes ⟨World.Went.refl _ _ _, rfl, rfl⟩
    fun p hl => hd.eq_codePlace hs hl

/-- A variant that is built again keeps to its files, and ends up in the manifest or not at all. -/
theorem yields_rebuild (hs : s.Clear) (confined : tc.Confined) (hp : At s m b.program)
    (hd : s.On b.world.disk) (flag : Option String) :
    (rebuild tc.logged v flag).Yields (b.Went (s.Touched v flag) (ToolCall.For s v))
      (Rebuilt s m v (s.Touched v flag) b) b := by
  cases flag with
  | some flag =>
    have within {b' : Bench (Logged σ)} (h : b.Went (· = s.codePlace v) (ToolCall.For s v) b') :
        b.Went (s.Touched v (some flag)) (ToolCall.For s v) b' :=
      h.mono (fun p hp => .inr ⟨rfl, hp⟩) fun _ hcall => hcall
    refine Work.yields_of_eq (rebuild_some tc.logged v flag b) ?_
    rw [hp.name]
    refine ((yields_transformInto hs confined hp hd.toLaid flag).mono (fun _ => within)
      fun _ h => h).bind fun _ b₁ h₁ => ?_
    have hd₁ : s.On b₁.world.disk := hd.of_changedOnly hs h₁.changed fun p hp => hp ▸ .code v
    refine ((yields_assembleAside hs confined (h₁.at_site hp) hd₁).mono (fun b' h => ?_)
      fun b' h => ?_).bind fun _ b₂ h₂ => Work.yields_pure h₂
    · exact (within h₁).trans (h.mono (fun _ => .inl) fun _ hcall => hcall)
    · exact (h.mono fun _ => .inl).after (within h₁)
  | none =>
    have heq := rebuild_none tc.logged v b
    by_cases hfile : b.world.disk.isFile (b.program.cache.artifacts v).ir
    · rw [if_pos hfile, hp.name] at heq
      have hassemble : (assembleAside tc.logged v s.stem).Yields
          (b.Went (s.Touched v none) (ToolCall.For s v)) (Rebuilt s m v (s.Touched v none) b) b :=
        (yields_assembleAside hs confined hp hd).mono
          (fun b' h => h.mono (fun _ => .inl) fun _ hcall => hcall) fun b' h => h.mono fun _ => .inl
      exact Work.yields_of_eq heq (hassemble.bind fun _ b₂ h₂ => Work.yields_pure h₂)
    · rw [if_neg hfile] at heq
      exact Work.yields_of_error heq (.refl _ _ b)

end Program

end PassTuner
