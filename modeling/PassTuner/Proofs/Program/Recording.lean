import PassTuner.Proofs.Program.Lifecycle

/-!
# What the manifest of a program holds

Whatever is asked for with success is in the manifest afterwards, and no operation takes an entry
out of it. So a lineage, which grows by one built variant after another from the base on, has all
its ancestors in the manifest. Main statement: what holds of the stage, the measurements, the
lineage and the manifest of every program that operations reach.
-/

namespace PassTuner

namespace Cache

variable {c c' : Cache} {d : Disk} {v : Variant}

theorem of_digestFile_ok {path digest : String} (h : digestFile d path = .ok digest) :
    ∃ content, d.read path = .ok content ∧ Digest.ofBytes content = digest := by
  unfold digestFile at h
  cases hread : d.read path with
  | error e => simp [hread, Except.map] at h
  | ok content =>
    rw [hread] at h
    exact ⟨content, rfl, Except.ok.inj h⟩

theorem of_enter_ok (h : c.enter d v = .ok c') :
    ∃ code executable, d.read (c.artifacts v).ir = .ok code ∧
      d.read (c.artifacts v).executable = .ok executable ∧
      c' = { c with manifest :=
        c.manifest.insert v.encode ⟨Digest.ofBytes code, Digest.ofBytes executable⟩ } := by
  unfold enter at h
  dsimp only at h
  split at h
  · cases h
  · rename_i hcode
    split at h
    · cases h
    · rename_i hexecutable
      obtain ⟨code, hread, rfl⟩ := of_digestFile_ok hcode
      obtain ⟨executable, hread', rfl⟩ := of_digestFile_ok hexecutable
      exact ⟨code, executable, hread, hread', (Except.ok.inj h).symm⟩

/-- Recording a variant changes nothing, or it enters what was read of the artifacts, and perhaps
writes the manifest. -/
theorem record_cases (c : Cache) (d : Disk) (v : Variant) :
    (∃ e, c.record d v = (.error e, c, d)) ∨
    ∃ code executable c', d.read (c.artifacts v).ir = .ok code ∧
      d.read (c.artifacts v).executable = .ok executable ∧
      c' = { c with manifest :=
        c.manifest.insert v.encode ⟨Digest.ofBytes code, Digest.ofBytes executable⟩ } ∧
      ((∃ e, c.record d v = (.error e, c', d)) ∨
        ∃ d', d.writeText (manifestPath c'.directory) c'.manifest.toJson.indented = .ok d' ∧
          c.record d v = (.ok (), c', d')) := by
  unfold record
  cases henter : c.enter d v with
  | error e => exact .inl ⟨e, rfl⟩
  | ok c' =>
    obtain ⟨code, executable, hcode, hexecutable, hc'⟩ := of_enter_ok henter
    refine .inr ⟨code, executable, c', hcode, hexecutable, hc', ?_⟩
    cases hwrite : d.writeText (manifestPath c'.directory) c'.manifest.toJson.indented with
    | error e =>
      exact .inl ⟨.file (manifestPath c'.directory) e, by simp only [save, hwrite]⟩
    | ok d' => exact .inr ⟨d', rfl, by simp only [save, hwrite]⟩

end Cache

namespace Program

variable {σ α β : Type} {b b' : Bench σ} {p q : Program} {tc : Toolchain σ} {v : Variant}

/-- A variant has an entry in the program's manifest. -/
def Recorded (p : Program) (v : Variant) : Prop :=
  ∃ digests, p.cache.manifest.get? v.encode = some digests

/-- No entry is lost. -/
def Grows (p q : Program) : Prop := ∀ v, Recorded p v → Recorded q v

theorem Grows.refl (p : Program) : Grows p p := fun _ h => h

theorem Grows.trans (p q r : Program) (hpq : Grows p q) (hqr : Grows q r) : Grows p r :=
  fun v h => hqr v (hpq v h)

/-! ## Entering -/

theorem get?_insert_isSome {m : Manifest} {code other : String} {digests d : Digests}
    (h : m.get? other = some d) : ∃ d', (m.insert code digests).get? other = some d' := by
  by_cases heq : other = code
  · subst heq
    exact ⟨digests, Manifest.get?_insert_same _ _ _⟩
  · exact ⟨d, by rwa [Manifest.get?_insert_other _ heq]⟩

/-- A tolerant relation that holds between programs with the same name and the same cache. -/
structure CacheBound (R : Program → Program → Prop) : Prop extends Tolerant R where
  of_cache : ∀ p q, q.name = p.name → q.cache = p.cache → R p q

theorem cacheBound_grows : CacheBound Grows where
  refl := Grows.refl
  trans := Grows.trans
  count _ _ := fun _ h => h
  record p d v := by
    rintro w ⟨digests, hw⟩
    unfold Recorded
    rcases p.cache.record_cases d v with ⟨e, heq⟩ |
      ⟨_, _, _, _, _, rfl, ⟨e, heq⟩ | ⟨_, _, heq⟩⟩
    · exact ⟨digests, by rw [heq]; exact hw⟩
    · rw [heq]
      exact get?_insert_isSome hw
    · rw [heq]
      exact get?_insert_isSome hw
  of_cache p q _ hcache := by
    rintro v ⟨digests, hv⟩
    exact ⟨digests, by rw [hcache]; exact hv⟩

/-- Work that has a property of the program at its end, if it ends in an answer. -/
def Ends (P : Program → Prop) (work : Work σ α) : Prop :=
  ∀ b a b', work b = .ok a b' → P b'.program

variable {P : Program → Prop}

theorem Ends.bind {work : Work σ α} {next : α → Work σ β} (h : ∀ a, Ends P (next a)) :
    Ends P (work >>= next) := by
  intro b c b' hw
  obtain ⟨a, b₁, _, hn⟩ := EStateM.of_bind_ok hw
  exact h _ _ _ _ hn

theorem Ends.answer {work : Work σ α} (h : Ends P work) (c : β) :
    Ends P (work >>= fun _ => pure c) := by
  intro b a b' hw
  obtain ⟨a, b₁, hfirst, hn⟩ := EStateM.of_bind_ok hw
  cases hn
  exact h _ _ _ hfirst

theorem Ends.cleaning {work : Work σ α} (h : Ends P work) (f : Disk → Disk) :
    Ends P (Work.cleaning f work) := by
  intro b a b' hw
  unfold Work.cleaning at hw
  cases hwork : work b with
  | error e b₁ => simp [hwork] at hw
  | ok a b₁ =>
    have hend := h _ _ _ hwork
    simp only [hwork] at hw
    cases hw
    exact hend

theorem ends_throw (e : EnvironmentError) : Ends P (throw e : Work σ α) := fun _ _ _ hw => by
  cases hw

/-- What holds of a program whose variant was entered as it was read holds after recording it. -/
theorem ends_of_entered
    (h : ∀ (p : Program) (d : Disk) (code executable : ByteArray),
      d.read (p.cache.artifacts v).ir = .ok code →
      d.read (p.cache.artifacts v).executable = .ok executable →
      P { p with cache := { p.cache with
        manifest := p.cache.manifest.insert v.encode
          ⟨Digest.ofBytes code, Digest.ofBytes executable⟩ } }) :
    Ends P (recordVariant v : Work σ Unit) := by
  intro b a b' hw
  unfold recordVariant at hw
  rcases b.program.cache.record_cases b.world.disk v with ⟨e, heq⟩ |
    ⟨code, executable, _, hcode, hexecutable, rfl, ⟨e, heq⟩ | ⟨d', _, heq⟩⟩
  · simp [heq] at hw
  · simp [heq] at hw
  · simp only [heq] at hw
    cases hw
    exact h b.program b.world.disk code executable hcode hexecutable

theorem ends_recordVariant (v : Variant) :
    Ends (Recorded · v) (recordVariant v : Work σ Unit) :=
  ends_of_entered fun _ _ _ _ _ _ => ⟨_, Manifest.get?_insert_same _ _ _⟩

theorem Ends.assemble (h : Ends P (recordVariant v : Work σ Unit)) (tc : Toolchain σ)
    (object : String) : Ends P (assemble tc v object) :=
  .bind fun _ => .bind fun _ => .bind fun _ => .bind fun _ => h

theorem ends_withScratch {work : String → Work σ α} (h : ∀ path, Ends P (work path)) :
    Ends P (withScratch work) := by
  refine .bind fun p => .bind fun d => ?_
  dsimp only
  split
  · exact ends_throw _
  · exact .bind fun _ => (h _).cleaning _

theorem Ends.rebuild (h : Ends P (recordVariant v : Work σ Unit)) (tc : Toolchain σ)
    (flag : Option String) : Ends P (rebuild tc v flag) := by
  refine .bind fun p => ?_
  have rest : Ends P (do
      withScratch fun scratch => Program.assemble tc v (Path.join scratch s!"{p.name}.o")
      pure (p.cache.artifacts v) : Work σ Artifacts) :=
    (ends_withScratch fun _ => h.assemble tc _).answer _
  cases flag with
  | some flag => exact .bind fun _ => rest
  | none =>
    refine .bind fun d => ?_
    dsimp only
    split
    · exact .bind fun _ => rest
    · exact rest

/-- Asking for a variant ends as entering it does, or with a hit. -/
theorem Ends.ensureBuilt (h : Ends P (recordVariant v : Work σ Unit))
    (hit : ∀ (p : Program) (d : Disk) (a : Artifacts) (stats : ProgramStats),
      p.cache.lookup d v = .ok (some a) → P { p with stats })
    (tc : Toolchain σ) (flag : Option String) : Ends P (ensureBuilt tc v flag) := by
  intro b a b' hw
  change (Work.ofExcept (b.program.cache.lookup b.world.disk v) >>= _) b = _ at hw
  cases hlookup : b.program.cache.lookup b.world.disk v with
  | error e =>
    rw [hlookup] at hw
    cases hw
  | ok found =>
    rw [hlookup] at hw
    cases found with
    | none => exact h.rebuild tc flag b a b' hw
    | some a' =>
      cases hw
      exact hit b.program b.world.disk a _ hlookup

/-- A variant that was asked for with success is in the manifest. -/
theorem ends_ensureBuilt (tc : Toolchain σ) (v : Variant) (flag : Option String) :
    Ends (Recorded · v) (ensureBuilt tc v flag) := by
  refine (ends_recordVariant v).ensureBuilt (fun p d a stats hlookup => ?_) tc flag
  unfold Cache.lookup at hlookup
  split at hlookup
  · cases hlookup
  · rename_i digests hget
    exact ⟨digests, hget⟩

/-! ## Operations -/

namespace CacheBound

variable {R : Program → Program → Prop}

theorem along_build (hR : CacheBound R) (tc : Toolchain σ) : (build tc).Along R := by
  refine (Work.along_program hR.refl).bind hR.trans fun p => ?_
  split
  · refine (hR.along_ensureBuilt tc _ _).bind hR.trans fun _ => ?_
    exact Work.along_modifyProgram fun _ => hR.of_cache _ _ rfl rfl
  · exact Work.along_pure hR.refl _

theorem along_measure (hR : CacheBound R) (tc : Toolchain σ) : (measure tc).Along R := by
  rw [measure_eq]
  refine (hR.along_build tc).bind hR.trans fun _ => ?_
  refine (Work.along_program hR.refl).bind hR.trans fun p => ?_
  refine (hR.along_runMeasurement tc _ _).bind hR.trans fun m => ?_
  refine (Work.along_modifyProgram ?_).bind hR.trans fun _ => Work.along_pure hR.refl m
  exact fun _ => hR.of_cache _ _ rfl rfl

theorem along_standingCost (hR : CacheBound R) (tc : Toolchain σ) :
    (standingCost tc).Along R := by
  refine (Work.along_program hR.refl).bind hR.trans fun p => ?_
  split
  · exact Work.along_pure hR.refl _
  · exact (hR.along_measure tc).bind hR.trans fun _ => Work.along_pure hR.refl _

theorem along_advance (hR : CacheBound R) (tc : Toolchain σ) (action : ActionId) (flag : String)
    (before : Float) : (advance tc action flag before).Along R := by
  refine (Work.along_program hR.refl).bind hR.trans fun p => ?_
  split
  · exact Work.along_throw hR.refl _
  · refine (hR.along_ensureBuilt tc _ _).bind hR.trans fun a => ?_
    refine (hR.along_runMeasurement tc _ _).bind hR.trans fun m => ?_
    split
    · exact Work.along_throw hR.refl _
    · refine (Work.along_modifyProgram ?_).bind hR.trans fun _ => Work.along_pure hR.refl _
      exact fun _ => hR.of_cache _ _ rfl rfl

end CacheBound

/-! ## Lineages -/

/-- The lineage and all its ancestors, the base among them, are in the manifest. -/
def Rooted (p : Program) : Prop :=
  ∀ u : Variant, u.actions <+: p.lineage.actions → Recorded p u

theorem Rooted.of_lineage (h : Rooted p) (hg : Grows p q) (hl : q.lineage = p.lineage) :
    Rooted q := by
  intro u hu
  rw [hl] at hu
  exact hg u (h u hu)

theorem rooted_of_base (hb : Recorded p .base) (hl : p.lineage = .base) : Rooted p := by
  intro u hu
  rw [hl] at hu
  have heq : u = .base := Variant.ext (List.prefix_nil.1 hu)
  rwa [heq]

theorem Rooted.base (h : Rooted p) : Recorded p .base := h .base List.nil_prefix

theorem Rooted.extend (h : Rooted p) (hg : Grows p q) {action : ActionId}
    (hl : p.lineage.extend? action = .ok q.lineage) (hr : Recorded q q.lineage) : Rooted q := by
  intro u hu
  rw [Variant.actions_of_extend? hl, List.prefix_concat_iff] at hu
  rcases hu with hu | hu
  · rw [← Variant.actions_of_extend? hl] at hu
    rwa [Variant.ext hu]
  · exact hg u (h u hu)

theorem rooted_build (tc : Toolchain σ) (h : Rooted b.program) :
    Rooted ((build tc).after b).program :=
  h.of_lineage (cacheBound_grows.along_build tc b) (build_unmeasured tc b).lineage

theorem rooted_measure (tc : Toolchain σ) (h : Rooted b.program) :
    Rooted ((measure tc).after b).program := by
  refine h.of_lineage (cacheBound_grows.along_measure tc b) ?_
  cases hm : measure tc b with
  | ok m b₁ =>
    rw [Work.after_of_ok hm]
    exact (measure_of_ok hm).lineage
  | error e b₁ =>
    rw [Work.after_of_error hm]
    exact (measure_of_error hm).lineage

theorem rooted_standingCost {cost : Float} (h : Rooted b.program)
    (hs : standingCost tc b = .ok cost b') : Rooted b'.program :=
  h.of_lineage ((cacheBound_grows.along_standingCost tc).of_ok hs) (lineage_of_standingCost hs)

theorem rooted_advance (tc : Toolchain σ) (action : ActionId) (flag : String) (before : Float)
    (h : Rooted b.program) : Rooted ((advance tc action flag before).after b).program := by
  have hg := cacheBound_grows.along_advance tc action flag before b
  cases ha : advance tc action flag before b with
  | error e b₁ =>
    rw [Work.after_of_error ha] at hg ⊢
    exact h.of_lineage hg (advance_of_error ha).lineage
  | ok reward b₁ =>
    rw [Work.after_of_ok ha] at hg ⊢
    refine h.extend hg (advance_of_ok ha).lineage ?_
    obtain ⟨v, a, b₂, m, b₃, _, hensure, hrun, _, rfl⟩ := of_advance_ok ha
    exact (cacheBound_grows.along_runMeasurement tc _ _).of_ok hrun v
      (ends_ensureBuilt tc v _ _ _ _ hensure)

theorem rooted_step (tc : Toolchain σ) (catalog : Catalog) (action : ActionId)
    (h : Rooted b.program) : Rooted ((step tc catalog action).after b).program := by
  cases hd : catalog.describe action with
  | error fault =>
    rw [Work.after_of_error (step_of_unknown tc hd)]
    exact h
  | ok flag =>
    rw [step_of_known tc hd]
    cases hs : standingCost tc b with
    | error e b₁ =>
      rw [Work.after_of_error (EStateM.bind_of_error hs _)]
      have hm := (of_standingCost_error hs).2
      have hrooted := rooted_measure tc h
      rwa [Work.after_of_error hm] at hrooted
    | ok cost b₁ =>
      rw [Work.after_bind_of_ok hs]
      exact rooted_advance tc action flag cost (rooted_standingCost h hs)

theorem rooted_reset (tc : Toolchain σ) (h : Rooted b.program) :
    Rooted ((reset tc).after b).program := by
  cases hf : baseIsFresh b.program b.world.clock with
  | true =>
    rw [Work.after_of_ok (reset_of_fresh tc hf)]
    exact rooted_of_base h.base rfl
  | false =>
    let b₁ : Bench σ := ⟨{ b.world with clock := b.world.clock + 1 },
      { b.program with lineage := .base, current := none, stage := .unbuilt }⟩
    have hm := rooted_measure (b := b₁) tc (rooted_of_base h.base rfl)
    have hr := reset_of_stale tc hf
    cases hmeasure : measure tc b₁ with
    | error e b₂ =>
      rw [Work.after_of_error hmeasure] at hm
      rwa [Work.after_of_error (hr.trans (EStateM.bind_of_error hmeasure _))]
    | ok m b₂ =>
      rw [Work.after_of_ok hmeasure] at hm
      rwa [Work.after_of_ok (hr.trans (EStateM.bind_of_ok hmeasure _))]

theorem rooted_open {settings : EnvironmentSettings} {source : String} {w w' : World σ}
    (h : Program.open tc settings source w = .ok p w') : Rooted p := by
  obtain ⟨extension, file, name, stem⟩ := valid_of_open_ok h
  rw [open_of_valid tc settings extension file stem] at h
  obtain ⟨cache, w₁, _, h⟩ := EStateM.of_bind_ok h
  unfold starting at h
  split at h
  · rename_i b hb
    cases h
    obtain ⟨_, b₁, hbuild, hb⟩ := EStateM.of_bind_ok hb
    obtain ⟨m, b₂, hmeasure, hb⟩ := EStateM.of_bind_ok hb
    cases hb
    have hrecorded : Recorded b₁.program .base := by
      rw [build_of_unbuilt tc rfl] at hbuild
      obtain ⟨a, b₃, hensure, hbuild⟩ := EStateM.of_bind_ok hbuild
      have hbase : Recorded b₃.program .base := ends_ensureBuilt tc _ none _ _ _ hensure
      cases hbuild
      exact hbase
    have hlineage : b₁.program.lineage = .base := ((build_unmeasured tc).of_ok hbuild).lineage
    have hrooted := rooted_measure tc (rooted_of_base hrecorded hlineage)
    rwa [Work.after_of_ok hmeasure] at hrooted
  · cases h

theorem Reachable.rooted (h : Reachable b) : Rooted b.program := by
  induction h with
  | opened ho => exact rooted_open ho
  | world w _ ih => exact ih
  | build tc _ ih => exact rooted_build tc ih
  | measure tc _ ih => exact rooted_measure tc ih
  | step tc catalog action _ ih => exact rooted_step tc catalog action ih
  | reset tc _ ih => exact rooted_reset tc ih

/-- What holds of every program that operations reach. -/
theorem reachable_fits_together (h : Reachable b) :
    (b.program.stage = .measured ↔ b.program.current.isSome) ∧
    b.program.base.isSome ∧
    (b.program.lineage ≠ .base → b.program.stage = .measured) ∧
    (b.program.lineage = .base → b.program.stage = .measured →
      b.program.current = b.program.base) ∧
    ∀ u : Variant, u.actions <+: b.program.lineage.actions →
      ∃ digests, b.program.cache.manifest.get? u.encode = some digests :=
  ⟨h.coherent.measured, h.coherent.base, h.coherent.away, h.coherent.home, h.rooted⟩

/-! Two steps from the base, with tools that always succeed. -/

def steady : Toolchain Calls :=
  Playback.toolchain {
    measure := [.output (.ok "SYMVEC1 5.0 0SYMVEC")]
    transient := .standard
    marker := "SYMVEC" }

/-- The bench after two steps of the program that was opened. -/
def walked? : Option (Bench Calls) :=
  match Program.open steady ⟨"build", none⟩ "bench.ll" flakyWorld with
  | .ok p w => some ((step steady soloCatalog 0).after ((step steady soloCatalog 0).after ⟨w, p⟩))
  | .error _ _ => none

theorem walked?_lineage :
    walked?.any (fun b => decide (b.program.lineage.actions = [0, 0])) = true := by
  decide +kernel

theorem reachable_fits_together_walked : ∃ b : Bench Calls, Reachable b ∧
    b.program.lineage.actions = [0, 0] ∧
    (b.program.stage = .measured ↔ b.program.current.isSome) ∧
    b.program.base.isSome ∧
    (b.program.lineage ≠ .base → b.program.stage = .measured) ∧
    (b.program.lineage = .base → b.program.stage = .measured →
      b.program.current = b.program.base) ∧
    ∀ u : Variant, u.actions <+: b.program.lineage.actions →
      ∃ digests, b.program.cache.manifest.get? u.encode = some digests := by
  obtain ⟨b, hb, hlineage⟩ := (Option.any_eq_true ..).1 walked?_lineage
  have reached : Reachable b := by
    unfold walked? at hb
    split at hb
    · rename_i p w ho
      cases hb
      exact ((Reachable.opened ho).step steady soloCatalog 0).step steady soloCatalog 0
    · cases hb
  exact ⟨b, reached, of_decide_eq_true hlineage, reachable_fits_together reached⟩

end Program

end PassTuner
