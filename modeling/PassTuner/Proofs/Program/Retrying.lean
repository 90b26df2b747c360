import PassTuner.Proofs.Program.Accord
import PassTuner.Proofs.Program.Counting
import PassTuner.Proofs.Tool.Interrupting

/-!
# Transient failures that nobody sees

Interruptions cost time and attempts and nothing else. Two benches are related if the second is the
first with some time lost, with a twin of the program on it that has counted the interruptions. A
run of measurements comes to the same output on both, because all interruptions before the output
that ends it are repeated; every other piece of work does the same anyway. Main statement: programs
that are opened and asked for anything, in any order, answer the same with interruptions and
without, and leave the same files.
-/

namespace PassTuner

open EStateM (Tracks tracks_pure tracks_throw)

variable {σ α : Type}

/-- What so many repeated measurements are counted as. -/
def ProgramStats.retries (n : Nat) : ProgramStats := { measurements := n, transientRetries := n }

/-- A bench, and the same with time lost by interruptions. These are counted from some number on,
with so many that the program has counted before; the last of them are not counted yet. -/
structure Bench.Delayed (policy : TransientPolicy) (room since before uncounted : Nat)
    (b : Bench σ) (b' : Bench (Interrupted σ)) : Prop where
  world : b'.world = b.world.delayed b'.world.tools
  planned : Interruption.Planned policy room b'.world.tools.plan
  twins : Program.Twins none b.program b'.program
  ageless : b.program.settings.baseMaxAge = none
  counted : ∃ n, b'.world.tools.delivered = since + n + uncounted ∧
    b'.program.stats = b.program.stats + .retries (before + n)

variable {policy : TransientPolicy} {room since before : Nat} {b : Bench σ}
  {b' : Bench (Interrupted σ)} {exempt : EnvironmentError → Prop}

namespace Bench.Delayed

theorem disk {j : Nat} (h : Delayed policy room since before j b b') :
    b'.world.disk = b.world.disk := by rw [h.world]; rfl

/-- Both programs change in the same way, but for what is counted. -/
theorem changed (h : Delayed policy room since before 0 b b') {q q' : Program}
    (twins : Program.Twins none q q') (settings : q.settings = b.program.settings)
    (stats : ∀ n, b'.program.stats = b.program.stats + .retries n →
      q'.stats = q.stats + .retries n) :
    Delayed policy room since before 0 { b with program := q } { b' with program := q' } := by
  obtain ⟨n, delivered, counted⟩ := h.counted
  exact ⟨h.world, h.planned, twins, settings ▸ h.ageless, n, delivered, stats _ counted⟩

/-- The same is written to both disks. -/
theorem rewritten (h : Delayed policy room since before 0 b b') (d : Disk) :
    Delayed policy room since before 0 { b with world := { b.world with disk := d } }
      { b' with world := { b'.world with disk := d } } := by
  obtain ⟨b₁, p⟩ := b
  obtain ⟨w, p'⟩ := b'
  obtain ⟨world, planned, twins, ageless, counted⟩ := h
  dsimp only at world
  refine ⟨?_, planned, twins, ageless, counted⟩
  dsimp only
  rw [world]
  rfl

end Bench.Delayed

/-! ## Single pieces of work -/

namespace Work

theorem tracks_ofTool (t : Tool σ α) : Tracks exempt (Bench.Delayed policy room since before 0) Eq
    (ofTool t) (ofTool t.unhindered) := by
  intro b b' hb _
  have calm : b'.world.calm = b.world := by rw [hb.world, World.calm_delayed]
  unfold ofTool Tool.unhindered
  rw [calm]
  cases t b.world with
  | ok a w => exact .ok rfl ⟨rfl, hb.planned, hb.twins, hb.ageless, hb.counted⟩
  | error e w => exact .error _ ⟨rfl, hb.planned, hb.twins, hb.ageless, hb.counted⟩

theorem tracks_demand (t : Tool σ ToolOutput) (refusal : ToolOutput → EnvironmentError) :
    Tracks exempt (Bench.Delayed policy room since before 0) Eq (demand t refusal)
      (demand t.unhindered refusal) := by
  refine (tracks_ofTool t).bind fun output _ same => ?_
  subst same
  split
  · exact tracks_throw _
  · exact tracks_pure rfl

theorem tracks_count {f : ProgramStats → ProgramStats}
    (adds : ∀ s n, f (s + .retries n) = f s + .retries n) :
    Tracks exempt (Bench.Delayed policy room since before 0) Eq (count f : Work σ Unit)
      (count f) := by
  intro b b' hb _
  have h := hb.twins
  refine .ok rfl (hb.changed ⟨h.name, h.source, h.cache, h.settings, h.lineage, h.stage, h.base,
    h.current⟩ rfl fun n counted => ?_)
  rw [← adds, ← counted]

end Work

namespace Program

variable {tc : Toolchain σ} {v : Variant} {e : EnvironmentError}

theorem tracks_transformInto (v : Variant) (flag : String) :
    Tracks exempt (Bench.Delayed policy room since before 0) Eq (transformInto tc v flag)
      (transformInto (tc.interrupted room) v flag) := by
  refine Accord.tracks_reading fun b b' hb => ?_
  rw [hb.twins.cache, hb.twins.lineage, hb.twins.name]
  exact (Work.tracks_count fun _ _ => rfl).bind fun _ _ _ => Work.tracks_demand _ _

theorem tracks_recordVariant (v : Variant) :
    Tracks exempt (Bench.Delayed policy room since before 0) Eq (recordVariant v : Work σ Unit)
      (recordVariant v) := by
  intro b b' hb _
  unfold recordVariant
  rw [hb.twins.cache, hb.disk]
  rcases b.program.cache.record b.world.disk v with ⟨result, cache, disk⟩
  have h := hb.twins
  have twins : Twins none { b.program with cache } { b'.program with cache } :=
    ⟨h.name, h.source, rfl, h.settings, h.lineage, h.stage, h.base, h.current⟩
  have recorded := (hb.rewritten disk).changed twins rfl fun _ counted => counted
  cases result with
  | ok _ => exact .ok rfl recorded
  | error e => exact .error e recorded

theorem tracks_assemble (v : Variant) (object : String) :
    Tracks exempt (Bench.Delayed policy room since before 0) Eq (assemble tc v object)
      (assemble (tc.interrupted room) v object) := by
  refine Accord.tracks_reading fun b b' hb => ?_
  dsimp only
  rw [hb.twins.cache, hb.twins.name]
  refine (Work.tracks_count fun _ _ => rfl).bind fun _ _ _ => ?_
  refine (Work.tracks_demand _ _).bind fun _ _ _ => ?_
  exact (Work.tracks_demand _ _).bind fun _ _ _ => tracks_recordVariant v

theorem tracks_withScratch {work : String → Work σ Unit}
    {work' : String → Work (Interrupted σ) Unit}
    (h : ∀ path, Tracks exempt (Bench.Delayed policy room since before 0) Eq (work path)
      (work' path)) :
    Tracks exempt (Bench.Delayed policy room since before 0) Eq (withScratch work)
      (withScratch work') := by
  intro b b' hb spared
  have path : scratchPath b' = scratchPath b := by
    simp only [scratchPath, hb.twins.cache, hb.twins.name, hb.disk]
  rw [withScratch_of] at spared ⊢
  rw [withScratch_of, path, hb.disk, hb.twins.cache]
  cases hmade : b.world.disk.makeDirectory (scratchPath b) with
  | error cause => exact .error _ hb
  | ok made =>
    rw [hmade] at spared
    simp only [cleaning_eq] at spared ⊢
    have inside := h (scratchPath b) (withDisk b made) (withDisk b' made) (hb.rewritten made)
      fun e c hc => spared e (withDisk c (c.world.disk.remove (scratchPath b))) (by rw [hc])
    generalize work (scratchPath b) (withDisk b made) = r,
      work' (scratchPath b) (withDisk b' made) = r' at inside
    cases inside with
    | ok answers benches =>
      refine .ok answers ?_
      rw [benches.disk]
      exact benches.rewritten _
    | error e benches =>
      refine .error e ?_
      rw [benches.disk]
      exact benches.rewritten _

/-! ## Runs of measurements -/

/-- All interruptions before an output that ends a run are repeated. -/
theorem settle_interrupted (room : Nat) (v : Variant) {executable : String} {w w' : World σ}
    {o : ToolOutput}
    (ho : tc.measure executable w = .ok o w') (ends : tc.transient.isTransient o = false)
    (n k : Nat) (p : Program) {row : List Interruption} {m : Interrupted σ}
    (first : m.plan.headD [] = row) (transient : ∀ i ∈ row, tc.transient.isTransient i.output) :
    ∃ m', m'.plan = m.plan.tail ∧ m'.delivered = m.delivered + row.length ∧
      settle (tc.interrupted room) v executable (n + row.length + 1) k ⟨w.delayed m, p⟩ =
        .ok (o, k + row.length) ⟨w'.delayed m', p⟩ := by
  induction row generalizing m k with
  | nil =>
    refine ⟨{ m with plan := m.plan.tail }, rfl, rfl, ?_⟩
    have call : (tc.interrupted room).measure executable (w.delayed m) = _ :=
      Tool.interrupted_of_empty ho ends first
    have last : (tc.interrupted room).transient.isTransient o = false := ends
    rw [settle_succ, call]
    simp only [last, Bool.false_eq_true, if_false]
    rfl
  | cons i row ih =>
    let m₁ := m.resume tc.transient i row
    obtain ⟨m', plan, delivered, settled⟩ := ih (k + 1) (m := m₁) rfl
      fun j hj => transient j (List.mem_cons_of_mem i hj)
    refine ⟨m', plan, ?_, ?_⟩
    · rw [delivered, List.length_cons]
      change m.delivered + 1 + row.length = _
      omega
    · have call : (tc.interrupted room).measure executable (w.delayed m) = _ :=
        Tool.interrupted_of_pending ho ends first
      have again : (tc.interrupted room).transient.isTransient i.output :=
        transient i List.mem_cons_self
      have later : ({ w.delayed m with
          clock := w.clock + m.lost + i.duration + 1000000 * tc.transient.retryDelay
          tools :=
            { m.resume tc.transient i row with inner := w.tools } } : World (Interrupted σ)) =
          w.delayed m₁ := by
        simp only [World.delayed, m₁, Interrupted.resume, Nat.add_assoc]
      rw [List.length_cons, ← Nat.add_assoc, settle_succ, call]
      simp only [again, if_true]
      change settle _ _ _ _ _ ⟨_, p⟩ = _
      refine (congrArg (fun w => settle (tc.interrupted room) v executable (n + row.length + 1)
        (k + 1) ⟨w, p⟩) later).trans ?_
      rw [settled]
      congr 2
      omega

variable {executable : String}

/-- A run of measurements that ends in an output ends in it with interruptions too. -/
theorem settle_delayed_ok {n k : Nat} {c : Bench σ} {r : ToolOutput × Nat}
    (h : settle tc v executable n k b = .ok r c)
    (hb : b.Delayed tc.transient room since before 0 b') :
    ∃ j c', settle (tc.interrupted room) v executable (n + room) k b' = .ok (r.1, r.2 + j) c' ∧
      c.Delayed tc.transient room since before j c' := by
  induction n generalizing k b b' with
  | zero => cases h
  | succ n ih =>
    obtain ⟨w', p'⟩ := b'
    obtain ⟨world, planned, twins, ageless, i, delivered, counted⟩ := hb
    dsimp only at world planned delivered
    rw [settle_succ] at h
    cases ht : tc.measure executable b.world with
    | error e w => simp [ht] at h
    | ok o w =>
      simp only [ht] at h
      split at h
      · rename_i transient
        have call : (tc.interrupted room).measure executable w' = _ :=
          (congrArg _ world).trans (Tool.interrupted_of_transient ht transient w'.tools)
        have again : (tc.interrupted room).transient.isTransient o := transient
        rw [Nat.add_right_comm, settle_succ, call]
        simp only [again, if_true]
        refine ih h ⟨?_, planned, twins, ageless, i, delivered, counted⟩
        simp only [World.delayed, Toolchain.interrupted, Nat.add_right_comm]
      · rename_i ends
        cases h
        let row := w'.tools.plan.headD []
        have fits : row.length ≤ room := planned.head.2
        obtain ⟨m', plan, more, settled⟩ := settle_interrupted room v ht
          (by simpa using ends) (n + (room - row.length)) k p' rfl planned.head.1
        have attempts : n + 1 + room = n + (room - row.length) + row.length + 1 := by omega
        have start : (⟨w', p'⟩ : Bench (Interrupted σ)) = ⟨b.world.delayed w'.tools, p'⟩ :=
          congrArg (Bench.mk · p') world
        refine ⟨row.length, ⟨w.delayed m', p'⟩, ?_, ?_⟩
        · rw [start, attempts]
          exact settled
        · refine ⟨rfl, ?_, twins, ageless, i, ?_, counted⟩
          · change Interruption.Planned _ _ m'.plan
            rw [plan]
            exact planned.tail
          · change m'.delivered = _
            rw [more, delivered]
            rfl

/-- A run that ends in an error ends in it with interruptions too, unless it never ends. -/
theorem settle_delayed_error {n k : Nat} {c : Bench σ}
    (h : settle tc v executable n k b = .error e c) (ends : e.isStalled = false)
    (hb : b.Delayed tc.transient room since before 0 b') :
    ∃ c', settle (tc.interrupted room) v executable (n + room) k b' = .error e c' ∧
      c.Delayed tc.transient room since before 0 c' := by
  induction n generalizing k b b' with
  | zero =>
    cases h
    cases ends
  | succ n ih =>
    obtain ⟨w', p'⟩ := b'
    obtain ⟨world, planned, twins, ageless, counted⟩ := hb
    dsimp only at world planned counted
    rw [settle_succ] at h
    rw [Nat.add_right_comm, settle_succ]
    cases ht : tc.measure executable b.world with
    | error cause v =>
      have call : (tc.interrupted room).measure executable w' = _ :=
        (congrArg _ world).trans (Tool.interrupted_of_error ht w'.tools)
      simp only [ht] at h
      cases h
      rw [call]
      exact ⟨_, rfl, rfl, planned, twins, ageless, counted⟩
    | ok o v =>
      simp only [ht] at h
      split at h
      · rename_i transient
        have call : (tc.interrupted room).measure executable w' = _ :=
          (congrArg _ world).trans (Tool.interrupted_of_transient ht transient w'.tools)
        have again : (tc.interrupted room).transient.isTransient o := transient
        rw [call]
        simp only [again, if_true]
        refine ih h ⟨?_, planned, twins, ageless, counted⟩
        simp only [World.delayed, Toolchain.interrupted, Nat.add_right_comm]
      · cases h

/-- The bench after a run of measurements was counted. -/
def counted (c : Bench σ) (retries : Nat) : Bench σ where
  world := { c.world with clock := c.world.clock + 1 }
  program := { c.program with stats := { c.program.stats with
    measurements := c.program.stats.measurements + retries + 1
    transientRetries := c.program.stats.transientRetries + retries } }

theorem runMeasurement_of_settled {tc : Toolchain σ} {r : ToolOutput × Nat} {c : Bench σ}
    (h : settle tc v executable tc.patience 0 b = .ok r c) :
    runMeasurement tc v executable b = match readMeasurement tc r.1 with
      | .ok record =>
        .ok { state := record.state, cost := record.cost, takenAt := c.world.clock } (counted c r.2)
      | .error fault => .error (.measurementFailed c.program.name v fault) (counted c r.2) := by
  rw [runMeasurement_eq, EStateM.bind_of_ok h]
  cases readMeasurement tc r.1 <;> rfl

/-- Interruptions are counted when their run has ended. -/
theorem delayed_counted {j : Nat} {c : Bench σ} {c' : Bench (Interrupted σ)}
    (h : c.Delayed policy room since before j c') (retries : Nat) :
    (counted c retries).Delayed policy room since before 0 (counted c' (retries + j)) := by
  obtain ⟨w', p'⟩ := c'
  obtain ⟨world, planned, twins, ageless, n, delivered, stats⟩ := h
  dsimp only at world planned twins delivered stats
  refine ⟨?_, planned, ?_, ageless, n + j, ?_, ?_⟩
  · simp only [counted]
    rw [world]
    simp only [World.delayed, Nat.add_right_comm]
  · exact ⟨twins.name, twins.source, twins.cache, twins.settings, twins.lineage, twins.stage,
      twins.base, twins.current⟩
  · change w'.tools.delivered = _
    omega
  · simp only [counted, stats, ProgramStats.add_def, ProgramStats.retries, ProgramStats.mk.injEq]
    exact ⟨trivial, trivial, by omega, by omega, trivial⟩

theorem tracks_runMeasurement (v : Variant) (executable : String) :
    Tracks (fun e => e.isStalled) (Bench.Delayed tc.transient room since before 0)
      (Measurement.Twins none) (runMeasurement tc v executable)
      (runMeasurement (tc.interrupted room) v executable) := by
  intro b b' hb spared
  cases hs : settle tc v executable tc.patience 0 b with
  | error e c =>
    rw [runMeasurement_eq, EStateM.bind_of_error hs] at spared ⊢
    have ends : e.isStalled = false := by simpa using spared e c rfl
    obtain ⟨c', settled, hc⟩ := settle_delayed_error hs ends hb
    have settled : settle (tc.interrupted room) v executable (tc.interrupted room).patience 0 b' =
        .error e c' := settled
    rw [runMeasurement_eq, EStateM.bind_of_error settled]
    exact .error e hc
  | ok r c =>
    obtain ⟨j, c', settled, hc⟩ := settle_delayed_ok hs hb
    have settled : settle (tc.interrupted room) v executable (tc.interrupted room).patience 0 b' =
        .ok (r.1, r.2 + j) c' := settled
    have read : readMeasurement (tc.interrupted room) r.1 = readMeasurement tc r.1 := rfl
    rw [runMeasurement_of_settled hs, runMeasurement_of_settled settled]
    simp only [read]
    cases readMeasurement tc r.1 with
    | ok record => exact .ok ⟨rfl, rfl, nofun⟩ (delayed_counted hc r.2)
    | error fault =>
      rw [hc.twins.name]
      exact .error _ (delayed_counted hc r.2)

/-- Interrupted tools are in accord with the tools that they interrupt, apart from measurements that
never end. -/
theorem accord_interrupted (tc : Toolchain σ) (room since before : Nat) :
    Accord (fun e => e.isStalled) none (Bench.Delayed tc.transient room since before 0) tc
      (tc.interrupted room) where
  twins hb := hb.twins
  moved hb stays stays' twins := hb.changed twins stays.settings fun _ counted => by
    rw [stays.stats, stays'.stats, counted]
  hit hb := by
    have h := hb.twins
    refine hb.changed ⟨h.name, h.source, h.cache, h.settings, h.lineage, h.stage, h.base,
      h.current⟩ rfl fun n counted => ?_
    dsimp only
    rw [counted]
    rfl
  later {b b'} hb := by
    obtain ⟨w', p'⟩ := b'
    obtain ⟨world, planned, twins, ageless, counted⟩ := hb
    refine ⟨?_, planned, twins, ageless, counted⟩
    dsimp only at world
    simp only [Bench.later]
    rw [world]
    simp only [World.delayed, Nat.add_right_comm]
  fresh hb := hb.twins.baseIsFresh (by simp [hb.ageless]) nofun
  lookup hb v := by rw [hb.disk]
  isFile hb v := by rw [hb.disk]
  transforming := tracks_transformInto
  assembling hb v := tracks_withScratch fun _ => tracks_assemble v _
  measuring hb u v := tracks_runMeasurement u _

/-! ## Opening -/

theorem cacheOpen_delayed (directory stem source : String) (w : World σ) (m : Interrupted σ) :
    (Cache.open directory stem source : Environment (Interrupted σ) Cache) (w.delayed m) =
      match (Cache.open directory stem source : Environment σ Cache) w with
      | .ok k v => .ok k (v.delayed m)
      | .error e v => .error e (v.delayed m) := by
  have disk : (w.delayed m).disk = w.disk := rfl
  rw [cacheOpen_eq, cacheOpen_eq, disk]
  cases w.disk.makeDirectories directory with
  | error e => rfl
  | ok d =>
    dsimp only
    cases Cache.digestFile d source with
    | error e => rfl
    | ok digest =>
      dsimp only
      cases Cache.currentManifest d directory digest <;> rfl

variable {settings : EnvironmentSettings} {source : String} {w v' : World σ} {m : Interrupted σ}
  {p : Program}

/-- What happens to a program between its cache and its first measurement. -/
theorem tracks_start (tc : Toolchain σ) (room since : Nat) :
    Tracks (fun e => e.isStalled) (Bench.Delayed tc.transient room since 0 0) Eq
      (build tc >>= fun _ => measure tc >>= fun _ => pure ())
      (build (tc.interrupted room) >>= fun _ => measure (tc.interrupted room) >>=
        fun _ => pure ()) :=
  (accord_interrupted tc room since 0).tracks_build.bind fun _ _ _ =>
    (accord_interrupted tc room since 0).tracks_measure.bind fun _ _ _ => tracks_pure rfl

/-- A program that was not worked on yet. -/
theorem delayed_fresh (source : String) (planned : Interruption.Planned policy room m.plan)
    (ageless : settings.baseMaxAge = none) (name : String) (k : Cache) (w : World σ) :
    Bench.Delayed policy room m.delivered 0 0 ⟨w, fresh name source k settings⟩
      ⟨w.delayed m, fresh name source k settings⟩ :=
  ⟨rfl, planned, ⟨rfl, rfl, rfl, rfl, rfl, rfl, .none, .none⟩, ageless, 0, rfl, rfl⟩

theorem open_delayed_ok (h : Program.open tc settings source w = .ok p v')
    (planned : Interruption.Planned tc.transient room m.plan)
      (ageless : settings.baseMaxAge = none) :
    ∃ w' p', Program.open (tc.interrupted room) settings source (w.delayed m) = .ok p' w' ∧
      Bench.Delayed tc.transient room m.delivered 0 0 ⟨v', p⟩ ⟨w', p'⟩ := by
  obtain ⟨extension, file, name, stem⟩ := valid_of_open_ok h
  have file' : (w.delayed m).disk.isFile source := file
  rw [open_of_valid tc settings extension file stem] at h
  rw [open_of_valid _ settings extension file' stem]
  obtain ⟨k, w₁, hcache, h⟩ := EStateM.of_bind_ok h
  have hcache' := cacheOpen_delayed (Path.join settings.workDir name) name source w m
  rw [hcache] at hcache'
  rw [EStateM.bind_of_ok hcache']
  unfold starting at h ⊢
  have started := tracks_start tc room m.delivered _ _
    (delayed_fresh source planned ageless name k w₁)
  split at h
  case h_2 => cases h
  case h_1 b hb =>
    cases h
    have matched := started fun e c hc => by rw [hb] at hc; cases hc
    rw [hb] at matched
    generalize (build (tc.interrupted room) >>= fun _ => _ : Work (Interrupted σ) Unit) _ = r
      at matched ⊢
    cases matched with
    | ok _ benches => exact ⟨_, _, rfl, benches⟩

theorem open_delayed_error (h : Program.open tc settings source w = .error e v')
    (ends : e.isStalled = false) (planned : Interruption.Planned tc.transient room m.plan)
    (ageless : settings.baseMaxAge = none) :
    ∃ m', Program.open (tc.interrupted room) settings source (w.delayed m) =
        .error e (v'.delayed m') ∧ Interruption.Planned tc.transient room m'.plan := by
  rw [open_eq] at h ⊢
  have file : (w.delayed m).disk.isFile source = w.disk.isFile source := rfl
  rw [file]
  split at h
  case isFalse invalid =>
    cases h
    exact ⟨m, if_neg invalid, planned⟩
  rename_i extension
  rw [if_pos extension]
  split at h
  case isFalse missing =>
    cases h
    exact ⟨m, if_neg missing, planned⟩
  rename_i present
  rw [if_pos present]
  cases stem : Path.stem? source with
  | none =>
    rw [stem] at h
    cases h
    exact ⟨m, rfl, planned⟩
  | some name =>
    rw [stem] at h
    have hcache' := cacheOpen_delayed (Path.join settings.workDir name) name source w m
    dsimp only at h ⊢
    rcases EStateM.of_bind_error h with hcache | ⟨k, w₁, hcache, h⟩
    · rw [hcache] at hcache'
      exact ⟨m, EStateM.bind_of_error hcache' _, planned⟩
    · rw [hcache] at hcache'
      rw [EStateM.bind_of_ok hcache']
      unfold starting at h ⊢
      have started := tracks_start tc room m.delivered _ _
        (delayed_fresh source planned ageless name k w₁)
      split at h
      case h_1 => cases h
      case h_2 e' b hb =>
        cases h
        have matched := started fun e c hc => by rw [hb] at hc; cases hc; simp [ends]
        rw [hb] at matched
        generalize (build (tc.interrupted room) >>= fun _ => _ : Work (Interrupted σ) Unit) _ = r
          at matched ⊢
        cases matched with
        | @error _ _ b' benches =>
          refine ⟨b'.world.tools, ?_, benches.planned⟩
          rw [← benches.world]

end Program

/-! ## Orders -/

/-- What an order comes to, all but when that was. -/
inductive Outcome where
  | opened
  | done
  | measured (state : Observation) (cost : Float)
  | rewarded (amount : Float)
  | failed (cause : EnvironmentError)
  /-- There is no such program. -/
  | absent

/-- What a program that is asked for something answers. -/
def Program.Request.outcome (tc : Toolchain σ) : Request → Work σ Outcome
  | .build => Program.build tc >>= fun _ => pure .done
  | .measure => Program.measure tc >>= fun m => pure (.measured m.state m.cost)
  | .step catalog action => Program.step tc catalog action >>= fun reward => pure (.rewarded reward)
  | .reset => Program.reset tc >>= fun _ => pure .done

/-- A program that is open, with what a meter on the tools has shown while it was worked on. -/
structure Workpiece where
  program : Program
  metered : Nat

/-- Any number of programs in one world. -/
structure Workshop (σ : Type) where
  world : World σ
  pieces : List Workpiece := []

inductive Order where
  | open (settings : EnvironmentSettings) (source : String)
  | request (place : Nat) (r : Program.Request)

/-- No base is ever too old. -/
def Order.Ageless : Order → Prop
  | .open settings _ => settings.baseMaxAge = none
  | .request _ _ => True

namespace Workshop

/-- Puts a workpiece back after some work. -/
def putBack (meter : σ → Nat) (x : Workshop σ) (place : Nat) (piece : Workpiece) (b : Bench σ) :
    Workshop σ where
  world := b.world
  pieces := x.pieces.set place
    ⟨b.program, piece.metered + (meter b.world.tools - meter x.world.tools)⟩

/-- Carries out one order. -/
def perform (meter : σ → Nat) (tc : Toolchain σ) : Order → Workshop σ → Outcome × Workshop σ
  | .open settings source, x =>
    match Program.open tc settings source x.world with
    | .ok p w => (.opened, ⟨w, x.pieces ++ [⟨p, meter w.tools - meter x.world.tools⟩]⟩)
    | .error e w => (.failed e, { x with world := w })
  | .request place r, x =>
    match x.pieces[place]? with
    | none => (.absent, x)
    | some piece =>
      match r.outcome tc ⟨x.world, piece.program⟩ with
      | .ok outcome b => (outcome, x.putBack meter place piece b)
      | .error e b => (.failed e, x.putBack meter place piece b)

/-- Carries out orders one after the other. -/
def run (meter : σ → Nat) (tc : Toolchain σ) : List Order → Workshop σ → List Outcome × Workshop σ
  | [], x => ([], x)
  | order :: orders, x =>
    let (outcome, y) := perform meter tc order x
    let (outcomes, z) := run meter tc orders y
    (outcome :: outcomes, z)

end Workshop

/-- The same program, but for the interruptions that were counted. -/
structure Workpiece.Delayed (piece piece' : Workpiece) : Prop where
  twins : Program.Twins none piece.program piece'.program
  ageless : piece.program.settings.baseMaxAge = none
  stats : piece'.program.stats = piece.program.stats + .retries piece'.metered

namespace Workshop

/-- The same workshop, with time lost by interruptions. -/
structure Delayed (policy : TransientPolicy) (room : Nat) (x : Workshop σ)
    (y : Workshop (Interrupted σ)) : Prop where
  world : y.world = x.world.delayed y.world.tools
  planned : Interruption.Planned policy room y.world.tools.plan
  pieces : List.Forall₂ Workpiece.Delayed x.pieces y.pieces

variable {tc : Toolchain σ} {meter : σ → Nat} {x : Workshop σ} {y : Workshop (Interrupted σ)}
  {order : Order} {orders : List Order}

theorem tracks_outcome (r : Program.Request) :
    Tracks (fun e => e.isStalled) (Bench.Delayed tc.transient room since before 0) Eq
      (r.outcome tc) (r.outcome (tc.interrupted room)) := by
  have accord := Program.accord_interrupted tc room since before
  cases r with
  | build => exact accord.tracks_build.bind fun _ _ _ => tracks_pure rfl
  | measure =>
    refine accord.tracks_measure.bind fun m n hm => ?_
    rw [hm.state, hm.cost]
    exact tracks_pure rfl
  | step catalog action =>
    refine (accord.tracks_step catalog action).bind fun reward _ same => ?_
    rw [same]
    exact tracks_pure rfl
  | reset => exact accord.tracks_reset.bind fun _ _ _ => tracks_pure rfl

/-- The interruptions that were met since are counted for the program that was worked on. -/
theorem Delayed.putBack (h : x.Delayed policy room y) (place : Nat) {piece piece' : Workpiece}
    {c : Bench σ} {c' : Bench (Interrupted σ)}
    (benches : c.Delayed policy room y.world.tools.delivered piece'.metered 0 c') :
    (x.putBack meter place piece c).Delayed policy room
      (y.putBack Interrupted.delivered place piece' c') := by
  obtain ⟨n, delivered, stats⟩ := benches.counted
  have met : c'.world.tools.delivered - y.world.tools.delivered = n := by omega
  refine ⟨benches.world, benches.planned, forall₂_set h.pieces ⟨benches.twins, benches.ageless, ?_⟩
    place⟩
  rw [met]
  exact stats

/-- One order comes to the same with interruptions. -/
theorem Delayed.perform (h : x.Delayed tc.transient room y) (ageless : order.Ageless)
    (ends : ∀ e, (perform meter tc order x).1 = .failed e → e.isStalled = false) :
    (Workshop.perform Interrupted.delivered (tc.interrupted room) order y).1 =
        (Workshop.perform meter tc order x).1 ∧
      (Workshop.perform meter tc order x).2.Delayed tc.transient room
        (Workshop.perform Interrupted.delivered (tc.interrupted room) order y).2 := by
  cases order with
  | «open» settings source =>
    simp only [Workshop.perform] at ends ⊢
    cases hopen : Program.open tc settings source x.world with
    | ok p v =>
      obtain ⟨v', p', opened, benches⟩ := Program.open_delayed_ok hopen h.planned ageless
      rw [← h.world] at opened
      obtain ⟨n, delivered, stats⟩ := benches.counted
      have met : v'.tools.delivered - y.world.tools.delivered = n := by
        dsimp only at delivered
        omega
      rw [opened]
      refine ⟨rfl, benches.world, benches.planned, List.rel_append h.pieces (.cons ⟨benches.twins,
        benches.ageless, ?_⟩ .nil)⟩
      rw [met]
      simpa using stats
    | error e v =>
      rw [hopen] at ends
      obtain ⟨m', failed, planned⟩ :=
        Program.open_delayed_error hopen (ends e rfl) h.planned ageless
      rw [← h.world] at failed
      rw [failed]
      exact ⟨rfl, rfl, planned, h.pieces⟩
  | request place r =>
    have found := rel_getElem? h.pieces place
    simp only [Workshop.perform] at ends ⊢
    generalize x.pieces[place]? = piece?, y.pieces[place]? = piece?' at found ends
    cases found with
    | none => exact ⟨rfl, h⟩
    | @some piece piece' hp =>
      have delayed : Bench.Delayed tc.transient room y.world.tools.delivered piece'.metered 0
          ⟨x.world, piece.program⟩ ⟨y.world, piece'.program⟩ :=
        ⟨h.world, h.planned, hp.twins, hp.ageless, 0, rfl, hp.stats⟩
      have work := tracks_outcome r _ _ delayed fun e c hc => by simp [ends e (by simp only [hc])]
      dsimp only at work ⊢
      generalize r.outcome tc ⟨x.world, piece.program⟩ = done,
        r.outcome (tc.interrupted room) ⟨y.world, piece'.program⟩ = done' at work
      cases work with
      | ok same benches => exact ⟨same.symm, h.putBack place benches⟩
      | error e benches => exact ⟨rfl, h.putBack place benches⟩

theorem Delayed.run (h : x.Delayed tc.transient room y) (ageless : ∀ order ∈ orders, order.Ageless)
    (ends : ∀ e, .failed e ∈ (run meter tc orders x).1 → e.isStalled = false) :
    (Workshop.run Interrupted.delivered (tc.interrupted room) orders y).1 =
        (Workshop.run meter tc orders x).1 ∧
      (Workshop.run meter tc orders x).2.Delayed tc.transient room
        (Workshop.run Interrupted.delivered (tc.interrupted room) orders y).2 := by
  induction orders generalizing x y with
  | nil => exact ⟨rfl, h⟩
  | cons order orders ih =>
    obtain ⟨first, others⟩ := List.forall_mem_cons.1 ageless
    have now : ∀ e, (Workshop.perform meter tc order x).1 = .failed e → e.isStalled = false :=
      fun e he =>
      ends e (List.mem_cons.2 (.inl he.symm))
    obtain ⟨outcome, next⟩ := h.perform first now
    obtain ⟨outcomes, last⟩ := ih next others fun e he => ends e (List.mem_cons_of_mem _ he)
    exact ⟨congrArg₂ List.cons outcome outcomes, last⟩

/-- A workshop before the first order. -/
def idle (w : World σ) : Workshop σ := ⟨w, []⟩

/-- Whatever programs are opened and asked for, transient failures that come before other outputs of
the profiler change no answer, no file, no cache, no lineage, no stage and no measurement, but for
the clock. Every program counts those that it met as measurements and as repetitions, and nothing
else differs. A run that succeeded is not a transient failure. -/
theorem transient_failures_unseen {w : World σ} {plan : List (List Interruption)}
    (transient : ∀ row ∈ plan, ∀ i ∈ row, tc.transient.isTransient i.output)
    (ageless : ∀ order ∈ orders, order.Ageless)
    (ends : ∀ e, .failed e ∈ (run (fun _ => 0) tc orders (idle w)).1 → e.isStalled = false) :
    let plain := run (fun _ => 0) tc orders (idle w)
    let interrupted := run Interrupted.delivered (tc.interrupted plan.flatten.length) orders
      (idle (w.delayed ⟨w.tools, plan, 0, 0⟩))
    interrupted.1 = plain.1 ∧
    interrupted.2.world.disk = plain.2.world.disk ∧
    interrupted.2.world.tools.inner = plain.2.world.tools ∧
    interrupted.2.world.clock = plain.2.world.clock + interrupted.2.world.tools.lost ∧
    List.Forall₂ (fun piece piece' => Program.Twins none piece.program piece'.program ∧
        piece'.program.stats = piece.program.stats + .retries piece'.metered)
      plain.2.pieces interrupted.2.pieces ∧
    ∀ o : ToolOutput, o.status = some 0 → tc.transient.isTransient o = false := by
  intro plain interrupted
  have start : (idle w).Delayed tc.transient plan.flatten.length
      (idle (w.delayed ⟨w.tools, plan, 0, 0⟩)) :=
    ⟨rfl, ⟨transient, Nat.le_refl _⟩, .nil⟩
  obtain ⟨outcomes, after⟩ := start.run ageless ends
  have world := after.world
  refine ⟨outcomes, congrArg World.disk world, ?_, congrArg World.clock world, ?_, ?_⟩
  · exact congrArg (fun w => w.tools.inner) world
  · exact after.pieces.imp fun _ _ hp => ⟨hp.twins, hp.stats⟩
  · intro o ho
    exact tc.transient.isTransient_of_succeeded (by simp [ToolOutput.succeeded, ho])

/-! A program that is opened while the machine is busy once. -/

/-- Tools that only measure, and always the same. -/
def calmTools : Toolchain Calls :=
  Playback.toolchain {
    measure := [.output (.ok "SYMVEC1 5.0 0SYMVEC")]
    transient := .standard
    marker := "SYMVEC" }

def calmWorld : World Calls := ⟨⟨[(["bench.ll"], .file "; cost 10.0\n".toUTF8)], []⟩, 0, {}⟩

def opening : List Order := [.open ⟨"build", none⟩ "bench.ll"]

/-- The measurement fails once for want of memory, after a second. -/
def busyPlan : List (List Interruption) := [[⟨.exited 12 "" "", 1000000000⟩]]

def isOpened : Outcome → Bool
  | .opened => true
  | _ => false

/-- The programs after the opening, with and without the failure. -/
def calmly : List Outcome × Workshop Calls := run (fun _ => 0) calmTools opening (idle calmWorld)

def busily : List Outcome × Workshop (Interrupted Calls) :=
  run Interrupted.delivered (calmTools.interrupted busyPlan.flatten.length) opening
    (idle (calmWorld.delayed ⟨calmWorld.tools, busyPlan, 0, 0⟩))

theorem calmly_opens : calmly.1.all isOpened = true := by decide +kernel

theorem busily_meets : (busily.2.world.tools.delivered == 1) = true := by decide +kernel

theorem transient_failures_unseen_once : busily.1 = calmly.1 ∧
    List.Forall₂ (fun piece piece' => Program.Twins none piece.program piece'.program ∧
      piece'.program.stats = piece.program.stats + .retries piece'.metered)
      calmly.2.pieces busily.2.pieces ∧
    busily.2.world.tools.delivered = 1 := by
  have opens := calmly_opens
  have met := of_decide_eq_true busily_meets
  unfold calmly at opens ⊢
  unfold busily at met ⊢
  have transient : ∀ row ∈ busyPlan, ∀ i ∈ row,
    calmTools.transient.isTransient i.output := by decide
  have ageless : ∀ order ∈ opening, order.Ageless := by simp [opening, Order.Ageless]
  have ends : ∀ e, .failed e ∈ (run (fun _ => 0) calmTools opening (idle calmWorld)).1 →
      e.isStalled = false := fun e failed => by
    have opened : isOpened (.failed e) = true := List.all_eq_true.1 opens _ failed
    cases opened
  obtain ⟨outcomes, -, -, -, pieces, -⟩ := transient_failures_unseen transient ageless ends
  exact ⟨outcomes, pieces, met⟩

end Workshop

end PassTuner
