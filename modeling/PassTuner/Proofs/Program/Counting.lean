import PassTuner.Proofs.Program.Opening
import PassTuner.Proofs.Tool.Noting

/-!
# What a program counts

A piece of work is accounted for when what it adds to the counters can be told from the calls that
it makes and from the variants that it looks up. Work whose parts are accounted for is accounted for
itself, so it is enough to look at each call where it is counted. Transforming and compiling are
counted before the call, whatever comes of it; look-ups are counted when they hit. Measurements are
counted when a run of them has ended in an output, and a run that is broken off is not counted.
-/

namespace PassTuner

/-- A look-up of a variant, with the cache and the disk that it is made on. -/
structure LookUp where
  cache : Cache
  disk : Disk
  variant : Variant

/-- Whether verified artifacts were found. -/
def LookUp.hits (l : LookUp) : Bool :=
  match l.cache.lookup l.disk l.variant with
  | .ok (some _) => true
  | _ => false

/-- A measurement that never settles, which has no end. -/
def EnvironmentError.isStalled : EnvironmentError → Bool
  | .stalled .. => true
  | _ => false

instance : Add ProgramStats where
  add s t :=
    { transforms := s.transforms + t.transforms
      builds := s.builds + t.builds
      measurements := s.measurements + t.measurements
      transientRetries := s.transientRetries + t.transientRetries
      cacheHits := s.cacheHits + t.cacheHits }

namespace ProgramStats

variable {s t u : ProgramStats} {policy : TransientPolicy} {l l' : List Note} {looks : List LookUp}

theorem add_def (s t : ProgramStats) : s + t =
    { transforms := s.transforms + t.transforms
      builds := s.builds + t.builds
      measurements := s.measurements + t.measurements
      transientRetries := s.transientRetries + t.transientRetries
      cacheHits := s.cacheHits + t.cacheHits } := rfl

theorem add_assoc (s t u : ProgramStats) : s + t + u = s + (t + u) := by
  simp only [add_def, Nat.add_assoc]

theorem zero_add (s : ProgramStats) : {} + s = s := by
  simp only [add_def, Nat.zero_add]

/-- What calls and look-ups come to. -/
def ofNotes (policy : TransientPolicy) (l : List Note) (looks : List LookUp) : ProgramStats where
  transforms := l.countP Note.isTransform
  builds := l.countP Note.isCompile
  measurements := Note.settled policy 0 l
  transientRetries := Note.repeated policy 0 l
  cacheHits := looks.countP LookUp.hits

theorem ofNotes_append (ended : Note.pending policy 0 l = 0) (l' : List Note)
    (looks looks' : List LookUp) : ofNotes policy (l ++ l') (looks ++ looks') =
      ofNotes policy l looks + ofNotes policy l' looks' := by
  simp only [ofNotes, add_def, List.countP_append, Note.settled_append, Note.repeated_append, ended]

end ProgramStats

/-- From one bench to another, the counters have grown by what the calls and look-ups in between
come to. -/
def Bench.Accounts {σ : Type} (policy : TransientPolicy) (looks : List LookUp)
    (b b' : Bench (Noted σ)) : Prop :=
  ∃ l, b'.world.tools.notes = b.world.tools.notes ++ l ∧ Note.pending policy 0 l = 0 ∧
    b'.program.stats = b.program.stats + ProgramStats.ofNotes policy l looks

/-- Work that is accounted for, unless it never ends. -/
structure Work.Accounts {σ α : Type} (policy : TransientPolicy) (work : Work (Noted σ) α)
    (looks : List LookUp) (b : Bench (Noted σ)) : Prop where
  of_ok : ∀ {a b'}, work b = .ok a b' → b.Accounts policy looks b'
  of_error : ∀ {e b'}, work b = .error e b' → e.isStalled = false → b.Accounts policy looks b'

variable {σ α β : Type} {policy : TransientPolicy} {looks looks' : List LookUp}
  {b b' b'' : Bench (Noted σ)}

namespace Bench

theorem Accounts.trans (h : b.Accounts policy looks b') (h' : b'.Accounts policy looks' b'') :
    b.Accounts policy (looks ++ looks') b'' := by
  obtain ⟨l, hl, ended, hs⟩ := h
  obtain ⟨l', hl', ended', hs'⟩ := h'
  refine ⟨l ++ l', by rw [hl', hl, List.append_assoc], ?_, ?_⟩
  · rw [Note.pending_append, ended, ended']
  · rw [hs', hs, ProgramStats.add_assoc, ProgramStats.ofNotes_append ended]

theorem accounts_of_same (notes : b'.world.tools.notes = b.world.tools.notes)
    (stats : b'.program.stats = b.program.stats) : b.Accounts policy [] b' :=
  ⟨[], by rw [notes, List.append_nil], rfl, stats⟩

/-- Only notes and counters matter. -/
theorem Accounts.congr (h : b.Accounts policy looks b') {c c' : Bench (Noted σ)}
    (notes : c.world.tools.notes = b.world.tools.notes) (stats : c.program.stats = b.program.stats)
    (notes' : c'.world.tools.notes = b'.world.tools.notes)
    (stats' : c'.program.stats = b'.program.stats) : c.Accounts policy looks c' := by
  obtain ⟨l, hl, ended, hs⟩ := h
  exact ⟨l, by rw [notes', hl, notes], ended, by rw [stats', hs, stats]⟩

end Bench

namespace Work

variable {work : Work (Noted σ) α} {next : α → Work (Noted σ) β} {a : α} {e : EnvironmentError}

theorem accounts_of_after (h : b.Accounts policy looks (work.after b)) :
    work.Accounts policy looks b :=
  ⟨fun hw => by rwa [after_of_ok hw] at h, fun hw _ => by rwa [after_of_error hw] at h⟩

theorem accounts_of_ok (hw : work b = .ok a b') (h : b.Accounts policy looks b') :
    work.Accounts policy looks b := accounts_of_after (by rwa [after_of_ok hw])

theorem accounts_of_error (hw : work b = .error e b')
    (h : e.isStalled = false → b.Accounts policy looks b') : work.Accounts policy looks b := by
  refine ⟨fun hw' => ?_, fun hw' => ?_⟩ <;> rw [hw] at hw' <;> cases hw'
  exact h

theorem accounts_of_eq {work' : Work (Noted σ) α} (h : work b = work' b)
    (h' : work'.Accounts policy looks b) : work.Accounts policy looks b :=
  ⟨fun hw => h'.of_ok (h.symm.trans hw), fun hw => h'.of_error (h.symm.trans hw)⟩

/-- Work that makes no calls and leaves the counters alone. -/
theorem accounts_of_quiet (notes : (work.after b).world.tools.notes = b.world.tools.notes)
    (stats : (work.after b).program.stats = b.program.stats) : work.Accounts policy [] b :=
  accounts_of_after (Bench.accounts_of_same notes stats)

theorem accounts_pure (a : α) (b : Bench (Noted σ)) :
    (pure a : Work (Noted σ) α).Accounts policy [] b := accounts_of_quiet rfl rfl

theorem accounts_throw (e : EnvironmentError) (b : Bench (Noted σ)) :
    (throw e : Work (Noted σ) α).Accounts policy [] b := accounts_of_quiet rfl rfl

/-- The look-ups that follow on work, which are only made when it succeeds. -/
def following (work : Work σ α) (more : α → Bench σ → List LookUp) (b : Bench σ) : List LookUp :=
  match work b with
  | .ok a b' => more a b'
  | .error .. => []

theorem following_nil (work : Work σ α) (b : Bench σ) : work.following (fun _ _ => []) b = [] := by
  unfold following
  split <;> rfl

theorem Accounts.bind {more : α → Bench (Noted σ) → List LookUp}
    (first : work.Accounts policy looks b)
    (second : ∀ a b', work b = .ok a b' → (next a).Accounts policy (more a b') b') :
    (work >>= next).Accounts policy (looks ++ work.following more b) b := by
  unfold following
  cases hw : work b with
  | error e b' =>
    dsimp only
    rw [List.append_nil]
    exact accounts_of_error (EStateM.bind_of_error hw _) (first.of_error hw)
  | ok a b' =>
    have before := first.of_ok hw
    have after := second a b' hw
    have same : (work >>= next) b = next a b' := EStateM.bind_of_ok hw _
    exact ⟨fun hn => before.trans (after.of_ok (same.symm.trans hn)),
      fun hn ends => before.trans (after.of_error (same.symm.trans hn) ends)⟩

/-- Work that goes on without look-ups. -/
theorem Accounts.bind_quiet (first : work.Accounts policy looks b)
    (second : ∀ a b', work b = .ok a b' → (next a).Accounts policy [] b') :
    (work >>= next).Accounts policy looks b := by
  have h : (work >>= next).Accounts policy (looks ++ work.following (fun _ _ => []) b) b :=
    first.bind second
  rwa [following_nil, List.append_nil] at h

end Work

namespace Program

variable {tc : Toolchain σ} {v : Variant} {e : EnvironmentError}

/-! ## Calls -/

theorem demand_noting (call : ToolCall) (t : Tool σ ToolOutput)
    (refusal : ToolOutput → EnvironmentError) (b : Bench (Noted σ)) :
    ∃ answer, ((Work.demand (Tool.noting call t) refusal).after b).world.tools.notes =
        b.world.tools.notes ++ [⟨call, answer⟩] ∧
      ((Work.demand (Tool.noting call t) refusal).after b).program = b.program := by
  cases ht : t ⟨b.world.disk, b.world.clock, b.world.tools.inner⟩ with
  | error e w =>
    have hcall : Work.ofTool (Tool.noting call t) b = .error (.tool e)
        { b with world := ⟨w.disk, w.clock, w.tools,
          b.world.tools.notes ++ [⟨call, .error e⟩]⟩ } := by
      simp only [Work.ofTool, Tool.noting, ht]
    rw [Work.demand, Work.after_of_error (EStateM.bind_of_error hcall _)]
    exact ⟨.error e, rfl, rfl⟩
  | ok o w =>
    have hcall : Work.ofTool (Tool.noting call t) b = .ok o
        { b with world := ⟨w.disk, w.clock, w.tools, b.world.tools.notes ++ [⟨call, .ok o⟩]⟩ } := by
      simp only [Work.ofTool, Tool.noting, ht]
    rw [Work.demand, Work.after_bind_of_ok hcall]
    refine ⟨.ok o, ?_⟩
    cases o.succeeded <;> exact ⟨rfl, rfl⟩

/-- A call whose note comes to what was counted for it. -/
theorem accounts_counted {call : ToolCall} {f : ProgramStats → ProgramStats}
    (counts : ∀ s answer, Note.pending policy 0 [⟨call, answer⟩] = 0 ∧
      f s = s + ProgramStats.ofNotes policy [⟨call, answer⟩] [])
    (t : Tool σ ToolOutput) (refusal : ToolOutput → EnvironmentError) (b : Bench (Noted σ)) :
    (Work.count f >>= fun _ => Work.demand (Tool.noting call t) refusal).Accounts policy [] b := by
  refine Work.accounts_of_after ?_
  have counted : (Work.count f : Work (Noted σ) Unit) b =
      .ok () { b with program := { b.program with stats := f b.program.stats } } := rfl
  rw [Work.after_bind_of_ok counted]
  obtain ⟨answer, notes, program⟩ := demand_noting call t refusal
    { b with program := { b.program with stats := f b.program.stats } }
  exact ⟨_, notes, (counts b.program.stats answer).1,
    by rw [program]; exact (counts b.program.stats answer).2⟩

/-- A call that is not counted. -/
theorem accounts_uncounted {call : ToolCall}
    (free : ∀ answer, Note.pending policy 0 [⟨call, answer⟩] = 0 ∧
      ProgramStats.ofNotes policy [⟨call, answer⟩] [] = {})
    (t : Tool σ ToolOutput) (refusal : ToolOutput → EnvironmentError) (b : Bench (Noted σ)) :
    (Work.demand (Tool.noting call t) refusal).Accounts policy [] b := by
  refine Work.accounts_of_after ?_
  obtain ⟨answer, notes, program⟩ := demand_noting call t refusal b
  exact ⟨_, notes, (free answer).1, by rw [program, (free answer).2]; rfl⟩

theorem accounts_transformInto (flag : String) (b : Bench (Noted σ)) :
    (transformInto tc.noted v flag).Accounts policy [] b := by
  let counted : Work (Noted σ) Unit :=
    Work.count fun s => { s with transforms := s.transforms + 1 }
  let transformed : Work (Noted σ) Unit := Work.demand
    (tc.noted.transform flag (b.program.cache.artifacts b.program.lineage).ir
      (b.program.cache.artifacts v).ir) (.transformFailed b.program.name v flag)
  have calls : transformInto tc.noted v flag b = (counted >>= fun _ => transformed) b := rfl
  exact Work.accounts_of_eq calls (accounts_counted (fun _ _ => ⟨rfl, rfl⟩) _ _ b)

theorem accounts_recordVariant (b : Bench (Noted σ)) :
    (recordVariant v : Work (Noted σ) Unit).Accounts policy [] b := by
  rcases hr : b.program.cache.record b.world.disk v with ⟨_ | _, cache, disk⟩ <;>
  · refine Work.accounts_of_quiet ?_ ?_ <;> simp only [Work.after, recordVariant, hr]

theorem accounts_assemble (object : String) (b : Bench (Noted σ)) :
    (assemble tc.noted v object).Accounts policy [] b := by
  let counted : Work (Noted σ) Unit := Work.count fun s => { s with builds := s.builds + 1 }
  let compiled : Work (Noted σ) Unit := Work.demand
    (tc.noted.compile (b.program.cache.artifacts v).ir object) (.buildFailed b.program.name v)
  let linked : Work (Noted σ) Unit := Work.demand
    (tc.noted.link object (b.program.cache.artifacts v).executable) (.buildFailed b.program.name v)
  have calls : assemble tc.noted v object b =
      ((counted >>= fun _ => compiled) >>= fun _ => linked >>= fun _ => recordVariant v) b := by
    rw [bind_assoc]
    rfl
  refine Work.accounts_of_eq calls ?_
  refine (accounts_counted (fun _ _ => ⟨rfl, rfl⟩) _ _ b).bind_quiet fun _ b₁ _ => ?_
  exact (accounts_uncounted (fun _ => ⟨rfl, rfl⟩) _ _ b₁).bind_quiet fun _ b₂ _ =>
    accounts_recordVariant b₂

/-- The path of the scratch directory that is made next. -/
def scratchPath (b : Bench σ) : String :=
  Path.join b.program.cache.directory
    (b.world.disk.freeName b.program.cache.directory ".obj" b.program.name)

theorem withScratch_of (work : String → Work σ α) (b : Bench σ) :
    withScratch work b = match b.world.disk.makeDirectory (scratchPath b) with
      | .error e => .error (.file b.program.cache.directory e) b
      | .ok made => Work.cleaning (·.remove (scratchPath b)) (work (scratchPath b))
          (withDisk b made) := by
  have hprogram : (Work.program : Work σ Program) b = .ok b.program b := rfl
  have hdisk : (Work.disk : Work σ Disk) b = .ok b.world.disk b := rfl
  have hpath : Path.join b.program.cache.directory
    (b.world.disk.freeName b.program.cache.directory ".obj" b.program.name) = scratchPath b := rfl
  unfold withScratch
  rw [EStateM.bind_of_ok hprogram, EStateM.bind_of_ok hdisk, hpath]
  cases b.world.disk.makeDirectory (scratchPath b) <;> rfl

/-- Work in a scratch directory is accounted for as the same work elsewhere. -/
theorem accounts_withScratch {work : String → Work (Noted σ) α}
    (h : ∀ path b', (work path).Accounts policy [] b') (b : Bench (Noted σ)) :
    (withScratch work).Accounts policy [] b := by
  have does := withScratch_of work b
  cases hmade : b.world.disk.makeDirectory (scratchPath b) with
  | error cause =>
    rw [hmade] at does
    exact Work.accounts_of_error does fun _ => Bench.accounts_of_same rfl rfl
  | ok made =>
    rw [hmade] at does
    simp only [cleaning_eq] at does
    have inside := h (scratchPath b) (withDisk b made)
    cases hw : work (scratchPath b) (withDisk b made) with
    | ok a b₁ =>
      rw [hw] at does
      exact Work.accounts_of_ok does ((inside.of_ok hw).congr rfl rfl rfl rfl)
    | error e b₁ =>
      rw [hw] at does
      exact Work.accounts_of_error does fun ends =>
        (inside.of_error hw ends).congr rfl rfl rfl rfl

theorem accounts_assembleAside (name : String) (b : Bench (Noted σ)) :
    (assembleAside tc.noted v name).Accounts policy [] b := by
  unfold assembleAside
  exact accounts_withScratch (fun _ => accounts_assemble _) b

theorem accounts_rebuild (flag : Option String) (b : Bench (Noted σ)) :
    (rebuild tc.noted v flag).Accounts policy [] b := by
  have assembled (b₁ : Bench (Noted σ)) : (assembleAside tc.noted v b.program.name >>= fun _ =>
      pure (b.program.cache.artifacts v)).Accounts policy [] b₁ :=
    (accounts_assembleAside b.program.name b₁).bind_quiet fun _ b₂ _ => Work.accounts_pure _ b₂
  cases flag with
  | some flag =>
    refine Work.accounts_of_eq (rebuild_some tc.noted v flag b) ?_
    exact (accounts_transformInto flag b).bind_quiet fun _ b₁ _ => assembled b₁
  | none =>
    have builds := rebuild_none tc.noted v b
    by_cases code : b.world.disk.isFile (b.program.cache.artifacts v).ir
    · rw [if_pos code] at builds
      exact Work.accounts_of_eq builds (assembled b)
    · rw [if_neg code] at builds
      exact Work.accounts_of_error builds fun _ => Bench.accounts_of_same rfl rfl

/-- The look-up of a variant that is asked for in a bench. -/
def lookUpOf (b : Bench σ) (v : Variant) : LookUp := ⟨b.program.cache, b.world.disk, v⟩

theorem ofNotes_lookUp_hit {a : Artifacts}
    (h : b.program.cache.lookup b.world.disk v = .ok (some a)) :
    ProgramStats.ofNotes policy [] [lookUpOf b v] = { cacheHits := 1 } := by
  simp [ProgramStats.ofNotes, LookUp.hits, lookUpOf, h, Note.settled, Note.repeated]

theorem ofNotes_lookUp_miss (h : ∀ a, b.program.cache.lookup b.world.disk v ≠ .ok (some a))
    (l : List Note) :
    ProgramStats.ofNotes policy l [lookUpOf b v] = ProgramStats.ofNotes policy l [] := by
  have miss : LookUp.hits (lookUpOf b v) = false := by
    unfold LookUp.hits lookUpOf
    split
    · rename_i a ha
      exact absurd ha (h a)
    · rfl
  simp [ProgramStats.ofNotes, miss]

theorem Accounts.looked (h : b.Accounts policy [] b')
    (miss : ∀ a, b.program.cache.lookup b.world.disk v ≠ .ok (some a)) :
    b.Accounts policy [lookUpOf b v] b' := by
  obtain ⟨l, notes, ended, stats⟩ := h
  exact ⟨l, notes, ended, by rw [ofNotes_lookUp_miss miss, stats]⟩

/-- The look-up comes first, and all the rest of the work is done without another. -/
theorem accounts_ensureBuilt (flag : Option String) (b : Bench (Noted σ)) :
    (ensureBuilt tc.noted v flag).Accounts policy [lookUpOf b v] b := by
  have does := ensureBuilt_of tc.noted v flag b
  cases hlookup : b.program.cache.lookup b.world.disk v with
  | error e =>
    rw [hlookup] at does
    exact Work.accounts_of_error does fun _ =>
      Accounts.looked (Bench.accounts_of_same rfl rfl) (by simp [hlookup])
  | ok found =>
    rw [hlookup] at does
    cases found with
    | some a =>
      exact Work.accounts_of_ok does
        ⟨[], (List.append_nil _).symm, rfl, by rw [ofNotes_lookUp_hit hlookup]; rfl⟩
    | none =>
      have missed : (rebuild tc.noted v flag).Accounts policy [] b := accounts_rebuild flag b
      exact ⟨fun hw => Accounts.looked (missed.of_ok (does.symm.trans hw)) (by simp [hlookup]),
        fun hw ends =>
          Accounts.looked (missed.of_error (does.symm.trans hw) ends) (by simp [hlookup])⟩

/-! ## Runs of measurements -/

theorem ofNotes_measures {l : List Note} (h : ∀ n ∈ l, n.isMeasure) :
    ProgramStats.ofNotes policy l [] =
      { measurements := Note.settled policy 0 l,
        transientRetries := Note.repeated policy 0 l } := by
  have transforms : l.countP Note.isTransform = 0 := List.countP_eq_zero.2 fun n hn => by
    have := h n hn
    unfold Note.isMeasure at this
    unfold Note.isTransform
    split at this <;> simp_all
  have compiles : l.countP Note.isCompile = 0 := List.countP_eq_zero.2 fun n hn => by
    have := h n hn
    unfold Note.isMeasure at this
    unfold Note.isCompile
    split at this <;> simp_all
  simp [ProgramStats.ofNotes, transforms, compiles]

/-- The notes of measurements that go on with a run and end it, with the calls that are settled by
that and those of them that were repeated. -/
structure Attempts (policy : TransientPolicy) (k settled repeated : Nat) (b b' : Bench (Noted σ))
    (l : List Note) : Prop where
  notes : b'.world.tools.notes = b.world.tools.notes ++ l
  program : b'.program = b.program
  measures : ∀ n ∈ l, n.isMeasure
  pending : Note.pending policy k l = 0
  settled : Note.settled policy k l = settled
  repeated : Note.repeated policy k l = repeated

theorem Attempts.cons {k m r : Nat} {l : List Note} {n : Note} {w : World (Noted σ)}
    (h : Attempts policy (k + 1) m r { b with world := w } b' l)
    (notes : w.tools.notes = b.world.tools.notes ++ [n])
    (again : n.turn policy = .repeated) : Attempts policy k m r b b' (n :: l) where
  notes := by rw [h.notes, notes, List.append_assoc, List.singleton_append]
  program := h.program
  measures := List.forall_mem_cons.2
    ⟨by rw [Note.isMeasure_eq policy, again]; decide, h.measures⟩
  pending := by simp only [Note.pending, again, h.pending]
  settled := by simp only [Note.settled, again, h.settled]
  repeated := by simp only [Note.repeated, again, h.repeated]

theorem settle_accounts (tc : Toolchain σ) (v : Variant) (executable : String) (patience k : Nat)
    (b : Bench (Noted σ)) :
    match settle tc.noted v executable patience k b with
    | .ok (_, r) b' => ∃ l, Attempts tc.transient k (r + 1) r b b' l
    | .error e b' => e.isStalled = false → ∃ l, Attempts tc.transient k 0 0 b b' l := by
  induction patience generalizing k b with
  | zero =>
    intro stalled
    cases stalled
  | succ n ih =>
    rw [settle_succ]
    have called : tc.noted.measure executable b.world =
        Tool.noting (.measure executable) (tc.measure executable) b.world := rfl
    rw [called, Tool.noting]
    cases ht : tc.measure executable ⟨b.world.disk, b.world.clock, b.world.tools.inner⟩ with
    | error cause w =>
      exact fun _ => ⟨[⟨.measure executable, .error cause⟩], rfl, rfl,
        fun n hn => List.mem_singleton.1 hn ▸ rfl, rfl, rfl, rfl⟩
    | ok o w =>
      cases transient : tc.transient.isTransient o with
      | false =>
        have turn : Note.turn tc.transient ⟨.measure executable, .ok o⟩ = .settled := by
          rw [Note.turn_measure_ok, transient]
          rfl
        have policy : tc.noted.transient.isTransient o = false := transient
        simp only [policy]
        exact ⟨[⟨.measure executable, .ok o⟩], rfl, rfl, fun n hn => List.mem_singleton.1 hn ▸ rfl,
          by simp only [Note.pending, turn], by simp only [Note.settled, turn],
          by simp only [Note.repeated, turn]; rfl⟩
      | true =>
        have turn : Note.turn tc.transient ⟨.measure executable, .ok o⟩ = .repeated := by
          rw [Note.turn_measure_ok, transient]
          rfl
        have policy : tc.noted.transient.isTransient o = true := transient
        simp only [policy, if_true]
        have rest := ih (k + 1) { b with world :=
          ⟨w.disk, w.clock + 1000000 * tc.noted.transient.retryDelay,
            w.tools, b.world.tools.notes ++ [⟨.measure executable, .ok o⟩]⟩ }
        split at rest
        · obtain ⟨l, hl⟩ := rest
          exact ⟨_, hl.cons rfl turn⟩
        · exact fun ends => (rest ends).elim fun l hl => ⟨_, hl.cons rfl turn⟩

theorem accounts_runMeasurement (executable : String) (b : Bench (Noted σ)) :
    (runMeasurement tc.noted v executable).Accounts tc.transient [] b := by
  have ended := settle_accounts tc v executable tc.noted.patience 0 b
  have does := congrFun (runMeasurement_eq tc.noted v executable) b
  cases hs : settle tc.noted v executable tc.noted.patience 0 b with
  | error e b₁ =>
    rw [hs] at ended
    refine Work.accounts_of_error (does.trans (EStateM.bind_of_error hs _)) fun ends => ?_
    obtain ⟨l, hl⟩ := ended ends
    refine ⟨l, hl.notes, hl.pending, ?_⟩
    rw [ofNotes_measures hl.measures, hl.settled, hl.repeated, hl.program]
    rfl
  | ok answer b₁ =>
    obtain ⟨o, r⟩ := answer
    rw [hs] at ended
    obtain ⟨l, hl⟩ := ended
    have counted (b₂ : Bench (Noted σ)) (notes : b₂.world.tools.notes = b₁.world.tools.notes)
        (stats : b₂.program.stats = { b₁.program.stats with
          measurements := b₁.program.stats.measurements + r + 1
          transientRetries := b₁.program.stats.transientRetries + r }) :
        b.Accounts tc.transient [] b₂ := by
      refine ⟨l, notes.trans hl.notes, hl.pending, ?_⟩
      rw [ofNotes_measures hl.measures, hl.settled, hl.repeated, stats, hl.program]
      rfl
    have clocked : (Work.now : Work (Noted σ) Nat) b₁ = .ok b₁.world.clock
        { b₁ with world := { b₁.world with clock := b₁.world.clock + 1 } } := rfl
    rw [EStateM.bind_of_ok hs, EStateM.bind_of_ok clocked] at does
    dsimp only at does
    cases hread : readMeasurement tc.noted o with
    | ok record =>
      rw [hread] at does
      exact Work.accounts_of_ok does (counted _ rfl rfl)
    | error fault =>
      rw [hread] at does
      exact Work.accounts_of_error does fun _ => counted _ rfl rfl

/-! ## Operations -/

/-- The look-ups of building, and of measuring. -/
def looksOfBuild (b : Bench σ) : List LookUp :=
  if b.program.stage = .unbuilt then [lookUpOf b b.program.lineage] else []

def looksOfStanding (b : Bench σ) : List LookUp :=
  match b.program.measuredCost? with
  | some _ => []
  | none => looksOfBuild b

def looksOfAdvance (action : ActionId) (b : Bench σ) : List LookUp :=
  match b.program.lineage.extend? action with
  | .error _ => []
  | .ok v => [lookUpOf b v]

def looksOfStep (tc : Toolchain σ) (catalog : Catalog) (action : ActionId) (b : Bench σ) :
    List LookUp :=
  match catalog.describe action with
  | .error _ => []
  | .ok _ => looksOfStanding b ++ (standingCost tc).following (fun _ => looksOfAdvance action) b

def looksOfReset (b : Bench σ) : List LookUp :=
  if baseIsFresh b.program b.world.clock then [] else [lookUpOf b .base]

/-- The look-ups of opening a source. -/
def looksOfOpen (settings : EnvironmentSettings) (source : String) (w : World σ) : List LookUp :=
  match Path.stem? source with
  | none => []
  | some name =>
    match Cache.open (Path.join settings.workDir name) name source w with
    | .ok cache w' => [⟨cache, w'.disk, .base⟩]
    | .error .. => []

theorem accounts_build (b : Bench (Noted σ)) :
    (build tc.noted).Accounts policy (looksOfBuild b) b := by
  unfold looksOfBuild
  split
  · rename_i unbuilt
    refine Work.accounts_of_eq (build_of_unbuilt tc.noted unbuilt) ?_
    exact (accounts_ensureBuilt none b).bind_quiet fun _ _ _ => Work.accounts_of_quiet rfl rfl
  · rename_i built
    exact Work.accounts_of_ok (build_of_built tc.noted built) (Bench.accounts_of_same rfl rfl)

theorem accounts_measure (b : Bench (Noted σ)) :
    (measure tc.noted).Accounts tc.transient (looksOfBuild b) b := by
  rw [measure_eq]
  refine (accounts_build b).bind_quiet fun _ b₁ _ => ?_
  refine Work.Accounts.bind_quiet (Work.accounts_of_quiet rfl rfl) fun p b₂ _ => ?_
  refine (accounts_runMeasurement _ b₂).bind_quiet fun m b₃ _ => ?_
  exact Work.Accounts.bind_quiet (Work.accounts_of_quiet rfl rfl) fun _ b₄ _ =>
    Work.accounts_pure m b₄

theorem accounts_standingCost (b : Bench (Noted σ)) :
    (standingCost tc.noted).Accounts tc.transient (looksOfStanding b) b := by
  unfold looksOfStanding
  split
  · rename_i cost measured
    exact Work.accounts_of_ok (standingCost_of_measured tc.noted measured)
      (Bench.accounts_of_same rfl rfl)
  · rename_i unmeasured
    refine Work.accounts_of_eq (standingCost_of_unmeasured tc.noted unmeasured) ?_
    exact (accounts_measure b).bind_quiet fun m b₁ _ => Work.accounts_pure m.cost b₁

theorem accounts_advance (action : ActionId) (flag : String) (before : Float)
    (b : Bench (Noted σ)) : (advance tc.noted action flag before).Accounts tc.transient
      (looksOfAdvance action b) b := by
  have does := advance_eq tc.noted action flag before b
  unfold looksOfAdvance
  cases hv : b.program.lineage.extend? action with
  | error fault =>
    simp only [hv] at does
    exact Work.accounts_of_eq does (Work.accounts_throw _ b)
  | ok v =>
    simp only [hv] at does
    refine Work.accounts_of_eq does ?_
    refine (accounts_ensureBuilt (some flag) b).bind_quiet fun a b₁ _ => ?_
    refine (accounts_runMeasurement a.executable b₁).bind_quiet fun m b₂ _ => ?_
    cases Cost.reward before m.cost with
    | error fault => exact Work.accounts_throw _ b₂
    | ok reward =>
      exact Work.Accounts.bind_quiet (Work.accounts_of_quiet rfl rfl) fun _ b₃ _ =>
        Work.accounts_pure reward b₃

theorem accounts_step (catalog : Catalog) (action : ActionId) (b : Bench (Noted σ)) :
    (step tc.noted catalog action).Accounts tc.transient
      (looksOfStep tc.noted catalog action b) b := by
  unfold looksOfStep
  cases hd : catalog.describe action with
  | error fault =>
    exact Work.accounts_of_error (step_of_unknown tc.noted hd) fun _ =>
      Bench.accounts_of_same rfl rfl
  | ok flag =>
    rw [step_of_known tc.noted hd]
    have standing : (standingCost tc.noted).Accounts tc.transient (looksOfStanding b) b :=
      accounts_standingCost b
    dsimp only
    exact standing.bind fun cost b₁ _ => accounts_advance action flag cost b₁

theorem accounts_reset (b : Bench (Noted σ)) :
    (reset tc.noted).Accounts tc.transient (looksOfReset b) b := by
  unfold looksOfReset
  cases fresh : baseIsFresh b.program b.world.clock with
  | true =>
    exact Work.accounts_of_ok (reset_of_fresh tc.noted fresh) (Bench.accounts_of_same rfl rfl)
  | false =>
    have does := reset_of_stale tc.noted fresh
    let unbuilt : Bench (Noted σ) := ⟨{ b.world with clock := b.world.clock + 1 },
      { b.program with lineage := .base, current := none, stage := .unbuilt }⟩
    have measured : (measure tc.noted >>= fun _ => pure ()).Accounts tc.transient
        [lookUpOf b .base] unbuilt :=
      (accounts_measure unbuilt).bind_quiet fun _ b₁ _ => Work.accounts_pure () b₁
    exact ⟨fun hw => (measured.of_ok (does.symm.trans hw)).congr rfl rfl rfl rfl,
      fun hw ends => (measured.of_error (does.symm.trans hw) ends).congr rfl rfl rfl rfl⟩

theorem accounts_open {settings : EnvironmentSettings} {source : String} {w w' : World (Noted σ)}
    {p : Program} (h : Program.open tc.noted settings source w = .ok p w') :
    ∃ l, w'.tools.notes = w.tools.notes ++ l ∧ Note.pending tc.transient 0 l = 0 ∧
      p.stats = ProgramStats.ofNotes tc.transient l (looksOfOpen settings source w) := by
  obtain ⟨extension, file, name, stem⟩ := valid_of_open_ok h
  rw [open_of_valid tc.noted settings extension file stem] at h
  obtain ⟨cache, w₁, hcache, h⟩ := EStateM.of_bind_ok h
  have looks : looksOfOpen settings source w = [⟨cache, w₁.disk, .base⟩] := by
    simp only [looksOfOpen, stem, hcache]
  obtain ⟨d, c, m, -, -, -, -, rfl⟩ := of_cacheOpen_ok hcache
  have building : (build tc.noted >>= fun _ => measure tc.noted >>= fun _ => pure () :
      Work (Noted σ) Unit) = measure tc.noted >>= fun _ => pure () := by
    conv_rhs => rw [← build_measure tc.noted]
    exact (bind_assoc _ _ _).symm
  rw [building] at h
  obtain ⟨a, b, hm, rfl⟩ := starting_ok h
  obtain ⟨l, notes, ended, stats⟩ := (accounts_measure _).of_ok hm
  refine ⟨l, notes, ended, ?_⟩
  rw [stats, looks]
  exact ProgramStats.zero_add _

/-! ## Programs that are asked for something -/

/-- What may be asked of a program. -/
inductive Request where
  | build
  | measure
  | step (catalog : Catalog) (action : ActionId)
  | reset

def Request.work (tc : Toolchain σ) : Request → Work σ Unit
  | .build => Program.build tc
  | .measure => Program.measure tc >>= fun _ => pure ()
  | .step catalog action => Program.step tc catalog action >>= fun _ => pure ()
  | .reset => Program.reset tc

def Request.lookUps (tc : Toolchain σ) : Request → Bench σ → List LookUp
  | .build, b => looksOfBuild b
  | .measure, b => looksOfBuild b
  | .step catalog action, b => looksOfStep tc catalog action b
  | .reset, b => looksOfReset b

theorem accounts_request (r : Request) (b : Bench (Noted σ)) :
    (r.work tc.noted).Accounts tc.transient (r.lookUps tc.noted b) b := by
  cases r with
  | build => exact accounts_build b
  | measure => exact (accounts_measure b).bind_quiet fun _ b₁ _ => Work.accounts_pure () b₁
  | step catalog action =>
    exact (accounts_step catalog action b).bind_quiet fun _ b₁ _ => Work.accounts_pure () b₁
  | reset => exact accounts_reset b

/-- The benches that a program comes to from when it is opened, with all look-ups made until then.
Whatever happens in between is not noted as a call that the program makes. -/
inductive Served (tc : Toolchain σ) : Bench (Noted σ) → List LookUp → Prop where
  | opened {settings : EnvironmentSettings} {source : String} {w w' : World (Noted σ)}
      {p : Program} : w.tools.notes = [] → Program.open tc.noted settings source w = .ok p w' →
      Served tc ⟨w', p⟩ (looksOfOpen settings source w)
  | world {b : Bench (Noted σ)} {looks : List LookUp} (w : World (Noted σ)) : Served tc b looks →
      w.tools.notes = b.world.tools.notes → Served tc { b with world := w } looks
  | request {b : Bench (Noted σ)} {looks : List LookUp} (r : Request) : Served tc b looks →
      (∀ e b', r.work tc.noted b = .error e b' → e.isStalled = false) →
      Served tc ((r.work tc.noted).after b) (looks ++ r.lookUps tc.noted b)

/-- The counters are what all notes and look-ups come to. -/
theorem Served.counted (h : Served tc b looks) :
    Note.pending tc.transient 0 b.world.tools.notes = 0 ∧
      b.program.stats = ProgramStats.ofNotes tc.transient b.world.tools.notes looks := by
  induction h with
  | opened blank ho =>
    obtain ⟨l, notes, ended, stats⟩ := accounts_open ho
    rw [blank, List.nil_append] at notes
    rw [notes]
    exact ⟨ended, stats⟩
  | world w _ same ih =>
    rw [same]
    exact ih
  | @request b looks r _ ends ih =>
    have grown : b.Accounts tc.transient (r.lookUps tc.noted b) ((r.work tc.noted).after b) := by
      have accounted : (r.work tc.noted).Accounts tc.transient (r.lookUps tc.noted b) b :=
        accounts_request r b
      cases hr : r.work tc.noted b with
      | ok a b₁ =>
        rw [Work.after_of_ok hr]
        exact accounted.of_ok hr
      | error e b₁ =>
        rw [Work.after_of_error hr]
        exact accounted.of_error hr (ends e b₁ hr)
    obtain ⟨l, notes, ended, stats⟩ := grown
    rw [notes, stats, ih.2, Note.pending_append, ih.1]
    exact ⟨ended, (ProgramStats.ofNotes_append ih.1 ..).symm⟩

/-- Transformations, compilations and hits are counted exactly. Of the measurements those in runs
that ended in an output are counted, and so are the repetitions among them: these are all, just when
no call of the profiler ended in an error. -/
theorem counters_exact_iff_answered (h : Served tc b looks) :
    let notes := b.world.tools.notes
    let stats := b.program.stats
    stats.transforms = notes.countP Note.isTransform ∧
    stats.builds = notes.countP Note.isCompile ∧
    stats.cacheHits = looks.countP LookUp.hits ∧
    stats.measurements = Note.settled tc.transient 0 notes ∧
    stats.transientRetries = Note.repeated tc.transient 0 notes ∧
    (stats.measurements = notes.countP Note.isMeasure ∧
        stats.transientRetries = notes.countP (Note.isTransient tc.transient) ↔
      Note.AllAnswered notes) := by
  intro notes stats
  obtain ⟨ended, counted⟩ := h.counted
  have measurements : stats.measurements = Note.settled tc.transient 0 notes :=
    congrArg ProgramStats.measurements counted
  have repetitions : stats.transientRetries = Note.repeated tc.transient 0 notes :=
    congrArg ProgramStats.transientRetries counted
  have all : Note.settled tc.transient 0 notes + Note.pending tc.transient 0 notes =
      0 + notes.countP Note.isMeasure ↔ Note.AllAnswered notes := (Note.settled_add_pending 0 _).2
  have too : Note.AllAnswered notes →
      Note.repeated tc.transient 0 notes + Note.pending tc.transient 0 notes =
        0 + notes.countP (Note.isTransient tc.transient) := (Note.repeated_add_pending 0 _).2
  rw [ended, Nat.add_zero, Nat.zero_add] at all too
  refine ⟨congrArg ProgramStats.transforms counted, congrArg ProgramStats.builds counted,
    congrArg ProgramStats.cacheHits counted, measurements, repetitions, ?_⟩
  rw [measurements, repetitions, ← all]
  exact ⟨fun both => both.1, fun measured => ⟨measured, too (all.1 measured)⟩⟩

/-! A program whose second measurement does not get as far as to run. -/

def unlaunched : Toolchain Calls :=
  Playback.toolchain {
    measure := [.output (.ok "SYMVEC1 5.0 0SYMVEC"), .spawnFailure "time"]
    transient := .standard
    marker := "SYMVEC" }

def unnotedWorld : World (Noted Calls) :=
  ⟨⟨[(["bench.ll"], .file "; cost 10.0\n".toUTF8)], []⟩, 0, ⟨{}, []⟩⟩

/-- The program as it was opened. -/
def launched? : Option (Bench (Noted Calls)) :=
  match Program.open unlaunched.noted ⟨"build", none⟩ "bench.ll" unnotedWorld with
  | .ok p w => some ⟨w, p⟩
  | .error _ _ => none

/-- Whether the next measurement ends in an error that is not counted. -/
def missesMeasurement (b : Bench (Noted Calls)) : Bool :=
  match Request.measure.work unlaunched.noted b with
  | .ok _ _ => false
  | .error e b' => !e.isStalled && b'.program.stats.measurements == 1 &&
    b'.world.tools.notes.countP Note.isMeasure == 2

theorem launched?_missesMeasurement : launched?.any missesMeasurement = true := by decide +kernel

theorem exists_missed : ∃ (b : Bench (Noted Calls)) (looks : List LookUp),
    Served unlaunched b looks ∧ b.program.stats.measurements = 1 ∧
    b.world.tools.notes.countP Note.isMeasure = 2 := by
  obtain ⟨b, hb, hv⟩ := (Option.any_eq_true ..).1 launched?_missesMeasurement
  have served : ∃ looks, Served unlaunched b looks := by
    unfold launched? at hb
    split at hb
    · rename_i p w ho
      cases hb
      exact ⟨_, .opened rfl ho⟩
    · cases hb
  obtain ⟨looks, served⟩ := served
  unfold missesMeasurement at hv
  split at hv
  · cases hv
  · rename_i e b' hs
    simp only [Bool.and_eq_true, Bool.not_eq_true', beq_iff_eq] at hv
    have next := served.request .measure fun e' b'' h => by
      rw [hs] at h
      cases h
      exact hv.1.1
    rw [Work.after_of_error hs] at next
    exact ⟨b', _, next, hv.1.2, hv.2⟩

/-- A call of the profiler that ends in an error is not counted. -/
theorem counters_may_miss : ¬∀ (tc : Toolchain Calls) (b : Bench (Noted Calls))
    (looks : List LookUp), Served tc b looks →
    b.program.stats.measurements = b.world.tools.notes.countP Note.isMeasure := by
  intro h
  obtain ⟨b, looks, served, counted, called⟩ := exists_missed
  have same := h unlaunched b looks served
  rw [counted, called] at same
  cases same

theorem counters_exact_iff_answered_missed : ∃ (b : Bench (Noted Calls)) (looks : List LookUp),
    Served unlaunched b looks ∧ Note.settled unlaunched.transient 0 b.world.tools.notes = 1 ∧
    ¬Note.AllAnswered b.world.tools.notes := by
  obtain ⟨b, looks, served, counted, called⟩ := exists_missed
  obtain ⟨-, -, -, measurements, -, exact_iff⟩ := counters_exact_iff_answered served
  refine ⟨b, looks, served, measurements.symm.trans counted, fun answered => ?_⟩
  have same := (exact_iff.2 answered).1
  rw [counted, called] at same
  cases same

end Program

end PassTuner
