import Mathlib.Data.List.Forall2
import PassTuner.Proofs.Program.Ensuring
import PassTuner.Proofs.Tool.Determinism

/-!
# Toolchains in accord

Twins are programs that differ in what was counted for them and, where the clocks do not matter, in
the times of their measurements, and in nothing else. Two toolchains are in accord on related
benches with twins on them if they come to the same wherever work calls a tool or reads a file.
Main statement: then every operation comes to the same with both of them, and leaves related benches
again. Errors of some kind may be exempt, after which nothing is known of the second bench.
-/

namespace EStateM

variable {ε S T α β γ δ : Type} {exempt : ε → Prop} {J : S → T → Prop} {A : α → β → Prop}
  {B : γ → δ → Prop} {x : EStateM ε S α} {y : EStateM ε T β} {f : α → EStateM ε S γ}
  {g : β → EStateM ε T δ}

/-- Computations with ends that match from any two related states on, unless the first ends in an
error that is exempt. -/
def Tracks (exempt : ε → Prop) (J : S → T → Prop) (A : α → β → Prop) (x : EStateM ε S α)
    (y : EStateM ε T β) : Prop :=
  ∀ s t, J s t → (∀ e s', x s = .error e s' → ¬exempt e) → (x s).Matched J A (y t)

theorem InStep.tracks (h : InStep J A x y) : Tracks exempt J A x y := fun s t hj _ => h s t hj

theorem Tracks.inStep (h : Tracks (fun _ => False) J A x y) : InStep J A x y :=
  fun s t hj => h s t hj fun _ _ _ => id

theorem tracks_pure {a : α} {b : β} (h : A a b) :
    Tracks exempt J A (pure a : EStateM ε S α) (pure b : EStateM ε T β) := (inStep_pure h).tracks

theorem tracks_throw (e : ε) :
    Tracks exempt J A (throw e : EStateM ε S α) (throw e : EStateM ε T β) := (inStep_throw e).tracks

theorem Tracks.bind (first : Tracks exempt J A x y)
    (second : ∀ a b, A a b → Tracks exempt J B (f a) (g b)) :
    Tracks exempt J B (x >>= f) (y >>= g) := by
  intro s t hj spared
  have before := first s t hj fun e s' hx => spared e s' (bind_of_error hx f)
  refine before.bind fun a b s' t' hx hab hj' => ?_
  exact second a b hab s' t' hj' fun e s'' hf => spared e s'' ((bind_of_ok hx f).trans hf)

end EStateM

namespace PassTuner

open EStateM (Tracks tracks_pure tracks_throw)

variable {σ τ α : Type}

section Lists

variable {β : Type} {R : α → β → Prop} {xs : List α} {ys : List β}

theorem rel_getElem? (h : List.Forall₂ R xs ys) (i : Nat) : Option.Rel R xs[i]? ys[i]? := by
  induction h generalizing i with
  | nil => exact .none
  | cons hab _ ih =>
    cases i with
    | zero => exact .some hab
    | succ i => exact ih i

theorem forall₂_set (h : List.Forall₂ R xs ys) {a : α} {b : β} (hab : R a b) (i : Nat) :
    List.Forall₂ R (xs.set i a) (ys.set i b) := by
  induction h generalizing i with
  | nil => exact .nil
  | cons hxy hrest ih =>
    cases i with
    | zero => exact .cons hab hrest
    | succ i => exact .cons hxy (ih i)

end Lists

/-- The same measurement, and of the same age where ages matter. -/
structure Measurement.Twins (lag : Option Int) (m n : Measurement) : Prop where
  state : n.state = m.state
  cost : n.cost = m.cost
  takenAt : Lags lag m.takenAt n.takenAt

theorem Measurement.map_of_twins {lag : Option Int} {f : Measurement → α}
    (hf : ∀ m n, Twins lag m n → f n = f m) {m n : Option Measurement}
    (h : Option.Rel (Twins lag) m n) : n.map f = m.map f := by
  cases h with
  | none => rfl
  | some hm => exact congrArg some (hf _ _ hm)

namespace Program

structure Twins (lag : Option Int) (p q : Program) : Prop where
  name : q.name = p.name
  source : q.source = p.source
  cache : q.cache = p.cache
  settings : q.settings = p.settings
  lineage : q.lineage = p.lineage
  stage : q.stage = p.stage
  base : Option.Rel (Measurement.Twins lag) p.base q.base
  current : Option.Rel (Measurement.Twins lag) p.current q.current

/-- The same program with another lineage or other measurements of it. -/
structure Moved (p q : Program) : Prop where
  name : q.name = p.name
  source : q.source = p.source
  cache : q.cache = p.cache
  settings : q.settings = p.settings
  stats : q.stats = p.stats

variable {p q : Program} {lag : Option Int}

theorem Twins.state? (h : Twins lag p q) : q.state? = p.state? :=
  Measurement.map_of_twins (fun _ _ hm => hm.state) h.current

theorem Twins.cost? (h : Twins lag p q) : q.cost? = p.cost? :=
  Measurement.map_of_twins (fun _ _ hm => hm.cost) h.current

theorem Twins.baseCost? (h : Twins lag p q) : q.baseCost? = p.baseCost? :=
  Measurement.map_of_twins (fun _ _ hm => hm.cost) h.base

theorem Twins.measuredCost? (h : Twins lag p q) : q.measuredCost? = p.measuredCost? := by
  simp only [Program.measuredCost?, h.stage, h.cost?]

theorem Twins.baseIsFresh {now now' : Nat} (h : Twins lag p q)
    (hage : p.settings.baseMaxAge.isSome → lag.isSome) (hclock : Lags lag now now') :
    Program.baseIsFresh q now' = Program.baseIsFresh p now := by
  have hbase := h.base
  unfold Program.baseIsFresh
  rw [h.settings]
  generalize p.base = m, q.base = n at hbase
  cases hbase with
  | none => rfl
  | @some m n hm =>
    cases hmax : p.settings.baseMaxAge with
    | none => rfl
    | some seconds =>
      obtain ⟨δ, hδ⟩ := Option.isSome_iff_exists.1 (hage (by rw [hmax]; rfl))
      have hsame : now' - n.takenAt = now - m.takenAt := by
        have := hm.takenAt δ hδ
        have := hclock δ hδ
        omega
      simp only [hsame]

end Program

/-- The bench when the clock was read. -/
def Bench.later (b : Bench σ) : Bench σ :=
  { b with world := { b.world with clock := b.world.clock + 1 } }

/-- The bench with a hit counted. -/
def Bench.hit (b : Bench σ) : Bench σ :=
  { b with program := { b.program with
    stats := { b.program.stats with cacheHits := b.program.stats.cacheHits + 1 } } }

/-- What work asks of tools, files and the clock comes to the same on related benches. -/
structure Accord (exempt : EnvironmentError → Prop) (lag : Option Int)
    (J : Bench σ → Bench τ → Prop) (tc : Toolchain σ) (tc' : Toolchain τ) : Prop where
  twins : ∀ {b b'}, J b b' → Program.Twins lag b.program b'.program
  moved : ∀ {b b' q q'}, J b b' → b.program.Moved q → b'.program.Moved q' →
    Program.Twins lag q q' → J { b with program := q } { b' with program := q' }
  hit : ∀ {b b'}, J b b' → J b.hit b'.hit
  later : ∀ {b b'}, J b b' → J b.later b'.later
  fresh : ∀ {b b'}, J b b' → Program.baseIsFresh b'.program b'.world.clock =
    Program.baseIsFresh b.program b.world.clock
  lookup : ∀ {b b'}, J b b' → ∀ v,
    b.program.cache.lookup b'.world.disk v = b.program.cache.lookup b.world.disk v
  isFile : ∀ {b b'}, J b b' → ∀ v, b'.world.disk.isFile (b.program.cache.artifacts v).ir =
    b.world.disk.isFile (b.program.cache.artifacts v).ir
  transforming : ∀ v flag, Tracks exempt J Eq (Program.transformInto tc v flag)
    (Program.transformInto tc' v flag)
  assembling : ∀ {b b'}, J b b' → ∀ v, Tracks exempt J Eq
    (Program.assembleAside tc v b.program.name) (Program.assembleAside tc' v b.program.name)
  measuring : ∀ {b b'}, J b b' → ∀ u v, Tracks exempt J (Measurement.Twins lag)
    (Program.runMeasurement tc u (b.program.cache.artifacts v).executable)
    (Program.runMeasurement tc' u (b.program.cache.artifacts v).executable)

/-- The artifacts of a variant, in both benches. -/
def AgreedArtifacts (J : Bench σ → Bench τ → Prop) (v : Variant) (a a' : Artifacts) : Prop :=
  a' = a ∧ ∃ b b', J b b' ∧ a = b.program.cache.artifacts v

namespace Accord

open Program (build measure reset step standingCost advance ensureBuilt rebuild runMeasurement)

variable {exempt : EnvironmentError → Prop} {lag : Option Int} {J : Bench σ → Bench τ → Prop}
  {tc : Toolchain σ} {tc' : Toolchain τ} {β : Type} {A : α → β → Prop}

/-- Work that goes on from what the programs are. -/
theorem tracks_reading {f : Program → Work σ α} {g : Program → Work τ β}
    (h : ∀ b b', J b b' → Tracks exempt J A (f b.program) (g b'.program)) :
    Tracks exempt J A (Work.program >>= f) (Work.program >>= g) :=
  fun b b' hb spared => h b b' hb b b' hb spared

theorem tracks_move (h : Accord exempt lag J tc tc') {f g : Program → Program}
    (hf : ∀ p, Program.Moved p (f p)) (hg : ∀ q, Program.Moved q (g q))
    (twins : ∀ p q, Program.Twins lag p q → Program.Twins lag (f p) (g q)) :
    Tracks exempt J Eq (Work.modifyProgram f : Work σ Unit) (Work.modifyProgram g) :=
  fun _ _ hb _ => .ok rfl (h.moved hb (hf _) (hg _) (twins _ _ (h.twins hb)))

/-! ## Building -/

theorem tracks_rebuild (h : Accord exempt lag J tc tc') (v : Variant) (flag : Option String) :
    Tracks exempt J (AgreedArtifacts J v) (rebuild tc v flag) (rebuild tc' v flag) := by
  intro b b' hb spared
  have twins := h.twins hb
  have assembled : Tracks exempt J (AgreedArtifacts J v)
      (Program.assembleAside tc v b.program.name >>= fun _ =>
        pure (b.program.cache.artifacts v) : Work σ Artifacts)
      (Program.assembleAside tc' v b'.program.name >>= fun _ =>
        pure (b'.program.cache.artifacts v)) := by
    rw [twins.name, twins.cache]
    exact (h.assembling hb v).bind fun _ _ _ => tracks_pure ⟨rfl, b, b', hb, rfl⟩
  cases flag with
  | some flag =>
    rw [Program.rebuild_some] at spared ⊢
    rw [Program.rebuild_some]
    exact (h.transforming v flag).bind (fun _ _ _ => assembled) b b' hb spared
  | none =>
    have code : b'.world.disk.isFile (b'.program.cache.artifacts v).ir =
        b.world.disk.isFile (b.program.cache.artifacts v).ir := by
      rw [twins.cache, h.isFile hb v]
    rw [Program.rebuild_none] at spared ⊢
    rw [Program.rebuild_none, code]
    split
    · rename_i found
      rw [if_pos found] at spared
      exact assembled b b' hb spared
    · rw [twins.cache]
      exact .error _ hb

theorem tracks_ensureBuilt (h : Accord exempt lag J tc tc') (v : Variant) (flag : Option String) :
    Tracks exempt J (AgreedArtifacts J v) (ensureBuilt tc v flag) (ensureBuilt tc' v flag) := by
  intro b b' hb spared
  rw [Program.ensureBuilt_of] at spared ⊢
  rw [Program.ensureBuilt_of, (h.twins hb).cache, h.lookup hb v]
  cases hlookup : b.program.cache.lookup b.world.disk v with
  | error e => exact .error e hb
  | ok found =>
    cases found with
    | some a => exact .ok ⟨rfl, b, b', hb, Site.eq_artifacts_of_lookup hlookup⟩ (h.hit hb)
    | none =>
      rw [hlookup] at spared
      exact h.tracks_rebuild v flag b b' hb spared

theorem tracks_build (h : Accord exempt lag J tc tc') :
    Tracks exempt J Eq (build tc) (build tc') := by
  refine tracks_reading fun b b' hb => ?_
  rw [(h.twins hb).stage, (h.twins hb).lineage]
  split
  · refine (h.tracks_ensureBuilt b.program.lineage none).bind fun _ _ _ => ?_
    refine h.tracks_move (fun _ => ⟨rfl, rfl, rfl, rfl, rfl⟩)
      (fun _ => ⟨rfl, rfl, rfl, rfl, rfl⟩) ?_
    exact fun p q ht => ⟨ht.name, ht.source, ht.cache, ht.settings, ht.lineage, rfl, ht.base,
      ht.current⟩
  · exact tracks_pure rfl

/-! ## Measuring -/

theorem tracks_measure (h : Accord exempt lag J tc tc') :
    Tracks exempt J (Measurement.Twins lag) (measure tc) (measure tc') := by
  rw [Program.measure_eq, Program.measure_eq]
  refine h.tracks_build.bind fun _ _ _ => tracks_reading fun b b' hb => ?_
  rw [(h.twins hb).lineage, (h.twins hb).cache]
  refine (h.measuring hb b.program.lineage b.program.lineage).bind fun m n hm => ?_
  refine Tracks.bind (A := Eq) ?_ fun _ _ _ => tracks_pure hm
  refine h.tracks_move (fun _ => ⟨rfl, rfl, rfl, rfl, rfl⟩) (fun _ => ⟨rfl, rfl, rfl, rfl, rfl⟩)
    fun p q ht => ?_
  refine ⟨ht.name, ht.source, ht.cache, ht.settings, ht.lineage, rfl, ?_, .some hm⟩
  dsimp only
  rw [ht.lineage]
  split
  · exact .some hm
  · exact ht.base

/-! ## Steps and resets -/

theorem tracks_standingCost (h : Accord exempt lag J tc tc') :
    Tracks exempt J Eq (standingCost tc) (standingCost tc') := by
  refine tracks_reading fun b b' hb => ?_
  rw [(h.twins hb).measuredCost?]
  split
  · exact tracks_pure rfl
  · exact h.tracks_measure.bind fun m n hm => tracks_pure hm.cost.symm

theorem tracks_advance (h : Accord exempt lag J tc tc') (action : ActionId) (flag : String)
    (before : Float) :
    Tracks exempt J Eq (advance tc action flag before) (advance tc' action flag before) := by
  refine tracks_reading fun b b' hb => ?_
  rw [(h.twins hb).lineage, (h.twins hb).name]
  cases b.program.lineage.extend? action with
  | error e => exact tracks_throw _
  | ok v =>
    refine (h.tracks_ensureBuilt v _).bind fun a a' ⟨same, c, c', hc, made⟩ => ?_
    rw [same, made]
    refine (h.measuring hc v v).bind fun m n hm => ?_
    rw [hm.cost]
    split
    · exact tracks_throw _
    · refine Tracks.bind (A := Eq) ?_ fun _ _ _ => tracks_pure rfl
      refine h.tracks_move (fun _ => ⟨rfl, rfl, rfl, rfl, rfl⟩)
        (fun _ => ⟨rfl, rfl, rfl, rfl, rfl⟩) fun p q ht => ?_
      exact ⟨ht.name, ht.source, ht.cache, ht.settings, rfl, rfl, ht.base, .some hm⟩

theorem tracks_step (h : Accord exempt lag J tc tc') (catalog : Catalog) (action : ActionId) :
    Tracks exempt J Eq (step tc catalog action) (step tc' catalog action) := by
  unfold step
  cases catalog.describe action with
  | error e => exact tracks_throw _
  | ok flag =>
    refine h.tracks_standingCost.bind fun before _ same => ?_
    subst same
    exact h.tracks_advance action flag before

theorem tracks_reset (h : Accord exempt lag J tc tc') :
    Tracks exempt J Eq (reset tc) (reset tc') := by
  intro b b' hb spared
  have twins := h.twins hb
  have later := h.later hb
  cases fresh : Program.baseIsFresh b.program b.world.clock with
  | true =>
    rw [Program.reset_of_fresh tc fresh, Program.reset_of_fresh tc' ((h.fresh hb).trans fresh)]
    refine .ok rfl (h.moved later ⟨rfl, rfl, rfl, rfl, rfl⟩ ⟨rfl, rfl, rfl, rfl, rfl⟩ ?_)
    exact ⟨twins.name, twins.source, twins.cache, twins.settings, rfl, rfl, twins.base, twins.base⟩
  | false =>
    rw [Program.reset_of_stale tc fresh] at spared ⊢
    rw [Program.reset_of_stale tc' ((h.fresh hb).trans fresh)]
    refine h.tracks_measure.bind (fun _ _ _ => tracks_pure rfl) _ _
      (h.moved later ⟨rfl, rfl, rfl, rfl, rfl⟩ ⟨rfl, rfl, rfl, rfl, rfl⟩ ?_) spared
    exact ⟨twins.name, twins.source, twins.cache, twins.settings, rfl, rfl, twins.base, .none⟩

end Accord

end PassTuner
