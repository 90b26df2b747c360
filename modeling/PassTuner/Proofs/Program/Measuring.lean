import PassTuner.Program.Measure
import PassTuner.Proofs.Program.Ensuring

/-!
# What measuring comes to

Measuring an executable leaves the disk as it is. Its answer is one that the conduct of the tools
allows for the executable, unless it never settled.
-/

namespace PassTuner

namespace Disk

variable {d d' : Disk}

/-- Disks with the same content. -/
abbrev Same (d d' : Disk) : Prop := ChangedOnly (fun _ => False) d d'

theorem Same.get? (h : Same d d') (p : Place) : d'.get? p = d.get? p := ChangedOnly.same h p nofun

theorem Same.follow (h : Same d d') (q : Place) (names : List String) :
    d'.follow q names = d.follow q names := by
  induction names generalizing q with
  | nil => rfl
  | cons name names ih =>
    rw [follow_cons, follow_cons, h.get?, ih, ih]
    cases d.get? (name :: q) with
    | none => cases names <;> rfl
    | some node =>
      cases node with
      | directory => simp only [ih]
      | file content => cases names <;> rfl

theorem Same.read (h : Same d d') (path : String) : d'.read path = d.read path := by
  have hlocate : d'.locate path = d.locate path := by
    simp only [locate, h.home, h.follow]
  simp only [Disk.read, node?, hlocate]

end Disk

namespace Program

variable {σ : Type} {s : Site} {m : Manifest} {v : Variant} {b b' : Bench σ}
  {e : EnvironmentError} {tc : Toolchain σ} {C : Conduct} {executable : String}

theorem settle_succ (tc : Toolchain σ) (v : Variant) (executable : String) (n k : Nat)
    (b : Bench σ) :
    settle tc v executable (n + 1) k b = match tc.measure executable b.world with
      | .error e w => .error (.tool e) { b with world := w }
      | .ok o w =>
        if tc.transient.isTransient o then
          settle tc v executable n (k + 1) { b with world :=
            { w with clock := w.clock + 1000000 * tc.transient.retryDelay } }
        else .ok (o, k) { b with world := w } := by
  change EStateM.bind (Work.ofTool (tc.measure executable)) _ b = _
  unfold EStateM.bind Work.ofTool
  cases tc.measure executable b.world with
  | error e w => rfl
  | ok o w => cases ht : tc.transient.isTransient o <;> simp [ht] <;> rfl

theorem settle_ok (watches : Tool.Watches C.measure tc.measure) {n k : Nat}
    {answer : ToolOutput × Nat} (h : settle tc v executable n k b = .ok answer b') :
    b'.program = b.program ∧ Disk.Same b.world.disk b'.world.disk ∧
    tc.transient.isTransient answer.1 = false ∧
    ∀ x, b.world.disk.read executable = .ok x → C.measure x (.ok answer.1) := by
  induction n generalizing b k with
  | zero => cases h
  | succ n ih =>
    have hchanged := watches.changed executable b.world
    unfold Tool.after at hchanged
    rw [settle_succ] at h
    cases ht : tc.measure executable b.world with
    | error e w => simp [ht] at h
    | ok o w =>
      simp only [ht] at h hchanged
      split at h
      · obtain ⟨hprogram, hsame, htransient, hanswer⟩ := ih h
        refine ⟨hprogram, hchanged.trans hsame, htransient, fun x hx => hanswer x ?_⟩
        rw [← hx]
        exact Disk.Same.read hchanged executable
      · rename_i htransient
        cases h
        exact ⟨rfl, hchanged, by simpa using htransient, fun x hx => watches.answered ht hx⟩

theorem settle_error (watches : Tool.Watches C.measure tc.measure) {n k : Nat}
    (h : settle tc v executable n k b = .error e b') :
    b'.program = b.program ∧ Disk.Same b.world.disk b'.world.disk ∧
    ∀ x, b.world.disk.read executable = .ok x →
      (e = .stalled b.program.name v ∧
        (n = 0 ∨ ∃ o, C.measure x (.ok o) ∧ tc.transient.isTransient o)) ∨
      ∃ cause, e = .tool cause ∧ C.measure x (.error cause) := by
  induction n generalizing b k with
  | zero =>
    cases h
    exact ⟨rfl, Disk.ChangedOnly.refl _ _, fun x _ => .inl ⟨rfl, .inl rfl⟩⟩
  | succ n ih =>
    have hchanged := watches.changed executable b.world
    unfold Tool.after at hchanged
    rw [settle_succ] at h
    cases ht : tc.measure executable b.world with
    | error cause w =>
      simp only [ht] at h hchanged
      cases h
      exact ⟨rfl, hchanged, fun x hx => .inr ⟨cause, rfl, watches.broken ht hx⟩⟩
    | ok o w =>
      simp only [ht] at h hchanged
      split at h
      · rename_i htransient
        obtain ⟨hprogram, hsame, hfails⟩ := ih h
        refine ⟨hprogram, hchanged.trans hsame, fun x hx => ?_⟩
        rcases hfails x (by rw [← hx]; exact Disk.Same.read hchanged executable) with
          ⟨he, _⟩ | hcause
        · exact .inl ⟨he, .inr ⟨o, watches.answered ht hx, htransient⟩⟩
        · exact .inr hcause
      · cases h

theorem runMeasurement_eq (tc : Toolchain σ) (v : Variant) (executable : String) :
    runMeasurement tc v executable = settle tc v executable tc.patience 0 >>= fun settled =>
      Work.now >>= fun takenAt =>
      Work.count (fun s => { s with
        measurements := s.measurements + settled.2 + 1
        transientRetries := s.transientRetries + settled.2 }) >>= fun _ =>
      match readMeasurement tc settled.1 with
      | .ok record => pure { state := record.state, cost := record.cost, takenAt }
      | .error fault => Work.program >>= fun p => throw (.measurementFailed p.name v fault) := rfl

theorem runMeasurement_ok (watches : Tool.Watches C.measure tc.measure) {a : Measurement}
    (h : runMeasurement tc v executable b = .ok a b') :
    b'.program.cache = b.program.cache ∧ Disk.Same b.world.disk b'.world.disk ∧
    ∃ o record, tc.transient.isTransient o = false ∧ readMeasurement tc o = .ok record ∧
      a.state = record.state ∧ a.cost = record.cost ∧ tc.patience ≠ 0 ∧
      ∀ x, b.world.disk.read executable = .ok x → C.measure x (.ok o) := by
  rw [runMeasurement_eq] at h
  obtain ⟨⟨o, k⟩, b₁, hsettle, h⟩ := EStateM.of_bind_ok h
  obtain ⟨hprogram, hsame, htransient, hanswer⟩ := settle_ok watches hsettle
  have hpatience : tc.patience ≠ 0 := by
    intro hzero
    rw [hzero] at hsettle
    cases hsettle
  obtain ⟨takenAt, b₂, hnow, h⟩ := EStateM.of_bind_ok h
  cases hnow
  obtain ⟨_, b₃, hcount, h⟩ := EStateM.of_bind_ok h
  cases hcount
  cases hread : readMeasurement tc o with
  | error fault => simp only [hread] at h; cases h
  | ok record =>
    simp only [hread] at h
    cases h
    exact ⟨by rw [← hprogram], hsame, o, record, htransient, hread, rfl, rfl, hpatience, hanswer⟩

theorem runMeasurement_error (watches : Tool.Watches C.measure tc.measure)
    (h : runMeasurement tc v executable b = .error e b') :
    b'.program.cache = b.program.cache ∧ Disk.Same b.world.disk b'.world.disk ∧
    ∀ x, b.world.disk.read executable = .ok x →
      (e = .stalled b.program.name v ∧
        (tc.patience = 0 ∨ ∃ o, C.measure x (.ok o) ∧ tc.transient.isTransient o)) ∨
      (∃ cause, e = .tool cause ∧ C.measure x (.error cause) ∧ tc.patience ≠ 0) ∨
      ∃ o fault, C.measure x (.ok o) ∧ tc.transient.isTransient o = false ∧
        readMeasurement tc o = .error fault ∧ tc.patience ≠ 0 ∧
        e = .measurementFailed b.program.name v fault := by
  rw [runMeasurement_eq] at h
  rcases EStateM.of_bind_error h with hsettle | ⟨⟨o, k⟩, b₁, hsettle, h⟩
  · obtain ⟨hprogram, hsame, hfails⟩ := settle_error watches hsettle
    refine ⟨by rw [hprogram], hsame, fun x hx => ?_⟩
    rcases hfails x hx with hstalled | ⟨cause, he, hcause⟩
    · exact .inl hstalled
    · by_cases hzero : tc.patience = 0
      · rw [hzero] at hsettle
        cases hsettle
        cases he
      · exact .inr (.inl ⟨cause, he, hcause, hzero⟩)
  obtain ⟨hprogram, hsame, htransient, hanswer⟩ := settle_ok watches hsettle
  have hpatience : tc.patience ≠ 0 := by
    intro hzero
    rw [hzero] at hsettle
    cases hsettle
  rcases EStateM.of_bind_error h with hnow | ⟨takenAt, b₂, hnow, h⟩
  · cases hnow
  cases hnow
  rcases EStateM.of_bind_error h with hcount | ⟨_, b₃, hcount, h⟩
  · cases hcount
  cases hcount
  cases hread : readMeasurement tc o with
  | ok record => simp only [hread] at h; cases h
  | error fault =>
    simp only [hread] at h
    cases h
    exact ⟨by rw [← hprogram], hsame, fun x hx => .inr (.inr ⟨o, fault, hanswer x hx,
      htransient, hread, hpatience, by rw [← hprogram]⟩)⟩

end Program

end PassTuner
