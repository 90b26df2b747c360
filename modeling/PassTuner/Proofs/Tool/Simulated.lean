import PassTuner.Proofs.Measurement.Printing
import PassTuner.Proofs.Tool.Conduct
import PassTuner.Proofs.Tool.Remarks
import PassTuner.Program.Measure

/-!
# What a simulated toolchain makes

A simulated toolchain is tidy: it copies code to objects and executables, and applies passes to
texts. Main statements: what passes make of a source, up to its executable, is the source with the
passes applied; and a measurement that is read says how many passes there are, how long the text is,
and what it costs.
-/

namespace PassTuner

namespace Tool

variable {σ : Type} {making : Making} {call : (input output : String) → Tool σ ToolOutput}

/-- How a call may end that reads its input before it writes its output. -/
inductive Writes (making : Making) (call : (input output : String) → Tool σ ToolOutput)
    (input output : String) (w : World σ) : Prop where
  | refused (o : ToolOutput) : o.succeeded = false → call input output w = .ok o w →
      Writes making call input output w
  | broken (e : ToolError) : call input output w = .error e w → Writes making call input output w
  | written (content made : ByteArray) (disk : Disk) : w.disk.read input = .ok content →
      w.disk.write output made = .ok disk → making content (.ok made) →
      call input output w = .ok (.ok "") { w with disk } → Writes making call input output w

theorem keeps_of_writes (h : ∀ input output w, Writes making call input output w)
    (failure : ∀ content cause, making content (.error cause)) : Keeps making call where
  changed := by
    intro input output w
    unfold Tool.after
    cases h input output w with
    | refused o _ hcall => rw [hcall]; exact Disk.ChangedOnly.refl _ _
    | broken e hcall => rw [hcall]; exact Disk.ChangedOnly.refl _ _
    | written content made disk _ hwrite _ hcall =>
      rw [hcall]
      obtain ⟨p, hp, rfl⟩ := Disk.leads_of_write hwrite
      refine (Disk.changedOnly_put hp.apart made).mono ?_
      rintro q rfl
      exact hp
  made := by
    intro input output w o w' hok hs
    cases h input output w with
    | refused o' failed hcall =>
      rw [hcall] at hok
      cases hok
      rw [failed] at hs
      cases hs
    | broken e hcall =>
      rw [hcall] at hok
      cases hok
    | written content made disk hread hwrite hmaking hcall =>
      rw [hcall] at hok
      cases hok
      obtain ⟨p, hp, rfl⟩ := Disk.leads_of_write hwrite
      exact ⟨content, p, made, hread, hp, Disk.get?_put_same _ hp.ne_root _, hmaking⟩
  refused _ _ _ _ := failure _ _
  broken _ _ _ := failure _ _

variable {w : World σ} {input output : String}

theorem readText_bind {α : Type} (k : String → Tool σ α) : (readText input >>= k) w =
    match w.disk.readText input with
    | .ok text => k text w
    | .error e => .error (.file input e) w := by
  change EStateM.bind (readText input) k w = _
  unfold EStateM.bind readText
  cases w.disk.readText input <;> rfl

theorem write_bind (made : ByteArray) :
    (write output made >>= fun _ => pure (ToolOutput.ok "") : Tool σ ToolOutput) w =
      match w.disk.write output made with
      | .ok disk => .ok (ToolOutput.ok "") { w with disk }
      | .error e => .error (.file output e) w := by
  change EStateM.bind (write output made) _ w = _
  unfold EStateM.bind write
  cases w.disk.write output made <;> rfl

theorem read_of_readText {d : Disk} {path text : String} (h : d.readText path = .ok text) :
    d.read path = .ok text.toUTF8 := by
  unfold Disk.readText at h
  split at h
  · cases h
  · rename_i content hread
    split at h
    · rename_i text' hdecode
      cases h
      unfold String.fromUTF8? at hdecode
      split at hdecode
      · cases hdecode
        exact hread
      · cases hdecode
    · cases h

/-- A call that writes what it makes of the text that it reads, if it does not refuse the text. -/
theorem writes_of_text (refusal : String → Option ToolOutput) (make : String → ByteArray)
    (failed : ∀ text o, refusal text = some o → o.succeeded = false)
    (hmaking : ∀ text, making text.toUTF8 (.ok (make text)))
    (hcall : call input output w = (readText input >>= fun text =>
      match refusal text with
      | some o => pure o
      | none => write output (make text) >>= fun _ => pure (ToolOutput.ok "")) w) :
    Writes making call input output w := by
  rw [readText_bind] at hcall
  cases hread : w.disk.readText input with
  | error e =>
    rw [hread] at hcall
    exact .broken _ hcall
  | ok text =>
    rw [hread] at hcall
    cases hr : refusal text with
    | some o =>
      simp only [hr] at hcall
      exact .refused o (failed text o hr) hcall
    | none =>
      simp only [hr, write_bind] at hcall
      cases hwrite : w.disk.write output (make text) with
      | error e =>
        rw [hwrite] at hcall
        exact .broken _ hcall
      | ok disk =>
        rw [hwrite] at hcall
        exact .written _ _ disk (read_of_readText hread) hwrite (hmaking text) hcall

end Tool

namespace Simulation

variable {S : Simulation} {flag : String} {flags : List String} {source c x : ByteArray}
  {text : String}

/-- What a simulated toolchain makes of contents. Nothing is said of what it fails to make. -/
def conduct (S : Simulation) : Conduct where
  transform flag code outcome := ∀ made, outcome = .ok made →
    ∃ text : String, code = text.toUTF8 ∧ made = (applyPass flag text).toUTF8
  compile code outcome := ∀ made, outcome = .ok made → made = code
  link object outcome := ∀ made, outcome = .ok made → made = object
  measure executable outcome := ∀ o, outcome = .ok o → o.succeeded →
    ∃ text : String, executable = text.toUTF8 ∧ o = S.measurement text

theorem keeps_compile (S : Simulation) : Tool.Keeps S.conduct.compile S.toolchain.compile := by
  refine Tool.keeps_of_writes (fun ir object w => ?_) fun _ _ => nofun
  refine Tool.writes_of_text (fun text => if failsToBuild text.toList then
    some (.exited 1 "" "scripted build failure") else none) String.toUTF8 ?_ ?_ ?_
  · intro text o ho
    split at ho
    · cases ho
      rfl
    · cases ho
  · intro text made hmade
    exact (Except.ok.inj hmade).symm
  · change (Tool.readText ir >>= _) w = _
    rw [Tool.readText_bind, Tool.readText_bind]
    cases w.disk.readText ir with
    | error e => rfl
    | ok text => by_cases hf : failsToBuild text.toList <;> simp [hf]

theorem keeps_link (S : Simulation) : Tool.Keeps S.conduct.link S.toolchain.link := by
  refine Tool.keeps_of_writes (fun object executable w => ?_) fun _ _ => nofun
  refine Tool.writes_of_text (fun _ => none) String.toUTF8 (fun _ _ h => by cases h) ?_ rfl
  intro text made hmade
  exact (Except.ok.inj hmade).symm

theorem keeps_transform (S : Simulation) (flag : String) :
    Tool.Keeps (S.conduct.transform flag) (S.toolchain.transform flag) := by
  refine Tool.keeps_of_writes (fun input output w => ?_) fun _ _ => nofun
  by_cases hf : flag ∈ S.failingFlags
  · refine .refused (.exited 1 "" s!"opt: unknown pass {flag}") rfl ?_
    change (if flag ∈ S.failingFlags then _ else _ : Tool Nat ToolOutput) w = _
    rw [if_pos hf]
    rfl
  · refine Tool.writes_of_text (fun _ => none) (fun text => (applyPass flag text).toUTF8)
      (fun _ _ h => by cases h) ?_ ?_
    · intro text made hmade
      exact ⟨text, rfl, (Except.ok.inj hmade).symm⟩
    · change (if flag ∈ S.failingFlags then _ else _ : Tool Nat ToolOutput) w = _
      rw [if_neg hf]

theorem measure_eq (S : Simulation) (executable : String) (w : World Nat) :
    S.toolchain.measure executable w = match w.tools with
      | busy + 1 => .ok (.exited 12 "" "time: cannot fork: Cannot allocate memory")
          { w with tools := busy }
      | 0 => match w.disk.readText executable with
        | .ok text => .ok (S.measurement text) w
        | .error e => .error (.file executable e) w := by
  have hdef : S.toolchain.measure executable w = (match w.tools with
      | busy + 1 => ((modify fun w : World Nat => { w with tools := busy } : Tool Nat Unit) >>=
          fun _ => pure (.exited 12 "" "time: cannot fork: Cannot allocate memory") :
            Tool Nat ToolOutput)
      | 0 => Tool.readText executable >>= fun text => pure (S.measurement text)) w := rfl
  rw [hdef]
  cases w.tools with
  | zero => exact Tool.readText_bind _
  | succ busy => rfl

theorem watches_measure (S : Simulation) :
    Tool.Watches S.conduct.measure S.toolchain.measure where
  changed := by
    intro executable w
    unfold Tool.after
    rw [measure_eq]
    cases w.tools with
    | zero => cases w.disk.readText executable <;> exact Disk.ChangedOnly.refl _ _
    | succ busy => exact Disk.ChangedOnly.refl _ _
  answered := by
    intro executable w o w' content h hread o' ho hs
    cases ho
    rw [measure_eq] at h
    cases hbusy : w.tools with
    | zero =>
      simp only [hbusy] at h
      cases htext : w.disk.readText executable with
      | error e =>
        rw [htext] at h
        cases h
      | ok text =>
        rw [htext] at h
        cases h
        rw [Tool.read_of_readText htext] at hread
        exact ⟨text, (Except.ok.inj hread).symm, rfl⟩
    | succ busy =>
      simp only [hbusy] at h
      cases h
      cases hs
  broken := by
    intro _ _ _ _ _ _ _ o ho
    cases ho

theorem tidy (S : Simulation) : S.toolchain.Tidy S.conduct where
  transform := S.keeps_transform
  compile := S.keeps_compile
  link := S.keeps_link
  measure := S.watches_measure

/-! ## What passes make of a source -/

theorem derived_passed (h : S.conduct.Derived text.toUTF8 flags c) :
    c = (passed text flags).toUTF8 := by
  induction h with
  | base => rfl
  | @step flags flag code made _ htransform ih =>
    obtain ⟨before, hbefore, hmade⟩ := htransform made rfl
    rw [ih] at hbefore
    rw [hmade, ← String.toByteArray_inj.1 hbefore, passed, passed, List.foldl_append]
    rfl

theorem assembled_copy (h : S.conduct.Assembled c x) : x = c := by
  obtain ⟨object, hcompile, hlink⟩ := h
  rw [hlink x rfl, hcompile object rfl]

/-! ## What is read of a measurement -/

/-- The row that a measurement prints. -/
def row (text : String) (cost : Float) : List Char :=
  Notation.digitsOf (appliedLines text.toList).length ++
    ' ' :: (Notation.digitsOf text.utf8ByteSize ++ ' ' :: ((floatText cost).toList ++ [' ', '0']))

theorem row_solid (text : String) (cost : Float) : 'S' ∉ row text cost := by
  have count (n : ℕ) : 'S' ∉ Notation.digitsOf n := fun mem =>
    (NumberChar.solid (.inl (Numeral.digits_digitsOf n _ mem))).2 rfl
  have number : 'S' ∉ (floatText cost).toList := fun mem =>
    (numberChar_floatText cost _ mem).solid.2 rfl
  simp [row, count, number]

theorem framed?_row (text : String) (cost : Float) : MeasurementRecord.framed? "SYMVEC".toList
    ("SYMVEC".toList ++ (row text cost ++ "SYMVEC".toList)) = some (row text cost) := by
  have head : 'S' ∈ "SYMVEC".toList := by decide
  have inner : ¬"SYMVEC".toList <:+: row text cost := fun h =>
    row_solid text cost (h.subset head)
  have outer : ¬"SYMVEC".toList <:+: ([] : List Char) := by decide
  simpa only [List.nil_append, List.append_nil] using
    MeasurementRecord.framed?_framed MeasurementRecord.unbordered_marker (by decide) outer inner []

theorem fields_row (text : String) (cost : Float) : Text.fields (row text cost) =
    [Notation.digitsOf (appliedLines text.toList).length, Notation.digitsOf text.utf8ByteSize,
      (floatText cost).toList, ['0']] := by
  have step {word rest : List Char} (h : Text.Word word) :
      Text.fields (word ++ ' ' :: rest) = word :: Text.fields rest := by
    have broken : Text.Broken (' ' :: rest) := rfl
    rw [Text.fields_word h broken, Text.fields_cons_blank _ rfl]
  unfold row
  rw [step (word_digitsOf _), step (word_digitsOf _), step (word_floatText cost)]
  rfl

theorem ofFields_row (text : String) (cost : Float) :
    MeasurementRecord.ofFields (Text.fields (row text cost)) =
      .ok ⟨[Observation.feature (nearestFloat false (appliedLines text.toList).length 0),
        Observation.feature (nearestFloat false text.utf8ByteSize 0)], 0 + cost + 0⟩ := by
  rw [MeasurementRecord.ofFields_eq_ok_iff, fields_row]
  refine ⟨[nearestFloat false (appliedLines text.toList).length 0,
    nearestFloat false text.utf8ByteSize 0], cost, nearestFloat false 0 0, ?_, ?_⟩
  · have zero : parseFloat? ['0'] = some (nearestFloat false 0 0) := parseFloat?_digitsOf 0
    simp [parseFloat?_digitsOf, parseFloat?_floatText, zero]
  · have zero : nearestFloat false 0 0 = 0 := rfl
    rw [zero]
    rfl

theorem measurement_of_succeeded (h : (S.measurement text).succeeded) :
    ∃ cost, S.cost text.toList = .ok cost ∧ (S.measurement text).stdout = "" ∧
      (S.measurement text).stderr.toList =
        "SYMVEC".toList ++ (row text cost ++ "SYMVEC".toList) := by
  unfold measurement at h ⊢
  dsimp only at h ⊢
  split at h
  · cases h
  · rename_i crash
    rw [if_neg crash]
    split at h
    · cases h
    · rename_i cost hcost
      have last : " 0SYMVEC".toList = ' ' :: '0' :: "SYMVEC".toList := by decide
      have blank : " ".toList = [' '] := by decide
      refine ⟨cost, hcost, rfl, ?_⟩
      change ("SYMVEC" ++ Nat.repr (appliedLines text.toList).length ++ " " ++
        Nat.repr text.utf8ByteSize ++ " " ++ floatText cost ++ " 0SYMVEC").toList = _
      unfold row Notation.digitsOf
      simp only [String.toList_append, last, blank, List.append_assoc, List.cons_append,
        List.nil_append]

theorem read_measurement {record : MeasurementRecord}
    (h : Program.readMeasurement S.toolchain (S.measurement text) = .ok record) :
    ∃ cost, S.cost text.toList = .ok cost ∧
      record.state = [Observation.feature (nearestFloat false (appliedLines text.toList).length 0),
        Observation.feature (nearestFloat false text.utf8ByteSize 0)] ∧
      record.cost = 0 + cost + 0 := by
  unfold Program.readMeasurement at h
  split at h
  case isFalse => cases h
  rename_i hs
  obtain ⟨cost, hcost, out, err⟩ := measurement_of_succeeded hs
  have nonempty : ¬"SYMVEC".toList <:+: ([] : List Char) := by decide
  have hread : MeasurementRecord.ofOutput S.toolchain.marker (S.measurement text) =
      .ok ⟨[Observation.feature (nearestFloat false (appliedLines text.toList).length 0),
        Observation.feature (nearestFloat false text.utf8ByteSize 0)], 0 + cost + 0⟩ := by
    change MeasurementRecord.ofOutput "SYMVEC" (S.measurement text) = _
    rw [MeasurementRecord.ofOutput_eq, out, String.toList_empty, if_neg nonempty,
      MeasurementRecord.ofText_of_framed (err ▸ framed?_row text cost), ofFields_row]
    rfl
  rw [hread] at h
  cases h
  exact ⟨cost, hcost, rfl, rfl⟩

end Simulation

end PassTuner
