import PassTuner.Measurement.Record
import PassTuner.Proofs.Text.Occurrences

/-!
# Frames of records

What is printed around a measurement record has no influence on it. Main statement: a record is read
as if it stood alone, between the first marker and the next or the end; it is accepted just when it
consists of at least two fields and all are numbers, and the numbers are then found again in the
measurement; and an output is read from one of its streams only.
-/

namespace PassTuner.MeasurementRecord

open Text

theorem framed?_framed {marker before body : List Char} (unbordered : Unbordered marker)
    (hne : marker ≠ []) (hbefore : ¬marker <:+: before) (hbody : ¬marker <:+: body)
    (after : List Char) :
    framed? marker (before ++ (marker ++ (body ++ (marker ++ after)))) = some body := by
  rw [framed?, second_splitOn hne, cut?_append unbordered hne hbefore]
  simp [cut?_append unbordered hne hbody]

theorem framed?_open {marker before body : List Char} (unbordered : Unbordered marker)
    (hne : marker ≠ []) (hbefore : ¬marker <:+: before) (hbody : ¬marker <:+: body) :
    framed? marker (before ++ (marker ++ body)) = some body := by
  rw [framed?, second_splitOn hne, cut?_append unbordered hne hbefore]
  simp [cut?_eq_none_iff.2 hbody]

theorem framed?_eq_none_iff {marker text : List Char} (hne : marker ≠ []) :
    framed? marker text = none ↔ ¬marker <:+: text := by
  rw [framed?, second_splitOn hne, Option.map_eq_none_iff, cut?_eq_none_iff]

/-! ## Fields -/

theorem numbers_eq_ok_iff {fields : List (List Char)} {xs : List Float} :
    numbers fields = .ok xs ↔ fields.map parseFloat? = xs.map some := by
  induction fields generalizing xs with
  | nil => cases xs <;> simp [numbers]
  | cons field rest ih =>
    rw [numbers]
    cases h : parseFloat? field with
    | none => cases xs <;> simp [h]
    | some x =>
      cases xs with
      | nil => cases numbers rest <;> simp [Except.map]
      | cons y ys =>
        simp only [List.map_cons, h, List.cons.injEq, Option.some.injEq, ← ih]
        cases numbers rest <;> simp [Except.map]

/-- A row is accepted just when its fields are numbers, which are the features and two seconds. -/
theorem ofFields_eq_ok_iff {fields : List (List Char)} {record : MeasurementRecord} :
    ofFields fields = .ok record ↔ ∃ features system user,
      fields.map parseFloat? = (features ++ [system, user]).map some ∧
        record = ⟨features.map Observation.feature, 0 + system + user⟩ := by
  rw [ofFields]
  split
  · rename_i short
    simp only [reduceCtorEq, false_iff, not_exists, not_and]
    intro features system user parsed
    have := congrArg List.length parsed
    simp only [List.length_map, List.length_append, List.length_cons, List.length_nil] at this
    omega
  · rename_i long
    have two : (fields.drop (fields.length - 2)).length = 2 := by
      rw [List.length_drop]
      omega
    have cut := List.take_append_drop (fields.length - 2) fields
    constructor
    · intro h
      split at h
      · cases h
      · rename_i features hfeatures
        split at h
        · cases h
        · rename_i seconds hseconds
          cases h
          rw [numbers_eq_ok_iff] at hfeatures hseconds
          have count := congrArg List.length hseconds
          rw [List.length_map, List.length_map, two] at count
          obtain ⟨system, user, rfl⟩ := List.length_eq_two.1 count.symm
          refine ⟨features, system, user, ?_, rfl⟩
          rw [← cut, List.map_append, hfeatures, hseconds, List.map_append]
    · rintro ⟨features, system, user, parsed, rfl⟩
      have count := congrArg List.length parsed
      simp only [List.length_map, List.length_append, List.length_cons, List.length_nil] at count
      have hfeatures : numbers (fields.take (fields.length - 2)) = .ok features := by
        rw [numbers_eq_ok_iff, List.map_take, parsed, ← List.map_take]
        simp [show fields.length - 2 = features.length by omega]
      have hseconds : numbers (fields.drop (fields.length - 2)) = .ok [system, user] := by
        rw [numbers_eq_ok_iff, List.map_drop, parsed, ← List.map_drop]
        simp [show fields.length - 2 = features.length by omega]
      rw [hfeatures, hseconds]
      rfl

/-- All fields of a row are numbers and there are two at its end. -/
theorem parsed_iff {fields : List (List Char)} :
    (∃ features system user, fields.map parseFloat? = (features ++ [system, user]).map some) ↔
      2 ≤ fields.length ∧ ∀ field ∈ fields, (parseFloat? field).isSome := by
  constructor
  · rintro ⟨features, system, user, parsed⟩
    refine ⟨?_, fun field mem => ?_⟩
    · have := congrArg List.length parsed
      simp only [List.length_map, List.length_append, List.length_cons, List.length_nil] at this
      omega
    · have : parseFloat? field ∈ fields.map parseFloat? := List.mem_map_of_mem mem
      rw [parsed] at this
      obtain ⟨x, -, hx⟩ := List.mem_map.1 this
      simp [← hx]
  · rintro ⟨two, all⟩
    obtain ⟨xs, hxs⟩ : ∃ xs : List Float, fields.map parseFloat? = xs.map some := by
      refine ⟨fields.filterMap parseFloat?, ?_⟩
      clear two
      induction fields with
      | nil => rfl
      | cons field rest ih =>
        obtain ⟨x, hx⟩ := Option.isSome_iff_exists.1 (all field (by simp))
        simp [hx, ih fun f hf => all f (by simp [hf])]
    have count : xs.length = fields.length := by
      simpa using (congrArg List.length hxs).symm
    obtain ⟨system, user, hlast⟩ := List.length_eq_two.1
      (show (xs.drop (xs.length - 2)).length = 2 by rw [List.length_drop]; omega)
    refine ⟨xs.take (xs.length - 2), system, user, ?_⟩
    rw [hxs, ← hlast, List.take_append_drop]

/-! ## Records in a text -/

/-- The marker that the profiler prints cannot overlap with itself. -/
theorem unbordered_marker : Unbordered "SYMVEC".toList := by decide

theorem ofText_of_framed {marker text : String} {body : List Char}
    (h : framed? marker.toList text.toList = some body) :
    ofText marker text = (ofFields (fields body)).mapError
      (.malformed (String.ofList (trim body))) := by
  simp only [ofText, h]
  cases ofFields (fields body) <;> rfl

theorem ofText_eq_missing_iff {marker text : String} (hne : marker.toList ≠ []) (other : String) :
    ofText marker text = .error (.missingMarker other) ↔
      ¬marker.toList <:+: text.toList ∧ other = marker := by
  rw [← framed?_eq_none_iff hne]
  cases h : framed? marker.toList text.toList with
  | none => simp [ofText, h, eq_comm]
  | some body =>
    rw [ofText_of_framed h]
    cases ofFields (fields body) <;> simp [Except.mapError]

/-- An output is read from the stream that is looked at first, unless it has no marker. -/
theorem ofOutput_eq (marker : String) (o : ToolOutput) :
    ofOutput marker o =
      ofText marker (if marker.toList <:+: o.stdout.toList then o.stdout else o.stderr) := by
  by_cases first : marker.toList <:+: o.stdout.toList
  · rw [ofOutput, if_pos (contains_iff.2 first), if_pos first]
  · rw [ofOutput, if_neg (mt contains_iff.1 first), if_neg first]
    by_cases second : marker.toList <:+: o.stderr.toList
    · rw [if_pos (contains_iff.2 second)]
    · have hne : marker.toList ≠ [] := fun empty => second (empty ▸ List.nil_infix)
      rw [if_neg (mt contains_iff.1 second), (ofText_eq_missing_iff hne marker).2 ⟨second, rfl⟩]

/-- A record between a marker and the next marker or the end is read as if nothing else were there,
and an output is read from one stream. -/
theorem records_are_framed (before body after : String)
    (hbefore : ¬"SYMVEC".toList <:+: before.toList) (hbody : ¬"SYMVEC".toList <:+: body.toList) :
    (ofText "SYMVEC" (before ++ "SYMVEC" ++ body ++ "SYMVEC" ++ after) =
        ofText "SYMVEC" ("SYMVEC" ++ body) ∧
      ofText "SYMVEC" (before ++ "SYMVEC" ++ body) = ofText "SYMVEC" ("SYMVEC" ++ body)) ∧
    ((∃ record, ofText "SYMVEC" ("SYMVEC" ++ body) = .ok record) ↔
      2 ≤ (fields body.toList).length ∧
        ∀ field ∈ fields body.toList, (parseFloat? field).isSome) ∧
    (∀ record, ofText "SYMVEC" ("SYMVEC" ++ body) = .ok record ↔ ∃ features system user,
      (fields body.toList).map parseFloat? = (features ++ [system, user]).map some ∧
        record = ⟨features.map Observation.feature, 0 + system + user⟩) ∧
    (∀ text, (∃ record, ofText "SYMVEC" text = .ok record) ∨
      (¬"SYMVEC".toList <:+: text.toList ∧
        ofText "SYMVEC" text = .error (.missingMarker "SYMVEC")) ∨
      ("SYMVEC".toList <:+: text.toList ∧
        ∃ record fault, ofText "SYMVEC" text = .error (.malformed record fault))) ∧
    ∀ o : ToolOutput, ofOutput "SYMVEC" o =
      ofText "SYMVEC" (if "SYMVEC".toList <:+: o.stdout.toList then o.stdout else o.stderr) := by
  have hne : "SYMVEC".toList ≠ [] := by decide
  have alone : framed? "SYMVEC".toList ("SYMVEC" ++ body).toList = some body.toList := by
    have nothing : ¬"SYMVEC".toList <:+: [] := by decide
    have h := framed?_open unbordered_marker hne nothing hbody
    rwa [List.nil_append, ← String.toList_append] at h
  have closed : framed? "SYMVEC".toList (before ++ "SYMVEC" ++ body ++ "SYMVEC" ++ after).toList =
      some body.toList := by
    have h := framed?_framed unbordered_marker hne hbefore hbody after.toList
    simpa only [String.toList_append, List.append_assoc] using h
  have unclosed : framed? "SYMVEC".toList (before ++ "SYMVEC" ++ body).toList =
    some body.toList := by
    have h := framed?_open unbordered_marker hne hbefore hbody
    simpa only [String.toList_append, List.append_assoc] using h
  have accepted (record : MeasurementRecord) : ofText "SYMVEC" ("SYMVEC" ++ body) = .ok record ↔
      ofFields (fields body.toList) = .ok record := by
    rw [ofText_of_framed alone]
    cases ofFields (fields body.toList) <;> simp [Except.mapError]
  refine ⟨⟨?_, ?_⟩, ?_, fun record => ?_, fun text => ?_, ofOutput_eq _⟩
  · rw [ofText_of_framed closed, ofText_of_framed alone]
  · rw [ofText_of_framed unclosed, ofText_of_framed alone]
  · rw [← parsed_iff]
    simp only [accepted, ofFields_eq_ok_iff]
    constructor
    · rintro ⟨_, features, system, user, parsed, -⟩
      exact ⟨features, system, user, parsed⟩
    · rintro ⟨features, system, user, parsed⟩
      exact ⟨_, features, system, user, parsed, rfl⟩
  · rw [accepted, ofFields_eq_ok_iff]
  · have missing (other : String) : ofText "SYMVEC" text = .error (.missingMarker other) ↔
        ¬"SYMVEC".toList <:+: text.toList ∧ other = "SYMVEC" := ofText_eq_missing_iff hne other
    cases h : ofText "SYMVEC" text with
    | ok record => exact .inl ⟨record, rfl⟩
    | error e =>
      cases e with
      | missingMarker other =>
        obtain ⟨absent, rfl⟩ := (missing other).1 h
        exact .inr (.inl ⟨absent, rfl⟩)
      | malformed record fault =>
        refine .inr (.inr ⟨by_contra fun absent => ?_, record, fault, rfl⟩)
        cases h.symm.trans ((missing "SYMVEC").2 ⟨absent, rfl⟩)

/-- The noise in front begins like the marker, and what follows the record has a frame of its own.
-/
theorem records_are_framed_noisy :
    (¬"SYMVEC".toList <:+: "SYMV".toList ∧ ¬"SYMVEC".toList <:+: "1 2.9 0.25 inf".toList) ∧
      ofText "SYMVEC" ("SYMV" ++ "SYMVEC" ++ "1 2.9 0.25 inf" ++ "SYMVEC" ++ "EC SYMVEC7SYMVEC") =
        ofText "SYMVEC" ("SYMVEC" ++ "1 2.9 0.25 inf") ∧
      ∃ record, ofText "SYMVEC" ("SYMVEC" ++ "1 2.9 0.25 inf") = .ok record := by
  have hbefore : ¬"SYMVEC".toList <:+: "SYMV".toList := by decide
  have hbody : ¬"SYMVEC".toList <:+: "1 2.9 0.25 inf".toList := by decide
  have framed := records_are_framed "SYMV" "1 2.9 0.25 inf" "EC SYMVEC7SYMVEC" hbefore hbody
  exact ⟨⟨hbefore, hbody⟩, framed.1.1, framed.2.1.2 (by decide)⟩

end PassTuner.MeasurementRecord
