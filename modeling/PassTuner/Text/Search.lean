/-!
# Searching a text

`cut?` finds the first occurrence of a pattern, and everything else is defined through it. An empty
pattern occurs at every boundary between characters, so it cuts a text into its characters with an
empty piece at either end.
-/

namespace PassTuner.Text

/-- What stands before and after the first occurrence of a pattern. -/
def cut? (pattern : List Char) : List Char → Option (List Char × List Char)
  | [] => if pattern = [] then some ([], []) else none
  | c :: rest =>
    if pattern.isPrefixOf (c :: rest) then some ([], (c :: rest).drop pattern.length)
    else (cut? pattern rest).map fun (before, after) => (c :: before, after)

/-- Nothing is lost at a cut. -/
theorem eq_of_cut? {pattern text before after : List Char}
    (h : cut? pattern text = some (before, after)) : text = before ++ pattern ++ after := by
  induction text generalizing before after with
  | nil =>
    by_cases hp : pattern = [] <;> simp [cut?, hp] at h
    simp [h, hp]
  | cons c rest ih =>
    rw [cut?] at h
    split at h
    · rename_i hp
      simp only [Option.some.injEq, Prod.mk.injEq] at h
      obtain ⟨rfl, rfl⟩ := h
      obtain ⟨t, ht⟩ := List.isPrefixOf_iff_prefix.1 hp
      rw [← ht]
      simp
    · simp only [Option.map_eq_some_iff, Prod.mk.injEq, Prod.exists] at h
      obtain ⟨b, a, hba, rfl, rfl⟩ := h
      simp [ih hba]

def contains (pattern text : List Char) : Bool := (cut? pattern text).isSome

/-- The pieces between the occurrences of a pattern that is not empty, found from the left. -/
def pieces (pattern text : List Char) (nonempty : pattern ≠ []) : List (List Char) :=
  match _h : cut? pattern text with
  | none => [text]
  | some (before, after) => before :: pieces pattern after nonempty
termination_by text.length
decreasing_by
  have := congrArg List.length (eq_of_cut? _h)
  have := List.length_pos_iff.2 nonempty
  simp only [List.length_append] at *
  omega

/-- The pieces between the occurrences of any pattern. -/
def splitOn (pattern text : List Char) : List (List Char) :=
  if h : pattern = [] then [] :: text.map ([·]) ++ [[]] else pieces pattern text h

/-- Every occurrence of the pattern replaced, in one pass. -/
def replace (pattern value text : List Char) : List Char :=
  ((splitOn pattern text).intersperse value).flatten

/-- The rest of a text behind a beginning that it must have. -/
def stripStart? (start text : List Char) : Option (List Char) :=
  if start.isPrefixOf text then some (text.drop start.length) else none

end PassTuner.Text
