/-!
# Lines

A line feed ends a line and so does a carriage return followed by a line feed; text after the last
line feed is a line of its own unless it is empty. A carriage return anywhere else stays.
-/

namespace PassTuner.Text

/-- One ended line without the carriage return that may stand before its line feed. -/
def dropReturn (line : List Char) : List Char :=
  if line.getLast? = some '\r' then line.dropLast else line

/-- Splits off everything up to the first line feed, which is dropped. -/
def cutLine : List Char → Option (List Char × List Char)
  | [] => none
  | '\n' :: rest => some ([], rest)
  | c :: rest => (cutLine rest).map fun (line, after) => (c :: line, after)

theorem length_of_cutLine {text line after : List Char} (h : cutLine text = some (line, after)) :
    line.length + after.length + 1 = text.length := by
  induction text generalizing line after with
  | nil => simp [cutLine] at h
  | cons c rest ih =>
    by_cases hc : c = '\n'
    · subst hc
      simp only [cutLine, Option.some.injEq, Prod.mk.injEq] at h
      obtain ⟨rfl, rfl⟩ := h
      simp
    · rw [cutLine] at h
      · simp only [Option.map_eq_some_iff, Prod.mk.injEq, Prod.exists] at h
        obtain ⟨l, a, hla, rfl, rfl⟩ := h
        have := ih hla
        simp only [List.length_cons]
        omega
      · exact hc

/-- The lines of a text, in order, without what ended them. -/
def lines (text : List Char) : List (List Char) :=
  match _h : cutLine text with
  | some (line, after) => dropReturn line :: lines after
  | none => if text = [] then [] else [text]
termination_by text.length
decreasing_by have := length_of_cutLine _h; omega

end PassTuner.Text
