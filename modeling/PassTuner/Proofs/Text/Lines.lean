import PassTuner.Text.Lines

/-!
# Lines of texts that are put together

A closed text is empty or ends with a line feed. What stands behind a closed text has the lines it
has alone, and closing a text leaves its lines as they were, unless it ends with a carriage return.
-/

namespace PassTuner.Text

/-- No line of the text is still open. -/
def Closed (text : List Char) : Prop := ∀ c ∈ text.getLast?, c = '\n'

variable {text more line after : List Char}

theorem cutLine_append (h : cutLine text = some (line, after)) (more : List Char) :
    cutLine (text ++ more) = some (line, after ++ more) := by
  induction text generalizing line with
  | nil => cases h
  | cons c text ih =>
    by_cases hc : c = '\n'
    · subst hc
      cases h
      rfl
    · rw [cutLine] at h
      · obtain ⟨⟨l, a⟩, hcut, heq⟩ := Option.map_eq_some_iff.1 h
        cases heq
        rw [List.cons_append, cutLine, ih hcut]
        · rfl
        · exact hc
      · exact hc

theorem cutLine_eq_none (h : cutLine text = none) : '\n' ∉ text := by
  induction text with
  | nil => simp
  | cons c text ih =>
    by_cases hc : c = '\n'
    · subst hc
      cases h
    · rw [cutLine] at h
      · simpa [Ne.symm hc] using ih (Option.map_eq_none_iff.1 h)
      · exact hc

theorem cutLine_line (h : '\n' ∉ line) (rest : List Char) :
    cutLine (line ++ '\n' :: rest) = some (line, rest) := by
  induction line with
  | nil => rfl
  | cons c line ih =>
    simp only [List.mem_cons, not_or] at h
    rw [List.cons_append, cutLine, ih h.2]
    · rfl
    · exact Ne.symm h.1

theorem eq_of_cutLine (h : cutLine text = some (line, after)) : text = line ++ '\n' :: after := by
  induction text generalizing line with
  | nil => cases h
  | cons c text ih =>
    by_cases hc : c = '\n'
    · subst hc
      cases h
      rfl
    · rw [cutLine] at h
      · obtain ⟨⟨l, a⟩, hcut, heq⟩ := Option.map_eq_some_iff.1 h
        cases heq
        rw [ih hcut, List.cons_append]
      · exact hc

theorem lines_of_cut (h : cutLine text = some (line, after)) :
    lines text = dropReturn line :: lines after := by
  rw [lines]
  split
  · rename_i hcut
    rw [h] at hcut
    cases hcut
    rfl
  · rename_i hcut
    rw [h] at hcut
    cases hcut

theorem lines_of_uncut (h : cutLine text = none) :
    lines text = if text = [] then [] else [text] := by
  rw [lines]
  split
  · rename_i hcut
    rw [h] at hcut
    cases hcut
  · rfl

@[simp] theorem lines_nil : lines [] = [] := lines_of_uncut rfl

/-- The rest of a closed text behind a line is closed, and so is that of any text behind it. -/
theorem Closed.rest (h : Closed text) (hcut : cutLine text = some (line, after)) :
    Closed after := by
  intro c hc
  rw [eq_of_cutLine hcut] at h
  refine h c ?_
  cases after with
  | nil => cases hc
  | cons d rest => simpa using hc

theorem Closed.lines_append (h : Closed text) (more : List Char) :
    lines (text ++ more) = lines text ++ lines more := by
  induction hn : text.length using Nat.strongRecOn generalizing text with
  | ind n ih =>
    cases hcut : cutLine text with
    | none =>
      have empty : text = [] := Decidable.byContradiction fun hne => by
        have last := h _ (List.getLast?_eq_some_getLast hne)
        exact cutLine_eq_none hcut (last ▸ List.getLast_mem hne)
      subst empty
      simp
    | some cut =>
      obtain ⟨line, after⟩ := cut
      have shorter := length_of_cutLine hcut
      rw [lines_of_cut (cutLine_append hcut more), lines_of_cut hcut,
        ih after.length (by omega) (h.rest hcut) rfl, List.cons_append]

theorem lines_line (h : '\n' ∉ line) (rest : List Char) :
    lines (line ++ '\n' :: rest) = dropReturn line :: lines rest :=
      lines_of_cut (cutLine_line h rest)

/-- Every line takes a character, be it the one that ends it. -/
theorem length_lines_le (text : List Char) : (lines text).length ≤ text.length := by
  induction hn : text.length using Nat.strongRecOn generalizing text with
  | ind n ih =>
    cases hcut : cutLine text with
    | none =>
      rw [lines_of_uncut hcut]
      split
      · exact Nat.zero_le _
      · rename_i hne
        exact hn ▸ List.length_pos_iff.2 hne
    | some cut =>
      obtain ⟨line, after⟩ := cut
      have shorter := length_of_cutLine hcut
      have others := ih after.length (by omega) after rfl
      rw [lines_of_cut hcut, List.length_cons]
      omega

/-- Closing a text that does not end with a carriage return leaves its lines as they were. -/
theorem lines_close (hne : text ≠ []) (hopen : text.getLast? ≠ some '\n')
    (bare : text.getLast? ≠ some '\r') : lines (text ++ ['\n']) = lines text := by
  induction hn : text.length using Nat.strongRecOn generalizing text with
  | ind n ih =>
    cases hcut : cutLine text with
    | none =>
      rw [lines_line (cutLine_eq_none hcut), lines_of_uncut hcut, if_neg hne, lines_nil, dropReturn,
        if_neg bare]
    | some cut =>
      obtain ⟨line, after⟩ := cut
      have shorter := length_of_cutLine hcut
      have whole := eq_of_cutLine hcut
      have rest : after ≠ [] := by
        rintro rfl
        exact hopen (by simp [whole])
      have last : text.getLast? = after.getLast? := by
        cases after with
        | nil => exact absurd rfl rest
        | cons d more =>
          rw [whole, List.getLast?_append, List.getLast?_cons_cons,
            List.getLast?_eq_some_getLast (List.cons_ne_nil d more), Option.some_or]
      rw [lines_of_cut (cutLine_append hcut ['\n']), lines_of_cut hcut,
        ih after.length (by omega) rest (last ▸ hopen) (last ▸ bare) rfl]

end PassTuner.Text
