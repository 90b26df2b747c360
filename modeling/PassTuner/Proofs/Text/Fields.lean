import PassTuner.Text.Blank

/-!
# Fields one by one

A word at the front of a text, up to a blank or the end, is its first field.
-/

namespace PassTuner.Text

/-- A word: no blank in it, but something else. -/
structure Word (word : List Char) : Prop where
  nonempty : word ≠ []
  solid : ∀ c ∈ word, isBlank c = false

theorem word_of_all {word : List Char} (nonempty : word ≠ [])
    (solid : word.all (fun c => !isBlank c) = true) : Word word :=
  ⟨nonempty, fun c hc => by simpa using List.all_eq_true.1 solid c hc⟩

/-- The text is empty or starts with a blank. -/
def Broken : List Char → Prop
  | [] => True
  | c :: _ => isBlank c

theorem fields_word {word rest : List Char} (h : Word word) (broken : Broken rest) :
    fields (word ++ rest) = word :: fields rest := by
  obtain ⟨nonempty, solid⟩ := h
  induction word with
  | nil => exact absurd rfl nonempty
  | cons c word ih =>
    have hc : isBlank c = false := solid c (by simp)
    cases word with
    | nil =>
      cases rest with
      | nil => simp [fields, hc]
      | cons d rest =>
        have hd : isBlank d = true := broken
        simp [fields, hc, hd]
    | cons d word =>
      have hd : isBlank d = false := solid d (by simp)
      have tail := ih (by simp) fun e he => solid e (List.mem_cons_of_mem c he)
      rw [List.cons_append] at tail
      rw [List.cons_append, List.cons_append, fields.eq_def]
      simp only [hc, hd, tail, Bool.false_eq_true, if_false]

end PassTuner.Text
