import PassTuner.Proofs.Text.Occurrences

/-!
# Replacing from left to right

Replacing works through a text once: where the pattern begins the value is put, and reading goes on
behind the pattern; every other character is kept.
-/

namespace PassTuner.Text

variable {pattern value text before after rest : List Char} {c : Char}

/-- At how many places of a text a pattern begins. -/
def occurrences (pattern : List Char) : List Char → ℕ
  | [] => 0
  | c :: rest => (if pattern.isPrefixOf (c :: rest) then 1 else 0) + occurrences pattern rest

theorem occurrences_le_cons (pattern : List Char) (c : Char) (rest : List Char) :
    occurrences pattern rest ≤ occurrences pattern (c :: rest) := Nat.le_add_left _ _

theorem occurrences_le_append (pattern front rest : List Char) :
    occurrences pattern rest ≤ occurrences pattern (front ++ rest) := by
  induction front with
  | nil => exact le_rfl
  | cons c front ih => exact ih.trans (occurrences_le_cons pattern c _)

theorem occurrences_of_begins (h : pattern <+: c :: rest) :
    occurrences pattern (c :: rest) = occurrences pattern rest + 1 := by
  rw [occurrences, if_pos (List.isPrefixOf_iff_prefix.2 h), Nat.add_comm]

theorem occurrences_of_not_begins (h : ¬pattern <+: c :: rest) :
    occurrences pattern (c :: rest) = occurrences pattern rest := by
  rw [occurrences, if_neg (mt List.isPrefixOf_iff_prefix.1 h), Nat.zero_add]

/-- A text with no more occurrences than its end begins with none. -/
theorem not_begins_of_occurrences_le
    (h : occurrences pattern (c :: rest) ≤ occurrences pattern rest) : ¬pattern <+: c :: rest := by
  intro front
  rw [occurrences_of_begins front] at h
  omega

/-! ## Replacing step by step -/

theorem splitOn_of_cut (hne : pattern ≠ []) (h : cut? pattern text = some (before, after)) :
    splitOn pattern text = before :: splitOn pattern after := by
  rw [splitOn, dif_neg hne, pieces]
  split
  · rename_i hcut
    rw [h] at hcut
    cases hcut
  · rename_i hcut
    rw [h] at hcut
    cases hcut
    rw [splitOn, dif_neg hne]

theorem splitOn_of_uncut (hne : pattern ≠ []) (h : cut? pattern text = none) :
    splitOn pattern text = [text] := by
  rw [splitOn, dif_neg hne, pieces]
  split
  · rfl
  · rename_i hcut
    rw [h] at hcut
    cases hcut

theorem replace_of_uncut (hne : pattern ≠ []) (h : cut? pattern text = none)
    (value : List Char) : replace pattern value text = text := by
  simp [replace, splitOn_of_uncut hne h]

theorem splitOn_ne_nil (hne : pattern ≠ []) (text : List Char) : splitOn pattern text ≠ [] := by
  cases h : cut? pattern text with
  | none => simp [splitOn_of_uncut hne h]
  | some cut => simp [splitOn_of_cut hne h]

theorem replace_of_cut (hne : pattern ≠ []) (h : cut? pattern text = some (before, after))
    (value : List Char) :
    replace pattern value text = before ++ value ++ replace pattern value after := by
  obtain ⟨piece, pieces, hsplit⟩ := List.exists_cons_of_ne_nil (splitOn_ne_nil hne after)
  rw [replace, replace, splitOn_of_cut hne h, hsplit, List.intersperse_cons_cons]
  simp

/-- Where the pattern begins, its value is put instead. -/
theorem replace_begins (hne : pattern ≠ []) (value rest : List Char) :
    replace pattern value (pattern ++ rest) = value ++ replace pattern value rest := by
  rw [replace_of_cut hne (cut?_self_append hne rest), List.nil_append]

/-- Where the pattern does not begin, the character is kept. -/
theorem replace_cons (hne : pattern ≠ []) (h : ¬pattern <+: c :: rest) (value : List Char) :
    replace pattern value (c :: rest) = c :: replace pattern value rest := by
  have step : cut? pattern (c :: rest) =
      (cut? pattern rest).map fun cut => (c :: cut.1, cut.2) := by
    rw [cut?, if_neg (mt List.isPrefixOf_iff_prefix.1 h)]
  cases hcut : cut? pattern rest with
  | none =>
    rw [hcut] at step
    rw [replace_of_uncut hne step, replace_of_uncut hne hcut]
  | some cut =>
    rw [hcut] at step
    rw [replace_of_cut hne step, replace_of_cut hne hcut]
    rfl

/-- A front in which the pattern begins nowhere is kept. -/
theorem replace_append (hne : pattern ≠ []) (value rest : List Char) {front : List Char}
    (h : occurrences pattern (front ++ rest) ≤ occurrences pattern rest) :
    replace pattern value (front ++ rest) = front ++ replace pattern value rest := by
  induction front with
  | nil => rfl
  | cons c front ih =>
    have here : ¬pattern <+: c :: (front ++ rest) :=
      not_begins_of_occurrences_le (h.trans (occurrences_le_append pattern front rest))
    have there := (occurrences_le_cons pattern c (front ++ rest)).trans h
    rw [List.cons_append, replace_cons hne here, ih there, List.cons_append]

end PassTuner.Text
