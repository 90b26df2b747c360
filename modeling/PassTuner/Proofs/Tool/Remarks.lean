import PassTuner.Proofs.Text.Fields
import PassTuner.Proofs.Text.Lines
import PassTuner.Tool.Simulation

/-!
# What applied passes do to a program's text

Applying a pass adds a line to the lines of the text, and both readers of such lines find the pass
in it: the one that counts and the one that computes the cost. Main statements: with passes applied
one after the other, the text is the closed program with their lines behind it, the count is larger
by their number, and the cost is multiplied by their factors in order.
-/

namespace PassTuner.Simulation

open Text (lines Closed Word Broken isBlank)

/-- The name of a pass as it can stand on a line: something, and no blank in it. -/
def Named (flag : String) : Prop := Word flag.toList

/-- The code with its last line ended. -/
def closed (code : String) : String :=
  if code = "" ∨ code.toList.getLast? = some '\n' then code else code ++ "\n"

/-- The lines that applied passes leave. -/
def passLines (flags : List String) : String :=
  String.join (flags.map fun flag => s!"; applied {flag}\n")

/-- The code with passes applied to it. -/
def passed (code : String) (flags : List String) : String :=
  flags.foldl (fun code flag => applyPass flag code) code

/-- The line of a pass without its end. -/
def passLine (flag : String) : List Char := "; applied ".toList ++ flag.toList

variable {code flag : String} {flags : List String}

theorem applyPass_eq (flag code : String) :
    applyPass flag code = closed code ++ passLines [flag] := by
  simp [applyPass, closed, passLines]

theorem closed_closed (code : String) : Closed (closed code).toList := by
  intro c hc
  rw [closed] at hc
  split at hc
  · rename_i h
    rcases h with rfl | h
    · simp at hc
    · rw [h] at hc
      exact (Option.some.inj hc).symm
  · simp at hc
    exact hc.symm

theorem toList_passLines (flag : String) : (passLines [flag]).toList = passLine flag ++ ['\n'] := by
  simp only [passLines, List.map_cons, List.map_nil, String.join_cons, String.join_nil,
    String.append_empty]
  have newline : "\n".toList = ['\n'] := by decide
  change ("; applied " ++ flag ++ "\n").toList = _
  rw [String.toList_append, String.toList_append, newline]
  unfold passLine
  exact rfl

theorem passLines_cons (flag : String) (flags : List String) :
    passLines (flag :: flags) = passLines [flag] ++ passLines flags := by
  simp [passLines]

/-- Applying a pass leaves a closed text that is not empty. -/
theorem closed_applyPass (flag code : String) :
    closed (applyPass flag code) = applyPass flag code := by
  rw [closed, if_pos]
  refine .inr ?_
  rw [applyPass_eq, String.toList_append, toList_passLines, ← List.append_assoc]
  simp

/-- Passes leave the closed program with their lines behind it. -/
theorem passed_cons (code flag : String) (flags : List String) :
    passed code (flag :: flags) = closed code ++ passLines (flag :: flags) := by
  induction flags generalizing code flag with
  | nil => exact applyPass_eq flag code
  | cons next flags ih =>
    change passed (applyPass flag code) (next :: flags) = _
    rw [ih, closed_applyPass, applyPass_eq, passLines_cons flag (next :: flags),
      String.append_assoc]

/-! ## The lines of the text -/

theorem Named.line (h : Named flag) : '\n' ∉ passLine flag := by
  have mark : '\n' ∉ "; applied ".toList := by decide
  unfold passLine
  rw [List.mem_append, not_or]
  exact ⟨mark, fun mem => absurd (h.solid _ mem) (by decide)⟩

theorem Named.dropReturn (h : Named flag) : Text.dropReturn (passLine flag) = passLine flag := by
  have last : (passLine flag).getLast? = some (flag.toList.getLast h.nonempty) := by
    unfold passLine
    rw [List.getLast?_append, List.getLast?_eq_some_getLast h.nonempty, Option.some_or]
  have bare : (passLine flag).getLast? ≠ some '\r' := by
    rw [last]
    intro heq
    have blank := h.solid _ (List.getLast_mem h.nonempty)
    rw [Option.some.inj heq] at blank
    exact absurd blank (by decide)
  exact if_neg bare

theorem lines_closed (bare : code.toList.getLast? ≠ some '\r') :
    lines (closed code).toList = lines code.toList := by
  rw [closed]
  split
  · rfl
  · rename_i h
    rw [not_or] at h
    rw [String.toList_append]
    exact Text.lines_close (by simpa using h.1) h.2 bare

theorem lines_applyPass (named : Named flag) (bare : code.toList.getLast? ≠ some '\r') :
    lines (applyPass flag code).toList = lines code.toList ++ [passLine flag] := by
  rw [applyPass_eq, String.toList_append, (closed_closed code).lines_append, lines_closed bare,
    toList_passLines, Text.lines_line named.line, named.dropReturn, Text.lines_nil]

theorem bare_applyPass (flag code : String) :
    (applyPass flag code).toList.getLast? ≠ some '\r' := by
  rw [applyPass_eq, String.toList_append, toList_passLines, ← List.append_assoc]
  simp

theorem lines_passed (named : ∀ flag ∈ flags, Named flag)
    (bare : code.toList.getLast? ≠ some '\r') :
    lines (passed code flags).toList = lines code.toList ++ flags.map passLine := by
  induction flags generalizing code with
  | nil => simp [passed]
  | cons flag flags ih =>
    obtain ⟨first, others⟩ := List.forall_mem_cons.1 named
    change lines (passed (applyPass flag code) flags).toList = _
    rw [ih others (bare_applyPass flag code), lines_applyPass first bare]
    simp

/-! ## What the lines say -/

theorem stripStart?_passLine (flag : String) :
    Text.stripStart? "; applied ".toList (passLine flag) = some flag.toList := by
  have front : "; applied ".toList.isPrefixOf ("; applied ".toList ++ flag.toList) = true :=
    List.isPrefixOf_iff_prefix.2 (List.prefix_append _ _)
  unfold passLine Text.stripStart?
  rw [if_pos front, List.drop_left]

theorem remark_passLine (named : Named flag) : remark (passLine flag) = .applied flag.toList := by
  have applied : Word "applied".toList := Text.word_of_all (by decide) (by decide)
  have words : Text.fields ((passLine flag).dropWhile (· == ';')) =
      ["applied".toList, flag.toList] := by
    change Text.fields (' ' :: ("applied".toList ++ ' ' :: flag.toList)) = _
    have broken : Broken (' ' :: flag.toList) := rfl
    have last : Text.fields (flag.toList ++ []) = flag.toList :: Text.fields [] :=
      Text.fields_word named trivial
    rw [List.append_nil] at last
    rw [Text.fields_cons_blank _ rfl, Text.fields_word applied broken, Text.fields_cons_blank _ rfl,
      last, Text.fields_nil]
  rw [remark, words]
  rfl

theorem appliedLines_passed (named : ∀ flag ∈ flags, Named flag)
    (bare : code.toList.getLast? ≠ some '\r') :
    appliedLines (passed code flags).toList = appliedLines code.toList ++ flags := by
  rw [appliedLines, lines_passed named bare, List.filterMap_append, List.filterMap_map]
  congr 1
  have each :
    (fun line => (Text.stripStart? "; applied ".toList line).map String.ofList) ∘ passLine =
      some := funext fun flag => by
    simp only [Function.comp_apply, stripStart?_passLine, Option.map_some, String.ofList_toList]
  rw [each, List.filterMap_some]

/-- The lines of passes add the passes to what is known of a program. -/
theorem note_passLines (named : ∀ flag ∈ flags, Named flag) (b : Behaviour) :
    (flags.map passLine).foldlM (fun b line => b.note (remark line)) b =
      .ok { b with applied := b.applied ++ flags.map String.toList } := by
  induction flags generalizing b with
  | nil => simp [pure, Except.pure]
  | cons flag flags ih =>
    obtain ⟨first, others⟩ := List.forall_mem_cons.1 named
    rw [List.map_cons, List.foldlM_cons, remark_passLine first]
    change (flags.map passLine).foldlM (fun b line => b.note (remark line))
      { b with applied := b.applied ++ [flag.toList] } = _
    rw [ih others]
    simp

theorem behaviour_passed {b : Behaviour} (named : ∀ flag ∈ flags, Named flag)
    (bare : code.toList.getLast? ≠ some '\r') (h : behaviour code.toList = .ok b) :
    behaviour (passed code flags).toList =
      .ok { b with applied := b.applied ++ flags.map String.toList } := by
  unfold behaviour at h ⊢
  rw [lines_passed named bare, List.foldlM_append, h]
  exact note_passLines named b

/-! ## Factors -/

/-- The factor that a line gives a pass. -/
def ownFactor? (flag : String) (line : List Char) : Option Float :=
  match remark line with
  | .factor named value => if named = flag.toList then parseFloat? value else none
  | _ => none

/-- What a pass multiplies the cost of a program by: the last factor that the program gives it, else
the last that the toolchain gives it, else one. -/
def passFactor (s : Simulation) (code flag : String) : Float :=
  match (lines code.toList).reverse.findSome? (ownFactor? flag) with
  | some x => x
  | none => (s.factors.reverse.lookup flag).getD 1

theorem Behaviour.note_ownFactor {b b' : Behaviour} {line : List Char}
    (h : b.note (remark line) = .ok b') : b'.factors.lookup flag.toList =
      (ownFactor? flag line).or (b.factors.lookup flag.toList) := by
  cases hr : remark line with
  | cost value =>
    simp only [hr, note] at h
    split at h
    · cases h
      simp [ownFactor?, hr]
    · cases h
  | factor named value =>
    simp only [hr, note] at h
    split at h
    · rename_i x hx
      cases h
      by_cases hn : named = flag.toList
      · simp [ownFactor?, hr, hn, hx]
      · have other : (flag.toList == named) = false := by simpa using Ne.symm hn
        simp [ownFactor?, hr, hn, List.lookup_cons, other]
    · cases h
  | applied flag' =>
    simp only [hr, note] at h
    cases h
    simp [ownFactor?, hr]
  | other =>
    simp only [hr, note] at h
    cases h
    simp [ownFactor?, hr]

theorem lookup_of_notes {b b' : Behaviour} {text : List (List Char)}
    (h : text.foldlM (fun b line => b.note (remark line)) b = .ok b') :
    b'.factors.lookup flag.toList =
      (text.reverse.findSome? (ownFactor? flag)).or (b.factors.lookup flag.toList) := by
  induction text generalizing b with
  | nil =>
    cases h
    rfl
  | cons line text ih =>
    rw [List.foldlM_cons] at h
    cases hb : b.note (remark line) with
    | error fault =>
      rw [hb] at h
      cases h
    | ok b₁ =>
      rw [hb] at h
      have single : [line].findSome? (ownFactor? flag) = ownFactor? flag line := by
        cases h : ownFactor? flag line <;> simp [h]
      rw [ih h, Behaviour.note_ownFactor hb, List.reverse_cons, List.findSome?_append, single,
        Option.or_assoc]

theorem factor_eq {b : Behaviour} (s : Simulation) (h : behaviour code.toList = .ok b)
    (flag : String) : s.factor b flag.toList = s.passFactor code flag := by
  have own : b.factors.lookup flag.toList =
      ((lines code.toList).reverse.findSome? (ownFactor? flag)).or none := lookup_of_notes h
  rw [Option.or_none] at own
  cases hown : (lines code.toList).reverse.findSome? (ownFactor? flag) with
  | none => simp [factor, passFactor, own, hown, String.ofList_toList]
  | some x => simp [factor, passFactor, own, hown]

/-- Passes multiply the cost by their factors, in order. -/
theorem cost_passed {s : Simulation} {cost : Float} (named : ∀ flag ∈ flags, Named flag)
    (bare : code.toList.getLast? ≠ some '\r') (h : s.cost code.toList = .ok cost) :
    s.cost (passed code flags).toList =
      .ok (flags.foldl (fun cost flag => cost * s.passFactor code flag) cost) := by
  unfold Simulation.cost at h ⊢
  cases hb : behaviour code.toList with
  | error fault =>
    rw [hb] at h
    cases h
  | ok b =>
    have same (base : Option Float) (applied : List (List Char)) (flag : String) :
        s.factor ⟨base, b.factors, applied⟩ flag.toList = s.passFactor code flag :=
      factor_eq s hb flag
    rw [hb] at h
    rw [behaviour_passed named bare hb]
    cases hbase : b.base with
    | none =>
      simp only [bind, Except.bind, hbase] at h
      cases h
    | some base =>
      simp only [bind, Except.bind, hbase, pure, Except.pure] at h ⊢
      rw [List.foldl_append, List.foldl_map]
      simp only [same]
      rw [← Except.ok.inj h]
      rfl

end PassTuner.Simulation
