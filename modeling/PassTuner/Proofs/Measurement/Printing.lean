import PassTuner.Proofs.Measurement.Framing
import PassTuner.Proofs.Number.Reading
import PassTuner.Proofs.Text.Fields

/-!
# Numbers in records

Printed numbers are fields, and none of them holds a marker. Main statement: a natural number of 53
bits is the feature that is read for it.
-/

namespace PassTuner

open Text (Word)

/-! ## Printed numbers -/

/-- What numbers are printed with. -/
def NumberChar (c : Char) : Prop := c.isDigit ∨ c ∈ ['.', 'e', '+', '-', 'i', 'n', 'f', 'N', 'a']

theorem NumberChar.solid {c : Char} (h : NumberChar c) : Text.isBlank c = false ∧ c ≠ 'S' := by
  rcases h with digit | mem
  · have range : 48 ≤ c.toNat ∧ c.toNat ≤ 57 := by
      have range : 48 ≤ c.val ∧ c.val ≤ 57 := by simpa [Char.isDigit] using digit
      exact ⟨UInt32.le_iff_toNat_le.1 range.1, UInt32.le_iff_toNat_le.1 range.2⟩
    refine ⟨?_, ?_⟩
    · simp [Text.isBlank]
      omega
    · rintro rfl
      exact absurd digit (by decide)
  · simp only [List.mem_cons, List.not_mem_nil, or_false] at mem
    rcases mem with rfl | rfl | rfl | rfl | rfl | rfl | rfl | rfl | rfl <;> exact ⟨rfl, by decide⟩

theorem Spelling.Proper.numberChar {s : Spelling} (h : s.Proper) : ∀ c ∈ s.text, NumberChar c :=
  fun c hc => (h.chars c hc).imp_right fun hc =>
    (by decide : ['.', 'e', '+', '-'] ⊆ ['.', 'e', '+', '-', 'i', 'n', 'f', 'N', 'a']) hc

theorem numberChar_floatText (x : Float) : ∀ c ∈ (floatText x).toList, NumberChar c := by
  have other {text : List Char}
      (h : text ⊆ ['.', 'e', '+', '-', 'i', 'n', 'f', 'N', 'a']) : ∀ c ∈ text, NumberChar c :=
    fun c hc => .inr (h hc)
  unfold floatText
  cases BinaryFormat.double.decode x.toBits.toNat with
  | notANumber => exact other (by decide)
  | infinite negative => cases negative <;> exact other (by decide)
  | finite negative m e =>
    obtain ⟨s, _, _, text, spells, _⟩ :=
      Notation.spells_positional (BinaryFormat.double.shortest .up m e)
    have written : (Notation.message.render .double negative m e) =
        (if negative then ['-'] else []) ++ s.text := by
      rw [← text]
      rfl
    intro c hc
    rw [String.toList_ofList, written, List.mem_append] at hc
    rcases hc with hc | hc
    · cases negative with
      | true => exact other (show ['-'] ⊆ _ by decide) c hc
      | false => cases hc
    · exact spells.proper.numberChar c hc

theorem floatText_ne_nil (x : Float) : (floatText x).toList ≠ [] := by
  intro empty
  have read := parseFloat?_floatText x
  rw [empty] at read
  cases read

theorem word_floatText (x : Float) : Word (floatText x).toList :=
  ⟨floatText_ne_nil x, fun c hc => (numberChar_floatText x c hc).solid.1⟩

theorem word_digitsOf (n : ℕ) : Word (Notation.digitsOf n) :=
  ⟨Numeral.digitsOf_ne_nil n, fun _ hc =>
    NumberChar.solid (.inl (Numeral.digits_digitsOf n _ hc)) |>.1⟩

theorem parseFloat?_digitsOf (n : ℕ) :
    parseFloat? (Notation.digitsOf n) = some (nearestFloat false n 0) := by
  have whole : ∃ s, Notation.positionalForm false ⟨n, 0⟩ = s.text ∧
      Notation.Spells s (n * 10 ^ 0) 0 := Notation.spells_whole false le_rfl
  obtain ⟨s, text, spells⟩ := whole
  have plain : Notation.positionalForm false ⟨n, 0⟩ = Notation.digitsOf n := by
    simp [Notation.positionalForm, Notation.zeros]
  have read := Notation.parseFloat?_text spells.proper false
  rw [spells.value, ← text, plain] at read
  simpa using read

/-! ## Features -/

/-- A number with 53 bits is the feature that is read for it. -/
theorem Observation.feature_nat {n : ℕ} (small : n < 2 ^ 53) :
    Observation.feature (nearestFloat false n 0) = n := by
  have clamped : Observation.clamp n = n := by
    have low : Int64.minValue.toInt ≤ n := by
      have : Int64.minValue.toInt = -2 ^ 63 := by decide
      omega
    have high : (n : ℤ) ≤ Int64.maxValue.toInt := by
      have : Int64.maxValue.toInt = 2 ^ 63 - 1 := by decide
      omega
    rw [Observation.clamp, min_eq_left high, max_eq_right low]
  obtain ⟨m, e, decoded, value⟩ : ∃ m e,
      BinaryFormat.double.decode (BinaryFormat.double.nearestDecimal n 0) = .finite false m e ∧
      m * 2 ^ e.toNat / 2 ^ (-e).toNat = n := by
    rcases Nat.eq_zero_or_pos n with rfl | pos
    · exact ⟨0, -1074, by decide, by rw [Nat.zero_mul, Nat.zero_div]⟩
    · have log : n.log2 < 53 := (Nat.log2_lt pos.ne').2 small
      refine ⟨_, _, BinaryFormat.decode_nearestDecimal_nat pos small, ?_⟩
      rw [Int.toNat_of_nonpos (by omega : (n.log2 : ℤ) - 52 ≤ 0), pow_zero, mul_one,
        show (-((n.log2 : ℤ) - 52)).toNat = 52 - n.log2 by omega]
      exact Nat.mul_div_cancel _ (Nat.two_pow_pos _)
  obtain ⟨_, finite, bits, sign⟩ := BinaryFormat.of_decode_finite decoded
  have size : BinaryFormat.double.nearestDecimal n 0 < 2 ^ 63 := by
    rw [Doubles.signBit_double] at sign
    exact not_le.1 (of_decide_eq_false sign.symm)
  have stored := Doubles.toBits_ofBits (size.trans (by norm_num)) (by rw [decoded]; exact nofun)
  simp only [Observation.feature, nearestFloat, Bool.false_eq_true, if_false, stored, decoded]
  exact (congrArg _ (congrArg _ value)).trans clamped

end PassTuner
