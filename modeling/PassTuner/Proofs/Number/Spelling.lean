import PassTuner.Number.Notation
import PassTuner.Proofs.Number.Shortest

/-!
# How decimals are spelled, and read as numerals

Every written form is spelled in one way: digits, a point with digits behind it or none, and an
exponent mark or none. Both grammars of numerals read a spelling for what it says. The digits of a
decimal are spelled as they are, or with zeros behind them where it is a whole number.
-/

namespace PassTuner

/-! ## Rows of digits -/

namespace Numeral

variable {digits more : List Char}

theorem ofDigits_eq (digits : List Char) : ofDigits digits = Nat.ofDigitChars 10 digits 0 := rfl

theorem ofDigits_digitsOf (n : ℕ) : ofDigits (Notation.digitsOf n) = n := by
  rw [ofDigits_eq, Notation.digitsOf, Nat.toList_repr, Nat.ofDigitChars_toDigits] <;> norm_num

theorem ofDigits_append_zeros (digits : List Char) (count : ℕ) :
    ofDigits (digits ++ Notation.zeros count) = ofDigits digits * 10 ^ count := by
  induction count with
  | zero => simp [Notation.zeros]
  | succ count ih =>
    rw [Notation.zeros] at ih
    rw [Notation.zeros, List.replicate_succ', ← List.append_assoc, ofDigits_eq,
      Nat.ofDigitChars_append, ← ofDigits_eq, ih, pow_succ]
    simp [Nat.ofDigitChars]
    ring

theorem ofDigits_zeros_append (count : ℕ) (digits : List Char) :
    ofDigits (Notation.zeros count ++ digits) = ofDigits digits := by
  have none : ofDigits (Notation.zeros count) = 0 := by
    simpa [ofDigits] using ofDigits_append_zeros [] count
  rw [ofDigits_eq, Nat.ofDigitChars_append, ← ofDigits_eq, none, ofDigits_eq]

/-- A row of digits. -/
def Digits (text : List Char) : Prop := ∀ c ∈ text, c.isDigit

theorem digits_digitsOf (n : ℕ) : Digits (Notation.digitsOf n) := by
  intro c hc
  rw [Notation.digitsOf, Nat.toList_repr] at hc
  exact Nat.isDigit_of_mem_toDigits (by norm_num) (by norm_num) hc

theorem digits_zeros (count : ℕ) : Digits (Notation.zeros count) := by
  intro c hc
  rw [List.eq_of_mem_replicate hc]
  rfl

theorem Digits.append (h : Digits digits) (h' : Digits more) : Digits (digits ++ more) := by
  intro c hc
  rcases List.mem_append.1 hc with hc | hc
  · exact h c hc
  · exact h' c hc

theorem Digits.take (h : Digits digits) (n : ℕ) : Digits (digits.take n) := fun c hc =>
  h c (List.mem_of_mem_take hc)

theorem Digits.drop (h : Digits digits) (n : ℕ) : Digits (digits.drop n) := fun c hc =>
  h c (List.mem_of_mem_drop hc)

/-- Digits are read up to what is none. -/
theorem Digits.spanDigits (h : Digits digits) (rest : List Char)
    (stop : ∀ c ∈ rest.head?, c.isDigit = false) :
    spanDigits (digits ++ rest) = (digits, rest) := by
  rw [Numeral.spanDigits, List.takeWhile_append_of_pos h, List.dropWhile_append_of_pos h]
  cases rest with
  | nil => simp
  | cons c rest => simp [stop c rfl]

theorem digitsOf_ne_nil (n : ℕ) : Notation.digitsOf n ≠ [] := by
  rw [Notation.digitsOf, Nat.toList_repr]
  exact Nat.toDigits_ne_nil

theorem head?_digitsOf {n : ℕ} (pos : n ≠ 0) : (Notation.digitsOf n).head? ≠ some '0' := by
  have digit : ∀ k < 10, k ≠ 0 → Nat.digitChar k ≠ '0' := by decide
  rw [Notation.digitsOf, Nat.toList_repr]
  induction n using Nat.strongRecOn with
  | ind n ih =>
    rw [Nat.toDigits_eq_if (by norm_num)]
    split_ifs with small
    · simpa using digit n small pos
    · rw [List.head?_append_of_ne_nil _ Nat.toDigits_ne_nil]
      exact ih (n / 10) (by omega) (by omega)

end Numeral

/-! ## Spellings -/

/-- Digits before the point, digits behind it, and the exponent behind the mark. -/
structure Spelling where
  whole : List Char
  fraction : List Char
  mark : Option ℤ

namespace Spelling

open Numeral (Digits ofDigits)

def pointText (s : Spelling) : List Char := if s.fraction = [] then [] else '.' :: s.fraction

def markText (s : Spelling) : List Char :=
  match s.mark with
  | none => []
  | some e => 'e' :: (if e < 0 then '-' else '+') :: Notation.digitsOf e.natAbs

def text (s : Spelling) : List Char := s.whole ++ (s.pointText ++ s.markText)

/-- The numeral that is meant. -/
def numeral (negative : Bool) (s : Spelling) : Numeral where
  negative
  whole := s.whole
  fraction := s.fraction
  exponent := s.mark.getD 0
  isWhole := s.fraction.isEmpty && s.mark.isNone

/-- There are digits where there have to be, and no zero in front of others. -/
structure Proper (s : Spelling) : Prop where
  whole : Digits s.whole
  fraction : Digits s.fraction
  nonempty : s.whole ≠ []
  leading : s.whole.head? = some '0' → s.whole.length = 1

variable {s : Spelling}

theorem markText_stops (s : Spelling) : ∀ c ∈ s.markText.head?, c.isDigit = false ∧ c ≠ '.' := by
  intro c hc
  simp only [markText] at hc
  split at hc
  · cases hc
  · cases hc
    decide

theorem Proper.span_whole (h : s.Proper) :
    Numeral.spanDigits s.text = (s.whole, s.pointText ++ s.markText) := by
  refine h.whole.spanDigits _ fun c hc => ?_
  by_cases hf : s.fraction = []
  · simp only [pointText, hf, if_true, List.nil_append] at hc
    exact (s.markText_stops c hc).1
  · simp only [pointText, hf, if_false] at hc
    cases hc
    rfl

theorem Proper.span_fraction (h : s.Proper) :
    Numeral.spanDigits (s.fraction ++ s.markText) = (s.fraction, s.markText) :=
  h.fraction.spanDigits _ fun c hc => (s.markText_stops c hc).1

theorem spanExponent?_markText (s : Spelling) :
    Numeral.spanExponent? s.markText = some (s.mark.getD 0, s.mark.isSome, []) := by
  rcases hm : s.mark with _ | e
  · simp only [markText, hm]
    rfl
  · have digits := (Numeral.digits_digitsOf e.natAbs).spanDigits [] (by simp)
    rw [List.append_nil] at digits
    obtain ⟨c, rest, hc⟩ := List.exists_cons_of_ne_nil (Numeral.digitsOf_ne_nil e.natAbs)
    have value := Numeral.ofDigits_digitsOf e.natAbs
    simp only [markText, hm]
    rw [hc] at digits value ⊢
    split_ifs with negative
    · simp only [Numeral.spanExponent?, true_or, if_true, digits, value, Option.isSome_some,
        Option.getD_some, Option.some.injEq, Prod.mk.injEq, and_true]
      omega
    · simp only [Numeral.spanExponent?, true_or, if_true, digits, value, Option.isSome_some,
        Option.getD_some, Option.some.injEq, Prod.mk.injEq, and_true]
      simp
      omega

/-- Without a point the mark follows the digits, if there is one. -/
theorem pointless (hf : s.fraction = []) : s.pointText ++ s.markText = s.markText ∧
    ∀ rest, s.markText ≠ '.' :: rest := by
  refine ⟨by simp [pointText, hf], fun rest h => ?_⟩
  exact (s.markText_stops '.' (by simp [h])).2 rfl

theorem pointed (hf : s.fraction ≠ []) :
    s.pointText ++ s.markText = '.' :: (s.fraction ++ s.markText) := by simp [pointText, hf]

theorem Proper.free? (h : s.Proper) (negative : Bool) :
    Numeral.free? negative s.text = some (s.numeral negative) := by
  have mark := s.spanExponent?_markText
  by_cases hf : s.fraction = []
  · obtain ⟨point, stops⟩ := pointless hf
    simp [Numeral.free?, h.span_whole, point, h.nonempty, mark, numeral, hf]
  · simp [Numeral.free?, h.span_whole, pointed hf, h.span_fraction, h.nonempty, mark, numeral, hf]

theorem Proper.not_sign (h : s.Proper) {sign : Char} (hs : sign.isDigit = false)
    (rest : List Char) : s.text ≠ sign :: rest := by
  obtain ⟨c, more, hc⟩ := List.exists_cons_of_ne_nil h.nonempty
  intro heq
  rw [text, hc, List.cons_append] at heq
  cases heq
  rw [h.whole sign (by simp [hc])] at hs
  cases hs

theorem Proper.strict? (h : s.Proper) (negative : Bool) :
    Numeral.strict? ((if negative then ['-'] else []) ++ s.text) =
      some (s.numeral negative, []) := by
  have mark := s.spanExponent?_markText
  have leading : ¬(s.whole.head? = some '0' ∧ s.whole.length ≠ 1) :=
    fun ⟨h₁, h₂⟩ => h₂ (h.leading h₁)
  have unsigned (rest : List Char) : s.text ≠ '-' :: rest := h.not_sign rfl rest
  by_cases hf : s.fraction = []
  · obtain ⟨point, stops⟩ := pointless hf
    cases negative <;>
      simp [Numeral.strict?, h.span_whole, point, h.nonempty, leading, mark, numeral, hf]
  · cases negative <;>
      simp [Numeral.strict?, h.span_whole, pointed hf, h.span_fraction, h.nonempty, leading, mark,
        numeral, hf]

/-- What a spelling is written with. -/
theorem Proper.chars (h : s.Proper) : ∀ c ∈ s.text, c.isDigit ∨ c ∈ ['.', 'e', '+', '-'] := by
  intro c hc
  simp only [text, List.mem_append] at hc
  rcases hc with hc | hc | hc
  · exact .inl (h.whole c hc)
  · rw [pointText] at hc
    split at hc
    · cases hc
    · rcases List.mem_cons.1 hc with rfl | hc
      · exact .inr (by decide)
      · exact .inl (h.fraction c hc)
  · rw [markText] at hc
    split at hc
    · cases hc
    · rcases List.mem_cons.1 hc with rfl | hc
      · exact .inr (by decide)
      · rcases List.mem_cons.1 hc with rfl | hc
        · split_ifs <;> exact .inr (by decide)
        · exact .inl (Numeral.digits_digitsOf _ c hc)

end Spelling

/-! ## How written forms are spelled -/

namespace Notation

open Numeral (Digits ofDigits)

/-- All digits of a spelling, and the exponent of the last one. -/
structure Spells (s : Spelling) (digits : ℕ) (exponent : ℤ) : Prop where
  proper : s.Proper
  digits : ofDigits (s.whole ++ s.fraction) = digits
  exponent : s.mark.getD 0 - s.fraction.length = exponent

variable {d : Decimal}

theorem digitsOf_length_pos (n : ℕ) : 0 < (digitsOf n).length :=
  List.length_pos_iff.2 (Numeral.digitsOf_ne_nil n)

theorem spells_exponentForm (d : Decimal) :
    ∃ s, exponentForm d = s.text ∧ Spells s d.digits d.exponent := by
  have digits := Numeral.digits_digitsOf d.digits
  have len := digitsOf_length_pos d.digits
  refine ⟨⟨(digitsOf d.digits).take 1, (digitsOf d.digits).drop 1,
    some (d.exponent + ((digitsOf d.digits).length - 1 : ℕ))⟩, ?_, ⟨?_, ?_, ?_, ?_⟩, ?_, ?_⟩
  · have empty : (digitsOf d.digits).drop 1 = [] ↔ (digitsOf d.digits).length = 1 := by
      rw [List.drop_eq_nil_iff]
      omega
    simp only [exponentForm, Spelling.text, Spelling.pointText, Spelling.markText, empty]
    simp
  · exact digits.take 1
  · exact digits.drop 1
  · exact List.ne_nil_of_length_pos (by simp; omega)
  · simp
    omega
  · rw [List.take_append_drop, Numeral.ofDigits_digitsOf]
  · simp

theorem spells_whole (point : Bool) (nonneg : 0 ≤ d.exponent) :
    ∃ s, positionalForm point d = s.text ∧
      Spells s (d.digits * 10 ^ (d.exponent.toNat + point.toNat)) (-point.toNat) := by
  have digits := Numeral.digits_digitsOf d.digits
  have nonempty := Numeral.digitsOf_ne_nil d.digits
  obtain ⟨count, hcount, hzero⟩ : ∃ count, (if d.digits = 0 then [] else zeros d.exponent.toNat) =
      zeros count ∧ (d.digits = 0 ∧ count = 0 ∨ d.digits ≠ 0 ∧ count = d.exponent.toNat) := by
    split_ifs with h
    · exact ⟨0, rfl, .inl ⟨h, rfl⟩⟩
    · exact ⟨_, rfl, .inr ⟨h, rfl⟩⟩
  refine ⟨⟨digitsOf d.digits ++ zeros count, zeros point.toNat, none⟩, ?_,
    ⟨digits.append (Numeral.digits_zeros _), Numeral.digits_zeros _, ?_, ?_⟩, ?_, ?_⟩
  · rw [positionalForm, if_pos nonneg, hcount]
    cases point <;> simp [Spelling.text, Spelling.pointText, Spelling.markText, zeros]
  · simp [nonempty]
  · rw [List.head?_append_of_ne_nil _ nonempty]
    rcases hzero with ⟨h, rfl⟩ | ⟨h, rfl⟩
    · intro _
      simp only [h]
      rfl
    · exact fun lead => absurd lead (Numeral.head?_digitsOf h)
  · rw [Numeral.ofDigits_append_zeros, Numeral.ofDigits_append_zeros, Numeral.ofDigits_digitsOf,
      pow_add, mul_assoc]
    rcases hzero with ⟨h, rfl⟩ | ⟨h, rfl⟩
    · simp [h]
    · rfl
  · simp [zeros]

theorem spells_fraction (point : Bool) (negative : d.exponent < 0) :
    ∃ s, positionalForm point d = s.text ∧ Spells s d.digits d.exponent := by
  obtain ⟨places, hplaces⟩ : ∃ n : ℕ, d.exponent = -n := ⟨(-d.exponent).toNat, by omega⟩
  have count : (-d.exponent).toNat = places := by omega
  have len := digitsOf_length_pos d.digits
  generalize hpadded : zeros (places + 1 - (digitsOf d.digits).length) ++ digitsOf d.digits = padded
  have digits : Digits padded := by
    rw [← hpadded]
    exact (Numeral.digits_zeros _).append (Numeral.digits_digitsOf _)
  have length : padded.length = max (places + 1) (digitsOf d.digits).length := by
    rw [← hpadded]
    simp [zeros]
    omega
  refine ⟨⟨padded.take (padded.length - places), padded.drop (padded.length - places), none⟩, ?_,
    ⟨digits.take _, digits.drop _, ?_, ?_⟩, ?_, ?_⟩
  · have nonempty : padded.drop (padded.length - places) ≠ [] := by
      rw [Ne, List.drop_eq_nil_iff]
      omega
    simp only [positionalForm, if_neg negative.not_ge, count, hpadded]
    simp [Spelling.text, Spelling.pointText, Spelling.markText, nonempty]
  · exact List.ne_nil_of_length_pos (by simp; omega)
  · intro lead
    rw [List.head?_take, if_neg (by omega)] at lead
    rw [List.length_take]
    by_cases few : (digitsOf d.digits).length ≤ places
    · omega
    · -- More digits than places, so that no zeros are in front.
      have bare : padded = digitsOf d.digits := by
        rw [← hpadded, show places + 1 - (digitsOf d.digits).length = 0 by omega]
        rfl
      rw [bare] at lead
      have zero : d.digits = 0 := by
        by_contra h
        exact Numeral.head?_digitsOf h lead
      have one : (digitsOf 0).length = 1 := rfl
      rw [zero] at few
      omega
  · rw [List.take_append_drop, ← hpadded, Numeral.ofDigits_zeros_append, Numeral.ofDigits_digitsOf]
  · simp
    omega

end Notation

end PassTuner
