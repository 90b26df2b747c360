import PassTuner.Proofs.Json.RoundTrip
import PassTuner.Proofs.Number.Singles

/-!
# Numbers that JSON writes

Main statements: a natural number is read back from what is written for it, and so are the finite
singles. For any other single `null` is written, which is not read as a number.
-/

namespace PassTuner.Json

open BinaryFormat (single)

variable {x : Float32} {negative : Bool} {m n : ℕ} {e : ℤ}

/-- A spelling is a number of the grammar, with a sign before it or not. -/
theorem literal_of_proper {s : Spelling} (h : s.Proper) (negative : Bool) :
    Literal ((if negative then ['-'] else []) ++ s.text) := by
  refine ⟨fun c hc => ?_, _, h.strict? negative⟩
  rcases List.mem_append.1 hc with sign | text
  · cases negative with
    | true => rw [List.mem_singleton.1 sign]; rfl
    | false => cases sign
  · rcases h.chars c text with digit | other
    · simp [Reader.isNumberChar, digit]
    · simp only [List.mem_cons, List.not_mem_nil, or_false] at other
      rcases other with rfl | rfl | rfl | rfl <;> rfl

/-! ## Natural numbers -/

/-- The digits of a natural number, as a spelling. -/
def wholeSpelling (n : ℕ) : Spelling := ⟨Notation.digitsOf n, [], none⟩

theorem proper_wholeSpelling (n : ℕ) : (wholeSpelling n).Proper := by
  refine ⟨Numeral.digits_digitsOf n, nofun, Numeral.digitsOf_ne_nil n, fun zero => ?_⟩
  have none : n = 0 := by
    by_contra pos
    exact Numeral.head?_digitsOf pos zero
  rw [none]
  decide

theorem text_wholeSpelling (n : ℕ) : (wholeSpelling n).text = Notation.digitsOf n := by
  simp [wholeSpelling, Spelling.text, Spelling.pointText, Spelling.markText]

theorem proper_ofNat (n : ℕ) : (ofNat n).Proper := by
  have literal := literal_of_proper (proper_wholeSpelling n) false
  rw [text_wholeSpelling] at literal
  exact .number literal

/-- A natural number that fits is read back. -/
theorem nat?_ofNat {bits : ℕ} (fits : n < 2 ^ bits) : (ofNat n).nat? bits = some n := by
  have read := (proper_wholeSpelling n).strict? false
  rw [text_wholeSpelling] at read
  have whole : ((wholeSpelling n).numeral false).int? = some (n : ℤ) := by
    simp [Numeral.int?, Spelling.numeral, wholeSpelling, Numeral.ofDigits_digitsOf]
  have bound : (n : ℤ) < 2 ^ bits := by exact_mod_cast fits
  simp only [nat?, int?, ofNat, numeral?, Bool.false_eq_true, if_false, List.nil_append] at read ⊢
  simp [read, whole, bound]

/-! ## Singles -/

theorem ofBits_of_value {y : Dyadic} (h : single.decode x.toBits.toNat = .finite negative m e)
    (nearest : single.nearestRatio y.num y.den = single.encode m e) :
    Float32.ofBits (.ofNat (y.bits single negative)) = x := by
  have size : x.toBits.toNat < 2 * single.signBit := x.toBits.toNat_lt
  rw [Dyadic.bits, nearest, BinaryFormat.sign_add_encode h size, UInt32.ofNat_toNat,
    Float32.ofBits_toBits]

/-- A finite single is read back from what is written for it. -/
theorem float32?_of_finite (h : single.decode x.toBits.toNat = .finite negative m e) :
    (ofFloat32 x).Proper ∧ (ofFloat32 x).float32? = some x := by
  obtain ⟨canonical, finite, -, -⟩ := BinaryFormat.of_decode_finite h
  obtain ⟨s, digits, exponent, text, spells, spelled⟩ :=
    Notation.spells_jsonSingle (single.shortest .toEven m e)
  obtain ⟨small, y, hy, nearest⟩ := Dyadic.scaled?_spelled canonical finite rfl spelled
  have written : ofFloat32 x = .number ((if negative then ['-'] else []) ++ s.text) := by
    rw [ofFloat32, singleLiteral?, h]
    simp only [String.toList_ofList, Notation.render, ← text]
    rfl
  rw [written]
  refine ⟨.number (literal_of_proper spells.proper negative), ?_⟩
  rw [float32?, numeral?, spells.proper.strict? negative]
  simp only [Option.map_some, Option.bind_eq_bind, Option.bind_some,
    spells.scaled? small negative, hy,
    Option.pure_def]
  exact congrArg some (ofBits_of_value h nearest)

/-- Any other single is written as nothing, which is no number. -/
theorem ofFloat32_of_not_finite (h : ∀ negative m e,
    single.decode x.toBits.toNat ≠ .finite negative m e) :
    ofFloat32 x = .null := by
  rw [ofFloat32, singleLiteral?]
  cases hd : single.decode x.toBits.toNat with
  | finite negative m e => exact absurd hd (h negative m e)
  | _ => rfl

theorem isFinite_iff : x.isFinite ↔
    ∃ negative m e, single.decode x.toBits.toNat = .finite negative m e :=
  BinaryFormat.isFinite_unpack_iff

theorem proper_ofFloat32 (x : Float32) : (ofFloat32 x).Proper := by
  by_cases h : ∃ negative m e, single.decode x.toBits.toNat = .finite negative m e
  · obtain ⟨_, _, _, h⟩ := h
    exact (float32?_of_finite h).1
  · simp only [not_exists] at h
    rw [ofFloat32_of_not_finite h]
    exact .null

/-- The finite singles are those that are read back. -/
theorem float32?_ofFloat32 (x : Float32) :
    (ofFloat32 x).float32? = if x.isFinite then some x else none := by
  split_ifs with finite
  · obtain ⟨_, _, _, h⟩ := isFinite_iff.1 finite
    exact (float32?_of_finite h).2
  · simp only [isFinite_iff, not_exists] at finite
    rw [ofFloat32_of_not_finite finite]
    rfl

end PassTuner.Json
