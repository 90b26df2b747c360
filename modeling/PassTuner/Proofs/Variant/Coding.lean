import PassTuner.Proofs.Catalog.Describing

/-!
# Codes and variants

The codes are just the texts of an even number of bytes with characters of `[0-9a-z]`, each of one
variant. A code is two characters for each action, so codes extend each other as the action
sequences do. Main statement: `codes_are_variants`.
-/

namespace PassTuner

namespace Variant

/-- The characters `[0-9a-z]`. -/
def CodeCharacter (c : Char) : Prop := '0' ≤ c ∧ c ≤ '9' ∨ 'a' ≤ c ∧ c ≤ 'z'

instance (c : Char) : Decidable (CodeCharacter c) := inferInstanceAs (Decidable (_ ∨ _))

variable {c high low : Char} {s : String} {v w : Variant} {a b : ActionId}
  {actions : List ActionId} {characters : List Char}

/-! ## Digits -/

theorem codeCharacter_iff :
    CodeCharacter c ↔ 48 ≤ c.toNat ∧ c.toNat ≤ 57 ∨ 97 ≤ c.toNat ∧ c.toNat ≤ 122 := by
  simp only [CodeCharacter, Char.le_def, UInt32.le_iff_toNat_le]
  rfl

theorem isDigit_iff : c.isDigit ↔ 48 ≤ c.toNat ∧ c.toNat ≤ 57 := by
  simp only [Char.isDigit, ge_iff_le, Bool.and_eq_true, decide_eq_true_eq,
    UInt32.le_iff_toNat_le]
  rfl

theorem isLetter_iff : 'a' ≤ c ∧ c ≤ 'z' ↔ 97 ≤ c.toNat ∧ c.toNat ≤ 122 := by
  simp only [Char.le_def, UInt32.le_iff_toNat_le]
  rfl

/-- A digit's value is below 36, and the digit is the one with that value. -/
theorem digit_of_digitValue? {n : Nat} (h : digitValue? c = some n) : n < 36 ∧ digit n = c := by
  unfold digitValue? at h
  split at h
  case isTrue hdigit =>
    have hrange := isDigit_iff.1 hdigit
    obtain rfl : c.toNat - 48 = n := Option.some.inj h
    have hsum : 48 + (c.toNat - 48) = c.toNat := by omega
    constructor
    · omega
    · rw [digit, if_pos (by omega), hsum, Char.ofNat_toNat]
  case isFalse =>
    split at h
    case isTrue hletter =>
      have hrange := isLetter_iff.1 hletter
      obtain rfl : c.toNat - 87 = n := Option.some.inj h
      have hsum : 87 + (c.toNat - 87) = c.toNat := by omega
      constructor
      · omega
      · rw [digit, if_neg (by omega), hsum, Char.ofNat_toNat]
    case isFalse => cases h

theorem isSome_digitValue? : (digitValue? c).isSome ↔ CodeCharacter c := by
  rw [codeCharacter_iff]
  unfold digitValue?
  split
  case isTrue hdigit => simp [isDigit_iff.1 hdigit]
  case isFalse hdigit =>
    have hother := mt isDigit_iff.2 hdigit
    split
    case isTrue hletter => simp [isLetter_iff.1 hletter]
    case isFalse hletter =>
      have hneither := mt isLetter_iff.2 hletter
      simp [hother, hneither]

theorem digit_injective {m n : Nat} (hm : m < 36) (hn : n < 36) (h : digit m = digit n) :
    m = n := by
  have hvalue := congrArg digitValue? h
  rw [digitValue?_digit hm, digitValue?_digit hn] at hvalue
  exact Option.some.inj hvalue

theorem utf8Size_of_codeCharacter (h : CodeCharacter c) : c.utf8Size = 1 := by
  obtain ⟨n, hn⟩ := Option.isSome_iff_exists.1 (isSome_digitValue?.2 h)
  obtain ⟨hlt, rfl⟩ := digit_of_digitValue? hn
  exact utf8Size_digit hlt

/-! ## The code of one action -/

theorem digits_lt (h : a.toNat < maxActions) : a.toNat / 36 < 36 ∧ a.toNat % 36 < 36 := by
  unfold maxActions at h
  omega

theorem encodeAction_injective (ha : a.toNat < maxActions) (hb : b.toNat < maxActions)
    (h : encodeAction a = encodeAction b) : a = b := by
  obtain ⟨hhigh, hlow⟩ : digit (a.toNat / 36) = digit (b.toNat / 36) ∧
      digit (a.toNat % 36) = digit (b.toNat % 36) := by
    simpa [encodeAction] using h
  have hdiv := digit_injective (digits_lt ha).1 (digits_lt hb).1 hhigh
  have hmod := digit_injective (digits_lt ha).2 (digits_lt hb).2 hlow
  apply UInt16.toNat.inj
  omega

/-- What is read from two characters is an action with these two characters as its code. -/
theorem encodeAction_of_actionOf? {action : { a : ActionId // a.toNat < maxActions }}
    (h : actionOf? high low = some action) : encodeAction action.1 = [high, low] := by
  simp only [actionOf?, Option.bind_eq_bind, Option.bind_eq_some_iff] at h
  obtain ⟨m, hm, n, hn, h⟩ := h
  obtain ⟨hmlt, rfl⟩ := digit_of_digitValue? hm
  obtain ⟨hnlt, rfl⟩ := digit_of_digitValue? hn
  split at h
  case isFalse => cases h
  case isTrue hlt =>
    cases h
    have hvalue : (UInt16.ofNat (m * 36 + n)).toNat = m * 36 + n := by
      rw [UInt16.toNat_ofNat']
      omega
    have hdiv : (m * 36 + n) / 36 = m := by omega
    have hmod : (m * 36 + n) % 36 = n := by omega
    rw [encodeAction, hvalue, hdiv, hmod]

/-- Any two digits are the code of an action: two digits of base 36 stay below the bound. -/
theorem isSome_actionOf? :
    (actionOf? high low).isSome ↔ CodeCharacter high ∧ CodeCharacter low := by
  constructor
  · intro h
    obtain ⟨action, haction⟩ := Option.isSome_iff_exists.1 h
    simp only [actionOf?, Option.bind_eq_bind, Option.bind_eq_some_iff] at haction
    obtain ⟨m, hm, n, hn, -⟩ := haction
    exact ⟨isSome_digitValue?.1 (by simp [hm]), isSome_digitValue?.1 (by simp [hn])⟩
  · rintro ⟨hhigh, hlow⟩
    obtain ⟨m, hm⟩ := Option.isSome_iff_exists.1 (isSome_digitValue?.2 hhigh)
    obtain ⟨n, hn⟩ := Option.isSome_iff_exists.1 (isSome_digitValue?.2 hlow)
    have hmlt := (digit_of_digitValue? hm).1
    have hnlt := (digit_of_digitValue? hn).1
    have hlt : (UInt16.ofNat (m * 36 + n)).toNat < maxActions := by
      rw [UInt16.toNat_ofNat', Nat.mod_eq_of_lt (by omega), maxActions]
      omega
    simp only [actionOf?, hm, hn, Option.bind_eq_bind, Option.bind_some, dif_pos hlt]
    rfl

/-! ## Reading a code -/

theorem code_of_ofCode? (h : ofCode? characters = some v) : v.code = characters := by
  fun_induction ofCode? characters generalizing v with
  | case1 =>
    cases h
    rfl
  | case2 => cases h
  | case3 high low rest ih =>
    simp only [Option.bind_eq_bind, Option.bind_eq_some_iff] at h
    obtain ⟨action, haction, u, hu, h⟩ := h
    cases h
    have hrest : u.actions.flatMap encodeAction = rest := ih hu
    rw [code, List.flatMap_cons, encodeAction_of_actionOf? haction, hrest]
    rfl

theorem isSome_ofCode? :
    (ofCode? characters).isSome ↔
      characters.length % 2 = 0 ∧ ∀ c ∈ characters, CodeCharacter c := by
  fun_induction ofCode? characters with
  | case1 => simp
  | case2 => simp
  | case3 high low rest ih =>
    have hparity : (rest.length + 1 + 1) % 2 = rest.length % 2 := by omega
    have hparts : (high :: low :: rest).length % 2 = 0 ∧
        (∀ c ∈ high :: low :: rest, CodeCharacter c) ↔
        (actionOf? high low).isSome ∧ (ofCode? rest).isSome := by
      rw [List.length_cons, List.length_cons, hparity, List.forall_mem_cons, List.forall_mem_cons,
        ih, isSome_actionOf?]
      constructor
      · rintro ⟨heven, hhigh, hlow, hrest⟩
        exact ⟨⟨hhigh, hlow⟩, heven, hrest⟩
      · rintro ⟨⟨hhigh, hlow⟩, heven, hrest⟩
        exact ⟨heven, hhigh, hlow, hrest⟩
    rw [hparts]
    cases actionOf? high low <;> cases ofCode? rest <;> simp

/-- Characters of `[0-9a-z]` have one byte each. -/
theorem utf8ByteSize_of_codeCharacters (h : ∀ c ∈ characters, CodeCharacter c) :
    (String.ofList characters).utf8ByteSize = characters.length := by
  induction characters with
  | nil => rfl
  | cons c rest ih =>
    obtain ⟨hc, hrest⟩ := List.forall_mem_cons.1 h
    rw [String.ofList_cons, String.utf8ByteSize_append, String.utf8ByteSize_singleton,
      utf8Size_of_codeCharacter hc, ih hrest, List.length_cons, Nat.add_comm]

theorem decode_eq_ok_iff_ofCode? :
    decode s = .ok v ↔ s.utf8ByteSize % 2 = 0 ∧ ofCode? s.toList = some v := by
  unfold decode
  split
  case isTrue hodd => simp [hodd]
  case isFalse heven =>
    have hzero : s.utf8ByteSize % 2 = 0 := by omega
    cases ofCode? s.toList <;> simp [hzero]

theorem decode_eq_ok_iff : decode s = .ok v ↔ v.encode = s := by
  constructor
  · intro h
    have hcode := code_of_ofCode? (decode_eq_ok_iff_ofCode?.1 h).2
    rw [encode, hcode, String.ofList_toList]
  · rintro rfl
    exact decode_encode v

theorem exists_decode_iff :
    (∃ v, decode s = .ok v) ↔ s.utf8ByteSize % 2 = 0 ∧ ∀ c ∈ s.toList, CodeCharacter c := by
  have hsize (h : ∀ c ∈ s.toList, CodeCharacter c) : s.utf8ByteSize = s.toList.length := by
    simpa using utf8ByteSize_of_codeCharacters h
  simp only [decode_eq_ok_iff_ofCode?, exists_and_left, ← Option.isSome_iff_exists,
    isSome_ofCode?]
  constructor
  · rintro ⟨heven, -, hall⟩
    exact ⟨heven, hall⟩
  · rintro ⟨heven, hall⟩
    exact ⟨heven, hsize hall ▸ heven, hall⟩

/-! ## Codes as bytes -/

/-- The bytes of a text, each as a character. -/
def byteCharacters (s : String) : List Char := s.toUTF8.data.toList.map Char.ofUInt8

theorem byteCharacters_ofList (characters : List Char) :
    byteCharacters (String.ofList characters) =
      characters.flatMap fun c => (String.utf8EncodeChar c).map Char.ofUInt8 := by
  simp [byteCharacters, List.utf8Encode, List.map_flatMap]

theorem bytes_of_codeCharacter (h : CodeCharacter c) :
    (String.utf8EncodeChar c).map Char.ofUInt8 = [c] := by
  obtain ⟨n, hn⟩ := Option.isSome_iff_exists.1 (isSome_digitValue?.2 h)
  obtain ⟨hlt, rfl⟩ := digit_of_digitValue? hn
  exact (by decide : ∀ n < 36, (String.utf8EncodeChar (digit n)).map Char.ofUInt8 = [digit n]) n hlt

theorem bytes_of_codeCharacters (h : ∀ c ∈ characters, CodeCharacter c) :
    (characters.flatMap fun c => (String.utf8EncodeChar c).map Char.ofUInt8) = characters := by
  induction characters with
  | nil => rfl
  | cons c rest ih =>
    obtain ⟨hc, hrest⟩ := List.forall_mem_cons.1 h
    rw [List.flatMap_cons, bytes_of_codeCharacter hc, ih hrest]
    rfl

/-- Beyond ASCII a character starts with a byte above `z`. -/
theorem exists_byte_of_not_codeCharacter (h : ¬ CodeCharacter c) :
    ∃ b ∈ (String.utf8EncodeChar c).map Char.ofUInt8, ¬ CodeCharacter b := by
  have hvalue : c.val.toNat = c.toNat := rfl
  rw [codeCharacter_iff] at h
  by_cases hascii : c.toNat ≤ 127
  · refine ⟨Char.ofUInt8 (UInt8.ofNat c.toNat), by simp [String.utf8EncodeChar, hascii, hvalue], ?_⟩
    have hbyte : (Char.ofUInt8 (UInt8.ofNat c.toNat)).toNat = c.toNat % 256 := UInt8.toNat_ofNat'
    rw [codeCharacter_iff, hbyte]
    omega
  · obtain ⟨n, others, hn, hlarge⟩ : ∃ n others,
        String.utf8EncodeChar c = UInt8.ofNat n :: others ∧ 192 ≤ n ∧ n < 256 := by
      unfold String.utf8EncodeChar
      simp only [hvalue, if_neg hascii]
      split
      · exact ⟨_, _, rfl, by omega, by omega⟩
      · split
        · exact ⟨_, _, rfl, by omega, by omega⟩
        · exact ⟨_, _, rfl, by omega, by omega⟩
    refine ⟨Char.ofUInt8 (UInt8.ofNat n), by simp [hn], ?_⟩
    have hbyte : (Char.ofUInt8 (UInt8.ofNat n)).toNat = n % 256 := UInt8.toNat_ofNat'
    rw [codeCharacter_iff, hbyte]
    omega

/-- Reading bytes in the place of characters gives the same variants. -/
theorem ofCode?_byteCharacters (s : String) : ofCode? (byteCharacters s) = ofCode? s.toList := by
  obtain ⟨characters, rfl⟩ : ∃ characters, s = String.ofList characters :=
    ⟨s.toList, String.ofList_toList.symm⟩
  rw [byteCharacters_ofList, String.toList_ofList]
  by_cases hall : ∀ c ∈ characters, CodeCharacter c
  · rw [bytes_of_codeCharacters hall]
  · have hnone : ofCode? characters = none := by
      rw [← Option.not_isSome_iff_eq_none, isSome_ofCode?]
      exact fun h => hall h.2
    rw [hnone, ← Option.not_isSome_iff_eq_none, isSome_ofCode?]
    simp only [Classical.not_forall] at hall
    obtain ⟨c, hc, hother⟩ := hall
    obtain ⟨b, hb, hbyte⟩ := exists_byte_of_not_codeCharacter hother
    exact fun h => hbyte (h.2 b (List.mem_flatMap.2 ⟨c, hc, hb⟩))

/-! ## Building a variant -/

theorem exists_extend?_iff : (∃ w, v.extend? a = .ok w) ↔ a.toNat < maxActions := by
  unfold extend?
  split
  case isTrue h => simp [h]
  case isFalse h => simp [h]

theorem encode_of_extend? (h : v.extend? a = .ok w) :
    w.encode = v.encode ++ String.ofList (encodeAction a) := by
  rw [encode, encode, ← String.ofList_append, code, code, actions_of_extend? h,
    List.flatMap_append, List.flatMap_singleton]

theorem foldlM_extend?_iff :
    actions.foldlM extend? v = .ok w ↔ w.actions = v.actions ++ actions := by
  induction actions generalizing v with
  | nil =>
    simp only [List.foldlM_nil, List.append_nil]
    constructor
    · intro h
      cases h
      rfl
    · intro h
      rw [ext h]
      rfl
  | cons a rest ih =>
    rw [List.foldlM_cons]
    by_cases ha : a.toNat < maxActions
    · have hextend : v.extend? a = .ok (v.extend a ha) := dif_pos ha
      rw [hextend]
      change rest.foldlM extend? (v.extend a ha) = .ok w ↔ _
      rw [ih, extend, List.append_assoc]
      rfl
    · have hextend : v.extend? a = .error (.outOfRange a maxActions) := dif_neg ha
      rw [hextend]
      constructor
      · intro h
        cases h
      · intro h
        exact absurd (w.encodable a (by simp [h])) ha

theorem ofActions?_eq_ok_iff : ofActions? actions = .ok v ↔ v.actions = actions :=
  foldlM_extend?_iff

theorem exists_ofActions?_iff :
    (∃ v, ofActions? actions = .ok v) ↔ ∀ a ∈ actions, a.toNat < maxActions := by
  simp only [ofActions?_eq_ok_iff]
  constructor
  · rintro ⟨v, rfl⟩
    exact v.encodable
  · intro h
    exact ⟨⟨actions, h⟩, rfl⟩

/-! ## Prefixes -/

/-- Induction on the shorter sequence; its first two characters fix the other's first action. -/
theorem prefix_of_code_prefix {shorter longer : List ActionId}
    (hshorter : ∀ a ∈ shorter, a.toNat < maxActions) (hlonger : ∀ a ∈ longer, a.toNat < maxActions)
    (h : shorter.flatMap encodeAction <+: longer.flatMap encodeAction) : shorter <+: longer := by
  induction shorter generalizing longer with
  | nil => exact List.nil_prefix
  | cons a rest ih =>
    cases longer with
    | nil => simp [encodeAction] at h
    | cons b others =>
      obtain ⟨ha, hrest⟩ := List.forall_mem_cons.1 hshorter
      obtain ⟨hb, hothers⟩ := List.forall_mem_cons.1 hlonger
      simp only [List.flatMap_cons, encodeAction, List.cons_append, List.nil_append,
        List.cons_prefix_cons] at h
      obtain ⟨hhigh, hlow, h⟩ := h
      obtain rfl : a = b := encodeAction_injective ha hb (by rw [encodeAction, hhigh, hlow]; rfl)
      exact (List.prefix_cons_inj a).2 (ih hrest hothers h)

theorem actions_prefix_iff :
    v.actions <+: w.actions ↔ v.encode.toList <+: w.encode.toList := by
  simp only [encode, String.toList_ofList]
  constructor
  · rintro ⟨tail, htail⟩
    exact ⟨tail.flatMap encodeAction, by rw [code, code, ← htail, List.flatMap_append]⟩
  · intro h
    exact prefix_of_code_prefix v.encodable w.encodable h

/-- The codec of variants. A sequence has a variant just when a code can tell its actions apart. A
text is a code just when it has an even number of bytes and only characters of `[0-9a-z]`; it is
then the code of what is read from it, and every variant is read from its code. One action more is
two characters more, and prefixes of variants are prefixes of codes. -/
theorem codes_are_variants :
    (∀ actions, (∃ v, ofActions? actions = .ok v) ↔ ∀ a ∈ actions, a.toNat < maxActions) ∧
    (∀ actions v, ofActions? actions = .ok v → v.actions = actions) ∧
    (∀ v, decode v.encode = .ok v) ∧
    (∀ s, (∃ v, decode s = .ok v) ↔
      s.utf8ByteSize % 2 = 0 ∧ ∀ c ∈ s.toList, CodeCharacter c) ∧
    (∀ s v, decode s = .ok v → v.encode = s) ∧
    (∀ (v : Variant) a, (∃ w, v.extend? a = .ok w) ↔ a.toNat < maxActions) ∧
    (∀ (v : Variant) a w, v.extend? a = .ok w → (encodeAction a).length = 2 ∧
      w.encode = v.encode ++ String.ofList (encodeAction a)) ∧
    (∀ v w : Variant, v.actions <+: w.actions ↔ v.encode.toList <+: w.encode.toList) := by
  refine ⟨?sequences, ?built, ?decoded, ?codes, ?encoded, ?extensible, ?extended, ?prefixes⟩
  case sequences => exact fun _ => exists_ofActions?_iff
  case built => exact fun _ _ => ofActions?_eq_ok_iff.1
  case decoded => exact decode_encode
  case codes => exact fun _ => exists_decode_iff
  case encoded => exact fun _ _ => decode_eq_ok_iff.1
  case extensible => exact fun _ _ => exists_extend?_iff
  case extended => exact fun _ _ _ h => ⟨rfl, encode_of_extend? h⟩
  case prefixes => exact fun _ _ => actions_prefix_iff

/-- The two actions 1 and 37 have the code `0111`, read back to them. -/
theorem codes_are_variants_pair :
    ∃ v, ofActions? [1, 37] = .ok v ∧ v.encode = "0111" ∧ decode "0111" = .ok v := by
  obtain ⟨sequences, built, decoded, -⟩ := codes_are_variants
  obtain ⟨v, hv⟩ := (sequences [1, 37]).2 (by simp [maxActions])
  have hcode : v.encode = "0111" := by
    rw [encode, code, built _ _ hv]
    decide
  exact ⟨v, hv, hcode, hcode ▸ decoded v⟩

end Variant

end PassTuner
