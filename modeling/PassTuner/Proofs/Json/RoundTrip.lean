import PassTuner.Json.Reader
import PassTuner.Json.Record
import PassTuner.Json.Writer
import Mathlib.Data.List.Forall2

/-!
# Reading back what was written

`Reads text j` says that a text stands for a value wherever it stands, whatever follows it except
for more of a number. Containers read as what their parts read as, with any blanks around the parts,
so both forms of a value, indented and compact, are read back as the value. A list is read back if
its items are, and so are fields that were written under their names.
-/

namespace PassTuner.Json

open Reader

/-- A stretch of blanks. -/
def Blanks (gap : List Char) : Prop := ∀ c ∈ gap, c = ' ' ∨ c = '\n' ∨ c = '\t' ∨ c = '\r'

/-- The first character of a value: no blank, and nothing that closes a container. -/
def Starts (text : List Char) : Prop :=
  ∃ c rest, text = c :: rest ∧ ¬(c = ' ' ∨ c = '\n' ∨ c = '\t' ∨ c = '\r') ∧ c ≠ ']' ∧ c ≠ '\x7d'

/-- No number goes on at the front of a text. -/
def Ends (rest : List Char) : Prop := ∀ c ∈ rest.head?, isNumberChar c = false

structure Reads (text : List Char) (j : Json) : Prop where
  starts : Starts text
  value : ∀ fuel rest, text.length < fuel → Ends rest → value fuel (text ++ rest) = .ok (j, rest)

theorem blanks_nil : Blanks [] := by simp [Blanks]

theorem blanks_newline (depth : Nat) : Blanks (newline depth) := by
  intro c hc
  rcases List.mem_cons.1 hc with rfl | hc
  · simp
  · exact .inl (List.eq_of_mem_replicate hc)

theorem skipBlanks_append {gap : List Char} (h : Blanks gap) (rest : List Char) :
    skipBlanks (gap ++ rest) = skipBlanks rest := by
  induction gap with
  | nil => rfl
  | cons c gap ih =>
    have hc := h c (by simp)
    rw [← ih fun d hd => h d (by simp [hd])]
    simp [skipBlanks, hc]

theorem skipBlanks_of_starts {text : List Char} (h : Starts text) (rest : List Char) :
    skipBlanks (text ++ rest) = text ++ rest := by
  obtain ⟨c, more, rfl, hc, _⟩ := h
  simp only [not_or] at hc
  simp [skipBlanks, hc]

theorem skipBlanks_gap {gap : List Char} (h : Blanks gap) {c : Char}
    (hc : ¬(c = ' ' ∨ c = '\n' ∨ c = '\t' ∨ c = '\r')) (rest : List Char) :
    skipBlanks (gap ++ c :: rest) = c :: rest := by
  rw [skipBlanks_append h]
  simp only [not_or] at hc
  simp [skipBlanks, hc]

theorem ends_gap {gap : List Char} (h : Blanks gap) {c : Char} (hc : isNumberChar c = false)
    (rest : List Char) : Ends (gap ++ c :: rest) := by
  intro d hd
  cases gap with
  | nil =>
    cases hd
    exact hc
  | cons e gap =>
    cases hd
    rcases h d (by simp) with rfl | rfl | rfl | rfl <;> decide

@[simp] theorem joined_singleton (separator part : List Char) : joined separator [part] = part := by
  simp [joined]

theorem joined_cons_cons (separator part next : List Char) (parts : List (List Char)) :
    joined separator (part :: next :: parts) =
      part ++ separator ++ joined separator (next :: parts) := by
  simp [joined]

theorem starts_joined {part : List Char} (h : Starts part) (separator : List Char)
    (parts : List (List Char)) : Starts (joined separator (part :: parts)) := by
  obtain ⟨c, more, rfl, hc⟩ := h
  cases parts with
  | nil => exact ⟨c, more, by simp, hc⟩
  | cons next parts => exact ⟨c, _, by rw [joined_cons_cons]; rfl, hc⟩

/-! ## Containers -/

variable {gap front back : List Char}

/-- Items one behind the other are read as the end of an array. -/
theorem items_joined (hgap : Blanks gap) (hback : Blanks back) {texts : List (List Char)}
    {items : List Json} (h : List.Forall₂ Reads texts items) (hne : texts ≠ []) (rest : List Char)
    (done : List Json) (fuel : Nat) (hfuel : (joined (',' :: gap) texts).length + 1 < fuel) :
    Reader.items fuel done (joined (',' :: gap) texts ++ (back ++ ']' :: rest)) =
      .ok (.array (done.reverse ++ items), rest) := by
  induction h generalizing done fuel with
  | nil => exact absurd rfl hne
  | @cons text item texts items hr hrs ih =>
    obtain ⟨fuel, rfl⟩ : ∃ n, fuel = n + 1 := ⟨fuel - 1, by omega⟩
    have close := skipBlanks_gap hback (c := ']') (by decide) rest
    cases hrs with
    | nil =>
      rw [joined_singleton] at hfuel ⊢
      have hv := hr.value fuel (back ++ ']' :: rest) (by omega) (ends_gap hback (by decide) rest)
      simp [Reader.items, hv, close]
    | @cons next item' texts items hn hrs =>
      rw [joined_cons_cons] at hfuel ⊢
      simp only [List.length_append, List.length_cons] at hfuel
      have hlen : 0 < text.length := by obtain ⟨c, more, rfl, _⟩ := hr.starts; simp
      have hskip := skipBlanks_of_starts (starts_joined hn.starts (',' :: gap) texts)
        (back ++ ']' :: rest)
      have hrec := ih (by simp) (item :: done) fuel (by omega)
      have hv := hr.value fuel (',' :: (gap ++ (joined (',' :: gap) (next :: texts) ++
        (back ++ ']' :: rest)))) (by omega) (ends_gap blanks_nil (by decide) _)
      have comma := skipBlanks_gap blanks_nil (c := ',') (by decide)
        (gap ++ (joined (',' :: gap) (next :: texts) ++ (back ++ ']' :: rest)))
      rw [List.nil_append] at comma
      simp only [List.append_assoc, List.cons_append, Reader.items, hv, comma,
        skipBlanks_append hgap, hskip, hrec, List.reverse_cons, List.nil_append]

theorem reads_array (hfront : Blanks front) (hgap : Blanks gap) (hback : Blanks back)
    {texts : List (List Char)} {items : List Json} (h : List.Forall₂ Reads texts items)
    (hne : texts ≠ []) :
    Reads ('[' :: (front ++ (joined (',' :: gap) texts ++ (back ++ [']'])))) (.array items) := by
  refine ⟨⟨_, _, rfl, by decide⟩, fun fuel rest hfuel _ => ?_⟩
  obtain ⟨fuel, rfl⟩ : ∃ n, fuel = n + 1 := ⟨fuel - 1, by omega⟩
  simp only [List.length_cons, List.length_append] at hfuel
  have hstart : Starts (joined (',' :: gap) texts) := by
    cases h with
    | nil => exact absurd rfl hne
    | cons hr _ => exact starts_joined hr.starts _ _
  have hitems := items_joined hgap hback h hne rest [] fuel (by omega)
  have hskip := skipBlanks_of_starts hstart (back ++ ']' :: rest)
  obtain ⟨c, more, hc, _, hclose, _⟩ := hstart
  rw [hc] at hitems hskip
  simp only [List.cons_append, List.append_assoc, List.nil_append, Reader.value,
    skipBlanks_append hfront, hc] at hitems hskip ⊢
  rw [hskip]
  simpa [hclose] using hitems

/-! ## Objects -/

/-- Characters that are read up to the quote behind them. -/
def Quotable (quoted : List Char) : Prop :=
  ∀ rest, Reader.quoted [] (quoted ++ '"' :: rest) = .ok (quoted, rest)

/-- How a member is written: its name, a colon with blanks behind it, and its value. -/
def memberText (gap : List Char) (name text : List Char) : List Char :=
  quote name ++ ':' :: (gap ++ text)

/-- A text reads as a member of an object. -/
inductive ReadsMember (gap : List Char) : List Char → List Char × Json → Prop where
  | intro {name text : List Char} {j : Json} : Quotable name → Reads text j →
      ReadsMember gap (memberText gap name text) (name, j)

theorem ReadsMember.starts {text : List Char} {m : List Char × Json}
    (h : ReadsMember gap text m) : Starts text := by
  cases h
  exact ⟨'"', _, rfl, by decide⟩

theorem members_joined {colon : List Char} (hcolon : Blanks colon) (hgap : Blanks gap)
    (hback : Blanks back) {texts : List (List Char)} {members : List (List Char × Json)}
    (h : List.Forall₂ (ReadsMember colon) texts members) (hne : texts ≠ []) (rest : List Char)
    (done : List (List Char × Json)) (fuel : Nat)
    (hfuel : (joined (',' :: gap) texts).length + 1 < fuel) :
    Reader.members fuel done (joined (',' :: gap) texts ++ (back ++ '\x7d' :: rest)) =
      .ok (.object (done.reverse ++ members), rest) := by
  induction h generalizing done fuel with
  | nil => exact absurd rfl hne
  | @cons text member texts members hr hrs ih =>
    obtain ⟨fuel, rfl⟩ : ∃ n, fuel = n + 1 := ⟨fuel - 1, by omega⟩
    cases hr with
    | @intro name text j hname hr =>
    have close := skipBlanks_gap hback (c := '\x7d') (by decide) rest
    have colons (more : List Char) :=
      skipBlanks_gap blanks_nil (c := ':') (by decide) (colon ++ (text ++ more))
    have values (more : List Char) := skipBlanks_of_starts hr.starts more
    simp only [List.nil_append] at colons
    cases hrs with
    | nil =>
      rw [joined_singleton] at hfuel ⊢
      simp only [memberText, quote, List.length_append, List.length_cons] at hfuel
      have hv := hr.value fuel (back ++ '\x7d' :: rest) (by omega) (ends_gap hback (by decide) rest)
      simp [memberText, quote, Reader.members, hname _, colons,
        skipBlanks_append hcolon, values, hv,
        close]
    | @cons next member texts members hn hrs =>
      rw [joined_cons_cons] at hfuel ⊢
      simp only [memberText, quote, List.length_append, List.length_cons] at hfuel
      have hskip := skipBlanks_of_starts (starts_joined hn.starts (',' :: gap) texts)
        (back ++ '\x7d' :: rest)
      have hrec := ih (by simp) ((name, j) :: done) fuel (by omega)
      have hv := hr.value fuel (',' :: (gap ++ (joined (',' :: gap) (next :: texts) ++
        (back ++ '\x7d' :: rest)))) (by omega) (ends_gap blanks_nil (by decide) _)
      have comma := skipBlanks_gap blanks_nil (c := ',') (by decide)
        (gap ++ (joined (',' :: gap) (next :: texts) ++ (back ++ '\x7d' :: rest)))
      rw [List.nil_append] at comma
      simp only [memberText, quote, List.append_assoc, List.cons_append, List.nil_append,
        Reader.members, hname _, colons, skipBlanks_append hcolon, values, hv, comma,
        skipBlanks_append hgap, hskip, hrec, List.reverse_cons]

theorem reads_object {colon : List Char} (hcolon : Blanks colon) (hfront : Blanks front)
    (hgap : Blanks gap) (hback : Blanks back) {texts : List (List Char)}
    {members : List (List Char × Json)} (h : List.Forall₂ (ReadsMember colon) texts members)
    (hne : texts ≠ []) :
    Reads ('\x7b' :: (front ++ (joined (',' :: gap) texts ++ (back ++ ['\x7d']))))
      (.object members) := by
  refine ⟨⟨_, _, rfl, by decide⟩, fun fuel rest hfuel _ => ?_⟩
  obtain ⟨fuel, rfl⟩ : ∃ n, fuel = n + 1 := ⟨fuel - 1, by omega⟩
  simp only [List.length_cons, List.length_append] at hfuel
  have hstart : Starts (joined (',' :: gap) texts) := by
    cases h with
    | nil => exact absurd rfl hne
    | cons hr _ => exact starts_joined hr.starts _ _
  have hmembers := members_joined hcolon hgap hback h hne rest [] fuel (by omega)
  have hskip := skipBlanks_of_starts hstart (back ++ '\x7d' :: rest)
  obtain ⟨c, more, hc, _, _, hclose⟩ := hstart
  rw [hc] at hmembers hskip
  simp only [List.cons_append, List.append_assoc, List.nil_append, Reader.value,
    skipBlanks_append hfront, hc] at hmembers hskip ⊢
  rw [hskip]
  simpa [hclose] using hmembers

theorem reads_empty_array : Reads ['[', ']'] (.array []) := by
  refine ⟨⟨_, _, rfl, by decide⟩, fun fuel rest hfuel _ => ?_⟩
  obtain ⟨fuel, rfl⟩ : ∃ n, fuel = n + 1 := ⟨fuel - 1, by omega⟩
  simp [Reader.value, skipBlanks]

theorem reads_empty_object : Reads ['\x7b', '\x7d'] (.object []) := by
  refine ⟨⟨_, _, rfl, by decide⟩, fun fuel rest hfuel _ => ?_⟩
  obtain ⟨fuel, rfl⟩ : ∃ n, fuel = n + 1 := ⟨fuel - 1, by omega⟩
  simp [Reader.value, skipBlanks]

/-! ## Scalars -/

theorem reads_string {quoted : List Char} (h : Quotable quoted) :
    Reads (quote quoted) (.string quoted) := by
  refine ⟨⟨_, _, rfl, by decide⟩, fun fuel rest hfuel _ => ?_⟩
  obtain ⟨fuel, rfl⟩ : ∃ n, fuel = n + 1 := ⟨fuel - 1, by omega⟩
  simp [quote, Reader.value, h rest, Except.map]

theorem reads_word {text : List Char} {j : Json}
    (h : (text, j) ∈ [(['t', 'r', 'u', 'e'], Json.boolean true),
      (['f', 'a', 'l', 's', 'e'], .boolean false), (['n', 'u', 'l', 'l'], .null)]) :
    Reads text j := by
  simp only [List.mem_cons, Prod.mk.injEq, List.not_mem_nil, or_false] at h
  rcases h with ⟨rfl, rfl⟩ | ⟨rfl, rfl⟩ | ⟨rfl, rfl⟩ <;>
  · refine ⟨⟨_, _, rfl, by decide⟩, fun fuel rest hfuel _ => ?_⟩
    obtain ⟨fuel, rfl⟩ : ∃ n, fuel = n + 1 := ⟨fuel - 1, by omega⟩
    simp [Reader.value, Reader.word]

/-- A number literal of the grammar. -/
structure Literal (text : List Char) : Prop where
  chars : ∀ c ∈ text, isNumberChar c
  strict : ∃ n, Numeral.strict? text = some (n, [])

theorem reads_number {literal : List Char} (h : Literal literal) :
    Reads literal (.number literal) := by
  obtain ⟨n, hn⟩ := h.strict
  obtain ⟨c, more, rfl⟩ : ∃ c more, literal = c :: more := by
    cases literal with
    | nil => cases hn
    | cons c more => exact ⟨c, more, rfl⟩
  have hc : isNumberChar c := h.chars c (by simp)
  have other {d : Char} (hd : isNumberChar d = false) : c ≠ d := by
    rintro rfl
    rw [hc] at hd
    cases hd
  refine ⟨⟨c, more, rfl, ?_, other (by decide), other (by decide)⟩, fun fuel rest hfuel hends => ?_⟩
  · simp [other (d := ' ') (by decide), other (d := '\n') (by decide),
      other (d := '\t') (by decide), other (d := '\r') (by decide)]
  · obtain ⟨fuel, rfl⟩ : ∃ n, fuel = n + 1 := ⟨fuel - 1, by omega⟩
    have taken : (c :: more ++ rest).takeWhile isNumberChar = c :: more := by
      rw [List.takeWhile_append_of_pos h.chars]
      cases rest with
      | nil => simp
      | cons d rest => simp [hends d (by simp)]
    have dropped : (c :: more ++ rest).dropWhile isNumberChar = rest := by
      rw [List.dropWhile_append_of_pos h.chars]
      cases rest with
      | nil => simp
      | cons d rest => simp [hends d (by simp)]
    rw [List.cons_append] at taken dropped ⊢
    rw [Reader.value]
    · simp only [taken, dropped, hn]
    · rintro ⟨⟩
    all_goals
      intro _ heq
      cases heq
      simp [isNumberChar] at hc

/-! ## Texts -/

theorem quoted_plain {c : Char} (quote : c ≠ '"') (backslash : c ≠ '\\') (h : ¬c.toNat < 0x20)
    (done rest : List Char) : quoted done (c :: rest) = quoted (c :: done) rest := by
  rw [quoted]
  · simp [h]
  all_goals simp_all

theorem quoted_control {n : Nat} (h : n < 0x20) (done rest : List Char) :
    quoted done ('\\' :: 'u' :: '0' :: '0' :: hexDigit (n / 16) :: hexDigit (n % 16) :: rest) =
      quoted
        (hexDigit (n % 16) :: hexDigit (n / 16) :: '0' :: '0' :: 'u' :: '\\' :: done) rest := by
  rw [quoted]
  simp [codeUnit?_control h]

theorem quoted_escapeChar (c : Char) (done rest : List Char) :
    quoted done (escapeChar c ++ rest) = quoted ((escapeChar c).reverse ++ done) rest := by
  by_cases quote : c = '"'
  · subst quote
    simp [escapeChar, quoted, shortEscape?]
  by_cases backslash : c = '\\'
  · subst backslash
    simp [escapeChar, quoted, shortEscape?]
  unfold escapeChar
  rw [if_neg quote, if_neg backslash]
  iterate 5
    split
    · simp [quoted, shortEscape?]
  split
  · rename_i h
    exact quoted_control h done rest
  · rename_i h
    exact quoted_plain quote backslash h done rest

theorem quotable_escape (text : List Char) : Quotable (escape text) := by
  have step (done rest : List Char) :
      quoted done (escape text ++ '"' :: rest) = .ok (done.reverse ++ escape text, rest) := by
    induction text generalizing done with
    | nil => simp [escape, quoted]
    | cons c text ih =>
      have hc : escape (c :: text) = escapeChar c ++ escape text := by simp [escape]
      rw [hc, List.append_assoc, quoted_escapeChar, ih]
      simp
  intro rest
  simpa using step [] rest

/-! ## Values -/

/-- A value all of whose strings and numbers are written as the grammar has it. -/
inductive Proper : Json → Prop where
  | null : Proper .null
  | boolean (b : Bool) : Proper (.boolean b)
  | number {literal : List Char} : Literal literal → Proper (.number literal)
  | string {quoted : List Char} : Quotable quoted → Proper (.string quoted)
  | array {items : List Json} : (∀ j ∈ items, Proper j) → Proper (.array items)
  | object {members : List (List Char × Json)} :
      (∀ m ∈ members, Quotable m.1) → (∀ m ∈ members, Proper m.2) → Proper (.object members)

theorem proper_ofText (text : String) : Proper (.ofText text) := .string (quotable_escape _)

theorem proper_ofFields {fields : List (String × Json)} (h : ∀ f ∈ fields, Proper f.2) :
    Proper (.ofFields fields) := by
  refine .object ?_ ?_
  · intro m hm
    obtain ⟨f, _, rfl⟩ := List.mem_map.1 hm
    exact quotable_escape _
  · intro m hm
    obtain ⟨f, hf, rfl⟩ := List.mem_map.1 hm
    exact h f hf

theorem forall₂_indentedItems {items : List Json} (depth : Nat)
    (h : ∀ j ∈ items, Reads (indentedChars depth j) j) :
    List.Forall₂ Reads (indentedItems depth items) items := by
  induction items with
  | nil => exact .nil
  | cons item items ih =>
    rw [indentedItems]
    exact .cons (h item (by simp)) (ih fun j hj => h j (by simp [hj]))

theorem forall₂_indentedMembers {members : List (List Char × Json)} (depth : Nat)
    (hnames : ∀ m ∈ members, Quotable m.1)
    (h : ∀ m ∈ members, Reads (indentedChars depth m.2) m.2) :
    List.Forall₂ (ReadsMember [' ']) (indentedMembers depth members) members := by
  induction members with
  | nil => exact .nil
  | cons member members ih =>
    obtain ⟨name, j⟩ := member
    rw [indentedMembers]
    exact .cons (.intro (hnames (name, j) (by simp)) (h (name, j) (by simp)))
      (ih (fun m hm => hnames m (by simp [hm])) fun m hm => h m (by simp [hm]))

theorem reads_indentedChars {j : Json} (h : Proper j) (depth : Nat) :
    Reads (indentedChars depth j) j := by
  induction h generalizing depth with
  | null => exact reads_word (by simp [indentedChars, scalar])
  | boolean b => cases b <;> exact reads_word (by simp [indentedChars, scalar])
  | number h => exact reads_number h
  | string h => exact reads_string h
  | @array items _ ih =>
    rw [indentedChars, block]
    cases items with
    | nil => exact reads_empty_array
    | cons item items =>
      have h := forall₂_indentedItems (depth + 1) fun j hj => ih j hj (depth + 1)
      simpa [indentedItems] using reads_array (blanks_newline (depth + 1))
        (blanks_newline (depth + 1)) (blanks_newline depth) h (by simp [indentedItems])
  | @object members hnames _ ih =>
    rw [indentedChars, block]
    cases members with
    | nil => exact reads_empty_object
    | cons member members =>
      have h := forall₂_indentedMembers (depth + 1) hnames fun m hm => ih m hm (depth + 1)
      have hb : Blanks [' '] := by simp [Blanks]
      simpa [indentedMembers] using reads_object hb (blanks_newline (depth + 1))
        (blanks_newline (depth + 1)) (blanks_newline depth) h (by simp [indentedMembers])

/-! The compact form is the one without blanks around the parts. -/

theorem forall₂_compactItems {items : List Json} (h : ∀ j ∈ items, Reads (compactChars j) j) :
    List.Forall₂ Reads (compactItems items) items := by
  induction items with
  | nil => exact .nil
  | cons item items ih =>
    rw [compactItems]
    exact .cons (h item (by simp)) (ih fun j hj => h j (by simp [hj]))

theorem forall₂_compactMembers {members : List (List Char × Json)}
    (hnames : ∀ m ∈ members, Quotable m.1) (h : ∀ m ∈ members, Reads (compactChars m.2) m.2) :
    List.Forall₂ (ReadsMember []) (compactMembers members) members := by
  induction members with
  | nil => exact .nil
  | cons member members ih =>
    obtain ⟨name, j⟩ := member
    rw [compactMembers]
    exact .cons (.intro (hnames (name, j) (by simp)) (h (name, j) (by simp)))
      (ih (fun m hm => hnames m (by simp [hm])) fun m hm => h m (by simp [hm]))

theorem reads_compactChars {j : Json} (h : Proper j) : Reads (compactChars j) j := by
  induction h with
  | null => exact reads_word (by simp [compactChars, scalar])
  | boolean b => cases b <;> exact reads_word (by simp [compactChars, scalar])
  | number h => exact reads_number h
  | string h => exact reads_string h
  | @array items _ ih =>
    rw [compactChars]
    cases items with
    | nil => exact reads_empty_array
    | cons item items =>
      exact reads_array blanks_nil blanks_nil blanks_nil (forall₂_compactItems ih)
        (by simp [compactItems])
  | @object members hnames _ ih =>
    rw [compactChars]
    cases members with
    | nil => exact reads_empty_object
    | cons member members =>
      exact reads_object blanks_nil blanks_nil blanks_nil blanks_nil
        (forall₂_compactMembers hnames ih) (by simp [compactMembers])

/-- A text that reads as a value is parsed as it. -/
theorem Reads.parse {text : List Char} {j : Json} (h : Reads text j) :
    parse (String.ofList text) = .ok j := by
  have hskip := skipBlanks_of_starts h.starts []
  have hv := h.value (text.length + 1) [] (by omega) (by simp [Ends])
  rw [List.append_nil] at hskip hv
  have hend : skipBlanks [] = [] := rfl
  simp [Json.parse, hskip, hv, hend]

/-- What is written in the indented form is read back. -/
theorem parse_indented {j : Json} (h : Proper j) : parse j.indented = .ok j :=
  (reads_indentedChars h 0).parse

/-- What is written in the compact form is read back. -/
theorem parse_compact {j : Json} (h : Proper j) : parse j.compact = .ok j :=
  (reads_compactChars h).parse

/-! ## Lists and records -/

/-- A list is read back if each of its items is. -/
theorem list?_map {α β : Type} {read : Json → Option β} {write : α → Json} {f : α → β}
    {p : α → Bool}
    {xs : List α} (h : ∀ a ∈ xs, read (write a) = if p a then some (f a) else none) :
    list? read (.array (xs.map write)) = if xs.all p then some (xs.map f) else none := by
  rw [list?]
  induction xs with
  | nil => rfl
  | cons a xs ih =>
    obtain ⟨first, others⟩ := List.forall_mem_cons.1 h
    rw [List.map_cons, List.mapM_cons, first, ih others, List.all_cons, List.map_cons]
    cases p a <;> cases xs.all p <;> rfl

theorem lookup_eq_none {name : String} {fields : List (String × Json)}
    (h : name ∉ fields.map (·.1)) :
    fields.lookup name = none := by
  refine List.lookup_eq_none_iff.2 fun field hfield => ?_
  simp only [bne_iff_ne, ne_eq]
  rintro rfl
  exact h (List.mem_map_of_mem hfield)

/-- By induction on the fields: none of them stands a second time. -/
theorem fieldsOf_members {names : List String} {fields : List (String × Json)}
    (known : fields.map (·.1) ⊆ names) (once : (fields.map (·.1)).Nodup) :
    fieldsOf names (fields.map fun (name, value) => (escape name.toList, value)) = some fields := by
  induction fields with
  | nil => rfl
  | cons field fields ih =>
    obtain ⟨name, value⟩ := field
    rw [List.map_cons, List.nodup_cons] at once
    rw [List.map_cons, List.cons_subset] at known
    rw [List.map_cons, fieldsOf, unescape?_escape, ih known.2 once.2]
    simp [known.1, lookup_eq_none once.1]

/-- Fields that are written under their names are all there again. -/
theorem record?_ofFields (fields : List (String × Json)) (once : (fields.map (·.1)).Nodup) :
    (ofFields fields).record? (fields.map (·.1)) = some ⟨fields, true⟩ := by
  rw [ofFields, record?, fieldsOf_members (List.Subset.refl _) once]
  rfl

end PassTuner.Json
