import PassTuner.Catalog.Listing
import PassTuner.Proofs.Text.Fields
import PassTuner.Proofs.Text.Lines
import PassTuner.Proofs.Text.Occurrences
import PassTuner.Tool.Simulation
import Mathlib.Data.List.TakeWhile

/-!
# Listings line by line

A listing is searched for its header as one text, and the indentation of the header is taken from
all that follows. Main statement: the flags are those of a reading that only ever looks at the lines
of the listing. So nothing counts that stands before the line of the header or behind the section,
and the help text of a simulation is read back.
-/

namespace PassTuner

namespace Text

variable {pattern text line before after front back : List Char}

/-- Nothing in front of the cut is an occurrence of the pattern. -/
theorem not_infix_of_cut? (hne : pattern ≠ []) (h : cut? pattern text = some (before, after)) :
    ¬pattern <:+: before := by
  induction text generalizing before with
  | nil =>
    rw [cut?, if_neg hne] at h
    cases h
  | cons c rest ih =>
    have whole := eq_of_cut? h
    rw [cut?] at h
    split at h
    · cases h
      simpa using hne
    · rename_i nowhere
      obtain ⟨⟨before', after'⟩, hcut, heq⟩ := Option.map_eq_some_iff.1 h
      cases heq
      intro occurs
      rcases List.infix_cons_iff.1 occurs with begins | occurs
      · refine nowhere (List.isPrefixOf_iff_prefix.2 (begins.trans ?_))
        rw [whole, List.append_assoc]
        exact List.prefix_append _ _
      · exact ih hcut occurs

theorem dropReturn_append (bare : front.getLast? ≠ some '\r') (back : List Char) :
    dropReturn (front ++ back) = front ++ dropReturn back := by
  by_cases hne : back = []
  · subst hne
    have empty : ([] : List Char).getLast? ≠ some '\r' := by decide
    rw [List.append_nil, dropReturn, if_neg bare, dropReturn, if_neg empty, List.append_nil]
  · rw [dropReturn, dropReturn, List.getLast?_append_of_ne_nil _ hne]
    split
    · rw [List.dropLast_append_of_ne_nil hne]
    · rfl

theorem cutLine_append_left (plain : '\n' ∉ front) (text : List Char) :
    cutLine (front ++ text) = (cutLine text).map fun (line, after) => (front ++ line, after) := by
  induction front with
  | nil => simp
  | cons c front ih =>
    rw [List.mem_cons, not_or] at plain
    rw [List.cons_append, cutLine, ih plain.2, Option.map_map]
    · rfl
    · exact Ne.symm plain.1

theorem dropReturn_begins (line : List Char) : dropReturn line <+: line := by
  rw [dropReturn]
  split
  · exact List.dropLast_prefix line
  · exact List.prefix_rfl

/-- The lines of a text stand in it. -/
theorem infix_of_mem_lines (h : line ∈ lines text) : line <:+: text := by
  induction hn : text.length using Nat.strongRecOn generalizing text with
  | ind n ih =>
    cases hcut : cutLine text with
    | none =>
      rw [lines_of_uncut hcut] at h
      split at h
      · cases h
      · exact List.mem_singleton.1 h ▸ List.infix_rfl
    | some cut =>
      obtain ⟨first, rest⟩ := cut
      have shorter := length_of_cutLine hcut
      have whole := eq_of_cutLine hcut
      rw [lines_of_cut hcut] at h
      rcases List.mem_cons.1 h with rfl | h
      · exact (dropReturn_begins first).isInfix.trans ⟨[], '\n' :: rest, by simp [whole]⟩
      · exact (ih rest.length (by omega) h rfl).trans ⟨first ++ ['\n'], [], by simp [whole]⟩

/-- What is indented is not changed by what stands behind the first solid character. -/
theorem indentation_append (solid : ∃ c ∈ front, isBlank c = false) (back : List Char) :
    indentation (front ++ back) = indentation front := by
  obtain ⟨c, hc, hsolid⟩ := solid
  have short : (front.takeWhile isBlank).length ≠ front.length := by
    intro full
    have same := (List.takeWhile_prefix isBlank).eq_of_length full
    have blank := List.takeWhile_eq_self_iff.1 same c hc
    rw [hsolid] at blank
    cases blank
  rw [indentation, indentation, List.takeWhile_append, if_neg short]

/-! ## The last line -/

theorem newline_not_mem_takeWhile (text : List Char) : '\n' ∉ text.takeWhile (· ≠ '\n') := by
  induction text with
  | nil => exact List.not_mem_nil
  | cons c rest ih =>
    rw [List.takeWhile_cons]
    split
    · rename_i hc
      rw [List.mem_cons, not_or]
      exact ⟨fun same => by simp [← same] at hc, ih⟩
    · exact List.not_mem_nil

end Text

namespace ListingRules

open Text

variable {rules : ListingRules} {text before after header head line : List Char}
  {later front body tail : List (List Char)} {h : ℕ}

theorem newline_not_mem_lastLine (text : List Char) : '\n' ∉ lastLine text := by
  rw [lastLine, List.mem_reverse]
  exact newline_not_mem_takeWhile _

/-- A text is closed up to its last line. -/
theorem exists_closed_lastLine (text : List Char) :
    ∃ front, Closed front ∧ text = front ++ lastLine text := by
  refine ⟨(text.reverse.dropWhile (· ≠ '\n')).reverse, ?_, ?_⟩
  · intro c hc
    rw [List.getLast?_reverse] at hc
    have stopped := List.head?_dropWhile_not (· ≠ '\n') text.reverse
    rw [hc] at stopped
    simpa using stopped
  · have parts := List.takeWhile_append_dropWhile (p := (· ≠ '\n')) (l := text.reverse)
    rw [lastLine, ← List.reverse_append, parts, List.reverse_reverse]

/-! ## The line of the header -/

/-- The lines of a text that is cut at a header: those in front of the header's line, that line, and
the lines after it, of which the first one is the rest of the header's line if it is there. -/
theorem lines_of_cut? (hne : header ≠ []) (newline : '\n' ∉ header) (return' : '\r' ∉ header)
    (hcut : cut? header text = some (before, after)) :
    ∃ front rest, lines text = front ++
      (lastLine before ++ header ++ rest) :: (lines after).drop 1 ∧
      (∀ line ∈ front, ¬header <:+: line) ∧ rest <+: after := by
  obtain ⟨front, closed, hbefore⟩ := exists_closed_lastLine before
  have whole : text = front ++ (lastLine before ++ header ++ after) := by
    rw [eq_of_cut? hcut]
    nth_rewrite 1 [hbefore]
    simp only [List.append_assoc]
  have free : ∀ line ∈ lines front, ¬header <:+: line := by
    intro line hline occurs
    refine not_infix_of_cut? hne hcut ((occurs.trans (infix_of_mem_lines hline)).trans ?_)
    rw [hbefore]
    exact (List.prefix_append _ _).isInfix
  have plain : '\n' ∉ lastLine before ++ header := by
    rw [List.mem_append, not_or]
    exact ⟨newline_not_mem_lastLine before, newline⟩
  have bare : (lastLine before ++ header).getLast? ≠ some '\r' := by
    rw [List.getLast?_append_of_ne_nil _ hne]
    exact fun last => return' (List.mem_of_getLast? last)
  have open' := cutLine_append_left plain after
  rw [whole, closed.lines_append]
  cases hrest : cutLine after with
  | none =>
    rw [hrest] at open'
    refine ⟨lines front, after, ?_, free, List.prefix_rfl⟩
    rw [lines_of_uncut open', lines_of_uncut hrest, if_neg (by simp [hne])]
    split <;> rfl
  | some cut =>
    obtain ⟨rest, more⟩ := cut
    rw [hrest] at open'
    refine ⟨lines front, dropReturn rest, ?_, free, ?_⟩
    · rw [lines_of_cut open', lines_of_cut hrest, dropReturn_append bare, List.drop_one,
        List.tail_cons]
    · exact (dropReturn_begins rest).trans ⟨'\n' :: more, (eq_of_cutLine hrest).symm⟩

/-! ## Reading line by line -/

/-- A header that fits on a line and shows there. -/
structure Shows (header : List Char) : Prop where
  solid : ∃ c ∈ header, isBlank c = false
  newline : '\n' ∉ header
  bare : '\r' ∉ header

theorem Shows.ne_nil (h : Shows header) : header ≠ [] := by
  rintro rfl
  obtain ⟨c, hc, -⟩ := h.solid
  cases hc

/-- A field that names a pass: two dashes and at least one byte more. -/
def names (token : List Char) : Bool := ['-', '-'].isPrefixOf token && 2 < byteLength token

def cutsOff (rules : ListingRules) (token : List Char) : Bool :=
    rules.cutoff.any (·.toList == token)

/-- The passes named in front of the lines of a section, up to the cutoff and without those that are
left out. -/
def named (rules : ListingRules) (section' : List (List Char)) : List (List Char) :=
  let passes := (section'.filterMap fun line => (fields line).head?).filter names
  (passes.takeWhile fun pass => !rules.cutsOff pass).filter fun pass => !rules.excludes pass

/-- The flags of a listing that is given by its lines: the section begins behind the first line with
the header, and ends in front of the first line, blank ones aside, that is indented no deeper. -/
def listed (rules : ListingRules) (lines : List (List Char)) : List String :=
  match lines.dropWhile fun line => !contains rules.sectionHeader.toList line with
  | [] => []
  | head :: later =>
    let section' := (later.filter fun line => !isBlankLine line).takeWhile fun line =>
      indentation head < indentation line
    (rules.named section').map String.ofList

theorem byteLength_cons (c : Char) (text : List Char) :
    byteLength (c :: text) = c.utf8Size + byteLength text := by
  have shift (n : ℕ) : text.foldl (fun n c => n + c.utf8Size) n = n + byteLength text := by
    unfold byteLength
    induction text generalizing n with
    | nil => rfl
    | cons d text ih => rw [List.foldl_cons, List.foldl_cons, ih, ih (0 + _), Nat.zero_add,
        Nat.add_assoc]
  exact (shift _).trans (by simp only [Nat.zero_add])

theorem isFlag_eq_names (token : List Char) : isFlag token = names token := by
  rw [isFlag, names]
  by_cases dashes : ['-', '-'] <+: token
  · obtain ⟨rest, rfl⟩ := dashes
    have two : byteLength (['-', '-'] ++ rest) = 2 + byteLength rest := by
      change byteLength ('-' :: '-' :: rest) = _
      rw [byteLength_cons, byteLength_cons, ← Nat.add_assoc]
      rfl
    rw [two]
    cases rest with
    | nil => rfl
    | cons c rest =>
      have := c.utf8Size_pos
      rw [byteLength_cons]
      simp
      omega
  · rw [Bool.eq_false_iff.2 (mt List.isPrefixOf_iff_prefix.1 dashes), Bool.false_and,
      Bool.false_and]

theorem named_of_blank (rules : ListingRules) (h : (fields line).head? = none)
    (section' : List (List Char)) : rules.named (line :: section') = rules.named section' := by
  rw [named, named, List.filterMap_cons, h]

theorem named_of_other {token : List Char} (rules : ListingRules)
    (h : (fields line).head? = some token) (other : names token = false)
    (section' : List (List Char)) : rules.named (line :: section') = rules.named section' := by
  rw [named, named, List.filterMap_cons, h]
  simp [other]

theorem named_of_pass {pass : List Char} (rules : ListingRules)
    (h : (fields line).head? = some pass) (names : names pass = true)
    (section' : List (List Char)) : rules.named (line :: section') =
      if rules.cutsOff pass then [] else
        if rules.excludes pass then rules.named section' else pass :: rules.named section' := by
  rw [named, named, List.filterMap_cons, h]
  cases hcut : rules.cutsOff pass <;> cases hexcluded : rules.excludes pass <;>
    simp [names, hcut, hexcluded]

theorem collect_eq_named (rules : ListingRules) (h : ℕ) (later : List (List Char)) :
    rules.collect h later = rules.named
      ((later.filter fun line => !isBlankLine line).takeWhile
        fun line => h < indentation line) := by
  induction later with
  | nil => rfl
  | cons line later ih =>
    rw [collect]
    by_cases blank : isBlankLine line
    · rw [if_pos blank, List.filter_cons_of_neg (by simp [blank]), ih]
    rw [if_neg blank, List.filter_cons_of_pos (by simp [blank])]
    by_cases shallow : indentation line ≤ h
    · rw [if_pos shallow, List.takeWhile_cons_of_neg (by simpa using shallow)]
      rfl
    rw [if_neg shallow, List.takeWhile_cons_of_pos (by simpa using shallow)]
    cases hfields : fields line with
    | nil => rw [named_of_blank rules (by rw [hfields, List.head?_nil]), ih]
    | cons token others =>
      have first : (fields line).head? = some token := by rw [hfields, List.head?_cons]
      simp only [isFlag_eq_names]
      cases hnames : names token with
      | false =>
        rw [named_of_other rules first hnames, ← ih]
        rfl
      | true =>
        rw [named_of_pass rules first hnames, ← ih]
        rfl

theorem dropWhile_to_header {head : List Char}
    (free : ∀ line ∈ front, contains header line = false) (found : contains header head = true) :
    (front ++ head :: later).dropWhile (fun line => !contains header line) = head :: later := by
  rw [List.dropWhile_append_of_pos fun line hline => by simp [free line hline],
    List.dropWhile_cons_of_neg (by simp [found])]

/-- A listing is read by its lines. -/
theorem flags?_eq_listed (rules : ListingRules) (shows : Shows rules.sectionHeader.toList)
    {listing : String} (occurs : rules.sectionHeader.toList <:+: listing.toList) :
    rules.flags? listing = some (rules.listed (lines listing.toList)) := by
  rw [flags?]
  cases hcut : cut? rules.sectionHeader.toList listing.toList with
  | none => exact absurd occurs (cut?_eq_none_iff.1 hcut)
  | some cut =>
    obtain ⟨before, after⟩ := cut
    obtain ⟨front, rest, hlines, free, -⟩ :=
      lines_of_cut? shows.ne_nil shows.newline shows.bare hcut
    have found : contains rules.sectionHeader.toList
        (lastLine before ++ rules.sectionHeader.toList ++ rest) = true :=
      contains_iff.2 ⟨lastLine before, rest, rfl⟩
    have solid : ∃ c ∈ lastLine before ++ rules.sectionHeader.toList, isBlank c = false := by
      obtain ⟨c, hc, hsolid⟩ := shows.solid
      exact ⟨c, List.mem_append_right _ hc, hsolid⟩
    have unfound : ∀ line ∈ front, contains rules.sectionHeader.toList line = false :=
      fun line hline => Bool.eq_false_iff.2 (mt contains_iff.1 (free line hline))
    simp only [listed, hlines, dropWhile_to_header unfound found, indentation_append solid,
      collect_eq_named]

/-! ## What is not looked at -/

/-- The line ends the section of a header: it is indented no deeper, or names the pass at which the
vocabulary is cut off. -/
def Ends (rules : ListingRules) (head line : List Char) : Prop :=
  isBlankLine line = false ∧ (indentation line ≤ indentation head ∨
    ∃ pass, (fields line).head? = some pass ∧ names pass ∧ rules.cutsOff pass)

theorem collect_of_ends (ends : ∀ line ∈ tail.head?, rules.Ends head line) :
    rules.collect (indentation head) tail = [] := by
  cases tail with
  | nil => rfl
  | cons line tail =>
    obtain ⟨solid, ends⟩ := ends line rfl
    rw [collect, if_neg (by simp [solid])]
    by_cases shallow : indentation line ≤ indentation head
    · rw [if_pos shallow]
    · obtain ⟨pass, first, names, cut⟩ := ends.resolve_left shallow
      obtain ⟨others, hfields⟩ := List.head?_eq_some_iff.1 first
      rw [if_neg shallow, hfields]
      simp only [isFlag_eq_names, names, Bool.not_true, Bool.false_eq_true, if_false]
      exact if_pos cut

/-- What stands behind the end of a section is not collected. -/
theorem collect_append (ends : ∀ line ∈ tail.head?, rules.Ends head line) :
    rules.collect (indentation head) (body ++ tail) = rules.collect (indentation head) body := by
  induction body with
  | nil => rw [List.nil_append, collect_of_ends ends, collect]
  | cons line body ih => simp only [List.cons_append, collect, ih]

theorem flags?_of_lines (shows : Shows rules.sectionHeader.toList) {listing : String}
    (hlines : lines listing.toList = front ++ head :: later)
    (free : ∀ line ∈ front, ¬rules.sectionHeader.toList <:+: line)
    (found : rules.sectionHeader.toList <:+: head) :
    rules.flags? listing =
      some ((rules.collect (indentation head) later).map String.ofList) := by
  have occurs : rules.sectionHeader.toList <:+: listing.toList :=
    found.trans (infix_of_mem_lines (hlines ▸ List.mem_append_right _ List.mem_cons_self))
  have unfound : ∀ line ∈ front, contains rules.sectionHeader.toList line = false :=
    fun line hline => Bool.eq_false_iff.2 (mt contains_iff.1 (free line hline))
  rw [flags?_eq_listed rules shows occurs, hlines]
  simp only [listed, dropWhile_to_header unfound (contains_iff.2 found), collect_eq_named]

end ListingRules

/-! ## The help text of a simulation -/

namespace Simulation

open Text
open ListingRules (standard names collect)

variable {s : Simulation} {flag : String} {flags : List String} {rest : List Char}
  {later : List (List Char)}

/-- A pass that a listing can name: no blank in it, two dashes and at least one byte more. -/
structure Listable (flag : String) : Prop where
  solid : ∀ c ∈ flag.toList, isBlank c = false
  names : names flag.toList

theorem Listable.word (h : Listable flag) : Word flag.toList :=
  ⟨fun empty => absurd (empty ▸ h.names) (by decide), h.solid⟩

/-- The line of a pass without its end. -/
def offer (flag : String) : List Char :=
  List.replicate 6 ' ' ++ (flag.toList ++ (List.replicate (30 - flag.length) ' ' ++
    " - scripted pass".toList))

theorem toList_padded {front word ending : String} {first last : List Char} (gap : List Char)
    (hfront : front.toList = first) (hending : ending.toList = last ++ ['\n']) :
    (front ++ word ++ String.ofList gap ++ ending).toList =
      (first ++ (word.toList ++ (gap ++ last))) ++ ['\n'] := by
  simp only [String.toList_append, String.toList_ofList, hfront, hending, List.append_assoc]

theorem toList_listingLine (flag : String) : (listingLine flag).toList = offer flag ++ ['\n'] :=
  toList_padded (List.replicate (30 - flag.length) ' ') (by decide) (by decide)

theorem Listable.newline (h : Listable flag) : '\n' ∉ offer flag := by
  have solid : '\n' ∉ flag.toList := fun mem => absurd (h.solid _ mem) (by decide)
  simp [offer, solid]

theorem dropReturn_offer (flag : String) : dropReturn (offer flag) = offer flag := by
  have last : (offer flag).getLast? = some 's' := by
    rw [offer, List.getLast?_append_of_ne_nil _ (by simp),
      List.getLast?_append_of_ne_nil _ (by simp),
      List.getLast?_append_of_ne_nil _ (by simp)]
    decide
  rw [dropReturn, if_neg (by rw [last]; decide)]

theorem fields_offer (h : Listable flag) : (fields (offer flag)).head? = some flag.toList := by
  have broken : Broken (List.replicate (30 - flag.length) ' ' ++ " - scripted pass".toList) := by
    cases 30 - flag.length <;> rfl
  have blanks (rest : List Char) : fields (List.replicate 6 ' ' ++ rest) = fields rest := by
    change fields (' ' :: ' ' :: ' ' :: ' ' :: ' ' :: ' ' :: rest) = _
    simp only [fields_cons_blank _ (show isBlank ' ' = true from rfl)]
  rw [offer, blanks, fields_word h.word broken, List.head?_cons]

theorem takeWhile_offer (h : Listable flag) :
    (offer flag).takeWhile isBlank = List.replicate 6 ' ' := by
  obtain ⟨c, rest, hflag⟩ := List.exists_cons_of_ne_nil h.word.nonempty
  have solid : isBlank c = false := h.solid c (hflag ▸ List.mem_cons_self)
  have blanks : ∀ c ∈ List.replicate 6 ' ', isBlank c = true := List.all_eq_true.1 (by decide)
  rw [offer, List.takeWhile_append_of_pos blanks, hflag, List.cons_append,
    List.takeWhile_cons_of_neg (by simp [solid]), List.append_nil]

theorem isBlankLine_offer (h : Listable flag) : isBlankLine (offer flag) = false := by
  obtain ⟨c, hc⟩ := List.exists_mem_of_ne_nil _ h.word.nonempty
  refine Bool.eq_false_iff.2 fun blank => ?_
  have solid := h.solid c hc
  rw [List.all_eq_true.1 blank c (by simp [offer, hc])] at solid
  cases solid

/-- The line of a pass in the help text is read for that pass. -/
theorem collect_offer (h : Listable flag) (later : List (List Char)) :
    collect standard 2 (offer flag :: later) =
      if standard.cutoff = some flag then [] else
        if standard.excludes flag.toList then collect standard 2 later
        else flag.toList :: collect standard 2 later := by
  obtain ⟨others, hfields⟩ := List.head?_eq_some_iff.1 (fields_offer h)
  have deep : ¬indentation (offer flag) ≤ 2 := by
    rw [indentation, takeWhile_offer h]
    decide
  have cut : standard.cutoff.any (·.toList == flag.toList) = true ↔
    standard.cutoff = some flag := by
    simp only [standard, Option.any_some, beq_iff_eq, String.toList_inj, Option.some.injEq]
  rw [collect, if_neg (by simp [isBlankLine_offer h]), if_neg deep, hfields]
  simp only [ListingRules.isFlag_eq_names, h.names, Bool.not_true, Bool.false_eq_true,
    if_false, cut]

theorem collect_offers (listable : ∀ flag ∈ flags, Listable flag)
    (ends : collect standard 2 later = []) :
    collect standard 2 (flags.map offer ++ later) =
      ((flags.takeWhile fun flag => standard.cutoff ≠ some flag).filter fun flag =>
        !standard.excludes flag.toList).map String.toList := by
  induction flags with
  | nil => exact ends
  | cons flag flags ih =>
    obtain ⟨first, others⟩ := List.forall_mem_cons.1 listable
    rw [List.map_cons, List.cons_append, collect_offer first, ih others, List.takeWhile_cons]
    by_cases cut : standard.cutoff = some flag
    · simp [cut]
    · cases excluded : standard.excludes flag.toList <;> simp [cut, excluded]

theorem lines_offers (listable : ∀ flag ∈ flags, Listable flag) (rest : List Char) :
    lines (flags.flatMap (fun flag => (listingLine flag).toList) ++ rest) =
      flags.map offer ++ lines rest := by
  induction flags with
  | nil => rfl
  | cons flag flags ih =>
    obtain ⟨first, others⟩ := List.forall_mem_cons.1 listable
    rw [List.flatMap_cons, toList_listingLine, List.append_assoc, List.append_assoc,
      List.singleton_append, lines_line first.newline, dropReturn_offer, ih others, List.map_cons,
      List.cons_append]

theorem lines_between {front : String} (closed : Closed front.toList)
    (listable : ∀ flag ∈ flags, Listable flag) (back : String) :
    lines (front ++ String.join (flags.map listingLine) ++ back).toList =
      lines front.toList ++ (flags.map offer ++ lines back.toList) := by
  rw [String.toList_append, String.toList_append, List.append_assoc, closed.lines_append,
    String.toList_join, List.flatMap_map, lines_offers listable]

theorem lines_listing (listable : ∀ flag ∈ s.flags, Listable flag) :
    lines s.listing.toList =
      ["OVERVIEW: scripted optimizer".toList, [], "OPTIONS:".toList] ++
        "  Optimizations available:".toList :: (s.flags.map offer ++
          ["  Generic Options:".toList, "      --help - Display available options".toList]) := by
  have last :
    "OVERVIEW: scripted optimizer\n\nOPTIONS:\n  Optimizations available:\n".toList.getLast? =
      some '\n' := by decide +kernel
  have first :
    lines "OVERVIEW: scripted optimizer\n\nOPTIONS:\n  Optimizations available:\n".toList =
      ["OVERVIEW: scripted optimizer".toList, [], "OPTIONS:".toList] ++
        ["  Optimizations available:".toList] := by decide +kernel
  have others : lines "  Generic Options:\n      --help - Display available options\n".toList =
      ["  Generic Options:".toList, "      --help - Display available options".toList] := by
    decide +kernel
  have all := lines_between (fun c hc => (Option.some.inj (last.symm.trans hc)).symm) listable
    "  Generic Options:\n      --help - Display available options\n"
  rw [first, others, List.append_assoc] at all
  exact all

/-- The help text of a simulation lists its passes. -/
theorem flags?_listing (listable : ∀ flag ∈ s.flags, Listable flag) :
    standard.flags? s.listing =
      some ((s.flags.takeWhile fun flag => standard.cutoff ≠ some flag).filter
      fun flag => !standard.excludes flag.toList) := by
  have shows : ListingRules.Shows standard.sectionHeader.toList :=
    ⟨⟨'O', by decide, by decide⟩, by decide, by decide⟩
  have free : ∀ line ∈ ["OVERVIEW: scripted optimizer".toList, [], "OPTIONS:".toList],
      ¬standard.sectionHeader.toList <:+: line := by decide
  have found : standard.sectionHeader.toList <:+: "  Optimizations available:".toList := by decide
  have two : indentation "  Optimizations available:".toList = 2 := by decide
  have same : String.ofList ∘ String.toList = id := funext fun flag => String.ofList_toList
  have ends : collect standard 2
      ["  Generic Options:".toList, "      --help - Display available options".toList] =
        [] := by decide
  have read := ListingRules.flags?_of_lines shows (lines_listing listable) free found
  have all := collect_offers listable ends
  rw [two, all, List.map_map, same, List.map_id] at read
  exact read

end Simulation

namespace ListingRules

open Text

variable {rules : ListingRules}

/-- A listing is read by its lines. So two listings name the same passes that have the line of the
header and the lines up to the end of its section in common, and the help text of a simulation names
the simulation's passes, up to the cutoff and without those that are left out. -/
theorem listings_are_read_by_lines (shows : Shows rules.sectionHeader.toList) :
    (∀ listing : String, rules.sectionHeader.toList <:+: listing.toList →
      rules.flags? listing = some (rules.listed (lines listing.toList))) ∧
    (∀ (listing listing' : String) (front front' body tail tail' : List (List Char))
      (head : List Char), lines listing.toList = front ++ head :: (body ++ tail) →
      lines listing'.toList = front' ++ head :: (body ++ tail') →
      rules.sectionHeader.toList <:+: head →
      (∀ line ∈ front ++ front', ¬rules.sectionHeader.toList <:+: line) →
      (∀ line ∈ tail.head?, rules.Ends head line) → (∀ line ∈ tail'.head?, rules.Ends head line) →
      rules.flags? listing = rules.flags? listing') ∧
    ∀ s : Simulation, (∀ flag ∈ s.flags, Simulation.Listable flag) → ∀ w, ∃ o,
      s.toolchain.describe w = .ok o w ∧ o.succeeded ∧ standard.flags? o.stdout =
        some ((s.flags.takeWhile fun flag => standard.cutoff ≠ some flag).filter fun flag =>
          !standard.excludes flag.toList) := by
  refine ⟨fun listing occurs => flags?_eq_listed rules shows occurs, ?_, ?_⟩
  · intro listing listing' front front' body tail tail' head hlines hlines' found free ends ends'
    have free₁ line (hline : line ∈ front) := free line (List.mem_append_left _ hline)
    have free₂ line (hline : line ∈ front') := free line (List.mem_append_right _ hline)
    rw [flags?_of_lines shows hlines free₁ found, flags?_of_lines shows hlines' free₂ found,
      collect_append ends, collect_append ends']
  · exact fun s listable w => ⟨.ok s.listing, rfl, rfl, Simulation.flags?_listing listable⟩

/-- Rules for a small help text. -/
def plainRules : ListingRules := ⟨"Passes:", ["print"], some "--last"⟩

/-- Lines that end in different ways, a blank line in the section, and wide blanks before a pass. -/
theorem listings_are_read_by_lines_mixed :
    Shows plainRules.sectionHeader.toList ∧
    plainRules.flags?
      "OPTIONS\r\n  Passes: some\r\n \t\r\n\u3000\u3000--dce x\n    ---print\n    --licm\r\n  --gvn\n" =
      some ["--dce", "--licm"] := by
  have shows : Shows plainRules.sectionHeader.toList :=
    ⟨⟨'P', by decide, by decide⟩, by decide, by decide⟩
  refine ⟨shows, ((listings_are_read_by_lines shows).1 _ ?_).trans (by decide +kernel)⟩
  exact Text.contains_iff.1 (by decide +kernel)

end ListingRules

end PassTuner
