import PassTuner.Proofs.Text.Replacing
import PassTuner.Tool.Command
import Mathlib.Data.List.Nodup

/-!
# What is rendered of a template

The placeholders of an argument could all be filled at once, in one pass over it, and then no
character of a value is ever taken for a part of a placeholder. The bindings are worked in one after
another instead. Main statement: that comes to the same unless a value, together with what stands
around it, makes a placeholder that is worked in later.
-/

namespace PassTuner.CommandTemplate

open Text (replace occurrences)

/-- An argument with all placeholders filled at once. -/
def filled (bindings : List Binding) : List Char → List Char
  | [] => []
  | c :: rest =>
    match bindings.find? fun b => b.1.toList.isPrefixOf (c :: rest) with
    | some (name, value) => value.toList ++ filled bindings (rest.drop (name.toList.length - 1))
    | none => c :: filled bindings rest
termination_by text => text.length
decreasing_by all_goals simp only [List.length_cons, List.length_drop]; omega

/-- Bindings as tools are given them: each of some placeholders has one value. -/
structure Bound (bindings : List Binding) : Prop where
  known : ∀ b ∈ bindings, b.1 ∈ [flag, input, output]
  distinct : (bindings.map Prod.fst).Nodup

/-- With earlier values put in, no placeholder begins at more places than it did in the argument. -/
def Unstirred (bindings : List Binding) (arg : List Char) : Prop :=
  ∀ earlier b later, bindings = earlier ++ b :: later →
    occurrences b.1.toList (filled earlier arg) ≤ occurrences b.1.toList arg

/-! ## Placeholders -/

variable {bindings earlier later : List Binding} {b : Binding} {name name' : String}
  {arg front rest : List Char} {c : Char}

/-- A placeholder opens with a brace, and has none behind it. -/
theorem opens_of_known (h : name ∈ [flag, input, output]) :
    ∃ tail, name.toList = '{' :: tail ∧ '{' ∉ tail := by
  simp only [List.mem_cons, List.not_mem_nil, or_false] at h
  rcases h with rfl | rfl | rfl
  · exact ⟨"flag\x7d".toList, rfl, by decide⟩
  · exact ⟨"input\x7d".toList, rfl, by decide⟩
  · exact ⟨"output\x7d".toList, rfl, by decide⟩

theorem ne_nil_of_known (h : name ∈ [flag, input, output]) : name.toList ≠ [] := by
  obtain ⟨tail, hname, -⟩ := opens_of_known h
  rw [hname]
  exact List.cons_ne_nil _ _

/-- Two placeholders do not begin at one place. -/
theorem eq_of_begins (h : name ∈ [flag, input, output])
    (h' : name' ∈ [flag, input, output]) (begins : name.toList <+: arg)
    (begins' : name'.toList <+: arg) : name = name' := by
  have apart : ∀ name ∈ [flag, input, output], ∀ name' ∈ [flag, input, output],
      name.toList.take 2 = name'.toList.take 2 → name = name' := by decide
  have long : ∀ name ∈ [flag, input, output], 2 ≤ name.toList.length := by decide
  have two {name : String} (h : name ∈ [flag, input, output]) (begins : name.toList <+: arg) :
      name.toList.take 2 = arg.take 2 := by
    obtain ⟨t, rfl⟩ := begins
    rw [List.take_append_of_le_length (long name h)]
  exact apart name h name' h' ((two h begins).trans (two h' begins').symm)

theorem Bound.initial (h : Bound (earlier ++ later)) : Bound earlier :=
  ⟨fun b hb => h.known b (List.mem_append_left _ hb), by
    have distinct := h.distinct
    rw [List.map_append] at distinct
    exact distinct.of_append_left⟩

theorem Bound.fresh (h : Bound (earlier ++ b :: later)) : ∀ b' ∈ earlier, b'.1 ≠ b.1 := by
  intro b' hb' same
  have distinct := h.distinct
  rw [List.map_append, List.map_cons] at distinct
  exact (List.nodup_append.1 distinct).2.2 b'.1
    (List.mem_map_of_mem hb') b.1 List.mem_cons_self same

/-- An argument is read from placeholder to placeholder, and past single characters in between. -/
theorem along {P : List Char → Prop} (names : List String)
    (known : ∀ name ∈ names, name ∈ [flag, input, output]) (nil : P [])
    (place : ∀ name ∈ names, ∀ rest, P rest → P (name.toList ++ rest))
    (char : ∀ c rest, (∀ name ∈ names, ¬name.toList <+: c :: rest) → P rest → P (c :: rest))
    (arg : List Char) : P arg := by
  induction hn : arg.length using Nat.strongRecOn generalizing arg with
  | ind n ih =>
    cases arg with
    | nil => exact nil
    | cons c rest =>
      by_cases begins : ∃ name ∈ names, name.toList <+: c :: rest
      · obtain ⟨name, hname, t, ht⟩ := begins
        have shorter : t.length < n := by
          have := List.length_pos_iff.2 (ne_nil_of_known (known name hname))
          rw [← hn, ← ht, List.length_append]
          omega
        exact ht ▸ place name hname t (ih t.length shorter t rfl)
      · refine char c rest (fun name hname hp => begins ⟨name, hname, hp⟩) ?_
        exact ih rest.length (by rw [← hn]; exact Nat.lt_succ_self _) rest rfl

/-! ## Filling -/

theorem filled_nil (bindings : List Binding) : filled bindings [] = [] := by rw [filled]

theorem filled_char (h : ∀ b ∈ bindings, ¬b.1.toList <+: c :: rest) :
    filled bindings (c :: rest) = c :: filled bindings rest := by
  have nowhere : bindings.find? (fun b => b.1.toList.isPrefixOf (c :: rest)) = none :=
    List.find?_eq_none.2 fun b hb => mt List.isPrefixOf_iff_prefix.1 (h b hb)
  rw [filled, nowhere]

theorem filled_unheld (arg : List Char) : filled [] arg = arg := by
  induction arg with
  | nil => exact filled_nil []
  | cons c rest ih => rw [filled_char fun _ hb => absurd hb List.not_mem_nil, ih]

theorem filled_place (bound : Bound bindings) (hb : b ∈ bindings) (rest : List Char) :
    filled bindings (b.1.toList ++ rest) = b.2.toList ++ filled bindings rest := by
  obtain ⟨tail, hname, -⟩ := opens_of_known (bound.known b hb)
  have here : bindings.find? (fun b => b.1.toList.isPrefixOf ('{' :: (tail ++ rest))) = some b := by
    have begins : b.1.toList <+: '{' :: (tail ++ rest) := by
      rw [hname]
      exact List.prefix_append ('{' :: tail) rest
    cases hfind : bindings.find? (fun b => b.1.toList.isPrefixOf ('{' :: (tail ++ rest))) with
    | none =>
      exact absurd (List.isPrefixOf_iff_prefix.2 begins) (List.find?_eq_none.1 hfind b hb)
    | some b' =>
      have hb' := List.mem_of_find?_eq_some hfind
      have found := List.find?_some hfind
      have begins' := List.isPrefixOf_iff_prefix.1 found
      have same := eq_of_begins (bound.known b' hb') (bound.known b hb) begins' begins
      rw [List.inj_on_of_nodup_map bound.distinct hb' hb same]
  rw [hname, List.cons_append, filled, here]
  simp [hname]

/-- What holds no opening brace is kept. -/
theorem filled_plain (known : ∀ b ∈ bindings, b.1 ∈ [flag, input, output]) (plain : '{' ∉ front)
    (rest : List Char) : filled bindings (front ++ rest) = front ++ filled bindings rest := by
  induction front with
  | nil => rfl
  | cons c front ih =>
    rw [List.mem_cons, not_or] at plain
    have nowhere : ∀ b ∈ bindings, ¬b.1.toList <+: c :: (front ++ rest) := by
      intro b hb begins
      obtain ⟨tail, hname, -⟩ := opens_of_known (known b hb)
      rw [hname, List.cons_prefix_cons] at begins
      exact plain.1 begins.1
    rw [List.cons_append, filled_char nowhere, ih plain.2, List.cons_append]

/-- A placeholder that is not bound is kept. -/
theorem filled_unbound (known : ∀ b ∈ bindings, b.1 ∈ [flag, input, output])
    (h : name ∈ [flag, input, output]) (unbound : ∀ b ∈ bindings, b.1 ≠ name) (rest : List Char) :
    filled bindings (name.toList ++ rest) = name.toList ++ filled bindings rest := by
  obtain ⟨tail, hname, plain⟩ := opens_of_known h
  have nowhere : ∀ b ∈ bindings, ¬b.1.toList <+: '{' :: (tail ++ rest) := by
    intro b hb begins
    refine unbound b hb (eq_of_begins (known b hb) h begins ?_)
    rw [hname]
    exact List.prefix_append ('{' :: tail) rest
  rw [hname, List.cons_append, filled_char nowhere, filled_plain known plain, List.cons_append]

/-- Wherever a placeholder stands in an argument, its value is put there as it is, and what stands
around it is filled as if it stood alone. -/
theorem filled_append (bound : Bound bindings) (hb : b ∈ bindings) (front back : List Char) :
    filled bindings (front ++ b.1.toList ++ back) =
      filled bindings front ++ b.2.toList ++ filled bindings back := by
  have known : ∀ name ∈ bindings.map Prod.fst, name ∈ [flag, input, output] := by
    simpa using fun name value hb => bound.known (name, value) hb
  induction front using along (bindings.map Prod.fst) known with
  | nil => rw [filled_nil, List.nil_append, List.nil_append, filled_place bound hb]
  | place name hname rest ih =>
    obtain ⟨b', hb', rfl⟩ := List.mem_map.1 hname
    rw [List.append_assoc, List.append_assoc, filled_place bound hb', filled_place bound hb',
      ← List.append_assoc rest, ih]
    simp only [List.append_assoc]
  | char c rest nowhere ih =>
    have nowhere' : ∀ b' ∈ bindings, ¬b'.1.toList <+: c :: rest :=
      fun b' hb' => nowhere b'.1 (List.mem_map_of_mem hb')
    have still : ∀ b' ∈ bindings, ¬b'.1.toList <+: c :: (rest ++ b.1.toList ++ back) := by
      intro b' hb' begins
      obtain ⟨tail, hname, -⟩ := opens_of_known (bound.known b hb)
      obtain ⟨tail', hname', plain⟩ := opens_of_known (bound.known b' hb')
      have shape : c :: (rest ++ b.1.toList ++ back) = (c :: rest) ++ ('{' :: (tail ++ back)) := by
        rw [hname]
        simp
      rw [shape] at begins
      rcases le_or_gt b'.1.toList.length (c :: rest).length with short | long
      · exact nowhere' b' hb'
          (List.prefix_of_prefix_length_le begins (List.prefix_append _ _) short)
      · -- A placeholder that reached into the next one would hold its brace.
        have reach : c :: rest ++ ['{'] <+: b'.1.toList := by
          refine List.prefix_of_prefix_length_le ?_ begins
            (by simp only [List.length_append, List.length_cons, List.length_nil] at *; omega)
          exact ⟨tail ++ back, by simp⟩
        rw [hname', List.cons_append, List.cons_prefix_cons] at reach
        exact plain (reach.2.subset (by simp))
    rw [List.cons_append, List.cons_append, filled_char still, filled_char nowhere', ih]
    simp only [List.cons_append]

/-! ## Working in one binding after another -/

theorem occurrences_plain (h : name ∈ [flag, input, output]) (plain : '{' ∉ front)
    (rest : List Char) :
    occurrences name.toList (front ++ rest) = occurrences name.toList rest := by
  obtain ⟨tail, hname, -⟩ := opens_of_known h
  induction front with
  | nil => rfl
  | cons c front ih =>
    rw [List.mem_cons, not_or] at plain
    rw [List.cons_append, Text.occurrences_of_not_begins, ih plain.2]
    rw [hname, List.cons_prefix_cons]
    exact fun begins => plain.1 begins.1

theorem occurrences_place (h : name ∈ [flag, input, output]) (rest : List Char) :
    occurrences name.toList (name.toList ++ rest) = occurrences name.toList rest + 1 := by
  obtain ⟨tail, hname, plain⟩ := opens_of_known h
  have begins : name.toList <+: '{' :: (tail ++ rest) := by
    rw [hname]
    exact List.prefix_append ('{' :: tail) rest
  have behind := occurrences_plain h plain rest
  rw [← behind, ← Text.occurrences_of_begins begins, hname, List.cons_append]

theorem occurrences_other (h : name ∈ [flag, input, output]) (h' : name' ∈ [flag, input, output])
    (other : name' ≠ name) (rest : List Char) :
    occurrences name.toList (name'.toList ++ rest) = occurrences name.toList rest := by
  obtain ⟨tail, hname, plain⟩ := opens_of_known h'
  have apart : ¬name.toList <+: '{' :: (tail ++ rest) := by
    intro begins
    refine other (eq_of_begins h' h ?_ begins)
    rw [hname]
    exact List.prefix_append ('{' :: tail) rest
  rw [hname, List.cons_append, Text.occurrences_of_not_begins apart,
    occurrences_plain h plain]

/-- The placeholders of the argument that are still to be filled are all there. -/
theorem occurrences_le_filled (bound : Bound (earlier ++ [b])) (arg : List Char) :
    occurrences b.1.toList arg ≤ occurrences b.1.toList (filled earlier arg) := by
  have hb := bound.known b (by simp)
  have known : ∀ name ∈ (earlier ++ [b]).map Prod.fst, name ∈ [flag, input, output] := by
    intro name hname
    obtain ⟨b', hb', rfl⟩ := List.mem_map.1 hname
    exact bound.known b' hb'
  induction arg using along ((earlier ++ [b]).map Prod.fst) known with
  | nil => rw [filled_nil]
  | place name hname rest ih =>
    obtain ⟨b', hb', rfl⟩ := List.mem_map.1 hname
    rcases List.mem_append.1 hb' with hb' | hb'
    · have fresh := bound.fresh b' hb'
      rw [filled_place bound.initial hb',
        occurrences_other hb (bound.initial.known b' hb') fresh]
      exact ih.trans (Text.occurrences_le_append _ _ _)
    · obtain rfl := List.mem_singleton.1 hb'
      rw [filled_unbound bound.initial.known hb bound.fresh, occurrences_place hb,
        occurrences_place hb]
      exact Nat.succ_le_succ ih
  | char c rest nowhere ih =>
    have none : ∀ b' ∈ earlier ++ [b], ¬b'.1.toList <+: c :: rest :=
      fun b' hb' => nowhere b'.1 (List.mem_map_of_mem hb')
    rw [filled_char fun b' hb' => none b' (List.mem_append_left _ hb'),
      Text.occurrences_of_not_begins (none b (by simp))]
    exact ih.trans (Text.occurrences_le_cons _ _ _)

/-- One more binding is worked in where the argument has its placeholder, and nowhere else. -/
theorem replace_filled (bound : Bound (earlier ++ [b]))
    (same : occurrences b.1.toList (filled earlier arg) ≤ occurrences b.1.toList arg) :
    replace b.1.toList b.2.toList (filled earlier arg) = filled (earlier ++ [b]) arg := by
  have hb := bound.known b (by simp)
  have hne := ne_nil_of_known hb
  have known : ∀ name ∈ (earlier ++ [b]).map Prod.fst, name ∈ [flag, input, output] := by
    intro name hname
    obtain ⟨b', hb', rfl⟩ := List.mem_map.1 hname
    exact bound.known b' hb'
  induction arg using along ((earlier ++ [b]).map Prod.fst) known with
  | nil =>
    rw [filled_nil, filled_nil]
    exact Text.replace_of_uncut hne (by rw [Text.cut?, if_neg hne]) _
  | place name hname rest ih =>
    obtain ⟨b', hb', rfl⟩ := List.mem_map.1 hname
    rw [filled_place bound hb']
    rcases List.mem_append.1 hb' with hb' | hb'
    · -- an earlier placeholder: its value must bring no occurrence with it
      have fresh := bound.fresh b' hb'
      rw [filled_place bound.initial hb',
        occurrences_other hb (bound.initial.known b' hb') fresh] at same
      have kept := same.trans (occurrences_le_filled bound rest)
      have behind := (Text.occurrences_le_append b.1.toList b'.2.toList _).trans same
      rw [filled_place bound.initial hb', Text.replace_append hne _ _ kept, ih behind]
    · obtain rfl := List.mem_singleton.1 hb'
      have unbound := filled_unbound bound.initial.known hb bound.fresh rest
      rw [unbound, occurrences_place hb, occurrences_place hb] at same
      rw [unbound, Text.replace_begins hne, ih (Nat.le_of_succ_le_succ same)]
  | char c rest nowhere ih =>
    have none : ∀ b' ∈ earlier ++ [b], ¬b'.1.toList <+: c :: rest :=
      fun b' hb' => nowhere b'.1 (List.mem_map_of_mem hb')
    have step := filled_char fun b' hb' => none b' (List.mem_append_left [b] hb')
    rw [step, Text.occurrences_of_not_begins (none b (by simp))] at same
    have here := Text.not_begins_of_occurrences_le
      (same.trans (occurrences_le_filled bound rest))
    have behind := (Text.occurrences_le_cons b.1.toList c _).trans same
    rw [step, Text.replace_cons hne here, ih behind, filled_char none]

theorem substitute_eq_replace (hne : b.1.toList ≠ []) (text : List Char) :
    substitute text b = replace b.1.toList b.2.toList text := by
  rw [substitute]
  split
  · rfl
  · rename_i absent
    rw [Text.contains, Bool.not_eq_true, Option.isSome_eq_false_iff, Option.isNone_iff_eq_none]
      at absent
    rw [Text.replace_of_uncut hne absent]

theorem foldl_substitute (bound : Bound bindings) (h : Unstirred bindings arg) :
    bindings.foldl substitute arg = filled bindings arg := by
  induction bindings using List.reverseRecOn with
  | nil => exact (filled_unheld arg).symm
  | append_singleton earlier b ih =>
    have unstirred : Unstirred earlier arg := by
      rintro front b' later rfl
      exact h front b' (later ++ [b]) (by simp)
    rw [List.foldl_append, ih bound.initial unstirred, List.foldl_cons, List.foldl_nil,
      substitute_eq_replace (ne_nil_of_known (bound.known b (by simp))),
      replace_filled bound (h earlier b [] rfl)]

theorem renderArg_eq_filled {arg : String} (bound : Bound bindings)
    (h : arg ∈ bindings.map Prod.fst ∨ Unstirred bindings arg.toList) :
    renderArg bindings arg = String.ofList (filled bindings arg.toList) := by
  unfold renderArg
  cases hlookup : bindings.lookup arg with
  | some value =>
    obtain ⟨front, back, hsplit, -⟩ := List.lookup_eq_some_iff.1 hlookup
    have hb : (arg, value) ∈ bindings := hsplit ▸ List.mem_append_right _ List.mem_cons_self
    have whole := filled_place bound hb []
    rw [List.append_nil, filled_nil, List.append_nil] at whole
    rw [whole, String.ofList_toList]
  | none =>
    have absent : arg ∉ bindings.map Prod.fst := by
      rintro mem
      obtain ⟨b, hb, rfl⟩ := List.mem_map.1 mem
      simpa using List.lookup_eq_none_iff.1 hlookup b hb
    rw [foldl_substitute bound (h.resolve_left absent)]

/-- Values without an opening brace stir nothing in an argument that has no braces of its own. -/
theorem unstirred_of_braceless (bound : Bound bindings) (values : ∀ b ∈ bindings, '{' ∉ b.2.toList)
    (own : ∀ rest ∈ arg.tails, rest.head? = some '{' → ∃ b ∈ bindings, b.1.toList <+: rest) :
    Unstirred bindings arg := by
  rintro earlier b later rfl
  have hb := bound.known b (by simp)
  have known : ∀ name ∈ (earlier ++ b :: later).map Prod.fst, name ∈ [flag, input, output] := by
    intro name hname
    obtain ⟨b', hb', rfl⟩ := List.mem_map.1 hname
    exact bound.known b' hb'
  induction arg using along ((earlier ++ b :: later).map Prod.fst) known with
  | nil => rw [filled_nil]
  | place name hname rest ih =>
    have ih := ih fun rest' htail => own rest' <| (List.mem_tails _ _).2 <|
      ((List.mem_tails _ _).1 htail).trans (List.suffix_append _ _)
    obtain ⟨b', hb', rfl⟩ := List.mem_map.1 hname
    by_cases mem : b' ∈ earlier
    · rw [filled_place bound.initial mem, occurrences_plain hb (values b' hb'),
        occurrences_other hb (bound.known b' hb') (bound.fresh b' mem)]
      exact ih
    · have unbound : ∀ b'' ∈ earlier, b''.1 ≠ b'.1 := fun b'' hb'' same =>
        mem (List.inj_on_of_nodup_map bound.distinct (List.mem_append_left _ hb'') hb' same ▸ hb'')
      rw [filled_unbound bound.initial.known (bound.known b' hb') unbound]
      by_cases same : b'.1 = b.1
      · rw [same, occurrences_place hb, occurrences_place hb]
        exact Nat.succ_le_succ ih
      · rw [occurrences_other hb (bound.known b' hb') same,
          occurrences_other hb (bound.known b' hb') same]
        exact ih
  | char c rest nowhere ih =>
    have ih := ih fun rest' htail => own rest' <| (List.mem_tails _ _).2 <|
      ((List.mem_tails _ _).1 htail).trans (List.suffix_cons _ _)
    have none : ∀ b' ∈ earlier ++ b :: later, ¬b'.1.toList <+: c :: rest :=
      fun b' hb' => nowhere b'.1 (List.mem_map_of_mem hb')
    have plain : '{' ∉ [c] := by
      intro brace
      obtain rfl := List.mem_singleton.1 brace
      obtain ⟨b', hb', begins⟩ := own ('{' :: rest) ((List.mem_tails _ _).2 List.suffix_rfl) rfl
      exact none b' hb' begins
    have still := occurrences_plain hb plain (filled earlier rest)
    have own := occurrences_plain hb plain rest
    rw [List.singleton_append] at still own
    rw [filled_char fun b' hb' => none b' (List.mem_append_left _ hb'), still, own]
    exact ih

/-- A template is rendered with all placeholders filled at once, so that values stand in it as they
are, if each argument is a placeholder or is stirred by no value. -/
theorem rendered_at_once {t : CommandTemplate} (bound : Bound bindings)
    (h : ∀ arg ∈ t.args, arg ∈ bindings.map Prod.fst ∨ Unstirred bindings arg.toList) :
    t.render bindings = t.args.map (fun arg => String.ofList (filled bindings arg.toList)) ∧
    ∀ b ∈ bindings, ∀ front back, filled bindings (front ++ b.1.toList ++ back) =
      filled bindings front ++ b.2.toList ++ filled bindings back :=
  ⟨List.map_congr_left fun arg harg => renderArg_eq_filled bound (h arg harg),
    fun _ hb front back => filled_append bound hb front back⟩

/-- What an optimizer is called with, in which a closing brace does no harm. -/
def plainBindings : List Binding := [(flag, "--dce"), (input, "a.ll"), (output, "b\x7d.ll")]

/-- A placeholder alone and one inside a longer argument. -/
theorem rendered_at_once_plain :
    (Bound plainBindings ∧ ∀ arg ∈ [flag, "--out=" ++ output],
      arg ∈ plainBindings.map Prod.fst ∨ Unstirred plainBindings arg.toList) ∧
    render ⟨"opt", [flag, "--out=" ++ output]⟩ plainBindings = ["--dce", "--out=b\x7d.ll"] := by
  have bound : Bound plainBindings := ⟨by decide, by decide⟩
  have unstirred : ∀ arg ∈ [flag, "--out=" ++ output],
      arg ∈ plainBindings.map Prod.fst ∨ Unstirred plainBindings arg.toList := by
    intro arg harg
    refine .inr (unstirred_of_braceless bound (by decide) ?_)
    revert arg
    decide
  have rendered := (rendered_at_once (t := ⟨"opt", [flag, "--out=" ++ output]⟩) bound unstirred).1
  exact ⟨⟨bound, unstirred⟩, rendered.trans (by decide +kernel)⟩

/-- Bindings of which the flag's value names a placeholder. -/
def namingBindings : List Binding :=
  [(flag, "--a=" ++ output), (input, "a.ll"), (output, "b.ll")]

/-- The value of an earlier placeholder is read for a later one, in an argument that is longer than
the placeholder only. -/
theorem values_may_be_read_again :
    Bound namingBindings ∧
    render ⟨"opt", [flag, "-f=" ++ flag]⟩ namingBindings = ["--a=" ++ output, "-f=--a=b.ll"] ∧
    String.ofList (filled namingBindings ("-f=" ++ flag).toList) = "-f=--a=" ++ output :=
  ⟨⟨by decide, by decide⟩, by decide +kernel, by decide +kernel⟩

end PassTuner.CommandTemplate
