import PassTuner.Disk.Access

/-!
# What paths lead to

`Leads d path p` says that a path leads to a place where a file is or can be made. Where paths lead
is a matter of directories alone, so it stays the same while files come and go. A name that is
joined to the path of a directory leads into that directory, unless it is too long.
-/

namespace PassTuner

namespace Path

/-- A name that stands for itself in a path. -/
structure Plain (name : String) : Prop where
  nonempty : name ≠ ""
  here : name ≠ "."
  up : name ≠ ".."
  slash : '/' ∉ name.toList
  nul : '\x00' ∉ name.toList

theorem pieces_append_slash (xs ys : List Char) :
    pieces (xs ++ '/' :: ys) = pieces xs ++ pieces ys := by
  induction xs with
  | nil => simp [pieces]
  | cons c xs ih =>
    by_cases hc : c = '/'
    · simp [pieces, hc, ih]
    · rw [List.cons_append, pieces, if_neg hc, ih, pieces, if_neg hc]
      cases h : pieces xs with
      | nil =>
        cases xs with
        | nil => simp [pieces] at h
        | cons d xs => rw [pieces] at h; split at h <;> (try split at h) <;> cases h
      | cons piece more => rfl

theorem pieces_of_slashless {xs : List Char} (h : '/' ∉ xs) : pieces xs = [xs] := by
  induction xs with
  | nil => rfl
  | cons c xs ih =>
    rw [List.mem_cons, not_or] at h
    rw [pieces, if_neg (Ne.symm h.1), ih h.2]

theorem ne_nil_of_nonempty {text : String} (h : text ≠ "") : text.toList ≠ [] := by
  intro hnil
  exact h (String.toList_inj.1 hnil)

theorem toList_join {base name : String} (hb : base ≠ "") (hs : '/' ∉ name.toList) :
    (join base name).toList =
      if base.toList.getLast? = some '/' then base.toList ++ name.toList
      else base.toList ++ '/' :: name.toList := by
  have hne := ne_nil_of_nonempty hb
  unfold join
  split
  · rename_i rest heq
    rw [heq] at hs
    simp at hs
  · simp only [hne, false_or]
    split <;> simp

theorem join_empty (name : String) : join "" name = name := by
  unfold join
  split
  · rfl
  · simp

theorem names_of_slashless {name : String} (hne : name ≠ "") (hs : '/' ∉ name.toList) :
    names name = [name] := by
  unfold names
  rw [pieces_of_slashless hs]
  simp [ne_nil_of_nonempty hne]

/-- A name that is joined is the last one, even where it does not stand for itself. -/
theorem names_join_of_slashless {base name : String} (hne : name ≠ "")
    (hs : '/' ∉ name.toList) : names (join base name) = names base ++ [name] := by
  by_cases hb : base = ""
  · rw [hb, join_empty, names_of_slashless hne hs]
    rfl
  · have hsplit : (pieces (join base name).toList).filter (· ≠ []) =
        (pieces base.toList).filter (· ≠ []) ++ (pieces name.toList).filter (· ≠ []) := by
      rw [toList_join hb hs]
      split
      · rename_i hlast
        obtain ⟨front, hfront⟩ := List.getLast?_eq_some_iff.1 hlast
        rw [hfront, List.append_assoc, List.singleton_append, pieces_append_slash,
          pieces_append_slash]
        simp [pieces]
      · rw [pieces_append_slash, List.filter_append]
    unfold names
    rw [hsplit, List.map_append]
    exact congrArg _ (names_of_slashless hne hs)

theorem names_join {base name : String} (hn : Plain name) :
    names (join base name) = names base ++ [name] :=
  names_join_of_slashless hn.nonempty hn.slash

theorem isAbsolute_join {base name : String} (hn : Plain name) :
    isAbsolute (join base name) = isAbsolute base := by
  by_cases hb : base = ""
  · have hs := hn.slash
    rw [hb, join_empty]
    unfold isAbsolute
    cases h : name.toList with
    | nil => rfl
    | cons c rest =>
      have hc : c ≠ '/' := by
        rintro rfl
        simp [h] at hs
      simp [hc]
  · unfold isAbsolute
    rw [toList_join hb hn.slash]
    obtain ⟨c, rest, h⟩ := List.exists_cons_of_ne_nil (ne_nil_of_nonempty hb)
    split <;> simp [h]

theorem endsInSlash_join {base name : String} (hb : base ≠ "") (hn : Plain name) :
    endsInSlash (join base name) = false := by
  have hlast := List.getLast?_eq_some_getLast (ne_nil_of_nonempty hn.nonempty)
  have hmem := List.getLast_mem (ne_nil_of_nonempty hn.nonempty)
  generalize name.toList.getLast _ = c at hlast hmem
  have hslash : c ≠ '/' := by
    rintro rfl
    exact hn.slash hmem
  have hjoin : (join base name).toList.getLast? = some c := by
    rw [toList_join hb hn.slash]
    split
    · simp [List.getLast?_append, hlast]
    · rw [← List.singleton_append, ← List.append_assoc, List.getLast?_append, hlast]
      rfl
  simp [endsInSlash, hjoin, hslash]

theorem nul_join {base name : String} (hb : base ≠ "") (hn : Plain name)
    (h : '\x00' ∉ base.toList) : '\x00' ∉ (join base name).toList := by
  rw [toList_join hb hn.slash]
  split <;> simp [h, hn.nul]

end Path

namespace Disk

variable {d d' : Disk} {path : String} {p q : Place}

/-- A place with what is there, as the end of a path. -/
def target (d : Disk) (p : Place) : Target :=
  match d.get? p with
  | some node => .present p node
  | none => .vacant p

theorem target_of_some {node : Node} (h : d.get? p = some node) : d.target p = .present p node := by
  simp [target, h]

theorem target_of_none (h : d.get? p = none) : d.target p = .vacant p := by simp [target, h]

theorem target_inj {d' : Disk} (h : d.target p = d'.target q) : p = q := by
  unfold target at h
  split at h <;> split at h <;> cases h <;> rfl

/-- A path whose text can be followed. -/
structure Followable (path : String) : Prop where
  nul : '\x00' ∉ path.toList
  nonempty : path ≠ ""
  short : path.utf8ByteSize ≤ longestPath

/-- Where following a path begins. -/
def start (d : Disk) (path : String) : Place := if Path.isAbsolute path then [] else d.home

theorem locate_of_followable (h : Followable path) :
    d.locate path = match d.follow (d.start path) (Path.names path) with
      | .ok (.present p (.file content)) =>
        if Path.endsInSlash path then .error .notDirectory else .ok (.present p (.file content))
      | other => other := by
  have hnul : path.toList.contains '\x00' = false := by simpa using h.nul
  have hshort : ¬longestPath < path.utf8ByteSize := Nat.not_lt.2 h.short
  simp only [locate, hnul, h.nonempty, hshort, if_false, start]
  rfl

theorem followable_of_locate {t : Target} (h : d.locate path = .ok t) : Followable path := by
  unfold locate at h
  split at h
  · cases h
  · rename_i hnul
    split at h
    · cases h
    · rename_i hne
      split at h
      · cases h
      · rename_i hshort
        exact ⟨by simpa using hnul, hne, Nat.not_lt.1 hshort⟩

theorem follow_of_locate {t : Target} (h : d.locate path = .ok t) :
    d.follow (d.start path) (Path.names path) = .ok t := by
  rw [locate_of_followable (followable_of_locate h)] at h
  split at h
  · rename_i heq
    split at h
    · cases h
    · rw [heq, h]
  · exact h

theorem follow_cons (d : Disk) (q : Place) (name : String) (rest : List String) :
    d.follow q (name :: rest) =
      if name = "." then d.follow q rest
      else if name = ".." then d.follow q.tail rest
      else if longestName < name.utf8ByteSize then .error .nameTooLong
      else match d.get? (name :: q), rest with
        | some .directory, rest => d.follow (name :: q) rest
        | some (.file content), [] => .ok (.present (name :: q) (.file content))
        | some (.file _), _ :: _ => .error .notDirectory
        | none, [] => .ok (.vacant (name :: q))
        | none, _ :: _ => .error .notFound :=
  (follow.eq_def d q (name :: rest)).trans rfl

theorem follow_append {names : List String} (h : d.follow q names = .ok (.present p .directory))
    (more : List String) : d.follow q (names ++ more) = d.follow p more := by
  induction names generalizing q with
  | nil =>
    cases h
    rfl
  | cons name names ih =>
    rw [List.cons_append, follow_cons]
    rw [follow_cons] at h
    by_cases hhere : name = "."
    · rw [if_pos hhere] at h ⊢
      exact ih h
    rw [if_neg hhere] at h ⊢
    by_cases hup : name = ".."
    · rw [if_pos hup] at h ⊢
      exact ih h
    rw [if_neg hup] at h ⊢
    by_cases hlong : longestName < name.utf8ByteSize
    · rw [if_pos hlong] at h
      cases h
    rw [if_neg hlong] at h ⊢
    cases hg : d.get? (name :: q) with
    | none => cases names <;> simp [hg] at h
    | some node =>
      cases node with
      | file content => cases names <;> simp [hg] at h
      | directory =>
        simp only [hg] at h ⊢
        exact ih h

/-- What is followed further has led to a directory so far. -/
theorem of_follow_append {names : List String} {name : String} {t : Target}
    (h : d.follow q (names ++ [name]) = .ok t) :
    ∃ p, d.follow q names = .ok (.present p .directory) := by
  induction names generalizing q with
  | nil => exact ⟨q, rfl⟩
  | cons other names ih =>
    rw [List.cons_append, follow_cons] at h
    rw [follow_cons]
    by_cases hhere : other = "."
    · rw [if_pos hhere] at h ⊢
      exact ih h
    rw [if_neg hhere] at h ⊢
    by_cases hup : other = ".."
    · rw [if_pos hup] at h ⊢
      exact ih h
    rw [if_neg hup] at h ⊢
    by_cases hlong : longestName < other.utf8ByteSize
    · rw [if_pos hlong] at h
      cases h
    rw [if_neg hlong] at h ⊢
    cases hg : d.get? (other :: q) with
    | none => cases names <;> simp [hg] at h
    | some node =>
      cases node with
      | file content => cases names <;> simp [hg] at h
      | directory =>
        simp only [hg] at h ⊢
        exact ih h

/-- Following one plain name from a directory. -/
theorem follow_plain {name : String} (hn : Path.Plain name) :
    d.follow q [name] = if longestName < name.utf8ByteSize then .error .nameTooLong
      else .ok (d.target (name :: q)) := by
  rw [follow_cons, if_neg hn.here, if_neg hn.up]
  split
  · rfl
  · unfold target
    cases hg : d.get? (name :: q) with
    | none => rfl
    | some node => cases node <;> rfl

/-- A name joined to the path of a directory. -/
theorem locate_join {base name : String} {place : Place}
    (hb : d.locate base = .ok (.present place .directory)) (hn : Path.Plain name) :
    d.locate (Path.join base name) =
      if longestPath < (Path.join base name).utf8ByteSize ∨ longestName < name.utf8ByteSize
      then .error .nameTooLong else .ok (d.target (name :: place)) := by
  have followable := followable_of_locate hb
  have hne := followable.nonempty
  by_cases hlong : longestPath < (Path.join base name).utf8ByteSize
  · have hnul : (Path.join base name).toList.contains '\x00' = false := by
      simpa using Path.nul_join hne hn followable.nul
    have hjoin : Path.join base name ≠ "" := by
      rintro heq
      rw [heq] at hlong
      cases hlong
    simp only [locate, hnul, hjoin, hlong, true_or, if_true, if_false]
    rfl
  · have hjoin : Followable (Path.join base name) := by
      refine ⟨Path.nul_join hne hn followable.nul, ?_, Nat.not_lt.1 hlong⟩
      intro heq
      have htoList := Path.toList_join hne hn.slash
      rw [heq] at htoList
      split at htoList <;> simp [Path.ne_nil_of_nonempty hne] at htoList
    have hfollow : d.follow (d.start (Path.join base name)) (Path.names (Path.join base name)) =
        d.follow place [name] := by
      rw [Path.names_join hn, start, Path.isAbsolute_join hn]
      exact follow_append (follow_of_locate hb) [name]
    rw [locate_of_followable hjoin, hfollow, follow_plain hn]
    by_cases hname : longestName < name.utf8ByteSize
    · simp [hname]
    · simp only [hlong, hname, or_false, if_false, Path.endsInSlash_join hne hn]
      split <;> simp_all

/-- What a path was followed to, unless that is a directory, is there or free. -/
theorem get?_of_follow {names : List String} {t : Target} (h : d.follow q names = .ok t) :
    (∃ p, t = .present p .directory) ∨ ∃ p, t = d.target p ∧ d.get? p ≠ some .directory := by
  induction names generalizing q with
  | nil =>
    cases h
    exact .inl ⟨q, rfl⟩
  | cons name names ih =>
    rw [follow_cons] at h
    split at h
    · exact ih h
    split at h
    · exact ih h
    split at h
    · cases h
    cases hg : d.get? (name :: q) with
    | none =>
      cases names with
      | nil =>
        simp only [hg] at h
        cases h
        exact .inr ⟨name :: q, (target_of_none hg).symm, by simp [hg]⟩
      | cons _ _ => simp [hg] at h
    | some node =>
      cases node with
      | directory =>
        simp only [hg] at h
        exact ih h
      | file content =>
        cases names with
        | nil =>
          simp only [hg] at h
          cases h
          exact .inr ⟨name :: q, (target_of_some hg).symm, by simp [hg]⟩
        | cons _ _ => simp [hg] at h

/-! ## Paths to files -/

/-- A path leads to a place where a file is or can be made. -/
structure Leads (d : Disk) (path : String) (p : Place) : Prop where
  located : d.locate path = .ok (d.target p)
  apart : d.get? p ≠ some .directory
  unslashed : Path.endsInSlash path = false

theorem Leads.unique (h : d.Leads path p) (h' : d.Leads path q) : p = q :=
  target_inj (Except.ok.inj (h.located.symm.trans h'.located))

theorem Leads.ne_root (h : d.Leads path p) : p ≠ [] := by
  rintro rfl
  exact h.apart rfl

theorem Leads.read_of_file (h : d.Leads path p) {content : ByteArray}
    (hp : d.get? p = some (.file content)) : d.read path = .ok content := by
  simp [read, node?, h.located, target_of_some hp]

theorem Leads.read_of_none (h : d.Leads path p) (hp : d.get? p = none) :
    d.read path = .error .notFound := by
  simp [read, node?, h.located, target_of_none hp]

/-- What is read by a path depends on nothing but the place that it leads to. -/
theorem Leads.read_congr (h : d.Leads path p) {d' : Disk} (h' : d'.Leads path p)
    (same : d'.get? p = d.get? p) : d'.read path = d.read path := by
  cases hg : d.get? p with
  | none => rw [h.read_of_none hg, h'.read_of_none (same.trans hg)]
  | some node =>
    cases node with
    | file content => rw [h.read_of_file hg, h'.read_of_file (same.trans hg)]
    | directory => exact absurd hg h.apart

theorem Leads.of_read (h : d.Leads path p) {content : ByteArray} (hr : d.read path = .ok content) :
    d.get? p = some (.file content) := by
  cases hp : d.get? p with
  | none =>
    rw [h.read_of_none hp] at hr
    cases hr
  | some node =>
    cases node with
    | directory => exact absurd hp h.apart
    | file c =>
      rw [h.read_of_file hp] at hr
      rw [Except.ok.inj hr]

theorem Leads.isFile_iff (h : d.Leads path p) :
    d.isFile path ↔ ∃ content, d.get? p = some (.file content) := by
  cases hp : d.get? p with
  | none => simp [isFile, node?, h.located, target_of_none hp]
  | some node =>
    cases node with
    | directory => exact absurd hp h.apart
    | file c => simp [isFile, node?, h.located, target_of_some hp]

theorem Leads.write (h : d.Leads path p) (content : ByteArray) :
    d.write path content = .ok (d.put p (.file content)) := by
  cases hp : d.get? p with
  | none => simp [Disk.write, h.located, target_of_none hp, h.unslashed]
  | some node =>
    cases node with
    | directory => exact absurd hp h.apart
    | file c => simp [Disk.write, h.located, target_of_some hp]

theorem leads_of_write {content : ByteArray} (h : d.write path content = .ok d') :
    ∃ p, d.Leads path p ∧ d' = d.put p (.file content) := by
  unfold Disk.write at h
  cases hl : d.locate path with
  | error e => simp [hl] at h
  | ok t =>
    rcases get?_of_follow (follow_of_locate hl) with ⟨p, rfl⟩ | ⟨p, rfl, apart⟩
    · simp [hl] at h
    · cases hg : d.get? p with
      | none =>
        simp only [hl, target_of_none hg] at h
        split at h
        · cases h
        · rename_i unslashed
          cases h
          exact ⟨p, ⟨hl, apart, by simpa using unslashed⟩, rfl⟩
      | some node =>
        cases node with
        | directory => exact absurd hg apart
        | file c =>
          simp only [hl, target_of_some hg] at h
          cases h
          refine ⟨p, ⟨hl, apart, ?_⟩, rfl⟩
          have hfollow := follow_of_locate hl
          rw [locate_of_followable (followable_of_locate hl), hfollow, target_of_some hg] at hl
          cases hslash : Path.endsInSlash path with
          | true => simp [hslash] at hl
          | false => rfl

theorem Leads.remove_of_file (h : d.Leads path p) {content : ByteArray}
    (hp : d.get? p = some (.file content)) : d.remove path = d.erase p := by
  simp [remove, h.located, target_of_some hp]

theorem Leads.remove_of_none (h : d.Leads path p) (hp : d.get? p = none) :
    d.remove path = d := by
  simp [remove, h.located, target_of_none hp]

/-- A path that leads to a file leads there by way of directories alone. -/
theorem follow_of_directories {names : List String} (h : d.follow q names = .ok (d.target p))
    (apart : d.get? p ≠ some .directory)
    (kept : ∀ r, d.get? r = some .directory → d'.get? r = some .directory)
    (apart' : d'.get? p ≠ some .directory) : d'.follow q names = .ok (d'.target p) := by
  induction names generalizing q with
  | nil =>
    have ht : Target.present q .directory = d.target p := Except.ok.inj h
    unfold target at ht
    split at ht
    · rename_i node hp
      cases ht
      exact absurd hp apart
    · cases ht
  | cons name names ih =>
    rw [follow_cons] at h ⊢
    by_cases hhere : name = "."
    · rw [if_pos hhere] at h ⊢
      exact ih h
    rw [if_neg hhere] at h ⊢
    by_cases hup : name = ".."
    · rw [if_pos hup] at h ⊢
      exact ih h
    rw [if_neg hup] at h ⊢
    by_cases hlong : longestName < name.utf8ByteSize
    · rw [if_pos hlong] at h
      cases h
    rw [if_neg hlong] at h ⊢
    by_cases hg : d.get? (name :: q) = some .directory
    · simp only [hg] at h
      simp only [kept _ hg]
      exact ih h
    · -- A place that is no directory can only be the last one.
      have hlast : names = [] ∧ name :: q = p := by
        cases hn : d.get? (name :: q) with
        | none =>
          cases names with
          | nil =>
            simp only [hn, ← target_of_none hn] at h
            exact ⟨rfl, target_inj (Except.ok.inj h)⟩
          | cons _ _ => simp [hn] at h
        | some node =>
          cases node with
          | directory => exact absurd hn hg
          | file content =>
            cases names with
            | nil =>
              simp only [hn, ← target_of_some hn] at h
              exact ⟨rfl, target_inj (Except.ok.inj h)⟩
            | cons _ _ => simp [hn] at h
      obtain ⟨rfl, rfl⟩ := hlast
      unfold target
      cases hn : d'.get? (name :: q) with
      | none => rfl
      | some node =>
        cases node with
        | directory => exact absurd hn apart'
        | file content => rfl

theorem Leads.of_directories (h : d.Leads path p) (home : d'.home = d.home)
    (kept : ∀ r, d.get? r = some .directory → d'.get? r = some .directory)
    (apart : d'.get? p ≠ some .directory) : d'.Leads path p := by
  refine ⟨?_, apart, h.unslashed⟩
  have hfollow := follow_of_directories (follow_of_locate h.located) h.apart kept apart
  have hstart : d'.start path = d.start path := by simp only [start, home]
  rw [locate_of_followable (followable_of_locate h.located), hstart, hfollow]
  unfold target
  cases hp : d'.get? p with
  | none => rfl
  | some node => cases node <;> simp [h.unslashed]

theorem leads_join {base name : String} {place : Place}
    (hb : d.locate base = .ok (.present place .directory)) (hn : Path.Plain name)
    (hpath : (Path.join base name).utf8ByteSize ≤ longestPath)
    (hname : name.utf8ByteSize ≤ longestName)
    (apart : d.get? (name :: place) ≠ some .directory) :
    d.Leads (Path.join base name) (name :: place) := by
  refine ⟨?_, apart, Path.endsInSlash_join (followable_of_locate hb).nonempty hn⟩
  rw [locate_join hb hn, if_neg (by omega)]

/-- A name that is joined to the path of a directory leads nowhere else. -/
theorem Leads.eq_of_join {base name : String} {place : Place}
    (h : d.Leads (Path.join base name) p)
    (hb : d.locate base = .ok (.present place .directory)) (hn : Path.Plain name) :
    p = name :: place := by
  have hl := h.located
  rw [locate_join hb hn] at hl
  split at hl
  · cases hl
  · exact target_inj (Except.ok.inj hl).symm

end Disk

end PassTuner
