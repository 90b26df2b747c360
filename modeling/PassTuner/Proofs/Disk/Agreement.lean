import PassTuner.Proofs.Disk.FreeName

/-!
# Disks that agree in a region

Whatever a path leads to depends on the places on its way and on nothing else, and what is changed
at its end is changed in the same way wherever that way is the same. So two disks with the same in a
region, and anything elsewhere, cannot be told apart by paths whose ways are in the region, and they
still have the same there after they were both changed by such a path.
-/

namespace PassTuner

/-- Answers that are related, or the same error. -/
inductive Except.Matched {ε α β : Type} (A : α → β → Prop) :
    Except ε α → Except ε β → Prop where
  | ok {a : α} {b : β} (answers : A a b) : Matched A (.ok a) (.ok b)
  | error (e : ε) : Matched A (.error e) (.error e)

namespace Disk

/-- The places that are looked at when names are followed from a directory, if all of them are. -/
def ways : Place → List String → List Place
  | _, [] => []
  | p, name :: rest =>
    if name = "." then ways p rest
    else if name = ".." then ways p.tail rest
    else (name :: p) :: ways (name :: p) rest

/-- Places, and the directory that relative paths start from. -/
structure Region where
  home : Place
  places : Place → Prop

/-- The way of a path is in the region. -/
def Region.Covers (r : Region) (path : String) : Prop :=
  ∀ p ∈ ways (if Path.isAbsolute path then [] else r.home) (Path.names path), r.places p

/-- Two disks have the same in a region. -/
structure Agree (r : Region) (d d' : Disk) : Prop where
  home : d.home = r.home
  home' : d'.home = r.home
  same : ∀ p, r.places p → d'.get? p = d.get? p

variable {r : Region} {d d' : Disk} {path directory start kept : String} {p : Place}

theorem follow_of_ways {names : List String} (h : ∀ q ∈ ways p names, d'.get? q = d.get? q) :
    d'.follow p names = d.follow p names := by
  induction names generalizing p with
  | nil => rfl
  | cons name names ih =>
    rw [ways] at h
    rw [follow_cons, follow_cons]
    by_cases hhere : name = "."
    · rw [if_pos hhere] at h
      rw [if_pos hhere, if_pos hhere, ih h]
    rw [if_neg hhere] at h
    rw [if_neg hhere, if_neg hhere]
    by_cases hup : name = ".."
    · rw [if_pos hup] at h
      rw [if_pos hup, if_pos hup, ih h]
    rw [if_neg hup] at h
    have hrest : d'.follow (name :: p) names = d.follow (name :: p) names :=
      ih fun q hq => h q (List.mem_cons_of_mem _ hq)
    rw [if_neg hup, if_neg hup, h _ List.mem_cons_self]
    cases d.get? (name :: p) with
    | none => cases names <;> rfl
    | some node =>
      cases node with
      | file content => cases names <;> rfl
      | directory => simp only [hrest]

/-! ## Regions around a directory -/

theorem suffix_of_mem_ways {names : List String} (up : ".." ∉ names) {q : Place}
    (hq : q ∈ ways p names) : p <:+ q := by
  induction names generalizing p with
  | nil => exact absurd hq List.not_mem_nil
  | cons name names ih =>
    rw [List.mem_cons, not_or] at up
    rw [ways] at hq
    split at hq
    · exact ih up.2 hq
    · rw [if_neg (Ne.symm up.1)] at hq
      rcases List.mem_cons.1 hq with rfl | hq
      · exact List.suffix_cons _ _
      · exact (List.suffix_cons _ _).trans (ih up.2 hq)

/-- A path goes nowhere but into its outermost directory, and all that is in there is in the region.
-/
def Region.Encloses (r : Region) (path : String) : Prop :=
  ∃ first inner, Path.names path = first :: inner ∧ first ≠ "." ∧ ".." ∉ first :: inner ∧
    ∀ q, first :: (if Path.isAbsolute path then [] else r.home) <:+ q → r.places q

theorem Region.Encloses.join (h : r.Encloses directory) {name : String} (hn : Path.Plain name) :
    r.Encloses (Path.join directory name) := by
  obtain ⟨first, inner, hnames, here, up, inside⟩ := h
  refine ⟨first, inner ++ [name], by rw [Path.names_join hn, hnames]; rfl, here, ?_, ?_⟩
  · rw [← List.cons_append, List.mem_append, not_or]
    exact ⟨up, by simpa using hn.up.symm⟩
  · rwa [Path.isAbsolute_join hn]

theorem Region.Encloses.covers (h : r.Encloses path) : r.Covers path := by
  obtain ⟨first, inner, hnames, here, up, inside⟩ := h
  rw [List.mem_cons, not_or] at up
  intro q hq
  rw [hnames, ways, if_neg here, if_neg (Ne.symm up.1)] at hq
  refine inside q ?_
  rcases List.mem_cons.1 hq with rfl | hq
  · exact List.suffix_rfl
  · exact suffix_of_mem_ways up.2 hq

namespace Agree

/-! ## Reading -/

theorem locate (h : Agree r d d') (hc : r.Covers path) : d'.locate path = d.locate path := by
  have hfollow : d'.follow (if Path.isAbsolute path then [] else d'.home) (Path.names path) =
      d.follow (if Path.isAbsolute path then [] else d.home) (Path.names path) := by
    rw [h.home, h.home']
    exact follow_of_ways fun q hq => h.same q (hc q hq)
  unfold Disk.locate
  rw [hfollow]

theorem read (h : Agree r d d') (hc : r.Covers path) : d'.read path = d.read path := by
  simp only [Disk.read, node?, h.locate hc]

theorem isFile (h : Agree r d d') (hc : r.Covers path) : d'.isFile path = d.isFile path := by
  simp only [Disk.isFile, node?, h.locate hc]

/-- The same names are free, however many files there are elsewhere. -/
theorem freeName (h : Agree r d d') (hn : ∀ n, Path.Plain (numbered start n))
    (hc : ∀ n, r.Covers (Path.join directory (numbered start n))) :
    d'.freeName directory start kept = d.freeName directory start kept :=
  freeName_eq_of_isFree hn fun n => by simp only [isFree, isVacant, h.locate (hc n)]

/-! ## Changing -/

theorem put (h : Agree r d d') (p : Place) (node : Node) :
    Agree r (d.put p node) (d'.put p node) := by
  refine ⟨h.home, h.home', fun q hq => ?_⟩
  by_cases hqp : q = p
  · by_cases hroot : p = []
    · rw [hqp, hroot, get?_root, get?_root]
    · rw [hqp, get?_put_same d' hroot, get?_put_same d hroot]
  · rw [get?_put_other d' hqp, get?_put_other d hqp, h.same q hq]

theorem erase (h : Agree r d d') (p : Place) : Agree r (d.erase p) (d'.erase p) := by
  refine ⟨h.home, h.home', fun q hq => ?_⟩
  by_cases hin : p <:+ q
  · by_cases hroot : q = []
    · rw [hroot, get?_root, get?_root]
    · rw [get?_erase_inside d' hin hroot, get?_erase_inside d hin hroot]
  · rw [get?_erase_other d' hin, get?_erase_other d hin, h.same q hq]

theorem write (h : Agree r d d') (hc : r.Covers path) (content : ByteArray) :
    Except.Matched (Agree r) (d.write path content) (d'.write path content) := by
  unfold Disk.write
  rw [h.locate hc]
  split
  · exact .error _
  · exact .error _
  · exact .ok (h.put _ _)
  · split
    · exact .error _
    · exact .ok (h.put _ _)

theorem makeDirectory (h : Agree r d d') (hc : r.Covers path)
    (ht : r.Covers (String.ofList (Path.trimReversed path.toList.reverse).reverse)) :
    Except.Matched (Agree r) (d.makeDirectory path) (d'.makeDirectory path) := by
  unfold Disk.makeDirectory
  rw [h.locate hc, h.isFile ht]
  split
  · split <;> exact .error _
  · exact .error _
  · exact .error _
  · exact .ok (h.put _ _)

theorem remove (h : Agree r d d') (hc : r.Covers path) :
    Agree r (d.remove path) (d'.remove path) := by
  unfold Disk.remove
  rw [h.locate hc]
  split
  · exact h.erase _
  · exact h

end Agree

end Disk

end PassTuner
