import PassTuner.Cache.Manifest
import PassTuner.Proofs.Json.RoundTrip

/-!
# Manifests outlive their programs

A manifest that a cache has written is read back as it was: entering variants keeps the entries in
the order of their codes, and reading enters them one by one behind those that are there already.
-/

namespace PassTuner.Manifest

/-- The entries stand in the order of their codes, and no code stands twice. -/
def Sorted (m : Manifest) : Prop := m.entries.Pairwise fun a b => a.1 < b.1

theorem sorted_empty (sourceDigest : String) : (empty sourceDigest).Sorted := List.Pairwise.nil

theorem mem_insertEntry {code : String} {digests : Digests} {entry : String × Digests}
    {entries : List (String × Digests)} (h : entry ∈ insertEntry code digests entries) :
    entry = (code, digests) ∨ entry ∈ entries := by
  induction entries with
  | nil => exact .inl (List.mem_singleton.1 h)
  | cons head rest ih =>
    obtain ⟨other, d⟩ := head
    rw [insertEntry] at h
    split at h
    · rcases List.mem_cons.1 h with rfl | h
      · exact .inl rfl
      · exact .inr (List.mem_cons_of_mem _ h)
    · split at h
      · exact List.mem_cons.1 h
      · rcases List.mem_cons.1 h with rfl | h
        · exact .inr (List.mem_cons_self ..)
        · exact (ih h).imp_right (List.mem_cons_of_mem _)

theorem pairwise_insertEntry {entries : List (String × Digests)}
    (h : entries.Pairwise fun a b => a.1 < b.1) (code : String) (digests : Digests) :
    (insertEntry code digests entries).Pairwise fun a b => a.1 < b.1 := by
  induction entries with
  | nil => exact List.pairwise_singleton _ _
  | cons head rest ih =>
    obtain ⟨other, d⟩ := head
    obtain ⟨first, others⟩ := List.pairwise_cons.1 h
    rw [insertEntry]
    split
    · rename_i heq
      subst heq
      exact List.pairwise_cons.2 ⟨first, others⟩
    · rename_i hne
      split
      · rename_i hlt
        refine List.pairwise_cons.2 ⟨fun entry he => ?_, h⟩
        rcases List.mem_cons.1 he with rfl | he
        · exact hlt
        · exact String.lt_trans hlt (first entry he)
      · rename_i hge
        refine List.pairwise_cons.2 ⟨fun entry he => ?_, ih others⟩
        rcases mem_insertEntry he with rfl | he
        · exact String.not_le.1 fun hle => hne (String.le_antisymm hle (String.not_lt.1 hge))
        · exact first entry he

theorem Sorted.insert {m : Manifest} (h : m.Sorted) (code : String) (digests : Digests) :
    (m.insert code digests).Sorted := pairwise_insertEntry h code digests

/-! ## Reading what was written -/

/-- An entry behind all others is put at the end. -/
theorem insertEntry_of_last {code : String} {digests : Digests} {entries : List (String × Digests)}
    (h : ∀ entry ∈ entries, entry.1 < code) :
    insertEntry code digests entries = entries ++ [(code, digests)] := by
  induction entries with
  | nil => rfl
  | cons head rest ih =>
    obtain ⟨other, d⟩ := head
    have hlt : other < code := h (other, d) (by simp)
    have hne : code ≠ other := by
      rintro rfl
      exact String.lt_irrefl _ hlt
    rw [insertEntry, if_neg hne, if_neg (String.lt_asymm hlt),
      ih fun entry he => h entry (by simp [he])]
    rfl

theorem digestsOfJson?_digestsJson (d : Digests) : digestsOfJson? (digestsJson d) = some d := by
  simp [digestsOfJson?, digestsJson, Json.ofFields, Json.record?, Json.fieldsOf,
    Json.unescape?_escape, Json.Record.required, Json.text?, Json.ofText, List.lookup_cons]

/-- Members are read one by one behind those that were read already. -/
theorem foldlM_members (done left : List (String × Digests))
    (h : (done ++ left).Pairwise fun a b => a.1 < b.1) :
    (left.map fun (code, d) => (Json.escape code.toList, digestsJson d)).foldlM
      (fun entries (quoted, value) => do
        let code ← Json.unescape? quoted
        return insertEntry (String.ofList code) (← digestsOfJson? value) entries) done =
      some (done ++ left) := by
  induction left generalizing done with
  | nil => simp
  | cons entry left ih =>
    obtain ⟨code, d⟩ := entry
    have last : ∀ e ∈ done, e.1 < code := fun e he =>
      (List.pairwise_append.1 h).2.2 e he (code, d) (by simp)
    have hrest := ih (done ++ [(code, d)]) (by simpa using h)
    simpa [Json.unescape?_escape, digestsOfJson?_digestsJson, insertEntry_of_last last] using hrest

theorem entriesOfJson?_ofFields {entries : List (String × Digests)}
    (h : entries.Pairwise fun a b => a.1 < b.1) :
    entriesOfJson? (.ofFields (entries.map fun (code, d) => (code, digestsJson d))) =
      some entries := by
  simpa [entriesOfJson?, Json.ofFields, Function.comp_def] using foldlM_members [] entries h

theorem ofJson?_toJson {m : Manifest} (h : m.Sorted) : ofJson? m.toJson = some m := by
  have he := entriesOfJson?_ofFields h
  simp [ofJson?, toJson, Json.ofFields, Json.record?, Json.fieldsOf, Json.unescape?_escape,
    Json.Record.required, Json.text?, Json.ofText, List.lookup_cons] at he ⊢
  simp [he]

theorem proper_toJson (m : Manifest) : m.toJson.Proper := by
  have digests (d : Digests) : (digestsJson d).Proper :=
    Json.proper_ofFields (by simp [Json.proper_ofText])
  refine Json.proper_ofFields ?_
  simp only [List.mem_cons, List.not_mem_nil, or_false, forall_eq_or_imp, forall_eq]
  refine ⟨Json.proper_ofText _, Json.proper_ofFields ?_⟩
  intro f hf
  obtain ⟨entry, _, rfl⟩ := List.mem_map.1 hf
  exact digests _

/-- A manifest is read back from its text. -/
theorem parseAs_indented {m : Manifest} (h : m.Sorted) :
    Json.parseAs ofJson? m.toJson.indented = .ok m := by
  simp only [Json.parseAs, Json.parse_indented (proper_toJson m), bind, Except.bind,
    ofJson?_toJson h]
  rfl

end PassTuner.Manifest
