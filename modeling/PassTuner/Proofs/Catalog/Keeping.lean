import PassTuner.Proofs.Cache.Records
import PassTuner.Proofs.Json.RoundTrip
import PassTuner.Proofs.Tool.Conduct
import PassTuner.Tool.Simulation
import Mathlib.Data.List.Basic

/-!
# Ids that stay the same

A catalog's file holds its flags in the order of their ids, and what is written there is read back
as the same catalog. So a file that was once there settles the meaning of every id, for any tools
and any rules of discovery, and the tools are asked for nothing. Whatever goes wrong before the file
is written is of no consequence to it.
-/

namespace PassTuner

theorem pairwise_distinct (flags : List String) :
    (distinct flags).Pairwise fun f g => flags.idxOf f < flags.idxOf g := by
  induction flags with
  | nil => exact .nil
  | cons flag rest ih =>
    have other {f : String} (hf : f ∈ (distinct rest).filter (· ≠ flag)) :
        (flag :: rest).idxOf f = rest.idxOf f + 1 :=
      List.idxOf_cons_ne _ (Ne.symm (of_decide_eq_true (List.mem_filter.1 hf).2))
    rw [distinct, List.pairwise_cons]
    refine ⟨fun f hf => ?_, (ih.filter _).imp_of_mem fun hf hg hfg => ?_⟩
    · rw [List.idxOf_cons_self, other hf]
      exact Nat.succ_pos _
    · rw [other hf, other hg]
      exact Nat.succ_lt_succ hfg

namespace Catalog

variable {σ : Type} {c : Catalog} {a b : ActionId} {f g flag path : String} {flags : List String}
  {d d' : Disk} {w w' : World σ} {tc : Toolchain σ} {rules : ListingRules} {e : EnvironmentError}

/-! ## Ids and flags -/

theorem describe_eq_ok : c.describe a = .ok flag ↔ c.flags[a.toNat]? = some flag := by
  unfold describe
  split
  · rename_i h
    rw [h, Except.ok.injEq, Option.some.injEq]
  · rename_i h
    simp [h]

theorem size_le (c : Catalog) : c.size ≤ maxActions := c.encodable

theorem toNat_ofNat {i : Nat} (h : i < c.size) : (UInt16.ofNat i).toNat = i :=
  UInt16.toNat_ofNat_of_lt' (Nat.lt_of_lt_of_le h (Nat.le_trans c.size_le (by decide)))

theorem idOf?_eq_some : c.idOf? flag = some a ↔ c.flags[a.toNat]? = some flag := by
  unfold idOf?
  rw [Option.map_eq_some_iff]
  constructor
  · rintro ⟨i, hi, rfl⟩
    obtain ⟨hlt, hflag, -⟩ := List.idxOf?_eq_some_iff.1 hi
    rw [toNat_ofNat hlt, List.getElem?_eq_getElem hlt, hflag]
  · intro h
    obtain ⟨hlt, hflag⟩ := List.getElem?_eq_some_iff.1 h
    refine ⟨a.toNat, List.idxOf?_eq_some_iff.2 ⟨hlt, hflag, fun j hj heq => ?_⟩, by simp⟩
    exact Nat.ne_of_lt hj (c.nodup.getElem_inj_iff.1 (heq.trans hflag.symm))

/-- Flags and ids stand for each other. -/
theorem describe_iff_idOf? : c.describe a = .ok flag ↔ c.idOf? flag = some a := by
  rw [describe_eq_ok, idOf?_eq_some]

theorem described_iff : (∃ flag, c.describe a = .ok flag) ↔ a.toNat < c.size := by
  simp only [describe_eq_ok, List.getElem?_eq_some_iff]
  constructor
  · rintro ⟨_, h, -⟩
    exact h
  · exact fun h => ⟨_, h, rfl⟩

theorem identified_iff : (∃ a, c.idOf? flag = some a) ↔ flag ∈ c.flags := by
  constructor
  · rintro ⟨a, ha⟩
    exact List.mem_of_getElem? (idOf?_eq_some.1 ha)
  · intro h
    obtain ⟨i, hi, hflag⟩ := List.getElem_of_mem h
    refine ⟨UInt16.ofNat i, idOf?_eq_some.2 ?_⟩
    rw [toNat_ofNat hi, List.getElem?_eq_getElem hi, hflag]

theorem flags_of_ofFlags (h : ofFlags flags = .ok c) : c.flags = distinct flags := by
  unfold ofFlags at h
  split at h
  · cases h
  split at h
  · cases h
    rfl
  · cases h

/-- Of two ids the smaller is that of the flag that stood first. -/
theorem lt_iff_idxOf_lt (h : ofFlags flags = .ok c) (hf : c.describe a = .ok f)
    (hg : c.describe b = .ok g) : a < b ↔ flags.idxOf f < flags.idxOf g := by
  have ordered := flags_of_ofFlags h ▸ pairwise_distinct flags
  obtain ⟨ha, rfl⟩ := List.getElem?_eq_some_iff.1 (describe_eq_ok.1 hf)
  obtain ⟨hb, rfl⟩ := List.getElem?_eq_some_iff.1 (describe_eq_ok.1 hg)
  rw [List.pairwise_iff_getElem] at ordered
  rw [UInt16.lt_iff_toNat_lt]
  refine ⟨ordered _ _ ha hb, fun hlt => ?_⟩
  rcases Nat.lt_trichotomy a.toNat b.toNat with hab | hab | hab
  · exact hab
  · simp [hab] at hlt
  · exact absurd (ordered _ _ hb ha hab) (Nat.lt_asymm hlt)

/-! ## The file -/

theorem ofFlags_flags (c : Catalog) : ofFlags c.flags = .ok c := by
  obtain ⟨flags, nodup, nonempty, encodable⟩ := c
  simp only [ofFlags, distinct_of_nodup nodup]
  rw [dif_neg nonempty, dif_pos encodable]

theorem list?_texts (flags : List String) :
    Json.list? Json.text? (.array (flags.map Json.ofText)) = some flags := by
  change (flags.map Json.ofText).mapM Json.text? = some flags
  induction flags with
  | nil => rfl
  | cons flag flags ih =>
    have text : Json.text? (.ofText flag) = some flag := by
      simp [Json.text?, Json.ofText, Json.unescape?_escape]
    rw [List.map_cons, List.mapM_cons, text, ih]
    rfl

theorem parseAs_indented (c : Catalog) :
    Json.parseAs (Json.list? Json.text?) c.toJson.indented = .ok c.flags := by
  have proper : Json.Proper c.toJson := .array fun j hj => by
    obtain ⟨flag, -, rfl⟩ := List.mem_map.1 hj
    exact Json.proper_ofText flag
  have read : Json.list? Json.text? c.toJson = some c.flags := list?_texts c.flags
  simp only [Json.parseAs, Json.parse_indented proper, bind, Except.bind, read]
  rfl

/-- A catalog is read from the text that it is written as. -/
theorem ofDisk?_of_read (h : d.read path = .ok c.toJson.indented.toUTF8) :
    ofDisk? d path = .ok (some c) := by
  simp only [ofDisk?, Disk.readText_of_read h, parseAs_indented, ofFlags_flags]

theorem ofDisk?_congr (h : d'.read path = d.read path) : ofDisk? d' path = ofDisk? d path := by
  simp only [ofDisk?, Disk.readText, h]

/-! ## Loading and saving -/

theorem load_eq (path : String) (w : World σ) :
    load path w = match ofDisk? w.disk path with
      | .ok c => .ok c w
      | .error e => .error e w := by
  unfold load
  rw [EStateM.bind_of_ok (rfl : (get : Environment σ (World σ)) w = .ok w w)]
  cases ofDisk? w.disk path <;> rfl

theorem of_load_ok {found : Option Catalog} (h : load path w = .ok found w') :
    w' = w ∧ ofDisk? w.disk path = .ok found := by
  rw [load_eq] at h
  split at h
  · rename_i hd
    cases h
    exact ⟨rfl, hd⟩
  · cases h

theorem of_load_error (h : load path w = .error e w') : w' = w := by
  rw [load_eq] at h
  split at h
  · cases h
  · cases h
    rfl

/-- The catalog that was saved is the one in the file. -/
theorem ofDisk?_of_save (h : c.save path w = .ok () w') :
    ofDisk? w'.disk path = .ok (some c) := by
  have written {w₁ : World σ}
      (hw : Environment.changing path (·.writeText path c.toJson.indented) w₁ = .ok () w') :
      ofDisk? w'.disk path = .ok (some c) := by
    unfold Environment.changing at hw
    split at hw
    · rename_i hwrite
      cases hw
      exact ofDisk?_of_read (Disk.read_of_write hwrite)
    · cases hw
  unfold save at h
  cases hparent : Path.parent? path with
  | none =>
    simp only [hparent] at h
    exact written h
  | some parent =>
    simp only [hparent] at h
    split at h
    · obtain ⟨_, _, -, hw⟩ := EStateM.of_bind_ok h
      exact written hw
    · exact written h

theorem after_of_ofTool {α : Type} {call : Tool σ α} {output : α}
    (h : Environment.ofTool call w = .ok output w') : call.after w = w' := by
  unfold Environment.ofTool at h
  unfold Tool.after
  cases ht : call w <;> rw [ht] at h <;> cases h
  rfl

theorem after_of_ofTool_error {α : Type} {call : Tool σ α}
    (h : Environment.ofTool call w = .error e w') : call.after w = w' := by
  unfold Environment.ofTool at h
  unfold Tool.after
  cases ht : call w <;> rw [ht] at h <;> cases h
  rfl

/-- What the optimizer's answer comes to. -/
def vocabulary (rules : ListingRules) (output : ToolOutput) : Except EnvironmentError Catalog :=
  if output.succeeded then
    match rules.flags? output.stdout with
    | none => .error (.discovery (.noHeader rules.sectionHeader))
    | some flags => ofFlags flags
  else .error (.discovery (.failed output))

theorem discover_eq (tc : Toolchain σ) (rules : ListingRules) :
    discover tc rules = Environment.ofTool tc.describe >>= fun output =>
      Environment.ofExcept (vocabulary rules output) := by
  refine bind_congr fun output => ?_
  unfold vocabulary
  cases output.succeeded with
  | false => rfl
  | true => cases rules.flags? output.stdout <;> rfl

/-- Where nothing is discovered, nothing happens but the call of the optimizer. -/
theorem after_of_discover_error (h : discover tc rules w = .error e w') :
    tc.describe.after w = w' := by
  rw [discover_eq] at h
  rcases EStateM.of_bind_error h with hcall | ⟨output, w₁, hcall, hanswer⟩
  · exact after_of_ofTool_error hcall
  · rw [after_of_ofTool hcall]
    cases hfound : vocabulary rules output <;> rw [hfound] at hanswer <;> cases hanswer
    rfl

/-- A file that holds a catalog is all that is asked. -/
theorem loadOrDiscover_of_file (tc : Toolchain σ) (rules : ListingRules)
    (h : ofDisk? w.disk path = .ok (some c)) : loadOrDiscover path tc rules w = .ok c w := by
  have found : load path w = .ok (some c) w := by rw [load_eq, h]
  unfold loadOrDiscover
  rw [EStateM.bind_of_ok found]
  rfl

theorem ofDisk?_of_loadOrDiscover (h : loadOrDiscover path tc rules w = .ok c w') :
    ofDisk? w'.disk path = .ok (some c) := by
  unfold loadOrDiscover at h
  obtain ⟨found, w₁, hload, h⟩ := EStateM.of_bind_ok h
  obtain ⟨rfl, hd⟩ := of_load_ok hload
  cases found with
  | some c' =>
    cases h
    exact hd
  | none =>
    obtain ⟨c', w₂, -, h⟩ := EStateM.of_bind_ok h
    obtain ⟨_, w₃, hsave, h⟩ := EStateM.of_bind_ok h
    cases h
    exact ofDisk?_of_save hsave

/-- Saving is all that can fail after the discovery, which itself does no more than its call. -/
theorem of_loadOrDiscover_error (h : loadOrDiscover path tc rules w = .error e w') :
    (∃ c w₁, load path w = .ok none w ∧ discover tc rules w = .ok c w₁ ∧
        c.save path w₁ = .error e w') ∨
      w' = w ∨ w' = tc.describe.after w := by
  unfold loadOrDiscover at h
  rcases EStateM.of_bind_error h with hload | ⟨found, w₁, hload, h⟩
  · exact .inr (.inl (of_load_error hload))
  obtain ⟨rfl, hd⟩ := of_load_ok hload
  cases found with
  | some c => cases h
  | none =>
    rcases EStateM.of_bind_error h with hdiscover | ⟨c, w₂, hdiscover, h⟩
    · exact .inr (.inr (after_of_discover_error hdiscover).symm)
    · rcases EStateM.of_bind_error h with hsave | ⟨_, _, _, h⟩
      · exact .inl ⟨c, w₂, hload, hdiscover, hsave⟩
      · cases h

/-- Ids mean the same in every run: among the flags that a catalog is made of, the one that stands
first has the smaller id; a catalog that was once there is what every later call finds, whatever the
tools and the rules, and without asking for anything; and a call that fails before it saves leaves
the file, or its absence, to the optimizer. -/
theorem ids_are_stable (path : String) (tc : Toolchain σ) (rules : ListingRules) (w : World σ) :
    (∀ flags c, ofFlags flags = .ok c →
      (1 ≤ c.size ∧ c.size ≤ 1296) ∧
      (∀ a flag, c.describe a = .ok flag ↔ c.idOf? flag = some a) ∧
      (∀ a, (∃ flag, c.describe a = .ok flag) ↔ a.toNat < c.size) ∧
      (∀ flag, (∃ a, c.idOf? flag = some a) ↔ flag ∈ flags) ∧
      ∀ a b f g, c.describe a = .ok f → c.describe b = .ok g →
        (a < b ↔ flags.idxOf f < flags.idxOf g)) ∧
    (∀ c w', loadOrDiscover path tc rules w = .ok c w' →
      ∀ (τ : Type) (others : Toolchain τ) (rules' : ListingRules) (later : World τ),
        later.disk.read path = w'.disk.read path →
        loadOrDiscover path others rules' later = .ok c later) ∧
    ∀ e w', loadOrDiscover path tc rules w = .error e w' →
      (∃ c w₁, load path w = .ok none w ∧ discover tc rules w = .ok c w₁ ∧
        c.save path w₁ = .error e w') ∨
      (w' = w ∨ w' = tc.describe.after w) ∧
        ((tc.describe.after w).disk.read path = w.disk.read path →
          w'.disk.read path = w.disk.read path) := by
  refine ⟨fun flags c h => ?_, fun c w' h τ others rules' later untouched => ?_, fun e w' h => ?_⟩
  · refine ⟨⟨c.size_pos, c.size_le⟩, fun a flag => describe_iff_idOf?, fun a => described_iff,
      fun flag => ?_, fun a b f g => lt_iff_idxOf_lt h⟩
    rw [identified_iff, flags_of_ofFlags h, mem_distinct]
  · exact loadOrDiscover_of_file others rules'
      ((ofDisk?_congr untouched).trans (ofDisk?_of_loadOrDiscover h))
  · rcases of_loadOrDiscover_error h with saving | rfl | rfl
    · exact .inl saving
    · exact .inr ⟨.inl rfl, fun _ => rfl⟩
    · exact .inr ⟨.inr rfl, fun untouched => untouched⟩

/-- Tools with a help text. -/
def documented (listing : String) : Toolchain Nat :=
  { Simulation.toolchain ⟨[], [], [], []⟩ with describe := return .ok listing }

def passRules : ListingRules := ⟨"Passes:", [], none⟩

/-- What the first run finds, on an empty disk. -/
def firstFound : EStateM.Result EnvironmentError (World Nat) Catalog :=
  loadOrDiscover "actions.json" (documented "Passes:\n --licm\n --dce\n --licm\n") passRules
    ⟨⟨[], []⟩, 0, 0⟩

def hasPasses : EStateM.Result EnvironmentError (World Nat) Catalog → Bool
  | .ok c _ => c.flags = ["--licm", "--dce"]
  | .error _ _ => false

theorem hasPasses_firstFound : hasPasses firstFound = true := by decide +kernel

/-- A pass is listed twice in the first run, and the passes come the other way round in the second.
-/
theorem ids_are_stable_listed : ∃ c w, firstFound = .ok c w ∧
    c.flags = ["--licm", "--dce"] ∧
    loadOrDiscover "actions.json" (documented "Passes:\n --dce\n --licm\n") .standard w =
      .ok c w := by
  have found := hasPasses_firstFound
  cases hrun : firstFound with
  | error e w => simp [hrun, hasPasses] at found
  | ok c w =>
    rw [hrun] at found
    exact ⟨c, w, rfl, of_decide_eq_true found,
      (ids_are_stable _ _ _ _).2.1 c w hrun Nat _ .standard w rfl⟩

end Catalog

end PassTuner
