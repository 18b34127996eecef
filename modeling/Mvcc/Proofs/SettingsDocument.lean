import Mathlib.Data.List.Nodup
import Mvcc.Proofs.Reader
import Mvcc.Settings.Json

/-!
# Settings are read as they were written

A settings document gives each setting once, in any order and among fields that nobody asks for; a
setting that is left out has its default. Every text of such a document is read as the settings, or
is refused for what is wrong with them.

* `Value.Gives`: objects that hold the entries of a record, with `Gives.fields?_object`.
* `Settings.entries`: the fields of settings. They describe the settings, by `describes_entries`.
* `Settings.Describes.ofJson?`: the value that a document holds is read as the settings.
* `Settings.ofText_eq_notJson_iff`: the texts that are refused as no settings document.
* `Settings.ReadFrom`, `Settings.readFrom_document`: the result for texts.
-/

namespace Mvcc

open Json

/-! ## Records -/

namespace Json.Value

variable {α : Type} {entries defaults : List (String × Value)} {fields : List (Text × Value)}

/-- The fields of an object hold the entries of a record, in any order and among others. An entry
may be left out if it is one of the defaults. -/
structure Gives (fields : List (Text × Value)) (entries defaults : List (String × Value)) :
    Prop where
  named : ∀ f ∈ fields, f.1.isSome = true
  once : ∀ e ∈ entries, (fields.map (·.1)).count (some e.1) ≤ 1
  given : ∀ e ∈ entries, ∀ v, (some e.1, v) ∈ fields → v = e.2
  left_out : ∀ e ∈ entries, (∀ f ∈ fields, f.1 ≠ some e.1) → e ∈ defaults

/-- The value of the first field with this name. -/
def found (fields : List (Text × Value)) (name : String) : Option Value :=
  (fields.find? fun f => f.1 == some name).map (·.2)

theorem Gives.fields?_object (h : Gives fields entries defaults) (short : Bool) :
    (object fields).fields? (entries.map (·.1)) short =
      some (entries.map fun e => found fields e.1) := by
  have hnamed : fields.all (·.1.isSome) = true := List.all_eq_true.2 h.named
  have honce : ∀ name ∈ entries.map (·.1),
      (fields.filter fun f => f.1 == some name).length ≤ 1 := by
    intro name hname
    obtain ⟨e, he, rfl⟩ := List.mem_map.1 hname
    have hcount := h.once e he
    rwa [List.count, List.countP_map, List.countP_eq_length_filter] at hcount
  rw [Value.fields?, if_pos ⟨hnamed, honce⟩, List.map_map]
  rfl

theorem Gives.found_or (h : Gives fields entries defaults) {name : String} {v : Value}
    (mem : (name, v) ∈ entries) :
    found fields name = some v ∨ found fields name = none ∧ (name, v) ∈ defaults := by
  cases hfind : fields.find? fun f => f.1 == some name with
  | none =>
    have hnone : ∀ f ∈ fields, f.1 ≠ some name := by simpa using hfind
    exact Or.inr ⟨by rw [found, hfind]; rfl, h.left_out _ mem hnone⟩
  | some f =>
    have hname : f.1 = some name := by simpa using List.find?_some hfind
    have hmem : (some name, f.2) ∈ fields := by
      rw [← hname]
      exact List.mem_of_find?_eq_some hfind
    have hvalue : f.2 = v := h.given _ mem _ hmem
    exact Or.inl (by rw [found, hfind, ← hvalue]; rfl)

theorem gives_entries (nodup : (entries.map (·.1)).Nodup) :
    Gives (entries.map fun e => (some e.1, e.2)) entries defaults where
  named f hf := by
    obtain ⟨e, -, rfl⟩ := List.mem_map.1 hf
    rfl
  once e _ := by
    have hnodup : (entries.map fun e => some e.1).Nodup := by
      simpa [Function.comp_def] using nodup.map (Option.some_injective String)
    rw [List.map_map]
    exact List.nodup_iff_count_le_one.1 hnodup _
  given e he v hv := by
    obtain ⟨e', he', heq⟩ := List.mem_map.1 hv
    obtain ⟨hname, rfl⟩ : e'.1 = e.1 ∧ e'.2 = v := by simpa using heq
    rw [List.inj_on_of_nodup_map nodup he' he hname]
  left_out e he hnone := by
    have hmem : (some e.1, e.2) ∈ entries.map fun e => (some e.1, e.2) :=
      List.mem_map.2 ⟨e, he, rfl⟩
    exact absurd rfl (hnone _ hmem)

/-! ## Values of fields -/

@[simp] theorem text?_ofText (s : String) : (ofText s).text? = some s := rfl

@[simp] theorem word?_ofWord (n : UInt64) : (ofWord n).word? = some n := by
  have hlt : n.toNat < UInt64.size := n.toNat_lt
  simp [word?, ofWord, below?, hlt]

theorem nullable?_ofOption {read : Value → Option α} {write : α → Value}
    (read_write : ∀ a, read (write a) = some a) (write_ne : ∀ a, write a ≠ null) (o : Option α) :
    (ofOption write o).nullable? read = some o := by
  cases o with
  | none => rfl
  | some a =>
    rw [ofOption, nullable?, read_write]
    · rfl
    · exact write_ne a

theorem optionalField?_eq (read : Value → Option α) (v : Option Value) :
    optionalField? read v = defaultField? none (nullable? read) v := by
  cases v <;> rfl

theorem defaultField?_found {read : Value → Option α} {write : α → Value}
    (read_write : ∀ a, read (write a) = some a) {a b : α} {v : Option Value}
    (h : v = some (write a) ∨ v = none ∧ write a = write b) :
    defaultField? b read v = some a := by
  rcases h with rfl | ⟨rfl, heq⟩
  · exact read_write a
  · have hread := read_write b
    -- both are written alike, so they are the same
    rw [← heq, read_write] at hread
    exact hread.symm

end Json.Value

@[simp] theorem Backend.ofJson?_toJson (b : Backend) : ofJson? b.toJson = some b := by
  cases b <;> decide

/-! ## Settings -/

namespace Settings

/-- The fields of settings. -/
def entries (s : Settings) : List (String × Value) :=
  [("storage_type", s.backend.toJson), ("data_path", .ofOption .ofText s.dataPath),
    ("version_tree", .ofText s.treeName), ("initial_timestamp", .ofWord s.initialTs),
    ("gc_interval_commits", .ofOption .ofWord s.collectEvery)]

/-- The fields of an object describe settings. -/
def Describes (s : Settings) (fields : List (Text × Value)) : Prop :=
  Value.Gives fields s.entries (entries {})

variable {s : Settings} {fields : List (Text × Value)} {document : String}

theorem nodup_names (s : Settings) : (s.entries.map (·.1)).Nodup := by
  simp [entries]

theorem toJson_eq (s : Settings) : s.toJson = .object (s.entries.map fun e => (some e.1, e.2)) :=
  rfl

theorem describes_entries (s : Settings) : s.Describes (s.entries.map fun e => (some e.1, e.2)) :=
  Value.gives_entries s.nodup_names

theorem Describes.defaultField? {α : Type} (h : s.Describes fields) {name : String} {a b : α}
    {read : Value → Option α} {write : α → Value} (read_write : ∀ a, read (write a) = some a)
    (mem : (name, write a) ∈ s.entries) (mem_default : (name, write b) ∈ entries {}) :
    Value.defaultField? b read (Value.found fields name) = some a := by
  refine Value.defaultField?_found read_write ?_
  refine (Value.Gives.found_or h mem).imp_right fun ⟨hnone, hmem⟩ => ⟨hnone, ?_⟩
  have heq := List.inj_on_of_nodup_map (nodup_names {}) hmem mem_default rfl
  exact congrArg Prod.snd heq

theorem Describes.ofJson? (h : s.Describes fields) :
    Settings.ofJson? (.object fields) = some s := by
  have hfields := Value.Gives.fields?_object h true
  have hbackend : Value.defaultField? .memory Backend.ofJson? (Value.found fields "storage_type") =
      some s.backend :=
    h.defaultField? Backend.ofJson?_toJson (by simp [entries]) (by simp [entries])
  have hdataPath : Value.defaultField? none (Value.nullable? Value.text?)
      (Value.found fields "data_path") = some s.dataPath :=
    h.defaultField? (Value.nullable?_ofOption Value.text?_ofText (by simp [Value.ofText]))
      (by simp [entries]) (by simp [entries])
  have htreeName : Value.defaultField? "versions" Value.text? (Value.found fields "version_tree") =
      some s.treeName :=
    h.defaultField? Value.text?_ofText (by simp [entries]) (by simp [entries])
  have hinitialTs : Value.defaultField? 0 Value.word? (Value.found fields "initial_timestamp") =
      some s.initialTs :=
    h.defaultField? Value.word?_ofWord (by simp [entries]) (by simp [entries])
  have hcollectEvery : Value.defaultField? none (Value.nullable? Value.word?)
      (Value.found fields "gc_interval_commits") = some s.collectEvery :=
    h.defaultField? (Value.nullable?_ofOption Value.word?_ofWord (by simp [Value.ofWord]))
      (by simp [entries]) (by simp [entries])
  simp only [entries, List.map_cons, List.map_nil] at hfields
  simp only [Settings.ofJson?, hfields, Value.optionalField?_eq, hbackend, hdataPath, htreeName,
    hinitialTs, hcollectEvery]
  rfl

/-- A document is read as settings, or is refused for what is wrong with them. -/
structure ReadFrom (s : Settings) (document : String) : Prop where
  accepted : s.validate = .ok () → ofText document = .ok s
  refused : ∀ p, s.validate = .error p → ofText document = .error p

theorem readFrom_of_laid (describes : s.Describes fields)
    (laid : Laid (Value.object fields).tokens document.toList) : s.ReadFrom document := by
  have hread : (Value.ofText? document).bind Settings.ofJson? = some s := by
    rw [Value.ofText?_of_laid laid, Option.bind_some, describes.ofJson?]
  constructor
  · intro hvalid
    simp only [ofText, hread, hvalid]
  · intro p hinvalid
    simp only [ofText, hread, hinvalid]

theorem validate_ne_notJson (s : Settings) : s.validate ≠ .error .notJson := by
  unfold validate
  split_ifs <;> simp

/-- Documents that are refused as no settings are those that spell no value, or none that settings
can be read from. -/
theorem ofText_eq_notJson_iff :
    ofText document = .error .notJson ↔
      ∀ v : Value, Laid v.tokens document.toList → Settings.ofJson? v = none := by
  have hread : (Value.ofText? document).bind Settings.ofJson? = none ↔
      ∀ v : Value, Laid v.tokens document.toList → Settings.ofJson? v = none := by
    simp only [Option.bind_eq_none_iff, Value.ofText?_eq_some_iff]
  rw [← hread, ofText]
  cases hs : (Value.ofText? document).bind Settings.ofJson? with
  | none => simp
  | some s =>
    cases hvalid : s.validate with
    | ok => simp [hvalid]
    | error p =>
      have hne : p ≠ .notJson := by
        rintro rfl
        exact s.validate_ne_notJson hvalid
      simp [hvalid, hne]

/-- Every text of an object that describes settings is read as these, and so is the text that is
printed for them. -/
theorem readFrom_document (s : Settings) :
    (∀ fields document, s.Describes fields →
      Laid (Value.object fields).tokens document.toList → s.ReadFrom document) ∧
    s.ReadFrom s.toJson.render := by
  constructor
  · intro fields document describes laid
    exact readFrom_of_laid describes laid
  · have laid := Value.laid_render s.toJson
    rw [toJson_eq] at laid
    exact readFrom_of_laid s.describes_entries laid

/-- An unknown field comes first, the known ones stand in another order, two have their defaults. -/
theorem readFrom_document_shuffled :
    let s : Settings :=
      { backend := .sled, dataPath := some "/tmp/\"α\"", collectEvery := some 50 }
    let fields : List (Text × Value) :=
      [(some "note", .array [.null, .object []]), (some "gc_interval_commits", .ofWord 50),
        (some "data_path", .ofText "/tmp/\"α\""), (some "storage_type", .ofText "sled")]
    s.Describes fields ∧ Laid (Value.object fields).tokens (Value.object fields).render.toList ∧
      (Value.object fields).render = "\x7b\"note\":[null,\x7b\x7d],\"gc_interval_commits\":50," ++
        "\"data_path\":\"/tmp/\\\"α\\\"\",\"storage_type\":\"sled\"\x7d" ∧
      ofText (Value.object fields).render = .ok s := by
  intro s fields
  have describes : s.Describes fields := by
    constructor
    · decide
    · simp [entries, fields]
    · simp [entries, fields, s, Value.ofOption, Backend.toJson, Backend.display]
    · simp [entries, fields, s, Value.ofOption]
  have laid := Value.laid_render (Value.object fields)
  exact ⟨describes, laid, by decide +kernel,
    ((readFrom_document s).1 fields _ describes laid).accepted rfl⟩

end Settings

end Mvcc
