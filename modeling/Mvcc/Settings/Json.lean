import Mvcc.Json.Document
import Mvcc.Json.Shape
import Mvcc.Settings.Basic

/-!
# Settings documents

Settings as a JSON document. A field that is left out has its default; a document is accepted only
if the settings it holds are valid.

* `Settings.toJson`, `Settings.ofJson?`: settings as a JSON value, and back.
* `Settings.ofText`, `Settings.ofFile`: a document, and a file that should hold one.
-/

namespace Mvcc

open Json

namespace Backend

/-- A backend is its name. -/
def toJson (b : Backend) : Value := .ofText b.display

/-- Reads the name of a backend, which must be in lower case. -/
def ofJson? (v : Value) : Option Backend := v.oneOf? all display

end Backend

namespace Settings

/-- Settings, every field in its place. -/
def toJson (s : Settings) : Value :=
  .ofFields [("storage_type", s.backend.toJson), ("data_path", .ofOption .ofText s.dataPath),
    ("version_tree", .ofText s.treeName), ("initial_timestamp", .ofWord s.initialTs),
    ("gc_interval_commits", .ofOption .ofWord s.collectEvery)]

/-- Reads settings; fields that are left out have their defaults. -/
def ofJson? (v : Value) : Option Settings :=
  let names :=
    ["storage_type", "data_path", "version_tree", "initial_timestamp", "gc_interval_commits"]
  match v.fields? names true with
  | some [backend, dataPath, treeName, initialTs, collectEvery] => do
    let default : Settings := {}
    return {
      backend := ← Value.defaultField? default.backend Backend.ofJson? backend
      dataPath := ← Value.optionalField? Value.text? dataPath
      treeName := ← Value.defaultField? default.treeName Value.text? treeName
      initialTs := ← Value.defaultField? default.initialTs Value.word? initialTs
      collectEvery := ← Value.optionalField? Value.word? collectEvery }
  | _ => none

def ofText (document : String) : Except Problem Settings :=
  match (Value.ofText? document).bind ofJson? with
  | none => .error .notJson
  | some s =>
    match s.validate with
    | .error p => .error p
    | .ok () => .ok s

/-- The settings of a file, if it exists and holds text. -/
def ofFile (content : Option Bytes) : Except Problem Settings :=
  match content.bind Bytes.toText? with
  | none => .error .unreadable
  | some document => ofText document

end Settings

end Mvcc
