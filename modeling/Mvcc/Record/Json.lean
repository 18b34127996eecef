import Mvcc.Json.Shape
import Mvcc.Record.Version

/-!
# Records as JSON

Keys and versions as JSON values, and back.
-/

namespace Mvcc

open Json

namespace KeyValue

/-- A key value as an object with one field. -/
def toJson : KeyValue → Value
  | int n => .ofFields [("Int", .ofInt n.toInt)]
  | text s => .ofFields [("Text", .ofText s)]
  | bytes b => .ofFields [("Bytes", .ofBytes b)]

/-- The key value of an object with one field. -/
def ofJson? (v : Value) : Option KeyValue :=
  match v.case? with
  | some ("Int", some v) => v.int?.map int
  | some ("Text", some v) => v.text?.map text
  | some ("Bytes", some v) => v.bytes?.map bytes
  | _ => none

end KeyValue

namespace RecordKey

def toJson (k : RecordKey) : Value :=
  .ofFields [("table_id", .ofText k.table), ("key", k.key.toJson)]

def ofJson? (v : Value) : Option RecordKey :=
  match v.fields? ["table_id", "key"] false with
  | some [some table, some key] => do
    return { table := ← table.text?, key := ← KeyValue.ofJson? key }
  | _ => none

end RecordKey

namespace Version

def toJson (v : Version) : Value :=
  .ofFields [("key", v.key.toJson), ("version_key", .ofWord v.number),
    ("payload", .ofOption .ofBytes v.payload), ("begin_ts", .ofWord v.beginTs),
    ("end_ts", .ofOption .ofWord v.endTs)]

/-- Reads a version. A missing payload is a delete, a missing end leaves the version open. -/
def ofJson? (v : Value) : Option Version :=
  match v.fields? ["key", "version_key", "payload", "begin_ts", "end_ts"] false with
  | some [some key, some number, payload, some beginTs, endTs] => do
    return {
      key := ← RecordKey.ofJson? key
      number := ← number.word?
      payload := ← Value.optionalField? Value.bytes? payload
      beginTs := ← beginTs.word?
      endTs := ← Value.optionalField? Value.word? endTs }
  | _ => none

end Version

end Mvcc
