import Mvcc.Bytes.Crc32
import Mvcc.Bytes.Decoder
import Mvcc.Record.Version

/-!
# Stored form of records

A version is stored under its record key and number, as its fields followed by their check. Fields
have fixed widths or carry their length, so every field ends where its own bytes say.

* `RecordKey.encode`, `Version.encode`, `KeyValue.encode`: the fields.
* `Layout.location`: where a version is stored. The number stands last and most significant byte
  first, so that the order of the tree is the order of the numbers.
* `Layout.withCheck`, `Layout.dropCheck`: fields with their check, and without.
* `Layout.encode`, `Layout.decode`: a version in its stored form, and back; by `decode_encode`
  nothing is lost.
-/

namespace Mvcc

/-! ## Fields -/

namespace KeyValue

/-- A word that tells the kind, then the value. -/
def encode : KeyValue → Bytes
  | int n => Bytes.ofUInt32 0 ++ Bytes.ofInt64 n
  | text s => Bytes.ofUInt32 1 ++ Bytes.counted (Bytes.ofText s)
  | bytes b => Bytes.ofUInt32 2 ++ Bytes.counted b

def decoder : Decoder KeyValue := do
  match ← Decoder.word32 with
  | 0 => return int (← Decoder.int64)
  | 1 => return text (← Decoder.text)
  | 2 => return bytes (← Decoder.counted)
  | _ => StateT.lift none

def Fits : KeyValue → Prop
  | int _ => True
  | text s => (Bytes.ofText s).length < UInt64.size
  | bytes b => b.length < UInt64.size

theorem run_decoder (k : KeyValue) (rest : Bytes) (h : k.Fits) :
    StateT.run decoder (k.encode ++ rest) = some (k, rest) := by
  cases k with
  | int n =>
    rw [encode, List.append_assoc, decoder, Decoder.run_bind, Decoder.run_word32]
    simp only [Option.bind_some]
    rw [Decoder.run_bind, Decoder.run_int64]
    rfl
  | text s =>
    rw [encode, List.append_assoc, decoder, Decoder.run_bind, Decoder.run_word32]
    simp only [Option.bind_some]
    rw [Decoder.run_bind, Decoder.run_text _ _ h]
    rfl
  | bytes b =>
    rw [encode, List.append_assoc, decoder, Decoder.run_bind, Decoder.run_word32]
    simp only [Option.bind_some]
    rw [Decoder.run_bind, Decoder.run_counted _ _ h]
    rfl

end KeyValue

namespace RecordKey

/-- The table behind its length, then the key value. -/
def encode (k : RecordKey) : Bytes := Bytes.counted (Bytes.ofText k.table) ++ k.key.encode

def decoder : Decoder RecordKey := do
  let table ← Decoder.text
  let key ← KeyValue.decoder
  return { table, key }

def Fits (k : RecordKey) : Prop := (Bytes.ofText k.table).length < UInt64.size ∧ k.key.Fits

theorem run_decoder (k : RecordKey) (rest : Bytes) (h : k.Fits) :
    StateT.run decoder (k.encode ++ rest) = some (k, rest) := by
  rw [encode, List.append_assoc, decoder, Decoder.run_bind, Decoder.run_text _ _ h.1]
  simp only [Option.bind_some]
  rw [Decoder.run_bind, KeyValue.run_decoder _ _ h.2]
  rfl

end RecordKey

namespace Version

def encode (v : Version) : Bytes :=
  v.key.encode ++ (Bytes.ofUInt64 v.number ++ (Bytes.optional Bytes.counted v.payload ++
    (Bytes.ofUInt64 v.beginTs ++ Bytes.optional Bytes.ofUInt64 v.endTs)))

def decoder : Decoder Version := do
  let key ← RecordKey.decoder
  let number ← Decoder.word64
  let payload ← Decoder.optional Decoder.counted
  let beginTs ← Decoder.word64
  let endTs ← Decoder.optional Decoder.word64
  return { key, number, payload, beginTs, endTs }

def Fits (v : Version) : Prop := v.key.Fits ∧ ∀ p ∈ v.payload, p.length < UInt64.size

theorem run_decoder (v : Version) (rest : Bytes) (h : v.Fits) :
    StateT.run decoder (v.encode ++ rest) = some (v, rest) := by
  simp only [encode, List.append_assoc, decoder]
  rw [Decoder.run_bind, RecordKey.run_decoder _ _ h.1]
  simp only [Option.bind_some]
  rw [Decoder.run_bind, Decoder.run_word64]
  simp only [Option.bind_some]
  rw [Decoder.run_bind,
    Decoder.run_optional v.payload _ fun p hp => Decoder.run_counted p _ (h.2 p hp)]
  simp only [Option.bind_some]
  rw [Decoder.run_bind, Decoder.run_word64]
  simp only [Option.bind_some]
  rw [Decoder.run_bind, Decoder.run_optional v.endTs _ fun e _ => Decoder.run_word64 e _]
  rfl

end Version

namespace Layout

/-! ## Place and check -/

/-- Where the version of a record with this number is stored. -/
def location (k : RecordKey) (number : UInt64) : Bytes := k.encode ++ Bytes.ofUInt64Big number

/-- Why stored bytes are no version. -/
inductive Damage where
  /-- There is no room for the check. -/
  | tooSmall
  /-- The check is not that of the fields. -/
  | checksum
  /-- The check is right, but the fields are not those of a version. -/
  | fields
  deriving DecidableEq

/-- Fields followed by their check. -/
def withCheck (fields : Bytes) : Bytes := fields ++ Bytes.ofUInt32 (crc32 fields)

/-- Takes off the check, if it is right. -/
def dropCheck (b : Bytes) : Except Damage Bytes :=
  if b.length < 4 then .error .tooSmall
  else
    let fields := b.take (b.length - 4)
    if Bytes.ofUInt32 (crc32 fields) = b.drop (b.length - 4) then .ok fields
    else .error .checksum

def encode (v : Version) : Bytes := withCheck v.encode

/-- Reads a version from its stored form. Bytes between the last field and the check are not
looked at. -/
def decode (b : Bytes) : Except Damage Version := do
  match Version.decoder.run (← dropCheck b) with
  | some (v, _) => return v
  | none => throw .fields

theorem dropCheck_withCheck (fields : Bytes) : dropCheck (withCheck fields) = .ok fields := by
  have hlen : (Bytes.ofUInt32 (crc32 fields)).length = 4 := by simp [Bytes.ofUInt32]
  simp [dropCheck, withCheck, hlen]

theorem decode_encode (v : Version) (h : v.Fits) : decode (encode v) = .ok v := by
  have hrun : Version.decoder.run v.encode = some (v, []) := by
    simpa using Version.run_decoder v [] h
  rw [decode, encode, dropCheck_withCheck]
  simp only [bind, Except.bind]
  rw [hrun]
  rfl

end Layout

end Mvcc
