import Mvcc.Record.Layout

/-!
# Storage errors

Why a call on stored versions fails: the medium failed, stored bytes are damaged, the call would
break the chain of a record, or the backend cannot be opened.

* `Refusal`: the rules of chains that a call can break.
* `StoreError`, with `StoreError.kind` and `StoreError.message`.
-/

namespace Mvcc

/-- The rule of chains that a call would break. -/
inductive Refusal where
  /-- Only an open version is appended. -/
  | appendClosed (key : RecordKey)
  /-- A version is appended only when none is open. -/
  | alreadyOpen (key : RecordKey) (number : UInt64)
  /-- Numbers ascend along a chain. -/
  | staleNumber (key : RecordKey) (number last : UInt64)
  /-- Only an open version is closed. -/
  | nothingOpen (key : RecordKey)
  /-- A version ends after it began. -/
  | endsTooEarly (key : RecordKey) (endTs beginTs : Timestamp)
  /-- A set of versions names each record once. -/
  | repeatedKey (key : RecordKey)
  /-- Only open versions are installed. -/
  | installClosed (key : RecordKey)
  /-- A version begins after the open one it closes. -/
  | staleBegin (key : RecordKey) (beginTs last : Timestamp)
  deriving DecidableEq

namespace Refusal

def message : Refusal → String
  | appendClosed k => s!"Appended version of {k.display} must be open"
  | alreadyOpen k n => s!"Key {k.display} already has an open version {n}"
  | staleNumber k n last => s!"Version key {n} of {k.display} does not follow {last}"
  | nothingOpen k => s!"Key {k.display} has no open version to close"
  | endsTooEarly k e b => s!"End timestamp {e} must follow begin timestamp {b} of {k.display}"
  | repeatedKey k => s!"Key {k.display} appears twice in one install"
  | installClosed k => s!"Installed version of {k.display} must be open"
  | staleBegin k b last => s!"Begin timestamp {b} of {k.display} does not follow {last}"

end Refusal

/-- What part of the storage an error comes from. -/
inductive StoreError.Kind where
  | io
  | serialization
  | corrupted
  | backend
  deriving DecidableEq

/-- Why a call on stored versions fails. -/
inductive StoreError where
  /-- The medium failed and says why. -/
  | medium (kind : StoreError.Kind) (reason : String)
  /-- Stored bytes are no version. -/
  | damaged (damage : Layout.Damage)
  /-- The call would break a chain. -/
  | refused (rule : Refusal)
  /-- The backend is known by name only. -/
  | backendMissing (name : String)
  /-- A database needs a directory, and there can be none at the data path. -/
  | noDirectory
  deriving DecidableEq

namespace StoreError

def kind : StoreError → Kind
  | medium k _ => k
  | damaged .fields => .serialization
  | damaged _ => .corrupted
  | refused _ | backendMissing _ | noDirectory => .backend

def reason : StoreError → String
  | medium _ r => r
  | damaged .tooSmall => "Version record too small"
  | damaged .checksum => "Checksum mismatch"
  | damaged .fields => "the fields of the record are incomplete or unknown"
  | refused r => r.message
  | backendMissing name => name ++ " storage backend not yet implemented"
  | noDirectory => "IO error: there can be no directory at the data path"

def message (e : StoreError) : String :=
  (match e.kind with
    | .io => "I/O error: "
    | .serialization => "Serialization error: "
    | .corrupted => "Corrupted record: "
    | .backend => "Storage driver error: ") ++ e.reason

end StoreError

end Mvcc
