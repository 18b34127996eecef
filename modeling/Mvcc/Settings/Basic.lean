import Mvcc.Backend
import Mvcc.Clock

/-!
# Settings

What an engine is opened with: where versions are kept, from which timestamp on to count, and how
often to collect versions that no snapshot can see.

* `Settings`, with its defaults; `Settings.validate`: the rules between the fields.
* `Settings.Problem`: why settings are refused.
-/

namespace Mvcc

/-- What an engine is opened with. -/
structure Settings where
  backend : Backend := .memory
  dataPath : Option String := none
  /-- The name of the tree that holds the versions. -/
  treeName : String := "versions"
  /-- Timestamps are issued above this one. -/
  initialTs : Timestamp := 0
  /-- After how many commits with writes versions are collected; never without it. -/
  collectEvery : Option UInt64 := none
  deriving DecidableEq, Inhabited

namespace Settings

inductive Problem where
  /-- The text is no settings document. -/
  | notJson
  /-- The document cannot be read. -/
  | unreadable
  /-- A persistent backend needs a directory. -/
  | noDataPath (backend : Backend)
  | noTreeName
  /-- Counting would start at the last timestamp. -/
  | noTimestampLeft
  /-- A collection every zero commits has no meaning. -/
  | zeroInterval
  deriving DecidableEq

def Problem.message : Problem → String
  | notJson => "Invalid JSON: the text is no settings document"
  | unreadable => "Cannot read the settings document"
  | noDataPath b => s!"Storage type '{b.display}' requires a data_path"
  | noTreeName => "version_tree must not be empty"
  | noTimestampLeft => "initial_timestamp leaves no timestamps to issue"
  | zeroInterval => "gc_interval_commits must be > 0 when set"

/-- Checks the rules between the fields; of several broken ones the first is the problem. -/
def validate (s : Settings) : Except Problem Unit :=
  if s.backend.isPersistent ∧ s.dataPath = none then .error (.noDataPath s.backend)
  else if s.treeName = "" then .error .noTreeName
  else if s.initialTs = Timestamp.greatest then .error .noTimestampLeft
  else if s.collectEvery = some 0 then .error .zeroInterval
  else .ok ()

def inDirectory (path : String) : Settings := { backend := .sled, dataPath := some path }

end Settings

end Mvcc
