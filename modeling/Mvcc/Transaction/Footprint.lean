import Mvcc.OrderedMap
import Mvcc.Record.Version

/-!
# Footprints

What a transaction read from its snapshot and what it is going to write, by record. Writes are in
key order. The order of reads is left open, and key order is one choice.

* `ReadSet.record`: keeps the first observation of a record.
* `WriteSet.put`: the last write of a record counts.
-/

namespace Mvcc

/-- What a read of the snapshot found. -/
structure Observation where
  readTs : Timestamp
  /-- Whether the record had a payload. -/
  live : Bool
  deriving DecidableEq

/-- The observations of a transaction, one for each record it read from its snapshot, in no order
that a client may rely on. -/
abbrev ReadSet := OrderedMap RecordKey Observation

/-- Keeps an observation, unless the record was observed before: every read of one transaction
sees the same snapshot, so a later one finds nothing else. -/
def ReadSet.record (s : ReadSet) (k : RecordKey) (o : Observation) : ReadSet := s.insertIfNew k o

/-- A write that waits for the commit. -/
structure Write where
  payload : Option Payload
  /-- The number of the version that the commit made of it. -/
  number : Option UInt64 := none
  deriving DecidableEq

def Write.isDelete (w : Write) : Bool := w.payload.isNone

/-- The writes of a transaction, one for each record. -/
abbrev WriteSet := OrderedMap RecordKey Write

/-- Keeps a write in place of an earlier one of the record. -/
def WriteSet.put (s : WriteSet) (k : RecordKey) (payload : Option Payload) : WriteSet :=
  s.insert k { payload }

end Mvcc
