import Mvcc.Record.Key

/-!
# Versions and chains

A version holds a payload of one record from its begin timestamp up to, but not at, its end
timestamp. A version without an end is open. A version without a payload is a tombstone: from its
begin on the record is deleted. The versions of one record, in the order of their numbers, are its
chain.

* `Version.visibleAt`: the half-open interval of a version.
* `Chain.visible?`, `Chain.last?`, `Chain.latest?`: what a snapshot sees, and the newest version.
-/

namespace Mvcc

/-- Logical time; every begin of a transaction and every commit takes a new value. -/
abbrev Timestamp := UInt64

abbrev Payload := Bytes

structure Version where
  key : RecordKey
  /-- The place of the version among those of its record. -/
  number : UInt64
  /-- The content, or nothing for a deleted record. -/
  payload : Option Payload
  beginTs : Timestamp
  /-- When the next version took over; nothing while the version is open. -/
  endTs : Option Timestamp := none
  deriving DecidableEq, Inhabited

namespace Version

def isOpen (v : Version) : Bool := v.endTs.isNone

def isTombstone (v : Version) : Bool := v.payload.isNone

/-- Whether a snapshot at `ts` sees the version. -/
def visibleAt (v : Version) (ts : Timestamp) : Bool :=
  decide (v.beginTs ≤ ts) && v.endTs.all fun e => decide (ts < e)

/-- The version, ended at `ts`. -/
def closedAt (v : Version) (ts : Timestamp) : Version := { v with endTs := some ts }

/-- The last timestamp the version carries. -/
def lastTs (v : Version) : Timestamp := v.endTs.getD v.beginTs

theorem visibleAt_iff (v : Version) (ts : Timestamp) :
    v.visibleAt ts = true ↔ v.beginTs ≤ ts ∧ ∀ e ∈ v.endTs, ts < e := by
  cases h : v.endTs <;> simp [visibleAt, h]

@[simp] theorem isOpen_closedAt (v : Version) (ts : Timestamp) : (v.closedAt ts).isOpen = false :=
  rfl

theorem isOpen_iff (v : Version) : v.isOpen = true ↔ v.endTs = none := by
  simp [isOpen]

end Version

/-- The versions of one record, in the order of their numbers. -/
abbrev Chain := List Version

namespace Chain

/-- The first version that a snapshot at `ts` sees. -/
def visible? (c : Chain) (ts : Timestamp) : Option Version := c.find? (·.visibleAt ts)

/-- The version with the greatest number. -/
def last? (c : Chain) : Option Version := c.getLast?

/-- The last version, if it is open. -/
def latest? (c : Chain) : Option Version := c.last?.filter (·.isOpen)

end Chain

end Mvcc
