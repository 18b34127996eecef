import Mvcc.Store.Reading
import Mvcc.Transaction.Footprint

/-!
# Validation

A transaction may commit if nothing it depends on was committed since its snapshot was taken:

* a record it read must not have a version that began after the snapshot (and not after the time of
  the check);
* a record it writes must not have a version that began after the transaction.

Only the open version is looked at. Begin timestamps ascend along a chain, so if any version began
too late, the open one did.

* `Probe.readConflict?`, `Probe.writeConflict?`, `Probe.conflict?`: the first conflict that is found.
* `Medium.readConflicts`: all conflicts of reads.
-/

namespace Mvcc

inductive Conflict.Kind where
  | read
  | write
  deriving DecidableEq

/-- A record that was committed too late for a transaction. -/
structure Conflict where
  key : RecordKey
  kind : Conflict.Kind
  /-- When the version in the way began. -/
  committedAt : Timestamp
  deriving DecidableEq

namespace Conflict

def Kind.display : Kind → String
  | read => "read"
  | write => "write"

def message (c : Conflict) : String :=
  s!"{c.kind.display} conflict on {c.key.display} (committed at {c.committedAt})"

end Conflict

namespace Probe

/-- When the open version of a record began, if that was after `since`. -/
def committedAfter? (k : RecordKey) (since : Timestamp) : Probe (Option Timestamp) := do
  return ((← latest? k).map (·.beginTs)).filter fun ts => decide (since < ts)

/-- The conflict of one read, at the time `upper`. -/
def conflictOfRead? (k : RecordKey) (o : Observation) (upper : Timestamp) :
    Probe (Option Conflict) := do
  let late := (← committedAfter? k o.readTs).filter fun ts => decide (ts ≤ upper)
  return late.map fun ts => { key := k, kind := .read, committedAt := ts }

/-- The conflict of one write of a transaction that began at `beginTs`. -/
def conflictOfWrite? (k : RecordKey) (beginTs : Timestamp) : Probe (Option Conflict) := do
  return (← committedAfter? k beginTs).map fun ts => { key := k, kind := .write, committedAt := ts }

/-- The first answer that a list of entries gives; entries after it are not asked. -/
def firstSome {α β : Type} (ask : α → Probe (Option β)) : List α → Probe (Option β)
  | [] => return none
  | a :: rest => do
    match ← ask a with
    | some b => return some b
    | none => firstSome ask rest

/-- A conflict of some read, if there is one. The reads are gone through in the order of the read set,
so which of several conflicts is told is left open. -/
def readConflict? (reads : ReadSet) (upper : Timestamp) : Probe (Option Conflict) :=
  firstSome (fun e => conflictOfRead? e.1 e.2 upper) reads.toList

/-- The conflict of the least written record that has one. -/
def writeConflict? (writes : WriteSet) (beginTs : Timestamp) : Probe (Option Conflict) :=
  firstSome (fun e => conflictOfWrite? e.1 beginTs) writes.toList

/-- The first conflict, reads before writes. -/
def conflict? (reads : ReadSet) (writes : WriteSet) (beginTs upper : Timestamp) :
    Probe (Option Conflict) := do
  match ← readConflict? reads upper with
  | some c => return some c
  | none => writeConflict? writes beginTs

end Probe

/-- Every conflict of a read on a medium, as if no call failed. Records that cannot be read have
none. -/
def Medium.readConflicts (m : Medium) (reads : ReadSet) (upper : Timestamp) : List Conflict :=
  reads.toList.filterMap fun e =>
    match (m.heal.read (Probe.conflictOfRead? e.1 e.2 upper)).1 with
    | .ok c => c
    | .error _ => none

end Mvcc
