import Mvcc.Store.Basic

/-!
# Changes of a store

Each change first reads and decides, then makes one call that either takes place as a whole or
fails. So a change that fails leaves the versions as they were.

* `Store.append`, `Store.close`: one version of one record.
* `Store.install`: the next versions of several records at once.
* `Store.prune`: drops versions that ended long ago.
-/

namespace Mvcc

/-- Keeps a version at its place. -/
def Version.stored (v : Version) : Edit :=
  .insert (Layout.location v.key v.number) (Layout.encode v)

namespace Chain

/-- Whether a version may be appended after `last`: nothing is open and the number is new. -/
def checkAppend (last : Option Version) (v : Version) : Except Refusal Unit :=
  match last with
  | none => .ok ()
  | some last =>
    if last.isOpen then .error (.alreadyOpen v.key last.number)
    else if v.number ≤ last.number then .error (.staleNumber v.key v.number last.number)
    else .ok ()

/-- The versions to write when `v` follows `last`: `last`, ended where `v` begins, if it is open,
and `v`. -/
def succeed (last : Option Version) (v : Version) : Except Refusal (List Version) :=
  match last with
  | none => .ok [v]
  | some last =>
    if v.number ≤ last.number then .error (.staleNumber v.key v.number last.number)
    else if !last.isOpen then .ok [v]
    else if v.beginTs ≤ last.beginTs then .error (.staleBegin v.key v.beginTs last.beginTs)
    else .ok [last.closedAt v.beginTs, v]

/-- The open version of a chain, ended at `ts`. -/
def closing (latest : Option Version) (k : RecordKey) (ts : Timestamp) : Except Refusal Version :=
  match latest with
  | none => .error (.nothingOpen k)
  | some v =>
    if ts ≤ v.beginTs then .error (.endsTooEarly k ts v.beginTs) else .ok (v.closedAt ts)

end Chain

namespace Probe

/-- Fails with a broken rule. -/
def ofRule {α : Type} : Except Refusal α → Probe α
  | .ok a => pure a
  | .error r => throw (.refused r)

/-- Decides on appending a version. -/
def checkAppend (v : Version) : Probe Unit := do
  if v.isOpen then ofRule (Chain.checkAppend (← last? v.key) v)
  else throw (.refused (.appendClosed v.key))

/-- The changes that install versions of records other than those in `seen`. -/
def installation : (seen : List RecordKey) → List Version → Probe Batch
  | _, [] => return []
  | seen, v :: rest => do
    if v.key ∈ seen then throw (.refused (.repeatedKey v.key))
    else if !v.isOpen then throw (.refused (.installClosed v.key))
    else
      let written ← ofRule (Chain.succeed (← last? v.key) v)
      let more ← installation (v.key :: seen) rest
      return written.map (·.stored) ++ more

/-- The places of the versions that ended at or before `ts`. -/
def ended (ts : Timestamp) : Probe (List Bytes) := do
  return ((← versions).filter fun e => e.2.endTs.any fun stop => decide (stop ≤ ts)).map (·.1)

end Probe

namespace Store

/-- Appends an open version to a chain without one. -/
def append (s : Store) (v : Version) : Except StoreError Unit × Store :=
  match s.reading (Probe.checkAppend v) with
  | (.error e, s) => (.error e, s)
  | (.ok (), s) =>
    s.save (·.insert (Layout.location v.key v.number) (Layout.encode v)) v.beginTs

/-- Ends the open version of a record. -/
def close (s : Store) (k : RecordKey) (ts : Timestamp) : Except StoreError Unit × Store :=
  match s.reading (do Probe.ofRule (Chain.closing (← Probe.latest? k) k ts)) with
  | (.error e, s) => (.error e, s)
  | (.ok v, s) => s.save (·.insert (Layout.location k v.number) (Layout.encode v)) ts

/-- Installs open versions of different records together; each ends the open version before it. -/
def install (s : Store) (vs : List Version) : Except StoreError Unit × Store :=
  match s.reading (Probe.installation [] vs) with
  | (.error e, s) => (.error e, s)
  | (.ok [], s) => (.ok (), s)
  | (.ok batch, s) => s.save (·.applyBatch batch) ((vs.map (·.beginTs)).foldl max 0)

/-- Drops the versions that ended at or before `ts`, and counts them. -/
def prune (s : Store) (ts : Timestamp) : Except StoreError Nat × Store :=
  match s.reading (Probe.ended ts) with
  | (.error e, s) => (.error e, s)
  | (.ok [], s) => (.ok 0, s)
  | (.ok places, s) =>
    match s.save (·.applyBatch (places.map .remove)) 0 with
    | (.error e, s) => (.error e, s)
    | (.ok (), s) => (.ok places.length, s)

end Store

end Mvcc
