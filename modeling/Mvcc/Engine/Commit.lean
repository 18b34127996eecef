import Mvcc.Engine.Lifecycle

/-!
# Commit

A commit is judged against what is committed, then the clock gives it its timestamp and its writes
are installed as the next versions, all together. If anything fails on the way the transaction is
aborted and nothing is installed.

* `Probe.judge`: validation, and the versions to be made of the writes.
* `Engine.attempt`: judgement, timestamp and installation.
* `Engine.commit`: the whole, with registry, counters and the collection that may be due.
-/

namespace Mvcc

/-- A write with the number of its version. -/
structure Draft where
  payload : Option Payload
  number : UInt64

namespace Draft

/-- The open version that a commit at `ts` makes. -/
def version (d : Draft) (k : RecordKey) (ts : Timestamp) : Version :=
  { key := k, number := d.number, payload := d.payload, beginTs := ts }

def toWrite (d : Draft) : Write := { payload := d.payload, number := some d.number }

end Draft

/-- What validation says of a transaction. -/
inductive Judgement where
  | conflict (c : Conflict)
  | readOnly
  | ready (drafts : OrderedMap RecordKey Draft)

namespace Probe

/-- Numbers a write: one more than the open version of the record, or zero. -/
def draft (k : RecordKey) (w : Write) : Probe Draft := do
  let number := match ← latest? k with
    | none => 0
    | some v => v.number + 1
  return { payload := w.payload, number }

/-- Judges a transaction at the time `upper`. Validation runs twice, first to turn away most
conflicts at no cost to others and then, with no other commit under way, to be sure. -/
def judge (t : Txn) (upper : Timestamp) : Probe Judgement := do
  match ← conflict? t.reads t.writes t.beginTs upper with
  | some c => return .conflict c
  | none =>
    match ← conflict? t.reads t.writes t.beginTs upper with
    | some c => return .conflict c
    | none =>
      if t.writes.isEmpty then return .readOnly
      else return .ready (← t.writes.mapValuesM draft)

end Probe

/-- What a commit that took place leaves to be recorded. -/
structure Outcome where
  commitTs : Timestamp
  /-- The writes, with the numbers of their versions. -/
  writes : WriteSet
  collects : Bool

namespace Engine

/-- Gives the next timestamp to a commit and installs its versions. -/
def installDrafts (g : Engine) (drafts : OrderedMap RecordKey Draft) :
    Except TxnError Outcome × Engine :=
  match g.clock.tick? with
  | none => (.error (.exhausted g.clock.last), g)
  | some clock =>
    match g.store.install (drafts.toList.map fun e => e.2.version e.1 clock.last) with
    | (.error e, store) => (.error (.storage e), { g with clock, store })
    | (.ok (), store) =>
      let commits := g.commitsSince + 1
      let collects := g.collectEvery.any fun n => decide (n.toNat ≤ commits)
      (.ok { commitTs := clock.last, writes := drafts.mapValues fun _ d => d.toWrite, collects },
        { g with clock, store, commitsSince := if collects then 0 else commits })

/-- Judges a transaction and installs its writes. -/
def attempt (g : Engine) (t : Txn) : Except TxnError Outcome × Engine :=
  match g.store.reading (Probe.judge t g.clock.last) with
  | (.error e, store) => (.error (.storage e), { g with store })
  | (.ok (.conflict c), store) => (.error (.conflict c), { g with store })
  | (.ok .readOnly, store) =>
    (.ok { commitTs := t.beginTs, writes := t.writes, collects := false }, { g with store })
  | (.ok (.ready drafts), store) => { g with store }.installDrafts drafts

def countRefusal (g : Engine) : TxnError → Engine
  | .conflict _ =>
    { g with statistics := { g.statistics with conflicts := g.statistics.conflicts + 1 } }
  | .storage _ => g.countStorageFailure
  | .wrongStage .. | .exhausted _ | .settings _ => g

def countCommit (g : Engine) (o : Outcome) : Engine :=
  if o.writes.isEmpty then
    { g with
      statistics :=
        { g.statistics with readOnlyCommitted := g.statistics.readOnlyCommitted + 1 } }
  else { g with statistics := { g.statistics with committed := g.statistics.committed + 1 } }

/-- Collects, if that is due. A collection that fails is left for another time. -/
def collectIfDue (g : Engine) (o : Outcome) : Engine := if o.collects then g.collect.2 else g

/-- Commits a transaction: its timestamp is that of its versions, or that of its snapshot if it
wrote nothing. A transaction that cannot commit is aborted. -/
def commit (g : Engine) (t : Txn) : Except TxnError Timestamp × Engine × Txn :=
  if h : t.status = .active then
    let judged := t.moveTo .validating (active_mayBecome_validating h)
    match (g.note t.id .validating).attempt judged with
    | (.error e, g) => (.error e, (g.countRefusal e).finish judged .aborted rfl)
    | (.ok o, g) =>
      let done := { judged with commitTs := some o.commitTs, writes := o.writes }
      (.ok o.commitTs, ((g.countCommit o).collectIfDue o).finish done .committed rfl)
  else (.error (.wrongStage t.id t.status .commit), g, t)

end Engine

end Mvcc
