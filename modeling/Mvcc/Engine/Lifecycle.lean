import Mvcc.Engine.Basic

/-!
# Begin, read, write and abort

A transaction reads the snapshot of its begin timestamp, with its own writes on top, and keeps its
writes to itself. What ends it also takes it out of the registry.

* `Engine.begin`, `Engine.read`, `Txn.write`, `Engine.abort`, `Engine.drop`.
* `Engine.finish`: the last move of a transaction.
-/

namespace Mvcc

namespace Engine

/-- Begins a transaction on a snapshot of all that is committed. -/
def begin (g : Engine) : Except TxnError Txn × Engine :=
  let id : TxnId := { number := g.lastId + 1 }
  match g.clock.tick? with
  | none => (.error (.exhausted g.clock.last), { g with lastId := id.number })
  | some clock =>
    (.ok { id, beginTs := clock.last },
      { g with
        clock
        lastId := id.number
        registry := g.registry.insert id { beginTs := clock.last }
        statistics := { g.statistics with begun := g.statistics.begun + 1 } })

/-- Notes the stage of a registered transaction. -/
def note (g : Engine) (id : TxnId) (status : Status) : Engine :=
  { g with registry := g.registry.modify id fun r => { r with status } }

/-- Ends a transaction and takes it out of the registry. -/
def finish (g : Engine) (t : Txn) (last : Status) (h : t.status.mayBecome last = true) :
    Engine × Txn :=
  let aborted := if last = .aborted then g.statistics.aborted + 1 else g.statistics.aborted
  ({ g with
      registry := g.registry.erase t.id
      statistics := { g.statistics with aborted } },
    t.moveTo last h)

theorem active_mayBecome_aborted {t : Txn} (h : t.status = .active) :
    t.status.mayBecome .aborted = true := by rw [h]; rfl

theorem active_mayBecome_validating {t : Txn} (h : t.status = .active) :
    t.status.mayBecome .validating = true := by rw [h]; rfl

def countStorageFailure (g : Engine) : Engine :=
  { g with
    statistics := { g.statistics with storageFailures := g.statistics.storageFailures + 1 } }

/-- Reads a record: the transaction's own write, if there is one, or else what its snapshot shows.
A read that the storage fails aborts the transaction. -/
def read (g : Engine) (t : Txn) (k : RecordKey) : Except TxnError (Option Payload) × Engine × Txn :=
  if h : t.status = .active then
    match t.writes.get? k with
    | some w => (.ok w.payload, g, t)
    | none =>
      match g.store.visible? k t.beginTs with
      | (.ok found, store) =>
        let payload := found.bind (·.payload)
        let seen : Observation := { readTs := t.beginTs, live := payload.isSome }
        (.ok payload, { g with store }, { t with reads := t.reads.record k seen })
      | (.error e, store) =>
        let g := { g with store }.countStorageFailure
        (.error (.storage e), g.finish t .aborted (active_mayBecome_aborted h))
  else (.error (.wrongStage t.id t.status .read), g, t)

/-- Ends a transaction without a commit. Aborting once more changes nothing. -/
def abort (g : Engine) (t : Txn) : Except TxnError Unit × Engine × Txn :=
  if h : t.status = .active then (.ok (), g.finish t .aborted (active_mayBecome_aborted h))
  else if t.status = .aborted then (.ok (), g, t)
  else (.error (.wrongStage t.id t.status .abort), g, t)

/-- Lets go of a transaction, which ends it if it has not ended. -/
def drop (g : Engine) (t : Txn) : Engine :=
  if h : t.status = .active then (g.finish t .aborted (active_mayBecome_aborted h)).1 else g

end Engine

namespace Txn

/-- Keeps a write until the commit; `none` deletes the record. -/
def put (t : Txn) (action : Action) (k : RecordKey) (payload : Option Payload) :
    Except TxnError Unit × Txn :=
  if t.status = .active then (.ok (), { t with writes := t.writes.put k payload })
  else (.error (.wrongStage t.id t.status action), t)

def write (t : Txn) (k : RecordKey) (payload : Payload) : Except TxnError Unit × Txn :=
  t.put .write k (some payload)

def delete (t : Txn) (k : RecordKey) : Except TxnError Unit × Txn := t.put .delete k none

end Txn

end Mvcc
