import Mvcc.Transaction.Footprint
import Mvcc.Transaction.Status

/-!
# Transaction handles

A handle is what a client holds of a transaction: its snapshot timestamp, its stage and its
footprint. It changes stage only along `Status.mayBecome`.
-/

namespace Mvcc

structure Txn where
  id : TxnId
  /-- The timestamp of the snapshot that reads are served from. -/
  beginTs : Timestamp
  /-- The timestamp of the commit, once there was one. -/
  commitTs : Option Timestamp := none
  status : Status := .active
  reads : ReadSet := ∅
  writes : WriteSet := ∅
  deriving DecidableEq, Inhabited

namespace Txn

def isReadOnly (t : Txn) : Bool := t.writes.isEmpty

/-- Moves to a stage that may follow. An aborted transaction forgets its writes. -/
def moveTo (t : Txn) (next : Status) (_ : t.status.mayBecome next = true) : Txn :=
  { t with
    status := next
    writes := if next = .aborted then ∅ else t.writes }

@[simp] theorem status_moveTo (t : Txn) (next : Status) (h : t.status.mayBecome next = true) :
    (t.moveTo next h).status = next := rfl

@[simp] theorem id_moveTo (t : Txn) (next : Status) (h : t.status.mayBecome next = true) :
    (t.moveTo next h).id = t.id := rfl

/-- A handle in one line, with the sizes of its footprint. -/
def display (t : Txn) : String :=
  let commitTs := match t.commitTs with
    | none => "None"
    | some ts => s!"Some({ts})"
  s!"Transaction \x7b id: TransactionId({t.id.number}), begin_ts: {t.beginTs}, " ++
    s!"commit_ts: {commitTs}, status: {t.status.name}, reads: {t.reads.size}, " ++
    s!"writes: {t.writes.size} \x7d"

end Txn

end Mvcc
