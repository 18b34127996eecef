import Mvcc.Settings.Basic
import Mvcc.Transaction.Status
import Mvcc.Validation

/-!
# Transaction errors

Why an engine refuses what a client asks.

* `TxnError`, with `TxnError.kind`, `TxnError.message` and `TxnError.isRetryable`.
-/

namespace Mvcc

/-- Why an engine refuses what a client asks. -/
inductive TxnError where
  /-- The transaction is past the stage for this action. -/
  | wrongStage (id : TxnId) (status : Status) (action : Action)
  /-- Something the transaction depends on was committed meanwhile. -/
  | conflict (c : Conflict)
  | storage (e : StoreError)
  | exhausted (last : Timestamp)
  /-- The engine cannot be opened with these settings. -/
  | settings (p : Settings.Problem)
  deriving DecidableEq

namespace TxnError

def kind : TxnError → String
  | wrongStage .. => "InvalidState"
  | conflict _ => "Conflict"
  | storage _ => "StorageUnavailable"
  | exhausted _ => "TimestampExhausted"
  | settings _ => "Configuration"

def message : TxnError → String
  | wrongStage id status action =>
    s!"Transaction {id.display} is {status.display}; cannot {action.display}"
  | conflict c => "Transaction conflict: " ++ c.message
  | storage e => "Storage unavailable: " ++ e.message
  | exhausted last => s!"Timestamp space exhausted after {last}"
  | settings p => "Configuration error: " ++ p.message

/-- Whether the same work may succeed in a new transaction. -/
def isRetryable : TxnError → Bool
  | conflict _ => true
  | wrongStage .. | storage _ | exhausted _ | settings _ => false

end TxnError

end Mvcc
