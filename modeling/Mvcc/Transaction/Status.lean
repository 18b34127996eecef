import Mvcc.Bytes.Basic

/-!
# Names and stages of transactions

A transaction is active until its commit is judged, and ends committed or aborted.

* `TxnId`: the name of a transaction.
* `Status`, `Status.mayBecome`: the stages and the moves between them.
* `Action`: what a client asks of a transaction.
-/

namespace Mvcc

open Std

structure TxnId where
  number : UInt64
  deriving DecidableEq, Inhabited

namespace TxnId

instance : Ord TxnId := ⟨compareOn number⟩

instance : TransOrd TxnId := inferInstanceAs (TransCmp (compareOn number))

instance : LawfulEqOrd TxnId where
  compare_self {a} := (ReflCmp.compare_self : compare a.number a.number = .eq)
  eq_of_compare {a b} h := by
    have h' : compare a.number b.number = .eq := h
    cases a; cases b
    exact congrArg mk (LawfulEqCmp.eq_of_compare h')

def display (id : TxnId) : String := s!"txn_{id.number}"

end TxnId

inductive Status where
  | active
  /-- The commit is being judged. -/
  | validating
  | committed
  | aborted
  deriving DecidableEq, Inhabited

namespace Status

def display : Status → String
  | active => "ACTIVE"
  | validating => "VALIDATING"
  | committed => "COMMITTED"
  | aborted => "ABORTED"

/-- A stage by the name of its case. -/
def name : Status → String
  | active => "Active"
  | validating => "Validating"
  | committed => "Committed"
  | aborted => "Aborted"

def all : List Status := [active, validating, committed, aborted]

def isTerminal : Status → Bool
  | committed | aborted => true
  | active | validating => false

/-- Whether a transaction may move from one stage to another. -/
def mayBecome : Status → Status → Bool
  | active, validating | active, aborted | validating, committed | validating, aborted => true
  | _, _ => false

end Status

/-- What a client asks of a transaction. -/
inductive Action where
  | read
  | write
  | delete
  | commit
  | abort
  deriving DecidableEq

def Action.display : Action → String
  | read => "read"
  | write => "write"
  | delete => "delete"
  | commit => "commit"
  | abort => "abort"

end Mvcc
