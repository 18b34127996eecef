import Mvcc.Engine.Commit

/-!
# Sessions

A session is an engine together with the transactions that its clients hold. What clients ask is
data, so that whole runs can be spoken about.

* `Op`, `Reply`: what is asked and answered.
* `Session.step`, `Session.run`: one operation, and any number of them.
-/

namespace Mvcc

/-- What clients ask of an engine and of the transactions they hold. -/
inductive Op where
  | begin
  | read (id : TxnId) (key : RecordKey)
  | write (id : TxnId) (key : RecordKey) (payload : Payload)
  | delete (id : TxnId) (key : RecordKey)
  | commit (id : TxnId)
  | abort (id : TxnId)
  | drop (id : TxnId)
  /-- Drops versions that no snapshot can see. -/
  | collect
  | issue
  | flush
  deriving DecidableEq

inductive Reply where
  | notHeld
  | failed (e : TxnError)
  | began (id : TxnId) (beginTs : Timestamp)
  | found (payload : Option Payload)
  | done
  | committed (ts : Timestamp)
  /-- Whether a transaction was let go of. -/
  | dropped (held : Bool)
  | collected (versions : Nat)
  | issued (ts : Timestamp)
  deriving DecidableEq

/-- The answer to a result. -/
def Reply.ofExcept {α : Type} (answer : α → Reply) : Except TxnError α → Reply
  | .ok a => answer a
  | .error e => .failed e

/-- An engine with the transactions that its clients hold. -/
structure Session where
  engine : Engine
  held : OrderedMap TxnId Txn := ∅

namespace Session

/-- Works on a transaction that is held, together with the engine. -/
def onTxn {α : Type} (s : Session) (id : TxnId) (answer : α → Reply)
    (work : Engine → Txn → Except TxnError α × Engine × Txn) : Reply × Session :=
  match s.held.get? id with
  | none => (.notHeld, s)
  | some t =>
    let (result, engine, t) := work s.engine t
    (.ofExcept answer result, { engine, held := s.held.insert id t })

def onEngine {α : Type} (s : Session) (answer : α → Reply)
    (work : Engine → Except TxnError α × Engine) : Reply × Session :=
  let (result, engine) := work s.engine
  (.ofExcept answer result, { s with engine })

def step (s : Session) : Op → Reply × Session
  | .begin =>
    match s.engine.begin with
    | (.error e, engine) => (.failed e, { s with engine })
    | (.ok t, engine) => (.began t.id t.beginTs, { engine, held := s.held.insert t.id t })
  | .read id k => s.onTxn id .found fun g t => g.read t k
  | .write id k p => s.onTxn id (fun () => .done) fun g t => ((t.write k p).1, g, (t.write k p).2)
  | .delete id k => s.onTxn id (fun () => .done) fun g t => ((t.delete k).1, g, (t.delete k).2)
  | .commit id => s.onTxn id .committed fun g t => g.commit t
  | .abort id => s.onTxn id (fun () => .done) fun g t => g.abort t
  | .drop id =>
    match s.held.get? id with
    | none => (.dropped false, s)
    | some t => (.dropped true, { engine := s.engine.drop t, held := s.held.erase id })
  | .collect => s.onEngine .collected (·.collect)
  | .issue => s.onEngine .issued (·.issue)
  | .flush => s.onEngine (fun () => .done) (·.flush)

/-- Operations one after the other, with their answers. -/
def run (s : Session) : List Op → List Reply × Session
  | [] => ([], s)
  | op :: rest =>
    let (reply, next) := s.step op
    let (replies, last) := next.run rest
    (reply :: replies, last)

end Session

end Mvcc
