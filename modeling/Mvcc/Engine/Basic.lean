import Mvcc.Engine.Error
import Mvcc.Store.Update
import Mvcc.Transaction.Handle

/-!
# The engine

An engine runs transactions over a store. It issues timestamps and names, registers transactions
that have not ended, and counts how they end.

* `Engine`, `Engine.ofStore`, `Engine.withClock`, `Engine.inMemory`: an engine before its first
  transaction.
* `Engine.lowWatermark`: the earliest snapshot that is or will be read from.
* `Engine.collect`: drops the versions that ended at or before it.
-/

namespace Mvcc

/-- What the engine knows of a transaction that has not ended. -/
structure Registration where
  beginTs : Timestamp
  status : Status := .active
  deriving DecidableEq

/-- The transactions that have not ended. -/
abbrev Registry := OrderedMap TxnId Registration

/-- How many transactions began, and how they ended. -/
structure Statistics where
  begun : Nat := 0
  committed : Nat := 0
  readOnlyCommitted : Nat := 0
  aborted : Nat := 0
  conflicts : Nat := 0
  /-- Reads and commits that the storage failed. -/
  storageFailures : Nat := 0
  deriving DecidableEq, Inhabited

/-- Runs transactions over a store. -/
structure Engine where
  store : Store
  clock : Clock
  registry : Registry := ∅
  /-- The name given last; names are given even to transactions that cannot begin. -/
  lastId : UInt64 := 0
  statistics : Statistics := {}
  /-- After how many commits with writes versions are collected. -/
  collectEvery : Option UInt64 := none
  /-- Commits with writes since versions were last collected for their number. -/
  commitsSince : Nat := 0

namespace Engine

/-- An engine that issues the timestamps of a given clock. -/
def withClock (store : Store) (clock : Clock) (collectEvery : Option UInt64 := none) : Engine :=
  { store, clock, collectEvery := collectEvery.filter fun n => decide (0 < n) }

/-- An engine that issues timestamps above all that its store knows. -/
def ofStore (store : Store) : Engine := withClock store { last := store.maxTs }

def inMemory : Engine := ofStore Store.empty

instance : Inhabited Engine := ⟨inMemory⟩

/-- The names of the transactions that have not ended, in ascending order. -/
def activeIds (g : Engine) : List TxnId := g.registry.keys

/-- The earliest snapshot that is or will be read from: that of the earliest transaction that has
not ended, or else the next one. -/
def lowWatermark (g : Engine) : Timestamp :=
  ((g.registry.values.map (·.beginTs)).min?).getD g.clock.last

/-- Works on the store; the error of a failure says that the versions cannot be reached. -/
def onStore {α : Type} (g : Engine) (work : Store → Except StoreError α × Store) :
    Except TxnError α × Engine :=
  let (result, store) := work g.store
  (result.mapError .storage, { g with store })

/-- Drops the versions that no snapshot can see any more, and counts them. -/
def collect (g : Engine) : Except TxnError Nat × Engine := g.onStore (·.prune g.lowWatermark)

/-- Makes all commits so far last. -/
def flush (g : Engine) : Except TxnError Unit × Engine := g.onStore (·.flush)

def issue (g : Engine) : Except TxnError Timestamp × Engine :=
  match g.clock.tick? with
  | none => (.error (.exhausted g.clock.last), g)
  | some clock => (.ok clock.last, { g with clock })

def display (g : Engine) : String :=
  s!"TransactionManager \x7b current_timestamp: {g.clock.last}, " ++
    s!"active: {g.registry.size} \x7d"

end Engine

end Mvcc
