import Mvcc.Medium

/-!
# Reading versions from a tree

The versions of a record lie side by side in a tree, in the order of their numbers, so one scan by
the encoded record key yields a chain.

* `Probe.chain`, `Probe.latest?`, `Probe.visible?`: the versions of one record.
* `Probe.versions`: every version, with the place where it is stored.
-/

namespace Mvcc

/-- The version an item of a walk holds, and its place. -/
def Item.version : Item → Except StoreError (Bytes × Version)
  | .error e => .error e
  | .ok (place, b) =>
    match Layout.decode b with
    | .ok v => .ok (place, v)
    | .error d => .error (.damaged d)

namespace Probe

/-- Fails with the error of a failed computation. -/
def ofExcept {α : Type} : Except StoreError α → Probe α
  | .ok a => pure a
  | .error e => throw e

/-- The versions the items hold; the first item that holds none is the error. -/
def decodeAll (found : List Item) : Except StoreError (List (Bytes × Version)) :=
  found.mapM Item.version

def versions : Probe (List (Bytes × Version)) := do
  ofExcept (decodeAll (← iterate))

def chain (k : RecordKey) : Probe Chain := do
  let found ← ofExcept (decodeAll (← scanPrefix k.encode))
  return found.map (·.2)

def last? (k : RecordKey) : Probe (Option Version) := do return (← chain k).last?

def latest? (k : RecordKey) : Probe (Option Version) := do return (← chain k).latest?

/-- The first item that a snapshot at `ts` sees. Items after it are not looked at. -/
def firstVisible? (ts : Timestamp) : List Item → Except StoreError (Option Version)
  | [] => .ok none
  | item :: rest => do
    let (_, v) ← item.version
    if v.visibleAt ts then return some v else firstVisible? ts rest

def visible? (k : RecordKey) (ts : Timestamp) : Probe (Option Version) := do
  ofExcept (firstVisible? ts (← scanPrefix k.encode))

end Probe

end Mvcc
