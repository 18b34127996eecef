import Mvcc.Store.Error
import Mvcc.Tree

/-!
# Media

A medium is a tree together with the failures it has in store. Each kind of call is counted, and the
plan says for every call whether it is served, fails as a whole, or yields an error in place of one
of its items. A call that fails changes nothing.

* `Plan`, `Verdict`, `Fault`: which calls fail, and how.
* `Probe`: a computation that reads a tree. By its type it can move the counters and nothing else.
* `Medium.read`, `Medium.insert`, `Medium.applyBatch`, `Medium.flush`: calls on a medium.
-/

namespace Mvcc

inductive Call where
  | insert
  | iterate
  | scanPrefix
  | applyBatch
  | count
  | flush
  deriving DecidableEq

/-- What becomes of one call. -/
inductive Verdict where
  | serve
  | fail (e : StoreError)
  /-- The call is served, but the item at this place comes out as an error. -/
  | spoil (place : Nat) (e : StoreError)

/-- What becomes of the calls of each kind, the first being number zero. -/
abbrev Plan := Call → Nat → Verdict

/-- The plan under which nothing fails. -/
def Plan.reliable : Plan := fun _ _ => .serve

/-- How many calls of each kind were made. -/
structure Tally where
  insert : Nat := 0
  iterate : Nat := 0
  scanPrefix : Nat := 0
  applyBatch : Nat := 0
  count : Nat := 0
  flush : Nat := 0
  deriving DecidableEq, Inhabited

namespace Tally

def get (t : Tally) : Call → Nat
  | .insert => t.insert
  | .iterate => t.iterate
  | .scanPrefix => t.scanPrefix
  | .applyBatch => t.applyBatch
  | .count => t.count
  | .flush => t.flush

/-- The tally with the calls of one kind replaced. -/
def set (t : Tally) (n : Nat) : Call → Tally
  | .insert => { t with insert := n }
  | .iterate => { t with iterate := n }
  | .scanPrefix => { t with scanPrefix := n }
  | .applyBatch => { t with applyBatch := n }
  | .count => { t with count := n }
  | .flush => { t with flush := n }

def step (t : Tally) (c : Call) : Tally := t.set (t.get c + 1) c

end Tally

/-- A tree and the failures planned for calls on it. -/
structure Device where
  tree : Tree
  plan : Plan := Plan.reliable

/-- A device and the calls made on it so far. -/
structure Medium extends Device where
  tally : Tally := {}

/-- One item of a walk over a tree. -/
abbrev Item := Except StoreError (Bytes × Bytes)

/-- A computation that reads a tree and may fail. -/
abbrev Probe (α : Type) := ReaderT Device (ExceptT StoreError (StateM Tally)) α

namespace Probe

/-- Counts a call and looks up what becomes of it. -/
def call (c : Call) : Probe Verdict := do
  let n := (← getThe Tally).get c
  modifyThe Tally (·.step c)
  return (← read).plan c n

/-- The items of a walk that finds these entries. -/
def items (c : Call) (entries : Tree → List (Bytes × Bytes)) : Probe (List Item) := do
  let verdict ← call c
  let found := (entries (← read).tree).map Except.ok
  match verdict with
  | .serve => return found
  | .fail e => throw e
  | .spoil place e => return found.set place (.error e)

def iterate : Probe (List Item) := items .iterate (·.toList)

/-- The entries whose key begins with `start`. -/
def scanPrefix (start : Bytes) : Probe (List Item) := items .scanPrefix (·.scanPrefix start)

def count : Probe Nat := do
  match ← call .count with
  | .fail e => throw e
  | _ => return (← read).tree.size

end Probe

namespace Medium

/-- The medium on which nothing was called yet. -/
def ofTree (t : Tree) : Medium := { tree := t }

instance : Inhabited Medium := ⟨ofTree ∅⟩

/-- Reads; the tree stays as it is. -/
def read {α : Type} (m : Medium) (p : Probe α) : Except StoreError α × Medium :=
  let (result, tally) := (p.run m.toDevice).run.run m.tally
  (result, { m with tally })

@[simp] theorem tree_read {α : Type} (m : Medium) (p : Probe α) : (m.read p).2.tree = m.tree := rfl

/-- A call that changes the tree, unless it fails. -/
def change (m : Medium) (c : Call) (f : Tree → Tree) : Except StoreError Unit × Medium :=
  let counted := { m with tally := m.tally.step c }
  match m.plan c (m.tally.get c) with
  | .fail e => (.error e, counted)
  | _ => (.ok (), { counted with tree := f m.tree })

def insert (m : Medium) (key value : Bytes) : Except StoreError Unit × Medium :=
  m.change .insert (·.insert key value)

/-- Makes the changes of a batch together. -/
def applyBatch (m : Medium) (b : Batch) : Except StoreError Unit × Medium :=
  m.change .applyBatch (·.apply b)

def flush (m : Medium) : Except StoreError Unit × Medium := m.change .flush id

/-! ## Arranging failures -/

/-- A failure that begins after some calls of a kind and lasts. -/
structure Fault where
  call : Call
  /-- How many calls are served before. -/
  skip : Nat := 0
  /-- The item that comes out as an error; without it the whole call fails. -/
  place : Option Nat := none
  error : StoreError

/-- What a fault makes of the calls of its kind. -/
def Fault.verdict (f : Fault) (n : Nat) : Verdict :=
  if n < f.skip then .serve
  else match f.place with
    | none => .fail f.error
    | some place => .spoil place f.error

/-- Puts a fault in place of an earlier one of its kind; its calls are counted afresh. -/
def arm (m : Medium) (f : Fault) : Medium :=
  { m with
    plan := fun c => if c = f.call then f.verdict else m.plan c
    tally := m.tally.set 0 f.call }

/-- Takes all failures away. -/
def heal (m : Medium) : Medium := { m with plan := Plan.reliable }

/-- Keeps a value past all failures and counts. -/
def put (m : Medium) (key value : Bytes) : Medium := { m with tree := m.tree.insert key value }

end Medium

end Mvcc
