import Mvcc.Store.Reading

/-!
# Version stores

A store keeps chains of versions on a medium and remembers the greatest timestamp it was told.

* `Store.recover`: takes a medium into use.
* `Store.reading`, `Store.save`: the two ways in which a store works on its medium.
* `Store.visible?`, `latest?`, `chain`, `flush`: what can be asked of a store.
-/

namespace Mvcc

/-- Chains of versions on a medium. -/
structure Store where
  medium : Medium
  /-- The greatest timestamp of any version kept so far. -/
  maxTs : Timestamp := 0

namespace Store

def empty : Store := { medium := Medium.ofTree ∅ }

instance : Inhabited Store := ⟨empty⟩

def tree (s : Store) : Tree := s.medium.tree

/-- The greatest timestamp among stored versions; zero without any. -/
def greatestTs (found : List (Bytes × Version)) : Timestamp :=
  found.foldl (fun ts e => max ts e.2.lastTs) 0

/-- Takes a medium into use. The greatest timestamp is that of the versions found on it. -/
def recover (m : Medium) : Except StoreError Store × Medium :=
  match m.read Probe.versions with
  | (.error e, m) => (.error e, m)
  | (.ok found, m) => (.ok { medium := m, maxTs := greatestTs found }, m)

/-- Reads; versions and timestamp stay as they are. -/
def reading {α : Type} (s : Store) (p : Probe α) : Except StoreError α × Store :=
  let (result, medium) := s.medium.read p
  (result, { s with medium })

/-- Makes a change of the medium and, if it is made, remembers a timestamp. -/
def save (s : Store) (change : Medium → Except StoreError Unit × Medium) (ts : Timestamp) :
    Except StoreError Unit × Store :=
  match change s.medium with
  | (.error e, medium) => (.error e, { s with medium })
  | (.ok (), medium) => (.ok (), { medium, maxTs := max s.maxTs ts })

@[simp] theorem tree_reading {α : Type} (s : Store) (p : Probe α) :
    (s.reading p).2.tree = s.tree := rfl

@[simp] theorem maxTs_reading {α : Type} (s : Store) (p : Probe α) :
    (s.reading p).2.maxTs = s.maxTs := rfl

/-! ## Questions -/

def visible? (s : Store) (k : RecordKey) (ts : Timestamp) :
    Except StoreError (Option Version) × Store :=
  s.reading (Probe.visible? k ts)

def latest? (s : Store) (k : RecordKey) : Except StoreError (Option Version) × Store :=
  s.reading (Probe.latest? k)

def chain (s : Store) (k : RecordKey) : Except StoreError Chain × Store :=
  s.reading (Probe.chain k)

def flush (s : Store) : Except StoreError Unit × Store := s.save Medium.flush 0

end Store

end Mvcc
