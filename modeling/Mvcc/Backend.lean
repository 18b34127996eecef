import Mvcc.Bytes.Basic

/-!
# Storage backends

What keeps the trees. Two backends are at hand; a third is known by name only.

* `Backend.display`, `Backend.ofName?`: a backend and its name, in any case of letters.
-/

namespace Mvcc

/-- What keeps the trees. -/
inductive Backend where
  | rocksdb
  /-- Keeps its trees in a directory. -/
  | sled
  /-- Keeps its trees while it is open. -/
  | memory
  deriving DecidableEq, Inhabited

namespace Backend

def all : List Backend := [rocksdb, sled, memory]

def display : Backend → String
  | rocksdb => "rocksdb"
  | sled => "sled"
  | memory => "memory"

def isPersistent : Backend → Bool
  | rocksdb | sled => true
  | memory => false

/-- The lower-case form of a letter, wherever that form is one of the letters from `a` to `z`. Such
letters are the capitals from `A` to `Z` and the sign of the kelvin. -/
def lowered (c : Char) : Char := if c = '\u212a' then 'k' else c.toLower

/-- The backend of a name. The case of letters does not count. -/
def ofName? (name : String) : Option Backend :=
  let letters := name.toList.map lowered
  all.find? fun b => b.display.toList == letters

/-- Why a name is refused. -/
def unknownMessage (name : String) : String :=
  let names := String.intercalate ", " (all.map display)
  s!"Unknown storage type: {name}. Valid options: {names}"

end Backend

end Mvcc
