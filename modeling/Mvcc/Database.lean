import Mvcc.Backend
import Mvcc.Store.Error
import Mvcc.Tree

/-!
# Databases

A database keeps trees under names. All who open a name share its tree. Trees without a name belong
to whoever made them and go when the database is closed.

* `Site`, `Site.at`: what a data path names when a database is opened there.
* `Database.open?`, `Database.site`: opening, and what is left behind.
* `Database.openTree`, `Database.newTree`, `Database.get`, `Database.update`: trees by handle.
-/

namespace Mvcc

abbrev Trees := OrderedMap String Tree

/-- What a data path names when a database is opened there. -/
inductive Site where
  /-- A directory with the trees that an earlier database left; none in a fresh one. -/
  | directory (trees : Trees)
  /-- There is no directory and none can be made. -/
  | unusable

def Site.fresh : Site := .directory ∅

/-- How many bytes the name of a file has that a database keeps in its directory, at most. -/
def fileNameBytes : Nat := 8

/-- Whether a text can be the path of a database. A zero character would end the path early. File
systems bound the bytes of every name in a path, and those of a whole path, so that there must be
room for the files in the directory too. -/
def isDataPath (path : String) : Bool :=
  let gap := if path.isEmpty || path.endsWith "/" then 0 else 1
  !path.toList.contains '\x00' && (path.splitOn "/").all (·.utf8ByteSize ≤ 255) &&
    path.utf8ByteSize + gap + fileNameBytes < 4096

/-- What a text names as a data path, given what is found there if it can be one. -/
def Site.at (path : String) (found : Site) : Site := if isDataPath path then found else .unusable

/-- How an open tree is known to its database. -/
inductive Handle where
  | named (name : String)
  | unnamed (place : Nat)
  deriving DecidableEq

/-- Trees under names, kept by a backend. -/
structure Database where
  backend : Backend
  trees : Trees := ∅
  /-- Trees without a name, in the order in which they were made. -/
  unnamed : List Tree := []

namespace Database

/-- The tree that a persistent database has from the start. -/
def defaultTree : String := "__sled__default"

/-- Opens a tree, an empty one if the name is new. -/
def openTree (d : Database) (name : String) : Handle × Database :=
  (.named name, { d with trees := d.trees.insertIfNew name ∅ })

def open? (b : Backend) (site : Site) : Except StoreError Database :=
  match b, site with
  | .rocksdb, _ => .error (.backendMissing "RocksDB")
  | .memory, _ => .ok { backend := .memory }
  | .sled, .unusable => .error .noDirectory
  | .sled, .directory trees => .ok (openTree { backend := .sled, trees } defaultTree).2

/-- What is left at the data path when the database is closed. -/
def site (d : Database) : Site := if d.backend.isPersistent then .directory d.trees else .fresh

/-- Makes a tree without a name. -/
def newTree (d : Database) : Handle × Database :=
  (.unnamed d.unnamed.length, { d with unnamed := d.unnamed ++ [∅] })

def get (d : Database) : Handle → Tree
  | .named name => (d.trees.get? name).getD ∅
  | .unnamed place => d.unnamed.getD place ∅

def update (d : Database) (h : Handle) (f : Tree → Tree) : Database :=
  match h with
  | .named name => { d with trees := d.trees.insert name (f (d.get h)) }
  | .unnamed place => { d with unnamed := d.unnamed.modify place f }

/-- The names of the trees, in the order of their characters. -/
def names (d : Database) : List String := d.trees.keys

end Database

end Mvcc
