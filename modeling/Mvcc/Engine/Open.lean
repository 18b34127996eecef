import Mvcc.Database
import Mvcc.Engine.Basic

/-!
# Opening stores and engines

* `Store.openIn?`: the store in a named tree of a backend.
* `Engine.open?`: an engine with given settings.
-/

namespace Mvcc

/-- Takes a named tree of a backend into use. -/
def Store.openIn? (b : Backend) (site : Site) (name : String) : Except StoreError Store := do
  let (handle, db) := (← Database.open? b site).openTree name
  (Store.recover (Medium.ofTree (db.get handle))).1

/-- What is left at the data path when a store in a named tree is given up. -/
def Store.leave (s : Store) (b : Backend) (site : Site) (name : String) : Site :=
  match Database.open? b site with
  | .error _ => site
  | .ok db => { db with trees := db.trees.insert name s.tree }.site

/-- Opens an engine. It issues timestamps above those found and above the one it is told to start
from. -/
def Engine.open? (s : Settings) (site : Site) : Except TxnError Engine := do
  s.validate.mapError .settings
  let store ← (Store.openIn? s.backend site s.treeName).mapError .storage
  return withClock store { last := max store.maxTs s.initialTs } s.collectEvery

end Mvcc
