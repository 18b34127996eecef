import Mathlib.Data.List.MinMax
import Mvcc.Proofs.Store

/-!
# Catalogs

A catalog is what a store of versions is to its callers: chains by record key, with no bytes, places
or media. Every request to a store has a meaning on catalogs.

* `Request`, `Response`, `Request.run`: what is asked of a store or a catalog, and answered.
* `Store.serve`: the requests on a store.
* `Chain.appended`, `Chain.closed`, `Chain.followed`: changes of one chain, with the rules that
  refuse them.
* `Catalog.serve`: the requests on a catalog.
* `Catalog.chain_serve`: the chains that a request names are the only ones that change.
-/

namespace Mvcc

/-! ## Requests -/

/-- What is asked of stored versions. -/
inductive Request where
  | append (v : Version)
  | close (key : RecordKey) (endTs : Timestamp)
  | install (vs : List Version)
  | prune (ts : Timestamp)
  | visible (key : RecordKey) (ts : Timestamp)
  | latest (key : RecordKey)
  | chain (key : RecordKey)

inductive Response where
  | done
  /-- How many versions were dropped. -/
  | pruned (count : Nat)
  | version (found : Option Version)
  | chain (found : Chain)
  deriving DecidableEq

namespace Request

/-- Whether the lengths in a request fit their fields. -/
def Fits : Request → Prop
  | append v => v.Fits
  | install vs => ∀ v ∈ vs, v.Fits
  | prune _ => True
  | close k _ | visible k _ | latest k | chain k => k.Fits

/-- Whether a request changes nothing of a record, by its arguments alone. -/
def Spares (k : RecordKey) : Request → Prop
  | append v => k ≠ v.key
  | close k' _ => k ≠ k'
  | install vs => ∀ v ∈ vs, k ≠ v.key
  | prune _ => False
  | visible .. | latest _ | chain _ => True

/-- Requests one after the other, with their answers. -/
def run {σ ρ : Type} (serve : σ → Request → ρ × σ) (s : σ) : List Request → List ρ × σ
  | [] => ([], s)
  | q :: rest =>
    let (answer, next) := serve s q
    let (answers, last) := run serve next rest
    (answer :: answers, last)

/-- Answers with a result. -/
def answered {α ε σ : Type} (answer : α → Response) (x : Except ε α × σ) : Except ε Response × σ :=
  (x.1.map answer, x.2)

end Request

open Request (answered)

/-- Requests on a store. -/
def Store.serve (s : Store) : Request → Except StoreError Response × Store
  | .append v => answered (fun () => .done) (s.append v)
  | .close k ts => answered (fun () => .done) (s.close k ts)
  | .install vs => answered (fun () => .done) (s.install vs)
  | .prune ts => answered .pruned (s.prune ts)
  | .visible k ts => answered .version (s.visible? k ts)
  | .latest k => answered .version (s.latest? k)
  | .chain k => answered .chain (s.chain k)

/-! ## Changes of one chain -/

namespace Chain

/-- Appends an open version to a chain without one. -/
def appended (c : Chain) (v : Version) : Except Refusal Chain :=
  if v.isOpen then
    match c.getLast? with
    | none => .ok [v]
    | some u =>
      if u.isOpen then .error (.alreadyOpen v.key u.number)
      else if v.number ≤ u.number then .error (.staleNumber v.key v.number u.number)
      else .ok (c ++ [v])
  else .error (.appendClosed v.key)

/-- Ends the open version of a record. -/
def closed (c : Chain) (k : RecordKey) (ts : Timestamp) : Except Refusal Chain :=
  match c.getLast? with
  | none => .error (.nothingOpen k)
  | some u =>
    if u.isOpen then
      if ts ≤ u.beginTs then .error (.endsTooEarly k ts u.beginTs)
      else .ok (c.dropLast ++ [u.closedAt ts])
    else .error (.nothingOpen k)

/-- Appends a version and ends the open one before it, if there is one, where it begins. -/
def followed (c : Chain) (v : Version) : Except Refusal Chain :=
  match c.getLast? with
  | none => .ok [v]
  | some u =>
    if v.number ≤ u.number then .error (.staleNumber v.key v.number u.number)
    else if u.isOpen then
      if v.beginTs ≤ u.beginTs then .error (.staleBegin v.key v.beginTs u.beginTs)
      else .ok (c.dropLast ++ [u.closedAt v.beginTs, v])
    else .ok (c ++ [v])

end Chain

/-! ## Requests on a catalog -/

/-- Chains by record key. -/
abbrev Catalog := OrderedMap RecordKey Chain

namespace Catalog

variable {c c' : Catalog} {k : RecordKey} {q : Request}

/-- The chain of a record. -/
def chain (c : Catalog) (k : RecordKey) : Chain := (c.get? k).getD []

/-- All versions. -/
def versions (c : Catalog) : List Version := c.values.flatten

/-- The catalog with another chain of a record. -/
def put (c : Catalog) (k : RecordKey) (l : Chain) : Catalog := OrderedMap.insert c k l

/-- The catalog without the versions that ended at or before `ts`. -/
def prune (c : Catalog) (ts : Timestamp) : Catalog :=
  OrderedMap.mapValues c fun _ l => l.filter fun v => !v.endedBy ts

/-- Appends versions to chains, one after the other and each to another chain than those before. -/
def install (c : Catalog) : (seen : List RecordKey) → List Version → Except Refusal Catalog
  | _, [] => .ok c
  | seen, v :: rest =>
    if v.key ∈ seen then .error (.repeatedKey v.key)
    else if v.isOpen then
      match (c.chain v.key).followed v with
      | .error e => .error e
      | .ok l => (c.put v.key l).install (v.key :: seen) rest
    else .error (.installClosed v.key)

/-- What a change leaves of a catalog: all of it if it is refused. -/
def changed (c : Catalog) : Except Refusal Catalog → Except Refusal Response × Catalog
  | .error e => (.error e, c)
  | .ok c' => (.ok .done, c')

/-- Requests on a catalog. -/
def serve (c : Catalog) : Request → Except Refusal Response × Catalog
  | .append v => c.changed (((c.chain v.key).appended v).map (c.put v.key))
  | .close k ts => c.changed (((c.chain k).closed k ts).map (c.put k))
  | .install vs => c.changed (c.install [] vs)
  | .prune ts => (.ok (.pruned (c.versions.countP (·.endedBy ts))), c.prune ts)
  | .visible k ts =>
    (.ok (.version (((c.chain k).filter (·.visibleAt ts)).argmin (·.number.toNat))), c)
  | .latest k => (.ok (.version ((c.chain k).getLast?.filter (·.isOpen))), c)
  | .chain k => (.ok (.chain (c.chain k)), c)

theorem chain_empty : chain ∅ = fun _ => [] := rfl

theorem chain_put (c : Catalog) (k k' : RecordKey) (l : Chain) :
    (c.put k l).chain k' = if k' = k then l else c.chain k' := by
  rw [chain, put, OrderedMap.get?_insert]
  split_ifs <;> rfl

theorem chain_prune (c : Catalog) (ts : Timestamp) (k : RecordKey) :
    (c.prune ts).chain k = (c.chain k).filter fun v => !v.endedBy ts := by
  rw [chain, prune, OrderedMap.get?_mapValues, chain]
  cases c.get? k <;> rfl

theorem chain_changed_put (x : Except Refusal Chain) {k k' : RecordKey} (h : k ≠ k') :
    (c.changed (x.map (c.put k'))).2.chain k = c.chain k := by
  cases x with
  | error e => rfl
  | ok l => exact (c.chain_put k' k l).trans (if_neg h)

theorem chain_install {seen : List RecordKey} {vs : List Version} (h : c.install seen vs = .ok c')
    (hk : ∀ v ∈ vs, k ≠ v.key) : c'.chain k = c.chain k := by
  induction vs generalizing c seen with
  | nil =>
    cases h
    rfl
  | cons v rest ih =>
    rw [install] at h
    split_ifs at h
    split at h
    · cases h
    · rw [ih h fun w hw => hk w (List.mem_cons_of_mem _ hw), chain_put,
        if_neg (hk v List.mem_cons_self)]

theorem chain_serve (c : Catalog) (h : q.Spares k) : (c.serve q).2.chain k = c.chain k := by
  cases q with
  | append v => exact chain_changed_put _ h
  | close k' ts => exact chain_changed_put _ h
  | install vs =>
    rw [serve]
    cases hinstall : c.install [] vs with
    | error e => rfl
    | ok c' => exact chain_install hinstall h
  | prune ts => exact h.elim
  | visible | latest | chain => rfl

theorem argmin_eq_head? {l : Chain} (h : l.Pairwise fun u v => u.number < v.number) :
    l.argmin (·.number.toNat) = l.head? := by
  induction l with
  | nil => rfl
  | cons u l ih =>
    obtain ⟨hu, hl⟩ := List.pairwise_cons.1 h
    rw [List.argmin_cons, ih hl]
    cases l with
    | nil => rfl
    | cons v l =>
      have hlt := UInt64.lt_iff_toNat_lt.1 (hu v List.mem_cons_self)
      exact if_neg (Nat.lt_asymm hlt)

end Catalog

end Mvcc
