import Mathlib.Data.List.MinMax
import Mvcc.Engine.Session

/-!
# Traces

A trace is what was asked in a run, with the answers. All that the outside can know of a run is read
off its trace: what every transaction did, which ones committed, and what a snapshot should show.

* `Session.trace`, `Engine.trace`, `Engine.after`: the trace and the outcome of a run.
* `Trace.deeds`, `Trace.beginTs?`, `Trace.commits`, each with its rule for one more event.
* `Commit.place`, `Trace.writers`: the place of a commit, and the commits that wrote a key.
* `Trace.snapshot`: what the last commit before a timestamp left under a key.
* `Contents.after`, `Contents.Serves`: deeds done on a plain map.
-/

namespace Mvcc

/-- An operation with its answer. -/
structure Event where
  op : Op
  reply : Reply

abbrev Trace := List Event

namespace Session

def trace (s : Session) (ops : List Op) : Trace := List.zipWith Event.mk ops (s.run ops).1

theorem length_run (s : Session) (ops : List Op) : (s.run ops).1.length = ops.length := by
  induction ops generalizing s with
  | nil => rfl
  | cons op rest ih =>
    rw [run, List.length_cons, List.length_cons]
    exact congrArg _ (ih _)

theorem run_append (s : Session) (ops ops' : List Op) :
    s.run (ops ++ ops') =
      ((s.run ops).1 ++ ((s.run ops).2.run ops').1, ((s.run ops).2.run ops').2) := by
  induction ops generalizing s with
  | nil => rfl
  | cons op rest ih =>
    have hrest := ih (s.step op).2
    simp only [List.cons_append, run, hrest]

theorem trace_append (s : Session) (ops ops' : List Op) :
    s.trace (ops ++ ops') = s.trace ops ++ (s.run ops).2.trace ops' := by
  rw [trace, run_append, List.zipWith_append (s.length_run ops).symm]
  rfl

end Session

namespace Engine

/-- A session on an engine, before any transaction. -/
def session (g : Engine) : Session := { engine := g }

def after (g : Engine) (ops : List Op) : Session := (g.session.run ops).2

def trace (g : Engine) (ops : List Op) : Trace := g.session.trace ops

theorem after_append (g : Engine) (ops ops' : List Op) :
    g.after (ops ++ ops') = ((g.after ops).run ops').2 := by
  rw [after, Session.run_append]
  rfl

theorem trace_append (g : Engine) (ops ops' : List Op) :
    g.trace (ops ++ ops') = g.trace ops ++ (g.after ops).trace ops' :=
  Session.trace_append _ _ _

end Engine

/-! ## Deeds -/

/-- What a transaction did: a read with what it found, or a write or delete. -/
inductive Deed where
  | read (key : RecordKey) (found : Option Payload)
  | put (key : RecordKey) (payload : Option Payload)
  deriving DecidableEq

def Deed.isPut : Deed → Bool
  | .read .. => false
  | .put .. => true

/-- The payload that is put under a key. -/
def Deed.put? (k : RecordKey) : Deed → Option (Option Payload)
  | .read .. => none
  | .put k' p => if k' = k then some p else none

/-- The payload that is put under a key last. -/
def lastPut? (ds : List Deed) (k : RecordKey) : Option (Option Payload) :=
  (ds.filterMap (Deed.put? k)).getLast?

theorem lastPut?_append (ds ds' : List Deed) (k : RecordKey) :
    lastPut? (ds ++ ds') k = (lastPut? ds' k).or (lastPut? ds k) := by
  rw [lastPut?, List.filterMap_append, List.getLast?_append]
  rfl

theorem lastPut?_read (ds : List Deed) (k k' : RecordKey) (p : Option Payload) :
    lastPut? (ds ++ [.read k p]) k' = lastPut? ds k' := by
  rw [lastPut?_append]
  rfl

theorem lastPut?_put (ds : List Deed) (k k' : RecordKey) (p : Option Payload) :
    lastPut? (ds ++ [.put k p]) k' = if k' = k then some p else lastPut? ds k' := by
  rw [lastPut?_append]
  by_cases hk : k' = k
  · simp [lastPut?, Deed.put?, hk]
  · simp [lastPut?, Deed.put?, hk, Ne.symm hk]

/-- A plain map from keys to payloads. -/
abbrev Contents := RecordKey → Option Payload

namespace Contents

def put (m : Contents) (k : RecordKey) (p : Option Payload) : Contents :=
  fun k' => if k' = k then p else m k'

/-- The map after the deeds. -/
def after (m : Contents) : List Deed → Contents
  | [] => m
  | .read .. :: rest => m.after rest
  | .put k p :: rest => (m.put k p).after rest

/-- Every read finds what the map holds at its turn. -/
def Serves (m : Contents) : List Deed → Prop
  | [] => True
  | .read k p :: rest => m k = p ∧ m.Serves rest
  | .put k p :: rest => (m.put k p).Serves rest

theorem after_append (m : Contents) (ds ds' : List Deed) :
    m.after (ds ++ ds') = (m.after ds).after ds' := by
  induction ds generalizing m with
  | nil => rfl
  | cons d rest ih =>
    cases d with
    | read k p => exact ih m
    | put k p => exact ih (m.put k p)

theorem serves_append (m : Contents) (ds ds' : List Deed) :
    m.Serves (ds ++ ds') ↔ m.Serves ds ∧ (m.after ds).Serves ds' := by
  induction ds generalizing m with
  | nil => simp [Serves, after]
  | cons d rest ih =>
    cases d with
    | read k p =>
      rw [List.cons_append, Serves, Serves, after, ih, and_assoc]
    | put k p => exact ih (m.put k p)

theorem after_apply (m : Contents) (ds : List Deed) (k : RecordKey) :
    m.after ds k = (lastPut? ds k).getD (m k) := by
  induction ds using List.reverseRecOn with
  | nil => rfl
  | append_singleton ds d ih =>
    rw [after_append]
    cases d with
    | read k' p =>
      rw [lastPut?_read]
      exact ih
    | put k' p =>
      rw [lastPut?_put]
      show (m.after ds).put k' p k = _
      rw [put]
      split_ifs
      · rfl
      · exact ih

end Contents

namespace Event

/-- What the event is for a transaction. -/
def deed? (e : Event) (id : TxnId) : Option Deed :=
  match e with
  | ⟨.read i k, .found p⟩ => if i = id then some (.read k p) else none
  | ⟨.write i k p, .done⟩ => if i = id then some (.put k (some p)) else none
  | ⟨.delete i k, .done⟩ => if i = id then some (.put k none) else none
  | _ => none

/-- The timestamp with which a transaction began. -/
def begin? (e : Event) (id : TxnId) : Option Timestamp :=
  match e with
  | ⟨.begin, .began i ts⟩ => if i = id then some ts else none
  | _ => none

end Event

/-- A transaction that committed. -/
structure Commit where
  id : TxnId
  beginTs : Timestamp
  ts : Timestamp
  deeds : List Deed

namespace Commit

def wrote (c : Commit) : Bool := c.deeds.any Deed.isPut

/-- What the commit left under a key that it wrote. -/
def left? (c : Commit) (k : RecordKey) : Option (Option Payload) := lastPut? c.deeds k

/-- When and what the commit left under a key that it wrote. -/
def mark? (c : Commit) (k : RecordKey) : Option (Timestamp × Option Payload) :=
  (c.left? k).map (c.ts, ·)

/-- The place of a transaction among the others: a commit that wrote nothing belongs to its
snapshot. -/
def place (c : Commit) : Timestamp := if c.wrote then c.ts else c.beginTs

theorem wrote_iff (c : Commit) : c.wrote = true ↔ ∃ k, c.left? k ≠ none := by
  simp only [left?, lastPut?, ne_eq, List.getLast?_eq_none_iff, List.filterMap_eq_nil_iff,
    not_forall]
  rw [wrote, List.any_eq_true]
  constructor
  · rintro ⟨_ | ⟨k, p⟩, hd, hput⟩
    · cases hput
    · exact ⟨k, _, hd, by simp [Deed.put?]⟩
  · rintro ⟨k, _ | ⟨k', p⟩, hd, hput⟩
    · simp [Deed.put?] at hput
    · exact ⟨_, hd, rfl⟩

end Commit

namespace Trace

def deeds (tr : Trace) (id : TxnId) : List Deed := tr.filterMap (·.deed? id)

def beginTs? (tr : Trace) (id : TxnId) : Option Timestamp := tr.findSome? (·.begin? id)

end Trace

/-- The commit that an event is, after what happened before. -/
def Event.commit? (e : Event) (past : Trace) : Option Commit :=
  match e with
  | ⟨.commit id, .committed ts⟩ =>
    some { id, beginTs := (past.beginTs? id).getD 0, ts, deeds := past.deeds id }
  | _ => none

/-- Nothing was done, begun or committed. -/
structure Event.Silent (e : Event) : Prop where
  deed? : ∀ id, e.deed? id = none
  begin? : ∀ id, e.begin? id = none
  commit? : ∀ past, e.commit? past = none

namespace Trace

/-- The commits in what follows `past`. -/
def commitsAfter (past : Trace) : Trace → List Commit
  | [] => []
  | e :: rest => (e.commit? past).toList ++ commitsAfter (past ++ [e]) rest

/-- The transactions that committed, in the order of their commits. -/
def commits (tr : Trace) : List Commit := commitsAfter [] tr

/-- When a key was written by a commit, and what was left under it. -/
def writers (tr : Trace) (k : RecordKey) : List (Timestamp × Option Payload) :=
  tr.commits.filterMap (·.mark? k)

/-- What the commit with the greatest timestamp below `ts` left under a key. -/
def snapshot (tr : Trace) (ts : Timestamp) : Contents := fun k =>
  (((tr.writers k).filter fun w => decide (w.1 < ts)).argmax fun w => w.1.toNat).bind (·.2)

variable (tr : Trace) (e : Event)

theorem deeds_append (tr' : Trace) (id : TxnId) :
    (tr ++ tr').deeds id = tr.deeds id ++ tr'.deeds id :=
  List.filterMap_append

theorem beginTs?_append (tr' : Trace) (id : TxnId) :
    (tr ++ tr').beginTs? id = (tr.beginTs? id).or (tr'.beginTs? id) :=
  List.findSome?_append

theorem deeds_concat (id : TxnId) : (tr ++ [e]).deeds id = tr.deeds id ++ (e.deed? id).toList := by
  rw [deeds_append]
  cases h : e.deed? id <;> simp [deeds, h]

theorem beginTs?_concat (id : TxnId) :
    (tr ++ [e]).beginTs? id = (tr.beginTs? id).or (e.begin? id) := by
  rw [beginTs?_append]
  cases h : e.begin? id <;> simp [beginTs?, h]

theorem commitsAfter_append (past tr tr' : Trace) :
    commitsAfter past (tr ++ tr') = commitsAfter past tr ++ commitsAfter (past ++ tr) tr' := by
  induction tr generalizing past with
  | nil => simp [commitsAfter]
  | cons e rest ih =>
    rw [List.cons_append, commitsAfter, commitsAfter, ih]
    simp

theorem commits_append (tr' : Trace) : (tr ++ tr').commits = tr.commits ++ commitsAfter tr tr' :=
  commitsAfter_append [] tr tr'

theorem commits_concat : (tr ++ [e]).commits = tr.commits ++ (e.commit? tr).toList := by
  rw [commits_append, commitsAfter, commitsAfter, List.append_nil]

theorem commits_of_silent (h : e.commit? tr = none) : (tr ++ [e]).commits = tr.commits := by
  rw [commits_concat, h]
  exact List.append_nil _

theorem mem_writers {w : Timestamp × Option Payload} {k : RecordKey} :
    w ∈ tr.writers k ↔ ∃ c ∈ tr.commits, c.left? k = some w.2 ∧ c.ts = w.1 := by
  rw [writers, List.mem_filterMap]
  refine exists_congr fun c => and_congr_right fun _ => ?_
  rw [Commit.mark?, Option.map_eq_some_iff]
  constructor
  · rintro ⟨p, hp, rfl⟩
    exact ⟨hp, rfl⟩
  · rintro ⟨hp, hts⟩
    exact ⟨w.2, hp, Prod.ext hts rfl⟩

theorem argmax_eq_getLast? {α : Type} {f : α → Nat} {l : List α}
    (h : l.Pairwise fun a b => f a < f b) : l.argmax f = l.getLast? := by
  induction l using List.reverseRecOn with
  | nil => rfl
  | append_singleton l a ih =>
    obtain ⟨hl, -, hlt⟩ := List.pairwise_append.1 h
    rw [List.argmax_concat, ih hl, List.getLast?_concat]
    cases hlast : l.getLast? with
    | none => rfl
    | some b => exact if_pos (hlt b (List.mem_of_getLast? hlast) a (by simp))

theorem snapshot_eq {k : RecordKey} (h : (tr.writers k).Pairwise fun w w' => w.1 < w'.1)
    (ts : Timestamp) :
    tr.snapshot ts k = ((tr.writers k).filter fun w => decide (w.1 < ts)).getLast?.bind (·.2) := by
  rw [snapshot, argmax_eq_getLast?]
  exact (h.filter _).imp fun hlt => UInt64.lt_iff_toNat_lt.1 hlt

end Trace

end Mvcc
