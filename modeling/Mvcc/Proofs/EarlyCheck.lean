import Mvcc.Proofs.AllOrNothing
import Mvcc.Proofs.CommitDecision

/-!
# A conflict does not go away

A commit is checked twice, the first time while others may still commit and collect. Whatever they
do in between, a conflict that was found is found again: the history of commits only grows, the
handle of the transaction is its own, and by the history alone a check is decided. So nothing is lost
by turning a transaction away at the first check.

* `Op.owner?`: the transaction that an operation is asked of.
* `Session.held_step_of_other`: the operations of others leave a handle as it is.
* `Commit.Overtake.append`: what was overtaken stays overtaken.
* `Session.Doomed`: no check lets the transaction pass any more.
* `Fresh.doomed_of_conflict`: the result for every run of an engine without versions.
-/

namespace Mvcc

open Session

/-- The transaction that an operation is asked of. -/
def Op.owner? : Op → Option TxnId
  | .read id _ | .write id .. | .delete id _ | .commit id | .abort id | .drop id => some id
  | .begin | .collect | .issue | .flush => none

/-- Looks for a conflict of a transaction at the present time. -/
def Engine.check (g : Engine) (t : Txn) : Except StoreError (Option Conflict) × Store :=
  g.store.reading (Probe.conflict? t.reads t.writes t.beginTs g.clock.last)

/-! ## The operations of others -/

namespace Session

variable {s : Session} {op : Op} {i id : TxnId}

theorem held_onTxn_of_ne {α : Type} {answer : α → Reply}
    {work : Engine → Txn → Except TxnError α × Engine × Txn} (hi : i ≠ id) :
    (s.onTxn id answer work).2.held.get? i = s.held.get? i := by
  rw [onTxn]
  cases s.held.get? id with
  | none => rfl
  | some t => exact OrderedMap.get?_insert_of_ne _ _ hi

/-- An operation that is asked of another transaction, or of none, leaves a handle as it is, unless
it is the one that begins the transaction. -/
theorem held_step_of_other (hop : op.owner? ≠ some i)
    (hnew : op = .begin → ∀ ts, (s.step op).1 ≠ .began i ts) :
    (s.step op).2.held.get? i = s.held.get? i := by
  cases op with
  | begin =>
    have hname := hnew rfl
    rw [step, Engine.begin] at hname ⊢
    cases htick : s.engine.clock.tick? with
    | none => rfl
    | some clock =>
      rw [htick] at hname
      exact OrderedMap.get?_insert_of_ne _ _ fun hi => hname clock.last (by rw [hi])
  | read id k | write id k p | delete id k | commit id | abort id =>
    exact held_onTxn_of_ne fun hi => hop (congrArg some hi.symm)
  | drop id =>
    have hi : i ≠ id := fun hi => hop (congrArg some hi.symm)
    rw [step]
    cases s.held.get? id with
    | none => rfl
    | some t => exact OrderedMap.get?_erase_of_ne _ hi
  | collect | issue | flush => rfl

end Session

/-! ## Histories that grow -/

namespace Commit

theorem Overtake.append {commits : List Commit} {t : Txn} (h : Overtake commits t)
    (more : List Commit) : Overtake (commits ++ more) t := by
  obtain ⟨k, hk, c, hc, hlt, hleft⟩ := h
  exact ⟨k, hk, c, List.mem_append_left _ hc, hlt, hleft⟩

end Commit

namespace Trace

variable {tr : Trace} {s : Session} {a : Chains} {op : Op} {id : TxnId} {t : Txn}

theorem Chronicle.exists_check (h : tr.Chronicle s a) (active : s.Active id t) :
    ∃ found, (found ≠ none ↔ Commit.Overtake tr.commits t) ∧
      ((s.engine.check t).1 = .ok found ∨
        (∃ e, (s.engine.check t).1 = .error e) ∧ ¬ s.engine.store.Served (s.engine.check t).2) := by
  obtain ⟨r, store, heq, -, hr⟩ := Store.exists_reading
    (h.stands.encodes.answers_conflict? (h.stands.fits id t active) s.engine.clock.last)
  refine ⟨a.conflict? t s.engine.clock.last, ?_, ?_⟩
  · rw [Ne, h.conflict?_eq_none active, not_not]
  · rw [Engine.check, heq]
    exact hr

theorem Chronicle.active_step (h : tr.Chronicle s a) (fits : op.Fits) (hop : op.owner? ≠ some id)
    (active : s.Active id t) : (s.step op).2.Active id t := by
  obtain ⟨a', hm⟩ := exists_moves h.stands fits
  have hnew : op = .begin → ∀ ts, (s.step op).1 ≠ .began id ts := by
    rintro rfl ts hreply
    rw [hreply] at hm
    have hbegan := h.records.began id t active
    rw [h.records.unused_of_began hm] at hbegan
    cases hbegan
  exact ⟨(held_step_of_other hop hnew).trans active.1, active.2⟩

end Trace

namespace Session

/-- No check lets a transaction pass any more, and its commit is refused. Only a call on the storage
that fails keeps it from being told. -/
structure Doomed (s : Session) (id : TxnId) (t : Txn) : Prop where
  active : s.Active id t
  check : (∃ c, (s.engine.check t).1 = .ok (some c)) ∨
    (∃ e, (s.engine.check t).1 = .error e) ∧ ¬ s.engine.store.Served (s.engine.check t).2
  commit : (∃ c, (s.step (.commit id)).1 = .failed (.conflict c)) ∨
    (∃ e, (s.step (.commit id)).1 = .failed (.storage e)) ∧
      ¬ s.engine.store.Served (s.step (.commit id)).2.engine.store

end Session

namespace Engine

variable {g : Engine} {id : TxnId} {t : Txn}

theorem Fresh.active_after (h : g.Fresh) {ops more : List Op} (fits : ∀ op ∈ ops ++ more, op.Fits)
    (active : (g.after ops).Active id t) (others : ∀ op ∈ more, op.owner? ≠ some id) :
    (g.after (ops ++ more)).Active id t := by
  induction more using List.reverseRecOn with
  | nil => rwa [List.append_nil]
  | append_singleton more op ih =>
    rw [← List.append_assoc] at fits ⊢
    have hfits : ∀ op ∈ ops ++ more, op.Fits :=
      fun op' hop' => fits op' (List.mem_append_left _ hop')
    obtain ⟨a, ha⟩ := h.chronicle (ops ++ more) hfits
    rw [after_concat]
    exact ha.active_step (fits op (by simp)) (others op (by simp))
      (ih hfits fun op' hop' => others op' (List.mem_append_left _ hop'))

/-- A conflict that was found is found at every later time, and the commit is refused for one: the
check may come as early as it likes. It holds whatever others do in between, whether they commit,
begin, read, write or end, whether versions are collected, and whichever of their calls fail. -/
theorem Fresh.doomed_of_conflict (h : g.Fresh) {ops more : List Op}
    (fits : ∀ op ∈ ops ++ more, op.Fits) {c : Conflict} (active : (g.after ops).Active id t)
    (found : ((g.after ops).engine.check t).1 = .ok (some c))
    (others : ∀ op ∈ more, op.owner? ≠ some id) : (g.after (ops ++ more)).Doomed id t := by
  obtain ⟨a, ha⟩ := h.chronicle ops fun op hop => fits op (List.mem_append_left _ hop)
  obtain ⟨a', ha'⟩ := h.chronicle (ops ++ more) fits
  have hactive := h.active_after fits active others
  -- the chains of the two times have little in common, but the one history extends the other
  have hover : Commit.Overtake (g.trace (ops ++ more)).commits t := by
    obtain ⟨found', hiff, hcheck⟩ := ha.exists_check active
    rw [trace_append, Trace.commits_append]
    refine (hiff.1 ?_).append _
    rcases hcheck with hok | ⟨⟨e, he⟩, -⟩
    · rw [found] at hok
      cases hok
      exact Option.some_ne_none c
    · rw [found] at he
      cases he
  refine ⟨hactive, ?_, ?_⟩
  · obtain ⟨found', hiff, hcheck⟩ := ha'.exists_check hactive
    obtain ⟨c', rfl⟩ := Option.ne_none_iff_exists'.1 (hiff.2 hover)
    exact hcheck.imp_left fun hok => ⟨c', hok⟩
  · exact (ha'.decides hactive).imp_left fun hdecides => hdecides.conflict_iff.2 hover

/-- The record is written once more before the third transaction commits. -/
theorem doomed_of_conflict_contend :
    let k : RecordKey := ⟨"t", .int 1⟩
    let more : List Op := [.begin, .write ⟨5⟩ k [7], .commit ⟨5⟩, .collect, .issue]
    inMemory.Fresh ∧ (∀ op ∈ contend ++ more, op.Fits) ∧ (∀ op ∈ more, op.owner? ≠ some ⟨3⟩) ∧
      ∃ t, (inMemory.after contend).Active ⟨3⟩ t ∧
        ((inMemory.after contend).engine.check t).1 =
          .ok (some { key := k, kind := .write, committedAt := 6 }) ∧
        (inMemory.after (contend ++ more)).Doomed ⟨3⟩ t ∧
        ((inMemory.after (contend ++ more)).engine.check t).1 =
          .ok (some { key := k, kind := .write, committedAt := 8 }) := by
  intro k more
  let t : Txn := { id := ⟨3⟩, beginTs := 4, writes := (∅ : WriteSet).put k (some [8]) }
  have hfits : ∀ op ∈ contend ++ more, op.Fits := by
    rw [List.forall_mem_append]
    refine ⟨fits_contend, ?_⟩
    simp [more, k, Op.Fits, Op.fits_key, UInt64.size]
  have hothers : ∀ op ∈ more, op.owner? ≠ some ⟨3⟩ := by decide
  have hactive : (inMemory.after contend).Active ⟨3⟩ t := ⟨by decide +kernel, rfl⟩
  have hfound : ((inMemory.after contend).engine.check t).1 =
      .ok (some { key := k, kind := .write, committedAt := 6 }) := by decide +kernel
  exact ⟨fresh_inMemory, hfits, hothers, t, hactive, hfound,
    fresh_inMemory.doomed_of_conflict hfits hactive hfound hothers, by decide +kernel⟩

end Engine

end Mvcc
