import Mvcc.Proofs.Chronicle

/-!
# Snapshot reads

A read of an active transaction finds what the transaction put last under the key, or else what the
last commit before its begin left there. Nothing that happens after the begin changes the latter.

* `Chronicle.read_eq`: the answer to one read.
* `Engine.ReadsSnapshot`, `Fresh.reads_snapshot`: the result for every run of an engine without
  versions.
-/

namespace Mvcc

open Session

namespace Session

variable {s : Session} {id : TxnId} {k : RecordKey}

theorem active_of_found {p : Option Payload} (h : (s.step (.read id k)).1 = .found p) :
    ∃ t, s.Active id t := by
  cases hget : s.held.get? id with
  | none =>
    rw [step, onTxn, hget] at h
    cases h
  | some t =>
    refine ⟨t, hget, ?_⟩
    by_contra hactive
    rw [step_read_of_not_active hget hactive] at h
    cases h

end Session

namespace Trace

variable {tr : Trace} {s : Session} {a : Chains} {id : TxnId} {t : Txn} {k : RecordKey}

/-- What a transaction finds under a key: its own last write, or else its snapshot. -/
def shows (tr : Trace) (id : TxnId) (ts : Timestamp) (k : RecordKey) : Option Payload :=
  (lastPut? (tr.deeds id) k).getD (tr.snapshot ts k)

/-- A read is answered from the transaction's own writes or else from the chain, unless a call on the
storage fails. -/
theorem Records.read_eq (h : tr.Records s) (hs : s.Stands a) (active : s.Active id t) (hk : k.Fits) :
    (s.step (.read id k)).1 = .found ((lastPut? (tr.deeds id) k).getD
        (((a k).visible? t.beginTs).bind (·.payload))) ∨
      (∃ e, (s.step (.read id k)).1 = .failed (.storage e)) ∧
        ¬ s.engine.store.Served (s.step (.read id k)).2.engine.store := by
  obtain ⟨r, g', t', heq, hr⟩ := exists_step_read hs active hk
  rw [h.puts id t active k, heq]
  cases hr with
  | own write engine =>
    rw [write]
    exact Or.inl rfl
  | seen write visible engine =>
    rw [write, ← visible]
    exact Or.inl rfl
  | failed write status engine failed => exact Or.inr ⟨⟨_, rfl⟩, failed⟩

theorem Chronicle.read_eq (h : tr.Chronicle s a) (active : s.Active id t) (hk : k.Fits) :
    (s.step (.read id k)).1 = .found (tr.shows id t.beginTs k) ∨
      (∃ e, (s.step (.read id k)).1 = .failed (.storage e)) ∧
        ¬ s.engine.store.Served (s.step (.read id k)).2.engine.store := by
  rw [shows, ← h.visible_eq active k]
  exact h.records.read_eq h.stands active hk

end Trace

namespace Engine

/-- What a read of an active transaction is answered now and later on. -/
structure ReadsSnapshot (g : Engine) (ops : List Op) (id : TxnId) (t : Txn) (k : RecordKey) :
    Prop where
  began : (g.trace ops).beginTs? id = some t.beginTs
  answer : ((g.after ops).step (.read id k)).1 = .found ((g.trace ops).shows id t.beginTs k) ∨
    (∃ e, ((g.after ops).step (.read id k)).1 = .failed (.storage e)) ∧
      ¬ (g.after ops).engine.store.Served ((g.after ops).step (.read id k)).2.engine.store
  stable : ∀ ops', (∀ op ∈ ops', op.Fits) →
    (g.trace (ops ++ ops')).snapshot t.beginTs = (g.trace ops).snapshot t.beginTs
  repeatable : ∀ ops', (∀ op ∈ ops', op.Fits) →
    lastPut? ((g.trace (ops ++ ops')).deeds id) k = none →
      ∀ p q, ((g.after ops).step (.read id k)).1 = .found p →
        ((g.after (ops ++ ops')).step (.read id k)).1 = .found q → p = q

/-- Every read of an active transaction is answered from its own writes and its snapshot, unless a
call on the storage fails, and neither commits nor collections since its begin change the answer. -/
theorem Fresh.reads_snapshot {g : Engine} (h : g.Fresh) (ops : List Op) (hops : ∀ op ∈ ops, op.Fits)
    {id : TxnId} {t : Txn} (active : (g.after ops).Active id t) {k : RecordKey} (hk : k.Fits) :
    g.ReadsSnapshot ops id t k := by
  obtain ⟨a, ha⟩ := h.chronicle ops hops
  have hread := ha.read_eq active hk
  have hsame : ∀ ops', (∀ op ∈ ops', op.Fits) →
      (g.trace (ops ++ ops')).snapshot t.beginTs = (g.trace ops).snapshot t.beginTs := by
    intro ops' hops'
    obtain ⟨a', -, hsnapshot⟩ := ha.run ops' hops'
    rw [trace_append]
    exact hsnapshot t.beginTs (ha.stands.begin_le id t active)
  refine ⟨ha.records.began id t active, hread, hsame, fun ops' hops' hunwritten p q hp hq => ?_⟩
  obtain ⟨a', ha', -⟩ := ha.run ops' hops'
  rw [← trace_append, ← after_append] at ha'
  obtain ⟨t', active'⟩ := Session.active_of_found hq
  -- it is still the same transaction
  have hbegin : t'.beginTs = t.beginTs := by
    have hbegan := ha'.records.began id t' active'
    rw [trace_append, Trace.beginTs?_append, ha.records.began id t active] at hbegan
    exact (Option.some.inj hbegan).symm
  have hfirst : lastPut? ((g.trace ops).deeds id) k = none := by
    have hunwritten' := hunwritten
    rw [trace_append, Trace.deeds_append, lastPut?_append, Option.or_eq_none_iff] at hunwritten'
    exact hunwritten'.2
  have hread' := ha'.read_eq active' hk
  rw [hq, Trace.shows, hunwritten, hbegin, hsame ops' hops'] at hread'
  rw [hp, Trace.shows, hfirst] at hread
  rcases hread with hread | ⟨⟨e, he⟩, -⟩
  · rcases hread' with hread' | ⟨⟨e, he⟩, -⟩
    · cases hread
      cases hread'
      rfl
    · cases he
  · cases he

/-- The third transaction sees what the first one wrote. -/
theorem reads_snapshot_overlap :
    inMemory.Fresh ∧ (∀ op ∈ Op.overlap, op.Fits) ∧
      (inMemory.after Op.overlap).Active ⟨3⟩ { id := ⟨3⟩, beginTs := 4 } ∧
      RecordKey.Fits ⟨"t", .int 1⟩ ∧
      inMemory.ReadsSnapshot Op.overlap ⟨3⟩ { id := ⟨3⟩, beginTs := 4 } ⟨"t", .int 1⟩ ∧
      (inMemory.trace Op.overlap).shows ⟨3⟩ 4 ⟨"t", .int 1⟩ = some [7] := by
  have active : (inMemory.after Op.overlap).Active ⟨3⟩ { id := ⟨3⟩, beginTs := 4 } :=
    ⟨by decide +kernel, rfl⟩
  exact ⟨fresh_inMemory, Op.fits_overlap, active, Op.fits_key 1,
    fresh_inMemory.reads_snapshot _ Op.fits_overlap active (Op.fits_key 1), by decide +kernel⟩

end Engine

end Mvcc
