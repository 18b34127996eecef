import Mvcc.Proofs.EarlyCheck
import Mvcc.Proofs.SnapshotReads
import Mvcc.Proofs.Steps

/-!
# The scan set as a log

A commit is judged by what its transaction scanned, so a read that leaves no entry would go
unchecked. The scan set is an exact log of the reads of the snapshot: it has one entry for every key
that was read while no own write of it was pending, and nothing else adds, changes or takes away an
entry. Only the first read of a key makes the entry; the later ones found the same.

* `Glimpsed`: the deeds of a transaction hold a read of the snapshot.
* `Session.Handed`, `exists_handed`: what one operation does to a handle, of whatever stage.
* `Trace.Logs`, `Logs.next_of_kept`, `Logs.next_of_seen`: what a handle tells of the deeds.
* `Engine.ScanLog`, `Fresh.scanLog`: the result for every run of an engine without versions.
-/

namespace Mvcc

open Session

/-- Among the deeds is a read of a key that found `p`, with no write of the key pending. -/
def Glimpsed (ds : List Deed) (k : RecordKey) (p : Option Payload) : Prop :=
  ∃ before after, ds = before ++ .read k p :: after ∧ lastPut? before k = none

theorem not_glimpsed_nil (k : RecordKey) (p : Option Payload) : ¬ Glimpsed [] k p := by
  rintro ⟨before, after, h, -⟩
  simp at h

theorem glimpsed_concat {ds : List Deed} {d : Deed} {k : RecordKey} {p : Option Payload} :
    Glimpsed (ds ++ [d]) k p ↔ Glimpsed ds k p ∨ d = .read k p ∧ lastPut? ds k = none := by
  constructor
  · rintro ⟨before, after, h, hput⟩
    rcases List.eq_nil_or_concat' after with rfl | ⟨after, e, rfl⟩
    · obtain ⟨rfl, hd⟩ := List.append_inj' h rfl
      exact Or.inr ⟨by simpa using hd, hput⟩
    · rw [← List.cons_append, ← List.append_assoc] at h
      exact Or.inl ⟨before, after, (List.append_inj' h rfl).1, hput⟩
  · rintro (⟨before, after, rfl, hput⟩ | ⟨rfl, hput⟩)
    · exact ⟨before, after ++ [d], by simp, hput⟩
    · exact ⟨ds, [], rfl, hput⟩

/-! ## Handles -/

namespace Session

variable {s s' : Session} {a : Chains} {op : Op} {r : Reply} {id : TxnId} {t u : Txn}

/-- What an operation with its answer makes of the handle of a transaction. -/
inductive Handed (s : Session) (a : Chains) (id : TxnId) (u : Txn) (e : Event) : Prop
  | begun {clock : Clock} (name : id.number = s.engine.lastId + 1)
    (tick : s.engine.clock.tick? = some clock) (event : e = ⟨.begin, .began id clock.last⟩)
    (handle : u = { id, beginTs := clock.last })
  /-- Reads and snapshot stay, and if this was a read then one of an own write. -/
  | kept {t : Txn} (held : s.held.get? id = some t) (beginTs : u.beginTs = t.beginTs)
    (reads : u.reads = t.reads)
    (own : ∀ k p, e.deed? id = some (.read k p) → s.Active id t ∧ t.writes.get? k ≠ none)
  | seen {t : Txn} {k : RecordKey} (active : s.Active id t) (write : t.writes.get? k = none)
    (event : e = ⟨.read id k, .found (((a k).visible? t.beginTs).bind (·.payload))⟩)
    (handle : u = { t with
      reads := t.reads.record k
        { readTs := t.beginTs, live := (((a k).visible? t.beginTs).bind (·.payload)).isSome } })

/-- The handle was there before, with the reads that it has now but for the one that was just
answered, or it is new. -/
theorem Acts.reads_cases (hs : s.Acts s' op r) (hu : s'.held.get? id = some u) :
    (∃ t, s.held.get? id = some t ∧ u.beginTs = t.beginTs ∧
        (u.reads = t.reads ∨ ∃ k p o, op = .read id k ∧ r = .found p ∧
          u.reads = t.reads.record k o)) ∨
      ∃ clock, id.number = s.engine.lastId + 1 ∧ s.engine.clock.tick? = some clock ∧
        op = .begin ∧ r = .began id clock.last ∧ u = { id, beginTs := clock.last } := by
  rcases hs.held_cases hu with hold | ⟨t, active, moved⟩ | hnew
  · exact Or.inl ⟨u, hold, rfl, Or.inl rfl⟩
  · cases moved with
    | seen => exact Or.inl ⟨t, active.1, rfl, Or.inr ⟨_, _, _, rfl, rfl, rfl⟩⟩
    | put => exact Or.inl ⟨t, active.1, rfl, Or.inl rfl⟩
    | aborted => exact Or.inl ⟨t, active.1, rfl, Or.inl rfl⟩
    | judged judged => cases judged <;> exact Or.inl ⟨t, active.1, rfl, Or.inl rfl⟩
  · exact Or.inr hnew

end Session

theorem Event.exists_of_deed?_read {op : Op} {r : Reply} {id : TxnId} {k : RecordKey}
    {p : Option Payload} (h : Event.deed? ⟨op, r⟩ id = some (.read k p)) :
    op = .read id k ∧ r = .found p := by
  unfold Event.deed? at h
  split at h <;> simp_all

namespace Session

variable {s : Session} {a : Chains} {op : Op} {id : TxnId} {u : Txn}

theorem exists_handed (h : s.Stands a) (fits : op.Fits)
    (hu : (s.step op).2.held.get? id = some u) : s.Handed a id u ⟨op, (s.step op).1⟩ := by
  by_cases hread : ∀ k p, op = .read id k → (s.step op).1 ≠ .found p
  · rcases (acts_step s op).reads_cases hu with
      ⟨t, held, hbegin, hreads⟩ | ⟨clock, name, tick, hop, hreply, handle⟩
    · refine .kept held hbegin (hreads.resolve_right ?_) fun k p hdeed => ?_
      · rintro ⟨k, p, o, hop, hreply, -⟩
        exact hread k p hop hreply
      · obtain ⟨hop, hreply⟩ := Event.exists_of_deed?_read hdeed
        exact absurd hreply (hread k p hop)
    · exact .begun name tick (by rw [hop] at hreply ⊢; rw [hreply]) handle
  · push Not at hread
    obtain ⟨k, p, rfl, hfound⟩ := hread
    obtain ⟨t, active⟩ := active_of_found hfound
    obtain ⟨r, g', t', heq, hr⟩ := exists_step_read h active fits
    rw [heq] at hfound hu ⊢
    obtain rfl : t' = u := by simpa [OrderedMap.get?_insert_self] using hu
    cases hr with
    | own write engine =>
      refine .kept active.1 rfl rfl fun k' q hdeed => ?_
      cases (Event.exists_of_deed?_read hdeed).1
      exact ⟨active, by simp [write]⟩
    | seen write visible engine =>
      subst visible
      exact .seen active write rfl rfl
    | failed write status engine failed => cases hfound

end Session

/-! ## Logs -/

namespace Trace

variable {tr : Trace} {s : Session} {a : Chains} {op : Op} {id : TxnId} {t u : Txn}

/-- The handle of a transaction logs its reads of the snapshot. -/
structure Logs (tr : Trace) (id : TxnId) (t : Txn) : Prop where
  began : tr.beginTs? id = some t.beginTs
  entry_iff : ∀ k o, t.reads.get? k = some o ↔ (∃ p, Glimpsed (tr.deeds id) k p) ∧
    o = { readTs := t.beginTs, live := (tr.snapshot t.beginTs k).isSome }
  found : ∀ k p, Glimpsed (tr.deeds id) k p → p = tr.snapshot t.beginTs k

theorem Records.logs_begun (h : tr.Records s) {clock : Clock}
    (name : id.number = s.engine.lastId + 1) (tick : s.engine.clock.tick? = some clock) :
    (tr ++ [Event.mk .begin (.began id clock.last)]).Logs id { id, beginTs := clock.last } := by
  obtain ⟨hbegin, hdeeds⟩ := (h.unused name tick).2.2 id (UInt64.le_refl _)
  have hnone : (tr ++ [Event.mk .begin (.began id clock.last)]).deeds id = [] := by
    rw [deeds_concat, hdeeds]
    rfl
  refine ⟨?_, fun k o => ?_, fun k p hp => ?_⟩
  · rw [beginTs?_concat, hbegin]
    exact if_pos rfl
  · simp [hnone, not_glimpsed_nil]
  · rw [hnone] at hp
    exact absurd hp (not_glimpsed_nil k p)

theorem Logs.next_of_kept (h : tr.Logs id t) {e : Event} (beginTs : u.beginTs = t.beginTs)
    (reads : u.reads = t.reads)
    (snapshot : (tr ++ [e]).snapshot t.beginTs = tr.snapshot t.beginTs)
    (same : ∀ k p, Glimpsed ((tr ++ [e]).deeds id) k p ↔ Glimpsed (tr.deeds id) k p) :
    (tr ++ [e]).Logs id u := by
  refine ⟨?_, fun k o => ?_, fun k p hp => ?_⟩
  · rw [beginTs?_concat, h.began, beginTs]
    rfl
  · simp only [reads, beginTs, snapshot, same]
    exact h.entry_iff k o
  · rw [beginTs, snapshot]
    exact h.found k p ((same k p).1 hp)

theorem Logs.next_of_seen (h : tr.Logs id t) {e : Event} {k : RecordKey}
    (snapshot : (tr ++ [e]).snapshot t.beginTs = tr.snapshot t.beginTs)
    (grows : ∀ k' p, Glimpsed ((tr ++ [e]).deeds id) k' p ↔
      Glimpsed (tr.deeds id) k' p ∨ k' = k ∧ p = tr.snapshot t.beginTs k) :
    (tr ++ [e]).Logs id { t with
      reads := t.reads.record k
        { readTs := t.beginTs, live := (tr.snapshot t.beginTs k).isSome } } := by
  refine ⟨?_, fun k' o => ?_, fun k' p hp => ?_⟩
  · rw [beginTs?_concat, h.began]
    rfl
  · simp only [ReadSet.record, OrderedMap.get?_insertIfNew, snapshot, grows]
    split_ifs with hk
    · subst hk
      -- an earlier entry of the key says the same
      have hsame : (t.reads.get? k').getD
          { readTs := t.beginTs, live := (tr.snapshot t.beginTs k').isSome } =
          { readTs := t.beginTs, live := (tr.snapshot t.beginTs k').isSome } := by
        cases hget : t.reads.get? k' with
        | none => rfl
        | some o' => exact ((h.entry_iff k' o').1 hget).2
      rw [hsame, Option.some_inj, eq_comm]
      exact (and_iff_right ⟨_, Or.inr ⟨rfl, rfl⟩⟩).symm
    · simp only [hk, false_and, or_false]
      exact h.entry_iff k' o
  · rw [snapshot]
    rcases (grows k' p).1 hp with hp | ⟨rfl, rfl⟩
    · exact h.found k' p hp
    · rfl

theorem glimpsed_of_kept {e : Event} (own : ∀ k p, e.deed? id = some (.read k p) →
      lastPut? (tr.deeds id) k ≠ none) (k : RecordKey) (p : Option Payload) :
    Glimpsed ((tr ++ [e]).deeds id) k p ↔ Glimpsed (tr.deeds id) k p := by
  rw [deeds_concat]
  cases hdeed : e.deed? id with
  | none => simp
  | some d =>
    rw [Option.toList_some, glimpsed_concat]
    refine or_iff_left ?_
    rintro ⟨rfl, hput⟩
    exact own k p hdeed hput

theorem Chronicle.logs_step (h : tr.Chronicle s a) (fits : op.Fits)
    (logs : ∀ t, s.held.get? id = some t → t.beginTs ≤ s.engine.clock.last ∧ tr.Logs id t)
    (hu : (s.step op).2.held.get? id = some u) :
    u.beginTs ≤ (s.step op).2.engine.clock.last ∧ (tr ++ [Event.mk op (s.step op).1]).Logs id u := by
  obtain ⟨a', hm⟩ := exists_moves h.stands fits
  have hclock := hm.clock_le
  cases exists_handed h.stands fits hu with
  | begun name tick event handle =>
    subst handle
    refine ⟨(hm.stands h.stands fits).begin_le id _ ⟨hu, rfl⟩, ?_⟩
    rw [event]
    exact h.records.logs_begun name tick
  | @kept t held beginTs reads own =>
    obtain ⟨hle, hlogs⟩ := logs t held
    have hsnapshot := h.ordered.snapshot_next h.records hm (UInt64.le_trans hle hclock)
    refine ⟨beginTs ▸ UInt64.le_trans hle hclock, ?_⟩
    refine hlogs.next_of_kept beginTs reads hsnapshot (glimpsed_of_kept fun k p hdeed => ?_)
    obtain ⟨active, write⟩ := own k p hdeed
    rw [h.records.puts id t active]
    simpa using write
  | @seen t k active write event handle =>
    obtain ⟨hle, hlogs⟩ := logs t active.1
    have hsnapshot := h.ordered.snapshot_next h.records hm (UInt64.le_trans hle hclock)
    rw [h.visible_eq active] at event handle
    rw [event] at hsnapshot ⊢
    subst handle
    refine ⟨UInt64.le_trans hle hclock, hlogs.next_of_seen hsnapshot fun k' p => ?_⟩
    have hput : lastPut? (tr.deeds id) k = none := by simp [h.records.puts id t active, write]
    have hdeed : Event.deed? ⟨.read id k, .found (tr.snapshot t.beginTs k)⟩ id =
        some (.read k (tr.snapshot t.beginTs k)) := if_pos rfl
    rw [deeds_concat, hdeed, Option.toList_some, glimpsed_concat, Deed.read.injEq]
    refine or_congr_right ⟨?_, ?_⟩
    · rintro ⟨⟨rfl, rfl⟩, -⟩
      exact ⟨rfl, rfl⟩
    · rintro ⟨rfl, rfl⟩
      exact ⟨⟨rfl, rfl⟩, hput⟩

end Trace

namespace Engine

variable {g : Engine} {ops : List Op} {id : TxnId} {t : Txn}

theorem Fresh.logs (h : g.Fresh) (fits : ∀ op ∈ ops, op.Fits)
    (held : (g.after ops).held.get? id = some t) :
    t.beginTs ≤ (g.after ops).engine.clock.last ∧ (g.trace ops).Logs id t := by
  induction ops using List.reverseRecOn generalizing t with
  | nil => cases held
  | append_singleton ops op ih =>
    have hfits : ∀ op ∈ ops, op.Fits := fun op' hop' => fits op' (List.mem_append_left _ hop')
    obtain ⟨a, ha⟩ := h.chronicle ops hfits
    rw [after_concat] at held ⊢
    rw [trace_concat]
    exact ha.logs_step (fits op (by simp)) (fun t ht => ih hfits ht) held

/-- What the scan set of a transaction tells of its reads, and what does not touch it. -/
structure ScanLog (g : Engine) (ops : List Op) (id : TxnId) (t : Txn) : Prop where
  began : (g.trace ops).beginTs? id = some t.beginTs
  /-- What is pending is what the transaction put last. -/
  pending : t.status = .active → ∀ k,
    lastPut? ((g.trace ops).deeds id) k = (t.writes.get? k).map (·.payload)
  nodup : t.reads.keys.Nodup
  entry_iff : ∀ k o, (k, o) ∈ t.reads.toList ↔
    (∃ p, Glimpsed ((g.trace ops).deeds id) k p) ∧
      o = { readTs := t.beginTs, live := ((g.trace ops).snapshot t.beginTs k).isSome }
  live_iff : ∀ k o, (k, o) ∈ t.reads.toList →
    (o.live = true ↔ ∀ p, Glimpsed ((g.trace ops).deeds id) k p → p.isSome = true)
  kept : ∀ op u, (∀ k, op ≠ .read id k) → ((g.after ops).step op).2.held.get? id = some u →
    u.reads = t.reads
  extended : ∀ op u, ((g.after ops).step op).2.held.get? id = some u →
    ∀ e ∈ t.reads.toList, e ∈ u.reads.toList

theorem Fresh.reads_step (h : g.Fresh) (fits : ∀ op ∈ ops, op.Fits)
    (held : (g.after ops).held.get? id = some t) {op : Op} {u : Txn}
    (hu : ((g.after ops).step op).2.held.get? id = some u) :
    u.reads = t.reads ∨ ∃ k o, op = .read id k ∧ u.reads = t.reads.record k o := by
  obtain ⟨a, ha⟩ := h.chronicle ops fits
  rcases (acts_step (g.after ops) op).reads_cases hu with
    ⟨t', held', -, hreads⟩ | ⟨clock, name, tick, -⟩
  · obtain rfl : t = t' := Option.some.inj (held.symm.trans held')
    refine hreads.imp_right ?_
    rintro ⟨k, -, o, hop, -, hreads⟩
    exact ⟨k, o, hop, hreads⟩
  · -- the name was given before
    have hbegan := (h.logs fits held).2.began
    rw [((ha.records.unused name tick).2.2 id (UInt64.le_refl _)).1] at hbegan
    cases hbegan

/-- The scan set of a transaction of any stage is an exact log of its reads of the snapshot. -/
theorem Fresh.scanLog (h : g.Fresh) (fits : ∀ op ∈ ops, op.Fits)
    (held : (g.after ops).held.get? id = some t) : g.ScanLog ops id t := by
  obtain ⟨a, ha⟩ := h.chronicle ops fits
  have hlogs := (h.logs fits held).2
  refine
    { began := hlogs.began
      pending := fun active k => ha.records.puts id t ⟨held, active⟩ k
      nodup := t.reads.nodup_keys
      entry_iff := fun k o => (OrderedMap.mem_toList_iff _ _ _).trans (hlogs.entry_iff k o)
      live_iff := fun k o ho => ?_
      kept := fun op u hop hu => ?_
      extended := fun op u hu e he => ?_ }
  · rw [OrderedMap.mem_toList_iff, hlogs.entry_iff] at ho
    obtain ⟨⟨p, hp⟩, rfl⟩ := ho
    refine ⟨fun hlive q hq => hlogs.found k q hq ▸ hlive, fun hall => ?_⟩
    exact hlogs.found k p hp ▸ hall p hp
  · refine (h.reads_step fits held hu).resolve_right ?_
    rintro ⟨k, o, rfl, -⟩
    exact hop k rfl
  · obtain ⟨k, o⟩ := e
    rw [OrderedMap.mem_toList_iff] at he ⊢
    rcases h.reads_step fits held hu with hreads | ⟨k', o', -, hreads⟩
    · rwa [hreads]
    · rw [hreads, ReadSet.record, OrderedMap.get?_insertIfNew]
      split_ifs with hk
      · rw [← hk, he, Option.getD_some]
      · exact he

/-- The second transaction reads one record before and after another commit of it, then a record
that nobody wrote, then what it wrote itself, and is aborted. -/
theorem scanLog_revisit :
    let k : RecordKey := ⟨"t", .int 1⟩
    let k' : RecordKey := ⟨"t", .int 2⟩
    let ops : List Op := [.begin, .write ⟨1⟩ k [7], .commit ⟨1⟩, .begin, .read ⟨2⟩ k, .begin,
      .write ⟨3⟩ k [8], .commit ⟨3⟩, .read ⟨2⟩ k, .read ⟨2⟩ k', .write ⟨2⟩ ⟨"t", .int 3⟩ [9],
      .read ⟨2⟩ ⟨"t", .int 3⟩, .abort ⟨2⟩]
    inMemory.Fresh ∧ (∀ op ∈ ops, op.Fits) ∧
      ∃ t, (inMemory.after ops).held.get? ⟨2⟩ = some t ∧ t.status = .aborted ∧
        inMemory.ScanLog ops ⟨2⟩ t ∧
        t.reads.toList = [(k, { readTs := 3, live := true }), (k', { readTs := 3, live := false })] := by
  intro k k' ops
  have hfits : ∀ op ∈ ops, op.Fits := by simp [ops, k, k', Op.Fits, Op.fits_key, UInt64.size]
  let reads : ReadSet := ((∅ : ReadSet).record k { readTs := 3, live := true }).record k'
    { readTs := 3, live := false }
  have hheld : (inMemory.after ops).held.get? ⟨2⟩ =
      some { id := ⟨2⟩, beginTs := 3, status := .aborted, reads } := by decide +kernel
  exact ⟨fresh_inMemory, hfits, _, hheld, rfl, fresh_inMemory.scanLog hfits hheld,
    by decide +kernel⟩

end Engine

end Mvcc
