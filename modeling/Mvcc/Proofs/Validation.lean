import Mvcc.Engine.Commit
import Mvcc.Proofs.Store

/-!
# Validation over chains

The judgement of a commit as a function of the chains that a tree stands for.

* `Chains.conflict?`, `Chains.draft`, `Chains.judge`, with `Encodes.answers_judge`.
* `conflict?_eq_none_iff`: no conflict means that nothing the transaction depends on has a last
  version from after its snapshot.
* `conflict?_eq_none_of_le`: over any chains, no conflict comes from before the snapshot.
-/

namespace Mvcc

/-- Whether the lengths in a footprint fit their fields. -/
structure Txn.Fits (t : Txn) : Prop where
  reads : ∀ e ∈ t.reads.toList, e.1.Fits
  writes : ∀ e ∈ t.writes.toList, e.1.Fits ∧ ∀ p ∈ e.2.payload, p.length < UInt64.size

namespace Chains

/-- When the open version of a record began, if that was after `since`. -/
def committedAfter? (a : Chains) (k : RecordKey) (since : Timestamp) : Option Timestamp :=
  ((a k).latest?.map (·.beginTs)).filter fun ts => decide (since < ts)

/-- The conflict of one read, at the time `upper`. -/
def conflictOfRead? (a : Chains) (k : RecordKey) (o : Observation) (upper : Timestamp) :
    Option Conflict :=
  ((a.committedAfter? k o.readTs).filter fun ts => decide (ts ≤ upper)).map fun ts =>
    { key := k, kind := .read, committedAt := ts }

/-- The conflict of one write of a transaction that began at `beginTs`. -/
def conflictOfWrite? (a : Chains) (k : RecordKey) (beginTs : Timestamp) : Option Conflict :=
  (a.committedAfter? k beginTs).map fun ts => { key := k, kind := .write, committedAt := ts }

/-- The first conflict of a read. -/
def readConflict? (a : Chains) (reads : ReadSet) (upper : Timestamp) : Option Conflict :=
  reads.toList.findSome? fun e => a.conflictOfRead? e.1 e.2 upper

/-- The first conflict of a write. -/
def writeConflict? (a : Chains) (writes : WriteSet) (beginTs : Timestamp) : Option Conflict :=
  writes.toList.findSome? fun e => a.conflictOfWrite? e.1 beginTs

/-- The first conflict, reads before writes. -/
def conflict? (a : Chains) (t : Txn) (upper : Timestamp) : Option Conflict :=
  (a.readConflict? t.reads upper).or (a.writeConflict? t.writes t.beginTs)

/-- Numbers a write: one more than the open version of the record, or zero. -/
def draft (a : Chains) (k : RecordKey) (w : Write) : Draft :=
  { payload := w.payload
    number := match (a k).latest? with
      | none => 0
      | some v => v.number + 1 }

/-- Validation, and the versions to be made of the writes. -/
def judge (a : Chains) (t : Txn) (upper : Timestamp) : Judgement :=
  match a.conflict? t upper with
  | some c => .conflict c
  | none => if t.writes.isEmpty then .readOnly else .ready (t.writes.mapValues a.draft)

theorem committedAfter?_eq_some_iff {a : Chains} {k : RecordKey}
    (h : ∀ v ∈ (a k).getLast?, v.endTs = none) {since ts : Timestamp} :
    a.committedAfter? k since = some ts ↔
      ∃ v, (a k).getLast? = some v ∧ v.beginTs = ts ∧ since < ts := by
  rw [committedAfter?, Chain.latest?_eq_getLast? h]
  cases (a k).getLast? with
  | none => simp
  | some v =>
    rw [Option.map_some, Option.filter_eq_some_iff]
    simp only [Option.some.injEq, decide_eq_true_eq]
    constructor
    · rintro ⟨rfl, hlt⟩
      exact ⟨v, rfl, rfl, hlt⟩
    · rintro ⟨v, rfl, rfl, hlt⟩
      exact ⟨rfl, hlt⟩

theorem conflict?_eq_none_iff {a : Chains} (h : ∀ k, (a k).Linked) (t : Txn) (upper : Timestamp) :
    a.conflict? t upper = none ↔
      (∀ e ∈ t.reads.toList, ∀ v ∈ (a e.1).getLast?,
        e.2.readTs < v.beginTs → upper < v.beginTs) ∧
      ∀ e ∈ t.writes.toList, ∀ v ∈ (a e.1).getLast?, v.beginTs ≤ t.beginTs := by
  rw [conflict?, Option.or_eq_none_iff, readConflict?, writeConflict?, List.findSome?_eq_none_iff,
    List.findSome?_eq_none_iff]
  refine and_congr (forall₂_congr fun e _ => ?_) (forall₂_congr fun e _ => ?_)
  · rw [conflictOfRead?, Option.map_eq_none_iff, Option.filter_eq_none_iff]
    constructor
    · intro hnone v hv hlt
      have := hnone v.beginTs ((committedAfter?_eq_some_iff (h e.1).open_last).2 ⟨v, hv, rfl, hlt⟩)
      simpa using this
    · intro hlate ts hts
      obtain ⟨v, hv, rfl, hlt⟩ := (committedAfter?_eq_some_iff (h e.1).open_last).1 hts
      simpa using hlate v hv hlt
  · rw [conflictOfWrite?, Option.map_eq_none_iff, Option.eq_none_iff_forall_ne_some]
    constructor
    · intro hnone v hv
      rw [← UInt64.not_lt]
      exact fun hlt => hnone _ ((committedAfter?_eq_some_iff (h e.1).open_last).2 ⟨v, hv, rfl, hlt⟩)
    · intro hle ts hts
      obtain ⟨v, hv, rfl, hlt⟩ := (committedAfter?_eq_some_iff (h e.1).open_last).1 hts
      exact absurd (hle v hv) (UInt64.not_le.2 hlt)

theorem conflict?_eq_none_of_le {a : Chains} {t : Txn}
    (reads : ∀ k o, t.reads.get? k = some o → o.readTs = t.beginTs)
    (h : ∀ k, ∀ v ∈ a k, v.beginTs ≤ t.beginTs) (upper : Timestamp) :
    a.conflict? t upper = none := by
  have hlate (k : RecordKey) : a.committedAfter? k t.beginTs = none := by
    unfold committedAfter?
    cases hl : (a k).latest? with
    | none => rfl
    | some v =>
      have hv : v ∈ a k := List.mem_of_getLast? (Option.filter_eq_some_iff.1 hl).1
      simpa using h k v hv
  rw [conflict?, Option.or_eq_none_iff, readConflict?, writeConflict?, List.findSome?_eq_none_iff,
    List.findSome?_eq_none_iff]
  refine ⟨fun e he => ?_, fun e _ => ?_⟩
  · rw [conflictOfRead?, reads e.1 e.2 ((OrderedMap.mem_toList_iff _ _ _).1 he), hlate]
    rfl
  · rw [conflictOfWrite?, hlate]
    rfl

end Chains

/-- Validation looks at nothing but open versions. -/
theorem Probe.answers_conflict? {t : Tree} {a : Chains} {reads : ReadSet} {writes : WriteSet}
    (hreads : ∀ e ∈ reads.toList, (latest? e.1).Answers t (.ok (a e.1).latest?))
    (hwrites : ∀ e ∈ writes.toList, (latest? e.1).Answers t (.ok (a e.1).latest?))
    (beginTs upper : Timestamp) :
    (conflict? reads writes beginTs upper).Answers t
      (.ok ((a.readConflict? reads upper).or (a.writeConflict? writes beginTs))) := by
  have hread : (readConflict? reads upper).Answers t (.ok (a.readConflict? reads upper)) :=
    answers_firstSome fun e he => ((hreads e he).map _).map _
  have hwrite : (writeConflict? writes beginTs).Answers t (.ok (a.writeConflict? writes beginTs)) :=
    answers_firstSome fun e he => ((hwrites e he).map _).map _
  refine hread.bind ?_
  cases a.readConflict? reads upper with
  | some c => exact answers_pure _
  | none => exact hwrite

namespace Tree

variable {t : Tree} {a : Chains}

theorem Encodes.answers_committedAfter? (h : Encodes t a) {k : RecordKey} (hk : k.Fits)
    (since : Timestamp) :
    (Probe.committedAfter? k since).Answers t (.ok (a.committedAfter? k since)) :=
  (h.answers_latest? hk).map _

theorem Encodes.answers_conflict? (h : Encodes t a) {x : Txn} (hx : x.Fits) (upper : Timestamp) :
    (Probe.conflict? x.reads x.writes x.beginTs upper).Answers t (.ok (a.conflict? x upper)) :=
  Probe.answers_conflict? (fun e he => h.answers_latest? (hx.reads e he))
    (fun e he => h.answers_latest? (hx.writes e he).1) x.beginTs upper

theorem Encodes.answers_draft (h : Encodes t a) {k : RecordKey} (hk : k.Fits) (w : Write) :
    (Probe.draft k w).Answers t (.ok (a.draft k w)) := by
  refine (h.answers_latest? hk).bind ?_
  rw [Chains.draft]
  cases (a k).latest? with
  | none => exact (Probe.answers_pure _).bind (Probe.answers_pure _)
  | some v => exact (Probe.answers_pure _).bind (Probe.answers_pure _)

theorem Encodes.answers_judge (h : Encodes t a) {x : Txn} (hx : x.Fits) (upper : Timestamp) :
    (Probe.judge x upper).Answers t (.ok (a.judge x upper)) := by
  have hconflict := h.answers_conflict? hx upper
  refine hconflict.bind ?_
  rw [Chains.judge]
  cases hc : a.conflict? x upper with
  | some c => exact Probe.answers_pure _
  | none =>
    rw [hc] at hconflict
    refine hconflict.bind ?_
    show (if x.writes.isEmpty = true then _ else _ : Probe Judgement).Answers t
      (.ok (if x.writes.isEmpty = true then _ else _))
    split_ifs
    · exact Probe.answers_pure _
    · exact (Probe.answers_mapValuesM _ fun e he =>
        h.answers_draft (hx.writes e he).1 e.2).bind (Probe.answers_pure _)

end Tree

end Mvcc
