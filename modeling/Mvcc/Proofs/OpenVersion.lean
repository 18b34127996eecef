import Mvcc.Proofs.CommitDecision
import Mvcc.Proofs.Refinement

/-!
# Checking the open version is enough

The rule of validation speaks of all versions of a record: a scanned record must have none that
began after it was read and by the time of the check, a written record none that began after the
transaction. Validation looks at one version of each record, the open one. Both come to the same
where begins ascend along the chain, the last version is open and nothing that was scanned began
after the time of the check. Nothing else need be known of the store.

* `Probe.answers_chainIn`: what a record is read as, in any tree.
* `Chain.OpenEnded`, `OpenEnded.exists_after_iff`: the last version stands for all of them.
* `Chains.ReadLate`, `Chains.WrittenLate`: the rule.
* `Chains.Validates`: what the rule makes of a footprint.
* `Store.validates`: the result for every store.
-/

namespace Mvcc

open Store (chainIn)

/-! ## Chains as a store tells them -/

namespace Probe

variable {t : Tree} {k : RecordKey}

theorem answers_chainIn (t : Tree) (k : RecordKey) : (chain k).Answers t (chainIn t k) := by
  have hchain := answers_chain t k
  rwa [← Store.reading_ofTree hchain] at hchain

theorem answers_latest_of_chainIn {c : Chain} (h : chainIn t k = .ok c) :
    (latest? k).Answers t (.ok c.latest?) := by
  have hchain := answers_chainIn t k
  rw [h] at hchain
  exact hchain.map _

end Probe

/-! ## The last version stands for the chain -/

namespace Chain

variable {c : Chain} {since : Timestamp}

/-- Begins ascend along the chain, and the last version is open. -/
structure OpenEnded (c : Chain) : Prop where
  ascending : c.Pairwise fun u v => u.beginTs < v.beginTs
  open_last : ∀ v ∈ c.getLast?, v.endTs = none

instance : Decidable c.OpenEnded :=
  decidable_of_iff
    ((c.Pairwise fun u v => u.beginTs < v.beginTs) ∧ ∀ v ∈ c.getLast?, v.endTs = none)
    ⟨fun h => ⟨h.1, h.2⟩, fun h => ⟨h.ascending, h.open_last⟩⟩

/-- The chains that an engine keeps are open-ended, so what follows is about them too. -/
theorem Linked.openEnded (h : c.Linked) : c.OpenEnded :=
  ⟨h.pairwise.imp fun hbefore => hbefore.2, h.open_last⟩

theorem OpenEnded.exists_after_iff (h : c.OpenEnded) :
    (∃ v ∈ c, since < v.beginTs) ↔ ∃ v, c.getLast? = some v ∧ since < v.beginTs := by
  constructor
  · rintro ⟨v, hv, hlt⟩
    obtain ⟨before, last, rfl⟩ := (List.eq_nil_or_concat' c).resolve_left (List.ne_nil_of_mem hv)
    refine ⟨last, List.getLast?_concat, ?_⟩
    rcases List.mem_append.1 hv with hv | hv
    · exact UInt64.lt_trans hlt ((List.pairwise_append.1 h.ascending).2.2 v hv last (by simp))
    · rwa [← List.mem_singleton.1 hv]
  · rintro ⟨v, hv, hlt⟩
    exact ⟨v, List.mem_of_getLast? hv, hlt⟩

end Chain

/-! ## The rule -/

namespace Chains

variable {a : Chains} {reads : ReadSet} {writes : WriteSet} {beginTs upper : Timestamp}
  {k : RecordKey} {o : Observation} {c : Conflict}

/-- A scanned record has a version that began after it was read, and by the time of the check. -/
def ReadLate (a : Chains) (reads : ReadSet) (upper : Timestamp) (k : RecordKey) : Prop :=
  ∃ o, reads.get? k = some o ∧ ∃ v ∈ a k, o.readTs < v.beginTs ∧ v.beginTs ≤ upper

/-- A written record has a version that began after the transaction. -/
def WrittenLate (a : Chains) (writes : WriteSet) (beginTs : Timestamp) (k : RecordKey) : Prop :=
  writes.contains k = true ∧ ∃ v ∈ a k, beginTs < v.beginTs

/-- A conflict names the begin of the last version of its record. -/
def Dated (a : Chains) (c : Conflict) : Prop :=
  ∃ v, (a c.key).getLast? = some v ∧ v.beginTs = c.committedAt

/-- What is found in a footprint: a conflict if some record is late, one of a read if there is any,
and else that of the least record written late. -/
structure Validates (a : Chains) (reads : ReadSet) (writes : WriteSet) (beginTs upper : Timestamp)
    (found : Option Conflict) : Prop where
  conflict_iff : (∃ c, found = some c) ↔
    (∃ k, a.ReadLate reads upper k) ∨ ∃ k, a.WrittenLate writes beginTs k
  read : (∃ k, a.ReadLate reads upper k) →
    ∀ c, found = some c → c.kind = .read ∧ a.ReadLate reads upper c.key
  write : (¬ ∃ k, a.ReadLate reads upper k) →
    ∀ c, found = some c → c.kind = .write ∧ a.WrittenLate writes beginTs c.key ∧
      ∀ k, a.WrittenLate writes beginTs k → c.key = k ∨ compare c.key k = .lt
  dated : ∀ c, found = some c → a.Dated c

theorem conflictOfRead?_eq_some_iff (h : (a k).OpenEnded) (hupper : ∀ v ∈ a k, v.beginTs ≤ upper) :
    a.conflictOfRead? k o upper = some c ↔
      ∃ v, (a k).getLast? = some v ∧ o.readTs < v.beginTs ∧
        c = { key := k, kind := .read, committedAt := v.beginTs } := by
  simp only [conflictOfRead?, Option.map_eq_some_iff, Option.filter_eq_some_iff,
    committedAfter?_eq_some_iff h.open_last, decide_eq_true_eq]
  constructor
  · rintro ⟨_, ⟨⟨v, hv, rfl, hlt⟩, -⟩, rfl⟩
    exact ⟨v, hv, hlt, rfl⟩
  · rintro ⟨v, hv, hlt, rfl⟩
    exact ⟨_, ⟨⟨v, hv, rfl, hlt⟩, hupper v (List.mem_of_getLast? hv)⟩, rfl⟩

theorem conflictOfWrite?_eq_some_iff (h : (a k).OpenEnded) :
    a.conflictOfWrite? k beginTs = some c ↔
      ∃ v, (a k).getLast? = some v ∧ beginTs < v.beginTs ∧
        c = { key := k, kind := .write, committedAt := v.beginTs } := by
  simp only [conflictOfWrite?, Option.map_eq_some_iff, committedAfter?_eq_some_iff h.open_last]
  constructor
  · rintro ⟨_, ⟨v, hv, rfl, hlt⟩, rfl⟩
    exact ⟨v, hv, hlt, rfl⟩
  · rintro ⟨v, hv, hlt, rfl⟩
    exact ⟨_, ⟨v, hv, rfl, hlt⟩, rfl⟩

theorem readLate_of_readConflict?
    (h : ∀ e ∈ reads.toList, (a e.1).OpenEnded ∧ ∀ v ∈ a e.1, v.beginTs ≤ upper)
    (hc : a.readConflict? reads upper = some c) :
    c.kind = .read ∧ a.ReadLate reads upper c.key ∧ a.Dated c := by
  obtain ⟨⟨k, o⟩, hmem, hfound⟩ := List.exists_of_findSome?_eq_some hc
  obtain ⟨hopen, hupper⟩ := h (k, o) hmem
  obtain ⟨v, hv, hlt, rfl⟩ := (conflictOfRead?_eq_some_iff hopen hupper).1 hfound
  have hin := List.mem_of_getLast? hv
  exact ⟨rfl, ⟨o, (OrderedMap.mem_toList_iff _ _ _).1 hmem, v, hin, hlt, hupper v hin⟩, v, hv, rfl⟩

theorem readConflict?_ne_none
    (h : ∀ e ∈ reads.toList, (a e.1).OpenEnded ∧ ∀ v ∈ a e.1, v.beginTs ≤ upper)
    (hlate : a.ReadLate reads upper k) : a.readConflict? reads upper ≠ none := by
  obtain ⟨o, ho, v, hv, hlt, -⟩ := hlate
  have hmem : (k, o) ∈ reads.toList := (OrderedMap.mem_toList_iff _ _ _).2 ho
  obtain ⟨hopen, hupper⟩ := h (k, o) hmem
  obtain ⟨last, hlast, hafter⟩ := hopen.exists_after_iff.1 ⟨v, hv, hlt⟩
  intro hnone
  have hno := List.findSome?_eq_none_iff.1 hnone (k, o) hmem
  rw [(conflictOfRead?_eq_some_iff hopen hupper).2 ⟨last, hlast, hafter, rfl⟩] at hno
  cases hno

theorem exists_conflictOfWrite? (h : ∀ e ∈ writes.toList, (a e.1).OpenEnded)
    (hlate : a.WrittenLate writes beginTs k) :
    ∃ w, (k, w) ∈ writes.toList ∧ a.conflictOfWrite? k beginTs ≠ none := by
  obtain ⟨hk, hv⟩ := hlate
  obtain ⟨w, hw⟩ := (OrderedMap.contains_iff _ _).1 hk
  have hmem : (k, w) ∈ writes.toList := (OrderedMap.mem_toList_iff _ _ _).2 hw
  have hopen := h (k, w) hmem
  obtain ⟨last, hlast, hafter⟩ := hopen.exists_after_iff.1 hv
  rw [(conflictOfWrite?_eq_some_iff hopen).2 ⟨last, hlast, hafter, rfl⟩]
  exact ⟨w, hmem, Option.some_ne_none _⟩

theorem writtenLate_of_writeConflict? (h : ∀ e ∈ writes.toList, (a e.1).OpenEnded)
    (hc : a.writeConflict? writes beginTs = some c) :
    c.kind = .write ∧ a.WrittenLate writes beginTs c.key ∧ a.Dated c ∧
      ∀ k, a.WrittenLate writes beginTs k → c.key = k ∨ compare c.key k = .lt := by
  obtain ⟨⟨k, w⟩, hmem, hfound, hfirst⟩ := findSome?_first writes.ascending hc
  obtain ⟨v, hv, hlt, rfl⟩ := (conflictOfWrite?_eq_some_iff (h (k, w) hmem)).1 hfound
  have hk : writes.contains k = true :=
    (OrderedMap.contains_iff _ _).2 ⟨w, (OrderedMap.mem_toList_iff _ _ _).1 hmem⟩
  refine ⟨rfl, ⟨hk, v, List.mem_of_getLast? hv, hlt⟩, ⟨v, hv, rfl⟩, fun k' hlate => ?_⟩
  obtain ⟨w', hmem', hne⟩ := exists_conflictOfWrite? h hlate
  exact (hfirst (k', w') hmem' hne).imp_left fun he => (congrArg Prod.fst he).symm

theorem writeConflict?_ne_none (h : ∀ e ∈ writes.toList, (a e.1).OpenEnded)
    (hlate : a.WrittenLate writes beginTs k) : a.writeConflict? writes beginTs ≠ none := by
  obtain ⟨w, hmem, hne⟩ := exists_conflictOfWrite? h hlate
  exact fun hnone => hne (List.findSome?_eq_none_iff.1 hnone (k, w) hmem)

/-- Where chains are open-ended, their last versions are enough to judge a footprint. -/
theorem validates_of_openEnded
    (hreads : ∀ e ∈ reads.toList, (a e.1).OpenEnded ∧ ∀ v ∈ a e.1, v.beginTs ≤ upper)
    (hwrites : ∀ e ∈ writes.toList, (a e.1).OpenEnded) :
    a.Validates reads writes beginTs upper
      ((a.readConflict? reads upper).or (a.writeConflict? writes beginTs)) := by
  cases hread : a.readConflict? reads upper with
  | some c =>
    obtain ⟨hkind, hlate, hdated⟩ := readLate_of_readConflict? hreads hread
    rw [Option.some_or]
    refine ⟨iff_of_true ⟨c, rfl⟩ (Or.inl ⟨_, hlate⟩), fun _ c' hc' => ?_, fun hno => ?_,
      fun c' hc' => ?_⟩
    · cases hc'
      exact ⟨hkind, hlate⟩
    · exact absurd ⟨_, hlate⟩ hno
    · cases hc'
      exact hdated
  | none =>
    -- only now are writes looked at
    have hno : ¬ ∃ k, a.ReadLate reads upper k :=
      fun ⟨k, hlate⟩ => readConflict?_ne_none hreads hlate hread
    rw [Option.none_or]
    refine ⟨⟨fun ⟨c, hc⟩ => ?_, fun hlate => ?_⟩, fun hlate => absurd hlate hno, fun _ c hc => ?_,
      fun c hc => ?_⟩
    · exact Or.inr ⟨_, (writtenLate_of_writeConflict? hwrites hc).2.1⟩
    · obtain ⟨k, hlate⟩ := hlate.resolve_left hno
      exact Option.ne_none_iff_exists'.1 (writeConflict?_ne_none hwrites hlate)
    · obtain ⟨hkind, hlate, -, hfirst⟩ := writtenLate_of_writeConflict? hwrites hc
      exact ⟨hkind, hlate, hfirst⟩
    · exact (writtenLate_of_writeConflict? hwrites hc).2.2.1

end Chains

namespace Store

variable {s : Store} {a : Chains} {reads : ReadSet} {writes : WriteSet} {upper : Timestamp}

/-- Validation finds what the rule says, though it looks at the open versions alone: on every store
that tells the chains of the footprint open-ended, and at every time that nothing scanned began
after. -/
theorem validates (beginTs : Timestamp)
    (scanned : ∀ e ∈ reads.toList,
      chainIn s.tree e.1 = .ok (a e.1) ∧ (a e.1).OpenEnded ∧ ∀ v ∈ a e.1, v.beginTs ≤ upper)
    (written : ∀ e ∈ writes.toList, chainIn s.tree e.1 = .ok (a e.1) ∧ (a e.1).OpenEnded)
    (served : s.Served (s.reading (Probe.conflict? reads writes beginTs upper)).2) :
    ∃ found, (s.reading (Probe.conflict? reads writes beginTs upper)).1 = .ok found ∧
      a.Validates reads writes beginTs upper found := by
  have hanswers := Probe.answers_conflict?
    (fun e he => Probe.answers_latest_of_chainIn (scanned e he).1)
    (fun e he => Probe.answers_latest_of_chainIn (written e he).1) beginTs upper
  obtain ⟨r, s', heq, -, hr⟩ := exists_reading hanswers
  rw [heq] at served ⊢
  refine ⟨_, hr.resolve_right fun hfailed => hfailed.2 served, ?_⟩
  exact Chains.validates_of_openEnded (fun e he => (scanned e he).2) fun e he => (written e he).2

/-- Read when its last version began, the scanned record is not late, and of the two that are
written late the least is found; read earlier, the scanned one is found. -/
theorem validates_two :
    let k (n : Nat) : RecordKey := ⟨"t", .int (.ofNat n)⟩
    let v (n : Nat) (number : UInt64) (beginTs : Timestamp) : Version :=
      { key := k n, number, payload := some [7], beginTs }
    let s := (Request.run serve Store.empty
      [.install [v 1 0 2, v 2 0 2], .install [v 1 1 5], .install [v 2 1 6]]).2
    let a : Chains := fun k => (chainIn s.tree k).toOption.getD []
    let reads (readTs : Timestamp) : ReadSet := (∅ : ReadSet).record (k 2) { readTs, live := true }
    let writes : WriteSet := ((∅ : WriteSet).put (k 2) none).put (k 1) (some [9])
    (∃ found, (s.reading (Probe.conflict? (reads 6) writes 4 9)).1 = .ok found ∧
        a.Validates (reads 6) writes 4 9 found) ∧
      (s.reading (Probe.conflict? (reads 6) writes 4 9)).1 =
        .ok (some { key := k 1, kind := .write, committedAt := 5 }) ∧
      (∃ found, (s.reading (Probe.conflict? (reads 4) writes 4 9)).1 = .ok found ∧
        a.Validates (reads 4) writes 4 9 found) ∧
      (s.reading (Probe.conflict? (reads 4) writes 4 9)).1 =
        .ok (some { key := k 2, kind := .read, committedAt := 6 }) := by
  intro k v s a reads writes
  have hscanned : ∀ e ∈ (reads 6).toList ++ (reads 4).toList,
      chainIn s.tree e.1 = .ok (a e.1) ∧ (a e.1).OpenEnded ∧ ∀ v ∈ a e.1, v.beginTs ≤ 9 := by
    decide +kernel
  have hwritten : ∀ e ∈ writes.toList, chainIn s.tree e.1 = .ok (a e.1) ∧ (a e.1).OpenEnded := by
    decide +kernel
  have hlate : s.Served (s.reading (Probe.conflict? (reads 6) writes 4 9)).2 ∧
      (s.reading (Probe.conflict? (reads 6) writes 4 9)).1 =
        .ok (some { key := k 1, kind := .write, committedAt := 5 }) := by decide +kernel
  have hearly : s.Served (s.reading (Probe.conflict? (reads 4) writes 4 9)).2 ∧
      (s.reading (Probe.conflict? (reads 4) writes 4 9)).1 =
        .ok (some { key := k 2, kind := .read, committedAt := 6 }) := by decide +kernel
  obtain ⟨hscanned₆, hscanned₄⟩ := List.forall_mem_append.1 hscanned
  exact ⟨validates 4 hscanned₆ hwritten hlate.1, hlate.2, validates 4 hscanned₄ hwritten hearly.1,
    hearly.2⟩

end Store

end Mvcc
