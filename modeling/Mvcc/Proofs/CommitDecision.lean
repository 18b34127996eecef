import Mvcc.Proofs.Chronicle

/-!
# Which commits are refused

A commit is refused for a conflict exactly when some transaction committed a write after the begin,
under a key that the committing transaction scanned or writes. The engine decides this from the open
versions alone; the history says the same.

* `Commit.LastWrite`, `Commit.WrittenAfter`: the last commit of a key, and commits after a begin.
* `Commit.Decides`: the rule by which commits are decided.
* `Chronicle.committedAfter?_eq`, `Chronicle.decides`: validation and commit, in terms of the
  history.
* `Fresh.commit_decision`: the result for every run of an engine without versions.
-/

namespace Mvcc

open Session

theorem findSome?_first {κ β γ : Type} [Ord κ] {l : List (κ × β)} (h : Ascending l)
    {f : κ × β → Option γ} {c : γ} (hc : l.findSome? f = some c) :
    ∃ e ∈ l, f e = some c ∧ ∀ e' ∈ l, f e' ≠ none → e' = e ∨ compare e.1 e'.1 = .lt := by
  obtain ⟨before, e, after, rfl, hfe, hnone⟩ := List.findSome?_eq_some_iff.1 hc
  refine ⟨e, by simp, hfe, fun e' he' hne => ?_⟩
  rcases List.mem_append.1 he' with he' | he'
  · exact absurd (hnone e' he') hne
  · rcases List.mem_cons.1 he' with rfl | he'
    · exact Or.inl rfl
    · exact Or.inr ((List.pairwise_cons.1 (List.pairwise_append.1 h).2.1).1 e' he')

namespace Commit

/-- The greatest timestamp at which a key was committed. -/
structure LastWrite (commits : List Commit) (k : RecordKey) (ts : Timestamp) : Prop where
  written : ∃ c ∈ commits, c.left? k ≠ none ∧ c.ts = ts
  greatest : ∀ c ∈ commits, c.left? k ≠ none → c.ts ≤ ts

/-- Some transaction that wrote the key committed after a timestamp. -/
def WrittenAfter (commits : List Commit) (ts : Timestamp) (k : RecordKey) : Prop :=
  ∃ c ∈ commits, ts < c.ts ∧ c.left? k ≠ none

/-- Something that a transaction scanned or writes was written after it began. -/
def Overtake (commits : List Commit) (t : Txn) : Prop :=
  ∃ k, (t.reads.contains k = true ∨ t.writes.contains k = true) ∧ WrittenAfter commits t.beginTs k

/-- The conflict that is reported: one of a read if there is one, or else the first of a write, with
the last commit of its key. -/
structure Reports (commits : List Commit) (t : Txn) (c : Conflict) : Prop where
  late : WrittenAfter commits t.beginTs c.key
  last : LastWrite commits c.key c.committedAt
  read : c.kind = .read → t.reads.contains c.key = true
  write : c.kind = .write → t.writes.contains c.key = true
  no_read : c.kind = .write → ∀ k, t.reads.contains k = true → ¬ WrittenAfter commits t.beginTs k
  first : c.kind = .write → ∀ k, t.writes.contains k = true → WrittenAfter commits t.beginTs k →
    c.key = k ∨ compare c.key k = .lt

/-- How a commit is decided when the clock stands at `last`. -/
structure Decides (commits : List Commit) (t : Txn) (last : Timestamp) (r : Reply) : Prop where
  conflict_iff : (∃ c, r = .failed (.conflict c)) ↔ Overtake commits t
  exhausted_iff : (∃ ts, r = .failed (.exhausted ts)) ↔
    ¬ Overtake commits t ∧ t.writes.isEmpty = false ∧ last = Timestamp.greatest
  committed_iff : (∃ ts, r = .committed ts) ↔
    ¬ Overtake commits t ∧ ¬ (t.writes.isEmpty = false ∧ last = Timestamp.greatest)
  reports : ∀ c, r = .failed (.conflict c) → Reports commits t c

theorem decides_committed {commits : List Commit} {t : Txn} {last ts : Timestamp}
    (hnot : ¬ Overtake commits t)
    (hlast : ¬ (t.writes.isEmpty = false ∧ last = Timestamp.greatest)) :
    Decides commits t last (.committed ts) := by
  refine ⟨iff_of_false ?_ hnot, iff_of_false ?_ fun hn => hlast hn.2,
    iff_of_true ⟨ts, rfl⟩ ⟨hnot, hlast⟩, ?_⟩
  · rintro ⟨c, hc⟩
    cases hc
  · rintro ⟨ts, hts⟩
    cases hts
  · intro c hc
    cases hc

end Commit

namespace Trace

open Commit

variable {tr : Trace} {s : Session} {a : Chains} {id : TxnId} {t : Txn} {k : RecordKey}
  {ts : Timestamp} {c : Conflict}

theorem exists_writer_iff : (∃ w ∈ tr.writers k, w.1 = ts) ↔
    ∃ c ∈ tr.commits, c.left? k ≠ none ∧ c.ts = ts := by
  constructor
  · rintro ⟨w, hw, rfl⟩
    obtain ⟨c, hc, hleft, hts⟩ := (mem_writers tr).1 hw
    exact ⟨c, hc, by simp [hleft], hts⟩
  · rintro ⟨c, hc, hleft, rfl⟩
    obtain ⟨p, hp⟩ := Option.ne_none_iff_exists'.1 hleft
    exact ⟨(c.ts, p), (mem_writers tr).2 ⟨c, hc, hp, rfl⟩, rfl⟩

theorem lastWrite_iff (h : (tr.writers k).Pairwise fun w w' => w.1 < w'.1) :
    LastWrite tr.commits k ts ↔ ∃ w, (tr.writers k).getLast? = some w ∧ w.1 = ts := by
  constructor
  · rintro ⟨hwritten, hgreatest⟩
    obtain ⟨w, hw, hts⟩ := exists_writer_iff.2 hwritten
    cases hlast : (tr.writers k).getLast? with
    | none =>
      rw [List.getLast?_eq_none_iff.1 hlast] at hw
      cases hw
    | some last =>
      obtain ⟨c, hc, hleft, hcts⟩ := exists_writer_iff.1 ⟨last, List.mem_of_getLast? hlast, rfl⟩
      have hle := le_of_getLast? h hlast w hw
      have hge := hgreatest c hc hleft
      rw [hts] at hle
      rw [hcts] at hge
      exact ⟨last, rfl, UInt64.le_antisymm hge hle⟩
  · rintro ⟨last, hlast, rfl⟩
    refine ⟨exists_writer_iff.1 ⟨last, List.mem_of_getLast? hlast, rfl⟩, fun c hc hleft => ?_⟩
    obtain ⟨w, hw, hts⟩ := exists_writer_iff.2 ⟨c, hc, hleft, rfl⟩
    exact hts ▸ le_of_getLast? h hlast w hw

theorem Chronicle.committedAfter?_eq (h : tr.Chronicle s a) (k : RecordKey) (since ts : Timestamp) :
    a.committedAfter? k since = some ts ↔ LastWrite tr.commits k ts ∧ since < ts := by
  rw [Chains.committedAfter?_eq_some_iff (h.stands.sound.linked k).open_last,
    lastWrite_iff (h.ordered.ascending k), ← (h.stored k).getLast?_eq]
  constructor
  · rintro ⟨v, hv, hts, hlt⟩
    exact ⟨⟨v.mark, by rw [hv]; rfl, hts⟩, hlt⟩
  · rintro ⟨⟨w, hw, hts⟩, hlt⟩
    obtain ⟨v, hv, rfl⟩ := Option.map_eq_some_iff.1 hw
    exact ⟨v, hv, hts, hlt⟩

theorem Chronicle.committedAfter?_ne_none (h : tr.Chronicle s a) (k : RecordKey)
    (since : Timestamp) : a.committedAfter? k since ≠ none ↔ WrittenAfter tr.commits since k := by
  rw [Option.ne_none_iff_exists']
  simp only [h.committedAfter?_eq]
  constructor
  · rintro ⟨ts, ⟨⟨c, hc, hleft, rfl⟩, -⟩, hlt⟩
    exact ⟨c, hc, hlt, hleft⟩
  · rintro ⟨c, hc, hlt, hleft⟩
    obtain ⟨w, hw, hts⟩ := exists_writer_iff.2 ⟨c, hc, hleft, rfl⟩
    cases hlast : (tr.writers k).getLast? with
    | none =>
      rw [List.getLast?_eq_none_iff.1 hlast] at hw
      cases hw
    | some last =>
      have hle := le_of_getLast? (h.ordered.ascending k) hlast w hw
      rw [hts] at hle
      exact ⟨last.1, (lastWrite_iff (h.ordered.ascending k)).2 ⟨last, hlast, rfl⟩, by grind⟩

/-- No conflict of a read is held back by the time of the check. -/
theorem Chronicle.conflictOfRead?_eq (h : tr.Chronicle s a) (active : s.Active id t)
    {o : Observation} (ho : t.reads.get? k = some o) :
    a.conflictOfRead? k o s.engine.clock.last =
      (a.committedAfter? k t.beginTs).map
        fun ts => { key := k, kind := .read, committedAt := ts } := by
  rw [Chains.conflictOfRead?, h.consistent.readTs_eq id t active k o ho]
  cases hts : a.committedAfter? k t.beginTs with
  | none => rfl
  | some ts =>
    -- commits are no later than the clock
    obtain ⟨⟨hwritten, -⟩, -⟩ := (h.committedAfter?_eq k t.beginTs ts).1 hts
    obtain ⟨w, hw, rfl⟩ := exists_writer_iff.2 hwritten
    rw [Option.filter_some, if_pos (by simpa using h.ordered.writer_le hw)]

theorem Chronicle.readConflict?_eq_none (h : tr.Chronicle s a) (active : s.Active id t) :
    a.readConflict? t.reads s.engine.clock.last = none ↔
      ∀ k, t.reads.contains k = true → ¬ WrittenAfter tr.commits t.beginTs k := by
  rw [Chains.readConflict?, List.findSome?_eq_none_iff]
  simp only [Prod.forall, OrderedMap.mem_toList_iff, OrderedMap.contains_iff, forall_exists_index]
  refine forall_congr' fun k => forall_congr' fun o => imp_congr_right fun ho => ?_
  rw [h.conflictOfRead?_eq active ho, Option.map_eq_none_iff, ← h.committedAfter?_ne_none, not_not]

theorem Chronicle.writeConflict?_eq_none (h : tr.Chronicle s a) (t : Txn) :
    a.writeConflict? t.writes t.beginTs = none ↔
      ∀ k, t.writes.contains k = true → ¬ WrittenAfter tr.commits t.beginTs k := by
  rw [Chains.writeConflict?, List.findSome?_eq_none_iff]
  simp only [Prod.forall, OrderedMap.mem_toList_iff, OrderedMap.contains_iff, forall_exists_index]
  refine forall_congr' fun k => forall_congr' fun w => imp_congr_right fun _ => ?_
  rw [Chains.conflictOfWrite?, Option.map_eq_none_iff, ← h.committedAfter?_ne_none, not_not]

theorem Chronicle.conflict?_eq_none (h : tr.Chronicle s a) (active : s.Active id t) :
    a.conflict? t s.engine.clock.last = none ↔ ¬ Overtake tr.commits t := by
  rw [Chains.conflict?, Option.or_eq_none_iff, h.readConflict?_eq_none active,
    h.writeConflict?_eq_none t]
  constructor
  · rintro ⟨hreads, hwrites⟩ ⟨k, hk | hk, hlate⟩
    · exact hreads k hk hlate
    · exact hwrites k hk hlate
  · intro hnot
    exact ⟨fun k hk hlate => hnot ⟨k, Or.inl hk, hlate⟩,
      fun k hk hlate => hnot ⟨k, Or.inr hk, hlate⟩⟩

theorem Chronicle.reports (h : tr.Chronicle s a) (active : s.Active id t)
    (hc : a.conflict? t s.engine.clock.last = some c) : Reports tr.commits t c := by
  rw [Chains.conflict?] at hc
  cases hread : a.readConflict? t.reads s.engine.clock.last with
  | some c' =>
    rw [hread, Option.some_or] at hc
    obtain rfl : c' = c := Option.some.inj hc
    obtain ⟨⟨k, o⟩, hmem, hfound, -⟩ := findSome?_first t.reads.ascending hread
    rw [OrderedMap.mem_toList_iff] at hmem
    rw [h.conflictOfRead?_eq active hmem] at hfound
    obtain ⟨ts, hts, rfl⟩ := Option.map_eq_some_iff.1 hfound
    exact
      { late := (h.committedAfter?_ne_none k _).1 (by simp [hts])
        last := ((h.committedAfter?_eq k _ ts).1 hts).1
        read := fun _ => (OrderedMap.contains_iff _ _).2 ⟨o, hmem⟩
        write := fun hkind => by cases hkind
        no_read := fun hkind => by cases hkind
        first := fun hkind => by cases hkind }
  | none =>
    rw [hread, Option.none_or] at hc
    obtain ⟨⟨k, w⟩, hmem, hfound, hfirst⟩ := findSome?_first t.writes.ascending hc
    rw [OrderedMap.mem_toList_iff] at hmem
    obtain ⟨ts, hts, rfl⟩ := Option.map_eq_some_iff.1 hfound
    refine
      { late := (h.committedAfter?_ne_none k _).1 (by simp [hts])
        last := ((h.committedAfter?_eq k _ ts).1 hts).1
        read := fun hkind => by cases hkind
        write := fun _ => (OrderedMap.contains_iff _ _).2 ⟨w, hmem⟩
        no_read := fun _ => (h.readConflict?_eq_none active).1 hread
        first := fun _ k' hk' hlate => ?_ }
    obtain ⟨w', hw'⟩ := (OrderedMap.contains_iff _ _).1 hk'
    refine (hfirst (k', w') ((OrderedMap.mem_toList_iff _ _ _).2 hw') ?_).imp_left
      fun he => (congrArg Prod.fst he).symm
    rw [Chains.conflictOfWrite?, Ne, Option.map_eq_none_iff]
    exact (h.committedAfter?_ne_none k' _).2 hlate

theorem Chronicle.decides (h : tr.Chronicle s a) (active : s.Active id t) :
    Decides tr.commits t s.engine.clock.last (s.step (.commit id)).1 ∨
      (∃ e, (s.step (.commit id)).1 = .failed (.storage e)) ∧
        ¬ s.engine.store.Served (s.step (.commit id)).2.engine.store := by
  obtain ⟨r, g', heq, -, hr⟩ := exists_step_commit h.stands active
  have hnone := h.conflict?_eq_none active
  rw [heq]
  cases hr with
  | refused reason kept count =>
    cases reason with
    | @conflict c found =>
      have hover : Overtake tr.commits t := by
        by_contra hnot
        rw [hnone.2 hnot] at found
        cases found
      refine Or.inl ⟨iff_of_true ⟨c, rfl⟩ hover, iff_of_false ?_ fun hn => hn.1 hover,
        iff_of_false ?_ fun hn => hn.1 hover, fun c' hc' => ?_⟩
      · rintro ⟨ts, hts⟩
        cases hts
      · rintro ⟨ts, hts⟩
        cases hts
      · cases hc'
        exact h.reports active found
    | exhausted free writes last =>
      have hnot := hnone.1 free
      refine Or.inl ⟨iff_of_false ?_ hnot, iff_of_true ⟨_, rfl⟩ ⟨hnot, writes, last⟩,
        iff_of_false ?_ fun hn => hn.2 ⟨writes, last⟩, ?_⟩
      · rintro ⟨c, hc⟩
        cases hc
      · rintro ⟨ts, hts⟩
        cases hts
      · intro c hc
        cases hc
    | storage failed => exact Or.inr ⟨⟨_, rfl⟩, failed⟩
  | readOnly free writes kept clock count =>
    exact Or.inl (decides_committed (hnone.1 free) (by simp [writes]))
  | wrote free writes tick leaves encodes =>
    refine Or.inl (decides_committed (hnone.1 free) fun hn => ?_)
    rw [(Clock.tick?_eq_none_iff _).2 hn.2] at tick
    cases tick

end Trace

namespace Session

theorem run_collect (s : Session) (n : Nat) :
    (s.run (List.replicate n .collect)).2.held = s.held ∧
      (s.run (List.replicate n .collect)).2.engine.clock = s.engine.clock ∧
      ∀ past, Trace.commitsAfter past (s.trace (List.replicate n .collect)) = [] := by
  induction n generalizing s with
  | zero => exact ⟨rfl, rfl, fun _ => rfl⟩
  | succ n ih =>
    obtain ⟨hheld, hclock, hcommits⟩ := ih (s.step .collect).2
    exact ⟨hheld, hclock, fun past => hcommits _⟩

end Session

namespace Engine

/-- In every run, commits of active transactions are decided by the history of commits, unless a
call on the storage fails. Collections on the way make no difference. -/
theorem Fresh.commit_decision {g : Engine} (h : g.Fresh) (ops : List Op)
    (hops : ∀ op ∈ ops, op.Fits) {id : TxnId} {t : Txn} (active : (g.after ops).Active id t)
    (n : Nat) :
    let s := g.after (ops ++ List.replicate n .collect)
    Commit.Decides (g.trace ops).commits t (g.after ops).engine.clock.last
        (s.step (.commit id)).1 ∨
      (∃ e, (s.step (.commit id)).1 = .failed (.storage e)) ∧
        ¬ s.engine.store.Served (s.step (.commit id)).2.engine.store := by
  intro s
  have hfits : ∀ op ∈ ops ++ List.replicate n .collect, op.Fits := by
    intro op hop
    rcases List.mem_append.1 hop with hop | hop
    · exact hops op hop
    · rw [List.eq_of_mem_replicate hop]
      trivial
  obtain ⟨a, ha⟩ := h.chronicle _ hfits
  obtain ⟨hheld, hclock, hcommits⟩ := (g.after ops).run_collect n
  rw [← after_append] at hheld hclock
  have hactive : s.Active id t := by
    refine ⟨?_, active.2⟩
    rw [hheld]
    exact active.1
  have hdecides := ha.decides hactive
  rw [trace_append, Trace.commits_append, hcommits, List.append_nil, hclock] at hdecides
  exact hdecides

/-- The third transaction and a later one write the same key, and the later one has committed. -/
def contend : List Op :=
  Op.overlap ++ [.write ⟨3⟩ ⟨"t", .int 1⟩ [8], .begin, .write ⟨4⟩ ⟨"t", .int 1⟩ [9], .commit ⟨4⟩]

theorem fits_contend : ∀ op ∈ contend, op.Fits := by
  rw [contend, List.forall_mem_append]
  refine ⟨Op.fits_overlap, ?_⟩
  simp [Op.Fits, Op.fits_key, UInt64.size]

theorem commit_decision_contend :
    inMemory.Fresh ∧ (∀ op ∈ contend, op.Fits) ∧
      ∃ t, (inMemory.after contend).Active ⟨3⟩ t ∧
        Commit.Overtake (inMemory.trace contend).commits t ∧
        let s := inMemory.after (contend ++ List.replicate 1 .collect)
        Commit.Decides (inMemory.trace contend).commits t (inMemory.after contend).engine.clock.last
            (s.step (.commit ⟨3⟩)).1 ∨
          (∃ e, (s.step (.commit ⟨3⟩)).1 = .failed (.storage e)) ∧
            ¬ s.engine.store.Served (s.step (.commit ⟨3⟩)).2.engine.store := by
  let t : Txn :=
    { id := ⟨3⟩, beginTs := 4, writes := (∅ : WriteSet).put ⟨"t", .int 1⟩ (some [8]) }
  have active : (inMemory.after contend).Active ⟨3⟩ t := ⟨by decide +kernel, rfl⟩
  have late : ∃ c ∈ (inMemory.trace contend).commits, t.beginTs < c.ts ∧
      c.left? ⟨"t", .int 1⟩ ≠ none := by decide +kernel
  exact ⟨fresh_inMemory, fits_contend, t, active, ⟨_, Or.inr (by decide +kernel), late⟩,
    fresh_inMemory.commit_decision _ fits_contend active 1⟩

end Engine

end Mvcc
