import Mvcc.Proofs.Records

/-!
# The order of commits

The clock orders all begins and commits. So no two commits have one place, a key is written at
ascending timestamps, and what a snapshot shows is settled as soon as the clock has passed it.

* `Records.commits_next`, `Records.writers_next`: what a move adds to the commits and to the writers
  of a key.
* `Trace.Ordered`, with `Ordered.next`.
* `Ordered.snapshot_next`: later commits leave a snapshot as it is.
-/

namespace Mvcc

open Session

namespace OrderedMap

variable {κ β : Type} [Ord κ] [Std.TransOrd κ] [Std.LawfulEqOrd κ]

theorem isEmpty_iff (m : OrderedMap κ β) : m.isEmpty = true ↔ ∀ k, m.get? k = none := by
  rw [isEmpty, List.isEmpty_iff, List.eq_nil_iff_forall_not_mem]
  simp only [Prod.forall, mem_toList_iff, Option.eq_none_iff_forall_ne_some, ne_eq]

end OrderedMap

namespace Trace

variable {tr : Trace} {s s' : Session} {a a' : Chains} {op : Op} {r : Reply} {id : TxnId} {t : Txn}

/-- The commit of an active transaction. -/
def commitOf (tr : Trace) (t : Txn) (id : TxnId) (ts : Timestamp) : Commit :=
  { id, beginTs := t.beginTs, ts, deeds := tr.deeds id }

theorem Records.commit?_eq (h : tr.Records s) (active : s.Active id t) (ts : Timestamp) :
    Event.commit? ⟨.commit id, .committed ts⟩ tr = some (tr.commitOf t id ts) := by
  rw [Event.commit?, h.began id t active]
  rfl

theorem Records.left?_commitOf (h : tr.Records s) (active : s.Active id t) (ts : Timestamp)
    (k : RecordKey) : (tr.commitOf t id ts).left? k = (t.writes.get? k).map (·.payload) :=
  h.puts id t active k

theorem Records.wrote_commitOf (h : tr.Records s) (active : s.Active id t) (ts : Timestamp) :
    (tr.commitOf t id ts).wrote = !t.writes.isEmpty := by
  rw [Bool.eq_iff_iff, Commit.wrote_iff, Bool.not_eq_true', ← Bool.not_eq_true,
    OrderedMap.isEmpty_iff, not_forall]
  refine exists_congr fun k => ?_
  rw [h.left?_commitOf active, Ne, Option.map_eq_none_iff]

theorem Records.place_commitOf (h : tr.Records s) (active : s.Active id t) (ts : Timestamp) :
    (tr.commitOf t id ts).place = if t.writes.isEmpty then t.beginTs else ts := by
  rw [Commit.place, h.wrote_commitOf active]
  cases t.writes.isEmpty <;> rfl

theorem Records.commits_commit (h : tr.Records s) (active : s.Active id t) (ts : Timestamp) :
    (tr ++ [Event.mk (.commit id) (.committed ts)]).commits =
      tr.commits ++ [tr.commitOf t id ts] := by
  rw [commits_concat, h.commit?_eq active]
  rfl

theorem Records.commits_next (h : tr.Records s) (hm : s.Moves a s' op r a') :
    (tr ++ [Event.mk op r]).commits = tr.commits ∨
      ∃ id t ts, s.Active id t ∧
        (tr ++ [Event.mk op r]).commits = tr.commits ++ [tr.commitOf t id ts] ∧
        (∀ i u, s'.Active i u → i ≠ id ∧ s.Active i u) ∧
        (t.writes.isEmpty = true ∨
          t.writes.isEmpty = false ∧ ts = s'.engine.clock.last ∧
            s.engine.clock.last < s'.engine.clock.last) := by
  cases hm with
  | idle silent => exact Or.inl (commits_of_silent tr _ (silent.commit? tr))
  | ended silent => exact Or.inl (commits_of_silent tr _ (silent.commit? tr))
  | began | own | seen | collected => exact Or.inl (commits_of_silent tr _ rfl)
  | put => exact Or.inl (commits_of_silent tr _ (Event.commit?_done _ tr))
  | settled active free writes engine turns =>
    exact Or.inr ⟨_, _, _, active, h.commits_commit active _, turns, Or.inl writes⟩
  | committed active free writes tick engine leaves encodes turns =>
    exact Or.inr ⟨_, _, _, active, h.commits_commit active _, turns,
      Or.inr ⟨writes, rfl, Clock.lt_last_of_tick? tick⟩⟩

theorem writers_of_commits {tr tr' : Trace} (h : tr'.commits = tr.commits) (k : RecordKey) :
    tr'.writers k = tr.writers k := by
  rw [writers, h]
  rfl

theorem writers_of_commit {tr tr' : Trace} {c : Commit} (h : tr'.commits = tr.commits ++ [c])
    (k : RecordKey) :
    tr'.writers k = tr.writers k ++ (c.mark? k).toList := by
  rw [writers, h, List.filterMap_append]
  cases hk : c.mark? k <;> simp [writers, hk]

theorem writers_of_silent {e : Event} (h : e.commit? tr = none) (k : RecordKey) :
    (tr ++ [e]).writers k = tr.writers k :=
  writers_of_commits (commits_of_silent tr e h) k

theorem Records.writers_commit (h : tr.Records s) (active : s.Active id t) (ts : Timestamp)
    (k : RecordKey) :
    (tr ++ [Event.mk (.commit id) (.committed ts)]).writers k =
      tr.writers k ++ ((t.writes.get? k).map fun w => (ts, w.payload)).toList := by
  rw [writers_of_commit (h.commits_commit active ts), Commit.mark?, h.left?_commitOf active,
    Option.map_map]
  rfl

theorem Records.writers_next (h : tr.Records s) (hm : s.Moves a s' op r a') (k : RecordKey) :
    (tr ++ [Event.mk op r]).writers k = tr.writers k ∨
      ∃ p, (tr ++ [Event.mk op r]).writers k = tr.writers k ++ [(s'.engine.clock.last, p)] ∧
        s.engine.clock.last < s'.engine.clock.last := by
  rcases h.commits_next hm with he | ⟨id, t, ts, active, he, -, hw⟩
  · exact Or.inl (writers_of_commits he k)
  · rw [writers_of_commit he, Commit.mark?, h.left?_commitOf active]
    cases hk : t.writes.get? k with
    | none => exact Or.inl (List.append_nil _)
    | some w =>
      rcases hw with hempty | ⟨-, rfl, hlt⟩
      · rw [(OrderedMap.isEmpty_iff _).1 hempty k] at hk
        cases hk
      · exact Or.inr ⟨w.payload, rfl, hlt⟩

/-- Begins and commits are told apart by their timestamps, and the clock has passed them all. -/
structure Ordered (tr : Trace) (s : Session) : Prop where
  places : tr.commits.Pairwise fun c c' => c.place ≠ c'.place
  place_le : ∀ c ∈ tr.commits, c.place ≤ s.engine.clock.last
  ascending : ∀ k, (tr.writers k).Pairwise fun w w' => w.1 < w'.1
  active_ne : ∀ id t, s.Active id t → ∀ c ∈ tr.commits, c.place ≠ t.beginTs
  active_inj : ∀ i t j u, s.Active i t → s.Active j u → t.beginTs = u.beginTs → i = j

theorem ordered_nil (g : Engine) : Ordered [] { engine := g } where
  places := List.Pairwise.nil
  place_le c hc := by cases hc
  ascending _ := List.Pairwise.nil
  active_ne _ _ h := by cases h.1
  active_inj _ _ _ _ h := by cases h.1

theorem exists_place_of_writer {w : Timestamp × Option Payload} {k : RecordKey}
    (hw : w ∈ tr.writers k) :
    ∃ c ∈ tr.commits, c.left? k = some w.2 ∧ c.ts = w.1 ∧ c.place = w.1 := by
  obtain ⟨c, hc, hleft, hts⟩ := (mem_writers tr).1 hw
  refine ⟨c, hc, hleft, hts, ?_⟩
  rw [Commit.place, if_pos ((Commit.wrote_iff c).2 ⟨k, by simp [hleft]⟩), hts]

theorem Ordered.writer_le (h : tr.Ordered s) {w : Timestamp × Option Payload} {k : RecordKey}
    (hw : w ∈ tr.writers k) : w.1 ≤ s.engine.clock.last := by
  obtain ⟨c, hc, -, -, hplace⟩ := exists_place_of_writer hw
  exact hplace ▸ h.place_le c hc

theorem Ordered.writer_ne (h : tr.Ordered s) (active : s.Active id t)
    {w : Timestamp × Option Payload} {k : RecordKey} (hw : w ∈ tr.writers k) : w.1 ≠ t.beginTs := by
  obtain ⟨c, hc, -, -, hplace⟩ := exists_place_of_writer hw
  exact hplace ▸ h.active_ne id t active c hc

theorem Ordered.ascending_next (h : tr.Ordered s) (hr : tr.Records s)
    (hm : s.Moves a s' op r a') (k : RecordKey) :
    ((tr ++ [Event.mk op r]).writers k).Pairwise fun w w' => w.1 < w'.1 := by
  rcases hr.writers_next hm k with he | ⟨p, he, hlt⟩
  · exact he ▸ h.ascending k
  · rw [he, List.pairwise_append]
    refine ⟨h.ascending k, List.pairwise_singleton _ _, fun w hw w' hw' => ?_⟩
    rw [List.mem_singleton.1 hw']
    have hle := h.writer_le hw
    show w.1 < s'.engine.clock.last
    grind

theorem Ordered.active_inj_next (h : tr.Ordered s) (hs : s.Stands a) (hm : s.Moves a s' op r a')
    (i : TxnId) (u : Txn) (j : TxnId) (v : Txn) (hu : s'.Active i u) (hv : s'.Active j v)
    (he : u.beginTs = v.beginTs) : i = j := by
  rcases hm.begin_eq hu with ⟨t, ht, hbegin⟩ | ⟨hreply, hlt, rfl⟩
  · rcases hm.begin_eq hv with ⟨t', ht', hbegin'⟩ | ⟨-, hlt, rfl⟩
    · exact h.active_inj i t j t' ht ht' (by rw [← hbegin, ← hbegin', he])
    · -- who has just begun is later than all who were active
      have hle := hs.begin_le i t ht
      rw [← hbegin, he] at hle
      exact absurd hlt (UInt64.not_lt.2 hle)
  · rcases hm.begin_eq hv with ⟨t', ht', hbegin'⟩ | ⟨hreply', -, rfl⟩
    · have hle := hs.begin_le j t' ht'
      rw [← hbegin', ← he] at hle
      exact absurd hlt (UInt64.not_lt.2 hle)
    · rw [hreply] at hreply'
      cases hreply'
      rfl

theorem Ordered.active_ne_next (h : tr.Ordered s) (hm : s.Moves a s' op r a') (i : TxnId) (u : Txn)
    (hu : s'.Active i u) : ∀ c ∈ tr.commits, c.place ≠ u.beginTs := by
  intro c hc
  rcases hm.begin_eq hu with ⟨t, ht, hbegin⟩ | ⟨-, hlt, rfl⟩
  · exact hbegin ▸ h.active_ne i t ht c hc
  · have hle := h.place_le c hc
    show c.place ≠ s'.engine.clock.last
    grind

theorem Ordered.next_of_commit (h : tr.Ordered s) (hs : s.Stands a) (hr : tr.Records s)
    (hm : s.Moves a s' op r a') {ts : Timestamp} (active : s.Active id t)
    (commits : (tr ++ [Event.mk op r]).commits = tr.commits ++ [tr.commitOf t id ts])
    (turns : ∀ i u, s'.Active i u → i ≠ id ∧ s.Active i u)
    (writes : t.writes.isEmpty = true ∨ t.writes.isEmpty = false ∧ ts = s'.engine.clock.last ∧
      s.engine.clock.last < s'.engine.clock.last) :
    (tr ++ [Event.mk op r]).Ordered s' := by
  have hbegin := hs.begin_le id t active
  have hclock := hm.clock_le
  -- the place is the begin, or later than all that was
  have hplace : (tr.commitOf t id ts).place ≤ s'.engine.clock.last ∧
      (∀ c ∈ tr.commits, c.place ≠ (tr.commitOf t id ts).place) ∧
      ∀ i u, s'.Active i u → (tr.commitOf t id ts).place ≠ u.beginTs := by
    rw [hr.place_commitOf active]
    rcases writes with hempty | ⟨hempty, rfl, hlt⟩
    · rw [hempty]
      refine ⟨UInt64.le_trans hbegin hclock, h.active_ne id t active, fun i u hu he => ?_⟩
      exact (turns i u hu).1 (h.active_inj i u id t (turns i u hu).2 active he.symm)
    · rw [hempty]
      refine ⟨UInt64.le_refl _, fun c hc => ?_, fun i u hu => ?_⟩
      · have hle := h.place_le c hc
        show c.place ≠ s'.engine.clock.last
        grind
      · have hle := hs.begin_le i u (turns i u hu).2
        show s'.engine.clock.last ≠ u.beginTs
        grind
  refine ⟨?_, fun c hc => ?_, h.ascending_next hr hm, fun i u hu c hc => ?_,
    h.active_inj_next hs hm⟩
  · rw [commits, List.pairwise_append]
    refine ⟨h.places, List.pairwise_singleton _ _, fun c hc c' hc' => ?_⟩
    rw [List.mem_singleton.1 hc']
    exact hplace.2.1 c hc
  · rw [commits, List.mem_append] at hc
    rcases hc with hc | hc
    · exact UInt64.le_trans (h.place_le c hc) hclock
    · exact List.mem_singleton.1 hc ▸ hplace.1
  · rw [commits, List.mem_append] at hc
    rcases hc with hc | hc
    · exact h.active_ne_next hm i u hu c hc
    · exact List.mem_singleton.1 hc ▸ hplace.2.2 i u hu

theorem Ordered.next (h : tr.Ordered s) (hs : s.Stands a) (hr : tr.Records s)
    (hm : s.Moves a s' op r a') : (tr ++ [Event.mk op r]).Ordered s' := by
  rcases hr.commits_next hm with commits | ⟨id, t, ts, active, commits, turns, writes⟩
  · refine ⟨commits ▸ h.places, fun c hc => ?_, h.ascending_next hr hm, fun i u hu c hc => ?_,
      h.active_inj_next hs hm⟩
    · rw [commits] at hc
      exact UInt64.le_trans (h.place_le c hc) hm.clock_le
    · rw [commits] at hc
      exact h.active_ne_next hm i u hu c hc
  · exact h.next_of_commit hs hr hm active commits turns writes

/-- What a snapshot shows is settled once the clock has come to it. -/
theorem Ordered.snapshot_next (h : tr.Ordered s) (hr : tr.Records s) (hm : s.Moves a s' op r a')
    {ts : Timestamp} (hts : ts ≤ s'.engine.clock.last) :
    (tr ++ [Event.mk op r]).snapshot ts = tr.snapshot ts := by
  funext k
  rw [snapshot_eq _ (h.ascending_next hr hm k), snapshot_eq _ (h.ascending k)]
  rcases hr.writers_next hm k with he | ⟨p, he, hlt⟩
  · rw [he]
  · have hlate : ¬ s'.engine.clock.last < ts := UInt64.not_lt.2 hts
    rw [he, List.filter_append, List.filter_cons_of_neg (by simpa using hlate), List.filter_nil,
      List.append_nil]

end Trace

end Mvcc
