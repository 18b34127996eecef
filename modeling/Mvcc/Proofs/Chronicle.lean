import Mvcc.Engine.Open
import Mvcc.Proofs.Stored

/-!
# Runs from the beginning

In a run that starts without versions the trace determines what every transaction sees. A read finds
the last own write or else the snapshot, and validation makes sure that the snapshot of a
transaction that commits with writes is still current for all it read.

* `Trace.Chronicle`: all that is true of such a run, with `Chronicle.next`.
* `Chronicle.visible_eq`: the chains show the snapshot of the trace.
* `Chronicle.current`: what was read is still there when a commit passes validation.
* `Engine.Fresh`, `Fresh.chronicle`: every run of an engine without versions is a chronicle.
-/

namespace Mvcc

open Session

namespace Trace

variable {tr : Trace} {s s' : Session} {a a' : Chains} {op : Op} {r : Reply} {id : TxnId} {t : Txn}

/-- Reads agree with the snapshots. What a transaction did so far would come out the same on every
map that holds the snapshot under the keys it scanned. -/
structure Consistent (tr : Trace) (s : Session) : Prop where
  readTs_eq : ∀ id t, s.Active id t → ∀ k o, t.reads.get? k = some o → o.readTs = t.beginTs
  active : ∀ id t, s.Active id t → ∀ m : Contents,
    (∀ k, t.reads.contains k = true → m k = tr.snapshot t.beginTs k) → m.Serves (tr.deeds id)
  commits : ∀ c ∈ tr.commits, (tr.snapshot c.place).Serves c.deeds

/-- What is true of a run from the beginning. -/
structure Chronicle (tr : Trace) (s : Session) (a : Chains) : Prop where
  stands : s.Stands a
  records : tr.Records s
  ordered : tr.Ordered s
  stored : tr.Stored s a
  consistent : tr.Consistent s

theorem Chronicle.visible_eq (h : tr.Chronicle s a) (active : s.Active id t) (k : RecordKey) :
    ((a k).visible? t.beginTs).bind (·.payload) = tr.snapshot t.beginTs k := by
  have hfilter : ((tr.writers k).filter fun w => decide (w.1 ≤ t.beginTs)) =
      (tr.writers k).filter fun w => decide (w.1 < t.beginTs) := by
    refine List.filter_congr fun w hw => ?_
    have hne := h.ordered.writer_ne active hw
    rw [decide_eq_decide]
    grind
  have hvisible := (h.stored k).visible?_eq (h.stands.sound.linked k) fun b hb => hb id t active
  rw [snapshot_eq _ (h.ordered.ascending k), ← hfilter, ← hvisible]
  cases (a k).visible? t.beginTs <;> rfl

theorem le_of_getLast? {ws : List (Timestamp × Option Payload)}
    (h : ws.Pairwise fun w w' => w.1 < w'.1) {last : Timestamp × Option Payload}
    (hlast : ws.getLast? = some last) : ∀ w ∈ ws, w.1 ≤ last.1 := by
  obtain ⟨ws, rfl⟩ := List.getLast?_eq_some_iff.1 hlast
  intro w hw
  rcases List.mem_append.1 hw with hw | hw
  · exact UInt64.le_of_lt ((List.pairwise_append.1 h).2.2 w hw last (by simp))
  · rw [List.mem_singleton.1 hw]
    exact UInt64.le_refl _

theorem Chronicle.last_le_iff (h : tr.Chronicle s a) (k : RecordKey) (ts : Timestamp) :
    (∀ v ∈ (a k).getLast?, v.beginTs ≤ ts) ↔ ∀ w ∈ tr.writers k, w.1 ≤ ts := by
  have hlast := (h.stored k).getLast?_eq
  constructor
  · intro hle w hw
    cases hl : (a k).getLast? with
    | none =>
      rw [hl, Option.map_none] at hlast
      rw [List.getLast?_eq_none_iff.1 hlast.symm] at hw
      cases hw
    | some v =>
      rw [hl, Option.map_some] at hlast
      exact UInt64.le_trans (le_of_getLast? (h.ordered.ascending k) hlast.symm w hw) (hle v hl)
  · intro hle v hv
    rw [hv, Option.map_some] at hlast
    exact hle v.mark (List.mem_of_getLast? hlast.symm)

theorem Chronicle.writers_lt (h : tr.Chronicle s a) (active : s.Active id t)
    (free : a.conflict? t s.engine.clock.last = none) {k : RecordKey}
    (hk : t.reads.contains k = true) : ∀ w ∈ tr.writers k, w.1 < t.beginTs := by
  obtain ⟨o, ho⟩ := (OrderedMap.contains_iff _ _).1 hk
  have hread := ((Chains.conflict?_eq_none_iff h.stands.sound.linked t _).1 free).1 (k, o)
    ((OrderedMap.mem_toList_iff _ _ _).2 ho)
  have hle : ∀ v ∈ (a k).getLast?, v.beginTs ≤ t.beginTs := by
    -- a version that began later would be a conflict: none is ahead of the clock
    intro v hv
    have hclock := (h.last_le_iff k s.engine.clock.last).2 (fun w => h.ordered.writer_le) v hv
    have hlate := hread v hv
    rw [h.consistent.readTs_eq id t active k o ho] at hlate
    grind
  intro w hw
  have hne := h.ordered.writer_ne active hw
  have hle := (h.last_le_iff k t.beginTs).1 hle w hw
  grind

theorem snapshot_of_writers_lt (h : ∀ k, (tr.writers k).Pairwise fun w w' => w.1 < w'.1)
    {k : RecordKey} {ts : Timestamp} (hlt : ∀ w ∈ tr.writers k, w.1 < ts) :
    tr.snapshot ts k = (tr.writers k).getLast?.bind (·.2) := by
  rw [snapshot_eq _ (h k), List.filter_eq_self.2 fun w hw => by simpa using hlt w hw]

/-- When a commit passes validation the snapshot of the transaction and the state before the commit
agree on what was scanned. -/
theorem Chronicle.current (h : tr.Chronicle s a) (active : s.Active id t)
    (free : a.conflict? t s.engine.clock.last = none) {ts : Timestamp}
    (hts : s.engine.clock.last < ts) {k : RecordKey} (hk : t.reads.contains k = true) :
    tr.snapshot ts k = tr.snapshot t.beginTs k := by
  rw [snapshot_of_writers_lt h.ordered.ascending (h.writers_lt active free hk),
    snapshot_of_writers_lt h.ordered.ascending]
  intro w hw
  have hle := h.ordered.writer_le hw
  grind

/-! ## Preservation -/

theorem Chronicle.serves_next (h : tr.Chronicle s a) (hm : s.Moves a s' op r a') {u : Txn}
    {i : TxnId} (active : s.Active i t) (begin_eq : u.beginTs = t.beginTs)
    (reads : ∀ k, t.reads.contains k = true → u.reads.contains k = true)
    (deed : ∀ m : Contents, (∀ k, u.reads.contains k = true → m k = tr.snapshot t.beginTs k) →
      (m.after (tr.deeds i)).Serves (Event.deed? ⟨op, r⟩ i).toList) :
    ∀ m : Contents,
      (∀ k, u.reads.contains k = true → m k = (tr ++ [Event.mk op r]).snapshot u.beginTs k) →
        m.Serves ((tr ++ [Event.mk op r]).deeds i) := by
  intro m hsnapshot
  have hle := UInt64.le_trans (h.stands.begin_le i t active) hm.clock_le
  rw [begin_eq, h.ordered.snapshot_next h.records hm hle] at hsnapshot
  rw [deeds_concat, Contents.serves_append]
  exact ⟨h.consistent.active i t active m fun k hk => hsnapshot k (reads k hk), deed m hsnapshot⟩

theorem Chronicle.serves_next_of_none (h : tr.Chronicle s a) (hm : s.Moves a s' op r a')
    (deeds : ∀ i, Event.deed? ⟨op, r⟩ i = none) {i : TxnId} {u : Txn} (active : s.Active i u) :
    ∀ m : Contents,
      (∀ k, u.reads.contains k = true → m k = (tr ++ [Event.mk op r]).snapshot u.beginTs k) →
        m.Serves ((tr ++ [Event.mk op r]).deeds i) := by
  refine h.serves_next hm active rfl (fun k hk => hk) fun m _ => ?_
  rw [deeds]
  trivial

theorem contains_record (s : ReadSet) (k k' : RecordKey) (o : Observation) :
    (s.record k o).contains k' = true ↔ k' = k ∨ s.contains k' = true := by
  have hget : (s.record k o).get? k' = if k' = k then some ((s.get? k).getD o) else s.get? k' :=
    OrderedMap.get?_insertIfNew _ _ _ _
  rw [OrderedMap.contains, OrderedMap.contains, hget]
  split_ifs with hk
  · simp [hk]
  · simp [hk]

theorem Chronicle.active_next (h : tr.Chronicle s a)
    (hm : s.Moves a s' op r a') (i : TxnId) (u : Txn) (hu : s'.Active i u) :
    ∀ m : Contents,
      (∀ k, u.reads.contains k = true → m k = (tr ++ [Event.mk op r]).snapshot u.beginTs k) →
        m.Serves ((tr ++ [Event.mk op r]).deeds i) := by
  have hm' := hm
  cases hm with
  | idle silent engine turns => exact h.serves_next_of_none hm' silent.deed? (turns i u hu)
  | ended silent active engine turns =>
    exact h.serves_next_of_none hm' silent.deed? (turns i u hu).2
  | settled active free writes engine turns =>
    exact h.serves_next_of_none hm' (fun _ => rfl) (turns i u hu).2
  | committed active free writes tick engine leaves encodes turns =>
    exact h.serves_next_of_none hm' (fun _ => rfl) (turns i u hu).2
  | collected low_le engine clock encodes turns =>
    exact h.serves_next_of_none hm' (fun _ => rfl) (turns i u hu)
  | began name tick engine turns =>
    rcases turns i u hu with ⟨rfl, rfl⟩ | ⟨-, hu⟩
    · intro m _
      rw [deeds_concat, (h.records.unused name tick).2.2 i (UInt64.le_refl _) |>.2]
      trivial
    · exact h.serves_next_of_none hm' (fun _ => rfl) hu
  | @own id k t w active write engine turns =>
    -- the plain map holds the pending write by then
    refine h.serves_next hm' (turns i u hu) rfl (fun k hk => hk) fun m _ => ?_
    show (m.after (tr.deeds i)).Serves (if id = i then some (.read k w.payload) else none).toList
    split_ifs with hi
    · subst hi
      refine ⟨?_, trivial⟩
      rw [Contents.after_apply, h.records.puts id t active, write]
      rfl
    · trivial
  | @seen id k t found active write visible engine turns =>
    rcases turns i u hu with ⟨rfl, rfl⟩ | ⟨hi, hu⟩
    · refine h.serves_next hm' active rfl (fun k' hk' => (contains_record _ _ _ _).2 (Or.inr hk'))
        fun m hsnapshot => ?_
      show (m.after (tr.deeds i)).Serves (if i = i then some (.read k found) else none).toList
      rw [if_pos rfl]
      refine ⟨?_, trivial⟩
      -- nothing is pending, so the plain map still shows the snapshot
      rw [Contents.after_apply, h.records.puts i t active, write, ← visible, h.visible_eq active]
      exact hsnapshot k ((contains_record _ _ _ _).2 (Or.inl rfl))
    · refine h.serves_next hm' hu rfl (fun k hk => hk) fun m _ => ?_
      show (m.after (tr.deeds i)).Serves (if id = i then some (.read k found) else none).toList
      rw [if_neg (Ne.symm hi)]
      trivial
  | @put op id k p t put active engine turns =>
    have hdeed : ∀ m : Contents,
        (m.after (tr.deeds i)).Serves (Event.deed? ⟨op, .done⟩ i).toList := by
      intro m
      rw [Op.deed?_of_put? put]
      split_ifs <;> trivial
    rcases turns i u hu with ⟨rfl, rfl⟩ | ⟨hi, hu⟩
    · exact h.serves_next hm' active rfl (fun k hk => hk) fun m _ => hdeed m
    · exact h.serves_next hm' hu rfl (fun k hk => hk) fun m _ => hdeed m

theorem Chronicle.readTs_next (h : tr.Chronicle s a) (hm : s.Moves a s' op r a') (i : TxnId)
    (u : Txn) (hu : s'.Active i u) : ∀ k o, u.reads.get? k = some o → o.readTs = u.beginTs := by
  have hold := h.consistent.readTs_eq
  cases hm with
  | idle silent engine turns => exact hold i u (turns i u hu)
  | own active write engine turns => exact hold i u (turns i u hu)
  | collected low_le engine clock encodes turns => exact hold i u (turns i u hu)
  | ended silent active engine turns => exact hold i u (turns i u hu).2
  | settled active free writes engine turns => exact hold i u (turns i u hu).2
  | committed active free writes tick engine leaves encodes turns => exact hold i u (turns i u hu).2
  | began name tick engine turns =>
    rcases turns i u hu with ⟨rfl, rfl⟩ | ⟨-, hu⟩
    · intro k o ho
      cases ho
    · exact hold i u hu
  | @seen id k t found active write visible engine turns =>
    rcases turns i u hu with ⟨rfl, rfl⟩ | ⟨-, hu⟩
    · exact Session.record_readTs_eq (hold i t active) k _
    · exact hold i u hu
  | @put op id k p t put active engine turns =>
    rcases turns i u hu with ⟨rfl, rfl⟩ | ⟨-, hu⟩
    · exact hold i t active
    · exact hold i u hu

theorem Chronicle.commits_next (h : tr.Chronicle s a) (hm : s.Moves a s' op r a') :
    ∀ c ∈ (tr ++ [Event.mk op r]).commits,
      Contents.Serves ((tr ++ [Event.mk op r]).snapshot c.place) c.deeds := by
  have hold : ∀ c ∈ tr.commits,
      Contents.Serves ((tr ++ [Event.mk op r]).snapshot c.place) c.deeds := by
    intro c hc
    have hle := UInt64.le_trans (h.ordered.place_le c hc) hm.clock_le
    rw [h.ordered.snapshot_next h.records hm hle]
    exact h.consistent.commits c hc
  have hm' := hm
  have hclock := hm.clock_le
  intro c hc
  rw [Trace.commits_concat, List.mem_append] at hc
  rcases hc with hc | hc
  · exact hold c hc
  cases hm with
  | idle silent =>
    rw [silent.commit?] at hc
    cases hc
  | ended silent =>
    rw [silent.commit?] at hc
    cases hc
  | began | own | seen | collected => cases hc
  | put =>
    rw [Event.commit?_done] at hc
    cases hc
  | @settled id t active free writes engine turns =>
    rw [h.records.commit?_eq active, Option.toList_some, List.mem_singleton] at hc
    rw [hc, h.records.place_commitOf active, if_pos writes, h.ordered.snapshot_next h.records hm'
      (UInt64.le_trans (h.stands.begin_le id t active) hclock)]
    exact h.consistent.active id t active _ fun k _ => rfl
  | @committed id t _ active free writes tick engine leaves encodes turns =>
    -- the place is later than the begin, but what was scanned is still current there
    rw [h.records.commit?_eq active, Option.toList_some, List.mem_singleton] at hc
    rw [hc, h.records.place_commitOf active, if_neg (by simp [writes]),
      h.ordered.snapshot_next h.records hm' (UInt64.le_refl _)]
    exact h.consistent.active id t active _ fun k hk =>
      h.current active free (Clock.lt_last_of_tick? tick) hk

theorem Chronicle.next (h : tr.Chronicle s a) (hm : s.Moves a s' op r a') (hop : op.Fits) :
    (tr ++ [Event.mk op r]).Chronicle s' a' where
  stands := hm.stands h.stands hop
  records := h.records.next hm
  ordered := h.ordered.next h.stands h.records hm
  stored := h.stored.next h.stands h.records h.ordered hm
  consistent := ⟨h.readTs_next hm, h.active_next hm, h.commits_next hm⟩

theorem Chronicle.run (h : tr.Chronicle s a) (ops : List Op) (hops : ∀ op ∈ ops, op.Fits) :
    ∃ a', (tr ++ s.trace ops).Chronicle (s.run ops).2 a' ∧
      ∀ ts, ts ≤ s.engine.clock.last → (tr ++ s.trace ops).snapshot ts = tr.snapshot ts := by
  induction ops generalizing tr s a with
  | nil =>
    rw [show s.trace [] = [] from rfl, List.append_nil]
    exact ⟨a, h, fun _ _ => rfl⟩
  | cons op rest ih =>
    have hop := hops op List.mem_cons_self
    obtain ⟨a₁, hm⟩ := exists_moves h.stands hop
    obtain ⟨a', ha', hsnapshot⟩ := ih (h.next hm hop) fun op' hop' =>
      hops op' (List.mem_cons_of_mem _ hop')
    rw [List.append_assoc] at ha' hsnapshot
    refine ⟨a', ha', fun ts hts => ?_⟩
    have hts' := UInt64.le_trans hts hm.clock_le
    exact (hsnapshot ts hts').trans (h.ordered.snapshot_next h.records hm hts')

end Trace

/-! ## Engines without versions -/

/-- An engine without versions and before its first transaction. -/
structure Engine.Fresh (g : Engine) : Prop where
  tree_eq : g.store.tree = ∅
  lastId_eq : g.lastId = 0
  commitsSince_eq : g.commitsSince = 0

namespace Engine

theorem fresh_withClock {s : Store} (h : s.tree = ∅) (clock : Clock) (every : Option UInt64) :
    (withClock s clock every).Fresh := ⟨h, rfl, rfl⟩

theorem fresh_ofStore {s : Store} (h : s.tree = ∅) : (ofStore s).Fresh := fresh_withClock h _ _

theorem fresh_inMemory : inMemory.Fresh := fresh_ofStore rfl

theorem fresh_open? {settings : Settings} {site : Site} {g : Engine}
    (h : open? settings site = .ok g) (htree : g.store.tree = ∅) : g.Fresh := by
  rw [open?] at h
  cases hvalid : settings.validate.mapError TxnError.settings with
  | error e =>
    rw [hvalid] at h
    cases h
  | ok u =>
    cases hstore : (Store.openIn? settings.backend site settings.treeName).mapError
        TxnError.storage with
    | error e =>
      rw [hvalid, hstore] at h
      cases h
    | ok s =>
      rw [hvalid, hstore] at h
      cases h
      exact fresh_withClock htree _ _

variable {g : Engine}

theorem Fresh.chronicle_nil (h : g.Fresh) : Trace.Chronicle [] g.session fun _ => [] where
  stands := stands_session (h.tree_eq ▸ Tree.encodes_empty) Chains.sound_empty
  records := Trace.records_nil g h.lastId_eq
  ordered := Trace.ordered_nil g
  stored := Trace.stored_nil g
  consistent :=
    { readTs_eq := fun id t ht => by cases ht.1
      active := fun id t ht => by cases ht.1
      commits := fun c hc => by cases hc }

/-- Every run of an engine without versions is a chronicle. -/
theorem Fresh.chronicle (h : g.Fresh) (ops : List Op) (hops : ∀ op ∈ ops, op.Fits) :
    ∃ a, (g.trace ops).Chronicle (g.after ops) a := by
  obtain ⟨a, ha, -⟩ := h.chronicle_nil.run ops hops
  exact ⟨a, ha⟩

end Engine

end Mvcc
