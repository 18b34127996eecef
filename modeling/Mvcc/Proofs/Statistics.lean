import Mvcc.Proofs.Lifecycle
import Mvcc.Proofs.Timeline

/-!
# What the counters count

A transaction that began is counted in one more place: it is still active, or it was committed or
aborted, and then in one way only. Nothing else moves a counter, so the counters can be read off a
run, and at every point between two operations they add up.

* `Fate`, `Session.fates`: what a run tells of its transactions.
* `Statistics.note`, `foldl_note`: the counters after some fates.
* `Session.Notes`, `notes_step`: what an operation does to counters and registry.
* `Orderly.size_registry`: the registry is as large as there are active handles.
* `Engine.Accounts`, `accounts`: the result for every run.
-/

namespace Mvcc

/-! ## Fates -/

/-- What becomes of a transaction, as far as counters tell it apart. -/
inductive Fate where
  | begun
  | committed
  | readOnly
  | conflict
  | storageFailure
  | exhausted
  /-- Its client aborted it or let go of it. -/
  | abandoned
  deriving DecidableEq

/-- Whether a fate is the last of its transaction. -/
def Fate.isEnd : Fate → Bool
  | begun => false
  | committed | readOnly | conflict | storageFailure | exhausted | abandoned => true

/-- The counters after one more fate. -/
def Statistics.note (n : Statistics) : Fate → Statistics
  | .begun => { n with begun := n.begun + 1 }
  | .committed => { n with committed := n.committed + 1 }
  | .readOnly => { n with readOnlyCommitted := n.readOnlyCommitted + 1 }
  | .conflict => { n with conflicts := n.conflicts + 1, aborted := n.aborted + 1 }
  | .storageFailure =>
    { n with storageFailures := n.storageFailures + 1, aborted := n.aborted + 1 }
  | .exhausted | .abandoned => { n with aborted := n.aborted + 1 }

theorem Statistics.foldl_note (fates : List Fate) (n : Statistics) :
    fates.foldl note n =
      { begun := n.begun + fates.count .begun
        committed := n.committed + fates.count .committed
        readOnlyCommitted := n.readOnlyCommitted + fates.count .readOnly
        aborted := n.aborted + (fates.count .conflict + fates.count .storageFailure +
          fates.count .exhausted + fates.count .abandoned)
        conflicts := n.conflicts + fates.count .conflict
        storageFailures := n.storageFailures + fates.count .storageFailure } := by
  induction fates generalizing n with
  | nil => rfl
  | cons fate rest ih =>
    rw [List.foldl_cons, ih]
    cases fate <;> simp [note] <;> omega

theorem Fate.countP_isEnd (fates : List Fate) :
    fates.countP isEnd = fates.count .committed + fates.count .readOnly +
      (fates.count .conflict + fates.count .storageFailure + fates.count .exhausted +
        fates.count .abandoned) := by
  induction fates with
  | nil => rfl
  | cons fate rest ih =>
    rw [List.countP_cons, ih]
    cases fate <;> simp [isEnd] <;> omega

namespace Session

/-- What an operation, with its answer, tells of a transaction. Whether a commit is one without
writes, and whether a transaction that is given up was still active, its handle tells. -/
def fate? (s : Session) : Event → Option Fate
  | ⟨.begin, .began ..⟩ => some .begun
  | ⟨.commit id, .committed _⟩ =>
    if (s.held.get? id).any (·.writes.isEmpty) then some .readOnly else some .committed
  | ⟨.commit _, .failed (.conflict _)⟩ => some .conflict
  | ⟨.commit _, .failed (.exhausted _)⟩ => some .exhausted
  | ⟨.commit _, .failed (.storage _)⟩ | ⟨.read .., .failed (.storage _)⟩ => some .storageFailure
  | ⟨.abort id, .done⟩ | ⟨.drop id, .dropped _⟩ =>
    if (s.held.get? id).any fun t => decide (t.status = .active) then some .abandoned else none
  | _ => none

/-- What a run tells of its transactions. -/
def fates (s : Session) : List Op → List Fate
  | [] => []
  | op :: rest => (s.fate? ⟨op, (s.step op).1⟩).toList ++ (s.step op).2.fates rest

end Session

/-! ## One operation -/

namespace Session

variable {s s' : Session} {op : Op} {r : Reply} {id : TxnId} {t : Txn}

/-- What an operation does to counters and registry, by what it tells. -/
inductive Notes (s s' : Session) : Option Fate → Prop
  | nothing (registry : s'.engine.registry = s.engine.registry)
    (statistics : s'.engine.statistics = s.engine.statistics) : Notes s s' none
  | begun {id : TxnId} (name : id.number = s.engine.lastId + 1)
    (tick : s.engine.clock.tick? = some s'.engine.clock)
    (registry : ∃ r, s'.engine.registry = s.engine.registry.insert id r)
    (statistics : s'.engine.statistics = s.engine.statistics.note .begun) : Notes s s' (some .begun)
  | ended {fate : Fate} {id : TxnId} {t : Txn} (last : fate.isEnd = true) (active : s.Active id t)
    (registry : s'.engine.registry = s.engine.registry.erase t.id)
    (statistics : s'.engine.statistics = s.engine.statistics.note fate) : Notes s s' (some fate)

theorem fate?_read_of_silent {k : RecordKey} (silent : Event.tells ⟨.read id k, r⟩ = false) :
    s.fate? ⟨.read id k, r⟩ = none := by
  cases r with
  | failed e =>
    cases e with
    | storage e => cases silent
    | wrongStage | conflict | exhausted | settings => rfl
  | notHeld | began | found | done | committed | dropped | collected | issued => rfl

theorem fate?_commit_of_silent (silent : Event.tells ⟨.commit id, r⟩ = false) :
    s.fate? ⟨.commit id, r⟩ = none := by
  cases r with
  | failed e =>
    cases e with
    | conflict | storage | exhausted => cases silent
    | wrongStage | settings => rfl
  | committed => cases silent
  | notHeld | began | found | done | dropped | collected | issued => rfl

theorem notes_begin (s : Session) :
    s.Notes (s.step .begin).2 (s.fate? ⟨.begin, (s.step .begin).1⟩) := by
  rw [step, Engine.begin]
  cases htick : s.engine.clock.tick? with
  | none => exact .nothing rfl rfl
  | some clock => exact .begun rfl htick ⟨_, rfl⟩ rfl

theorem Acts.notes_read {k : RecordKey} (hs : s.Acts s' (.read id k) r) :
    s.Notes s' (s.fate? ⟨.read id k, r⟩) := by
  cases hs with
  | idle silent same =>
    rw [fate?_read_of_silent silent, same]
    exact .nothing rfl rfl
  | tended silent engine =>
    rw [fate?_read_of_silent silent]
    exact .nothing (by rw [engine]) (by rw [engine])
  | seen active engine => exact .nothing (by rw [engine]) (by rw [engine])
  | put hput => cases hput
  | @refused _ e _ _ tells active clock engine =>
    cases e with
    | storage e => exact .ended rfl active (by rw [engine]) (by rw [engine]; rfl)
    | wrongStage | conflict | exhausted | settings => cases tells

/-- A commit counts in the one way in which it ends. -/
theorem Acts.notes_commit (hs : s.Acts s' (.commit id) r) :
    s.Notes s' (s.fate? ⟨.commit id, r⟩) := by
  cases hs with
  | idle silent same =>
    rw [fate?_commit_of_silent silent, same]
    exact .nothing rfl rfl
  | tended silent engine =>
    rw [fate?_commit_of_silent silent]
    exact .nothing (by rw [engine]) (by rw [engine])
  | put hput => cases hput
  | @refused _ e _ _ tells active clock engine =>
    cases e with
    | conflict c => exact .ended rfl active (by rw [engine]) (by rw [engine]; rfl)
    | storage e => exact .ended rfl active (by rw [engine]) (by rw [engine]; rfl)
    | exhausted last => exact .ended rfl active (by rw [engine]) (by rw [engine]; rfl)
    | wrongStage | settings => cases tells
  | settled active writes engine =>
    have hfate (ts : Timestamp) : s.fate? ⟨.commit id, .committed ts⟩ = some .readOnly := by
      simp [fate?, active.1, writes]
    rw [hfate]
    exact .ended rfl active (by rw [engine]) (by rw [engine]; rfl)
  | wrote active writes _ _ _ engine =>
    have hfate (ts : Timestamp) : s.fate? ⟨.commit id, .committed ts⟩ = some .committed := by
      simp [fate?, active.1, writes]
    rw [hfate]
    exact .ended rfl active (by rw [engine]) (by rw [engine]; rfl)

theorem notes_abort (s : Session) (id : TxnId) :
    s.Notes (s.step (.abort id)).2 (s.fate? ⟨.abort id, (s.step (.abort id)).1⟩) := by
  cases hget : s.held.get? id with
  | none =>
    rw [step, onTxn, hget]
    exact .nothing rfl rfl
  | some t =>
    by_cases hactive : t.status = .active
    · have hfate : s.fate? ⟨.abort id, .done⟩ = some .abandoned := by simp [fate?, hget, hactive]
      rw [step, onTxn, hget]
      simp only [Engine.abort, dif_pos hactive, Reply.ofExcept]
      rw [hfate]
      exact .ended rfl ⟨hget, hactive⟩ rfl rfl
    · have hfate : s.fate? ⟨.abort id, .done⟩ = none := by simp [fate?, hget, hactive]
      rw [step, onTxn, hget]
      simp only [Engine.abort, dif_neg hactive]
      split_ifs
      · simp only [Reply.ofExcept]
        rw [hfate]
        exact .nothing rfl rfl
      · exact .nothing rfl rfl

theorem notes_drop (s : Session) (id : TxnId) :
    s.Notes (s.step (.drop id)).2 (s.fate? ⟨.drop id, (s.step (.drop id)).1⟩) := by
  cases hget : s.held.get? id with
  | none =>
    have hfate : s.fate? ⟨.drop id, .dropped false⟩ = none := by simp [fate?, hget]
    rw [step, hget]
    simp only
    rw [hfate]
    exact .nothing rfl rfl
  | some t =>
    rw [step, hget]
    by_cases hactive : t.status = .active
    · have hfate : s.fate? ⟨.drop id, .dropped true⟩ = some .abandoned := by
        simp [fate?, hget, hactive]
      simp only [Engine.drop, dif_pos hactive]
      rw [hfate]
      exact .ended rfl ⟨hget, hactive⟩ rfl rfl
    · have hfate : s.fate? ⟨.drop id, .dropped true⟩ = none := by simp [fate?, hget, hactive]
      simp only [Engine.drop, dif_neg hactive]
      rw [hfate]
      exact .nothing rfl rfl

theorem notes_step (s : Session) (op : Op) :
    s.Notes (s.step op).2 (s.fate? ⟨op, (s.step op).1⟩) := by
  cases op with
  | begin => exact notes_begin s
  | read id k => exact (acts_read s id k).notes_read
  | commit id => exact (acts_commit s id).notes_commit
  | abort id => exact notes_abort s id
  | drop id => exact notes_drop s id
  | write id | delete id =>
    rw [step, onTxn]
    cases s.held.get? id <;> exact .nothing rfl rfl
  | collect =>
    rw [step, onEngine, Engine.collect, Engine.onStore]
    exact .nothing rfl rfl
  | flush =>
    rw [step, onEngine, Engine.flush, Engine.onStore]
    exact .nothing rfl rfl
  | issue =>
    rw [step, onEngine, Engine.issue]
    cases s.engine.clock.tick? <;> exact .nothing rfl rfl

/-! ## Runs -/

/-- Counters and registry from `s` to `s'`, with these fates in between. -/
structure Tallies (s s' : Session) (fates : List Fate) : Prop where
  statistics : s'.engine.statistics = fates.foldl Statistics.note s.engine.statistics
  size : s'.engine.registry.size + fates.countP Fate.isEnd =
    s.engine.registry.size + fates.count .begun
  /-- Each begin takes a timestamp. -/
  clock : s.engine.clock.last.toNat + fates.count .begun ≤ s'.engine.clock.last.toNat

theorem Tallies.append {s'' : Session} {fates fates' : List Fate} (h : s.Tallies s' fates)
    (h' : s'.Tallies s'' fates') : s.Tallies s'' (fates ++ fates') := by
  refine ⟨?_, ?_, ?_⟩
  · rw [List.foldl_append, h'.statistics, h.statistics]
  · have hsize := h.size
    have hsize' := h'.size
    rw [List.countP_append, List.count_append]
    omega
  · have hclock := h.clock
    have hclock' := h'.clock
    rw [List.count_append]
    omega

theorem Orderly.get?_registry_of_name (h : s.Orderly) {clock : Clock}
    (tick : s.engine.clock.tick? = some clock) (name : id.number = s.engine.lastId + 1) :
    s.engine.registry.get? id = none := by
  rw [Option.eq_none_iff_forall_ne_some]
  intro r hr
  obtain ⟨t, active, -⟩ := (h.registered id r).1 hr
  exact h.ne_name tick name active.1 rfl

theorem Notes.tallies {fate : Option Fate} (hs : s.Notes s' fate) (h : s.Orderly)
    (clock : s.engine.clock.last ≤ s'.engine.clock.last) : s.Tallies s' fate.toList := by
  have hclock := UInt64.le_iff_toNat_le.1 clock
  cases hs with
  | nothing registry statistics => exact ⟨statistics, by rw [registry]; rfl, hclock⟩
  | begun name tick registry statistics =>
    obtain ⟨r, hr⟩ := registry
    refine ⟨statistics, ?_, ?_⟩
    · rw [hr, OrderedMap.size_insert_of_get?_eq_none _ r (h.get?_registry_of_name tick name)]
      rfl
    · rw [Clock.toNat_last_of_tick? tick]
      exact Nat.le_refl _
  | @ended fate id t last active registry statistics =>
    have hget := (h.registered id _).2 ⟨t, active, rfl⟩
    rw [h.id_eq id t active.1] at registry
    have hsize := OrderedMap.size_erase_of_get?_eq_some _ hget
    have hbegun : [fate].count .begun = 0 := by
      cases fate with
      | begun => cases last
      | committed | readOnly | conflict | storageFailure | exhausted | abandoned => rfl
    refine ⟨statistics, ?_, ?_⟩
    · rw [Option.toList_some, hbegun, List.countP_cons, if_pos last, registry]
      exact hsize
    · rw [Option.toList_some, hbegun]
      exact hclock

theorem tallies_run (h : s.Orderly) (ops : List Op) : s.Tallies (s.run ops).2 (s.fates ops) := by
  induction ops generalizing s with
  | nil => exact ⟨rfl, rfl, Nat.le_refl _⟩
  | cons op rest ih =>
    have hacts := acts_step s op
    exact ((notes_step s op).tallies h hacts.clock_le).append (ih (h.next hacts))

theorem Orderly.size_registry (h : s.Orderly) :
    s.engine.registry.size = s.held.values.countP fun t => decide (t.status = .active) := by
  let actives := s.held.toList.filter fun e => decide (e.2.status = .active)
  have hentries : s.engine.registry.toList =
      actives.map fun e => (e.1, { beginTs := e.2.beginTs }) := by
    -- both lists ascend, so it is enough that they have the same entries
    have hascending : Ascending actives := s.held.ascending.filter _
    refine s.engine.registry.ascending.ext
      (OrderedMap.ascending_of_keys_eq (by simp [List.map_map, Function.comp_def]) hascending)
      fun ⟨id, r⟩ => ?_
    rw [OrderedMap.mem_toList_iff, h.registered id r, List.mem_map]
    constructor
    · rintro ⟨t, ⟨hget, hactive⟩, rfl⟩
      have hmem := (s.held.mem_toList_iff id t).2 hget
      exact ⟨(id, t), List.mem_filter.2 ⟨hmem, decide_eq_true hactive⟩, rfl⟩
    · rintro ⟨⟨i, t⟩, hmem, heq⟩
      cases heq
      obtain ⟨hmem, hactive⟩ := List.mem_filter.1 hmem
      exact ⟨t, ⟨(s.held.mem_toList_iff i t).1 hmem, of_decide_eq_true hactive⟩, rfl⟩
  rw [OrderedMap.size, hentries, List.length_map, OrderedMap.values, List.countP_map,
    List.countP_eq_length_filter]
  rfl

/-- Operations that nothing is counted for: a begin that fails, whatever is asked of a transaction
that has ended, a collection and a flush. -/
inductive Uncounted (s : Session) : Op → Prop
  | begin (failed : ∀ id ts, (s.step .begin).1 ≠ .began id ts) : Uncounted s .begin
  | ended {op : Op} {id : TxnId} {t : Txn} {action : Action} (get : s.held.get? id = some t)
    (ended : t.status.isTerminal = true) (asked : op.asked? = some (id, action)) : Uncounted s op
  | dropped {id : TxnId} {t : Txn} (get : s.held.get? id = some t)
    (ended : t.status.isTerminal = true) : Uncounted s (.drop id)
  | collect : Uncounted s .collect
  | flush : Uncounted s .flush

theorem Uncounted.unchanged (hop : s.Uncounted op) (h : s.Orderly) :
    (s.step op).2.engine.statistics = s.engine.statistics ∧
      (s.step op).2.engine.registry = s.engine.registry := by
  have hover {id : TxnId} {t : Txn} (get : s.held.get? id = some t)
      (ended : t.status.isTerminal = true) : s.Over id t := by
    refine over_of_not_active get (h.id_eq id t get) fun hactive => ?_
    rw [hactive] at ended
    cases ended
  cases hop with
  | begin failed =>
    rw [step, Engine.begin] at failed ⊢
    cases htick : s.engine.clock.tick? with
    | none => exact ⟨rfl, rfl⟩
    | some clock =>
      rw [htick] at failed
      exact absurd rfl (failed _ _)
  | @ended _ id t action get ended asked =>
    have hend := hover get ended
    by_cases hmust : action ≠ .abort ∨ t.status = .committed
    · rw [hend.refused op action asked hmust]
      exact ⟨rfl, rfl⟩
    · rw [not_or, not_not] at hmust
      obtain ⟨rfl, hcommitted⟩ := hmust
      have haborted : t.status = .aborted := by
        cases hstatus : t.status with
        | aborted => rfl
        | committed => exact absurd hstatus hcommitted
        | active | validating => rw [hstatus] at ended; cases ended
      have hop : op = .abort id := by
        cases op with
        | abort i =>
          cases asked
          rfl
        | begin | read | write | delete | commit | drop | collect | issue | flush => cases asked
      rw [hop, hend.aborted haborted]
      exact ⟨rfl, rfl⟩
  | dropped get ended =>
    rw [(hover get ended).dropped]
    exact ⟨rfl, rfl⟩
  | collect =>
    rw [step, onEngine, Engine.collect, Engine.onStore]
    exact ⟨rfl, rfl⟩
  | flush =>
    rw [step, onEngine, Engine.flush, Engine.onStore]
    exact ⟨rfl, rfl⟩

end Session

namespace Engine

/-- What the counters say between any two operations. -/
structure Accounts (g : Engine) (ops : List Op) : Prop where
  begun : (g.after ops).engine.statistics.begun = (g.session.fates ops).count .begun
  committed : (g.after ops).engine.statistics.committed = (g.session.fates ops).count .committed
  readOnly : (g.after ops).engine.statistics.readOnlyCommitted =
    (g.session.fates ops).count .readOnly
  conflicts : (g.after ops).engine.statistics.conflicts = (g.session.fates ops).count .conflict
  storageFailures : (g.after ops).engine.statistics.storageFailures =
    (g.session.fates ops).count .storageFailure
  aborted : (g.after ops).engine.statistics.aborted =
    (g.after ops).engine.statistics.conflicts + (g.after ops).engine.statistics.storageFailures +
      (g.session.fates ops).count .exhausted + (g.session.fates ops).count .abandoned
  active : (g.after ops).engine.registry.size =
    (g.after ops).held.values.countP fun t => decide (t.status = .active)
  conserved : (g.after ops).engine.statistics.begun =
    (g.after ops).engine.statistics.committed +
      (g.after ops).engine.statistics.readOnlyCommitted +
      (g.after ops).engine.statistics.aborted + (g.after ops).engine.registry.size
  /-- No counter outgrows a timestamp. -/
  bounded : (g.after ops).engine.statistics.begun ≤ (g.after ops).engine.clock.last.toNat
  uncounted : ∀ op, (g.after ops).Uncounted op →
    ((g.after ops).step op).2.engine.statistics = (g.after ops).engine.statistics ∧
      ((g.after ops).step op).2.engine.registry = (g.after ops).engine.registry

/-- The counters of every run over every store say how often each fate was met, and they add up. -/
theorem accounts (store : Store) (clock : Clock) (every : Option UInt64) (ops : List Op) :
    (withClock store clock every).Accounts ops := by
  have htallies := Session.tallies_run (Session.orderly_session store clock every) ops
  have horderly := (orderly_run store clock every ops).1
  have hstatistics : ((withClock store clock every).after ops).engine.statistics = _ :=
    htallies.statistics.trans (Statistics.foldl_note _ {})
  have hsize : ((withClock store clock every).after ops).engine.registry.size + _ = 0 + _ :=
    htallies.size
  have hclock : _ ≤ ((withClock store clock every).after ops).engine.clock.last.toNat :=
    htallies.clock
  rw [Fate.countP_isEnd] at hsize
  have hbegun := congrArg Statistics.begun hstatistics
  have hcommitted := congrArg Statistics.committed hstatistics
  have hreadOnly := congrArg Statistics.readOnlyCommitted hstatistics
  have haborted := congrArg Statistics.aborted hstatistics
  have hconflicts := congrArg Statistics.conflicts hstatistics
  have hfailures := congrArg Statistics.storageFailures hstatistics
  simp only [Nat.zero_add] at hbegun hcommitted hreadOnly haborted hconflicts hfailures
  refine ⟨hbegun, hcommitted, hreadOnly, hconflicts, hfailures, ?_, horderly.size_registry, ?_, ?_,
    fun op hop => hop.unchanged horderly⟩
  · rw [haborted, hconflicts, hfailures]
  · rw [hbegun, hcommitted, hreadOnly, haborted]
    omega
  · rw [hbegun]
    omega

end Engine

end Mvcc
