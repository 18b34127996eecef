import Mvcc.Proofs.Engine
import Mvcc.Proofs.Trace

/-!
# What one operation does

Every operation of a session is one of a few moves. Each move says all that the operation can do:
to the chains, to the engine and to the transactions that have not ended.

* `Session.Active`: a transaction that is held and has not ended.
* `Session.Stands`: the chains that the tree stands for, and what is true of active transactions.
* `Session.Moves`, `exists_moves`: what an operation can do.
* `Moves.engine_eq`, `Moves.begin_eq`, `Moves.stands`: what is kept on the way.
-/

namespace Mvcc

/-- Whether the lengths of an operation fit their fields. -/
def Op.Fits : Op → Prop
  | .read _ k | .delete _ k => k.Fits
  | .write _ k p => k.Fits ∧ p.length < UInt64.size
  | .begin | .commit _ | .abort _ | .drop _ | .collect | .issue | .flush => True

/-- Two transactions that overlap, and a third that begins once both have committed. The second one
writes nothing, so its place is before the first. -/
def Op.overlap : List Op :=
  [.begin, .begin, .read ⟨2⟩ ⟨"t", .int 2⟩, .write ⟨1⟩ ⟨"t", .int 1⟩ [7], .commit ⟨1⟩, .commit ⟨2⟩,
    .begin]

theorem Op.fits_key (n : Int64) : RecordKey.Fits ⟨"t", .int n⟩ :=
  ⟨(by decide +kernel : (Bytes.ofText "t").length < UInt64.size), trivial⟩

theorem Op.fits_overlap : ∀ op ∈ overlap, op.Fits := by
  simp [overlap, Fits, fits_key, UInt64.size]

/-- What is put under which key, by which transaction. -/
def Op.put? : Op → Option (TxnId × RecordKey × Option Payload)
  | .write id k p => some (id, k, some p)
  | .delete id k => some (id, k, none)
  | _ => none

namespace Session

open Engine (idles_self carries_of_eq)

/-- A transaction that is held and has not ended. -/
def Active (s : Session) (id : TxnId) (t : Txn) : Prop :=
  s.held.get? id = some t ∧ t.status = .active

/-- The tree stands for sound chains, and active transactions are in order. -/
structure Stands (s : Session) (a : Chains) : Prop where
  encodes : s.engine.store.tree.Encodes a
  sound : a.Sound
  id_eq : ∀ id t, s.Active id t → t.id = id
  fits : ∀ id t, s.Active id t → t.Fits
  begin_le : ∀ id t, s.Active id t → t.beginTs ≤ s.engine.clock.last
  registered : ∀ id t, s.Active id t →
    ∃ r, s.engine.registry.get? id = some r ∧ r.beginTs = t.beginTs

theorem stands_session {g : Engine} {a : Chains} (encodes : g.store.tree.Encodes a)
    (sound : a.Sound) : g.session.Stands a := by
  refine ⟨encodes, sound, ?_, ?_, ?_, ?_⟩
  all_goals
    intro id t ht
    cases ht.1

/-- What an operation does to a session that stands on chains. -/
inductive Moves (s : Session) (a : Chains) (s' : Session) : Op → Reply → Chains → Prop
  /-- Nothing that anyone would notice. -/
  | idle {op : Op} {r : Reply} (silent : Event.Silent ⟨op, r⟩)
    (engine : s.engine.Idles s'.engine s.engine.registry)
    (turns : ∀ i u, s'.Active i u → s.Active i u) : Moves s a s' op r a
  | began {id : TxnId} (name : id.number = s.engine.lastId + 1)
    (tick : s.engine.clock.tick? = some s'.engine.clock)
    (engine : s'.engine = { s.engine with
      clock := s'.engine.clock
      lastId := id.number
      registry := s.engine.registry.insert id { beginTs := s'.engine.clock.last }
      statistics := s'.engine.statistics })
    (turns : ∀ i u, s'.Active i u →
      i = id ∧ u = { id, beginTs := s'.engine.clock.last } ∨ i ≠ id ∧ s.Active i u) :
    Moves s a s' .begin (.began id s'.engine.clock.last) a
  /-- A read of the transaction's own write. -/
  | own {id : TxnId} {k : RecordKey} {t : Txn} {w : Write} (active : s.Active id t)
    (write : t.writes.get? k = some w) (engine : s'.engine = s.engine)
    (turns : ∀ i u, s'.Active i u → s.Active i u) :
    Moves s a s' (.read id k) (.found w.payload) a
  /-- A read of the snapshot. -/
  | seen {id : TxnId} {k : RecordKey} {t : Txn} {found : Option Payload} (active : s.Active id t)
    (write : t.writes.get? k = none)
    (visible : ((a k).visible? t.beginTs).bind (·.payload) = found)
    (engine : s.engine.Idles s'.engine s.engine.registry)
    (turns : ∀ i u, s'.Active i u →
      i = id ∧ u = { t with
        reads := t.reads.record k { readTs := t.beginTs, live := found.isSome } } ∨
      i ≠ id ∧ s.Active i u) :
    Moves s a s' (.read id k) (.found found) a
  | put {op : Op} {id : TxnId} {k : RecordKey} {p : Option Payload} {t : Txn}
    (put : op.put? = some (id, k, p)) (active : s.Active id t) (engine : s'.engine = s.engine)
    (turns : ∀ i u, s'.Active i u →
      i = id ∧ u = { t with writes := t.writes.put k p } ∨ i ≠ id ∧ s.Active i u) :
    Moves s a s' op .done a
  /-- A transaction ends without a commit. -/
  | ended {op : Op} {r : Reply} {id : TxnId} {t : Txn} (silent : Event.Silent ⟨op, r⟩)
    (active : s.Active id t) (engine : s.engine.Idles s'.engine (s.engine.registry.erase id))
    (turns : ∀ i u, s'.Active i u → i ≠ id ∧ s.Active i u) : Moves s a s' op r a
  /-- A commit without writes. -/
  | settled {id : TxnId} {t : Txn} (active : s.Active id t)
    (free : a.conflict? t s.engine.clock.last = none) (writes : t.writes.isEmpty = true)
    (engine : s.engine.Idles s'.engine (s.engine.registry.erase id))
    (turns : ∀ i u, s'.Active i u → i ≠ id ∧ s.Active i u) :
    Moves s a s' (.commit id) (.committed t.beginTs) a
  /-- A commit with writes. -/
  | committed {id : TxnId} {t : Txn} {a' : Chains} (active : s.Active id t)
    (free : a.conflict? t s.engine.clock.last = none) (writes : t.writes.isEmpty = false)
    (tick : s.engine.clock.tick? = some s'.engine.clock)
    (engine : s.engine.Carries s'.engine (s.engine.registry.erase id))
    (leaves : s.engine.Leaves s'.engine (a.commit t.writes s'.engine.clock.last) a')
    (encodes : s'.engine.store.tree.Encodes a')
    (turns : ∀ i u, s'.Active i u → i ≠ id ∧ s.Active i u) :
    Moves s a s' (.commit id) (.committed s'.engine.clock.last) a'
  | collected {n : Nat} {low : Timestamp}
    (low_le : ∀ id r, s.engine.registry.get? id = some r → low ≤ r.beginTs)
    (engine : s.engine.Carries s'.engine s.engine.registry)
    (clock : s'.engine.clock = s.engine.clock)
    (encodes : s'.engine.store.tree.Encodes (a.keep fun v => !v.endedBy low))
    (turns : ∀ i u, s'.Active i u → s.Active i u) (low_eq : low = s.engine.lowWatermark) :
    Moves s a s' .collect (.collected n) (a.keep fun v => !v.endedBy low)

variable {s s' : Session} {a a' : Chains} {op : Op} {r : Reply}

theorem active_insert {g : Engine} {id i : TxnId} {t u : Txn}
    (h : ({ engine := g, held := s.held.insert id t } : Session).Active i u) :
    i = id ∧ u = t ∨ i ≠ id ∧ s.Active i u := by
  obtain ⟨hget, hactive⟩ := h
  have hget' : (s.held.insert id t).get? i = some u := hget
  rw [OrderedMap.get?_insert] at hget'
  split_ifs at hget' with hi
  · cases hget'
    exact Or.inl ⟨hi, rfl⟩
  · exact Or.inr ⟨hi, hget', hactive⟩

theorem moves_of_refused {id : TxnId} {t : Txn} (hget : s.held.get? id = some t)
    (hactive : t.status ≠ .active) (silent : Event.Silent ⟨op, r⟩) :
    s.Moves a { engine := s.engine, held := s.held.insert id t } op r a := by
  refine .idle silent (idles_self _) fun i u hu => ?_
  rcases active_insert hu with ⟨rfl, rfl⟩ | ⟨-, hu⟩
  · exact absurd hu.2 hactive
  · exact hu

theorem silent_failed (op : Op) (e : TxnError) : Event.Silent ⟨op, .failed e⟩ := by
  refine ⟨fun _ => ?_, fun _ => ?_, fun _ => ?_⟩ <;> cases op <;> rfl

theorem silent_notHeld (op : Op) : Event.Silent ⟨op, .notHeld⟩ := by
  refine ⟨fun _ => ?_, fun _ => ?_, fun _ => ?_⟩ <;> cases op <;> rfl

theorem exists_moves_begin (s : Session) (a : Chains) :
    s.Moves a (s.step .begin).2 .begin (s.step .begin).1 a := by
  rw [step, Engine.begin]
  cases htick : s.engine.clock.tick? with
  | none =>
    refine .idle (silent_failed _ _) { idles_self s.engine with lastId_eq := ?_ } fun i u hu => hu
    exact Or.inr ((Clock.tick?_eq_none_iff _).1 htick)
  | some clock => exact .began rfl htick rfl fun i u hu => active_insert hu

theorem exists_step_read (h : s.Stands a) {id : TxnId} {t : Txn} (active : s.Active id t)
    {k : RecordKey} (hk : k.Fits) :
    ∃ r g' t', s.step (.read id k) =
        (.ofExcept .found r, { engine := g', held := s.held.insert id t' }) ∧
      s.engine.Reads t k a g' t' r := by
  obtain ⟨r, g', t', heq, hr⟩ := Engine.exists_read h.encodes hk active.2
  refine ⟨r, g', t', ?_, hr⟩
  rw [step, onTxn, active.1]
  simp only [heq]

theorem step_read_of_not_active {id : TxnId} {t : Txn} (hget : s.held.get? id = some t)
    (hactive : t.status ≠ .active) (k : RecordKey) :
    s.step (.read id k) =
      (.failed (.wrongStage t.id t.status .read), { s with held := s.held.insert id t }) := by
  rw [step, onTxn, hget]
  simp only [Engine.read, dif_neg hactive]
  rfl

theorem exists_moves_read (h : s.Stands a) (id : TxnId) {k : RecordKey} (hk : k.Fits) :
    s.Moves a (s.step (.read id k)).2 (.read id k) (s.step (.read id k)).1 a := by
  cases hget : s.held.get? id with
  | none =>
    rw [step, onTxn, hget]
    exact .idle (silent_notHeld _) (idles_self _) fun i u hu => hu
  | some t =>
    by_cases hactive : t.status = .active
    · have ht : s.Active id t := ⟨hget, hactive⟩
      obtain ⟨r, g', t', heq, hr⟩ := exists_step_read h ht hk
      rw [heq]
      cases hr with
      | own write engine =>
        refine .own ht write engine fun i u hu => ?_
        rcases active_insert hu with ⟨rfl, rfl⟩ | ⟨-, hu⟩
        · exact ht
        · exact hu
      | seen write visible engine =>
        exact .seen ht write visible engine fun i u hu => active_insert hu
      | failed write status engine failed =>
        rw [h.id_eq id t ht] at engine
        refine .ended (silent_failed _ _) ht engine fun i u hu => ?_
        rcases active_insert hu with ⟨rfl, rfl⟩ | hu'
        · exact absurd hu.2 status
        · exact hu'
    · rw [step_read_of_not_active hget hactive]
      exact moves_of_refused hget hactive (silent_failed _ _)

theorem put_of_active {t : Txn} (action : Action) (k : RecordKey) (p : Option Payload)
    (h : t.status = .active) :
    t.put action k p = (.ok (), { t with writes := t.writes.put k p }) := if_pos h

theorem put_of_not_active {t : Txn} (action : Action) (k : RecordKey) (p : Option Payload)
    (h : t.status ≠ .active) :
    t.put action k p = (.error (.wrongStage t.id t.status action), t) := if_neg h

theorem exists_moves_put {id : TxnId} {k : RecordKey} {p : Option Payload} (action : Action)
    (hop : op.put? = some (id, k, p))
    (hstep : s.step op = s.onTxn id (fun () => .done) fun g t =>
      ((t.put action k p).1, g, (t.put action k p).2)) :
    s.Moves a (s.step op).2 op (s.step op).1 a := by
  rw [hstep, onTxn]
  cases hget : s.held.get? id with
  | none => exact .idle (silent_notHeld _) (idles_self _) fun i u hu => hu
  | some t =>
    by_cases hactive : t.status = .active
    · simp only [put_of_active action k p hactive]
      exact .put hop ⟨hget, hactive⟩ rfl fun i u hu => active_insert hu
    · simp only [put_of_not_active action k p hactive]
      exact moves_of_refused hget hactive (silent_failed _ _)

theorem exists_step_commit (h : s.Stands a) {id : TxnId} {t : Txn} (active : s.Active id t) :
    ∃ r g', s.step (.commit id) =
        (.ofExcept .committed r, { engine := g', held := s.held.insert id (t.answered a r) }) ∧
      s.engine.Carries g' (s.engine.registry.erase id) ∧ s.engine.Commits t a g' r := by
  obtain ⟨r, g', t', heq, rfl, hcarries, hr⟩ := Engine.exists_commit h.encodes h.sound
    (h.fits id t active) active.2 (h.begin_le id t active)
  rw [h.id_eq id t active] at hcarries
  refine ⟨r, g', ?_, hcarries, hr⟩
  rw [step, onTxn, active.1]
  simp only [heq]

theorem exists_numbered (h : s.Stands a) {id : TxnId} {t : Txn} (active : s.Active id t)
    {ts : Timestamp} (committed : (s.step (.commit id)).1 = .committed ts) {k : RecordKey} {w : Write}
    (hw : t.writes.get? k = some w) :
    ∃ u, (s.step (.commit id)).2.held.get? id = some u ∧
      u.writes.get? k = some { payload := w.payload, number := some (a.draft k w).number } := by
  obtain ⟨r, g', heq, -⟩ := exists_step_commit h active
  rw [heq] at committed ⊢
  cases r with
  | error e => cases committed
  | ok ts' =>
    refine ⟨_, OrderedMap.get?_insert_self _ _ _, ?_⟩
    show (a.numbered t.writes).get? k = _
    rw [Chains.get?_numbered, hw]
    rfl

theorem step_commit_of_not_active {id : TxnId} {t : Txn} (hget : s.held.get? id = some t)
    (hactive : t.status ≠ .active) :
    s.step (.commit id) =
      (.failed (.wrongStage t.id t.status .commit), { s with held := s.held.insert id t }) := by
  rw [step, onTxn, hget]
  simp only [Engine.commit, dif_neg hactive]
  rfl

theorem exists_moves_commit (h : s.Stands a) (id : TxnId) :
    ∃ a', s.Moves a (s.step (.commit id)).2 (.commit id) (s.step (.commit id)).1 a' := by
  cases hget : s.held.get? id with
  | none =>
    rw [step, onTxn, hget]
    exact ⟨a, .idle (silent_notHeld _) (idles_self _) fun i u hu => hu⟩
  | some t =>
    by_cases hactive : t.status = .active
    · have ht : s.Active id t := ⟨hget, hactive⟩
      obtain ⟨r, g', heq, hcarries, hr⟩ := exists_step_commit h ht
      have turns : ∀ i u,
          ({ engine := g', held := s.held.insert id (t.answered a r) } : Session).Active i u →
            i ≠ id ∧ s.Active i u := by
        intro i u hu
        rcases active_insert hu with ⟨rfl, rfl⟩ | hu'
        · exact absurd hu.2 (t.status_answered_ne a r)
        · exact hu'
      rw [heq]
      cases hr with
      | refused reason kept count =>
        exact ⟨a, .ended (silent_failed _ _) ht { hcarries with kept, count } turns⟩
      | readOnly free writes kept clock count =>
        exact ⟨a, .settled ht free writes { hcarries with kept, count } turns⟩
      | wrote free writes tick leaves encodes =>
        exact ⟨_, .committed ht free writes tick hcarries leaves encodes turns⟩
    · rw [step_commit_of_not_active hget hactive]
      exact ⟨a, moves_of_refused hget hactive (silent_failed _ _)⟩

theorem exists_moves_abort (h : s.Stands a) (id : TxnId) :
    s.Moves a (s.step (.abort id)).2 (.abort id) (s.step (.abort id)).1 a := by
  have silent (r : Reply) : Event.Silent ⟨.abort id, r⟩ := by
    refine ⟨fun _ => rfl, fun _ => rfl, fun _ => rfl⟩
  rw [step, onTxn]
  cases hget : s.held.get? id with
  | none => exact .idle (silent _) (idles_self _) fun i u hu => hu
  | some t =>
    simp only [Engine.abort]
    by_cases hactive : t.status = .active
    · have ht : s.Active id t := ⟨hget, hactive⟩
      rw [dif_pos hactive]
      refine .ended (silent _) ht { idles_self s.engine with registry_eq := ?_ } fun i u hu => ?_
      · rw [← h.id_eq id t ht]
        rfl
      · rcases active_insert hu with ⟨rfl, rfl⟩ | hu'
        · cases hu.2
        · exact hu'
    · rw [dif_neg hactive]
      split_ifs
      · exact moves_of_refused hget hactive (silent _)
      · exact moves_of_refused hget hactive (silent _)

theorem exists_moves_drop (h : s.Stands a) (id : TxnId) :
    s.Moves a (s.step (.drop id)).2 (.drop id) (s.step (.drop id)).1 a := by
  have silent (r : Reply) : Event.Silent ⟨.drop id, r⟩ := by
    refine ⟨fun _ => rfl, fun _ => rfl, fun _ => rfl⟩
  rw [step]
  cases hget : s.held.get? id with
  | none => exact .idle (silent _) (idles_self _) fun i u hu => hu
  | some t =>
    have turns (g : Engine) :
        ∀ i u, ({ engine := g, held := s.held.erase id } : Session).Active i u →
          i ≠ id ∧ s.Active i u := by
      rintro i u ⟨hu, hactive⟩
      have hu' : (s.held.erase id).get? i = some u := hu
      rw [OrderedMap.get?_erase] at hu'
      split_ifs at hu' with hi
      exact ⟨hi, hu', hactive⟩
    simp only [Engine.drop]
    by_cases hactive : t.status = .active
    · have ht : s.Active id t := ⟨hget, hactive⟩
      rw [dif_pos hactive]
      refine .ended (silent _) ht { idles_self s.engine with registry_eq := ?_ } (turns _)
      rw [← h.id_eq id t ht]
      rfl
    · rw [dif_neg hactive]
      exact .idle (silent _) (idles_self _) fun i u hu => (turns _ i u hu).2

theorem exists_moves_collect (h : s.Stands a) :
    ∃ a', s.Moves a (s.step .collect).2 .collect (s.step .collect).1 a' := by
  obtain ⟨r, st, heq, hcalled, hr⟩ := Engine.exists_collect h.encodes
  rw [step, onEngine]
  simp only [heq]
  rcases hr with ⟨⟨n, rfl⟩, hencodes⟩ | ⟨⟨e, rfl⟩, hkept⟩
  · exact ⟨_, .collected (fun id r => Engine.lowWatermark_le)
      { idles_self s.engine with called := hcalled } rfl hencodes (fun i u hu => hu) rfl⟩
  · exact ⟨a, .idle (silent_failed _ _)
      { idles_self s.engine with called := hcalled, kept := hkept } fun i u hu => hu⟩

theorem exists_moves_issue (s : Session) (a : Chains) :
    s.Moves a (s.step .issue).2 .issue (s.step .issue).1 a := by
  have silent (r : Reply) : Event.Silent ⟨.issue, r⟩ := ⟨fun _ => rfl, fun _ => rfl, fun _ => rfl⟩
  rw [step, onEngine, Engine.issue]
  cases htick : s.engine.clock.tick? with
  | none => exact .idle (silent _) (idles_self _) fun i u hu => hu
  | some clock =>
    exact .idle (silent _) { idles_self s.engine with clock := Or.inr htick } fun i u hu => hu

theorem exists_moves_flush (s : Session) (a : Chains) :
    s.Moves a (s.step .flush).2 .flush (s.step .flush).1 a := by
  have silent (r : Reply) : Event.Silent ⟨.flush, r⟩ := ⟨fun _ => rfl, fun _ => rfl, fun _ => rfl⟩
  obtain ⟨r, st, heq, hkept, -⟩ := Store.exists_flush s.engine.store
  rw [step, onEngine, Engine.flush, Engine.onStore, heq]
  exact .idle (silent _) { idles_self s.engine with called := hkept.toCalled, kept := hkept }
    fun i u hu => hu

/-- Every operation is one of the moves. -/
theorem exists_moves (h : s.Stands a) (hop : op.Fits) :
    ∃ a', s.Moves a (s.step op).2 op (s.step op).1 a' := by
  cases op with
  | begin => exact ⟨a, exists_moves_begin s a⟩
  | read id k => exact ⟨a, exists_moves_read h id hop⟩
  | write id k p => exact ⟨a, exists_moves_put .write rfl rfl⟩
  | delete id k => exact ⟨a, exists_moves_put .delete rfl rfl⟩
  | commit id => exact exists_moves_commit h id
  | abort id => exact ⟨a, exists_moves_abort h id⟩
  | drop id => exact ⟨a, exists_moves_drop h id⟩
  | collect => exact exists_moves_collect h
  | issue => exact ⟨a, exists_moves_issue s a⟩
  | flush => exact ⟨a, exists_moves_flush s a⟩

/-! ## What moves keep -/

theorem Moves.engine_eq (h : s.Moves a s' op r a') :
    (∃ registry, s.engine.Carries s'.engine registry ∧
        ∀ i u, registry.get? i = some u → s.engine.registry.get? i = some u) ∨
      op = .begin ∧ s.engine.clock.tick? = some s'.engine.clock ∧
        ∃ id : TxnId, s'.engine = { s.engine with
          clock := s'.engine.clock
          lastId := id.number
          registry := s.engine.registry.insert id { beginTs := s'.engine.clock.last }
          statistics := s'.engine.statistics } := by
  have erased (id : TxnId) : ∀ i u, (s.engine.registry.erase id).get? i = some u →
      s.engine.registry.get? i = some u := by
    intro i u hu
    rw [OrderedMap.get?_erase] at hu
    split_ifs at hu
    exact hu
  cases h with
  | idle _ engine => exact Or.inl ⟨_, engine.toCarries, fun _ _ => id⟩
  | @began id _ tick engine => exact Or.inr ⟨rfl, tick, id, engine⟩
  | own _ _ engine => exact Or.inl ⟨_, carries_of_eq engine, fun _ _ => id⟩
  | seen _ _ _ engine => exact Or.inl ⟨_, engine.toCarries, fun _ _ => id⟩
  | put _ _ engine => exact Or.inl ⟨_, carries_of_eq engine, fun _ _ => id⟩
  | ended _ _ engine => exact Or.inl ⟨_, engine.toCarries, erased _⟩
  | settled _ _ _ engine => exact Or.inl ⟨_, engine.toCarries, erased _⟩
  | committed _ _ _ _ engine => exact Or.inl ⟨_, engine, erased _⟩
  | collected _ engine => exact Or.inl ⟨_, engine, fun _ _ => id⟩

theorem Moves.clock_le (h : s.Moves a s' op r a') :
    s.engine.clock.last ≤ s'.engine.clock.last := by
  rcases h.engine_eq with ⟨_, engine, -⟩ | ⟨-, tick, -⟩
  · exact engine.clock_le
  · exact UInt64.le_of_lt (Clock.lt_last_of_tick? tick)

theorem Moves.called (h : s.Moves a s' op r a') : s.engine.store.Called s'.engine.store := by
  rcases h.engine_eq with ⟨_, engine, -⟩ | ⟨-, -, id, engine⟩
  · exact engine.called
  · rw [engine]
    exact (Store.Kept.refl _).toCalled

theorem Moves.collectEvery_eq (h : s.Moves a s' op r a') :
    s'.engine.collectEvery = s.engine.collectEvery := by
  rcases h.engine_eq with ⟨_, engine, -⟩ | ⟨-, -, id, engine⟩
  · exact engine.collectEvery_eq
  · rw [engine]

theorem Moves.begin_eq (h : s.Moves a s' op r a') {i : TxnId} {u : Txn} (hu : s'.Active i u) :
    (∃ t, s.Active i t ∧ u.beginTs = t.beginTs) ∨
      r = .began i s'.engine.clock.last ∧ s.engine.clock.last < s'.engine.clock.last ∧
        u = { id := i, beginTs := s'.engine.clock.last } := by
  cases h with
  | idle _ _ turns => exact Or.inl ⟨u, turns i u hu, rfl⟩
  | began _ tick _ turns =>
    rcases turns i u hu with ⟨rfl, rfl⟩ | ⟨-, hu⟩
    · exact Or.inr ⟨rfl, Clock.lt_last_of_tick? tick, rfl⟩
    · exact Or.inl ⟨u, hu, rfl⟩
  | own _ _ _ turns => exact Or.inl ⟨u, turns i u hu, rfl⟩
  | seen active _ _ _ turns =>
    rcases turns i u hu with ⟨rfl, rfl⟩ | ⟨-, hu⟩
    · exact Or.inl ⟨_, active, rfl⟩
    · exact Or.inl ⟨u, hu, rfl⟩
  | put _ active _ turns =>
    rcases turns i u hu with ⟨rfl, rfl⟩ | ⟨-, hu⟩
    · exact Or.inl ⟨_, active, rfl⟩
    · exact Or.inl ⟨u, hu, rfl⟩
  | ended _ _ _ turns => exact Or.inl ⟨u, (turns i u hu).2, rfl⟩
  | settled _ _ _ _ turns => exact Or.inl ⟨u, (turns i u hu).2, rfl⟩
  | committed _ _ _ _ _ _ _ turns => exact Or.inl ⟨u, (turns i u hu).2, rfl⟩
  | collected _ _ _ _ turns => exact Or.inl ⟨u, turns i u hu, rfl⟩

theorem Stands.next (h : s.Stands a) (encodes : s'.engine.store.tree.Encodes a') (sound : a'.Sound)
    (clock : s.engine.clock.last ≤ s'.engine.clock.last)
    (turns : ∀ i u, s'.Active i u →
      s'.engine.registry.get? i = s.engine.registry.get? i ∧
        ∃ t, s.Active i t ∧ u.id = t.id ∧ u.beginTs = t.beginTs ∧ (t.Fits → u.Fits)) :
    s'.Stands a' := by
  refine ⟨encodes, sound, fun i u hu => ?_, fun i u hu => ?_, fun i u hu => ?_, fun i u hu => ?_⟩
  all_goals obtain ⟨hregistry, t, ht, hid, hbegin, hfits⟩ := turns i u hu
  · rw [hid]
    exact h.id_eq i t ht
  · exact hfits (h.fits i t ht)
  · rw [hbegin]
    exact UInt64.le_trans (h.begin_le i t ht) clock
  · rw [hregistry, hbegin]
    exact h.registered i t ht

theorem fits_record {t : Txn} (h : t.Fits) {k : RecordKey} (hk : k.Fits) (o : Observation) :
    ({ t with reads := t.reads.record k o } : Txn).Fits := by
  refine ⟨fun e he => ?_, h.writes⟩
  obtain ⟨k', o'⟩ := e
  rw [OrderedMap.mem_toList_iff] at he
  have he' : (t.reads.insertIfNew k o).get? k' = some o' := he
  rw [OrderedMap.get?_insertIfNew] at he'
  split_ifs at he' with hk'
  · rw [hk']
    exact hk
  · exact h.reads (k', o') ((OrderedMap.mem_toList_iff _ _ _).2 he')

theorem record_readTs_eq {t : Txn} (h : ∀ k o, t.reads.get? k = some o → o.readTs = t.beginTs)
    (k : RecordKey) (live : Bool) :
    ∀ k' o, (t.reads.record k { readTs := t.beginTs, live }).get? k' = some o →
      o.readTs = t.beginTs := by
  intro k' o ho
  rw [ReadSet.record, OrderedMap.get?_insertIfNew] at ho
  split_ifs at ho with hk
  · cases hseen : t.reads.get? k with
    | none =>
      rw [hseen] at ho
      cases ho
      rfl
    | some o' =>
      rw [hseen] at ho
      cases ho
      exact h k _ hseen
  · exact h k' o ho

theorem fits_put {t : Txn} (h : t.Fits) {k : RecordKey} {p : Option Payload} (hk : k.Fits)
    (hp : ∀ b ∈ p, b.length < UInt64.size) :
    ({ t with writes := t.writes.put k p } : Txn).Fits := by
  refine ⟨h.reads, fun e he => ?_⟩
  rcases (OrderedMap.mem_insert_iff t.writes k { payload := p } e).1 he with rfl | ⟨-, he⟩
  · exact ⟨hk, hp⟩
  · exact h.writes e he

theorem fits_of_put? {id : TxnId} {k : RecordKey} {p : Option Payload}
    (hop : op.Fits) (hput : op.put? = some (id, k, p)) :
    k.Fits ∧ ∀ b ∈ p, b.length < UInt64.size := by
  cases op <;> cases hput
  · exact ⟨hop.1, by simpa using hop.2⟩
  · exact ⟨hop, by simp⟩

theorem Stands.sound_commit (h : s.Stands a) {id : TxnId} {t : Txn} {clock : Clock}
    (active : s.Active id t) (free : a.conflict? t s.engine.clock.last = none)
    (tick : s.engine.clock.tick? = some clock) : (a.commit t.writes clock.last).Sound := by
  have hlt : t.beginTs < clock.last := by
    have hle := h.begin_le id t active
    have hlast := Clock.lt_last_of_tick? tick
    grind
  have hpos : 0 < clock.last := by
    rw [UInt64.lt_iff_toNat_lt] at hlt ⊢
    exact Nat.lt_of_le_of_lt (Nat.zero_le _) hlt
  exact h.sound.commit hpos (Engine.last_lt_of_conflict?_eq_none h.sound free hlt)

theorem Stands.next_of_began (h : s.Stands a) {id : TxnId}
    (clock : s.engine.clock.last ≤ s'.engine.clock.last)
    (store : s'.engine.store = s.engine.store)
    (registry : s'.engine.registry =
      s.engine.registry.insert id { beginTs := s'.engine.clock.last })
    (turns : ∀ i u, s'.Active i u →
      (i = id ∧ u = { id, beginTs := s'.engine.clock.last }) ∨ (i ≠ id ∧ s.Active i u)) :
    s'.Stands a := by
  refine ⟨store ▸ h.encodes, h.sound, fun i u hu => ?_, fun i u hu => ?_, fun i u hu => ?_,
    fun i u hu => ?_⟩
  all_goals rcases turns i u hu with ⟨rfl, rfl⟩ | ⟨hi, hu⟩
  · rfl
  · exact h.id_eq i u hu
  · exact ⟨by simp, by simp⟩
  · exact h.fits i u hu
  · exact UInt64.le_refl _
  · exact UInt64.le_trans (h.begin_le i u hu) clock
  · exact ⟨_, by rw [registry, OrderedMap.get?_insert_self], rfl⟩
  · rw [registry, OrderedMap.get?_insert_of_ne _ _ hi]
    exact h.registered i u hu

/-- After every move the session stands on the chains that the move says. -/
theorem Moves.stands (hm : s.Moves a s' op r a') (h : s.Stands a) (hop : op.Fits) :
    s'.Stands a' := by
  have hclock := hm.clock_le
  have erased {id i : TxnId} {u : Txn} {registry : Registry}
      (he : registry = s.engine.registry.erase id) (hi : i ≠ id) (hu : s.Active i u) :
      registry.get? i = s.engine.registry.get? i ∧
        ∃ t, s.Active i t ∧ u.id = t.id ∧ u.beginTs = t.beginTs ∧ (t.Fits → u.Fits) :=
    ⟨by rw [he, OrderedMap.get?_erase_of_ne _ hi], u, hu, rfl, rfl, fun hf => hf⟩
  cases hm with
  | idle silent engine turns =>
    refine h.next (engine.kept.encodes h.encodes) h.sound hclock fun i u hu => ?_
    exact ⟨by rw [engine.registry_eq], u, turns i u hu, rfl, rfl, fun hf => hf⟩
  | began name tick engine turns =>
    exact h.next_of_began hclock (by rw [engine]) (by rw [engine]) turns
  | own active write engine turns =>
    refine h.next (engine ▸ h.encodes) h.sound hclock fun i u hu => ?_
    exact ⟨by rw [engine], u, turns i u hu, rfl, rfl, fun hf => hf⟩
  | seen active write visible engine turns =>
    refine h.next (engine.kept.encodes h.encodes) h.sound hclock fun i u hu => ?_
    refine ⟨by rw [engine.registry_eq], ?_⟩
    rcases turns i u hu with ⟨rfl, rfl⟩ | ⟨-, hu⟩
    · exact ⟨_, active, rfl, rfl, fun hf => fits_record hf hop _⟩
    · exact ⟨u, hu, rfl, rfl, fun hf => hf⟩
  | put put active engine turns =>
    obtain ⟨hk, hp⟩ := fits_of_put? hop put
    refine h.next (engine ▸ h.encodes) h.sound hclock fun i u hu => ?_
    refine ⟨by rw [engine], ?_⟩
    rcases turns i u hu with ⟨rfl, rfl⟩ | ⟨-, hu⟩
    · exact ⟨_, active, rfl, rfl, fun hf => fits_put hf hk hp⟩
    · exact ⟨u, hu, rfl, rfl, fun hf => hf⟩
  | ended silent active engine turns =>
    refine h.next (engine.kept.encodes h.encodes) h.sound hclock fun i u hu => ?_
    exact erased engine.registry_eq (turns i u hu).1 (turns i u hu).2
  | settled active free writes engine turns =>
    refine h.next (engine.kept.encodes h.encodes) h.sound hclock fun i u hu => ?_
    exact erased engine.registry_eq (turns i u hu).1 (turns i u hu).2
  | committed active free writes tick engine leaves encodes turns =>
    have hsound := h.sound_commit active free tick
    refine h.next encodes ?_ hclock fun i u hu => ?_
    · cases leaves with
      | early undue count => exact hsound
      | failed due => exact hsound
      | collected due low_le => exact hsound.keep _
    · exact erased engine.registry_eq (turns i u hu).1 (turns i u hu).2
  | collected low_le engine clock encodes turns =>
    refine h.next encodes (h.sound.keep _) hclock fun i u hu => ?_
    exact ⟨by rw [engine.registry_eq], u, turns i u hu, rfl, rfl, fun hf => hf⟩

end Session

end Mvcc
