import Mathlib.Logic.Relation
import Mvcc.Proofs.AllOrNothing
import Mvcc.Proofs.Steps

/-!
# The life of a transaction

Between any two operations the registry lists the active transactions and no others, and a handle
says truly how far its transaction came. This needs nothing of the store: failures, damaged versions
and a clock that has run out change which way a transaction ends and not what is noted about it.

* `Txn.Orderly`, `Session.Orderly`: what handles and registry say, with `Orderly.next`.
* `Session.Over`: a transaction that has ended answers and changes nothing any more.
* `Acts.moved`, `judged_step`: handles move as they may, and a commit makes two moves.
* `Engine.Lifecycle`, `lifecycle`: the result for every run.
-/

namespace Mvcc

/-- A handle says truly how far its transaction came. -/
structure Txn.Orderly (t : Txn) : Prop where
  settled : t.status ≠ .validating
  commitTs_iff : t.commitTs.isSome = true ↔ t.status = .committed
  begin_le : ∀ ts ∈ t.commitTs, t.beginTs ≤ ts ∧ (ts = t.beginTs ↔ t.writes.isEmpty = true)
  aborted : t.status = .aborted → t.writes.isEmpty = true
  numbered : ∀ k w, t.writes.get? k = some w → (w.number.isSome = true ↔ t.status = .committed)

/-- A stage is reached from another by moves that may be made. -/
def Status.Leads : Status → Status → Prop :=
  Relation.ReflTransGen fun a b => a.mayBecome b = true

/-- What is asked of which transaction, as its stage decides. -/
def Op.asked? : Op → Option (TxnId × Action)
  | .read id _ => some (id, .read)
  | .write id .. => some (id, .write)
  | .delete id _ => some (id, .delete)
  | .commit id => some (id, .commit)
  | .abort id => some (id, .abort)
  | .begin | .drop _ | .collect | .issue | .flush => none

/-- The name that is given to a transaction. -/
def Event.name? : Event → Option TxnId
  | ⟨.begin, .began id _⟩ => some id
  | _ => none

/-- The names that were given. -/
def Trace.names (tr : Trace) : List TxnId := tr.filterMap Event.name?

namespace Txn

variable {t : Txn}

theorem orderly_begun (id : TxnId) (ts : Timestamp) : Orderly { id, beginTs := ts } where
  settled := by simp
  commitTs_iff := by simp
  begin_le := by simp
  aborted := by simp
  numbered := by simp

theorem Orderly.record (h : t.Orderly) (reads : ReadSet) : Orderly { t with reads } :=
  ⟨h.settled, h.commitTs_iff, h.begin_le, h.aborted, h.numbered⟩

theorem Orderly.put (h : t.Orderly) (active : t.status = .active) (k : RecordKey)
    (p : Option Payload) : Orderly { t with writes := t.writes.put k p } := by
  have hnone : ¬ t.commitTs.isSome = true := by simp [h.commitTs_iff, active]
  refine ⟨h.settled, h.commitTs_iff, fun ts hts => ?_, fun haborted => ?_, fun k' w hw => ?_⟩
  · -- no commit yet, so there is no timestamp to compare
    exact absurd (Option.isSome_of_mem hts) hnone
  · simp [active] at haborted
  · have hw' : (t.writes.insert k { payload := p }).get? k' = some w := hw
    rw [OrderedMap.get?_insert] at hw'
    split_ifs at hw'
    · cases hw'
      simp [active]
    · exact h.numbered k' w hw'

theorem Orderly.abort (h : t.Orderly) (active : t.status = .active) : t.aborted.Orderly := by
  have hnone : t.commitTs = none := by
    have := h.commitTs_iff
    simpa [active] using this
  refine ⟨by simp [Txn.aborted], by simp [Txn.aborted, hnone], ?_, fun _ => rfl, ?_⟩
  · intro ts hts
    simp [Txn.aborted, hnone] at hts
  · intro k w hw
    simp [Txn.aborted] at hw

theorem orderly_settled (writes : t.writes.isEmpty = true) :
    Orderly { t with status := .committed, commitTs := some t.beginTs } := by
  refine ⟨by simp, by simp, fun ts hts => ?_, by simp, fun k w hw => ?_⟩
  · cases hts
    exact ⟨UInt64.le_refl _, by simp [writes]⟩
  · have hw' : t.writes.get? k = some w := hw
    rw [(OrderedMap.isEmpty_iff _).1 writes k] at hw'
    cases hw'

theorem orderly_wrote {ws : WriteSet} {ts : Timestamp} (hlt : t.beginTs < ts)
    (writes : ws.isEmpty = false) (numbered : ∀ k w, ws.get? k = some w → w.number.isSome = true) :
    Orderly { t with status := .committed, commitTs := some ts, writes := ws } := by
  refine ⟨by simp, by simp, fun ts' hts => ?_, by simp, fun k w hw => ?_⟩
  · cases hts
    refine ⟨UInt64.le_of_lt hlt, ?_⟩
    have hne : ts ≠ t.beginTs := (UInt64.ne_of_lt hlt).symm
    simp [writes, hne]
  · simp [numbered k w hw]

theorem Moved.leads {id : TxnId} {op : Op} {r : Reply} {u : Txn} (h : t.Moved id op r u) :
    t.status.Leads u.status := by
  cases h with
  | seen => exact .refl
  | put => exact .refl
  | aborted _ may => exact .single may
  | judged judged =>
    cases judged with
    | aborted may => exact .tail (.single may) rfl
    | committed may => exact .tail (.single may) rfl

end Txn

namespace Session

/-- Names are given in ascending order for as long as timestamps are left: the last one is at or
above those that are held and does not run ahead of the clock. -/
structure Named (s : Session) : Prop where
  held_le : ∀ id t, s.held.get? id = some t → id.number ≤ s.engine.lastId
  lastId_le : s.engine.lastId ≤ s.engine.clock.last

/-- Registry and handles say the same, and so do names and clock. -/
structure Orderly (s : Session) : Prop where
  registered : ∀ id r, s.engine.registry.get? id = some r ↔
    ∃ t, s.Active id t ∧ r = { beginTs := t.beginTs }
  id_eq : ∀ id t, s.held.get? id = some t → t.id = id
  handles : ∀ id t, s.held.get? id = some t → t.Orderly
  begin_le : ∀ id t, s.held.get? id = some t → t.beginTs ≤ s.engine.clock.last
  named : s.engine.clock.last ≠ Timestamp.greatest → s.Named

variable {s s' : Session} {op : Op} {r : Reply} {id : TxnId} {t : Txn}

theorem orderly_session (store : Store) (clock : Clock) (every : Option UInt64) :
    (Engine.withClock store clock every).session.Orderly where
  registered id r := by
    constructor
    · intro h
      cases h
    · rintro ⟨t, ⟨h, -⟩, -⟩
      cases h
  id_eq id t h := by cases h
  handles id t h := by cases h
  begin_le id t h := by cases h
  named _ := ⟨fun id t h => (by cases h), UInt64.zero_le⟩

theorem ne_greatest_of_tick? {c c' : Clock} (tick : c.tick? = some c') :
    c.last ≠ Timestamp.greatest := by
  intro he
  rw [(Clock.tick?_eq_none_iff c).2 he] at tick
  cases tick

theorem toNat_name {last : UInt64} {c c' : Clock} (h : last ≤ c.last) (tick : c.tick? = some c') :
    (last + 1).toNat = last.toNat + 1 ∧ last + 1 ≤ c'.last := by
  have hle := UInt64.le_iff_toNat_le.1 h
  have hclock := Clock.toNat_last_of_tick? tick
  have hsize := c'.last.toNat_lt
  have hsucc : (last + 1).toNat = last.toNat + 1 := by
    rw [UInt64.toNat_add]
    show (last.toNat + 1) % 2 ^ 64 = _
    omega
  refine ⟨hsucc, ?_⟩
  rw [UInt64.le_iff_toNat_le]
  omega

theorem Orderly.ne_name (h : s.Orderly) {clock : Clock} (tick : s.engine.clock.tick? = some clock)
    (name : id.number = s.engine.lastId + 1) {i : TxnId} (hget : s.held.get? i = some t) :
    i ≠ id := by
  have hnamed := h.named (ne_greatest_of_tick? tick)
  obtain ⟨hname, -⟩ := toNat_name hnamed.lastId_le tick
  have hheld := UInt64.le_iff_toNat_le.1 (hnamed.held_le i t hget)
  rintro rfl
  rw [name] at hheld
  omega

theorem Orderly.named_next (h : s.Orderly)
    (clock : s'.engine.clock = s.engine.clock ∨ s.engine.clock.tick? = some s'.engine.clock)
    (lastId : s'.engine.lastId = s.engine.lastId)
    (held : ∀ i u, s'.held.get? i = some u → ∃ t, s.held.get? i = some t)
    (left : s'.engine.clock.last ≠ Timestamp.greatest) : s'.Named := by
  have hnamed : s.Named ∧ s.engine.clock.last ≤ s'.engine.clock.last := by
    refine ⟨h.named ?_, Clock.last_le_of_tick? clock⟩
    rcases clock with he | htick
    · rwa [he] at left
    · exact ne_greatest_of_tick? htick
  refine ⟨fun i u hu => ?_, ?_⟩
  · obtain ⟨t, ht⟩ := held i u hu
    rw [lastId]
    exact hnamed.1.held_le i t ht
  · rw [lastId]
    exact UInt64.le_trans hnamed.1.lastId_le hnamed.2

theorem get?_held {u : Txn} (held : s'.held = s.held.insert id u) :
    s'.held.get? id = some u ∧ ∀ i, i ≠ id → s'.held.get? i = s.held.get? i := by
  rw [held]
  exact ⟨OrderedMap.get?_insert_self _ _ _, fun i hi => OrderedMap.get?_insert_of_ne _ _ hi⟩

theorem Orderly.next_of_same (h : s.Orderly) (held : s'.held = s.held)
    (registry : s'.engine.registry = s.engine.registry)
    (clock : s'.engine.clock = s.engine.clock ∨ s.engine.clock.tick? = some s'.engine.clock)
    (named : s'.engine.clock.last ≠ Timestamp.greatest → s'.Named) : s'.Orderly where
  registered i u := by
    unfold Active
    rw [registry, held]
    exact h.registered i u
  id_eq i u hu := h.id_eq i u (held ▸ hu)
  handles i u hu := h.handles i u (held ▸ hu)
  begin_le i u hu := UInt64.le_trans (h.begin_le i u (held ▸ hu)) (Clock.last_le_of_tick? clock)
  named := named

theorem Orderly.next_of_one (h : s.Orderly) (id : TxnId)
    (others : ∀ i, i ≠ id → s'.held.get? i = s.held.get? i ∧
      s'.engine.registry.get? i = s.engine.registry.get? i)
    (self : ∀ u, s'.held.get? id = some u → u.id = id ∧ u.Orderly ∧
      u.beginTs ≤ s'.engine.clock.last)
    (registered : ∀ r, s'.engine.registry.get? id = some r ↔
      ∃ u, s'.Active id u ∧ r = { beginTs := u.beginTs })
    (clock : s'.engine.clock = s.engine.clock ∨ s.engine.clock.tick? = some s'.engine.clock)
    (named : s'.engine.clock.last ≠ Timestamp.greatest → s'.Named) : s'.Orderly := by
  have hcase (i : TxnId) (u : Txn) (hu : s'.held.get? i = some u) :
      i = id ∨ s.held.get? i = some u := by
    by_cases hi : i = id
    · exact Or.inl hi
    · exact Or.inr ((others i hi).1 ▸ hu)
  refine ⟨fun i r => ?_, fun i u hu => ?_, fun i u hu => ?_, fun i u hu => ?_, named⟩
  · by_cases hi : i = id
    · rw [hi]
      exact registered r
    · unfold Active
      rw [(others i hi).1, (others i hi).2]
      exact h.registered i r
  all_goals rcases hcase i u hu with rfl | hold
  · exact (self u hu).1
  · exact h.id_eq i u hold
  · exact (self u hu).2.1
  · exact h.handles i u hold
  · exact (self u hu).2.2
  · exact UInt64.le_trans (h.begin_le i u hold) (Clock.last_le_of_tick? clock)

theorem Orderly.next_of_ended (h : s.Orderly) (active : s.Active id t)
    (registry : s'.engine.registry = s.engine.registry.erase t.id)
    (clock : s'.engine.clock = s.engine.clock ∨ s.engine.clock.tick? = some s'.engine.clock)
    (lastId : s'.engine.lastId = s.engine.lastId) {u : Txn}
    (held : s'.held = s.held.insert id u) (hid : u.id = t.id) (hbegin : u.beginTs = t.beginTs)
    (status : u.status ≠ .active) (orderly : u.Orderly) : s'.Orderly := by
  rw [h.id_eq id t active.1] at registry hid
  obtain ⟨hself, hothers⟩ := get?_held held
  refine h.next_of_one id (fun i hi => ⟨hothers i hi, ?_⟩) (fun v hv => ?_) (fun r => ?_) clock
    (h.named_next clock lastId fun i v hv => ?_)
  · rw [registry, OrderedMap.get?_erase_of_ne _ hi]
  · obtain rfl : u = v := Option.some.inj (hself.symm.trans hv)
    refine ⟨hid, orderly, ?_⟩
    rw [hbegin]
    exact UInt64.le_trans (h.begin_le id t active.1) (Clock.last_le_of_tick? clock)
  · rw [registry, OrderedMap.get?_erase_self]
    constructor
    · intro hr
      cases hr
    · rintro ⟨v, ⟨hv, hactive⟩, -⟩
      obtain rfl : u = v := Option.some.inj (hself.symm.trans hv)
      exact absurd hactive status
  · by_cases hi : i = id
    · exact ⟨t, hi ▸ active.1⟩
    · exact ⟨v, (hothers i hi).symm.trans hv⟩

theorem Orderly.next_of_gone (h : s.Orderly)
    (registry : ∀ i, s'.engine.registry.get? i =
      if i = id then none else s.engine.registry.get? i)
    (clock : s'.engine.clock = s.engine.clock) (lastId : s'.engine.lastId = s.engine.lastId)
    (held : s'.held = s.held.erase id) : s'.Orderly := by
  have hself : s'.held.get? id = none := by rw [held, OrderedMap.get?_erase_self]
  have hothers : ∀ i, i ≠ id → s'.held.get? i = s.held.get? i := by
    intro i hi
    rw [held, OrderedMap.get?_erase_of_ne _ hi]
  refine h.next_of_one id (fun i hi => ⟨hothers i hi, by rw [registry, if_neg hi]⟩)
    (fun v hv => ?_) (fun r => ?_) (Or.inl clock) (h.named_next (Or.inl clock) lastId fun i v hv => ?_)
  · rw [hself] at hv
    cases hv
  · rw [registry, if_pos rfl]
    constructor
    · intro hr
      cases hr
    · rintro ⟨v, ⟨hv, -⟩, -⟩
      rw [hself] at hv
      cases hv
  · by_cases hi : i = id
    · rw [hi, hself] at hv
      cases hv
    · exact ⟨v, (hothers i hi).symm.trans hv⟩

theorem Orderly.next_of_kept (h : s.Orderly) (active : s.Active id t) {u : Txn}
    (registry : s'.engine.registry = s.engine.registry)
    (clock : s'.engine.clock = s.engine.clock) (lastId : s'.engine.lastId = s.engine.lastId)
    (held : s'.held = s.held.insert id u) (hid : u.id = t.id) (hbegin : u.beginTs = t.beginTs)
    (status : u.status = .active) (orderly : u.Orderly) : s'.Orderly := by
  obtain ⟨hself, hothers⟩ := get?_held held
  refine h.next_of_one id (fun i hi => ⟨hothers i hi, by rw [registry]⟩) (fun v hv => ?_)
    (fun r => ?_) (Or.inl clock) (h.named_next (Or.inl clock) lastId fun i v hv => ?_)
  · obtain rfl : u = v := Option.some.inj (hself.symm.trans hv)
    rw [clock, hid, hbegin]
    exact ⟨h.id_eq id t active.1, orderly, h.begin_le id t active.1⟩
  · rw [registry, h.registered id r]
    constructor
    · rintro ⟨v, hv, rfl⟩
      obtain rfl : t = v := Option.some.inj (active.1.symm.trans hv.1)
      exact ⟨u, ⟨hself, status⟩, by rw [hbegin]⟩
    · rintro ⟨v, ⟨hv, -⟩, rfl⟩
      obtain rfl : u = v := Option.some.inj (hself.symm.trans hv)
      exact ⟨t, active, by rw [hbegin]⟩
  · by_cases hi : i = id
    · exact ⟨t, hi ▸ active.1⟩
    · exact ⟨v, (hothers i hi).symm.trans hv⟩

theorem Orderly.next_of_begun (h : s.Orderly) (name : id.number = s.engine.lastId + 1)
    (tick : s.engine.clock.tick? = some s'.engine.clock)
    (registry : s'.engine.registry =
      s.engine.registry.insert id { beginTs := s'.engine.clock.last })
    (lastId : s'.engine.lastId = id.number)
    (held : s'.held = s.held.insert id { id, beginTs := s'.engine.clock.last }) : s'.Orderly := by
  have hnamed := h.named (ne_greatest_of_tick? tick)
  obtain ⟨hname, hle⟩ := toNat_name hnamed.lastId_le tick
  obtain ⟨hself, hothers⟩ := get?_held held
  refine h.next_of_one id (fun i hi => ⟨hothers i hi, ?_⟩) (fun u hu => ?_) (fun r => ?_)
    (Or.inr tick) fun _ => ⟨fun i u hu => ?_, ?_⟩
  · rw [registry, OrderedMap.get?_insert_of_ne _ _ hi]
  · cases hself.symm.trans hu
    exact ⟨rfl, Txn.orderly_begun id _, UInt64.le_refl _⟩
  · rw [registry, OrderedMap.get?_insert_self]
    constructor
    · intro hr
      cases hr
      exact ⟨_, ⟨hself, rfl⟩, rfl⟩
    · rintro ⟨u, ⟨hu, -⟩, rfl⟩
      cases hself.symm.trans hu
      rfl
  · rw [lastId]
    by_cases hi : i = id
    · rw [hi]
      exact UInt64.le_refl _
    · have hheld := hnamed.held_le i u ((hothers i hi).symm.trans hu)
      rw [UInt64.le_iff_toNat_le] at hheld ⊢
      rw [name]
      omega
  · rw [lastId, name]
    exact hle

theorem Orderly.next (h : s.Orderly) (hs : s.Acts s' op r) : s'.Orderly := by
  have same (held : s'.held = s.held) :
      ∀ i u, s'.held.get? i = some u → ∃ t, s.held.get? i = some t := by
    intro i u hu
    exact ⟨u, held ▸ hu⟩
  cases hs with
  | idle silent same =>
    rw [same]
    exact h
  | tended silent engine maxTs tree held =>
    have hclock : s'.engine.clock = s.engine.clock := by rw [engine]
    exact h.next_of_same held (by rw [engine]) (Or.inl hclock)
      (h.named_next (Or.inl hclock) (by rw [engine]) (same held))
  | spent last engine held =>
    -- names may be given again, but no transaction will have them
    have hclock : s'.engine.clock = s.engine.clock := by rw [engine]
    exact h.next_of_same held (by rw [engine]) (Or.inl hclock) fun left =>
      absurd (hclock ▸ last) left
  | began name tick engine held =>
    exact h.next_of_begun name tick (by rw [engine]) (by rw [engine]) held
  | issued tick engine held =>
    exact h.next_of_same held (by rw [engine]) (Or.inr tick)
      (h.named_next (Or.inr tick) (by rw [engine]) (same held))
  | seen active engine store held =>
    exact h.next_of_kept active (by rw [engine]) (by rw [engine]) (by rw [engine]) held rfl rfl
      active.2 ((h.handles _ _ active.1).record _)
  | put put active engine held =>
    exact h.next_of_kept active (by rw [engine]) (by rw [engine]) (by rw [engine]) held rfl rfl
      active.2 ((h.handles _ _ active.1).put active.2 _ _)
  | refused tells active clock engine store held =>
    exact h.next_of_ended active (by rw [engine]) clock (by rw [engine]) held rfl rfl
      (by simp [Txn.aborted]) ((h.handles _ _ active.1).abort active.2)
  | aborted active engine held =>
    exact h.next_of_ended active (by rw [engine]) (Or.inl (by rw [engine])) (by rw [engine]) held
      rfl rfl (by simp [Txn.aborted]) ((h.handles _ _ active.1).abort active.2)
  | dropped active engine held =>
    refine h.next_of_gone (fun i => ?_) (by rw [engine]) (by rw [engine]) held
    rw [engine, h.id_eq _ _ active.1]
    exact OrderedMap.get?_erase _ _ _
  | @released id t get status engine held =>
    refine h.next_of_gone (fun i => ?_) (by rw [engine]) (by rw [engine]) held
    rw [engine]
    split_ifs with hi
    · rw [hi, Option.eq_none_iff_forall_ne_some]
      intro r hr
      obtain ⟨u, ⟨hu, hactive⟩, -⟩ := (h.registered id r).1 hr
      obtain rfl : t = u := Option.some.inj (get.symm.trans hu)
      exact status hactive
    · rfl
  | settled active writes engine store held =>
    exact h.next_of_ended active (by rw [engine]) (Or.inl (by rw [engine])) (by rw [engine]) held
      rfl rfl (by simp) (Txn.orderly_settled writes)
  | @wrote id t ws active writes tick keys numbered engine maxTs held =>
    have hlt : t.beginTs < s'.engine.clock.last := by
      have hle := h.begin_le id t active.1
      have hlast := Clock.lt_last_of_tick? tick
      grind
    have hempty : ws.isEmpty = false := (OrderedMap.isEmpty_eq_of_keys_eq keys).trans writes
    exact h.next_of_ended active (by rw [engine]) (Or.inr tick) (by rw [engine]) held
      rfl rfl (by simp) (Txn.orderly_wrote hlt hempty numbered)

/-! ## Stages -/

/-- A transaction that has ended. What is asked of it is refused, but for one more abort of an
aborted one, and nothing changes. -/
structure Over (s : Session) (id : TxnId) (t : Txn) : Prop where
  refused : ∀ op action, op.asked? = some (id, action) → action ≠ .abort ∨ t.status = .committed →
    s.step op = (.failed (.wrongStage id t.status action), s)
  aborted : t.status = .aborted → s.step (.abort id) = (.done, s)
  dropped : s.step (.drop id) = (.dropped true, { s with held := s.held.erase id })

theorem over_of_not_active (hget : s.held.get? id = some t) (hid : t.id = id)
    (hactive : t.status ≠ .active) : s.Over id t := by
  have hsame := s.held.insert_of_get? hget
  refine ⟨fun op action hasked hmust => ?_, fun haborted => ?_, ?_⟩
  · cases op with
    | read i k =>
      cases hasked
      rw [step_read_of_not_active hget hactive, hsame, hid]
    | write i k p =>
      cases hasked
      rw [step, onTxn, hget]
      simp only [Txn.write, put_of_not_active _ _ _ hactive, hsame, hid]
      rfl
    | delete i k =>
      cases hasked
      rw [step, onTxn, hget]
      simp only [Txn.delete, put_of_not_active _ _ _ hactive, hsame, hid]
      rfl
    | commit i =>
      cases hasked
      rw [step_commit_of_not_active hget hactive, hsame, hid]
    | abort i =>
      cases hasked
      have hcommitted : t.status = .committed := hmust.resolve_left fun h => h rfl
      have hno : ¬ t.status = .aborted := by simp [hcommitted]
      rw [step, onTxn, hget]
      simp only [Engine.abort, dif_neg hactive, if_neg hno, hsame, hid]
      rfl
    | begin | drop | collect | issue | flush => cases hasked
  · rw [step, onTxn, hget]
    simp only [Engine.abort, dif_neg hactive, if_pos haborted, hsame]
    rfl
  · rw [step, hget]
    simp only [Engine.drop, dif_neg hactive]

/-- A commit of an active transaction makes both moves, however it ends. -/
theorem judged_step (active : s.Active id t) : ∃ u,
    (s.step (.commit id)).2.held.get? id = some u ∧ t.Judged (s.step (.commit id)).1 u := by
  have may := Engine.active_mayBecome_validating active.2
  rw [step, onTxn, active.1]
  simp only [Engine.commit, dif_pos active.2]
  rcases (s.engine.note t.id .validating).attempt (t.moveTo .validating may) with ⟨e | o, g⟩
  · exact ⟨_, OrderedMap.get?_insert_self _ _ _, .aborted may⟩
  · exact ⟨_, OrderedMap.get?_insert_self _ _ _, .committed may⟩

theorem Acts.moved (hs : s.Acts s' op r) (h : s.Orderly) {u : Txn}
    (ht : s.held.get? id = some t) (hu : s'.held.get? id = some u) :
    u = t ∨ t.status = .active ∧ t.Moved id op r u := by
  rcases hs.held_cases hu with hold | ⟨x, active, moved⟩ | ⟨clock, name, tick, -⟩
  · exact Or.inl (Option.some.inj (hold.symm.trans ht))
  · obtain rfl : x = t := Option.some.inj (active.1.symm.trans ht)
    exact Or.inr ⟨active.2, moved⟩
  · exact absurd rfl (h.ne_name tick name ht)

/-! ## Names -/

/-- No name was given twice, and while timestamps are left the last one is the greatest. -/
structure Distinct (tr : Trace) (s : Session) : Prop where
  nodup : tr.names.Nodup
  name_le : s.engine.clock.last ≠ Timestamp.greatest → ∀ i ∈ tr.names, i.number ≤ s.engine.lastId

variable {tr : Trace}

theorem names_concat (tr : Trace) (e : Event) : (tr ++ [e]).names = tr.names ++ e.name?.toList := by
  unfold Trace.names
  rw [List.filterMap_append]
  cases h : e.name? <;> simp [h]

theorem Distinct.next_of_unnamed (h : Distinct tr s) (hnone : Event.name? ⟨op, r⟩ = none)
    (clock : s'.engine.clock = s.engine.clock ∨ s.engine.clock.tick? = some s'.engine.clock)
    (lastId : s'.engine.lastId = s.engine.lastId ∨ s'.engine.clock.last = Timestamp.greatest) :
    Distinct (tr ++ [⟨op, r⟩]) s' := by
  have hnames : Trace.names (tr ++ [⟨op, r⟩]) = tr.names := by simp [names_concat, hnone]
  refine ⟨hnames ▸ h.nodup, fun left i hi => ?_⟩
  rw [lastId.resolve_right left]
  refine h.name_le ?_ i (hnames ▸ hi)
  rcases clock with he | htick
  · exact he ▸ left
  · exact ne_greatest_of_tick? htick

theorem Distinct.next_of_begun (h : Distinct tr s) (ho : s.Orderly)
    (name : id.number = s.engine.lastId + 1) (tick : s.engine.clock.tick? = some s'.engine.clock)
    (lastId : s'.engine.lastId = id.number) :
    Distinct (tr ++ [⟨.begin, .began id s'.engine.clock.last⟩]) s' := by
  have left := ne_greatest_of_tick? tick
  obtain ⟨hname, -⟩ := toNat_name (ho.named left).lastId_le tick
  have hnames : Trace.names (tr ++ [⟨.begin, .began id s'.engine.clock.last⟩]) =
      tr.names ++ [id] := names_concat _ _
  have hlt : ∀ i ∈ tr.names, i.number.toNat < id.number.toNat := by
    intro i hi
    have hle := UInt64.le_iff_toNat_le.1 (h.name_le left i hi)
    rw [name]
    omega
  refine ⟨?_, fun _ i hi => ?_⟩
  · rw [hnames, List.nodup_append]
    refine ⟨h.nodup, List.nodup_singleton id, fun i hi j hj hij => ?_⟩
    have hbelow := hlt i hi
    rw [hij, List.mem_singleton.1 hj] at hbelow
    omega
  · rw [hnames, List.mem_append, List.mem_singleton] at hi
    rw [lastId, UInt64.le_iff_toNat_le]
    rcases hi with hi | rfl
    · exact Nat.le_of_lt (hlt i hi)
    · exact Nat.le_refl _

theorem Distinct.next (h : Distinct tr s) (ho : s.Orderly) (hs : s.Acts s' op r) :
    Distinct (tr ++ [⟨op, r⟩]) s' := by
  have unnamed (silent : Event.tells ⟨op, r⟩ = false) : Event.name? ⟨op, r⟩ = none := by
    unfold Event.name?
    split
    · next heq =>
      rw [heq] at silent
      cases silent
    · rfl
  have failed (e : TxnError) : Event.name? ⟨op, .failed e⟩ = none := by cases op <;> rfl
  have done : Event.name? ⟨op, .done⟩ = none := by cases op <;> rfl
  cases hs with
  | idle silent same =>
    exact h.next_of_unnamed (unnamed silent) (Or.inl (by rw [same])) (Or.inl (by rw [same]))
  | tended silent engine =>
    exact h.next_of_unnamed (unnamed silent) (Or.inl (by rw [engine])) (Or.inl (by rw [engine]))
  | spent last engine =>
    exact h.next_of_unnamed rfl (Or.inl (by rw [engine])) (Or.inr (by rw [engine]; exact last))
  | began name tick engine => exact h.next_of_begun ho name tick (by rw [engine])
  | issued tick engine => exact h.next_of_unnamed rfl (Or.inr tick) (Or.inl (by rw [engine]))
  | seen _ engine =>
    exact h.next_of_unnamed rfl (Or.inl (by rw [engine])) (Or.inl (by rw [engine]))
  | put _ _ engine =>
    exact h.next_of_unnamed done (Or.inl (by rw [engine])) (Or.inl (by rw [engine]))
  | refused _ _ clock engine => exact h.next_of_unnamed (failed _) clock (Or.inl (by rw [engine]))
  | aborted _ engine =>
    exact h.next_of_unnamed rfl (Or.inl (by rw [engine])) (Or.inl (by rw [engine]))
  | dropped _ engine =>
    exact h.next_of_unnamed rfl (Or.inl (by rw [engine])) (Or.inl (by rw [engine]))
  | released _ _ engine =>
    exact h.next_of_unnamed rfl (Or.inl (by rw [engine])) (Or.inl (by rw [engine]))
  | settled _ _ engine =>
    exact h.next_of_unnamed rfl (Or.inl (by rw [engine])) (Or.inl (by rw [engine]))
  | wrote _ _ tick _ _ engine =>
    exact h.next_of_unnamed rfl (Or.inr tick) (Or.inl (by rw [engine]))

end Session

/-! ## Runs -/

namespace Engine

open Session

/-- What is true of registry, handles and names between any two operations, and what the next
operation does to them. -/
structure Lifecycle (g : Engine) (ops : List Op) : Prop where
  registered : ∀ id r, (g.after ops).engine.registry.get? id = some r ↔
    ∃ t, (g.after ops).Active id t ∧ r = { beginTs := t.beginTs, status := .active }
  handles : ∀ id t, (g.after ops).held.get? id = some t → t.id = id ∧ t.Orderly
  names : (g.trace ops).names.Nodup
  stages : ∀ op id t u, (g.after ops).held.get? id = some t →
    ((g.after ops).step op).2.held.get? id = some u → t.status.Leads u.status
  /-- Only active transactions change. -/
  moved : ∀ op id t u, (g.after ops).held.get? id = some t →
    ((g.after ops).step op).2.held.get? id = some u →
      u = t ∨ t.status = .active ∧ t.Moved id op ((g.after ops).step op).1 u
  judged : ∀ id t, (g.after ops).Active id t → ∃ u,
    ((g.after ops).step (.commit id)).2.held.get? id = some u ∧
      t.Judged ((g.after ops).step (.commit id)).1 u
  ended : ∀ id t, (g.after ops).held.get? id = some t → t.status.isTerminal = true →
    (g.after ops).Over id t

theorem orderly_run (store : Store) (clock : Clock) (every : Option UInt64) (ops : List Op) :
    ((withClock store clock every).after ops).Orderly ∧
      Distinct ((withClock store clock every).trace ops)
        ((withClock store clock every).after ops) := by
  induction ops using List.reverseRecOn with
  | nil =>
    refine ⟨orderly_session store clock every, List.nodup_nil, fun _ i hi => ?_⟩
    cases hi
  | append_singleton ops op ih =>
    obtain ⟨horderly, hdistinct⟩ := ih
    have hacts := acts_step ((withClock store clock every).after ops) op
    rw [after_concat, trace_concat]
    exact ⟨horderly.next hacts, hdistinct.next horderly hacts⟩

/-- The life of a transaction is the same over every store, whatever fails and however the clock
stands: it is registered while it is active and at no other time, it passes from stage to stage as it
may, and once it has ended nothing is done for it any more. -/
theorem lifecycle (store : Store) (clock : Clock) (every : Option UInt64) (ops : List Op) :
    (withClock store clock every).Lifecycle ops := by
  obtain ⟨horderly, hdistinct⟩ := orderly_run store clock every ops
  refine ⟨horderly.registered, fun id t ht => ⟨horderly.id_eq id t ht, horderly.handles id t ht⟩,
    hdistinct.nodup, fun op id t u ht hu => ?_,
    fun op id t u ht hu => (acts_step _ op).moved horderly ht hu,
    fun id t active => judged_step active, fun id t ht hended => ?_⟩
  · rcases (acts_step _ op).moved horderly ht hu with rfl | ⟨-, moved⟩
    · exact .refl
    · exact moved.leads
  · refine over_of_not_active ht (horderly.id_eq id t ht) fun hactive => ?_
    rw [hactive] at hended
    cases hended

end Engine

end Mvcc
