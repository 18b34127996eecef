import Mvcc.Proofs.Session

/-!
# What a trace tells of active transactions

The begin timestamp of an active transaction and its pending writes can be read off the trace. This
needs names that are given once: a name is only given along with a timestamp, so names run out no
sooner than timestamps do.

* `Trace.Records`, with `Records.next`.
* `Records.unused`: a name that is given along with a timestamp is new.
-/

namespace Mvcc

open Session
open Engine (carries_of_eq)

theorem Op.deed?_of_put? {op : Op} {id : TxnId} {k : RecordKey} {p : Option Payload}
    (h : op.put? = some (id, k, p)) (i : TxnId) :
    Event.deed? ⟨op, .done⟩ i = if id = i then some (.put k p) else none := by
  cases op <;> cases h <;> rfl

theorem Event.begin?_done (op : Op) (i : TxnId) : Event.begin? ⟨op, .done⟩ i = none := by
  cases op <;> rfl

theorem Event.commit?_done (op : Op) (past : Trace) : Event.commit? ⟨op, .done⟩ past = none := by
  cases op <;> rfl

namespace Trace

/-- The trace tells what active transactions did, and names are given once. -/
structure Records (tr : Trace) (s : Session) : Prop where
  names : s.engine.clock.last = Timestamp.greatest ∨
    s.engine.lastId.toNat ≤ s.engine.clock.last.toNat ∧
      ∀ id : TxnId, s.engine.lastId < id.number → tr.beginTs? id = none ∧ tr.deeds id = []
  began : ∀ id t, s.Active id t → tr.beginTs? id = some t.beginTs
  puts : ∀ id t, s.Active id t → ∀ k,
    lastPut? (tr.deeds id) k = (t.writes.get? k).map (·.payload)

variable {tr : Trace} {s s' : Session} {a a' : Chains} {op : Op} {r : Reply}

theorem records_nil (g : Engine) (h : g.lastId = 0) : Records [] { engine := g } where
  names := Or.inr ⟨by simp [h], fun _ _ => ⟨rfl, rfl⟩⟩
  began _ _ h := by cases h.1
  puts _ _ h := by cases h.1

theorem Records.names_next (h : tr.Records s) {registry : Registry} {e : Event}
    (engine : s.engine.Carries s'.engine registry) (begins : ∀ i, e.begin? i = none)
    (deeds : ∀ i, e.deed? i = none ∨ tr.beginTs? i ≠ none) :
    s'.engine.clock.last = Timestamp.greatest ∨
      s'.engine.lastId.toNat ≤ s'.engine.clock.last.toNat ∧
        ∀ id : TxnId, s'.engine.lastId < id.number →
          (tr ++ [e]).beginTs? id = none ∧ (tr ++ [e]).deeds id = [] := by
  -- a begin that fails uses up a name, but only when timestamps have run out
  by_cases hlast : s.engine.clock.last = Timestamp.greatest
  · refine Or.inl ?_
    rcases engine.clock with he | htick
    · rw [he, hlast]
    · rw [(Clock.tick?_eq_none_iff _).2 hlast] at htick
      cases htick
  · obtain ⟨hle, hnew⟩ := h.names.resolve_left hlast
    have hid : s'.engine.lastId = s.engine.lastId := engine.lastId_eq.resolve_right hlast
    refine Or.inr ⟨?_, fun id hlt => ?_⟩
    · rw [hid]
      exact Nat.le_trans hle (UInt64.le_iff_toNat_le.1 engine.clock_le)
    · rw [hid] at hlt
      obtain ⟨hbegin, hdeeds⟩ := hnew id hlt
      have hdeed : e.deed? id = none := (deeds id).resolve_right fun hne => hne hbegin
      rw [beginTs?_concat, deeds_concat, begins, hbegin, hdeeds, hdeed]
      exact ⟨rfl, rfl⟩

theorem Records.next_of_deed (h : tr.Records s) {registry : Registry} {e : Event}
    (engine : s.engine.Carries s'.engine registry) (begins : ∀ i, e.begin? i = none)
    (deeds : ∀ i, e.deed? i = none ∨ tr.beginTs? i ≠ none)
    (turns : ∀ i u, s'.Active i u → ∃ t, s.Active i t ∧ u.beginTs = t.beginTs ∧
      ∀ k, lastPut? (tr.deeds i ++ (e.deed? i).toList) k = (u.writes.get? k).map (·.payload)) :
    (tr ++ [e]).Records s' := by
  refine ⟨h.names_next engine begins deeds, fun i u hu => ?_, fun i u hu k => ?_⟩
  all_goals obtain ⟨t, ht, hbegin, hputs⟩ := turns i u hu
  · rw [beginTs?_concat, begins, hbegin, h.began i t ht]
    rfl
  · rw [deeds_concat]
    exact hputs k

theorem Records.next_of_silent (h : tr.Records s) {registry : Registry} {e : Event}
    (engine : s.engine.Carries s'.engine registry) (begins : ∀ i, e.begin? i = none)
    (deeds : ∀ i, e.deed? i = none) (turns : ∀ i u, s'.Active i u → s.Active i u) :
    (tr ++ [e]).Records s' := by
  refine h.next_of_deed engine begins (fun i => Or.inl (deeds i)) fun i u hu => ?_
  refine ⟨u, turns i u hu, rfl, fun k => ?_⟩
  rw [deeds, Option.toList_none, List.append_nil]
  exact h.puts i u (turns i u hu) k

theorem Records.next_of_read (h : tr.Records s) {registry : Registry} {id : TxnId} {k : RecordKey}
    {t : Txn} {found : Option Payload} (active : s.Active id t)
    (engine : s.engine.Carries s'.engine registry)
    (turns : ∀ i u, s'.Active i u →
      ∃ t, s.Active i t ∧ u.beginTs = t.beginTs ∧ u.writes = t.writes) :
    (tr ++ [Event.mk (.read id k) (.found found)]).Records s' := by
  refine h.next_of_deed engine (fun _ => rfl) (fun i => ?_) fun i u hu => ?_
  · by_cases hi : id = i
    · subst hi
      exact Or.inr (by simp [h.began id t active])
    · exact Or.inl (if_neg hi)
  · obtain ⟨t', ht', hbegin, hwrites⟩ := turns i u hu
    refine ⟨t', ht', hbegin, fun k' => ?_⟩
    rw [hwrites, ← h.puts i t' ht' k']
    show lastPut? (tr.deeds i ++ (if id = i then some (Deed.read k found) else none).toList) k' = _
    split_ifs
    · exact lastPut?_read _ _ _ _
    · rw [Option.toList_none, List.append_nil]

theorem Records.next_of_put (h : tr.Records s) {id : TxnId} {k : RecordKey} {p : Option Payload}
    {t : Txn} (put : op.put? = some (id, k, p)) (active : s.Active id t)
    (engine : s'.engine = s.engine)
    (turns : ∀ i u, s'.Active i u →
      i = id ∧ u = { t with writes := t.writes.put k p } ∨ i ≠ id ∧ s.Active i u) :
    (tr ++ [Event.mk op .done]).Records s' := by
  refine h.next_of_deed (carries_of_eq engine) (Event.begin?_done op) (fun i => ?_) fun i u hu => ?_
  · rw [Op.deed?_of_put? put]
    by_cases hi : id = i
    · subst hi
      exact Or.inr (by simp [h.began id t active])
    · exact Or.inl (if_neg hi)
  · rcases turns i u hu with ⟨rfl, rfl⟩ | ⟨hi, hu⟩
    · refine ⟨t, active, rfl, fun k' => ?_⟩
      rw [Op.deed?_of_put? put, if_pos rfl, Option.toList_some, lastPut?_put]
      have hput : (t.writes.put k p).get? k' =
          if k' = k then some { payload := p } else t.writes.get? k' :=
        OrderedMap.get?_insert _ _ _ _
      rw [hput]
      split_ifs
      · rfl
      · exact h.puts i t active k'
    · refine ⟨u, hu, rfl, fun k' => ?_⟩
      rw [Op.deed?_of_put? put, if_neg (Ne.symm hi), Option.toList_none, List.append_nil]
      exact h.puts i u hu k'

/-- A name that is given with a timestamp was never given before. -/
theorem Records.unused (h : tr.Records s) {id : TxnId} {clock : Clock}
    (name : id.number = s.engine.lastId + 1) (tick : s.engine.clock.tick? = some clock) :
    id.number.toNat = s.engine.lastId.toNat + 1 ∧ id.number.toNat ≤ clock.last.toNat ∧
      ∀ i : TxnId, id.number ≤ i.number → tr.beginTs? i = none ∧ tr.deeds i = [] := by
  have hlast : s.engine.clock.last ≠ Timestamp.greatest := fun he => by
    rw [(Clock.tick?_eq_none_iff _).2 he] at tick
    cases tick
  obtain ⟨hle, hnew⟩ := h.names.resolve_left hlast
  have htick := Clock.toNat_last_of_tick? tick
  have hsize := clock.last.toNat_lt
  have hnumber : id.number.toNat = s.engine.lastId.toNat + 1 := by
    rw [name, UInt64.toNat_add]
    show (s.engine.lastId.toNat + 1) % 2 ^ 64 = _
    omega
  refine ⟨hnumber, by omega, fun i hi => hnew i ?_⟩
  rw [UInt64.le_iff_toNat_le] at hi
  rw [UInt64.lt_iff_toNat_lt]
  omega

theorem Records.next_of_begin (h : tr.Records s) {id : TxnId}
    (name : id.number = s.engine.lastId + 1) (tick : s.engine.clock.tick? = some s'.engine.clock)
    (lastId : s'.engine.lastId = id.number)
    (turns : ∀ i u, s'.Active i u →
      i = id ∧ u = { id, beginTs := s'.engine.clock.last } ∨ i ≠ id ∧ s.Active i u) :
    (tr ++ [Event.mk .begin (.began id s'.engine.clock.last)]).Records s' := by
  obtain ⟨-, hle, hunused⟩ := h.unused name tick
  refine ⟨Or.inr ⟨by rw [lastId]; exact hle, fun i hi => ?_⟩, fun i u hu => ?_, fun i u hu k => ?_⟩
  · rw [lastId] at hi
    obtain ⟨hbegin, hdeeds⟩ := hunused i (UInt64.le_of_lt hi)
    have hne : id ≠ i := by
      rintro rfl
      exact UInt64.lt_irrefl _ hi
    rw [beginTs?_concat, deeds_concat, hbegin, hdeeds]
    exact ⟨if_neg hne, rfl⟩
  · rw [beginTs?_concat]
    rcases turns i u hu with ⟨rfl, rfl⟩ | ⟨-, hu⟩
    · rw [(hunused i (UInt64.le_refl _)).1]
      exact if_pos rfl
    · rw [h.began i u hu]
      rfl
  · rw [deeds_concat]
    show lastPut? (tr.deeds i ++ []) k = _
    rw [List.append_nil]
    rcases turns i u hu with ⟨rfl, rfl⟩ | ⟨-, hu⟩
    · rw [(hunused i (UInt64.le_refl _)).2]
      rfl
    · exact h.puts i u hu k

theorem Records.next (h : tr.Records s) (hm : s.Moves a s' op r a') :
    (tr ++ [Event.mk op r]).Records s' := by
  cases hm with
  | idle silent engine turns =>
    exact h.next_of_silent engine.toCarries silent.begin? silent.deed? turns
  | began name tick engine turns => exact h.next_of_begin name tick (by rw [engine]) turns
  | own active write engine turns =>
    refine h.next_of_read active (carries_of_eq engine) fun i u hu => ?_
    exact ⟨u, turns i u hu, rfl, rfl⟩
  | seen active write visible engine turns =>
    refine h.next_of_read active engine.toCarries fun i u hu => ?_
    rcases turns i u hu with ⟨rfl, rfl⟩ | ⟨-, hu⟩
    · exact ⟨_, active, rfl, rfl⟩
    · exact ⟨u, hu, rfl, rfl⟩
  | put put active engine turns => exact h.next_of_put put active engine turns
  | ended silent active engine turns =>
    exact h.next_of_silent engine.toCarries silent.begin? silent.deed?
      fun i u hu => (turns i u hu).2
  | settled active free writes engine turns =>
    exact h.next_of_silent engine.toCarries (fun _ => rfl) (fun _ => rfl)
      fun i u hu => (turns i u hu).2
  | committed active free writes tick engine leaves encodes turns =>
    exact h.next_of_silent engine (fun _ => rfl) (fun _ => rfl) fun i u hu => (turns i u hu).2
  | collected low_le engine clock encodes turns =>
    exact h.next_of_silent engine (fun _ => rfl) (fun _ => rfl) turns

end Trace

end Mvcc
